import Mathlib.Order.Monotone.Basic
import Mathlib.Tactic

/-!
# Layouts of blocks in a row

Blocks stand next to each other; each holds items at fixed offsets.  Splitting a block, enlarging one
and fusing two keep every item's place relative to the items before it, or move it away from them.

* `At rs n i p`: item `n` is in block number `i`, at position `p` of the row;
* `Moves rs rs'`: items keep the order of their blocks, and distances to the right never shrink;
* `Moves.split`, `Moves.enlarge`, `Moves.fuse`, `Moves.push`, `Moves.append_left`: the changes that do
  so, anywhere in the row;
* `Moves.separated`, `Moves.within`: what was apart, or inside, stays so.
-/

namespace Lib

variable {ι : Type*}

/-- A block: its size and its items with their offsets, which may lie anywhere. -/
structure Block (ι : Type*) where
  size : ℕ
  items : List (ι × ℕ)

/-- The items moved by `d`. -/
def shiftItems (d : ℕ) (items : List (ι × ℕ)) : List (ι × ℕ) := items.map fun x => (x.1, d + x.2)

/-- The total size of a row. -/
def total : List (Block ι) → ℕ
  | [] => 0
  | b :: bs => b.size + total bs

/-- Item `n` is in block number `i` of the row, at position `p`. -/
def At : List (Block ι) → ι → ℕ → ℕ → Prop
  | [], _, _, _ => False
  | b :: _, n, 0, p => (n, p) ∈ b.items
  | b :: bs, n, i + 1, p => ∃ q, At bs n i q ∧ p = b.size + q

/-- `f` numbers the blocks anew and `g` says how far the items of a block move. -/
structure MovesBy (f g : ℕ → ℕ) (rs rs' : List (Block ι)) : Prop where
  mono_f : Monotone f
  mono_g : Monotone g
  item : ∀ n i p, At rs n i p → At rs' n (f i) (p + g i)
  le : total rs ≤ total rs'
  room : ∀ n i p, At rs n i p → total rs + g i ≤ total rs'

/-- Items keep the order of their blocks, and distances to the right never shrink. -/
def Moves (rs rs' : List (Block ι)) : Prop := ∃ f g, MovesBy f g rs rs'

variable {rs rs' rs'' : List (Block ι)} {n m : ι} {i j p q : ℕ}

theorem total_append (rs rs' : List (Block ι)) : total (rs ++ rs') = total rs + total rs' := by
  induction rs with
  | nil => exact (Nat.zero_add _).symm
  | cons b bs ih =>
    show b.size + total (bs ++ rs') = b.size + total bs + total rs'
    rw [ih, Nat.add_assoc]

theorem At.append_left (bs : List (Block ι)) (h : At rs n i p) :
    At (bs ++ rs) n (bs.length + i) (total bs + p) := by
  induction bs with
  | nil => simpa [total] using h
  | cons b bs ih =>
    rw [List.length_cons, Nat.succ_add]
    exact ⟨_, ih, Nat.add_assoc _ _ _⟩

/-! ### `Moves` composes -/

theorem Moves.refl (rs : List (Block ι)) : Moves rs rs :=
  ⟨id, fun _ => 0, monotone_id, monotone_const, fun _ _ _ h => h, le_rfl, fun _ _ _ _ => le_rfl⟩

theorem Moves.trans (h : Moves rs rs') (h' : Moves rs' rs'') : Moves rs rs'' := by
  obtain ⟨f, g, hf, hg, hi, hle, ht⟩ := h
  obtain ⟨f', g', hf', hg', hi', hle', ht'⟩ := h'
  refine ⟨f' ∘ f, fun i => g i + g' (f i), hf'.comp hf, hg.add (hg'.comp hf), ?_,
    hle.trans hle', ?_⟩
  · intro n i p h
    have h2 := hi' n (f i) (p + g i) (hi n i p h)
    rwa [Nat.add_assoc] at h2
  · intro n i p h
    have h1 := ht n i p h
    have h2 := ht' n (f i) (p + g i) (hi n i p h)
    show total rs + (g i + g' (f i)) ≤ total rs''
    omega

/-- A number function on the tail of a row, taken to the row: the first value is `a`. -/
def consFun (a : ℕ) (f : ℕ → ℕ) : ℕ → ℕ
  | 0 => a
  | i + 1 => f i

theorem monotone_consFun {a : ℕ} {f : ℕ → ℕ} (hf : Monotone f) (ha : ∀ i, a ≤ f i) :
    Monotone (consFun a f) := by
  intro i j hij
  cases i with
  | zero =>
    cases j with
    | zero => exact le_rfl
    | succ j => exact ha j
  | succ i =>
    cases j with
    | zero => exact absurd hij (Nat.not_succ_le_zero i)
    | succ j => exact hf (Nat.succ_le_succ_iff.1 hij)

theorem Moves.cons (b : Block ι) (h : Moves rs rs') : Moves (b :: rs) (b :: rs') := by
  obtain ⟨f, g, hf, hg, hi, hle, ht⟩ := h
  have hsucc : Monotone fun i => f i + 1 := fun i j hij => Nat.succ_le_succ (hf hij)
  refine ⟨consFun 0 fun i => f i + 1, consFun 0 g, monotone_consFun hsucc fun _ => Nat.zero_le _,
    monotone_consFun hg fun _ => Nat.zero_le _, ?_, Nat.add_le_add_left hle _, ?_⟩
  · intro n i p h
    cases i with
    | zero => exact h
    | succ i =>
      obtain ⟨q, hq, rfl⟩ := h
      exact ⟨q + g i, hi n i q hq, Nat.add_assoc _ _ _⟩
  · intro n i p h
    cases i with
    | zero => exact Nat.add_le_add_left hle _
    | succ i =>
      obtain ⟨q, hq, rfl⟩ := h
      have h1 := ht n i q hq
      show b.size + total rs + g i ≤ b.size + total rs'
      omega

theorem Moves.append_left (bs : List (Block ι)) (h : Moves rs rs') :
    Moves (bs ++ rs) (bs ++ rs') := by
  induction bs with
  | nil => exact h
  | cons b bs ih => exact ih.cons b

/-! ### The changes -/

theorem Moves.push (rs : List (Block ι)) (b : Block ι) : Moves rs (rs ++ [b]) := by
  have h : Moves [] [b] := ⟨id, fun _ => 0, monotone_id, monotone_const, fun _ _ _ h => h.elim,
    Nat.zero_le _, fun _ _ _ h => h.elim⟩
  simpa using h.append_left rs

/-- The end of a block becomes a block of its own; the items stay where they are. -/
theorem Moves.split (s r : ℕ) (items items' : List (ι × ℕ)) (bs : List (Block ι)) :
    Moves (⟨s + r, items⟩ :: bs) (⟨s, items⟩ :: ⟨r, items'⟩ :: bs) := by
  refine ⟨consFun 0 fun i => i + 2, fun _ => 0, monotone_consFun (fun _ _ h => by omega) (by simp),
    monotone_const, ?_, (Nat.add_assoc s r _).le, fun _ _ _ _ => (Nat.add_assoc s r _).le⟩
  intro n i p h
  cases i with
  | zero => exact h
  | succ i =>
    obtain ⟨q, hq, rfl⟩ := h
    exact ⟨r + q, ⟨q, hq, rfl⟩, Nat.add_assoc s r q⟩

/-- A block grows; the blocks after it move. -/
theorem Moves.enlarge {s s' : ℕ} (hs : s ≤ s') (items : List (ι × ℕ)) (bs : List (Block ι)) :
    Moves (⟨s, items⟩ :: bs) (⟨s', items⟩ :: bs) := by
  refine ⟨id, consFun 0 fun _ => s' - s, monotone_id, monotone_consFun monotone_const (by simp), ?_,
    Nat.add_le_add_right hs _, ?_⟩
  · intro n i p h
    cases i with
    | zero => exact h
    | succ i =>
      obtain ⟨q, hq, rfl⟩ := h
      refine ⟨q, hq, ?_⟩
      show s + q + (s' - s) = s' + q
      omega
  · intro n i p h
    have hle : consFun 0 (fun _ => s' - s) i ≤ s' - s := by
      cases i with
      | zero => exact Nat.zero_le _
      | succ i => exact le_rfl
    show s + total bs + _ ≤ s' + total bs
    omega

/-- Two neighbours become one; the items of the second are moved by the size of the first. -/
theorem Moves.fuse (s r : ℕ) (items items' : List (ι × ℕ)) (bs : List (Block ι)) :
    Moves (⟨s, items⟩ :: ⟨r, items'⟩ :: bs) (⟨s + r, items ++ shiftItems s items'⟩ :: bs) := by
  refine ⟨fun i => i - 1, fun _ => 0, fun _ _ h => Nat.sub_le_sub_right h 1, monotone_const, ?_,
    (Nat.add_assoc s r _).ge, fun _ _ _ _ => (Nat.add_assoc s r _).ge⟩
  intro n i p h
  match i, h with
  | 0, h => exact List.mem_append_left _ h
  | 1, ⟨q, hq, hp⟩ =>
    subst hp
    exact List.mem_append_right _ (List.mem_map.2 ⟨(n, q), hq, rfl⟩)
  | i + 2, ⟨_, ⟨q, hq, rfl⟩, hp⟩ =>
    subst hp
    exact ⟨q, hq, (Nat.add_assoc _ _ _).symm⟩

/-! ### What stays apart -/

/-- What was apart stays apart. -/
theorem Moves.separated (h : Moves rs rs') (hn : At rs n i p) (hm : At rs m j q) (hij : i ≤ j) {k : ℕ}
    (hpq : p + k ≤ q) : ∃ i' p' j' q', At rs' n i' p' ∧ At rs' m j' q' ∧ p' + k ≤ q' := by
  obtain ⟨f, g, -, hg, hi, -, -⟩ := h
  refine ⟨f i, p + g i, f j, q + g j, hi n i p hn, hi m j q hm, ?_⟩
  have := hg hij
  omega

/-- What was inside stays inside. -/
theorem Moves.within (h : Moves rs rs') (hn : At rs n i p) {k : ℕ} (hp : p + k ≤ total rs) :
    ∃ i' p', At rs' n i' p' ∧ p' + k ≤ total rs' := by
  obtain ⟨f, g, -, -, hi, -, ht⟩ := h
  refine ⟨f i, p + g i, hi n i p hn, ?_⟩
  have := ht n i p hn
  omega

end Lib
