import Mathlib.Data.List.Basic
import Mathlib.Algebra.BigOperators.Group.List.Basic
import Mathlib.Tactic.Ring
import Mathlib.Tactic.Linarith

/-!
# Broadcasting

A tensor is repeated along the dimensions in which it has length one.

* `pad`: a shape aligned to the right of another, and `index`: where the element of the broadcast
  tensor with number `o` is in the smaller one;
* `Same`: two alignments with the same addresses, and the rules to transform an alignment;
* `index_self`: where nothing is repeated, the addresses are equal;
* `Coords`, `index_largeAt`, `exists_coords`: the elements by their coordinates.
-/

namespace Lib.Broadcast

/-- The dimensions of the smaller and the larger tensor: missing ones are `1`. -/
def pad (small large : List ℕ) : List (ℕ × ℕ) :=
  (List.replicate (large.length - small.length) 1 ++ small).zip large

/-- The number of elements of the smaller tensor. -/
def smallSize (dims : List (ℕ × ℕ)) : ℕ := (dims.map Prod.fst).prod

/-- The number of elements of the larger tensor. -/
def largeSize (dims : List (ℕ × ℕ)) : ℕ := (dims.map Prod.snd).prod

/-- The element of the smaller tensor that is at `o` in the larger one. -/
def index : List (ℕ × ℕ) → ℕ → ℕ
  | [], _ => 0
  | (a, _) :: dims, o =>
    (if a = 1 then 0 else o / largeSize dims) * smallSize dims + index dims (o % largeSize dims)

@[simp] theorem smallSize_nil : smallSize [] = 1 := rfl
@[simp] theorem largeSize_nil : largeSize [] = 1 := rfl
@[simp] theorem smallSize_cons (p : ℕ × ℕ) (dims : List (ℕ × ℕ)) :
    smallSize (p :: dims) = p.1 * smallSize dims := List.prod_cons
@[simp] theorem largeSize_cons (p : ℕ × ℕ) (dims : List (ℕ × ℕ)) :
    largeSize (p :: dims) = p.2 * largeSize dims := List.prod_cons

/-- Every dimension is repeated or equal, and none is empty. -/
def Aligned (dims : List (ℕ × ℕ)) : Prop := ∀ p ∈ dims, (p.1 = 1 ∨ p.1 = p.2) ∧ 0 < p.2

instance (dims : List (ℕ × ℕ)) : Decidable (Aligned dims) :=
  inferInstanceAs (Decidable (∀ p ∈ dims, _))

theorem Aligned.tail {p : ℕ × ℕ} {dims : List (ℕ × ℕ)} (h : Aligned (p :: dims)) : Aligned dims :=
  fun q hq => h q (List.mem_cons_of_mem p hq)

theorem Aligned.head {p : ℕ × ℕ} {dims : List (ℕ × ℕ)} (h : Aligned (p :: dims)) :
    (p.1 = 1 ∨ p.1 = p.2) ∧ 0 < p.2 :=
  h p List.mem_cons_self

theorem Aligned.largeSize_pos {dims : List (ℕ × ℕ)} (h : Aligned dims) : 0 < largeSize dims := by
  induction dims with
  | nil => exact Nat.one_pos
  | cons p dims ih =>
    rw [largeSize_cons]
    exact Nat.mul_pos h.head.2 (ih h.tail)

theorem Aligned.smallSize_le {dims : List (ℕ × ℕ)} (h : Aligned dims) :
    smallSize dims ≤ largeSize dims := by
  induction dims with
  | nil => exact le_rfl
  | cons p dims ih =>
    obtain ⟨hp, hpos⟩ := h.head
    rw [smallSize_cons, largeSize_cons]
    exact Nat.mul_le_mul (by omega) (ih h.tail)

/-- Tensors of one size are equal in every dimension. -/
theorem Aligned.eq_of_size {dims : List (ℕ × ℕ)} (h : Aligned dims)
    (hsize : smallSize dims = largeSize dims) : ∀ p ∈ dims, p.1 = p.2 := by
  induction dims with
  | nil => exact fun p hp => absurd hp List.not_mem_nil
  | cons p dims ih =>
    obtain ⟨hp, hpos⟩ := h.head
    have hle := h.tail.smallSize_le
    have hlarge := h.tail.largeSize_pos
    rw [smallSize_cons, largeSize_cons] at hsize
    have hhead : p.1 = p.2 := by
      rcases hp with hone | heq
      · -- a repeated dimension would make the larger tensor larger
        rw [hone, Nat.one_mul] at hsize
        have hmul : p.2 * largeSize dims ≤ 1 * largeSize dims := by omega
        have hle' := Nat.le_of_mul_le_mul_right hmul hlarge
        omega
      · exact heq
    have htail : smallSize dims = largeSize dims := by
      rw [hhead] at hsize
      exact Nat.eq_of_mul_eq_mul_left hpos hsize
    exact List.forall_mem_cons.2 ⟨hhead, ih h.tail htail⟩

/-- Where nothing is repeated, the addresses are equal. -/
theorem index_self {dims : List (ℕ × ℕ)} (h : ∀ p ∈ dims, p.1 = p.2) {o : ℕ}
    (ho : o < largeSize dims) : index dims o = o := by
  induction dims generalizing o with
  | nil => exact (Nat.lt_one_iff.1 ho).symm
  | cons p dims ih =>
    obtain ⟨hp, htail⟩ := List.forall_mem_cons.1 h
    rw [largeSize_cons] at ho
    have hpos : 0 < largeSize dims := Nat.pos_of_mul_pos_left (by omega : 0 < p.2 * largeSize dims)
    have hsize : smallSize dims = largeSize dims :=
      congrArg List.prod (List.map_congr_left htail)
    have hdigit : (if p.1 = 1 then 0 else o / largeSize dims) = o / largeSize dims := by
      by_cases hone : p.1 = 1
      · rw [if_pos hone, Nat.div_eq_of_lt]
        rwa [← hp, hone, Nat.one_mul] at ho
      · exact if_neg hone
    rw [index, hdigit, hsize, ih htail (Nat.mod_lt o hpos), Nat.mul_comm]
    exact Nat.div_add_mod o (largeSize dims)

/-- The larger tensor repeats the smaller one, and neither is empty. -/
structure Repeats (small large : List ℕ) : Prop where
  length_le : small.length ≤ large.length
  aligned : Aligned (pad small large)

theorem Repeats.smallSize {small large : List ℕ} (h : Repeats small large) :
    smallSize (pad small large) = small.prod := by
  have hlen : (List.replicate (large.length - small.length) 1 ++ small).length ≤ large.length := by
    have := h.length_le
    rw [List.length_append, List.length_replicate]
    omega
  rw [Broadcast.smallSize, pad, List.map_fst_zip hlen, List.prod_append, List.prod_replicate,
    Nat.one_pow, Nat.one_mul]

theorem map_snd_pad (small large : List ℕ) : (pad small large).map Prod.snd = large := by
  have hlen : large.length ≤ (List.replicate (large.length - small.length) 1 ++ small).length := by
    rw [List.length_append, List.length_replicate]
    omega
  rw [pad, List.map_snd_zip hlen]

theorem largeSize_pad (small large : List ℕ) : largeSize (pad small large) = large.prod := by
  rw [largeSize, map_snd_pad]

theorem Repeats.index_self {small large : List ℕ} (h : Repeats small large)
    (hsize : small.prod = large.prod) {o : ℕ} (ho : o < large.prod) :
    index (pad small large) o = o := by
  rw [← largeSize_pad small large] at ho
  exact Broadcast.index_self (h.aligned.eq_of_size (by rw [h.smallSize, largeSize_pad, hsize])) ho

theorem Aligned.index_lt {dims : List (ℕ × ℕ)} (h : Aligned dims) {o : ℕ}
    (ho : o < largeSize dims) : index dims o < smallSize dims := by
  induction dims generalizing o with
  | nil => exact Nat.one_pos
  | cons p dims ih =>
    obtain ⟨hp, hpos⟩ := h.head
    rw [largeSize_cons] at ho
    have htail := ih h.tail (Nat.mod_lt o h.tail.largeSize_pos)
    have hdigit : (if p.1 = 1 then 0 else o / largeSize dims) < p.1 := by
      split_ifs with hone
      · omega
      · rw [hp.resolve_left hone]
        exact (Nat.div_lt_iff_lt_mul h.tail.largeSize_pos).2 ho
    rw [index, smallSize_cons]
    calc (if p.1 = 1 then 0 else o / largeSize dims) * smallSize dims +
            index dims (o % largeSize dims)
        < (if p.1 = 1 then 0 else o / largeSize dims) * smallSize dims + smallSize dims :=
          Nat.add_lt_add_left htail _
      _ = ((if p.1 = 1 then 0 else o / largeSize dims) + 1) * smallSize dims := by ring
      _ ≤ p.1 * smallSize dims := Nat.mul_le_mul_right _ hdigit

theorem Repeats.index_lt {small large : List ℕ} (h : Repeats small large) {o : ℕ}
    (ho : o < large.prod) : index (pad small large) o < small.prod := by
  rw [← h.smallSize]
  exact h.aligned.index_lt (by rwa [largeSize_pad])

/-! ### Transforming an alignment -/

/-- Two alignments with the same sizes and addresses. -/
structure Same (dims dims' : List (ℕ × ℕ)) : Prop where
  small : smallSize dims = smallSize dims'
  large : largeSize dims = largeSize dims'
  index : ∀ o < largeSize dims, index dims o = index dims' o

namespace Same

variable {dims dims' dims'' : List (ℕ × ℕ)}

theorem refl (dims : List (ℕ × ℕ)) : Same dims dims := ⟨rfl, rfl, fun _ _ => rfl⟩

theorem symm (h : Same dims dims') : Same dims' dims :=
  ⟨h.small.symm, h.large.symm, fun o ho => (h.index o (h.large ▸ ho)).symm⟩

theorem trans (h : Same dims dims') (h' : Same dims' dims'') : Same dims dims'' where
  small := h.small.trans h'.small
  large := h.large.trans h'.large
  index o ho := (h.index o ho).trans (h'.index o (h.large ▸ ho))

theorem cons (p : ℕ × ℕ) (h : Same dims dims') : Same (p :: dims) (p :: dims') where
  small := by rw [smallSize_cons, smallSize_cons, h.small]
  large := by rw [largeSize_cons, largeSize_cons, h.large]
  index o ho := by
    rw [largeSize_cons] at ho
    have hpos : 0 < largeSize dims := Nat.pos_of_mul_pos_left (by omega : 0 < p.2 * largeSize dims)
    have hmod := h.index (o % largeSize dims) (Nat.mod_lt o hpos)
    simp only [Broadcast.index]
    rw [hmod, h.small, h.large]

/-- Two repeated dimensions are one. -/
theorem fuse (b c : ℕ) (dims : List (ℕ × ℕ)) :
    Same ((1, b) :: (1, c) :: dims) ((1, b * c) :: dims) where
  small := by simp
  large := by simp [Nat.mul_assoc]
  index o _ := by
    simp only [Broadcast.index, if_true, Nat.zero_mul, Nat.zero_add, largeSize_cons]
    rw [Nat.mod_mul_left_mod]

/-- Two equal dimensions are one. -/
theorem merge (a b : ℕ) (dims : List (ℕ × ℕ)) :
    Same ((a, a) :: (b, b) :: dims) ((a * b, a * b) :: dims) where
  small := by simp [Nat.mul_assoc]
  large := by simp [Nat.mul_assoc]
  index o ho := by
    rw [largeSize_cons, largeSize_cons] at ho
    have hpos : 0 < b * largeSize dims := Nat.pos_of_mul_pos_left (Nat.zero_lt_of_lt ho)
    have hlarge : 0 < largeSize dims := Nat.pos_of_mul_pos_left hpos
    have hmod : o % (b * largeSize dims) < b * largeSize dims := Nat.mod_lt o hpos
    -- a dimension of length one has no digit but zero
    have hdigit : ∀ {n q : ℕ}, q < n → (if n = 1 then 0 else q) = q := by
      intro n q hq
      by_cases hn : n = 1
      · rw [if_pos hn]; omega
      · exact if_neg hn
    have ha : o / (b * largeSize dims) < a := (Nat.div_lt_iff_lt_mul hpos).2 ho
    have hb : o % (b * largeSize dims) / largeSize dims < b :=
      (Nat.div_lt_iff_lt_mul hlarge).2 hmod
    have hab : o / largeSize dims < a * b :=
      (Nat.div_lt_iff_lt_mul hlarge).2 (by rw [Nat.mul_assoc]; exact ho)
    have hsplit : o / largeSize dims =
        o / (b * largeSize dims) * b + o % (b * largeSize dims) / largeSize dims := by
      rw [Nat.mod_mul_left_div_self, Nat.mul_comm b, ← Nat.div_div_eq_div_mul, Nat.mul_comm]
      exact (Nat.div_add_mod _ _).symm
    simp only [Broadcast.index, smallSize_cons, largeSize_cons]
    rw [hdigit ha, hdigit hb, hdigit hab, Nat.mod_mul_left_mod, hsplit]
    ring

/-- A dimension of length one in both may be left out. -/
theorem one (dims : List (ℕ × ℕ)) : Same ((1, 1) :: dims) dims where
  small := by simp
  large := by simp
  index o ho := by
    rw [largeSize_cons, Nat.one_mul] at ho
    simp only [Broadcast.index, if_true, Nat.zero_mul, Nat.zero_add]
    rw [Nat.mod_eq_of_lt ho]

end Same

/-! ### Coordinates -/

/-- The coordinates of an element of the larger tensor. -/
def Coords (dims : List (ℕ × ℕ)) (i : List ℕ) : Prop := List.Forall₂ (fun p k => k < p.2) dims i

/-- The address of an element in the smaller tensor. -/
def smallAt : List (ℕ × ℕ) → List ℕ → ℕ
  | p :: dims, k :: i => (if p.1 = 1 then 0 else k) * smallSize dims + smallAt dims i
  | _, _ => 0

/-- The address of an element in the larger tensor. -/
def largeAt : List (ℕ × ℕ) → List ℕ → ℕ
  | _ :: dims, k :: i => k * largeSize dims + largeAt dims i
  | _, _ => 0

theorem largeAt_lt {dims : List (ℕ × ℕ)} {i : List ℕ} (h : Coords dims i) :
    largeAt dims i < largeSize dims := by
  induction h with
  | nil => exact Nat.one_pos
  | @cons p k dims i hk _ ih =>
    rw [largeAt, largeSize_cons]
    calc k * largeSize dims + largeAt dims i < k * largeSize dims + largeSize dims := by omega
      _ = (k + 1) * largeSize dims := by ring
      _ ≤ p.2 * largeSize dims := Nat.mul_le_mul_right _ hk

theorem index_largeAt {dims : List (ℕ × ℕ)} {i : List ℕ} (h : Coords dims i) :
    index dims (largeAt dims i) = smallAt dims i := by
  induction h with
  | nil => rfl
  | @cons p k dims i hk htail ih =>
    have hlt := largeAt_lt htail
    rw [largeAt, index, Nat.mul_comm k, Nat.mul_add_div (by omega), Nat.mul_add_mod,
      Nat.div_eq_of_lt hlt, Nat.mod_eq_of_lt hlt, Nat.add_zero, ih, smallAt]

theorem Coords.append {dims dims' : List (ℕ × ℕ)} {i j : List ℕ} (hi : Coords dims i)
    (hj : Coords dims' j) : Coords (dims ++ dims') (i ++ j) :=
  List.rel_append hi hj

theorem Coords.of_append {dims dims' : List (ℕ × ℕ)} {ij : List ℕ} (h : Coords (dims ++ dims') ij) :
    ∃ i j, Coords dims i ∧ Coords dims' j ∧ ij = i ++ j := by
  induction dims generalizing ij with
  | nil => exact ⟨[], ij, .nil, h, rfl⟩
  | cons p dims ih =>
    obtain ⟨k, ij', hk, htail, rfl⟩ := List.forall₂_cons_left_iff.1 h
    obtain ⟨i, j, hi, hj, rfl⟩ := ih htail
    exact ⟨k :: i, j, .cons hk hi, hj, rfl⟩

theorem exists_coords {dims : List (ℕ × ℕ)} {o : ℕ} (ho : o < largeSize dims) :
    ∃ i, Coords dims i ∧ largeAt dims i = o := by
  induction dims generalizing o with
  | nil => exact ⟨[], .nil, (Nat.lt_one_iff.1 ho).symm⟩
  | cons p dims ih =>
    rw [largeSize_cons] at ho
    have hpos : 0 < largeSize dims := Nat.pos_of_mul_pos_left (Nat.zero_lt_of_lt ho)
    obtain ⟨i, hi, heq⟩ := ih (Nat.mod_lt o hpos)
    refine ⟨o / largeSize dims :: i, .cons (Nat.div_lt_of_lt_mul ?_) hi, ?_⟩
    · rwa [Nat.mul_comm]
    · rw [largeAt, heq, Nat.mul_comm]
      exact Nat.div_add_mod o (largeSize dims)

end Lib.Broadcast
