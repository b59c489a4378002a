import Mathlib.Data.List.Sort
import Mathlib.Data.Set.Finite.Lattice
import Mathlib.Order.WellFounded
import Mathlib.SetTheory.Ordinal.Rank

/-!
# Searching an acyclic graph level by level

A search that goes from a set of nodes to their successors, without a memory of earlier sets: what
it meets depends on the order in which a set is gone through.

* `Edge`, `Acyclic`, `level`: the graph, and the ends of the walks of a length;
* `exists_depth`: in an acyclic graph there is a longest walk;
* `IsDescent`: sets of nodes of which each comes from the one before, where nodes that are in both
  may be left out;
* `isDescent_level`, `IsDescent.subset_level`: walks are the largest descent;
* `Met`: what is met from nodes in some order, a node being left out that still waits;
* `exists_order`: **every descent is met in some order**.
-/

namespace Lib.Descent

variable {ε : Type*} (next : ε → List ε)

def Edge (x y : ε) : Prop := y ∈ next x

def Acyclic : Prop := WellFounded fun y x => Edge next x y

/-- The successors of a set. -/
def successors (S : Set ε) : Set ε := {z | ∃ y ∈ S, z ∈ next y}

/-- The ends of the walks of this length. -/
def level (x : ε) : ℕ → Set ε
  | 0 => {x}
  | k + 1 => successors next (level x k)

/-- From each set to the next goes every successor, except that what was there may be left out. -/
structure IsDescent (x : ε) (S : ℕ → Set ε) : Prop where
  start : S 0 = {x}
  met : ∀ k, S (k + 1) ⊆ successors next (S k)
  kept : ∀ k, successors next (S k) ⊆ S (k + 1) ∪ S k

variable {next} {x y z : ε}

/-! ### Levels -/

theorem mem_level_succ {k : ℕ} : z ∈ level next x (k + 1) ↔ ∃ y ∈ next x, z ∈ level next y k := by
  induction k generalizing z with
  | zero => exact ⟨fun ⟨_, hy, hz⟩ => ⟨z, hy ▸ hz, rfl⟩, fun ⟨_, hy, hz⟩ => ⟨x, rfl, hz ▸ hy⟩⟩
  | succ k ih =>
    constructor
    · rintro ⟨w, hw, hz⟩
      obtain ⟨y, hy, hwy⟩ := ih.1 hw
      exact ⟨y, hy, w, hwy, hz⟩
    · rintro ⟨y, hy, w, hwy, hz⟩
      exact ⟨w, ih.2 ⟨y, hy, hwy⟩, hz⟩

theorem level_mono {S S' : Set ε} (h : S ⊆ S') : successors next S ⊆ successors next S' :=
  fun _ ⟨y, hy, hz⟩ => ⟨y, h hy, hz⟩

theorem isDescent_level (x : ε) : IsDescent next x (level next x) :=
  ⟨rfl, fun _ => subset_rfl, fun _ => Set.subset_union_left⟩

theorem IsDescent.subset_level {S : ℕ → Set ε} (h : IsDescent next x S) (k : ℕ) :
    S k ⊆ level next x k := by
  induction k with
  | zero => exact h.start.subset
  | succ k ih => exact (h.met k).trans (level_mono ih)

/-- A walk of a length has walks of all shorter lengths in it. -/
theorem level_nonempty_of_le {k n : ℕ} (h : (level next x n).Nonempty) (hkn : k ≤ n) :
    (level next x k).Nonempty := by
  induction n with
  | zero => exact (Nat.le_zero.1 hkn) ▸ h
  | succ n ih =>
    rcases Nat.le_succ_iff.1 hkn with hle | rfl
    · obtain ⟨z, y, hy, -⟩ := h
      exact ih ⟨y, hy⟩ hle
    · exact h

/-- Walks are bounded. -/
theorem exists_height (h : Acyclic next) (x : ε) : ∃ n, ∀ k, n < k → level next x k = ∅ := by
  induction x using h.induction with
  | _ x ih =>
    have hbound : ∀ ys : List ε, (∀ y ∈ ys, Edge next x y) →
        ∃ n, ∀ y ∈ ys, ∀ k, n < k → level next y k = ∅ := by
      intro ys hys
      induction ys with
      | nil => exact ⟨0, fun y hy => absurd hy List.not_mem_nil⟩
      | cons y ys ihys =>
        obtain ⟨hy, hrest⟩ := List.forall_mem_cons.1 hys
        obtain ⟨n, hn⟩ := ih y hy
        obtain ⟨m, hm⟩ := ihys hrest
        refine ⟨max n m, List.forall_mem_cons.2 ⟨fun k hk => hn k (by omega), fun w hw k hk =>
          hm w hw k (by omega)⟩⟩
    obtain ⟨n, hn⟩ := hbound (next x) fun _ => id
    refine ⟨n + 1, fun k hk => Set.eq_empty_iff_forall_notMem.2 fun z hz => ?_⟩
    obtain ⟨k, rfl⟩ := Nat.exists_eq_add_of_lt (Nat.zero_lt_of_lt hk)
    rw [Nat.zero_add] at hz hk
    obtain ⟨y, hy, hzy⟩ := mem_level_succ.1 hz
    rw [hn y hy k (by omega)] at hzy
    exact hzy

theorem acyclic_of_rank (f : ε → ℕ) (h : ∀ x y, y ∈ next x → f y < f x) : Acyclic next :=
  Subrelation.wf (fun hedge => h _ _ hedge) (measure f).wf

/-- The length of a longest walk. -/
theorem exists_depth (h : Acyclic next) (x : ε) :
    ∃ n, (level next x n).Nonempty ∧ ∀ k, n < k → level next x k = ∅ := by
  obtain ⟨n, hn⟩ := exists_height h x
  induction n with
  | zero => exact ⟨0, Set.singleton_nonempty x, hn⟩
  | succ n ih =>
    rcases (level next x (n + 1)).eq_empty_or_nonempty with hempty | hnonempty
    · refine ih fun k hk => ?_
      rcases Nat.lt_or_ge (n + 1) k with hlt | hle
      · exact hn k hlt
      · exact Nat.le_antisymm hle hk ▸ hempty
    · exact ⟨n + 1, hnonempty, hn⟩

theorem IsDescent.finite {S : ℕ → Set ε} (h : IsDescent next x S) (k : ℕ) : (S k).Finite := by
  induction k with
  | zero => exact h.start ▸ Set.finite_singleton x
  | succ k ih =>
    refine (ih.biUnion fun y _ => (next y).finite_toSet).subset ((h.met k).trans ?_)
    rintro z ⟨y, hy, hz⟩
    exact Set.mem_biUnion hy hz

/-! ### Orders -/

/-- The node `z` is met from nodes in this order: from one behind which it does not wait. -/
def Met (next : ε → List ε) : List ε → ε → Prop
  | [], _ => False
  | y :: rest, z => (z ∈ next y ∧ z ∉ rest) ∨ Met next rest z

theorem Met.mem_successors {l : List ε} (h : Met next l z) : z ∈ successors next {y | y ∈ l} := by
  induction l with
  | nil => exact h.elim
  | cons y rest ih =>
    rcases h with ⟨hz, -⟩ | h
    · exact ⟨y, List.mem_cons_self, hz⟩
    · obtain ⟨w, hw, hz⟩ := ih h
      exact ⟨w, List.mem_cons_of_mem y hw, hz⟩

theorem met_of_not_mem {l : List ε} (hnot : z ∉ l) (h : z ∈ successors next {y | y ∈ l}) :
    Met next l z := by
  obtain ⟨y, hy, hz⟩ := h
  induction l with
  | nil => exact absurd hy List.not_mem_nil
  | cons w rest ih =>
    have hrest : z ∉ rest := fun hmem => hnot (List.mem_cons_of_mem w hmem)
    rcases List.mem_cons.1 hy with rfl | hy
    · exact .inl ⟨hz, hrest⟩
    · exact .inr (ih hrest hy)

theorem Met.append_left {l : List ε} (h : Met next l z) (l' : List ε) : Met next (l' ++ l) z := by
  induction l' with
  | nil => exact h
  | cons y l' ih => exact .inr ih

/-- A node that waits is not met from those before it. -/
theorem Met.of_append {l l' : List ε} (h : Met next (l ++ l') z) (hz : z ∈ l') :
    Met next l' z := by
  induction l with
  | nil => exact h
  | cons y l ih =>
    rcases h with ⟨-, hnot⟩ | h
    · exact absurd (List.mem_append_right l hz) hnot
    · exact ih h

/-- **Every next set is met in some order**: nodes that stay come first, each before those that lead
to it, and then those that are left out, each behind those that lead to it. -/
theorem exists_order (hacyclic : Acyclic next) {S S' : Set ε} (hfinite : S.Finite)
    (hmet : S' ⊆ successors next S) (hkept : successors next S ⊆ S' ∪ S) :
    ∃ l : List ε, l.Nodup ∧ (∀ z, z ∈ l ↔ z ∈ S) ∧ ∀ z, Met next l z ↔ z ∈ S' := by
  classical
  have hwf : IsWellFounded ε fun y x => Edge next x y := ⟨hacyclic⟩
  let r := IsWellFounded.rank fun y x => Edge next x y
  have hrank : ∀ {y z : ε}, z ∈ next y → r z < r y := fun h => IsWellFounded.rank_lt_of_rel h
  let stay := (hfinite.toFinset.filter (· ∈ S')).toList.insertionSort fun a b => r a ≤ r b
  let left := (hfinite.toFinset.filter (· ∉ S')).toList.insertionSort fun a b => r b ≤ r a
  have hstay : ∀ z, z ∈ stay ↔ z ∈ S ∧ z ∈ S' := by
    intro z
    simp only [stay, List.mem_insertionSort, Finset.mem_toList, Finset.mem_filter,
      Set.Finite.mem_toFinset]
  have hleft : ∀ z, z ∈ left ↔ z ∈ S ∧ z ∉ S' := by
    intro z
    simp only [left, List.mem_insertionSort, Finset.mem_toList, Finset.mem_filter,
      Set.Finite.mem_toFinset]
  have hmem : ∀ z, z ∈ stay ++ left ↔ z ∈ S := by
    intro z
    rw [List.mem_append, hstay, hleft, ← and_or_left]
    exact and_iff_left (em _)
  have hnodup : (stay ++ left).Nodup := by
    refine List.nodup_append.2 ⟨?_, ?_, fun a ha b hb heq => ?_⟩
    · exact (List.perm_insertionSort _ _).nodup_iff.2 (Finset.nodup_toList _)
    · exact (List.perm_insertionSort _ _).nodup_iff.2 (Finset.nodup_toList _)
    · exact ((hleft b).1 hb).2 (heq ▸ ((hstay a).1 ha).2)
  have hsortedStay : stay.Pairwise fun a b => r a ≤ r b := by
    have : Std.Total fun a b => r a ≤ r b := ⟨fun a b => le_total _ _⟩
    have : IsTrans ε fun a b => r a ≤ r b := ⟨fun _ _ _ => le_trans⟩
    exact List.pairwise_insertionSort _ _
  have hsortedLeft : left.Pairwise fun a b => r b ≤ r a := by
    have : Std.Total fun a b => r b ≤ r a := ⟨fun a b => le_total _ _⟩
    have : IsTrans ε fun a b => r b ≤ r a := ⟨fun _ _ _ hab hbc => le_trans hbc hab⟩
    exact List.pairwise_insertionSort _ _
  have hsuccessors : ∀ {z}, z ∈ successors next {y | y ∈ stay ++ left} ↔
      z ∈ successors next S := by
    intro z
    exact exists_congr fun y => and_congr_left' (hmem y)
  refine ⟨stay ++ left, hnodup, hmem, fun z => ⟨fun h => ?_, fun h => ?_⟩⟩
  · -- a node that is left out is behind all that lead to it
    by_contra hnot
    have hS : z ∈ S := (hkept (hsuccessors.1 h.mem_successors)).resolve_left hnot
    obtain ⟨l₁, l₂, hsplit⟩ := List.append_of_mem ((hleft z).2 ⟨hS, hnot⟩)
    rw [hsplit, ← List.append_assoc] at h
    obtain ⟨y, hy, hzy⟩ := (h.of_append List.mem_cons_self).mem_successors
    rcases List.mem_cons.1 hy with rfl | hy
    · exact (hrank hzy).false
    · have hle := (List.pairwise_cons.1 (List.pairwise_append.1 (hsplit ▸ hsortedLeft)).2.1).1 y hy
      exact (hrank hzy).not_ge hle
  · by_cases hS : z ∈ S
    · -- a node that stays is before one that leads to it
      obtain ⟨y, hy, hzy⟩ := hmet h
      obtain ⟨l₁, l₂, hsplit⟩ := List.append_of_mem ((hstay z).2 ⟨hS, h⟩)
      have hbehind : y ∈ l₂ ++ left := by
        by_cases hyS' : y ∈ S'
        · have hmemy : y ∈ l₁ ++ z :: l₂ := hsplit ▸ (hstay y).2 ⟨hy, hyS'⟩
          rcases List.mem_append.1 hmemy with hbefore | hafter
          · have hle := (List.pairwise_append.1 (hsplit ▸ hsortedStay)).2.2 y hbefore z
              List.mem_cons_self
            exact absurd hle (hrank hzy).not_ge
          · rcases List.mem_cons.1 hafter with rfl | hafter
            · exact absurd (hrank hzy) (lt_irrefl _)
            · exact List.mem_append_left _ hafter
        · exact List.mem_append_right _ ((hleft y).2 ⟨hy, hyS'⟩)
      have hlist : stay ++ left = (l₁ ++ [z]) ++ (l₂ ++ left) := by
        rw [hsplit, List.append_assoc, List.append_assoc]
        rfl
      have hnot : z ∉ l₂ ++ left := by
        have hnodup' := hlist ▸ hnodup
        exact fun hz => (List.nodup_append.1 hnodup').2.2 z
          (List.mem_append_right _ List.mem_cons_self) z hz rfl
      rw [hlist]
      exact (met_of_not_mem hnot ⟨y, hbehind, hzy⟩).append_left _
    · exact met_of_not_mem (fun hz => hS ((hmem z).1 hz)) (hsuccessors.2 (hmet h))

end Lib.Descent
