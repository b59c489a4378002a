import Mathlib.Data.Multiset.AddSub
import Mathlib.Order.Defs.Unbundled
import Mathlib.Tactic

/-!
# A heap, up to the choice among best elements

A standard library promises of a heap what goes in and comes out, and that no element is before the
one that comes out; which of several best ones that is stays open.

* `HeapOps`: the operations with these promises;
* `HeapOps.pops`: the next elements; `pops_spec`: they are elements of the heap, best first;
* `listHeap`: a list as a heap.
-/

namespace Lib

/-- Heaps whose `pop` takes out an element that no other is `before`. -/
structure HeapOps (α : Type) (before : α → α → Prop) where
  Heap : Type
  elems : Heap → Multiset α
  empty : Heap
  make : List α → Heap
  push : Heap → α → Heap
  pop : Heap → Option (α × Heap)
  elems_empty : elems empty = 0
  elems_make : ∀ l, elems (make l) = l
  elems_push : ∀ h a, elems (push h a) = a ::ₘ elems h
  pop_eq_none : ∀ h, pop h = none ↔ elems h = 0
  elems_pop : ∀ h a r, pop h = some (a, r) → elems h = a ::ₘ elems r
  best : ∀ h a r, pop h = some (a, r) → ∀ b ∈ elems r, ¬ before b a

namespace HeapOps

variable {α : Type} {before : α → α → Prop} (H : HeapOps α before)

attribute [simp] elems_empty elems_make elems_push

/-- The number of elements. -/
def size (h : H.Heap) : ℕ := (H.elems h).card

/-- The next `n` elements; a heap that is empty has none. -/
def pops : ℕ → H.Heap → Option (List α)
  | 0, _ => some []
  | n + 1, h =>
    match H.pop h with
    | none => none
    | some (a, r) => (pops n r).map (a :: ·)

variable {H}

@[simp] theorem size_empty : H.size H.empty = 0 := by simp [size]
@[simp] theorem size_push (h : H.Heap) (a : α) : H.size (H.push h a) = H.size h + 1 := by
  simp [size]
@[simp] theorem size_make (l : List α) : H.size (H.make l) = l.length := by simp [size]

theorem size_pop {h r : H.Heap} {a : α} (hp : H.pop h = some (a, r)) :
    H.size h = H.size r + 1 := by
  simp [size, H.elems_pop h a r hp]

theorem exists_pop {h : H.Heap} (hpos : 0 < H.size h) : ∃ a r, H.pop h = some (a, r) := by
  cases hp : H.pop h with
  | none =>
    rw [H.pop_eq_none] at hp
    simp [size, hp] at hpos
  | some p => exact ⟨p.1, p.2, rfl⟩

theorem pop_eq_none_of_size {h : H.Heap} (hzero : H.size h = 0) : H.pop h = none := by
  rw [H.pop_eq_none]
  exact Multiset.card_eq_zero.1 hzero

theorem pops_isSome_iff {n : ℕ} {h : H.Heap} : (∃ l, H.pops n h = some l) ↔ n ≤ H.size h := by
  induction n generalizing h with
  | zero => exact ⟨fun _ => Nat.zero_le _, fun _ => ⟨[], rfl⟩⟩
  | succ n ih =>
    rcases Nat.eq_zero_or_pos (H.size h) with hzero | hpos
    · have hnone := pop_eq_none_of_size hzero
      simp [pops, hnone, hzero]
    · obtain ⟨a, r, hp⟩ := exists_pop hpos
      have hsize := size_pop hp
      rw [hsize, Nat.add_le_add_iff_right, ← ih]
      simp [pops, hp]

/-- The elements that come out are elements of the heap, and no later one is before an earlier. -/
theorem pops_spec {n : ℕ} {h : H.Heap} {l : List α} (hl : H.pops n h = some l) :
    l.length = n ∧ (l : Multiset α) ≤ H.elems h ∧ l.Pairwise fun a b => ¬ before b a := by
  induction n generalizing h l with
  | zero =>
    obtain rfl : [] = l := Option.some.inj hl
    exact ⟨rfl, Multiset.zero_le _, .nil⟩
  | succ n ih =>
    unfold pops at hl
    cases hp : H.pop h with
    | none => simp [hp] at hl
    | some p =>
      obtain ⟨a, r⟩ := p
      rw [hp] at hl
      obtain ⟨t, ht, rfl⟩ := Option.map_eq_some_iff.1 hl
      obtain ⟨hlen, hle, hsorted⟩ := ih ht
      refine ⟨by rw [List.length_cons, hlen], ?_, ?_⟩
      · rw [H.elems_pop h a r hp, ← Multiset.cons_coe]
        exact Multiset.cons_le_cons a hle
      · refine List.pairwise_cons.2 ⟨fun b hb => ?_, hsorted⟩
        exact H.best h a r hp b (Multiset.mem_of_le hle (Multiset.mem_coe.2 hb))

end HeapOps

/-! ### A list as a heap -/

section ListHeap

variable {α : Type} (before : α → α → Prop) [DecidableRel before]

/-- A best element, and the others. -/
def popList : List α → Option (α × List α)
  | [] => none
  | a :: l =>
    match popList l with
    | none => some (a, [])
    | some (b, r) => if before a b then some (a, b :: r) else some (b, a :: r)

theorem popList_eq_none {l : List α} : popList before l = none ↔ l = [] := by
  cases l with
  | nil => simp [popList]
  | cons a l =>
    unfold popList
    cases popList before l with
    | none => simp
    | some p => by_cases h : before a p.1 <;> simp [h]

variable [IsStrictOrder α before]

theorem popList_spec {l : List α} {a : α} {r : List α} (h : popList before l = some (a, r)) :
    l.Perm (a :: r) ∧ ∀ b ∈ r, ¬ before b a := by
  induction l generalizing a r with
  | nil => cases h
  | cons x l ih =>
    unfold popList at h
    cases hl : popList before l with
    | none =>
      simp only [hl, Option.some.injEq, Prod.mk.injEq] at h
      obtain ⟨rfl, rfl⟩ := h
      rw [(popList_eq_none before).1 hl]
      exact ⟨.refl _, fun b hb => absurd hb List.not_mem_nil⟩
    | some p =>
      obtain ⟨y, t⟩ := p
      obtain ⟨hperm, hbest⟩ := ih hl
      rw [hl] at h
      by_cases hxy : before x y
      · simp only [if_pos hxy, Option.some.injEq, Prod.mk.injEq] at h
        obtain ⟨rfl, rfl⟩ := h
        refine ⟨hperm.cons x, List.forall_mem_cons.2 ⟨asymm_of before hxy, fun b hb hbx => ?_⟩⟩
        exact hbest b hb (trans_of before hbx hxy)
      · simp only [if_neg hxy, Option.some.injEq, Prod.mk.injEq] at h
        obtain ⟨rfl, rfl⟩ := h
        exact ⟨(hperm.cons x).trans (.swap ..), List.forall_mem_cons.2 ⟨hxy, hbest⟩⟩

/-- The heap whose elements lie in a list. -/
def listHeap : HeapOps α before where
  Heap := List α
  elems := fun l => l
  empty := []
  make := id
  push := fun l a => a :: l
  pop := popList before
  elems_empty := rfl
  elems_make := fun _ => rfl
  elems_push := fun _ _ => rfl
  pop_eq_none := fun l => by rw [popList_eq_none, Multiset.coe_eq_zero]
  elems_pop := fun _ _ _ h => Multiset.coe_eq_coe.2 (popList_spec before h).1
  best := fun _ _ _ h => (popList_spec before h).2

end ListHeap

end Lib
