import Mathlib.Algebra.BigOperators.Group.List.Basic
import Mathlib.Algebra.BigOperators.Group.Finset.Piecewise
import Mathlib.Data.List.Count
import Mathlib.Tactic
import Mnn.Lib.Loops

/-!
# Buckets

Work items are sorted into numbered buckets; the buckets are emptied one after another, and what
comes out is added up in the place it is for.

* `bucketsOf`: the buckets after some items; `push_bucketsOf`: one more item;
* `bucketsOf_perm`: going through the buckets is going through the items in another order;
* `sumsOf`: a table of sums in which a place without summands is absent; `addAt_sumsOf`: one more
  summand; `sumsOf_congr`: the order of the summands does not matter.
-/

namespace Lib

section Buckets

variable {α β : Type*}

/-- Put `a` into the bucket `e`. -/
def push (buckets : List (List β)) (e : ℕ) (a : β) : Option (List (List β)) :=
  if e < buckets.length then some (buckets.modify e (· ++ [a])) else none

/-- The `n` buckets after the items `l`, of which the bucket `key a` has got `val a`. -/
def bucketsOf (n : ℕ) (key : α → ℕ) (val : α → β) (l : List α) : List (List β) :=
  (List.range n).map fun e => (l.filter (key · = e)).map val

variable {n : ℕ} {key : α → ℕ} {val : α → β}

@[simp] theorem bucketsOf_nil : bucketsOf n key val [] = List.replicate n [] := by
  simp [bucketsOf, List.map_const']

@[simp] theorem length_bucketsOf (l : List α) : (bucketsOf n key val l).length = n := by
  simp [bucketsOf]

theorem getElem?_bucketsOf (l : List α) {e : ℕ} (he : e < n) :
    (bucketsOf n key val l)[e]? = some ((l.filter (key · = e)).map val) := by
  simp [bucketsOf, he]

theorem push_bucketsOf (l : List α) {a : α} (ha : key a < n) :
    push (bucketsOf n key val l) (key a) (val a) = some (bucketsOf n key val (l ++ [a])) := by
  rw [push, if_pos (by rwa [length_bucketsOf])]
  refine congrArg some (List.ext_getElem (by simp) fun e _ _ => ?_)
  by_cases h : key a = e
  · simp [bucketsOf, List.filter_append, h]
  · simp [bucketsOf, List.filter_append, h]

/-- Every item lies in one bucket. -/
theorem bucketsOf_perm {l : List α} (h : ∀ a ∈ l, key a < n) :
    ((List.range n).flatMap fun e => l.filter (key · = e)).Perm l := by
  classical
  refine List.perm_iff_count.2 fun a => ?_
  have hother : ∀ e, e ≠ key a → (l.filter (key · = e)).count a = 0 := fun e he =>
    List.count_eq_zero.2 fun ha => he (of_decide_eq_true (List.mem_filter.1 ha).2).symm
  have hown : (l.filter (key · = key a)).count a = l.count a :=
    List.count_filter (decide_eq_true rfl)
  rw [List.count_flatMap, List.sum_map_eq_nsmul_single (key a)
    (List.count a ∘ fun e => l.filter (key · = e)) fun e he _ => hother e he, Function.comp_apply,
    hown, smul_eq_mul]
  by_cases ha : a ∈ l
  · rw [List.count_eq_one_of_mem List.nodup_range (List.mem_range.2 (h a ha)), one_mul]
  · rw [List.count_eq_zero.2 ha, mul_zero]

end Buckets

/-! ### Sums that may be absent -/

section Sums

variable {M : Type*} [AddCommMonoid M]

/-- The sum of a list, absent when the list is empty. -/
def sumOf (l : List M) : Option M := if l = [] then none else some l.sum

/-- Add `v` at the place `t`. -/
def addAt (sums : List (Option M)) (t : ℕ) (v : M) : Option (List (Option M)) :=
  match sums[t]? with
  | none => none
  | some none => some (sums.set t (some v))
  | some (some s) => some (sums.set t (some (s + v)))

/-- The sums for `m` places, after some summands with their places. -/
def sumsOf (m : ℕ) (l : List (ℕ × M)) : List (Option M) :=
  (List.range m).map fun t => sumOf ((l.filter (·.1 = t)).map (·.2))

variable {m : ℕ} {l l' : List (ℕ × M)}

@[simp] theorem sumsOf_nil : sumsOf m ([] : List (ℕ × M)) = List.replicate m none := by
  simp [sumsOf, sumOf, List.map_const']

theorem sumsOf_congr (h : l.Perm l') : sumsOf m l = sumsOf m l' := by
  refine List.map_congr_left fun t _ => ?_
  have hperm := (h.filter (·.1 = t)).map (·.2)
  have hnil : (l.filter (·.1 = t)).map (·.2) = [] ↔ (l'.filter (·.1 = t)).map (·.2) = [] := by
    rw [← List.length_eq_zero_iff, ← List.length_eq_zero_iff, hperm.length_eq]
  simp only [sumOf, hnil, hperm.sum_eq]

theorem addAt_sumsOf (l : List (ℕ × M)) {t : ℕ} (ht : t < m) (v : M) :
    addAt (sumsOf m l) t v = some (sumsOf m (l ++ [(t, v)])) := by
  have hget : (sumsOf m l)[t]? = some (sumOf ((l.filter (·.1 = t)).map (·.2))) := by
    simp [sumsOf, ht]
  have hset : sumsOf m (l ++ [(t, v)]) =
      (sumsOf m l).set t (sumOf ((l.filter (·.1 = t)).map (·.2) ++ [v])) := by
    refine List.ext_getElem (by simp [sumsOf]) fun u _ _ => ?_
    by_cases h : t = u
    · simp [sumsOf, List.filter_append, h]
    · simp [sumsOf, List.filter_append, h]
  rw [addAt, hget, hset]
  by_cases hnil : (l.filter (·.1 = t)).map (·.2) = []
  · simp [sumOf, hnil]
  · simp [sumOf, hnil]

end Sums

end Lib
