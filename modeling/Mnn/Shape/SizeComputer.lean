import Mathlib.Algebra.BigOperators.Group.List.Lemmas
import Mathlib.Algebra.BigOperators.Ring.List
import Mathlib.Algebra.Order.BigOperators.GroupWithZero.List
import Mathlib.Algebra.Order.Ring.Int

/-!
# Extents

What the size computers read and write (`source/shape/SizeComputer.hpp`): extents in an array that
is longer than the rank, and counts of elements in an `int`.

* `wrap`, `count`: products of an `int`; `Fits`: extents whose products are exact;
* `Buffer`: the extents of an input; `Output`: the extents of an output, of which some may not be
  set;
* `shape_eq_some_iff`, `extent_setLengths`: what the loops over the dimensions set;
* `Failure`: why there may be no extents.
-/

namespace Mnn.Shape

/-! ### Counting in an `int` -/

/-- The value of an `int`. -/
def wrap (x : ℤ) : ℤ := Int.bmod x (2 ^ 32)

theorem wrap_eq {x : ℤ} (h : 0 ≤ x) (hlt : x < 2 ^ 31) : wrap x = x :=
  Int.bmod_eq_of_le (by omega) (by omega)

theorem wrap_mul_wrap (x y : ℤ) : wrap (wrap x * y) = wrap (x * y) := Int.bmod_mul_bmod

/-- The product of some extents. -/
def count (extents : List ℤ) : ℤ := extents.foldl (fun size e => wrap (size * e)) 1

theorem foldl_wrap (extents : List ℤ) (x : ℤ) :
    extents.foldl (fun size e => wrap (size * e)) (wrap x) = wrap (x * extents.prod) := by
  induction extents generalizing x with
  | nil => rw [List.foldl_nil, List.prod_nil, mul_one]
  | cons e extents ih => rw [List.foldl_cons, wrap_mul_wrap, ih, List.prod_cons, mul_assoc]

theorem count_eq (extents : List ℤ) : count extents = wrap extents.prod := by
  have h := foldl_wrap extents 1
  rwa [one_mul] at h

/-- The extents that are not zero have a product that is an `int`. -/
structure Fits (extents : List ℤ) : Prop where
  nonneg : ∀ e ∈ extents, 0 ≤ e
  prod_lt : (extents.filter (· ≠ 0)).prod < 2 ^ 31

namespace Fits

variable {extents part : List ℤ} (h : Fits extents) (hpart : part.Sublist extents)

include h hpart

theorem prod_part_nonneg : 0 ≤ part.prod :=
  List.prod_nonneg fun e he => h.nonneg e (hpart.subset he)

theorem prod_part_lt : part.prod < 2 ^ 31 := by
  by_cases hzero : (0 : ℤ) ∈ part
  · rw [List.prod_eq_zero hzero]
    decide
  · have hfilter : part.Sublist (extents.filter (· ≠ 0)) := by
      have hself : part.filter (· ≠ 0) = part := List.filter_eq_self.2 fun e he => by
        rw [decide_eq_true_iff]
        exact fun h => hzero (h ▸ he)
      exact hself ▸ hpart.filter _
    have hpos : 0 < (extents.filter (· ≠ 0)).prod := List.prod_pos fun e he => by
      rw [List.mem_filter, decide_eq_true_iff] at he
      exact lt_of_le_of_ne (h.nonneg e he.1) he.2.symm
    exact (Int.le_of_dvd hpos hfilter.prod_dvd_prod).trans_lt h.prod_lt

/-- Any of the extents are counted exactly. -/
theorem count_part : count part = part.prod :=
  (count_eq part).trans (wrap_eq (h.prod_part_nonneg hpart) (h.prod_part_lt hpart))

end Fits

/-! ### Loops over dimensions -/

/-- The values of a loop counter from `a` to below `b`. -/
def interval (a b : ℤ) : List ℤ := (List.range (b - a).toNat).map fun i : ℕ => a + i

theorem mem_interval {a b i : ℤ} : i ∈ interval a b ↔ a ≤ i ∧ i < b := by
  simp only [interval, List.mem_map, List.mem_range]
  constructor
  · rintro ⟨k, hk, rfl⟩
    omega
  · intro h
    exact ⟨(i - a).toNat, by omega, by omega⟩

theorem interval_eq_nil {a b : ℤ} (h : b ≤ a) : interval a b = [] := by
  rw [interval, Int.toNat_of_nonpos (by omega)]
  rfl

/-- The array `dim` of a tensor, with what it holds behind the rank. -/
structure Buffer where
  dimensions : ℕ
  extent : ℤ → ℤ

namespace Buffer

/-- The extents of the tensor. -/
def shape (input : Buffer) : List ℤ := (List.range input.dimensions).map fun i : ℕ => input.extent i

variable (input : Buffer)

@[simp] theorem length_shape : input.shape.length = input.dimensions := by
  rw [shape, List.length_map, List.length_range]

theorem getElem_shape {i : ℕ} (h : i < input.shape.length) : input.shape[i] = input.extent i := by
  simp only [shape, List.getElem_map, List.getElem_range]

/-- A loop over the dimensions reads a part of the shape. -/
theorem map_interval {a b : ℕ} (hb : b ≤ input.dimensions) :
    (interval a b).map input.extent = (input.shape.drop a).take (b - a) := by
  refine List.ext_getElem ?_ fun i hi hi' => ?_
  · simp only [interval, List.length_map, List.length_range, List.length_take, List.length_drop,
      length_shape]
    omega
  · simp only [interval, List.getElem_map, List.getElem_range, List.getElem_take,
      List.getElem_drop, getElem_shape, Nat.cast_add]

end Buffer

/-- The array `dim` of an output; an extent may not be set. -/
structure Output where
  dimensions : ℤ
  extent : ℤ → Option ℤ := fun _ => none

namespace Output

variable (output : Output)

/-- `Tensor::setLength`. -/
def setLength (i length : ℤ) : Output :=
  { output with extent := Function.update output.extent i (some length) }

/-- The extents of the tensor, if all of them are set. -/
def shape : Option (List ℤ) :=
  if ∀ i < output.dimensions.toNat, (output.extent i).isSome then
    some ((List.range output.dimensions.toNat).map fun i : ℕ => (output.extent i).getD 0)
  else none

/-- A loop that sets extents. -/
def setLengths (dims : List ℤ) (length : ℤ → ℤ) : Output :=
  dims.foldl (fun output i => output.setLength i (length i)) output

variable {output}

theorem dimensions_setLengths (dims : List ℤ) (length : ℤ → ℤ) :
    (output.setLengths dims length).dimensions = output.dimensions := by
  induction dims generalizing output with
  | nil => rfl
  | cons i dims ih => exact ih

theorem extent_setLengths (dims : List ℤ) (length : ℤ → ℤ) (i : ℤ) :
    (output.setLengths dims length).extent i =
      if i ∈ dims then some (length i) else output.extent i := by
  induction dims generalizing output with
  | nil => rfl
  | cons k dims ih =>
    refine (@ih (output.setLength k (length k))).trans ?_
    by_cases hmem : i ∈ dims
    · rw [if_pos hmem, if_pos (List.mem_cons_of_mem k hmem)]
    · rw [if_neg hmem]
      by_cases hik : i = k
      · rw [hik, if_pos List.mem_cons_self]
        exact Function.update_self ..
      · rw [if_neg (by rw [List.mem_cons, not_or]; exact ⟨hik, hmem⟩)]
        exact Function.update_of_ne hik ..

theorem shape_eq_some_iff {shape : List ℤ} : output.shape = some shape ↔
    shape.length = output.dimensions.toNat ∧ ∀ i : ℕ, ∀ h : i < shape.length,
      output.extent i = some shape[i] := by
  constructor
  · intro h
    rw [Output.shape, Option.ite_none_right_eq_some, Option.some.injEq] at h
    obtain ⟨hset, rfl⟩ := h
    refine ⟨by rw [List.length_map, List.length_range], fun i hi => ?_⟩
    rw [List.length_map, List.length_range] at hi
    obtain ⟨length, hlength⟩ := Option.isSome_iff_exists.1 (hset i hi)
    rw [List.getElem_map, List.getElem_range, hlength]
    rfl
  · rintro ⟨hlen, hget⟩
    rw [Output.shape, if_pos fun i hi => by rw [hget i (hlen ▸ hi)]; rfl, Option.some.injEq]
    refine List.ext_getElem ?_ fun i hi hi' => ?_
    · rw [List.length_map, List.length_range, hlen]
    · rw [List.getElem_map, List.getElem_range, hget i hi']
      rfl

end Output

/-- Why there are no extents: the computer returns `false`, or what it does is not defined, since an
array is too short for what is read or written, or a divisor is zero. -/
inductive Failure
  | returnsFalse
  | undefined
  deriving DecidableEq, Repr

/-- A negative axis counts from the end. -/
def fromEnd (rank axis : ℤ) : ℤ := if axis < 0 then axis + rank else axis

end Mnn.Shape
