import Mathlib.Algebra.Polynomial.Coeff
import Mathlib.Algebra.Polynomial.BigOperators
import Mathlib.Data.Matrix.Mul
import Mathlib.Data.List.GetD
import Mathlib.Tactic

/-!
# Matrices of the maths library

The operations of `Matrix.cpp`, with exact numbers.

* `Tensor`: a matrix by its width, height and entries; `Tensor.toMatrix`: the entries;
* `multi`, `transpose`, `mulPerLine`, `divPerLine`, `polyMulti`: the operations.  A division by zero
  has no result;
* `toPoly`, `toPoly_polyMulti`: **`polyMulti` multiplies polynomials**.

The callers allocate a target with the size of the result, so an operation returns its target.
-/

namespace Mnn.Math

/-- A matrix: row `y` and column `x` hold `host y x`. -/
structure Tensor where
  width : ℕ
  height : ℕ
  host : ℕ → ℕ → ℚ

/-- The entries of the first `h` rows and `w` columns. -/
def Tensor.toMatrix (t : Tensor) (h w : ℕ) : Matrix (Fin h) (Fin w) ℚ :=
  Matrix.of fun y x => t.host y x

/-- Product of matrices. -/
def multi (A B : Tensor) : Tensor :=
  ⟨B.width, A.height, fun y x =>
    (List.range A.width).foldl (fun sum i => sum + A.host y i * B.host i x) 0⟩

/-- Rows become columns. -/
def transpose (src : Tensor) : Tensor :=
  ⟨src.height, src.width, fun y x => src.host x y⟩

/-- Every row times its entry of the line. -/
def mulPerLine (A line : Tensor) : Tensor :=
  { A with host := fun y x => A.host y x * line.host 0 y }

/-- Every row divided by its entry of the line. -/
def divPerLine (A line : Tensor) : Option Tensor :=
  if ∀ y < A.height, line.host 0 y ≠ 0 then
    some { A with host := fun y x => A.host y x / line.host 0 y }
  else none

/-- Product of polynomials, by their coefficients. -/
def polyMulti (a b : List ℚ) : List ℚ :=
  (List.range b.length).foldl (fun c y =>
    (List.range a.length).foldl (fun c x =>
      c.modify (x + y) (· + b.getD y 0 * a.getD x 0)) c)
    (List.replicate (a.length + b.length - 1) 0)

example : polyMulti [1, 2] [-3, 1] = [-3, -5, 2] := by decide +kernel

/-! ### Sums and products of the loops -/

open Finset in
theorem foldl_add_range (f : ℕ → ℚ) (n : ℕ) (c : ℚ) :
    (List.range n).foldl (fun sum i => sum + f i) c = c + ∑ i ∈ range n, f i := by
  induction n with
  | zero => simp
  | succ n ih =>
    rw [List.range_succ, List.foldl_append, ih, sum_range_succ]
    exact add_assoc _ _ _

open Finset in
/-- A loop that passes over one index. -/
theorem foldl_mul_range {M : Type*} [CommMonoid M] (f : ℕ → M) (x n : ℕ) (c : M) :
    (List.range n).foldl (fun product i => if x = i then product else product * f i) c =
      c * ∏ i ∈ (range n).erase x, f i := by
  induction n with
  | zero => simp
  | succ n ih =>
    rw [List.range_succ, List.foldl_append, ih, List.foldl_cons, List.foldl_nil, range_add_one]
    split_ifs with h
    · subst h
      rw [erase_insert notMem_range_self, erase_eq_of_notMem notMem_range_self]
    · rw [erase_insert_of_ne (Ne.symm h), prod_insert (fun hmem => notMem_range_self
        (mem_of_mem_erase hmem)), mul_assoc, mul_comm (f n)]

@[simp] theorem multi_host (A B : Tensor) (y x : ℕ) :
    (multi A B).host y x = ∑ i ∈ Finset.range A.width, A.host y i * B.host i x := by
  show (List.range A.width).foldl (fun sum i => sum + A.host y i * B.host i x) 0 = _
  rw [foldl_add_range, zero_add]

/-! ### Polynomials -/

open Polynomial in
/-- The polynomial with these coefficients. -/
noncomputable def toPoly (l : List ℚ) : ℚ[X] :=
  ∑ i ∈ Finset.range l.length, C (l.getD i 0) * X ^ i

theorem coeff_toPoly (l : List ℚ) (i : ℕ) : (toPoly l).coeff i = l.getD i 0 := by
  simp only [toPoly, Polynomial.finsetSum_coeff, Polynomial.coeff_C_mul_X_pow, Finset.sum_ite_eq,
    Finset.mem_range]
  split_ifs with h
  · rfl
  · rw [List.getD_eq_default _ _ (not_lt.1 h)]

open Polynomial in
theorem toPoly_modify {c : List ℚ} {i : ℕ} (hi : i < c.length) (v : ℚ) :
    toPoly (c.modify i (· + v)) = toPoly c + C v * X ^ i := by
  ext j
  rw [coeff_add, coeff_toPoly, coeff_toPoly, coeff_C_mul_X_pow, List.getD_eq_getElem?_getD,
    List.getElem?_modify, List.getD_eq_getElem?_getD]
  by_cases h : i = j
  · subst h
    simp [List.getElem?_eq_getElem hi]
  · simp [h, Ne.symm h]

section Loop

open Polynomial

variable {c : List ℚ} {s : ℕ → ℚ} {n d : ℕ}

/-- The inner loop: `n` coefficients are added from place `d` on. -/
theorem toPoly_foldl_modify (h : n + d ≤ c.length) :
    toPoly ((List.range n).foldl (fun c x => c.modify (x + d) (· + s x)) c) =
        toPoly c + ∑ x ∈ Finset.range n, C (s x) * X ^ (x + d) ∧
      ((List.range n).foldl (fun c x => c.modify (x + d) (· + s x)) c).length = c.length := by
  induction n with
  | zero => simp
  | succ n ih =>
    obtain ⟨hpoly, hlen⟩ := ih (by omega)
    rw [List.range_succ, List.foldl_append, List.foldl_cons, List.foldl_nil,
      toPoly_modify (by omega), hpoly, List.length_modify, hlen, Finset.sum_range_succ, add_assoc]
    exact ⟨rfl, rfl⟩

/-- The outer loop. -/
theorem toPoly_foldl_foldl {a b : List ℚ} {m : ℕ} (h : a.length + m ≤ c.length + 1) :
    toPoly ((List.range m).foldl (fun c y => (List.range a.length).foldl (fun c x =>
        c.modify (x + y) (· + b.getD y 0 * a.getD x 0)) c) c) =
        toPoly c + toPoly a * ∑ y ∈ Finset.range m, C (b.getD y 0) * X ^ y ∧
      ((List.range m).foldl (fun c y => (List.range a.length).foldl (fun c x =>
        c.modify (x + y) (· + b.getD y 0 * a.getD x 0)) c) c).length = c.length := by
  induction m with
  | zero => simp
  | succ m ih =>
    obtain ⟨hpoly, hlen⟩ := ih (by omega)
    rw [List.range_succ, List.foldl_append, List.foldl_cons, List.foldl_nil]
    obtain ⟨hpoly', hlen'⟩ := toPoly_foldl_modify (n := a.length) (d := m)
      (s := fun x => b.getD m 0 * a.getD x 0) (by rw [hlen]; omega)
    refine ⟨hpoly'.trans ?_, hlen'.trans hlen⟩
    rw [hpoly, Finset.sum_range_succ, mul_add, add_assoc]
    congr 2
    rw [toPoly, Finset.sum_mul]
    refine Finset.sum_congr rfl fun x _ => ?_
    rw [C_mul, pow_add]
    ring

end Loop

theorem polyMulti_spec {a b : List ℚ} (hb : b ≠ []) :
    toPoly (polyMulti a b) = toPoly a * toPoly b ∧
      (polyMulti a b).length = a.length + b.length - 1 := by
  have hpos := List.length_pos_iff.2 hb
  obtain ⟨hpoly, hlen⟩ := toPoly_foldl_foldl (a := a) (b := b) (m := b.length)
    (c := List.replicate (a.length + b.length - 1) 0) (by rw [List.length_replicate]; omega)
  refine ⟨?_, by rw [polyMulti, hlen, List.length_replicate]⟩
  have hzero : toPoly (List.replicate (a.length + b.length - 1) 0) = 0 := by
    ext i
    rw [coeff_toPoly, Polynomial.coeff_zero, List.getD_eq_getElem?_getD, List.getElem?_replicate]
    split_ifs <;> rfl
  rw [polyMulti, hpoly, hzero, zero_add]
  rfl

end Mnn.Math
