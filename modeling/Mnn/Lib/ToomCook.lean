import Mathlib.LinearAlgebra.Lagrange
import Mathlib.LinearAlgebra.Matrix.Hadamard
import Mathlib.Tactic

/-!
# Correlation with few products

A kernel and a tile are evaluated, multiplied entry by entry, and the products interpolated.

* `Correlates`: the identity between the three matrices; `Correlates.scale`: a factor of one
  evaluation may be moved to the other;
* `Correlates.correlation`, `Correlates.correlation_two`: **the result is the correlation**, on one
  axis and on two;
* `sum_pow_mul_coeff_basis`: powers interpolated at distinct points, coefficient by coefficient;
* `evaluation`, `interpolation`, `correlates`: the matrices at distinct points and infinity.
-/

namespace Lib.ToomCook

open Finset Matrix Polynomial

section Correlates

variable {R ι ρ μ κ : Type*} [CommSemiring R] [DecidableEq μ] [Fintype κ]

/-- The product of place `k` counts `B m k` for the entry `m` of the tile and `G k j` for the entry
`j` of the kernel.  With the weights `A k i`, only the entry `c i j` meets `j`. -/
def Correlates (A : Matrix κ ι R) (G : Matrix κ ρ R) (B : Matrix μ κ R) (c : ι → ρ → μ) : Prop :=
  ∀ i j m, ∑ k, A k i * G k j * B m k = if m = c i j then 1 else 0

variable {A : Matrix κ ι R} {G : Matrix κ ρ R} {B : Matrix μ κ R} {c : ι → ρ → μ}

theorem Correlates.scale (h : Correlates A G B c) {G' : Matrix κ ρ R} {B' : Matrix μ κ R}
    {s t : κ → R} (hst : ∀ k, s k * t k = 1) (hG : ∀ k j, G' k j = G k j * s k)
    (hB : ∀ m k, B' m k = B m k * t k) : Correlates A G' B' c := by
  intro i j m
  rw [← h i j m]
  refine sum_congr rfl fun k _ => ?_
  calc A k i * G' k j * B' m k = A k i * G k j * B m k * (s k * t k) := by rw [hG, hB]; ring
    _ = A k i * G k j * B m k := by rw [hst, mul_one]

variable [Fintype ρ] [Fintype μ]

/-- **One axis.** -/
theorem Correlates.correlation (h : Correlates A G B c) (g : ρ → R) (d : μ → R) (i : ι) :
    ∑ k, A k i * ((G *ᵥ g) k * (Bᵀ *ᵥ d) k) = ∑ j, g j * d (c i j) := by
  calc ∑ k, A k i * ((G *ᵥ g) k * (Bᵀ *ᵥ d) k)
      = ∑ k, ∑ j, ∑ m, A k i * G k j * B m k * (g j * d m) := by
        refine sum_congr rfl fun k _ => ?_
        rw [Matrix.mulVec, Matrix.mulVec, dotProduct, dotProduct, sum_mul_sum, mul_sum]
        refine sum_congr rfl fun j _ => ?_
        rw [mul_sum]
        refine sum_congr rfl fun m _ => ?_
        rw [Matrix.transpose_apply]
        ring
    _ = ∑ j, ∑ m, (∑ k, A k i * G k j * B m k) * (g j * d m) := by
        rw [sum_comm]
        refine sum_congr rfl fun j _ => ?_
        rw [sum_comm]
        exact sum_congr rfl fun m _ => (sum_mul _ _ _).symm
    _ = ∑ j, g j * d (c i j) := by
        refine sum_congr rfl fun j _ => ?_
        simp only [h i j, ite_mul, one_mul, zero_mul, sum_ite_eq', mem_univ, if_true]

/-- **Two axes.** -/
theorem Correlates.correlation_two (h : Correlates A G B c) (g : Matrix ρ ρ R)
    (d : Matrix μ μ R) :
    Aᵀ * ((G * g * Gᵀ) ⊙ (Bᵀ * d * B)) * A =
      Matrix.of fun i i' => ∑ j, ∑ j', g j j' * d (c i j) (c i' j') := by
  ext i i'
  have hfirst : ∀ k', (Aᵀ * ((G * g * Gᵀ) ⊙ (Bᵀ * d * B))) i k' =
      ∑ j, (G *ᵥ g j) k' * (Bᵀ *ᵥ d (c i j)) k' := by
    intro k'
    rw [← h.correlation (fun j => (G *ᵥ g j) k') (fun m => (Bᵀ *ᵥ d m) k') i, Matrix.mul_apply]
    refine sum_congr rfl fun k _ => ?_
    rw [hadamard_apply, Matrix.mul_assoc, Matrix.mul_assoc, Matrix.mul_apply (M := G),
      Matrix.mul_apply (M := Bᵀ), Matrix.transpose_apply]
    congr 2
    · refine sum_congr rfl fun j _ => congrArg _ ?_
      show (g * Gᵀ) j k' = ∑ j', G k' j' * g j j'
      exact sum_congr rfl fun j' _ => mul_comm _ _
    · refine sum_congr rfl fun m _ => congrArg _ ?_
      show (d * B) m k' = ∑ m', B m' k' * d m m'
      exact sum_congr rfl fun m' _ => mul_comm _ _
  calc (Aᵀ * ((G * g * Gᵀ) ⊙ (Bᵀ * d * B)) * A) i i'
      = ∑ k', ∑ j, A k' i' * ((G *ᵥ g j) k' * (Bᵀ *ᵥ d (c i j)) k') := by
        rw [Matrix.mul_apply]
        refine sum_congr rfl fun k' _ => ?_
        rw [hfirst, mul_comm, mul_sum]
    _ = ∑ j, ∑ j', g j j' * d (c i j) (c i' j') := by
        rw [sum_comm]
        exact sum_congr rfl fun j _ => h.correlation (g j) (d (c i j)) i'

end Correlates

section Points

variable {F : Type*} [Field F] {v : ℕ → F} {p : ℕ}

theorem sum_pow_mul_coeff_basis (hv : Set.InjOn v (range p)) {e : ℕ} (he : e < p) (m : ℕ) :
    ∑ k ∈ range p, v k ^ e * (Lagrange.basis (range p) v k).coeff m = if m = e then 1 else 0 := by
  have hpow : (X ^ e : F[X]) =
      ∑ k ∈ range p, C (v k ^ e) * Lagrange.basis (range p) v k := by
    conv_lhs => rw [Lagrange.eq_interpolate (f := X ^ e) hv (by
      rw [degree_X_pow, card_range]; exact_mod_cast he)]
    rw [Lagrange.interpolate_apply]
    simp only [eval_pow, eval_X]
  have hcoeff := congrArg (fun f => coeff f m) hpow
  simp only [coeff_X_pow, finsetSum_coeff, coeff_C_mul] at hcoeff
  exact hcoeff.symm

theorem coeff_basis_eq_zero (hv : Set.InjOn v (range p)) {k : ℕ} (hk : k < p) :
    (Lagrange.basis (range p) v k).coeff p = 0 := by
  refine coeff_eq_zero_of_natDegree_lt ?_
  rw [Lagrange.natDegree_basis hv (mem_range.2 hk), card_range]
  omega

/-- Powers of the points; infinity, the place `p`, has the last column only. -/
def evaluation (v : ℕ → F) (p n : ℕ) (k i : ℕ) : F :=
  if k < p then v k ^ i else if i + 1 = n then 1 else 0

/-- The coefficients of the Lagrange basis; infinity has those of the polynomial that vanishes at
the points. -/
noncomputable def interpolation (v : ℕ → F) (p : ℕ) (m k : ℕ) : F :=
  if k < p then (Lagrange.basis (range p) v k).coeff m
  else (X ^ p - ∑ l ∈ range p, C (v l ^ p) * Lagrange.basis (range p) v l : F[X]).coeff m

theorem interpolation_infinity (v : ℕ → F) (p m : ℕ) : interpolation v p m p =
    (if m = p then 1 else 0) -
      ∑ l ∈ range p, v l ^ p * (Lagrange.basis (range p) v l).coeff m := by
  simp only [interpolation, lt_irrefl, if_false, coeff_sub, coeff_X_pow, finsetSum_coeff,
    coeff_C_mul]

/-- **Points and infinity** correlate a tile of `n + r - 1` entries. -/
theorem correlates (hv : Set.InjOn v (range p)) {n r q : ℕ} (hp : n + r = p + 2)
    (hq : q = n + r - 1) :
    Correlates (Matrix.of fun (k : Fin q) (i : Fin n) => evaluation v p n k i)
      (Matrix.of fun (k : Fin q) (j : Fin r) => evaluation v p r k j)
      (Matrix.of fun m k : Fin q => interpolation v p m k)
      fun i j => ⟨i + j, by omega⟩ := by
  obtain rfl : q = p + 1 := by omega
  intro i j m
  simp only [Matrix.of_apply, Fin.ext_iff]
  rw [Fin.sum_univ_eq_sum_range fun k =>
    evaluation v p n k i * evaluation v p r k j * interpolation v p m k, sum_range_succ]
  have hpoints : ∑ k ∈ range p,
      evaluation v p n k i * evaluation v p r k j * interpolation v p m k =
        ∑ k ∈ range p, v k ^ (i + j : ℕ) * (Lagrange.basis (range p) v k).coeff m := by
    refine sum_congr rfl fun k hk => ?_
    rw [evaluation, evaluation, interpolation, if_pos (mem_range.1 hk), if_pos (mem_range.1 hk),
      if_pos (mem_range.1 hk), pow_add]
  rw [hpoints, interpolation_infinity, evaluation, evaluation, if_neg (lt_irrefl p),
    if_neg (lt_irrefl p)]
  by_cases hlast : (i : ℕ) + j < p
  · have hzero :
        (if (i : ℕ) + 1 = n then (1 : F) else 0) * (if (j : ℕ) + 1 = r then 1 else 0) = 0 := by
      rw [ite_zero_mul_ite_zero, if_neg (by omega)]
    rw [hzero, zero_mul, add_zero, sum_pow_mul_coeff_basis hv hlast]
  · have hij : (i : ℕ) + j = p := by omega
    rw [if_pos (by omega), if_pos (by omega), hij]
    ring

end Points

end Lib.ToomCook
