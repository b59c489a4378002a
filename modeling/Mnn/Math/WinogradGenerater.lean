import Mnn.Lib.ToomCook
import Mnn.Math.Matrix

/-!
# The matrices of the Winograd convolution

`WinogradGenerater` evaluates tiles and kernels at `alpha - 1` points and at infinity.  Numbers are
exact, and a division by zero leaves no generator.

* `computeF`, `computeT`, `computeL`, `computeB`, `computeA`, `computeFDiag`: the helpers;
* `WinogradGenerater.create`: the constructor;
* `points_eq`, `node_injective`: the points are distinct;
* `computeA_eq`, `computeB_eq`: the entries are those of `evaluation` and `interpolation`;
* `square_convolves`: **every square configuration convolves exactly**.
-/

namespace Mnn.Math

open Lib.ToomCook (evaluation interpolation interpolation_infinity coeff_basis_eq_zero)

/-- For every point the product of its differences with the others. -/
def computeF (a : ℕ → ℚ) (alpha : ℕ) : Tensor :=
  ⟨alpha, 1, fun _ x =>
    (List.range alpha).foldl (fun product i => if x = i then product else product * (a x - a i)) 1⟩

/-- The identity, and a column of powers. -/
def computeT (a : ℕ → ℚ) (n : ℕ) : Tensor :=
  ⟨n + 1, n, fun y x => if x = n then -(a y ^ n) else if x = y then 1 else 0⟩

/-- The polynomial that vanishes at all points but `k`. -/
def computePoly (a : ℕ → ℚ) (n k : ℕ) : List ℚ :=
  (List.range n).foldl (fun poly i => if i = k then poly else polyMulti poly [-a i, 1]) [1]

/-- Its coefficients, for every point. -/
def computeL (a : ℕ → ℚ) (n : ℕ) : Tensor :=
  ⟨n, n, fun k x => (computePoly a n k).getD x 0⟩

/-- The transform of the tile, read in columns. -/
def computeB (a : ℕ → ℚ) (alpha : ℕ) : Option Tensor := do
  let LT ← divPerLine (computeL a (alpha - 1)) (computeF a (alpha - 1))
  let BT := multi (transpose LT) (computeT a (alpha - 1))
  some ⟨alpha, alpha, fun y x =>
    if y < alpha - 1 then BT.host y x else if x < alpha - 1 then 0 else 1⟩

/-- Powers of the points, and infinity. -/
def computeA (a : ℕ → ℚ) (m n : ℕ) : Tensor :=
  ⟨m, n, fun y x =>
    if x < m - 1 then if x = 0 ∧ y = 0 then 1 else a x ^ y
    else if y = n - 1 then 1 else 0⟩

/-- The divisors, of which the first is made positive. -/
def computeFDiag (a : ℕ → ℚ) (alpha : ℕ) : Tensor :=
  let product x := (List.range (alpha - 1)).foldl
    (fun product i => if x = i then product else product * (a x - a i)) 1
  let diagData x := if x = alpha - 1 then 1 else product x
  ⟨alpha, 1, fun _ x => if x = 0 ∧ diagData 0 < 0 then -diagData 0 else diagData x⟩

/-- `0`, then multiples of the step with changing sign. -/
def points (alpha : ℕ) (interp : ℚ) : List ℚ :=
  ((List.range (alpha - 1)).foldl (fun (s : ℤ × List ℚ) i =>
    (s.1 * -1, s.2 ++ [((s.1 * (1 + i / 2 : ℕ) : ℤ) : ℚ) * interp])) (1, [0])).2

example : points 5 (1 / 2) = [0, 1 / 2, -1 / 2, 1, -1] := by decide +kernel

/-- The matrices for the left and for the right side. -/
structure WinogradGenerater where
  mA : Tensor
  mA_Right : Tensor
  mG : Tensor
  mG_Right : Tensor
  mB : Tensor

/-- The matrix of an axis that is not transformed. -/
def unit : Tensor := ⟨1, 1, fun _ _ => 1⟩

/-- The constructor.  `mA_Right` keeps what it is allocated with when `unitX ≤ 1`. -/
def WinogradGenerater.create (unitY unitX kernelY kernelX : ℕ) (interp : ℚ) (dividedInG : Bool)
    (fresh : ℚ) : Option WinogradGenerater := do
  let alpha := max (unitY + kernelY - 1) (unitX + kernelX - 1)
  let a := fun i => (points alpha interp).getD i 0
  let fdiag := computeFDiag a alpha
  let mA := if 1 < unitY then transpose (computeA a alpha unitY) else unit
  let mA_Right := if 1 < unitX then computeA a alpha unitX else ⟨1, 1, fun _ _ => fresh⟩
  let mG ← (
    if 1 < unitY then
      let mG := transpose (computeA a alpha kernelY)
      if dividedInG then divPerLine mG fdiag else some mG
    else some unit)
  let mG_Right ← (
    if 1 < unitX then
      let mG_Right := computeA a alpha kernelX
      if dividedInG then (divPerLine (transpose mG_Right) fdiag).map transpose else some mG_Right
    else some unit)
  let B ← computeB a alpha
  let mB := if dividedInG then transpose (mulPerLine (transpose B) fdiag) else B
  some ⟨mA, mA_Right, mG, mG_Right, mB⟩

/-- The constructor for squares. -/
def WinogradGenerater.square (computeUnit kernelSize : ℕ) (interp : ℚ) (dividedInG : Bool)
    (fresh : ℚ) : Option WinogradGenerater :=
  create computeUnit computeUnit kernelSize kernelSize interp dividedInG fresh

/-! ### Points -/

/-- The multiples of the step. -/
def node : ℕ → ℤ
  | 0 => 0
  | i + 1 => (-1) ^ i * (1 + i / 2 : ℕ)

theorem node_injective : Function.Injective node := by
  have hsucc : ∀ i, i % 2 = 0 ∧ node (i + 1) = 1 + (i / 2 : ℕ) ∨
      i % 2 = 1 ∧ node (i + 1) = -(1 + (i / 2 : ℕ)) := by
    intro i
    rcases Nat.mod_two_eq_zero_or_one i with h | h
    · refine .inl ⟨h, ?_⟩
      rw [node, Even.neg_one_pow (Nat.even_iff.2 h), one_mul, Nat.cast_add, Nat.cast_one]
    · refine .inr ⟨h, ?_⟩
      rw [node, Odd.neg_one_pow (Nat.odd_iff.2 h), neg_one_mul, Nat.cast_add, Nat.cast_one]
  have hzero : node 0 = 0 := rfl
  intro i j h
  rcases i with _ | i <;> rcases j with _ | j
  · rfl
  · have hj := hsucc j
    omega
  · have hi := hsucc i
    omega
  · have hi := hsucc i
    have hj := hsucc j
    omega

theorem points_eq (interp : ℚ) {alpha : ℕ} (h : 1 ≤ alpha) :
    points alpha interp = (List.range alpha).map fun i => (node i : ℚ) * interp := by
  obtain ⟨n, rfl⟩ := Nat.exists_eq_add_of_le' h
  have hfold : (List.range n).foldl (fun (s : ℤ × List ℚ) i =>
      (s.1 * -1, s.2 ++ [((s.1 * (1 + i / 2 : ℕ) : ℤ) : ℚ) * interp])) (1, [0]) =
        ((-1) ^ n, (List.range (n + 1)).map fun i => (node i : ℚ) * interp) := by
    induction n with
    | zero => simp [node]
    | succ n ih =>
      rw [List.range_succ, List.foldl_append, ih (by omega), List.foldl_cons, List.foldl_nil,
        List.range_succ (n := n + 1), List.map_append, pow_succ]
      rfl
  rw [points, Nat.add_sub_cancel, hfold]

/-- The points of the constructor are distinct. -/
theorem getD_points_injOn {interp : ℚ} (hinterp : interp ≠ 0) (alpha : ℕ) :
    Set.InjOn (fun i => (points alpha interp).getD i 0) (Finset.range alpha) := by
  intro i hi j hj h
  have hi := Finset.mem_range.1 hi
  have hj := Finset.mem_range.1 hj
  simp only [points_eq interp (by omega : 1 ≤ alpha)] at h
  rw [List.getD_eq_getElem _ _ (by simpa using hi), List.getD_eq_getElem _ _ (by simpa using hj),
    List.getElem_map, List.getElem_map, List.getElem_range, List.getElem_range] at h
  exact node_injective (Int.cast_injective (mul_right_cancel₀ hinterp h))

/-! ### Entries -/

section Entries

open Polynomial

variable {a : ℕ → ℚ} {alpha p : ℕ}

theorem toPoly_computePoly (a : ℕ → ℚ) (n k : ℕ) :
    toPoly (computePoly a n k) = ∏ i ∈ (Finset.range n).erase k, (X - C (a i)) := by
  have hlinear : ∀ i, toPoly [-a i, 1] = X - C (a i) := by
    intro i
    simp only [toPoly, List.length_cons, List.length_nil, Finset.sum_range_succ,
      Finset.sum_range_zero]
    simp [sub_eq_neg_add]
  have hfold : ∀ (l : List ℕ) (c : List ℚ),
      toPoly (l.foldl (fun poly i => if i = k then poly else polyMulti poly [-a i, 1]) c) =
        l.foldl (fun P i => if k = i then P else P * (X - C (a i))) (toPoly c) := by
    intro l
    induction l with
    | nil => exact fun c => rfl
    | cons i l ih =>
      intro c
      rw [List.foldl_cons, List.foldl_cons, ih]
      by_cases h : i = k
      · rw [if_pos h, if_pos h.symm]
      · rw [if_neg h, if_neg (Ne.symm h), (polyMulti_spec (List.cons_ne_nil _ _)).1, hlinear]
  rw [computePoly, hfold, foldl_mul_range]
  simp [toPoly]

theorem computeF_host (a : ℕ → ℚ) (n y x : ℕ) :
    (computeF a n).host y x = ∏ i ∈ (Finset.range n).erase x, (a x - a i) := by
  show (List.range n).foldl
    (fun product i => if x = i then product else product * (a x - a i)) 1 = _
  rw [foldl_mul_range, one_mul]

theorem computeF_ne_zero (ha : Set.InjOn a (Finset.range p)) {x : ℕ} (hx : x < p) (y : ℕ) :
    (computeF a p).host y x ≠ 0 := by
  rw [computeF_host]
  refine Finset.prod_ne_zero_iff.2 fun i hi => sub_ne_zero.2 fun h => ?_
  obtain ⟨hne, hmem⟩ := Finset.mem_erase.1 hi
  exact hne (ha hmem (Finset.mem_coe.2 (Finset.mem_range.2 hx)) h.symm)

/-- The quotients are the coefficients of the Lagrange basis. -/
theorem computeL_div_computeF (a : ℕ → ℚ) (n k x : ℕ) :
    (computeL a n).host k x / (computeF a n).host 0 k =
      (Lagrange.basis (Finset.range n) a k).coeff x := by
  have hbasis : Lagrange.basis (Finset.range n) a k =
      C (∏ i ∈ (Finset.range n).erase k, (a k - a i))⁻¹ *
        ∏ i ∈ (Finset.range n).erase k, (X - C (a i)) := by
    simp only [Lagrange.basis, Lagrange.basisDivisor, Finset.prod_mul_distrib]
    rw [← map_prod, Finset.prod_inv_distrib]
  rw [hbasis, coeff_C_mul, ← toPoly_computePoly, coeff_toPoly, computeF_host, mul_comm]
  exact div_eq_mul_inv _ _

theorem computeA_eq (a : ℕ → ℚ) {n : ℕ} (hn : 1 ≤ n) (p y x : ℕ) :
    (computeA a (p + 1) n).host y x = evaluation a p n x y := by
  show (if x < p + 1 - 1 then if x = 0 ∧ y = 0 then 1 else a x ^ y
    else if y = n - 1 then 1 else 0) = _
  rw [evaluation, Nat.add_sub_cancel]
  split_ifs with hx hzero hlast hlast' hlast'
  · rw [hzero.2, pow_zero]
  · rfl
  · rfl
  · omega
  · omega
  · rfl

/-- No divisor of the basis vanishes. -/
theorem divPerLine_computeL (ha : Set.InjOn a (Finset.range p)) :
    ∃ LT, divPerLine (computeL a p) (computeF a p) = some LT ∧ LT.height = p ∧
      ∀ k m, LT.host k m = (Lagrange.basis (Finset.range p) a k).coeff m :=
  ⟨_, if_pos fun _ hy => computeF_ne_zero ha hy 0, rfl, fun k m => computeL_div_computeF a p k m⟩

theorem computeB_eq (ha : Set.InjOn a (Finset.range p)) :
    ∃ B, computeB a (p + 1) = some B ∧ ∀ m < p + 1, ∀ k < p + 1,
      B.host m k = interpolation a p m k := by
  obtain ⟨LT, hLT, hheight, hhost⟩ := divPerLine_computeL ha
  have hBT : ∀ m k, (multi (transpose LT) (computeT a p)).host m k =
      ∑ i ∈ Finset.range p, (Lagrange.basis (Finset.range p) a i).coeff m *
        (if k = p then -(a i ^ p) else if k = i then 1 else 0) := by
    intro m k
    rw [multi_host]
    show ∑ i ∈ Finset.range LT.height, LT.host i m * _ = _
    rw [hheight]
    exact Finset.sum_congr rfl fun i _ => by rw [hhost]; rfl
  rw [computeB, Nat.add_sub_cancel, hLT]
  refine ⟨_, rfl, fun m hm k hk => ?_⟩
  show (if m < p then (multi (transpose LT) (computeT a p)).host m k
    else if k < p then 0 else 1) = _
  have hlast : ∀ i ∈ Finset.range p, (Lagrange.basis (Finset.range p) a i).coeff p = 0 :=
    fun i hi => coeff_basis_eq_zero ha (Finset.mem_range.1 hi)
  rcases Nat.lt_succ_iff_lt_or_eq.1 hk with hk | rfl
  · rw [interpolation, if_pos hk, if_pos hk]
    split_ifs with hm'
    · rw [hBT]
      simp only [if_neg hk.ne, mul_ite, mul_one, mul_zero]
      rw [Finset.sum_ite_eq, if_pos (Finset.mem_range.2 hk)]
    · obtain rfl : m = p := by omega
      rw [hlast k (Finset.mem_range.2 hk)]
  · rw [interpolation_infinity, if_neg (lt_irrefl k)]
    split_ifs with hm' hmk hmk
    · omega
    · rw [hBT, zero_sub, ← Finset.sum_neg_distrib]
      refine Finset.sum_congr rfl fun i _ => ?_
      rw [if_pos rfl]
      ring
    · obtain rfl : m = k := hmk
      rw [Finset.sum_eq_zero fun i hi => by rw [hlast i hi, mul_zero], sub_zero]
    · omega

/-- The divisors of the kernel do not vanish either. -/
theorem computeFDiag_ne_zero (ha : Set.InjOn a (Finset.range p)) {x : ℕ} (hx : x < p + 1) :
    (computeFDiag a (p + 1)).host 0 x ≠ 0 := by
  have hdiag : ∀ x < p + 1, (if x = p then (1 : ℚ) else (computeF a p).host 0 x) ≠ 0 := by
    intro x hx
    split_ifs with h
    · exact one_ne_zero
    · exact computeF_ne_zero ha (by omega) 0
  show (if x = 0 ∧ (if 0 = p then (1 : ℚ) else (computeF a p).host 0 0) < 0 then
    -(if 0 = p then (1 : ℚ) else (computeF a p).host 0 0)
    else if x = p then 1 else (computeF a p).host 0 x) ≠ 0
  by_cases h : x = 0 ∧ (if 0 = p then (1 : ℚ) else (computeF a p).host 0 0) < 0
  · rw [if_pos h]
    exact neg_ne_zero.2 (hdiag 0 (by omega))
  · rw [if_neg h]
    exact hdiag x hx

end Entries

/-! ### The divisors -/

/-- What a row of the kernel's transform is multiplied by. -/
def rowScale (dividedInG : Bool) (fdiag : Tensor) (k : ℕ) : ℚ :=
  if dividedInG then (fdiag.host 0 k)⁻¹ else 1

/-- What a column of the tile's transform is multiplied by. -/
def columnScale (dividedInG : Bool) (fdiag : Tensor) (k : ℕ) : ℚ :=
  if dividedInG then fdiag.host 0 k else 1

section Divisors

variable {fdiag : Tensor} (dividedInG : Bool)

theorem rowScale_mul_columnScale {k : ℕ} (h : fdiag.host 0 k ≠ 0) :
    rowScale dividedInG fdiag k * columnScale dividedInG fdiag k = 1 := by
  cases dividedInG with
  | false => exact one_mul 1
  | true => exact inv_mul_cancel₀ h

theorem divided_rows {A : Tensor} (h : ∀ y < A.height, fdiag.host 0 y ≠ 0) :
    (if dividedInG then divPerLine A fdiag else some A) =
      some ⟨A.width, A.height, fun y x => A.host y x * rowScale dividedInG fdiag y⟩ := by
  cases dividedInG with
  | false => simp only [rowScale, Bool.false_eq_true, if_false, mul_one]
  | true => simp only [rowScale, if_true, divPerLine, if_pos h, div_eq_mul_inv]

theorem divided_columns {A : Tensor} (h : ∀ x < A.width, fdiag.host 0 x ≠ 0) :
    (if dividedInG then (divPerLine (transpose A) fdiag).map transpose else some A) =
      some ⟨A.width, A.height, fun y x => A.host y x * rowScale dividedInG fdiag x⟩ := by
  cases dividedInG with
  | false => simp only [rowScale, Bool.false_eq_true, if_false, mul_one]
  | true =>
    have hdiv : divPerLine (transpose A) fdiag = some ⟨A.height, A.width, fun y x =>
        A.host x y / fdiag.host 0 y⟩ := if_pos h
    rw [if_pos rfl, hdiv]
    simp only [rowScale, if_true, div_eq_mul_inv]
    rfl

theorem multiplied_columns (B : Tensor) :
    (if dividedInG then transpose (mulPerLine (transpose B) fdiag) else B) =
      ⟨B.width, B.height, fun y x => B.host y x * columnScale dividedInG fdiag x⟩ := by
  cases dividedInG with
  | false => simp only [columnScale, Bool.false_eq_true, if_false, mul_one]
  | true => rfl

end Divisors

/-! ### The generator -/

open Matrix in
/-- Kernel and tile are transformed, multiplied entry by entry, and transformed back. -/
def WinogradGenerater.convolve (W : WinogradGenerater) (n r : ℕ)
    (d : Matrix (Fin (n + r - 1)) (Fin (n + r - 1)) ℚ) (g : Matrix (Fin r) (Fin r) ℚ) :
    Matrix (Fin n) (Fin n) ℚ :=
  let A := W.mA.toMatrix (n + r - 1) n
  let G := W.mG.toMatrix (n + r - 1) r
  let B := W.mB.toMatrix (n + r - 1) (n + r - 1)
  Aᵀ * ((G * g * Gᵀ) ⊙ (Bᵀ * d * B)) * A

/-- The valid correlation of the tile with the kernel. -/
def correlation (n r : ℕ) (d : Matrix (Fin (n + r - 1)) (Fin (n + r - 1)) ℚ)
    (g : Matrix (Fin r) (Fin r) ℚ) : Matrix (Fin n) (Fin n) ℚ :=
  Matrix.of fun y x => ∑ j : Fin r, ∑ i : Fin r,
    g j i * d ⟨y + j, by omega⟩ ⟨x + i, by omega⟩

/-- **Every square configuration convolves exactly**, and no division by zero occurs. -/
theorem WinogradGenerater.square_convolves {n r : ℕ} (hn : 2 ≤ n) (hr : 2 ≤ r) {interp : ℚ}
    (hinterp : interp ≠ 0) (dividedInG : Bool) (fresh : ℚ) :
    ∃ W, square n r interp dividedInG fresh = some W ∧
      W.mA_Right.toMatrix n (n + r - 1) = (W.mA.toMatrix (n + r - 1) n).transpose ∧
      W.mG_Right.toMatrix r (n + r - 1) = (W.mG.toMatrix (n + r - 1) r).transpose ∧
      ∀ d g, W.convolve n r d g = correlation n r d g := by
  obtain ⟨p, hp⟩ : ∃ p, n + r = p + 2 := ⟨n + r - 2, by omega⟩
  have halpha : max (n + r - 1) (n + r - 1) = p + 1 := by omega
  generalize ha : (fun i => (points (p + 1) interp).getD i 0) = a
  have hinj : Set.InjOn a (Finset.range p) := ha ▸ (getD_points_injOn hinterp (p + 1)).mono
    (Finset.coe_subset.2 (Finset.range_subset_range.2 (Nat.le_succ p)))
  obtain ⟨B, hB, hhost⟩ := computeB_eq hinj
  generalize hfdiag : computeFDiag a (p + 1) = fdiag
  have hne : ∀ x < p + 1, fdiag.host 0 x ≠ 0 := fun x hx => hfdiag ▸ computeFDiag_ne_zero hinj hx
  have hcreate : square n r interp dividedInG fresh = some
      ⟨transpose (computeA a (p + 1) n), computeA a (p + 1) n,
        ⟨r, p + 1, fun y x =>
          (computeA a (p + 1) r).host x y * rowScale dividedInG fdiag y⟩,
        ⟨p + 1, r, fun y x =>
          (computeA a (p + 1) r).host y x * rowScale dividedInG fdiag x⟩,
        ⟨B.width, B.height, fun y x =>
          B.host y x * columnScale dividedInG fdiag x⟩⟩ := by
    rw [square, create, halpha]
    simp only [ha, hfdiag, if_pos (by omega : 1 < n), hB, multiplied_columns]
    rw [divided_rows dividedInG hne, divided_columns dividedInG hne]
    rfl
  have hA : (transpose (computeA a (p + 1) n)).toMatrix (n + r - 1) n =
      Matrix.of fun (k : Fin (n + r - 1)) (i : Fin n) => evaluation a p n k i := by
    ext k i
    exact computeA_eq a (by omega) p i k
  have hcorrelates := (Lib.ToomCook.correlates hinj hp rfl).scale
    (s := fun k => rowScale dividedInG fdiag k) (t := fun k => columnScale dividedInG fdiag k)
    (fun k => rowScale_mul_columnScale dividedInG (hne k (by omega)))
    (fun k j => congrArg (· * _) (computeA_eq a (by omega) p j k))
    (fun m k => congrArg (· * _) (hhost m (by omega) k (by omega)))
  refine ⟨_, hcreate, rfl, rfl, fun d g => ?_⟩
  rw [convolve, hA]
  exact hcorrelates.correlation_two g d

/-- Two results of a kernel of three. -/
theorem WinogradGenerater.square_convolves_two : ∃ W, square 2 3 (1 / 2) true 0 = some W ∧
    W.mA_Right.toMatrix 2 4 = (W.mA.toMatrix 4 2).transpose ∧
    W.mG_Right.toMatrix 3 4 = (W.mG.toMatrix 4 3).transpose ∧
    ∀ d g, W.convolve 2 3 d g = correlation 2 3 d g :=
  square_convolves (by decide) (by decide) (by norm_num) true 0

end Mnn.Math
