import Mnn.Lib.Loops

/-!
# Quantising weights

The arithmetic that the two writers of quantised weights and the sparse reader share
(`source/core/IDSTEncoder.hpp`, `source/core/ConvolutionCommon.cpp`), and the scales that
`WeightQuantAndCoding` computes, over exact rationals.

* `quantValue`: the value of a weight, before any clamping; `zeroQuant`: the value of zero;
* `weightScales`: the scales of a weight array, block by block;
* `quantValue_weightScales`: with these scales no value needs clamping.

Sizes are natural numbers.  A layer's kernel is cut into `blockNum` blocks of `blockSize` weights,
as it is for convolutions without groups.
-/

namespace Mnn.Idst

/-- `round` of the C library: to the nearest integer, halves away from zero. -/
def cRound (x : ℚ) : ℤ := if 0 ≤ x then ⌊x + 1 / 2⌋ else ⌈x - 1 / 2⌉

/-- Scales up to this one count as zero, on both sides. -/
def tinyScale : ℚ := 1 / 1000000

/-- `min_value`: minus `1 << (bits - 1)`. -/
def minValue (bits : ℕ) : ℤ := -2 ^ (bits - 1)

/-- `max_value`. -/
def maxValue (bits : ℕ) : ℤ := 2 ^ (bits - 1) - 1

/-- The value of a weight in asymmetric mode. -/
def quantAsym (bits : ℕ) (min alpha weight : ℚ) : ℤ :=
  if alpha > tinyScale then cRound ((weight - min) / alpha) + minValue bits else minValue bits

/-- The value of a weight in symmetric mode. -/
def quantSym (alpha weight : ℚ) : ℤ := if alpha > tinyScale then cRound (weight / alpha) else 0

section Rows

variable (bits : ℕ) (asymmetricQuantFlag : Bool) (alphaData : List ℚ)

/-- The value of a weight of channel `i`, not clamped. -/
def quantValue (i : ℕ) (weight : ℚ) : ℤ :=
  if asymmetricQuantFlag then
    quantAsym bits (alphaData.getD (2 * i) 0) (alphaData.getD (2 * i + 1) 0) weight
  else quantSym (alphaData.getD i 0) weight

/-- The value of zero in channel `i`. -/
def zeroQuant (i : ℕ) : ℤ :=
  if asymmetricQuantFlag then
    quantAsym bits (alphaData.getD (2 * i) 0) (alphaData.getD (2 * i + 1) 0) 0
  else 0

end Rows

/-! ### Scales -/

/-- `findAbsMax`. -/
def findAbsMax : List ℚ → ℚ
  | [] => 0
  | w :: weights => weights.foldl (fun absMax w => if |w| > absMax then |w| else absMax) |w|

/-- `findMinMax`. -/
def findMinMax : List ℚ → ℚ × ℚ
  | [] => (0, 0)
  | w :: weights => weights.foldl (fun (m : ℚ × ℚ) w =>
      (if w < m.1 then w else m.1, if w > m.2 then w else m.2)) (w, w)

/-- `threshold`. -/
def threshold (bits : ℕ) : ℚ := 2 ^ (bits - 1) - 1

/-- `clampMin`. -/
def clampMin (bits : ℕ) (asymmetricQuantFlag : Bool) : ℚ :=
  if asymmetricQuantFlag then -threshold bits - 1 else -threshold bits

/-- The entries of one block in the scale array. -/
def blockScales (bits : ℕ) (asymmetricQuantFlag : Bool) (block : List ℚ) : List ℚ :=
  if asymmetricQuantFlag then
    let (min, max) := findMinMax block
    [min, (max - min) / (threshold bits - clampMin bits asymmetricQuantFlag)]
  else [findAbsMax block / threshold bits]

/-- The scales of `WeightQuantAndCoding` for `oc` kernels of `blockNum` blocks. -/
def weightScales (bits : ℕ) (asymmetricQuantFlag : Bool) (oc blockNum blockSize : ℕ)
    (weightData : List ℚ) : List ℚ :=
  let kernelSize := blockNum * blockSize
  (List.range oc).flatMap fun k => (List.range blockNum).flatMap fun b =>
    let beginIndex := k * kernelSize + b * blockSize
    blockScales bits asymmetricQuantFlag ((weightData.drop beginIndex).take blockSize)

/-! ### Values within their range -/

theorem cRound_le {x : ℚ} {n : ℤ} (h : x ≤ n) : cRound x ≤ n := by
  unfold cRound
  split_ifs
  · rw [← Int.lt_add_one_iff, Int.floor_lt]
    push_cast
    linarith
  · rw [Int.ceil_le]
    linarith

theorem le_cRound {x : ℚ} {n : ℤ} (h : n ≤ x) : n ≤ cRound x := by
  unfold cRound
  split_ifs
  · rw [Int.le_floor]
    linarith
  · rw [← Int.sub_one_lt_iff, Int.lt_ceil]
    push_cast
    linarith

theorem abs_le_findAbsMax {weights : List ℚ} {w : ℚ} (hw : w ∈ weights) :
    |w| ≤ findAbsMax weights := by
  have key : ∀ (l : List ℚ) (m : ℚ),
      m ≤ l.foldl (fun absMax w => if |w| > absMax then |w| else absMax) m ∧
        ∀ w ∈ l, |w| ≤ l.foldl (fun absMax w => if |w| > absMax then |w| else absMax) m := by
    intro l
    induction l with
    | nil => exact fun m => ⟨le_rfl, fun w hw => absurd hw List.not_mem_nil⟩
    | cons v l ih =>
      intro m
      obtain ⟨hm, hl⟩ := ih (if |v| > m then |v| else m)
      have hstep : m ≤ (if |v| > m then |v| else m) ∧ |v| ≤ (if |v| > m then |v| else m) := by
        split_ifs with h
        · exact ⟨h.le, le_rfl⟩
        · exact ⟨le_rfl, not_lt.1 h⟩
      refine ⟨hstep.1.trans hm, fun w hw => ?_⟩
      rcases List.mem_cons.1 hw with rfl | hw
      · exact hstep.2.trans hm
      · exact hl w hw
  cases weights with
  | nil => exact absurd hw List.not_mem_nil
  | cons v l =>
    obtain ⟨hm, hl⟩ := key l |v|
    rcases List.mem_cons.1 hw with rfl | hw
    · exact hm
    · exact hl w hw

theorem findMinMax_le {weights : List ℚ} {w : ℚ} (hw : w ∈ weights) :
    (findMinMax weights).1 ≤ w ∧ w ≤ (findMinMax weights).2 := by
  have key : ∀ (l : List ℚ) (m : ℚ × ℚ),
      let r := l.foldl (fun (m : ℚ × ℚ) w =>
        (if w < m.1 then w else m.1, if w > m.2 then w else m.2)) m
      (r.1 ≤ m.1 ∧ m.2 ≤ r.2) ∧ ∀ w ∈ l, r.1 ≤ w ∧ w ≤ r.2 := by
    intro l
    induction l with
    | nil => exact fun m => ⟨⟨le_rfl, le_rfl⟩, fun w hw => absurd hw List.not_mem_nil⟩
    | cons v l ih =>
      intro m
      obtain ⟨⟨hm₁, hm₂⟩, hl⟩ := ih (if v < m.1 then v else m.1, if v > m.2 then v else m.2)
      have hmin : (if v < m.1 then v else m.1) ≤ m.1 ∧ (if v < m.1 then v else m.1) ≤ v := by
        split_ifs with h
        exacts [⟨h.le, le_rfl⟩, ⟨le_rfl, not_lt.1 h⟩]
      have hmax : m.2 ≤ (if v > m.2 then v else m.2) ∧ v ≤ (if v > m.2 then v else m.2) := by
        split_ifs with h
        exacts [⟨h.le, le_rfl⟩, ⟨le_rfl, not_lt.1 h⟩]
      refine ⟨⟨hm₁.trans hmin.1, hmax.1.trans hm₂⟩, fun w hw => ?_⟩
      rcases List.mem_cons.1 hw with rfl | hw
      · exact ⟨hm₁.trans hmin.2, hmax.2.trans hm₂⟩
      · exact hl w hw
  cases weights with
  | nil => exact absurd hw List.not_mem_nil
  | cons v l =>
    obtain ⟨⟨hm₁, hm₂⟩, hl⟩ := key l (v, v)
    rcases List.mem_cons.1 hw with rfl | hw
    · exact ⟨hm₁, hm₂⟩
    · exact hl w hw

/-- In asymmetric mode the scale spreads the weights of a block over all values. -/
theorem quantAsym_mem {bits : ℕ} (hbits : 2 ≤ bits) {min max w : ℚ} (hmin : min ≤ w)
    (hmax : w ≤ max) :
    let v := quantAsym bits min ((max - min) / (threshold bits - clampMin bits true)) w
    minValue bits ≤ v ∧ v ≤ maxValue bits := by
  intro v
  have hpow : (2 : ℤ) ≤ 2 ^ (bits - 1) := by
    calc (2 : ℤ) = 2 ^ 1 := (pow_one 2).symm
      _ ≤ 2 ^ (bits - 1) := pow_le_pow_right₀ (by norm_num) (by omega)
  have hspan : threshold bits - clampMin bits true = ((2 * 2 ^ (bits - 1) - 1 : ℤ) : ℚ) := by
    simp only [threshold, clampMin, if_true]
    push_cast
    ring
  have hpos : (0 : ℚ) < ((2 * 2 ^ (bits - 1) - 1 : ℤ) : ℚ) := by
    exact_mod_cast (by omega : (0 : ℤ) < 2 * 2 ^ (bits - 1) - 1)
  simp only [v, quantAsym, hspan]
  split_ifs with halpha
  · have hscale : 0 < (max - min) / ((2 * 2 ^ (bits - 1) - 1 : ℤ) : ℚ) :=
      lt_trans (by norm_num [tinyScale]) halpha
    have hwidth : 0 < max - min := by
      by_contra hle
      exact absurd hscale (not_lt.2 (div_nonpos_of_nonpos_of_nonneg (not_lt.1 hle) hpos.le))
    have hle : (w - min) / ((max - min) / ((2 * 2 ^ (bits - 1) - 1 : ℤ) : ℚ)) ≤
        ((2 * 2 ^ (bits - 1) - 1 : ℤ) : ℚ) := by
      rw [div_le_iff₀ hscale, mul_div_cancel₀ _ hpos.ne']
      linarith
    have hge : ((0 : ℤ) : ℚ) ≤ (w - min) / ((max - min) / ((2 * 2 ^ (bits - 1) - 1 : ℤ) : ℚ)) := by
      rw [Int.cast_zero]
      exact div_nonneg (sub_nonneg.2 hmin) hscale.le
    have h₁ := cRound_le hle
    have h₂ := le_cRound hge
    simp only [minValue, maxValue]
    constructor <;> linarith
  · simp only [minValue, maxValue]
    constructor <;> linarith

/-- In symmetric mode the scale is made for the largest magnitude. -/
theorem quantSym_mem {bits : ℕ} (hbits : 2 ≤ bits) {absMax w : ℚ} (h : |w| ≤ absMax) :
    let v := quantSym (absMax / threshold bits) w
    minValue bits ≤ v ∧ v ≤ maxValue bits := by
  intro v
  have hpow : (2 : ℤ) ≤ 2 ^ (bits - 1) := by
    calc (2 : ℤ) = 2 ^ 1 := (pow_one 2).symm
      _ ≤ 2 ^ (bits - 1) := pow_le_pow_right₀ (by norm_num) (by omega)
  have hthreshold : threshold bits = ((2 ^ (bits - 1) - 1 : ℤ) : ℚ) := by
    simp only [threshold]
    push_cast
    ring
  have hpos : (0 : ℚ) < ((2 ^ (bits - 1) - 1 : ℤ) : ℚ) := by
    exact_mod_cast (by omega : (0 : ℤ) < 2 ^ (bits - 1) - 1)
  simp only [v, quantSym, hthreshold]
  split_ifs with halpha
  · have hscale : 0 < absMax / ((2 ^ (bits - 1) - 1 : ℤ) : ℚ) :=
      lt_trans (by norm_num [tinyScale]) halpha
    obtain ⟨hlow, hhigh⟩ := abs_le.1 h
    have hle : w / (absMax / ((2 ^ (bits - 1) - 1 : ℤ) : ℚ)) ≤ ((2 ^ (bits - 1) - 1 : ℤ) : ℚ) := by
      rw [div_le_iff₀ hscale, mul_div_cancel₀ _ hpos.ne']
      exact hhigh
    have hge : ((-(2 ^ (bits - 1) - 1) : ℤ) : ℚ) ≤
        w / (absMax / ((2 ^ (bits - 1) - 1 : ℤ) : ℚ)) := by
      rw [le_div_iff₀ hscale, Int.cast_neg, neg_mul, mul_div_cancel₀ _ hpos.ne']
      exact hlow
    have h₁ := cRound_le hle
    have h₂ := le_cRound hge
    simp only [minValue, maxValue]
    constructor <;> linarith
  · simp only [minValue, maxValue]
    constructor <;> linarith

theorem length_blockScales (bits : ℕ) (asymmetricQuantFlag : Bool) (block : List ℚ) :
    (blockScales bits asymmetricQuantFlag block).length =
      if asymmetricQuantFlag then 2 else 1 := by
  unfold blockScales
  split_ifs <;> rfl

/-- The scales, row by row. -/
theorem weightScales_eq (bits : ℕ) (asymmetricQuantFlag : Bool) (oc blockNum blockSize : ℕ)
    (weightData : List ℚ) :
    weightScales bits asymmetricQuantFlag oc blockNum blockSize weightData =
      (List.range (oc * blockNum)).flatMap fun r =>
        blockScales bits asymmetricQuantFlag ((weightData.drop (r * blockSize)).take blockSize) := by
  rw [weightScales, ← Lib.flatMap_range_range]
  simp only [Nat.add_mul, Nat.mul_assoc]

/-- The entries of row `r`. -/
theorem getD_weightScales {bits : ℕ} (asymmetricQuantFlag : Bool) {oc blockNum blockSize : ℕ}
    (weightData : List ℚ) {r c i : ℕ} (hr : r < oc * blockNum)
    (hc : (if asymmetricQuantFlag then 2 else 1) = c) (hi : i < c) :
    (weightScales bits asymmetricQuantFlag oc blockNum blockSize weightData).getD (c * r + i) 0 =
      (blockScales bits asymmetricQuantFlag
        ((weightData.drop (r * blockSize)).take blockSize)).getD i 0 := by
  subst hc
  rw [weightScales_eq]
  exact Lib.getD_flatMap_range (fun r => length_blockScales ..) hr hi 0

/-- **With the computed scales no value is clamped.** -/
theorem quantValue_weightScales {bits : ℕ} (hbits : 2 ≤ bits) (asymmetricQuantFlag : Bool)
    {oc blockNum blockSize : ℕ} {weightData : List ℚ}
    (hlen : weightData.length = oc * blockNum * blockSize) {r j : ℕ} (hr : r < oc * blockNum)
    (hj : j < blockSize) :
    let alphaData := weightScales bits asymmetricQuantFlag oc blockNum blockSize weightData
    let v := quantValue bits asymmetricQuantFlag alphaData r (weightData.getD (r * blockSize + j) 0)
    minValue bits ≤ v ∧ v ≤ maxValue bits := by
  intro alphaData v
  have hbound : r * blockSize + blockSize ≤ weightData.length := by
    rw [hlen, ← Nat.succ_mul]
    exact Nat.mul_le_mul_right blockSize hr
  have hmem : weightData.getD (r * blockSize + j) 0 ∈
      (weightData.drop (r * blockSize)).take blockSize := by
    rw [List.mem_iff_getElem?]
    refine ⟨j, ?_⟩
    rw [List.getElem?_take_of_lt hj, List.getElem?_drop, List.getD_eq_getElem?_getD,
      List.getElem?_eq_getElem (by omega), Option.getD_some]
  generalize hblock : (weightData.drop (r * blockSize)).take blockSize = block at hmem
  have hget : ∀ {c i : ℕ}, (if asymmetricQuantFlag then 2 else 1) = c → i < c →
      alphaData.getD (c * r + i) 0 = (blockScales bits asymmetricQuantFlag block).getD i 0 := by
    intro c i hc hi
    rw [← hblock]
    exact getD_weightScales asymmetricQuantFlag weightData hr hc hi
  cases asymmetricQuantFlag with
  | true =>
    obtain ⟨hmin, hmax⟩ := findMinMax_le hmem
    have h₀ : alphaData.getD (2 * r) 0 = (findMinMax block).1 := hget rfl (Nat.zero_lt_two)
    have h₁ : alphaData.getD (2 * r + 1) 0 = ((findMinMax block).2 - (findMinMax block).1) /
        (threshold bits - clampMin bits true) := hget rfl (Nat.one_lt_two)
    simp only [v, quantValue, if_true, h₀, h₁]
    exact quantAsym_mem hbits hmin hmax
  | false =>
    have h₀ : alphaData.getD r 0 = findAbsMax block / threshold bits := by
      have := hget (c := 1) (i := 0) rfl Nat.one_pos
      rwa [Nat.one_mul] at this
    simp only [v, quantValue, Bool.false_eq_true, if_false, h₀]
    exact quantSym_mem hbits (abs_le_findAbsMax hmem)

end Mnn.Idst
