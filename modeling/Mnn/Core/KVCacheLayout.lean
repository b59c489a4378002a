import Mnn.Core.KVCacheManager

/-!
# The layouts of the key and value cache

* `keyOffset_le`, `valueOffset_le`, `scaleOffset_le`: an entry of a position below the maximal
  length lies in the block of its head, or of its row of channels;
* `keyAddress_le`, `valueAddress_le`, `scaleAddress_le`: it lies in the buffer;
* `RowsFit`: the condition under which a quantised value lies in its own row of channels, as the
  copies assume, `valueAddress_eq`;
* `keyStride_mono` and the like: a longer cache has longer blocks.
-/

namespace Mnn.KVCache

/-! ### Rounding -/

theorem le_roundUp (x : ℕ) {y : ℕ} (hy : 0 < y) : x ≤ roundUp x y := by
  have h := Nat.div_add_mod (x + y - 1) y
  have hlt := Nat.mod_lt (x + y - 1) hy
  rw [Nat.mul_comm] at h
  simp only [roundUp, upDiv]
  omega

theorem upDiv_mono {x x' : ℕ} (y : ℕ) (h : x ≤ x') : upDiv x y ≤ upDiv x' y :=
  Nat.div_le_div_right (by omega)

theorem roundUp_mono {x x' : ℕ} (y : ℕ) (h : x ≤ x') : roundUp x y ≤ roundUp x' y :=
  Nat.mul_le_mul_right y (upDiv_mono y h)

theorem div_lt_upDiv {x n y : ℕ} (hy : 0 < y) (h : x < n) : x / y < upDiv n y :=
  (Nat.div_lt_iff_lt_mul hy).2 (h.trans_le (le_roundUp n hy))

/-- The least multiple above. -/
theorem roundUp_le_of_dvd {x y m : ℕ} (hy : 0 < y) (hm : y ∣ m) (h : x ≤ m) : roundUp x y ≤ m := by
  obtain ⟨k, rfl⟩ := hm
  have hdiv : upDiv x y ≤ k := by
    rw [upDiv, ← Nat.lt_succ_iff, Nat.div_lt_iff_lt_mul hy]
    have : k.succ * y = y * k + y := by rw [Nat.succ_mul, Nat.mul_comm]
    omega
  rw [roundUp, Nat.mul_comm y k]
  exact Nat.mul_le_mul_right y hdiv

theorem roundUp_eq_self {x y : ℕ} (hy : 0 < y) (h : y ∣ x) : roundUp x y = x :=
  le_antisymm (roundUp_le_of_dvd hy h le_rfl) (le_roundUp x hy)

/-- A digit below another. -/
theorem digit_lt {a A x n : ℕ} (ha : a < A) (hx : x < n) : a * n + x < A * n := by
  have := Lib.Buffer.block_le (n := n) ha
  omega

namespace Setup

variable (c : Setup) {max old h pos d : ℕ}

/-! ### An entry in its block -/

theorem keyTile_pos : 0 < c.keyTile := by
  unfold keyTile
  split
  · exact c.hP8_pos
  · exact c.hP_pos

theorem keyOffset_le (hpos : pos < max) (hd : d < c.mHeadDim) :
    c.keyOffset pos d + c.keyWidth ≤ c.keyStride max := by
  cases hint : c.mUseInt8Kernel with
  | true =>
    have h1 := digit_lt (Nat.mod_lt pos c.hP8_pos) (Nat.mod_lt d c.lP8_pos)
    have h2 := digit_lt (div_lt_upDiv c.lP8_pos hd) h1
    have h3 := digit_lt (div_lt_upDiv c.hP8_pos hpos) h2
    simp only [keyOffset, keyWidth, keyStride, keyElements, hint, if_true, Bool.true_or, mul_one]
    exact h3
  | false =>
    cases hquant : c.mQuantKey with
    | true =>
      have h1 := digit_lt hd (Nat.mod_lt pos c.hP_pos)
      have h2 := digit_lt (div_lt_upDiv c.hP_pos hpos) h1
      have h3 : c.mHeadDim * c.hP ≤ upDiv c.mHeadDim c.lP * (c.hP * c.lP) := by
        calc c.mHeadDim * c.hP ≤ upDiv c.mHeadDim c.lP * c.lP * c.hP :=
              Nat.mul_le_mul_right _ (le_roundUp _ c.lP_pos)
          _ = upDiv c.mHeadDim c.lP * (c.hP * c.lP) := by ring
      have h4 := Nat.mul_le_mul_left (upDiv max c.hP) h3
      simp only [keyOffset, keyWidth, keyStride, keyElements, hint, hquant, if_true, Bool.or_true,
        mul_one, Bool.false_eq_true, if_false]
      omega
    | false =>
      have h1 := digit_lt (Nat.mod_lt pos c.hP_pos) (Nat.mod_lt d c.lP_pos)
      have h2 := digit_lt (div_lt_upDiv c.lP_pos hd) h1
      have h3 := digit_lt (div_lt_upDiv c.hP_pos hpos) h2
      simp only [keyOffset, keyWidth, keyStride, keyElements, hint, hquant, Bool.or_self,
        Bool.false_eq_true, if_false]
      exact Lib.Buffer.block_le h3

/-- The place of a value in its row of channels. -/
def valueOffset (pos d : ℕ) : ℕ :=
  if c.mQuantValue then pos * c.hP + d % c.hP
  else (pos / c.lP * (c.hP * c.lP) + (d % c.hP * c.lP + pos % c.lP)) * c.mBytes

/-- The bytes of a row of channels of quantised values, as they are pushed. -/
theorem mul_hP_le_valueStride (max : ℕ) (hquant : c.mQuantValue = true) :
    max * c.hP ≤ c.valueStride max := by
  calc max * c.hP ≤ upDiv max c.lP * c.lP * c.hP := Nat.mul_le_mul_right _ (le_roundUp _ c.lP_pos)
    _ = upDiv max c.lP * (c.hP * c.lP) := by ring
    _ = c.valueStride max := by simp [valueStride, valueElements, valueWidth, hquant]

theorem valueOffset_le (d : ℕ) (hpos : pos < max) :
    c.valueOffset pos d + c.valueWidth ≤ c.valueStride max := by
  have hmod := Nat.mod_lt d c.hP_pos
  cases hquant : c.mQuantValue with
  | true =>
    have h1 := digit_lt hpos hmod
    have h2 := c.mul_hP_le_valueStride max hquant
    simp only [valueOffset, valueWidth, hquant, if_true]
    omega
  | false =>
    have h1 := digit_lt hmod (Nat.mod_lt pos c.lP_pos)
    have h2 := digit_lt (div_lt_upDiv c.lP_pos hpos) h1
    simp only [valueOffset, valueWidth, valueStride, valueElements, hquant, Bool.false_eq_true,
      if_false]
    exact Lib.Buffer.block_le h2

theorem scaleOffset_le (hpos : pos < max) :
    pos * c.scaleWidth + c.scaleWidth ≤ c.scaleStride max :=
  Lib.Buffer.block_le (hpos.trans_le (le_roundUp max c.keyTile_pos))

theorem scaleAddress_eq (max h pos : ℕ) :
    c.scaleAddress max h pos = h * c.scaleStride max + pos * c.scaleWidth := by
  rw [scaleAddress, Nat.mul_comm (pos / c.keyTile), Nat.div_add_mod]

/-- Quantised values are pushed `max * hP` bytes a row, and copied `roundUp max lP * hP` bytes a
row: these are the same where `lP` divides `max`, or there is one row only. -/
def RowsFit (max : ℕ) : Prop :=
  c.mQuantValue = true → upDiv c.mHeadDim c.hP ≤ 1 ∨ c.lP ∣ max

instance (max : ℕ) : Decidable (c.RowsFit max) := inferInstanceAs (Decidable (_ → _))

/-- The row of channels of a value. -/
theorem row_lt (hh : h < c.mKvNumHead) (hd : d < c.mHeadDim) :
    h * upDiv c.mHeadDim c.hP + d / c.hP < c.valueRows :=
  digit_lt hh (div_lt_upDiv c.hP_pos hd)

theorem valueAddress_eq (hfit : c.RowsFit max) (hd : d < c.mHeadDim) (h pos : ℕ) :
    c.valueAddress max h pos d =
      (h * upDiv c.mHeadDim c.hP + d / c.hP) * c.valueStride max + c.valueOffset pos d := by
  cases hquant : c.mQuantValue with
  | false => simp only [valueAddress, valueOffset, hquant, Bool.false_eq_true, if_false]
  | true =>
    have hrow : d / c.hP * (max * c.hP) = d / c.hP * c.valueStride max := by
      rcases hfit hquant with hone | hdvd
      · have hzero : d / c.hP = 0 :=
          Nat.lt_one_iff.1 ((div_lt_upDiv c.hP_pos hd).trans_le hone)
        rw [hzero, Nat.zero_mul, Nat.zero_mul]
      · have hround : upDiv max c.lP * c.lP = max := roundUp_eq_self c.lP_pos hdvd
        have : c.valueStride max = upDiv max c.lP * c.lP * c.hP := by
          simp only [valueStride, valueElements, valueWidth, hquant, if_true]
          ring
        rw [this, hround]
    simp only [valueAddress, valueOffset, hquant, if_true]
    rw [hrow]
    ring

/-! ### An entry in its buffer -/

theorem keyAddress_le (hh : h < c.mKvNumHead) (hpos : pos < max) (hd : d < c.mHeadDim) :
    c.keyAddress max h pos d + c.keyWidth ≤ c.keySize max := by
  have h1 := Lib.Buffer.block_le (n := c.keyStride max) hh
  have h2 := c.keyOffset_le hpos hd
  simp only [keyAddress, keySize]
  omega

theorem valueAddress_le (hh : h < c.mKvNumHead) (hpos : pos < max) (hd : d < c.mHeadDim) :
    c.valueAddress max h pos d + c.valueWidth ≤ c.valueSize max := by
  cases hquant : c.mQuantValue with
  | false =>
    have hfit : c.RowsFit max := fun htrue => by simp [hquant] at htrue
    have h1 := Lib.Buffer.block_le (n := c.valueStride max) (c.row_lt hh hd)
    have h2 := c.valueOffset_le d hpos
    rw [c.valueAddress_eq hfit hd, valueSize]
    omega
  | true =>
    have h1 := digit_lt hpos (Nat.mod_lt d c.hP_pos)
    have h2 := digit_lt (div_lt_upDiv c.hP_pos hd) h1
    have h3 := Nat.mul_le_mul_left (upDiv c.mHeadDim c.hP) (c.mul_hP_le_valueStride max hquant)
    have h4 := Lib.Buffer.block_le (n := upDiv c.mHeadDim c.hP * c.valueStride max) hh
    have h5 : c.valueSize max = c.mKvNumHead * (upDiv c.mHeadDim c.hP * c.valueStride max) := by
      rw [valueSize, valueRows, Nat.mul_assoc]
    simp only [valueAddress, valueWidth, hquant, if_true]
    omega

theorem scaleAddress_le (hh : h < c.mKvNumHead) (hpos : pos < max) :
    c.scaleAddress max h pos + c.scaleWidth ≤ c.scaleSize max := by
  have h1 := Lib.Buffer.block_le (n := c.scaleStride max) hh
  have h2 := c.scaleOffset_le hpos
  rw [scaleAddress_eq, scaleSize]
  omega

/-! ### A longer cache -/

theorem keyStride_mono (h : old ≤ max) : c.keyStride old ≤ c.keyStride max := by
  unfold keyStride keyElements
  refine Nat.mul_le_mul_right _ ?_
  split
  · exact Nat.mul_le_mul_right _ (upDiv_mono _ h)
  · exact Nat.mul_le_mul_right _ (upDiv_mono _ h)

theorem valueStride_mono (h : old ≤ max) : c.valueStride old ≤ c.valueStride max :=
  Nat.mul_le_mul_right _ (Nat.mul_le_mul_right _ (upDiv_mono _ h))

theorem scaleStride_mono (h : old ≤ max) : c.scaleStride old ≤ c.scaleStride max :=
  Nat.mul_le_mul_right _ (Nat.mul_le_mul_right _ (upDiv_mono _ h))

theorem keySize_mono (h : old ≤ max) : c.keySize old ≤ c.keySize max :=
  Nat.mul_le_mul_left _ (c.keyStride_mono h)

theorem valueSize_mono (h : old ≤ max) : c.valueSize old ≤ c.valueSize max :=
  Nat.mul_le_mul_left _ (c.valueStride_mono h)

end Setup

end Mnn.KVCache
