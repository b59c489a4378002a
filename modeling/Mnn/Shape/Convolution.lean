import Mathlib.Data.Rat.Floor
import Mnn.Lib.Loops
import Mnn.Lib.Rounding

/-!
# `Im2ColSizeComputer`

The size of the matrix of `Im2Col`, by the size computer (`source/shape/ShapeConvolution.cpp`) and
again by the geometry computer (`source/geometry/GeometryConv2D.cpp`).

* `Convolution2DCommon`, `Direction`: the parameters, and those of one direction;
* `ConvolutionSizeComputer.outputSize`, `Im2ColSizeComputer.onComputeSize`: the size that is set;
* `GeometryIm2Col.outputSize`, `GeometryIm2Col.size`: the size that is used;
* `Agrees`: what the parameters of a direction have to satisfy;
* `size_eq_iff`: **the sizes are the same exactly if both directions agree**.
-/

namespace Mnn.Shape

/-! ### Parameters -/

inductive PadMode
  | caffe
  | valid
  | same
  deriving DecidableEq, Repr

/-- The parameters of one direction; `pads` are the entries before and behind the image. -/
structure Direction where
  kernel : ℕ := 1
  stride : ℤ := 1
  dilate : ℤ := 1
  pad : ℤ := 0
  pads : Option (ℤ × ℤ) := none

structure Convolution2DCommon where
  padX : ℤ := 0
  padY : ℤ := 0
  kernelX : ℕ := 1
  kernelY : ℕ := 1
  strideX : ℤ := 1
  strideY : ℤ := 1
  dilateX : ℤ := 1
  dilateY : ℤ := 1
  padMode : PadMode := .caffe
  /-- Above, to the left, below, to the right. -/
  pads : Option (Fin 4 → ℤ) := none

namespace Convolution2DCommon

variable (common : Convolution2DCommon)

/-- The parameters of the rows. -/
def x : Direction where
  kernel := common.kernelX
  stride := common.strideX
  dilate := common.dilateX
  pad := common.padX
  pads := common.pads.map fun pads => (pads 1, pads 3)

/-- The parameters of the columns. -/
def y : Direction where
  kernel := common.kernelY
  stride := common.strideY
  dilate := common.dilateY
  pad := common.padY
  pads := common.pads.map fun pads => (pads 0, pads 2)

end Convolution2DCommon

/-- The extents of an image. -/
structure Image where
  batch : ℕ
  channel : ℕ
  height : ℕ
  width : ℕ

/-- The size of the matrix, in places of the kernel and in extents. -/
@[ext]
structure MatrixSize where
  oh : ℤ
  ow : ℤ
  rows : ℤ
  columns : ℤ
  deriving DecidableEq

/-! ### The size computer -/

/-- The conversion to `float`. -/
def toFloat (x : ℚ) : ℚ := Lib.nearest 24 x

namespace ConvolutionSizeComputer

/-- The extent of the dilated kernel. -/
def kernelSize (d : Direction) : ℤ := d.dilate * ((d.kernel : ℤ) - 1) + 1

/-- `ceil((float)size / (float)stride)`. -/
def ceilDiv (size stride : ℤ) : ℤ := ⌈toFloat (toFloat size / toFloat stride)⌉

/-- `output_width` and `output_height`. -/
def outputSize (padMode : PadMode) (d : Direction) (size : ℕ) : ℤ :=
  match padMode with
  | .same => ceilDiv size d.stride
  | .valid => ceilDiv (size - kernelSize d + 1) d.stride
  | .caffe =>
    match d.pads with
    | some (before, behind) =>
      let inputSize := size + before + behind
      if inputSize < kernelSize d then 0 else (inputSize - kernelSize d).tdiv d.stride + 1
    | none => (size + d.pad * 2 - kernelSize d).tdiv d.stride + 1

end ConvolutionSizeComputer

/-- `[n, ic, ih, iw] -> [ic*kh*kw, n*oh*ow]`. -/
def Im2ColSizeComputer.onComputeSize (common : Convolution2DCommon) (input : Image) : MatrixSize :=
  let oh := ConvolutionSizeComputer.outputSize common.padMode common.y input.height
  let ow := ConvolutionSizeComputer.outputSize common.padMode common.x input.width
  { oh := oh
    ow := ow
    rows := input.channel * common.kernelY * common.kernelX
    columns := input.batch * oh * ow }

/-! ### The geometry computer -/

namespace GeometryIm2Col

/-- `pl` and `pt`. -/
def padBefore (d : Direction) : ℤ := (d.pads.map (·.1)).getD d.pad

/-- `pr` and `pb`. -/
def padBehind (d : Direction) : ℤ := (d.pads.map (·.2)).getD d.pad

/-- `ow` and `oh`. -/
def outputSize (d : Direction) (size : ℕ) : ℤ :=
  (size + padBefore d + padBehind d - d.kernel).tdiv d.stride + 1

/-- The size that `im2Col` is called with, and the extents that it sets. -/
def size (common : Convolution2DCommon) (input : Image) : MatrixSize :=
  let ow := outputSize common.x input.width
  let oh := outputSize common.y input.height
  { oh := oh
    ow := ow
    rows := input.channel * common.kernelX * common.kernelY
    columns := input.batch * ow * oh }

end GeometryIm2Col

/-! ### What the parameters have to satisfy -/

/-- A numerator that gives the truncated quotient when it is rounded down. -/
def towardZero (s x : ℤ) : ℤ := if 0 ≤ x then x else x + (s - 1)

/-- `x` is in the step of length `s` that `y` is in. -/
def SameStep (s x y : ℤ) : Prop := 0 ≤ y % s + (x - y) ∧ y % s + (x - y) < s

namespace Direction

/-- What is left of the padded image behind the kernel, without its dilation. -/
def reach (d : Direction) (size : ℕ) : ℤ :=
  size + GeometryIm2Col.padBefore d + GeometryIm2Col.padBehind d - d.kernel

/-- How much longer the dilated kernel is. -/
def spread (d : Direction) : ℤ := (d.dilate - 1) * ((d.kernel : ℤ) - 1)

/-- With the pads of the operator, the dilation takes no more than what the last step leaves.  The
other modes set the pads aside, which must not reach into another step. -/
def Agrees (padMode : PadMode) (d : Direction) (size : ℕ) : Prop :=
  match padMode with
  | .same => SameStep d.stride (towardZero d.stride (d.reach size)) (size - 1)
  | .valid => SameStep d.stride (towardZero d.stride (d.reach size))
      (size - ConvolutionSizeComputer.kernelSize d)
  | .caffe =>
    if d.spread ≤ d.reach size then d.spread ≤ d.reach size % d.stride
    -- the kernel does not fit
    else if d.pads.isSome then -2 * d.stride < d.reach size ∧ d.reach size ≤ -d.stride
    else if 0 ≤ d.reach size then
      d.reach size < d.stride ∧ d.spread - d.reach size < d.stride
    else d.spread ≤ (d.spread - d.reach size) % d.stride

instance (padMode : PadMode) (d : Direction) (size : ℕ) : Decidable (d.Agrees padMode size) :=
  match padMode with
  | .same => inferInstanceAs (Decidable (_ ∧ _))
  | .valid => inferInstanceAs (Decidable (_ ∧ _))
  | .caffe => inferInstanceAs (Decidable (
      if d.spread ≤ d.reach size then d.spread ≤ d.reach size % d.stride
      else if d.pads.isSome then -2 * d.stride < d.reach size ∧ d.reach size ≤ -d.stride
      else if 0 ≤ d.reach size then d.reach size < d.stride ∧ d.spread - d.reach size < d.stride
      else d.spread ≤ (d.spread - d.reach size) % d.stride))

/-- What the sources of the parameters promise. -/
structure Valid (d : Direction) : Prop where
  kernel : 1 ≤ d.kernel
  stride : 0 < d.stride
  dilate : 1 ≤ d.dilate

/-- The numbers that are divided as floats are floats. -/
def Exact (padMode : PadMode) (d : Direction) (size : ℕ) : Prop :=
  match padMode with
  | .same => (size : ℤ) < 2 ^ 24 ∧ d.stride < 2 ^ 24
  | .valid => |(size - ConvolutionSizeComputer.kernelSize d + 1 : ℤ)| < 2 ^ 24 ∧
      d.stride < 2 ^ 24
  | .caffe => True

end Direction

/-! ### Steps -/

section Steps

variable {s x y e : ℤ} (hs : 0 < s)

include hs

theorem ediv_eq_iff_sameStep : x / s = y / s ↔ SameStep s x y := by
  rw [Int.ediv_eq_iff_of_pos hs, SameStep, Int.emod_def, mul_comm s]
  constructor <;> rintro ⟨hle, hlt⟩ <;> constructor <;> omega

theorem tdiv_eq_towardZero : x.tdiv s = towardZero s x / s := by
  rw [towardZero]
  split_ifs with hx
  · exact Int.tdiv_eq_ediv_of_nonneg hx
  · obtain ⟨hle, hlt⟩ := (Int.ediv_eq_iff_of_pos hs).1 (rfl : -x / s = _)
    have hneg : x.tdiv s = -(-x / s) := by
      rw [← Int.tdiv_eq_ediv_of_nonneg (by omega), Int.neg_tdiv, neg_neg]
    rw [hneg, eq_comm, Int.ediv_eq_iff_of_pos hs, neg_mul]
    constructor <;> omega

theorem tdiv_eq_iff : x.tdiv s = y / s ↔ SameStep s (towardZero s x) y := by
  rw [tdiv_eq_towardZero hs, ediv_eq_iff_sameStep hs]

/-- Taking away what the last step leaves. -/
theorem ediv_eq_sub_iff (he : 0 ≤ e) : x / s = (x - e) / s ↔ e ≤ x % s := by
  rw [eq_comm, Int.ediv_eq_iff_of_pos hs, Int.emod_def, mul_comm s]
  obtain ⟨-, hlt⟩ := (Int.ediv_eq_iff_of_pos hs).1 (rfl : x / s = _)
  constructor
  · rintro ⟨hle, -⟩
    omega
  · intro hle
    constructor <;> omega

theorem tdiv_eq_neg_one_iff : x.tdiv s = -1 ↔ -2 * s < x ∧ x ≤ -s := by
  rw [tdiv_eq_towardZero hs, Int.ediv_eq_iff_of_pos hs, towardZero]
  split_ifs
  · constructor <;> rintro ⟨hle, hlt⟩ <;> omega
  · constructor <;> rintro ⟨hle, hlt⟩ <;> constructor <;> omega

/-- One numerator is negative and the other is not. -/
theorem tdiv_eq_tdiv_iff (hx : 0 ≤ x) (hy : y < 0) : x.tdiv s = y.tdiv s ↔ x < s ∧ -y < s := by
  rw [tdiv_eq_towardZero hs, tdiv_eq_towardZero hs, towardZero, towardZero, if_pos hx,
    if_neg (not_le.2 hy)]
  obtain ⟨hxle, hxlt⟩ := (Int.ediv_eq_iff_of_pos hs).1 (rfl : x / s = _)
  have hquotient : 0 ≤ x / s := Int.ediv_nonneg hx hs.le
  constructor
  · intro h
    obtain ⟨hyle, hylt⟩ := (Int.ediv_eq_iff_of_pos hs).1 h.symm
    have hzero : x / s = 0 := by
      by_contra hne
      have : 1 * s ≤ x / s * s := mul_le_mul_of_nonneg_right (by omega) hs.le
      omega
    rw [hzero] at hxlt hyle
    constructor <;> omega
  · rintro ⟨hlt, hlt'⟩
    rw [Int.ediv_eq_zero_of_lt hx hlt, eq_comm, Int.ediv_eq_iff_of_pos hs]
    constructor <;> omega

/-- The quotient of floats that are integers is rounded up as the quotient of the integers is. -/
theorem ceilDiv_eq (hs' : s < 2 ^ 24) (hx : |x| < 2 ^ 24) :
    ConvolutionSizeComputer.ceilDiv x s = (x - 1) / s + 1 := by
  have hs'' : |s| < 2 ^ 24 := by rwa [abs_of_pos hs]
  rw [ConvolutionSizeComputer.ceilDiv, toFloat, toFloat, toFloat, Lib.nearest_intCast hx,
    Lib.nearest_intCast hs'', Lib.ceil_nearest_div hx hs]
  obtain ⟨n, rfl⟩ := Int.eq_ofNat_of_zero_le hs.le
  obtain ⟨hle, hlt⟩ := (Int.ediv_eq_iff_of_pos hs).1 (rfl : -x / (n : ℤ) = _)
  rw [Int.cast_natCast, Rat.ceil_intCast_div_natCast, eq_comm, ← eq_sub_iff_add_eq,
    Int.ediv_eq_iff_of_pos hs, sub_mul, neg_mul]
  constructor <;> omega

end Steps

namespace Direction

variable {d : Direction} {size : ℕ}

theorem kernelSize_eq : ConvolutionSizeComputer.kernelSize d = d.kernel + d.spread := by
  rw [ConvolutionSizeComputer.kernelSize, spread]
  ring

/-- The size with the pads of the operator. -/
theorem caffe_outputSize : ConvolutionSizeComputer.outputSize .caffe d size =
    if d.pads.isSome ∧ d.reach size < d.spread then 0
    else (d.reach size - d.spread).tdiv d.stride + 1 := by
  cases hpads : d.pads with
  | none =>
    have hreach : d.reach size = size + d.pad + d.pad - d.kernel := by
      rw [reach, GeometryIm2Col.padBefore, GeometryIm2Col.padBehind, hpads]
      rfl
    rw [if_neg fun h => Bool.false_ne_true h.1]
    simp only [ConvolutionSizeComputer.outputSize, hpads]
    congr 2
    rw [kernelSize_eq]
    omega
  | some pads =>
    have hreach : d.reach size = size + pads.1 + pads.2 - d.kernel := by
      rw [reach, GeometryIm2Col.padBefore, GeometryIm2Col.padBehind, hpads]
      rfl
    simp only [ConvolutionSizeComputer.outputSize, hpads, Option.isSome_some, true_and]
    refine if_congr ?_ rfl (congrArg (Int.tdiv · d.stride + 1) ?_)
    · rw [kernelSize_eq]
      omega
    · rw [kernelSize_eq]
      omega

/-- The sizes with the pads of the operator. -/
theorem caffe_eq_iff (hd : d.Valid) :
    GeometryIm2Col.outputSize d size = ConvolutionSizeComputer.outputSize .caffe d size ↔
      d.Agrees .caffe size := by
  have hs : 0 < d.stride := hd.stride
  have hspread : 0 ≤ d.spread := mul_nonneg (sub_nonneg.2 hd.dilate)
    (sub_nonneg.2 (by exact_mod_cast hd.kernel))
  have hgeometry : GeometryIm2Col.outputSize d size = (d.reach size).tdiv d.stride + 1 := rfl
  rw [hgeometry, caffe_outputSize, Agrees]
  generalize d.reach size = reach
  generalize d.spread = spread at hspread ⊢
  generalize d.stride = stride at hs ⊢
  by_cases hfits : spread ≤ reach
  · rw [if_neg fun h => (not_lt.2 hfits) h.2, if_pos hfits, add_left_inj,
      Int.tdiv_eq_ediv_of_nonneg (hspread.trans hfits),
      Int.tdiv_eq_ediv_of_nonneg (sub_nonneg.2 hfits), ediv_eq_sub_iff hs hspread]
  · have hlt : reach < spread := not_le.1 hfits
    rw [if_neg hfits]
    by_cases hpads : d.pads.isSome
    · rw [if_pos ⟨hpads, hlt⟩, if_pos hpads, ← tdiv_eq_neg_one_iff hs]
      omega
    · rw [if_neg fun h => hpads h.1, if_neg hpads, add_left_inj]
      by_cases hreach : 0 ≤ reach
      · rw [if_pos hreach, tdiv_eq_tdiv_iff hs hreach (by omega), neg_sub]
      · rw [if_neg hreach, ← neg_inj, ← Int.neg_tdiv, ← Int.neg_tdiv, neg_sub, eq_comm,
          Int.tdiv_eq_ediv_of_nonneg (by omega), Int.tdiv_eq_ediv_of_nonneg (by omega),
          ← ediv_eq_sub_iff hs hspread, sub_sub_cancel_left]

/-- **The size in one direction.** -/
theorem outputSize_eq_iff {padMode : PadMode} (hd : d.Valid) (hexact : d.Exact padMode size) :
    GeometryIm2Col.outputSize d size = ConvolutionSizeComputer.outputSize padMode d size ↔
      d.Agrees padMode size := by
  have hs : 0 < d.stride := hd.stride
  have hgeometry : GeometryIm2Col.outputSize d size = (d.reach size).tdiv d.stride + 1 := rfl
  cases padMode with
  | caffe => exact caffe_eq_iff hd
  | same =>
    rw [hgeometry, ConvolutionSizeComputer.outputSize,
      ceilDiv_eq hs hexact.2 (by rw [Nat.abs_cast]; exact hexact.1), add_left_inj, tdiv_eq_iff hs]
    rfl
  | valid =>
    rw [hgeometry, ConvolutionSizeComputer.outputSize, ceilDiv_eq hs hexact.2 hexact.1,
      add_left_inj, add_sub_cancel_right, tdiv_eq_iff hs]
    rfl

end Direction

/-- **The size of the matrix.** -/
theorem size_eq_iff {common : Convolution2DCommon} {input : Image} (hx : common.x.Valid)
    (hy : common.y.Valid) (hxexact : common.x.Exact common.padMode input.width)
    (hyexact : common.y.Exact common.padMode input.height) :
    GeometryIm2Col.size common input = Im2ColSizeComputer.onComputeSize common input ↔
      common.y.Agrees common.padMode input.height ∧ common.x.Agrees common.padMode input.width := by
  rw [← Direction.outputSize_eq_iff hy hyexact, ← Direction.outputSize_eq_iff hx hxexact]
  constructor
  · intro h
    exact ⟨congrArg MatrixSize.oh h, congrArg MatrixSize.ow h⟩
  · rintro ⟨hoh, how⟩
    refine MatrixSize.ext hoh how ?_ ?_
    · exact mul_right_comm _ _ _
    · show _ * GeometryIm2Col.outputSize common.x input.width *
        GeometryIm2Col.outputSize common.y input.height = _
      rw [hoh, how]
      exact mul_right_comm _ _ _

end Mnn.Shape
