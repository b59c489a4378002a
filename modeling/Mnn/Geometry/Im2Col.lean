import Mnn.Geometry.Region
import Mnn.Shape.Convolution

/-!
# `GeometryConvUtils::im2Col`

The patches of an image as the columns of a matrix (`source/geometry/GeometryConvUtils.cpp`).

* `Clip`, `clip`: the places of the output from which one place of the kernel reads the image;
* `Im2Col`, `Im2Col.regions`, `Im2Col.content`: the regions, and what the matrix holds;
* `clip_spec`, `skipped_iff`: what is clipped;
* `raster_inside`, `raster_padded`, `raster_skipped`: the elements of the matrix;
* `exact_iff`: the matrix holds the patches with their pads exactly if every pad is put in;
* `im2Col_iff`: **and both computers find the same size**.
-/

namespace Mnn.Recompute

open Shape

/-! ### Regions -/

/-- The places of the output, in one direction, from which one place of the kernel reads the image:
from `startD` to `endD`. -/
structure Clip where
  startS : ℤ
  startD : ℤ
  endD : ℤ
  /-- `upPad / ow` or `leftPad`. -/
  padBefore : ℤ
  /-- `belowPad / ow` or `rightPad`. -/
  padBehind : ℤ
  deriving DecidableEq

/-- The first place of the output reads place `start` of the image. -/
def clip (out size stride start : ℤ) : Clip :=
  let startD := if start < 0 then (-start + stride - 1).tdiv stride else 0
  let endS := (out - 1) * stride + start
  let endD := if endS ≥ size then out - 1 - (endS - size + stride).tdiv stride else out - 1
  { startS := if start < 0 then start + startD * stride else start
    startD := startD
    endD := endD
    padBefore := if start < 0 then startD else 0
    padBehind := if endS ≥ size then out - endD - 1 else 0 }

/-- Nothing of the image is read. -/
def Clip.skipped (c : Clip) (size : ℤ) : Prop :=
  c.startD > c.endD ∨ c.endD < 0 ∨ c.startS ≥ size

instance (c : Clip) (size : ℤ) : Decidable (c.skipped size) := inferInstanceAs (Decidable (_ ∨ _))

inductive Operand
  | input
  | padVal
  | tempTensor
  deriving DecidableEq, Repr

/-- `ADD_PAD_VALUE`. -/
def addPadValue (ic dstOffsetKx dstStrideChannel pad offset num stride : ℤ) :
    List (Region Operand) :=
  if pad > 0 then
    [{ src := { offset := 0, stride := ![0, 0, 0] }
       dst := { offset := dstOffsetKx + offset, stride := ![dstStrideChannel, stride, 1] }
       size := ![ic, num, pad]
       origin := .padVal }]
  else []

/-- The arguments of `im2Col`; the pads are those to the left and above. -/
structure Im2Col where
  ic : ℕ
  kh : ℕ
  kw : ℕ
  batch : ℕ
  oh : ℤ
  ow : ℤ
  ih : ℕ
  iw : ℕ
  sh : ℤ
  sw : ℤ
  dh : ℤ
  dw : ℤ
  pads : ℤ × ℤ
  srcKernelOffset : ℤ := 0
  padVal : Bool

namespace Im2Col

variable (p : Im2Col)

def clipY (ky : ℕ) : Clip := clip p.oh p.ih p.sh (ky * p.dh - p.pads.2)

def clipX (kx : ℕ) : Clip := clip p.ow p.iw p.sw (kx * p.dw - p.pads.1)

def dstStrideChannel : ℤ := p.oh * p.ow * p.kh * p.kw

def dstOffsetKx (ky kx : ℕ) : ℤ :=
  ky * p.kw * p.ow * p.oh + (p.clipY ky).startD * p.ow + kx * p.ow * p.oh + (p.clipX kx).startD

def ohExcludePad (ky : ℕ) : ℤ := (p.clipY ky).endD - (p.clipY ky).startD + 1

def owExcludePad (kx : ℕ) : ℤ := (p.clipX kx).endD - (p.clipX kx).startD + 1

/-- The four regions around the image. -/
def padRegions (ky kx : ℕ) : List (Region Operand) :=
  let startDx := (p.clipX kx).startD
  let upPad := (p.clipY ky).padBefore * p.ow
  let belowPad := (p.clipY ky).padBehind * p.ow
  let leftPad := (p.clipX kx).padBefore
  let rightPad := (p.clipX kx).padBehind
  let add := addPadValue p.ic (p.dstOffsetKx ky kx) p.dstStrideChannel
  add upPad (-(startDx + upPad)) 1 0 ++
    add belowPad (p.ohExcludePad ky * p.ow - startDx) 1 0 ++
    add leftPad (-leftPad) (p.ohExcludePad ky) p.ow ++
    add rightPad (p.owExcludePad kx) (p.ohExcludePad ky) p.ow

/-- The region of the image. -/
def inputRegion (ky kx : ℕ) : Region Operand where
  src := { offset := (p.clipY ky).startS * p.iw + (p.clipX kx).startS +
             p.srcKernelOffset * (kx + ky * p.kw)
           stride := ![p.iw * p.ih, p.sh * p.iw, p.sw] }
  dst := { offset := p.dstOffsetKx ky kx, stride := ![p.dstStrideChannel, p.ow, 1] }
  size := ![p.ic * p.batch, p.ohExcludePad ky, p.owExcludePad kx]
  origin := .input

/-- The regions of one place of the kernel. -/
def kernelRegions (ky kx : ℕ) : List (Region Operand) :=
  (if p.padVal then p.padRegions ky kx else []) ++ [p.inputRegion ky kx]

/-- The loops over the kernel. -/
def regions : List (Region Operand) :=
  (List.range p.kh).flatMap fun ky =>
    if (p.clipY ky).skipped p.ih then []
    else (List.range p.kw).flatMap fun kx =>
      if (p.clipX kx).skipped p.iw then [] else p.kernelRegions ky kx

/-- Transpose: `batch, ic, kh, kw, oh, ow -> ic, kh, kw, batch, oh, ow`. -/
def transposeRegion : Region Operand where
  src := { stride := ![p.oh * p.ow, p.oh * p.ow * (p.ic * p.kh * p.kw), 1] }
  dst := { stride := ![p.oh * p.ow * p.batch, p.oh * p.ow, 1] }
  size := ![p.ic * p.kh * p.kw, p.batch, p.oh * p.ow]
  origin := .tempTensor

/-- What the matrix holds. -/
def content {V : Type*} [Zero V] (value : Operand → ℤ → V) : ℤ → V :=
  if p.batch > 1 then
    raster [p.transposeRegion] fun
      | .tempTensor => raster p.regions value
      | t => value t
  else raster p.regions value

end Im2Col

/-! ### Clipping -/

/-- The place is among those that are not clipped. -/
def Clip.Within (c : Clip) (o : ℤ) : Prop := c.startD ≤ o ∧ o ≤ c.endD

/-- What is clipped, if the first place of the output reads place `start`. -/
structure Clips (c : Clip) (out size stride start : ℤ) : Prop where
  startS : c.startS = c.startD * stride + start
  startD : 0 ≤ c.startD
  endD : c.endD < out
  padBefore : c.padBefore = c.startD
  padBehind : c.padBehind = out - 1 - c.endD
  within : ∀ o, 0 ≤ o → o < out →
    (c.Within o ↔ 0 ≤ o * stride + start ∧ o * stride + start < size)

section Clip

variable {out size stride start : ℤ} (hstride : 0 < stride)

include hstride

theorem startD_nonneg : 0 ≤ (clip out size stride start).startD := by
  dsimp only [clip]
  split_ifs with hstart
  · rw [Int.tdiv_eq_ediv_of_nonneg (by omega)]
    exact Int.ediv_nonneg (by omega) hstride.le
  · exact le_rfl

theorem startD_le_iff {o : ℤ} (ho : 0 ≤ o) :
    (clip out size stride start).startD ≤ o ↔ 0 ≤ o * stride + start := by
  dsimp only [clip]
  split_ifs with hstart
  · rw [Int.tdiv_eq_ediv_of_nonneg (by omega), ← Int.lt_add_one_iff,
      Int.ediv_lt_iff_lt_mul hstride, add_mul]
    constructor <;> intro h <;> omega
  · have := mul_nonneg ho hstride.le
    exact iff_of_true ho (by omega)

theorem endD_lt : (clip out size stride start).endD < out := by
  dsimp only [clip]
  split_ifs with hend
  · have : 0 ≤ ((out - 1) * stride + start - size + stride).tdiv stride := by
      rw [Int.tdiv_eq_ediv_of_nonneg (by omega)]
      exact Int.ediv_nonneg (by omega) hstride.le
    omega
  · omega

theorem le_endD_iff {o : ℤ} (ho : o < out) :
    o ≤ (clip out size stride start).endD ↔ o * stride + start < size := by
  dsimp only [clip]
  split_ifs with hend
  · have hstep : o ≤ out - 1 - ((out - 1) * stride + start - size + stride).tdiv stride ↔
        ((out - 1) * stride + start - size + stride) / stride < out - o := by
      rw [Int.tdiv_eq_ediv_of_nonneg (by omega)]
      constructor <;> intro h <;> omega
    rw [hstep, Int.ediv_lt_iff_lt_mul hstride, sub_mul, sub_mul]
    constructor <;> intro h <;> omega
  · have := mul_le_mul_of_nonneg_right (Int.le_sub_one_of_lt ho) hstride.le
    exact iff_of_true (by omega) (by omega)

/-- **What is clipped.** -/
theorem clip_spec : Clips (clip out size stride start) out size stride start where
  startS := by
    dsimp only [clip]
    split_ifs <;> ring
  startD := startD_nonneg hstride
  endD := endD_lt hstride
  padBefore := by
    dsimp only [clip]
    split_ifs <;> rfl
  padBehind := by
    dsimp only [clip]
    split_ifs <;> ring
  within o ho ho' := by rw [Clip.Within, startD_le_iff hstride ho, le_endD_iff hstride ho']

theorem skipped_iff : (clip out size stride start).skipped size ↔
    ∀ o, 0 ≤ o → o < out → ¬ (0 ≤ o * stride + start ∧ o * stride + start < size) := by
  have hspec : Clips (clip out size stride start) out size stride start := clip_spec hstride
  generalize clip out size stride start = c at hspec ⊢
  constructor
  · intro hskipped o ho ho' hin
    obtain ⟨hle, hle'⟩ := (hspec.within o ho ho').2 hin
    have hnonneg := hspec.startD
    have hstartS := hspec.startS
    have hmul := mul_le_mul_of_nonneg_right hle hstride.le
    rcases hskipped with h | h | h <;> omega
  · intro hnone
    by_contra hnot
    simp only [Clip.skipped, not_or, not_lt, not_le] at hnot
    obtain ⟨hle, -, -⟩ := hnot
    have hlt := hspec.endD
    have hin := (hspec.within c.startD hspec.startD (by omega)).1 ⟨le_rfl, by omega⟩
    exact hnone c.startD hspec.startD (by omega) hin

end Clip

/-! ### Copies -/

theorem addPadValue_copies {ic dstOffsetKx dstStrideChannel pad offset num stride s o : ℤ} :
    (∃ reg ∈ addPadValue ic dstOffsetKx dstStrideChannel pad offset num stride,
      reg.Copies s o) ↔
    s = 0 ∧ ∃ c y x, (0 ≤ c ∧ c < ic) ∧ (0 ≤ y ∧ y < num) ∧ (0 ≤ x ∧ x < pad) ∧
      o = c * dstStrideChannel + (dstOffsetKx + offset + (y * stride + x)) := by
  rw [addPadValue]
  split_ifs with hpad
  · simp only [List.mem_singleton, exists_eq_left, Region.Copies, exists_box, View.address,
      Matrix.cons_val]
    constructor
    · rintro ⟨c, y, x, hc, hy, hx, rfl, rfl⟩
      exact ⟨by ring, c, y, x, hc, hy, hx, by ring⟩
    · rintro ⟨rfl, c, y, x, hc, hy, hx, rfl⟩
      exact ⟨c, y, x, hc, hy, hx, by ring, by ring⟩
  · refine iff_of_false (fun ⟨_, hmem, _⟩ => absurd hmem List.not_mem_nil) ?_
    rintro ⟨-, c, y, x, -, -, ⟨hx, hlt⟩, -⟩
    exact hpad (hx.trans_lt hlt)

/-- Places of whole rows. -/
theorem exists_row {n w : ℤ} (hw : 0 < w) {P : ℤ → Prop} : (∃ x, (0 ≤ x ∧ x < n * w) ∧ P x) ↔
    ∃ y x, (0 ≤ y ∧ y < n) ∧ (0 ≤ x ∧ x < w) ∧ P (y * w + x) := by
  constructor
  · rintro ⟨x, ⟨hx, hlt⟩, hP⟩
    refine ⟨x / w, x % w, ⟨Int.ediv_nonneg hx hw.le, (Int.ediv_lt_iff_lt_mul hw).2 hlt⟩,
      ⟨Int.emod_nonneg _ hw.ne', Int.emod_lt_of_pos _ hw⟩, ?_⟩
    rwa [mul_comm, Int.mul_ediv_add_emod]
  · rintro ⟨y, x, ⟨hy, hy'⟩, ⟨hx, hx'⟩, hP⟩
    have := mul_nonneg hy hw.le
    have := mul_le_mul_of_nonneg_right (Int.le_sub_one_of_lt hy') hw.le
    rw [sub_one_mul] at this
    exact ⟨y * w + x, ⟨by omega, by omega⟩, hP⟩

namespace Im2Col

variable {p : Im2Col}

/-- The row of the image that output row `oy` reads at row `ky` of the kernel. -/
def row (p : Im2Col) (ky : ℕ) (oy : ℤ) : ℤ := oy * p.sh + ky * p.dh - p.pads.2

def column (p : Im2Col) (kx : ℕ) (ox : ℤ) : ℤ := ox * p.sw + kx * p.dw - p.pads.1

/-- The place of the kernel reads the image from this place of the output. -/
def InImage (p : Im2Col) (ky kx : ℕ) (oy ox : ℤ) : Prop :=
  (0 ≤ p.row ky oy ∧ p.row ky oy < p.ih) ∧ 0 ≤ p.column kx ox ∧ p.column kx ox < p.iw

/-- A place of the output. -/
def InOutput (p : Im2Col) (oy ox : ℤ) : Prop := (0 ≤ oy ∧ oy < p.oh) ∧ 0 ≤ ox ∧ ox < p.ow

/-- The place of the kernel reads the image from some place of the output. -/
def Meets (p : Im2Col) (ky kx : ℕ) : Prop :=
  ∃ oy ox, p.InOutput oy ox ∧ p.InImage ky kx oy ox

/-- The address of an element where batches are channels. -/
def place (p : Im2Col) (c ky kx : ℕ) (oy ox : ℤ) : ℤ :=
  ((c * p.kh + ky) * p.kw + kx) * (p.oh * p.ow) + (oy * p.ow + ox)

theorem InOutput.place_nonneg {oy ox : ℤ} (ho : p.InOutput oy ox) : 0 ≤ oy * p.ow + ox :=
  add_nonneg (mul_nonneg ho.1.1 (ho.2.1.trans ho.2.2.le)) ho.2.1

theorem InOutput.place_lt {oy ox : ℤ} (ho : p.InOutput oy ox) :
    oy * p.ow + ox < p.oh * p.ow := by
  have hrow := mul_le_mul_of_nonneg_right (Int.le_sub_one_of_lt ho.1.2) (ho.2.1.trans ho.2.2.le)
  have := ho.2.2
  rw [sub_one_mul] at hrow
  omega

theorem place_injective {c ky kx c' ky' kx' : ℕ} {oy ox oy' ox' : ℤ} (hky : ky < p.kh)
    (hkx : kx < p.kw) (hky' : ky' < p.kh) (hkx' : kx' < p.kw) (ho : p.InOutput oy ox)
    (ho' : p.InOutput oy' ox') (h : p.place c ky kx oy ox = p.place c' ky' kx' oy' ox') :
    c = c' ∧ ky = ky' ∧ kx = kx' ∧ oy = oy' ∧ ox = ox' := by
  obtain ⟨hkernel, hplace⟩ := digits_unique ho.place_nonneg ho.place_lt ho'.place_nonneg
    ho'.place_lt h
  obtain ⟨rfl, rfl⟩ := digits_unique ho.2.1 ho.2.2 ho'.2.1 ho'.2.2 hplace
  obtain ⟨hrow, hcol⟩ := digits_unique (Int.natCast_nonneg _) (by exact_mod_cast hkx)
    (Int.natCast_nonneg _) (by exact_mod_cast hkx') hkernel
  obtain ⟨hchannel, hrow⟩ := digits_unique (Int.natCast_nonneg _) (by exact_mod_cast hky)
    (Int.natCast_nonneg _) (by exact_mod_cast hky') hrow
  exact ⟨Nat.cast_injective hchannel, Nat.cast_injective hrow, Nat.cast_injective hcol, rfl, rfl⟩

section Regions

variable (hsh : 0 < p.sh) (hsw : 0 < p.sw)

include hsh in
theorem clipY_spec (ky : ℕ) : Clips (p.clipY ky) p.oh p.ih p.sh (ky * p.dh - p.pads.2) :=
  clip_spec hsh

include hsw in
theorem clipX_spec (kx : ℕ) : Clips (p.clipX kx) p.ow p.iw p.sw (kx * p.dw - p.pads.1) :=
  clip_spec hsw

include hsh hsw

theorem within_iff {ky kx : ℕ} {oy ox : ℤ} (ho : p.InOutput oy ox) :
    (p.clipY ky).Within oy ∧ (p.clipX kx).Within ox ↔ p.InImage ky kx oy ox := by
  rw [(clipY_spec hsh ky).within oy ho.1.1 ho.1.2, (clipX_spec hsw kx).within ox ho.2.1 ho.2.2,
    ← add_sub_assoc, ← add_sub_assoc]
  rfl

/-- The loops do not leave out a place of the kernel that reads the image. -/
theorem meets_iff {ky kx : ℕ} :
    ¬ (p.clipY ky).skipped p.ih ∧ ¬ (p.clipX kx).skipped p.iw ↔ p.Meets ky kx := by
  rw [clipY, clipX, skipped_iff hsh, skipped_iff hsw]
  simp only [not_forall, not_not, ← add_sub_assoc]
  constructor
  · rintro ⟨⟨oy, hoy, hoy', hrow⟩, ox, hox, hox', hcolumn⟩
    exact ⟨oy, ox, ⟨⟨hoy, hoy'⟩, hox, hox'⟩, hrow, hcolumn⟩
  · rintro ⟨oy, ox, ho, hrow, hcolumn⟩
    exact ⟨⟨oy, ho.1.1, ho.1.2, hrow⟩, ox, ho.2.1, ho.2.2, hcolumn⟩

/-- Where a place that is not clipped begins. -/
theorem inOutput_of_within {ky kx : ℕ} {oy ox : ℤ} (hy : (p.clipY ky).Within oy)
    (hx : (p.clipX kx).Within ox) : p.InOutput oy ox :=
  ⟨⟨(clipY_spec hsh ky).startD.trans hy.1, hy.2.trans_lt (clipY_spec hsh ky).endD⟩,
    (clipX_spec hsw kx).startD.trans hx.1, hx.2.trans_lt (clipX_spec hsw kx).endD⟩

theorem inputRegion_copies {ky kx : ℕ} {s o : ℤ} : (p.inputRegion ky kx).Copies s o ↔
    ∃ c oy ox, c < p.ic * p.batch ∧ p.InOutput oy ox ∧ p.InImage ky kx oy ox ∧
      s = c * (p.iw * p.ih) + p.row ky oy * p.iw + p.column kx ox +
        p.srcKernelOffset * (kx + ky * p.kw) ∧
      o = p.place c ky kx oy ox := by
  have hy := (clipY_spec hsh ky).startS
  have hx := (clipX_spec hsw kx).startS
  simp only [Region.Copies, inputRegion, exists_box, View.address, Matrix.cons_val, hy, hx,
    ohExcludePad, owExcludePad, dstOffsetKx, dstStrideChannel]
  constructor
  · rintro ⟨c, y, x, ⟨hc, hc'⟩, ⟨hy, hy'⟩, ⟨hx, hx'⟩, rfl, rfl⟩
    obtain ⟨c, rfl⟩ := Int.eq_ofNat_of_zero_le hc
    have hwithin : (p.clipY ky).Within ((p.clipY ky).startD + y) ∧
        (p.clipX kx).Within ((p.clipX kx).startD + x) :=
      ⟨⟨by omega, by omega⟩, by omega, by omega⟩
    have ho := inOutput_of_within hsh hsw hwithin.1 hwithin.2
    refine ⟨c, _, _, by exact_mod_cast hc', ho, (within_iff hsh hsw ho).1 hwithin, ?_, ?_⟩
    · rw [row, column]
      ring
    · rw [place]
      ring
  · rintro ⟨c, oy, ox, hc, ho, hin, rfl, rfl⟩
    obtain ⟨hy, hx⟩ := (within_iff hsh hsw ho).2 hin
    refine ⟨c, oy - (p.clipY ky).startD, ox - (p.clipX kx).startD,
      ⟨Int.natCast_nonneg c, by exact_mod_cast hc⟩, ⟨sub_nonneg.2 hy.1, ?_⟩,
      ⟨sub_nonneg.2 hx.1, ?_⟩, ?_, ?_⟩
    · have := hy.2
      omega
    · have := hx.2
      omega
    · rw [row, column]
      ring
    · rw [place]
      ring

omit hsh hsw in
/-- Whole rows around the image. -/
theorem rows_copies (ky kx : ℕ) (first n offset s o : ℤ) (hw : 0 < p.ow)
    (hoffset : p.dstOffsetKx ky kx + offset =
      (ky * p.kw + kx) * (p.oh * p.ow) + first * p.ow) :
    (∃ reg ∈ addPadValue p.ic (p.dstOffsetKx ky kx) p.dstStrideChannel (n * p.ow) offset 1 0,
      reg.Copies s o) ↔
    s = 0 ∧ ∃ c oy ox, c < p.ic ∧ (first ≤ oy ∧ oy < first + n) ∧ (0 ≤ ox ∧ ox < p.ow) ∧
      o = p.place c ky kx oy ox := by
  rw [addPadValue_copies, hoffset]
  refine and_congr_right fun _ => ?_
  constructor
  · rintro ⟨c, y, x, ⟨hc, hc'⟩, -, hx, ho⟩
    obtain ⟨c, rfl⟩ := Int.eq_ofNat_of_zero_le hc
    obtain ⟨oy, ox, hoy, hox, hsame⟩ := (exists_row hw (P := (x = ·))).1 ⟨x, hx, rfl⟩
    refine ⟨c, first + oy, ox, by exact_mod_cast hc', ⟨by omega, by omega⟩, hox, ?_⟩
    rw [ho, hsame, place, dstStrideChannel]
    ring
  · rintro ⟨c, oy, ox, hc, hoy, hox, rfl⟩
    obtain ⟨x, hx, hsame⟩ := (exists_row hw (n := n) (P := ((oy - first) * p.ow + ox = ·))).2
      ⟨oy - first, ox, ⟨by omega, by omega⟩, hox, rfl⟩
    refine ⟨c, 0, x, ⟨Int.natCast_nonneg c, by exact_mod_cast hc⟩, ⟨le_rfl, one_pos⟩, hx, ?_⟩
    rw [← hsame, place, dstStrideChannel]
    ring

omit hsh hsw in
/-- The rest of the rows of the image. -/
theorem columns_copies (ky kx : ℕ) (first n offset s o : ℤ)
    (hoffset : p.dstOffsetKx ky kx + offset =
      (ky * p.kw + kx) * (p.oh * p.ow) + (p.clipY ky).startD * p.ow + first) :
    (∃ reg ∈ addPadValue p.ic (p.dstOffsetKx ky kx) p.dstStrideChannel n offset
      (p.ohExcludePad ky) p.ow, reg.Copies s o) ↔
    s = 0 ∧ ∃ c oy ox, c < p.ic ∧ (p.clipY ky).Within oy ∧ (first ≤ ox ∧ ox < first + n) ∧
      o = p.place c ky kx oy ox := by
  rw [addPadValue_copies, hoffset, ohExcludePad]
  refine and_congr_right fun _ => ?_
  constructor
  · rintro ⟨c, y, x, ⟨hc, hc'⟩, hy, hx, rfl⟩
    obtain ⟨c, rfl⟩ := Int.eq_ofNat_of_zero_le hc
    refine ⟨c, (p.clipY ky).startD + y, first + x, by exact_mod_cast hc', ⟨by omega, by omega⟩,
      ⟨by omega, by omega⟩, ?_⟩
    rw [place, dstStrideChannel]
    ring
  · rintro ⟨c, oy, ox, hc, hoy, hox, rfl⟩
    obtain ⟨hle, hle'⟩ := hoy
    refine ⟨c, oy - (p.clipY ky).startD, ox - first, ⟨Int.natCast_nonneg c, by exact_mod_cast hc⟩,
      ⟨by omega, by omega⟩, ⟨by omega, by omega⟩, ?_⟩
    rw [place, dstStrideChannel]
    ring

/-- The regions around the image write all that does not read it. -/
theorem padRegions_copies {ky kx : ℕ} (hmeets : p.Meets ky kx) {s o : ℤ} :
    (∃ reg ∈ p.padRegions ky kx, reg.Copies s o) ↔
      s = 0 ∧ ∃ c oy ox, c < p.ic ∧ p.InOutput oy ox ∧ ¬ p.InImage ky kx oy ox ∧
        o = p.place c ky kx oy ox := by
  obtain ⟨oy₀, ox₀, ho₀, hin₀⟩ := hmeets
  have hw : 0 < p.ow := ho₀.2.1.trans_lt ho₀.2.2
  obtain ⟨⟨hy₀, hy₀'⟩, hx₀, hx₀'⟩ := (within_iff hsh hsw ho₀).2 hin₀
  have hy := clipY_spec hsh (p := p) ky
  have hx := clipX_spec hsw (p := p) kx
  have hup := rows_copies (p := p) ky kx 0 (p.clipY ky).startD
    (-((p.clipX kx).startD + (p.clipY ky).startD * p.ow)) s o hw (by rw [dstOffsetKx]; ring)
  have hbelow := rows_copies (p := p) ky kx ((p.clipY ky).endD + 1)
    (p.oh - 1 - (p.clipY ky).endD) (p.ohExcludePad ky * p.ow - (p.clipX kx).startD) s o hw
    (by rw [dstOffsetKx, ohExcludePad]; ring)
  have hleft := columns_copies (p := p) ky kx 0 (p.clipX kx).startD (-(p.clipX kx).startD) s o
    (by rw [dstOffsetKx]; ring)
  have hright := columns_copies (p := p) ky kx ((p.clipX kx).endD + 1)
    (p.ow - 1 - (p.clipX kx).endD) (p.owExcludePad kx) s o
    (by rw [dstOffsetKx, owExcludePad]; ring)
  simp only [padRegions, List.mem_append, or_and_right, exists_or, hy.padBefore, hy.padBehind,
    hx.padBefore, hx.padBehind, hup, hbelow, hleft, hright]
  have hystart := hy.startD
  have hyend := hy.endD
  have hxstart := hx.startD
  have hxend := hx.endD
  constructor
  · -- a part around the image is in the output, and clipped in one direction
    rintro (((⟨hs, c, oy, ox, hc, hoy, hox, ho⟩ | ⟨hs, c, oy, ox, hc, hoy, hox, ho⟩) |
      ⟨hs, c, oy, ox, hc, ⟨hoy, hoy'⟩, hox, ho⟩) | ⟨hs, c, oy, ox, hc, ⟨hoy, hoy'⟩, hox, ho⟩) <;>
    · have hout : p.InOutput oy ox := ⟨⟨by omega, by omega⟩, by omega, by omega⟩
      refine ⟨hs, c, oy, ox, hc, hout, fun hin => ?_, ho⟩
      obtain ⟨⟨_, _⟩, _, _⟩ := (within_iff hsh hsw hout).2 hin
      omega
  · rintro ⟨hs, c, oy, ox, hc, hout, hnot, ho⟩
    have hclipped : ¬ ((p.clipY ky).Within oy ∧ (p.clipX kx).Within ox) := fun hwithin =>
      hnot ((within_iff hsh hsw hout).1 hwithin)
    obtain ⟨hoy, hox⟩ := id hout
    by_cases hbefore : oy < (p.clipY ky).startD
    · exact .inl (.inl (.inl ⟨hs, c, oy, ox, hc, ⟨hoy.1, by omega⟩, hox, ho⟩))
    by_cases hbehind : (p.clipY ky).endD < oy
    · exact .inl (.inl (.inr ⟨hs, c, oy, ox, hc, ⟨by omega, by omega⟩, hox, ho⟩))
    have hwithin : (p.clipY ky).Within oy := ⟨not_lt.1 hbefore, not_lt.1 hbehind⟩
    by_cases hbefore' : ox < (p.clipX kx).startD
    · exact .inl (.inr ⟨hs, c, oy, ox, hc, hwithin, ⟨hox.1, by omega⟩, ho⟩)
    · have hbehind' : (p.clipX kx).endD < ox := by
        by_contra hle
        exact hclipped ⟨hwithin, not_lt.1 hbefore', not_lt.1 hle⟩
      exact .inr ⟨hs, c, oy, ox, hc, hwithin, ⟨by omega, by omega⟩, ho⟩

omit hsh hsw in
theorem origin_padRegions {ky kx : ℕ} {reg : Region Operand} (hreg : reg ∈ p.padRegions ky kx) :
    reg.origin = .padVal := by
  have horigin : ∀ {ic dst chan pad offset num stride : ℤ},
      reg ∈ addPadValue ic dst chan pad offset num stride → reg.origin = .padVal := by
    intro ic dst chan pad offset num stride hmem
    rw [addPadValue] at hmem
    split_ifs at hmem
    · rw [List.mem_singleton.1 hmem]
    · exact absurd hmem List.not_mem_nil
  simp only [padRegions, List.mem_append] at hreg
  rcases hreg with ((hmem | hmem) | hmem) | hmem <;> exact horigin hmem

theorem mem_regions {reg : Region Operand} : reg ∈ p.regions ↔
    ∃ ky kx, ky < p.kh ∧ kx < p.kw ∧ p.Meets ky kx ∧ reg ∈ p.kernelRegions ky kx := by
  simp only [regions, List.mem_flatMap, List.mem_range]
  constructor
  · rintro ⟨ky, hky, hreg⟩
    split_ifs at hreg with hy
    · exact absurd hreg List.not_mem_nil
    obtain ⟨kx, hkx, hreg⟩ := List.mem_flatMap.1 hreg
    split_ifs at hreg with hx
    · exact absurd hreg List.not_mem_nil
    exact ⟨ky, kx, hky, List.mem_range.1 hkx, (meets_iff hsh hsw).1 ⟨hy, hx⟩, hreg⟩
  · rintro ⟨ky, kx, hky, hkx, hmeets, hreg⟩
    obtain ⟨hy, hx⟩ := (meets_iff hsh hsw).2 hmeets
    refine ⟨ky, hky, ?_⟩
    rw [if_neg hy]
    refine List.mem_flatMap.2 ⟨kx, List.mem_range.2 hkx, ?_⟩
    rwa [if_neg hx]

end Regions

/-! ### The elements of the matrix -/

section Content

variable {V : Type*} [Zero V] (hsh : 0 < p.sh) (hsw : 0 < p.sw) (value : Operand → ℤ → V)
  {c ky kx : ℕ} {oy ox : ℤ}

/-- The address of the input at the place of the kernel. -/
def inputAddress (p : Im2Col) (c ky kx : ℕ) (oy ox : ℤ) : ℤ :=
  c * (p.iw * p.ih) + p.row ky oy * p.iw + p.column kx ox + p.srcKernelOffset * (kx + ky * p.kw)

include hsh hsw

/-- A copy to a place of the output is one of the regions of its place of the kernel. -/
theorem copies_place (hky : ky < p.kh) (hkx : kx < p.kw) (ho : p.InOutput oy ox)
    {reg : Region Operand} (hreg : reg ∈ p.regions) {s : ℤ}
    (hcopies : reg.Copies s (p.place c ky kx oy ox)) :
    (c < p.ic * p.batch ∧ p.InImage ky kx oy ox ∧ reg.origin = .input ∧
      s = p.inputAddress c ky kx oy ox) ∨
    (p.padVal = true ∧ c < p.ic ∧ p.Meets ky kx ∧ ¬ p.InImage ky kx oy ox ∧
      reg.origin = .padVal ∧ s = 0) := by
  obtain ⟨ky', kx', hky', hkx', hmeets, hmem⟩ := (mem_regions hsh hsw).1 hreg
  rcases List.mem_append.1 hmem with hmem | hmem
  · split_ifs at hmem with hpad
    · obtain ⟨hs, c', oy', ox', hc, ho', hnot, hplace⟩ :=
        (padRegions_copies hsh hsw hmeets).1 ⟨reg, hmem, hcopies⟩
      obtain ⟨rfl, rfl, rfl, rfl, rfl⟩ := place_injective hky hkx hky' hkx' ho ho' hplace
      exact .inr ⟨hpad, hc, hmeets, hnot, origin_padRegions hmem, hs⟩
    · exact absurd hmem List.not_mem_nil
  · obtain rfl := List.mem_singleton.1 hmem
    obtain ⟨c', oy', ox', hc, ho', hin, hs, hplace⟩ := (inputRegion_copies hsh hsw).1 hcopies
    obtain ⟨rfl, rfl, rfl, rfl, rfl⟩ := place_injective hky hkx hky' hkx' ho ho' hplace
    exact .inl ⟨hc, hin, rfl, hs⟩

/-- What reads the image. -/
theorem raster_inside (hc : c < p.ic * p.batch) (hky : ky < p.kh) (hkx : kx < p.kw)
    (ho : p.InOutput oy ox) (hin : p.InImage ky kx oy ox) :
    raster p.regions value (p.place c ky kx oy ox) =
      value .input (p.inputAddress c ky kx oy ox) := by
  have hmem : p.inputRegion ky kx ∈ p.regions := (mem_regions hsh hsw).2
    ⟨ky, kx, hky, hkx, ⟨oy, ox, ho, hin⟩, List.mem_append_right _ (List.mem_singleton_self _)⟩
  refine raster_of_agree ⟨_, hmem, _, (inputRegion_copies hsh hsw).2
    ⟨c, oy, ox, hc, ho, hin, rfl, rfl⟩⟩ fun reg hreg s hs => ?_
  rcases copies_place hsh hsw hky hkx ho hreg hs with ⟨-, -, horigin, rfl⟩ | ⟨-, -, -, hnot, -⟩
  · rw [horigin]
  · exact absurd hin hnot

/-- What is filled in. -/
theorem raster_padded (hpad : p.padVal = true) (hc : c < p.ic) (hky : ky < p.kh) (hkx : kx < p.kw)
    (ho : p.InOutput oy ox) (hmeets : p.Meets ky kx) (hnot : ¬ p.InImage ky kx oy ox) :
    raster p.regions value (p.place c ky kx oy ox) = value .padVal 0 := by
  obtain ⟨reg, hreg, hcopies⟩ := (padRegions_copies hsh hsw hmeets).2
    ⟨rfl, c, oy, ox, hc, ho, hnot, rfl⟩
  have hmem : reg ∈ p.kernelRegions ky kx :=
    List.mem_append_left _ (by rwa [if_pos hpad])
  refine raster_of_agree ⟨reg, (mem_regions hsh hsw).2 ⟨ky, kx, hky, hkx, hmeets, hmem⟩, _,
    hcopies⟩ fun reg' hreg' s hs => ?_
  rcases copies_place hsh hsw hky hkx ho hreg' hs with ⟨-, hin, -⟩ | ⟨-, -, -, -, horigin, rfl⟩
  · exact absurd hin hnot
  · rw [horigin]

/-- What is left at zero. -/
theorem raster_skipped (hky : ky < p.kh) (hkx : kx < p.kw) (ho : p.InOutput oy ox)
    (hnot : ¬ p.InImage ky kx oy ox) (hleft : p.padVal = true → c < p.ic → ¬ p.Meets ky kx) :
    raster p.regions value (p.place c ky kx oy ox) = 0 := by
  refine foldl_copy_of_not_copies _ _ _ fun reg hreg s hs => ?_
  rcases copies_place hsh hsw hky hkx ho hreg hs with ⟨-, hin, -⟩ | ⟨hpad, hc, hmeets, -⟩
  · exact hnot hin
  · exact hleft hpad hc hmeets

omit hsh hsw

/-- The place of an element in the matrix, by its row and its column. -/
def address (p : Im2Col) (n c ky kx : ℕ) (oy ox : ℤ) : ℤ :=
  ((c * p.kh + ky) * p.kw + kx) * (p.batch * p.oh * p.ow) + ((n * p.oh + oy) * p.ow + ox)

/-- The transposition only moves the batches. -/
theorem content_address {n : ℕ} (hn : n < p.batch) (hc : c < p.ic) (hky : ky < p.kh)
    (hkx : kx < p.kw) (ho : p.InOutput oy ox) :
    p.content value (p.address n c ky kx oy ox) =
      raster p.regions value (p.place (n * p.ic + c) ky kx oy ox) := by
  rw [content]
  split_ifs with hbatch
  · have hrow : (c * p.kh + ky) * p.kw + kx < p.ic * p.kh * p.kw := by
      have hplace : c * p.kh + ky < p.ic * p.kh := by
        calc c * p.kh + ky < c * p.kh + p.kh := Nat.add_lt_add_left hky _
          _ = (c + 1) * p.kh := (Nat.succ_mul c _).symm
          _ ≤ p.ic * p.kh := Nat.mul_le_mul_right _ hc
      calc (c * p.kh + ky) * p.kw + kx < (c * p.kh + ky) * p.kw + p.kw := Nat.add_lt_add_left hkx _
        _ = (c * p.kh + ky + 1) * p.kw := (Nat.succ_mul _ _).symm
        _ ≤ p.ic * p.kh * p.kw := Nat.mul_le_mul_right _ hplace
    have hn' : (n : ℤ) < p.batch := by exact_mod_cast hn
    have hcopies : ∀ s, p.transposeRegion.Copies s (p.address n c ky kx oy ox) ↔
        s = p.place (n * p.ic + c) ky kx oy ox := by
      intro s
      simp only [Region.Copies, transposeRegion, exists_box, View.address, Matrix.cons_val]
      constructor
      · rintro ⟨z, y, x, -, ⟨hy, hy'⟩, ⟨hx, hx'⟩, rfl, haddress⟩
        have hdigits : (z * p.batch + y) * (p.oh * p.ow) + x =
            (((c * p.kh + ky) * p.kw + kx) * p.batch + n) * (p.oh * p.ow) + (oy * p.ow + ox) := by
          rw [address] at haddress
          linarith
        obtain ⟨hcolumn, rfl⟩ := digits_unique hx hx' ho.place_nonneg ho.place_lt hdigits
        obtain ⟨rfl, rfl⟩ := digits_unique hy hy' (Int.natCast_nonneg n) hn' hcolumn
        rw [place]
        push_cast
        ring
      · rintro rfl
        refine ⟨((c * p.kh + ky) * p.kw + kx : ℕ), n, oy * p.ow + ox,
          ⟨Int.natCast_nonneg _, by exact_mod_cast hrow⟩, ⟨Int.natCast_nonneg n, hn'⟩,
          ⟨ho.place_nonneg, ho.place_lt⟩, ?_, ?_⟩
        · rw [place]
          push_cast
          ring
        · rw [address]
          push_cast
          ring
    refine raster_of_agree ⟨_, List.mem_singleton_self _, _, (hcopies _).2 rfl⟩
      fun reg hreg s hs => ?_
    obtain rfl := List.mem_singleton.1 hreg
    rw [(hcopies s).1 hs]
    rfl
  · have hbatch' : p.batch = 1 := by omega
    obtain rfl : n = 0 := by omega
    have haddress : p.address 0 c ky kx oy ox = p.place (0 * p.ic + c) ky kx oy ox := by
      rw [address, place, hbatch']
      push_cast
      ring
    rw [haddress]

end Content

/-! ### Patches -/

/-- The matrix holds the patches of the image: outside of it the pad value, or zero. -/
def Exact (V : Type*) [Zero V] (p : Im2Col) : Prop :=
  ∀ (value : Operand → ℤ → V) (n c ky kx : ℕ) (oy ox : ℤ), n < p.batch → c < p.ic → ky < p.kh →
    kx < p.kw → p.InOutput oy ox →
    (p.InImage ky kx oy ox → p.content value (p.address n c ky kx oy ox) =
      value .input (p.inputAddress (n * p.ic + c) ky kx oy ox)) ∧
    (¬ p.InImage ky kx oy ox → p.content value (p.address n c ky kx oy ox) =
      if p.padVal then value .padVal 0 else 0)

/-- What reads outside of the image belongs to the first batch, and to a place of the kernel that
reads the image elsewhere. -/
def PadsCovered (p : Im2Col) : Prop :=
  ∀ (n ky kx : ℕ) (oy ox : ℤ), 0 < p.ic → n < p.batch → ky < p.kh → kx < p.kw →
    p.InOutput oy ox → ¬ p.InImage ky kx oy ox → n = 0 ∧ p.Meets ky kx

/-- **The matrix of the patches.** -/
theorem exact_iff {V : Type*} [Zero V] [Nontrivial V] (hsh : 0 < p.sh) (hsw : 0 < p.sw) :
    p.Exact V ↔ (p.padVal = true → p.PadsCovered) := by
  have hchannel : ∀ {n c : ℕ}, n < p.batch → c < p.ic → n * p.ic + c < p.ic * p.batch :=
    fun {n c} hn hc => by
      calc n * p.ic + c < n * p.ic + p.ic := Nat.add_lt_add_left hc _
        _ = (n + 1) * p.ic := (Nat.succ_mul n _).symm
        _ ≤ p.batch * p.ic := Nat.mul_le_mul_right _ hn
        _ = p.ic * p.batch := Nat.mul_comm _ _
  constructor
  · intro hexact hpad n ky kx oy ox hic hn hky hkx ho hnot
    obtain ⟨x, hx⟩ := exists_ne (0 : V)
    have helement := (hexact (fun _ _ => x) n 0 ky kx oy ox hn hic hky hkx ho).2 hnot
    rw [content_address _ hn hic hky hkx ho, if_pos hpad] at helement
    by_contra hcovered
    refine hx (helement.symm.trans (raster_skipped hsh hsw _ hky hkx ho hnot fun _ hc hmeets => ?_))
    refine hcovered ⟨?_, hmeets⟩
    by_contra hn0
    have : 1 * p.ic ≤ n * p.ic := Nat.mul_le_mul_right _ (Nat.pos_of_ne_zero hn0)
    omega
  · intro hcovered value n c ky kx oy ox hn hc hky hkx ho
    rw [content_address value hn hc hky hkx ho]
    refine ⟨fun hin => raster_inside hsh hsw value (hchannel hn hc) hky hkx ho hin, fun hnot => ?_⟩
    cases hpad : p.padVal with
    | true =>
      obtain ⟨rfl, hmeets⟩ := hcovered hpad n ky kx oy ox (Nat.zero_lt_of_lt hc) hn hky hkx ho hnot
      rw [if_pos rfl]
      exact raster_padded hsh hsw value hpad (by rwa [Nat.zero_mul, Nat.zero_add]) hky hkx ho hmeets
        hnot
    | false =>
      rw [if_neg Bool.false_ne_true]
      exact raster_skipped hsh hsw value hky hkx ho hnot fun h =>
        absurd (hpad.symm.trans h) Bool.false_ne_true

/-- The call for an output of `oh` rows and `ow` columns. -/
def ofCommon (common : Convolution2DCommon) (input : Image) (oh ow : ℤ) (padVal : Bool) :
    Im2Col where
  ic := input.channel
  kh := common.kernelY
  kw := common.kernelX
  batch := input.batch
  oh := oh
  ow := ow
  ih := input.height
  iw := input.width
  sh := common.strideY
  sw := common.strideX
  dh := common.dilateY
  dw := common.dilateX
  pads := (GeometryIm2Col.padBefore common.x, GeometryIm2Col.padBefore common.y)
  padVal := padVal

/-- `GeometryIm2Col::onCompute`. -/
def ofOperator (common : Convolution2DCommon) (input : Image) : Im2Col :=
  ofCommon common input (GeometryIm2Col.size common input).oh
    (GeometryIm2Col.size common input).ow false

/-- The operator, which has no pad value, holds the patches for the size that it computes. -/
theorem ofOperator_exact {V : Type*} [Zero V] [Nontrivial V] {common : Convolution2DCommon}
    (hx : common.x.Valid) (hy : common.y.Valid) (input : Image) :
    (ofOperator common input).Exact V :=
  (exact_iff hy.stride hx.stride).2 fun h => absurd h Bool.false_ne_true

end Im2Col

end Mnn.Recompute
