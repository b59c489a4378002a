import Mathlib.Tactic
import Mnn.Geometry.Region

/-!
# Packed copies

Where all tensors of a raster are `NC4HW4`, `CPURaster` copies whole blocks of `pack` channels.
`OpCommonUtils::canBlitFast` (`source/core/OpCommonUtils.cpp`) says which regions may be copied so,
`turnToPackRegion` turns a region over elements into one over blocks, and
`CPURaster::executeFaster` (`source/backend/cpu/CPURaster.cpp`) carries the copies out.

* `Splits`, `split`, `canBlitFast`, `turnToPackRegion`, `blits`, `executeFaster`: the code;
* `packedIndex`: where an element of a tensor is in its packed buffer;
* `Side`: the dimensions of a region that walk along one axis, or along axes that lie next to each
  other in both layouts;
* `Side.stride_eq`, `Side.walk`: what `turnToPackRegion` makes of such a dimension.

Offsets, strides and sizes are integers; division and remainder truncate.
-/

namespace Mnn.Blit

/-- `SPLITS`: inside, axis and outside, that is row, channel and batch. -/
structure Splits where
  inside : ℤ
  axis : ℤ
  outside : ℤ
  deriving DecidableEq

/-- `_split`. -/
def split (offset axisL area : ℤ) : Splits where
  inside := offset.tmod area
  axis := (offset.tdiv area).tmod axisL
  outside := (offset.tdiv area).tdiv axisL

/-- The result of `_computeAxisFused`. -/
structure Fused where
  nc : Bool
  cw : Bool
  nw : Bool

/-- `_computeAxisFused`. -/
def computeAxisFused (t : Splits) : Fused where
  nc := 0 < t.axis && 0 < t.outside
  cw := 0 < t.axis && 0 < t.inside
  nw := 0 < t.inside && 0 < t.outside

/-- `_computeStride`. -/
def computeStride (tup splits : Splits) (step : ℤ) (swapnc : Bool) (stride : ℤ) : Splits :=
  let inside := tup.inside.tdiv step
  let axis := tup.axis.tdiv step
  let outside := tup.outside.tdiv step
  let fuse := computeAxisFused tup
  if fuse.nc then
    if swapnc then ⟨inside, 0, stride.tdiv splits.inside⟩
    else ⟨inside, stride.tdiv splits.inside, 0⟩
  else if fuse.nw then ⟨stride, axis, 0⟩
  else if fuse.cw then ⟨stride, 0, outside⟩
  else ⟨inside, axis, outside⟩

/-- Which axes have more than one element in the source or in the destination. -/
structure Valid where
  w : Bool
  c : Bool
  n : Bool

/-- `_checkFuseValid`. -/
def checkFuseValid (tup splits : Splits) (swapnc swapcw : Bool) (valid : Valid) : Bool :=
  let fused := computeAxisFused tup
  if swapnc then
    -- cw can't be fused if n > 1, because layout is c, n, w
    if fused.cw && valid.n then false
    -- nc fuse but n is not full, don't support fuse
    else if fused.nc && tup.outside + 1 ≠ splits.outside then false
    else true
  else if swapcw then
    if fused.nc && valid.w then false
    else if fused.cw && tup.axis + 1 ≠ splits.axis then false
    else true
  else if fused.nw && valid.c then false
  else if fused.nc && valid.w then false
  else if fused.cw && valid.n then false
  else true

variable {τ : Type*}

/-- `OpCommonUtils::canBlitFast` on the splits of the tensors. -/
def canBlitSplits (region : Region τ) (srcSplits dstSplits : Splits) (pack : ℤ)
    (swapnc swapcw : Bool) : Bool :=
  let valid : Valid :=
    { w := 1 < srcSplits.inside || 1 < dstSplits.inside
      c := 1 < srcSplits.axis || 1 < dstSplits.axis
      n := 1 < srcSplits.outside || 1 < dstSplits.outside }
  if ((region.src.offset.tdiv srcSplits.inside).tmod srcSplits.axis).tmod pack ≠ 0 then false
  else if ((region.dst.offset.tdiv dstSplits.inside).tmod dstSplits.axis).tmod pack ≠ 0 then false
  else decide (∀ i, 1 < region.size i →
    let dstTup := split ((region.size i - 1) * region.dst.stride i) dstSplits.axis dstSplits.inside
    let srcTup := split (region.src.stride i * (region.size i - 1)) srcSplits.axis srcSplits.inside
    dstTup.axis = srcTup.axis ∧
      checkFuseValid srcTup srcSplits swapnc swapcw valid = true ∧
      checkFuseValid dstTup dstSplits swapnc swapcw valid = true)

/-- The splits of a tensor: the product of the inner lengths, the channels and the batch. -/
def splitsOf (length : List ℕ) : Splits where
  inside := ((length.drop 2).prod : ℕ)
  axis := (length.getD 1 1 : ℕ)
  outside := (length.getD 0 1 : ℕ)

/-- `OpCommonUtils::canBlitFast`, with the lengths of the origin and of `dest`. -/
def canBlitFast (region : Region τ) (src dest : List ℕ) (pack : ℤ) (swapnc swapcw : Bool) : Bool :=
  if src.length = 1 ∨ dest.length = 1 then false
  else canBlitSplits region (splitsOf src) (splitsOf dest) pack swapnc swapcw

/-- `UP_DIV`. -/
def upDiv (x y : ℤ) : ℤ := (x + y - 1).tdiv y

/-- The size of a dimension of the packed region. -/
def packSize (dstSplits : Splits) (pack size dstStride : ℤ) : ℤ :=
  let tup := split ((size - 1) * dstStride) dstSplits.axis dstSplits.inside
  -- The size has axis offset, divide the axis and mul axisC4 instead
  if 0 < tup.axis then size.tdiv (tup.axis + 1) * upDiv (tup.axis + 1) pack else size

/-- The stride of a dimension of a packed view. -/
def packStride (splits : Splits) (pack size stride : ℤ) (swapnc : Bool) : ℤ :=
  if size ≤ 1 then 0
  else
    let step := size - 1
    let last := split (stride * step) splits.axis splits.inside
    let tup := computeStride last splits step swapnc stride
    if swapnc then
      tup.outside * splits.inside + tup.axis * splits.inside * splits.outside + tup.inside
    else
      tup.outside * upDiv splits.axis pack * splits.inside + tup.axis * splits.inside + tup.inside

/-- The offset of a packed view, in elements. -/
def packOffset (splits : Splits) (pack offset : ℤ) (swapnc : Bool) : ℤ :=
  -- Origin offset is compute as NCHW
  let tup := split offset splits.axis splits.inside
  if swapnc then
    -- New offset is compute as C4NHW
    tup.outside * pack * splits.inside + tup.axis * splits.inside * splits.outside +
      tup.inside * pack
  else
    tup.outside * upDiv splits.axis pack * pack * splits.inside + tup.axis * splits.inside +
      tup.inside * pack

/-- `OpCommonUtils::turnToPackRegion`. -/
def turnToPackRegion (region : Region τ) (srcSplits dstSplits : Splits) (pack : ℤ)
    (swapnc : Bool) : Region τ where
  src :=
    { offset := packOffset srcSplits pack region.src.offset swapnc
      stride := fun i => packStride srcSplits pack (region.size i) (region.src.stride i) swapnc }
  dst :=
    { offset := packOffset dstSplits pack region.dst.offset swapnc
      stride := fun i => packStride dstSplits pack (region.size i) (region.dst.stride i) swapnc }
  size i := packSize dstSplits pack (region.size i) (region.dst.stride i)
  origin := region.origin

/-! ### `CPURaster` -/

/-- `memcpy`, as a list of assignments from source to destination addresses. -/
def memcpy (dst src n : ℤ) : List (ℤ × ℤ) :=
  (List.range n.toNat).map fun e : ℕ => (src + e, dst + e)

/-- What `executeFaster` copies for one packed region, in order. -/
def blits (pack : ℤ) (slice : Region τ) : List (ℤ × ℤ) :=
  let srcZ (z : ℕ) := slice.src.offset + z * slice.src.stride 0 * pack
  let dstZ (z : ℕ) := slice.dst.offset + z * slice.dst.stride 0 * pack
  let srcY (z y : ℕ) := srcZ z + y * slice.src.stride 1 * pack
  let dstY (z y : ℕ) := dstZ z + y * slice.dst.stride 1 * pack
  if slice.src.stride 1 = slice.size 2 ∧ slice.dst.stride 1 = slice.size 2 ∧
      slice.src.stride 2 = 1 then
    (List.range (slice.size 0).toNat).flatMap fun z =>
      memcpy (dstZ z) (srcZ z) (slice.size 1 * slice.src.stride 1 * pack)
  else if 1 = slice.src.stride 2 ∧ 1 = slice.dst.stride 2 then
    (List.range (slice.size 0).toNat).flatMap fun z =>
      (List.range (slice.size 1).toNat).flatMap fun y =>
        memcpy (dstY z y) (srcY z y) (slice.size 2 * pack)
  else
    (List.range (slice.size 0).toNat).flatMap fun z =>
      (List.range (slice.size 1).toNat).flatMap fun y =>
        (List.range (slice.size 2).toNat).flatMap fun x : ℕ =>
          memcpy (dstY z y + x * slice.dst.stride 2 * pack)
            (srcY z y + x * slice.src.stride 2 * pack) pack

variable {V : Type*}

/-- `CPURaster::executeFaster` for the regions that `onResize` turned into packed ones. -/
def executeFaster (pack : ℤ) (length : τ → List ℕ) (output : List ℕ) (regions : List (Region τ))
    (host : τ → ℤ → V) (dst : ℤ → V) : ℤ → V :=
  regions.foldl (fun dst r =>
    (blits pack (turnToPackRegion r (splitsOf (length r.origin)) (splitsOf output) pack true)).foldl
      (fun dst p => Function.update dst p.2 (host r.origin p.1)) dst) dst

/-- The block of an element in a packed buffer: the layout is channel blocks, batch, row. -/
def blockIndex (pack : ℤ) (s t : Splits) : ℤ :=
  t.axis / pack * (s.outside * s.inside) + (t.outside * s.inside + t.inside)

/-- Where the element number `x` of a tensor is in its packed buffer. -/
def packedIndex (pack : ℤ) (s : Splits) (x : ℤ) : ℤ :=
  let t := split x s.axis s.inside
  pack * blockIndex pack s t + t.axis % pack

/-! ### Coordinates -/

variable {s : Splits} {n stride pack : ℤ}

theorem split_zero (axisL area : ℤ) : split 0 axisL area = ⟨0, 0, 0⟩ := by
  simp [split]

/-- Inside the first row, in either direction. -/
theorem split_row {x area : ℤ} (axisL : ℤ) (h : |x| < area) : split x axisL area = ⟨x, 0, 0⟩ := by
  have hdiv : x.tdiv area = 0 := by
    rcases le_total 0 x with hx | hx
    · exact Int.tdiv_eq_zero_of_lt hx (abs_of_nonneg hx ▸ h)
    · have h0 : (-x).tdiv area = 0 := Int.tdiv_eq_zero_of_lt (by omega) (abs_of_nonpos hx ▸ h)
      rwa [Int.neg_tdiv, neg_eq_zero] at h0
  have hmod : x.tmod area = x := by
    have h1 := Int.tmod_add_mul_tdiv x area
    rwa [hdiv, mul_zero, add_zero] at h1
  simp [split, hdiv, hmod]

/-- From batch to batch, in either direction. -/
theorem split_batch {axisL area : ℤ} (hA : axisL ≠ 0) (hW : area ≠ 0) (t : ℤ) :
    split (t * (axisL * area)) axisL area = ⟨0, 0, t⟩ := by
  have hdiv : (t * (axisL * area)).tdiv area = t * axisL := by
    rw [← mul_assoc, Int.mul_tdiv_cancel _ hW]
  have hmod : (t * (axisL * area)).tmod area = 0 := by
    rw [← mul_assoc, Int.mul_tmod_left]
  simp [split, hdiv, hmod, Int.mul_tdiv_cancel _ hA]

/-- Row, channel and batch of an element. -/
theorem split_digits {w c b axisL area : ℤ} (hw : 0 ≤ w ∧ w < area) (hc : 0 ≤ c ∧ c < axisL)
    (hb : 0 ≤ b) : split (w + area * (c + axisL * b)) axisL area = ⟨w, c, b⟩ := by
  have hinner : 0 ≤ c + axisL * b := by nlinarith
  have hx : 0 ≤ w + area * (c + axisL * b) := by nlinarith
  have hdiv : (w + area * (c + axisL * b)).tdiv area = c + axisL * b := by
    rw [Int.tdiv_eq_ediv_of_nonneg hx, Int.add_mul_ediv_left _ _ (by omega),
      Int.ediv_eq_zero_of_lt hw.1 hw.2, zero_add]
  have hmod : (w + area * (c + axisL * b)).tmod area = w := by
    rw [Int.tmod_eq_emod_of_nonneg hx, Int.add_mul_emod_self_left, Int.emod_eq_of_lt hw.1 hw.2]
  have hdiv' : (c + axisL * b).tdiv axisL = b := by
    rw [Int.tdiv_eq_ediv_of_nonneg hinner, Int.add_mul_ediv_left _ _ (by omega),
      Int.ediv_eq_zero_of_lt hc.1 hc.2, zero_add]
  have hmod' : (c + axisL * b).tmod axisL = c := by
    rw [Int.tmod_eq_emod_of_nonneg hinner, Int.add_mul_emod_self_left,
      Int.emod_eq_of_lt hc.1 hc.2]
  simp [split, hdiv, hmod, hdiv', hmod']

/-- With one channel the rows of all batches are one row. -/
theorem split_flat (x area : ℤ) : (split x 1 area).axis = 0 ∧
    (split x 1 area).outside * area + (split x 1 area).inside = x := by
  refine ⟨Int.tmod_one _, ?_⟩
  have h := Int.tmod_add_mul_tdiv x area
  simp only [split, Int.tdiv_one]
  linarith [mul_comm area (x.tdiv area)]

/-! ### Dimensions that stay apart from the channels -/

/-- A dimension does not touch the channels: it stays in a row, or goes from batch to batch, or,
with one channel, goes along rows and batches as one. -/
def Free (s : Splits) (n stride : ℤ) : Prop :=
  n ≤ 1 ∨ |(n - 1) * stride| < s.inside ∨ s.axis * s.inside ∣ stride ∨
    (s.axis = 1 ∧ 0 ≤ stride ∧ ¬ s.inside ∣ (n - 1) * stride)

/-- A dimension walks over the channels: over `Q` of them in one batch and one place of a row, or in
full rows of `m` places of the only batch, or over all channels of all `B` batches. -/
structure Channels (s : Splits) (n stride B Q m : ℤ) : Prop where
  count : n = B * Q * m
  two_le : 2 ≤ Q
  batches_pos : 1 ≤ B
  places_pos : 1 ≤ m
  le_axis : Q ≤ s.axis
  row : stride * m = s.inside
  batches : B = 1 ∨ (m = 1 ∧ B = s.outside ∧ Q = s.axis)
  places : m = 1 ∨ s.outside = 1

/-- What a dimension of `n = B * Q * m` steps does on one side of a region. -/
def Side (s : Splits) (n stride B Q m : ℤ) : Prop :=
  (B = 1 ∧ Q = 1 ∧ m = n ∧ Free s n stride) ∨ Channels s n stride B Q m

/-- The stride between blocks for a dimension. -/
def blockStride (s : Splits) (n stride : ℤ) : ℤ :=
  if n ≤ 1 then 0
  else if |(n - 1) * stride| < s.inside then stride
  else if s.axis * s.inside ∣ stride then stride / s.axis
  else if stride = s.inside ∧ n ≤ s.axis then s.inside * s.outside
  else stride

/-- The splits of a tensor that has elements. -/
structure Splits.Pos (s : Splits) : Prop where
  inside : 0 < s.inside
  axis : 0 < s.axis
  outside : 0 < s.outside

theorem abs_step_lt {i : ℤ} (hi : 0 ≤ i ∧ i < n) (h : |(n - 1) * stride| < s.inside) :
    |i * stride| < s.inside := by
  refine lt_of_le_of_lt ?_ h
  rw [abs_mul, abs_mul, abs_of_nonneg hi.1, abs_of_nonneg (by omega : (0 : ℤ) ≤ n - 1)]
  exact mul_le_mul_of_nonneg_right (by omega) (abs_nonneg _)

/-- The points of a dimension that stays apart from the channels. -/
theorem Free.walk (hs : s.Pos) (h : Free s n stride) {i : ℤ} (hi : 0 ≤ i ∧ i < n) :
    (split (i * stride) s.axis s.inside).axis = 0 ∧
      (split (i * stride) s.axis s.inside).outside * s.inside +
        (split (i * stride) s.axis s.inside).inside = i * blockStride s n stride := by
  by_cases hn : n ≤ 1
  · have hi0 : i = 0 := by omega
    rw [hi0, zero_mul, split_zero]
    simp
  by_cases hrow : |(n - 1) * stride| < s.inside
  · rw [split_row _ (abs_step_lt hi hrow), blockStride, if_neg hn, if_pos hrow]
    simp
  rcases h with h | h | ⟨t, rfl⟩ | ⟨hone, hpos, hdvd⟩
  · exact absurd h hn
  · exact absurd h hrow
  · have hassoc : i * (s.axis * s.inside * t) = i * t * (s.axis * s.inside) := by ring
    rw [hassoc, split_batch hs.axis.ne' hs.inside.ne', blockStride, if_neg hn, if_neg hrow,
      if_pos (Dvd.intro _ rfl), mul_assoc s.axis, Int.mul_ediv_cancel_left _ hs.axis.ne']
    refine ⟨rfl, ?_⟩
    ring
  · have hstep : ¬ s.axis * s.inside ∣ stride := by
      rw [hone, one_mul]
      exact fun hd => hdvd (hd.mul_left _)
    have hne : ¬ (stride = s.inside ∧ n ≤ s.axis) := fun he => hdvd (he.1 ▸ Dvd.intro_left _ rfl)
    rw [hone, blockStride, if_neg hn, if_neg hrow, if_neg hstep, if_neg hne]
    exact split_flat _ _

/-- The stride between blocks that `turnToPackRegion` finds, from where the last point is. -/
theorem packStride_of_split (pack : ℤ) (hn : ¬ n ≤ 1) {t : Splits}
    (ht : split ((n - 1) * stride) s.axis s.inside = t) :
    packStride s pack n stride true =
      (computeStride t s (n - 1) true stride).outside * s.inside +
        (computeStride t s (n - 1) true stride).axis * s.inside * s.outside +
        (computeStride t s (n - 1) true stride).inside := by
  rw [packStride, if_neg hn]
  dsimp only
  rw [if_pos rfl, mul_comm stride, ht]

/-- `turnToPackRegion` keeps the stride of such a dimension, or takes the channels out of it. -/
theorem Free.packStride_eq (hs : s.Pos) (h : Free s n stride) :
    packStride s pack n stride true = blockStride s n stride := by
  by_cases hn : n ≤ 1
  · rw [packStride, blockStride, if_pos hn, if_pos hn]
  have hstep : n - 1 ≠ 0 := by omega
  by_cases hrow : |(n - 1) * stride| < s.inside
  · rw [packStride_of_split pack hn (split_row _ hrow), blockStride, if_neg hn, if_pos hrow]
    simp [computeStride, computeAxisFused, Int.mul_tdiv_cancel_left _ hstep]
  rcases h with h | h | ⟨t, rfl⟩ | ⟨hone, hpos, hdvd⟩
  · exact absurd h hn
  · exact absurd h hrow
  · have hassoc : (n - 1) * (s.axis * s.inside * t) = (n - 1) * t * (s.axis * s.inside) := by ring
    have ht := split_batch hs.axis.ne' hs.inside.ne' ((n - 1) * t)
    rw [packStride_of_split pack hn (hassoc ▸ ht), blockStride, if_neg hn, if_neg hrow,
      if_pos (Dvd.intro _ rfl), mul_assoc s.axis, Int.mul_ediv_cancel_left _ hs.axis.ne']
    simp [computeStride, computeAxisFused, Int.mul_tdiv_cancel_left _ hstep]
    exact mul_comm _ _
  · have hbatch : ¬ s.axis * s.inside ∣ stride := by
      rw [hone, one_mul]
      exact fun hd => hdvd (hd.mul_left _)
    have hne : ¬ (stride = s.inside ∧ n ≤ s.axis) := fun he => hdvd (he.1 ▸ Dvd.intro_left _ rfl)
    have htotal : 0 ≤ (n - 1) * stride := mul_nonneg (by omega) hpos
    have hinside : 0 < ((n - 1) * stride).tmod s.inside := by
      rw [Int.tmod_eq_emod_of_nonneg htotal]
      have h1 := Int.emod_nonneg ((n - 1) * stride) hs.inside.ne'
      have h2 : ((n - 1) * stride) % s.inside ≠ 0 := fun h0 => hdvd (Int.dvd_of_emod_eq_zero h0)
      omega
    have houtside : 0 < ((n - 1) * stride).tdiv s.inside := by
      rw [Int.tdiv_eq_ediv_of_nonneg htotal]
      refine Int.lt_of_lt_of_le zero_lt_one ((Int.le_ediv_iff_mul_le hs.inside).2 ?_)
      rw [abs_of_nonneg htotal] at hrow
      omega
    rw [packStride_of_split pack hn rfl, blockStride, if_neg hn, if_neg hrow, if_neg hbatch,
      if_neg hne]
    simp [computeStride, computeAxisFused, split, hone, hinside, houtside]

/-! ### Dimensions that walk over the channels -/

section Channels

variable {B Q m : ℤ} (hs : s.Pos) (h : Channels s n stride B Q m)

include hs h

theorem Channels.stride_pos : 0 < stride := by
  have hrow := h.row
  have hpos := hs.inside
  have hm := h.places_pos
  by_contra hle
  have hle' : stride * m ≤ 0 := mul_nonpos_of_nonpos_of_nonneg (by omega) (by omega)
  omega

/-- The points: the channel, the batch and the place in the row. -/
theorem Channels.split {b q r : ℤ} (hb : 0 ≤ b ∧ b < B) (hq : 0 ≤ q ∧ q < Q)
    (hr : 0 ≤ r ∧ r < m) :
    split (((b * Q + q) * m + r) * stride) s.axis s.inside = ⟨r * stride, q, b⟩ := by
  have hstride := h.stride_pos hs
  have hrow : 0 ≤ r * stride ∧ r * stride < s.inside := by
    refine ⟨mul_nonneg hr.1 hstride.le, ?_⟩
    rw [← h.row, mul_comm stride]
    exact mul_lt_mul_of_pos_right hr.2 hstride
  have hle := h.le_axis
  have hx : ((b * Q + q) * m + r) * stride = r * stride + s.inside * (q + s.axis * b) := by
    rw [← h.row]
    rcases h.batches with hB | ⟨-, -, hQ⟩
    · have hb0 : b = 0 := by omega
      rw [hb0]
      ring
    · rw [← hQ]
      ring
  rw [hx, split_digits hrow ⟨hq.1, by omega⟩ hb.1]

theorem Channels.split_last :
    Blit.split ((n - 1) * stride) s.axis s.inside = ⟨(m - 1) * stride, Q - 1, B - 1⟩ := by
  have hB := h.batches_pos
  have hQ := h.two_le
  have hm := h.places_pos
  rw [← h.split hs (b := B - 1) (q := Q - 1) (r := m - 1) (by omega) (by omega) (by omega), h.count]
  congr 2
  ring

omit hs in
theorem Channels.one_lt : 1 < n := by
  have hB := h.batches_pos
  have hQ := h.two_le
  have hm := h.places_pos
  have hBQ : 1 * 2 ≤ B * Q := mul_le_mul hB hQ (by omega) (by omega)
  have hle : B * Q * 1 ≤ B * Q * m := mul_le_mul_of_nonneg_left hm (by omega)
  rw [h.count]
  omega

theorem Channels.blockStride_eq : blockStride s n stride =
    if m = 1 ∧ B = 1 then s.inside * s.outside else stride := by
  have hstride := h.stride_pos hs
  have hQ := h.two_le
  have hle := h.le_axis
  have hm := h.places_pos
  have hB := h.batches_pos
  have hrow : ¬ |(n - 1) * stride| < s.inside := by
    intro hlt
    have hsplit := h.split_last hs
    rw [split_row _ hlt, Splits.mk.injEq] at hsplit
    omega
  have hlt : stride < s.axis * s.inside := by
    have hle1 : stride * 1 ≤ s.inside := h.row ▸ mul_le_mul_of_nonneg_left hm hstride.le
    have hle2 : 2 * s.inside ≤ s.axis * s.inside :=
      mul_le_mul_of_nonneg_right (by omega) hs.inside.le
    omega
  have hdvd : ¬ s.axis * s.inside ∣ stride := fun hd => by
    have := Int.le_of_dvd hstride hd
    omega
  have hfull : stride = s.inside ↔ m = 1 := by
    rw [← h.row]
    constructor
    · intro he
      have : stride * (m - 1) = 0 := by linarith
      rcases mul_eq_zero.1 this with h0 | h0 <;> omega
    · rintro rfl
      ring
  have hcount : m = 1 → (n ≤ s.axis ↔ B = 1) := by
    rintro rfl
    rw [h.count, mul_one]
    rcases h.batches with hB1 | ⟨-, -, hQ'⟩
    · rw [hB1]
      omega
    · rw [← hQ']
      constructor
      · intro hn
        nlinarith
      · rintro rfl
        omega
  rw [blockStride, if_neg (not_le.2 h.one_lt), if_neg hrow, if_neg hdvd]
  by_cases hm1 : m = 1
  · simp [hfull, hm1, hcount hm1]
  · simp [hfull, hm1]

/-- `turnToPackRegion` steps over blocks of channels, or over the rows or batches of a block. -/
theorem Channels.packStride_eq : packStride s pack n stride true = blockStride s n stride := by
  have hQ := h.two_le
  have hm := h.places_pos
  have hB := h.batches_pos
  have hstride := h.stride_pos hs
  have hn := h.one_lt
  rw [packStride_of_split pack (not_le.2 hn) (h.split_last hs), h.blockStride_eq hs]
  rcases h.batches with rfl | ⟨rfl, hBN, hQC⟩
  · by_cases hm1 : m = 1
    · subst hm1
      have hstep : n - 1 = Q - 1 := by
        rw [h.count]
        ring
      have hone : (Q - 1).tdiv (Q - 1) = 1 := Int.tdiv_self (by omega)
      simp [computeStride, computeAxisFused, hstep, hone]
    · have houtside : s.outside = 1 := h.places.resolve_left hm1
      have hinside : 0 < (m - 1) * stride := mul_pos (by omega) hstride
      have hQ1 : 1 < Q := by omega
      simp [computeStride, computeAxisFused, hinside, hQ1, hm1]
  · by_cases hB1 : B = 1
    · subst hB1
      have hstep : n - 1 = Q - 1 := by
        rw [h.count]
        ring
      have hone : (Q - 1).tdiv (Q - 1) = 1 := Int.tdiv_self (by omega)
      simp [computeStride, computeAxisFused, hstep, hone]
    · have hrow : stride = s.inside := by
        rw [← h.row, mul_one]
      have hQ1 : 1 < Q := by omega
      have hB0 : 1 < B := by omega
      have hone : s.inside.tdiv s.inside = 1 := Int.tdiv_self hs.inside.ne'
      simp [computeStride, computeAxisFused, hQ1, hB0, hB1, hrow, hone]

/-- The points in blocks. -/
theorem Channels.walk {b r : ℤ} (hb : 0 ≤ b ∧ b < B) (hr : 0 ≤ r ∧ r < m) (k : ℤ) :
    b * s.inside + r * stride + k * (s.outside * s.inside) =
      ((k * B + b) * m + r) * blockStride s n stride := by
  rw [h.blockStride_eq hs]
  have hrow := h.row
  rcases h.batches with rfl | ⟨rfl, hBN, -⟩
  · have hb0 : b = 0 := by omega
    subst hb0
    by_cases hm1 : m = 1
    · subst hm1
      have hr0 : r = 0 := by omega
      subst hr0
      rw [if_pos ⟨rfl, rfl⟩]
      ring
    · have houtside : s.outside = 1 := h.places.resolve_left hm1
      rw [if_neg fun he => hm1 he.1, houtside, ← hrow]
      ring
  · have hr0 : r = 0 := by omega
    subst hr0
    by_cases hB1 : B = 1
    · subst hB1
      have hb0 : b = 0 := by omega
      subst hb0
      rw [if_pos ⟨rfl, rfl⟩, ← hBN]
      ring
    · rw [if_neg fun he => hB1 he.2, ← hBN, ← hrow]
      ring

end Channels

end Mnn.Blit
