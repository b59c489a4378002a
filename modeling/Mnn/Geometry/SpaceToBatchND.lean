import Mathlib.Algebra.BigOperators.Group.List.Basic
import Mnn.Geometry.Command
import Mnn.Geometry.TensorArrayPieces
import Mnn.Shape.SpaceToBatchND

/-!
# `GeometrySpaceToBatchND`

The blocks of an image as batches, and back (`source/geometry/GeometrySpaceToBatchND.cpp`).

* `validStart`, `validEnd`, `region`, `onCompute`: the regions of both operators;
* `Reads`: which place of a block reads which place of the image;
* `address`, `OneDimension`: where an element is, and whether batches and channels are one
  dimension;
* `region_copies`: what a region copies;
* `Exact`: the blocks are the elements and zeros, and the way back gives the image;
* `Handled`, `spaceToBatch_iff`: **this is so exactly if the first places of all blocks agree and
  batches and channels are one dimension**.
-/

namespace Mnn.SpaceToBatch

open Shape Recompute

/-! ### Regions -/

/-- `validHStart` and `validWStart`, for offset `stride` in a block. -/
def validStart (b : Block) (stride : ℕ) : ℤ :=
  max 0 ((b.before - stride + b.block - 1 : ℤ).tdiv b.block)

/-- `validHEnd` and `validWEnd`. -/
def validEnd (b : Block) (inSize outSize stride : ℕ) : ℤ :=
  min outSize ((inSize + b.before - stride + b.block - 1 : ℤ).tdiv b.block)

/-- `inputStride` and `outputStride`: of batches, channels, rows and columns. -/
def strides (l : Layout) (height width channel : ℕ) : Fin 4 → ℤ :=
  match l with
  | .nchw => ![width * height * channel, width * height, width, 1]
  | .nhwc => ![width * height * channel, 1, width * channel, channel]

section Views

variable (l : Layout) (rows columns : Block) (input output : Extents) (r : ℕ)

def strideW : ℕ := r % columns.block

def strideH : ℕ := r / columns.block

def validHStart : ℤ := validStart rows (strideH columns r)

def validHEnd : ℤ := validEnd rows input.height output.height (strideH columns r)

def validWStart : ℤ := validStart columns (strideW columns r)

def validWEnd : ℤ := validEnd columns input.width output.width (strideW columns r)

/-- The part of the image; the columns begin where the rows do. -/
def inputView : View :=
  let inputStride := strides l input.height input.width output.channel
  let inHeightStart :=
    validHStart rows columns r * rows.block + strideH columns r - rows.before
  let inWidthStart :=
    validHStart rows columns r * columns.block + strideW columns r - columns.before
  { offset := inHeightStart * inputStride 2 + inWidthStart * inputStride 3
    stride := ![1 * inputStride 1, rows.block * inputStride 2, columns.block * inputStride 3] }

/-- The part of the blocks. -/
def outputView : View :=
  let outputStride := strides l output.height output.width output.channel
  { offset := outputStride 2 * validHStart rows columns r +
      outputStride 3 * validWStart columns r + r * input.batch * outputStride 0
    stride := ![outputStride 1, outputStride 2, outputStride 3] }

def size : Fin 3 → ℤ :=
  ![input.batch * output.channel,
    validHEnd rows columns input output r - validHStart rows columns r,
    validWEnd columns input output r - validWStart columns r]

/-- The region of `SpaceToBatchND`, and that of `BatchToSpaceND` between the same tensors. -/
def region (batchToSpace : Bool) : Region Ref where
  src := if batchToSpace then outputView l rows columns input output r
    else inputView l rows columns input output r
  dst := if batchToSpace then inputView l rows columns input output r
    else outputView l rows columns input output r
  size := size rows columns input output r
  origin := .input 0

end Views

/-- The regions from `input` to `output`; there are none if an extent of zero is divided by. -/
def onCompute (l : Layout) (batchToSpace : Bool) (blocks : List Block) (input output : Extents) :
    Option (List (Region Ref)) :=
  let rows := blocks.getD 0 ⟨1, 0, 0⟩
  let columns := blocks.getD 1 ⟨1, 0, 0⟩
  -- swap input and output
  let (input, output) := if batchToSpace then (output, input) else (input, output)
  if input.batch = 0 then none
  else some ((List.range (output.batch / input.batch)).map fun r =>
    region l rows columns input output r batchToSpace)

/-! ### Places of a block -/

/-- Place `y` of the blocks, at offset `s`, reads place `i` of a direction of length `size`. -/
structure Reads (b : Block) (size s y i : ℕ) : Prop where
  eq : i + b.before = y * b.block + s
  lt : i < size

section Axis

variable {b : Block} {size out s y i : ℕ}

theorem validStart_nonneg : 0 ≤ validStart b s := le_max_left _ _

theorem validStart_le_iff (hs : s < b.block) : validStart b s ≤ y ↔ b.before ≤ y * b.block + s := by
  have hpos : (0 : ℤ) < b.block := by omega
  have hquotient : (b.before - s + b.block - 1 : ℤ) / b.block ≤ y ↔
      (b.before - s + b.block - 1 : ℤ) < (y + 1) * b.block := by
    rw [← Int.lt_add_one_iff, Int.ediv_lt_iff_lt_mul hpos]
  rw [validStart, max_le_iff, Int.tdiv_eq_ediv_of_nonneg (by omega), hquotient, add_mul, one_mul]
  have hcast : ((y * b.block : ℕ) : ℤ) = y * b.block := Nat.cast_mul _ _
  omega

theorem lt_validEnd_iff (hs : s < b.block) (hout : size + b.before + b.behind = out * b.block) :
    (y : ℤ) < validEnd b size out s ↔ y * b.block + s < size + b.before := by
  have hpos : (0 : ℤ) < b.block := by omega
  rw [validEnd, lt_min_iff, Int.tdiv_eq_ediv_of_nonneg (by omega), ← Int.add_one_le_iff,
    ← Int.add_one_le_iff, Int.le_ediv_iff_mul_le hpos, add_mul, one_mul]
  have hcast : ((y * b.block : ℕ) : ℤ) = y * b.block := Nat.cast_mul _ _
  constructor
  · rintro ⟨-, hle⟩
    omega
  · intro hlt
    have hy : y < out := by
      by_contra hle
      have := Nat.mul_le_mul_right b.block (not_lt.1 hle)
      omega
    exact ⟨by omega, by omega⟩

/-- The places of the blocks that read the image. -/
theorem reads_iff (hs : s < b.block) (hout : size + b.before + b.behind = out * b.block) :
    (validStart b s ≤ y ∧ (y : ℤ) < validEnd b size out s) ↔ ∃ i, Reads b size s y i := by
  rw [validStart_le_iff hs, lt_validEnd_iff hs hout]
  constructor
  · rintro ⟨hle, hlt⟩
    exact ⟨y * b.block + s - b.before, by omega, by omega⟩
  · rintro ⟨i, heq, hlt⟩
    omega

theorem validStart_le_validEnd (hs : s < b.block)
    (hout : size + b.before + b.behind = out * b.block) :
    validStart b s ≤ validEnd b size out s := by
  have hend : 0 ≤ validEnd b size out s := by
    refine le_min (Int.natCast_nonneg out) ?_
    rw [Int.tdiv_eq_ediv_of_nonneg (by omega)]
    exact Int.ediv_nonneg (by omega) (Int.natCast_nonneg _)
  obtain ⟨y, hy⟩ := Int.eq_ofNat_of_zero_le hend
  by_contra hlt
  have hnot : ¬ (y : ℤ) < validEnd b size out s := by omega
  rw [lt_validEnd_iff hs hout] at hnot
  have hnot' : ¬ validStart b s ≤ y := by omega
  rw [validStart_le_iff hs] at hnot'
  omega

/-- A place of the image is read from the block that it is in. -/
theorem reads_div_mod (hi : i < size) :
    Reads b size ((i + b.before) % b.block) ((i + b.before) / b.block) i :=
  ⟨(Nat.div_add_mod' _ _).symm, hi⟩

theorem Reads.out_lt (h : Reads b size s y i) (hout : size + b.before + b.behind = out * b.block) :
    y < out := by
  obtain ⟨heq, hlt⟩ := h
  by_contra hle
  have := Nat.mul_le_mul_right b.block (not_lt.1 hle)
  omega

/-- The first place that reads the image is that of the first block. -/
theorem Reads.validStart_eq (h : Reads b size s y i) (hs : s < b.block) :
    validStart b s = ((i % b.block + b.before) / b.block : ℕ) := by
  have hmod : (i % b.block + b.before) % b.block = s := by
    rw [Nat.mod_add_mod, h.eq, Nat.mul_add_mod', Nat.mod_eq_of_lt hs]
  have hfirst := Nat.div_add_mod' (i % b.block + b.before) b.block
  have hlt := Nat.mod_lt i (Nat.zero_lt_of_lt hs)
  rw [hmod] at hfirst
  generalize (i % b.block + b.before) / b.block = first at hfirst ⊢
  refine le_antisymm ((validStart_le_iff hs).2 (by omega)) ?_
  obtain ⟨start, hstart⟩ := Int.eq_ofNat_of_zero_le (validStart_nonneg (b := b) (s := s))
  have hle := (validStart_le_iff hs).1 hstart.le
  rw [hstart]
  by_contra hnot
  have := Nat.mul_le_mul_right b.block (show start + 1 ≤ first by omega)
  rw [Nat.succ_mul] at this
  omega

end Axis

/-! ### Elements -/

/-- Where an element is. -/
def address (l : Layout) (e : Extents) (n c y x : ℕ) : ℕ :=
  match l with
  | .nchw => ((n * e.channel + c) * e.height + y) * e.width + x
  | .nhwc => ((n * e.height + y) * e.width + x) * e.channel + c

/-- An element of a tensor. -/
structure Within (e : Extents) (n c y x : ℕ) : Prop where
  batch : n < e.batch
  channel : c < e.channel
  row : y < e.height
  column : x < e.width

theorem mul_add_lt {m n a b : ℕ} (ha : a < m) (hb : b < n) : a * n + b < m * n := by
  calc a * n + b < a * n + n := Nat.add_lt_add_left hb _
    _ = (a + 1) * n := (Nat.succ_mul a n).symm
    _ ≤ m * n := Nat.mul_le_mul_right _ ha

section Address

variable {l : Layout} {e : Extents} {n c y x n' c' y' x' : ℕ}

theorem address_lt (h : Within e n c y x) :
    address l e n c y x < e.batch * e.channel * e.height * e.width := by
  obtain ⟨hn, hc, hy, hx⟩ := h
  cases l with
  | nchw => exact mul_add_lt (mul_add_lt (mul_add_lt hn hc) hy) hx
  | nhwc =>
    refine (mul_add_lt (mul_add_lt (mul_add_lt hn hy) hx) hc).trans_eq ?_
    rw [Nat.mul_right_comm _ e.width, Nat.mul_right_comm _ e.height]

theorem address_injective (h : Within e n c y x) (h' : Within e n' c' y' x')
    (heq : address l e n c y x = address l e n' c' y' x') : n = n' ∧ c = c' ∧ y = y' ∧ x = x' := by
  obtain ⟨hn, hc, hy, hx⟩ := h
  obtain ⟨hn', hc', hy', hx'⟩ := h'
  cases l with
  | nchw =>
    obtain ⟨hrow, rfl⟩ := TensorArray.euclid_unique hx hx' heq
    obtain ⟨hchannel, rfl⟩ := TensorArray.euclid_unique hy hy' hrow
    obtain ⟨rfl, rfl⟩ := TensorArray.euclid_unique hc hc' hchannel
    exact ⟨rfl, rfl, rfl, rfl⟩
  | nhwc =>
    obtain ⟨hcolumn, rfl⟩ := TensorArray.euclid_unique hc hc' heq
    obtain ⟨hrow, rfl⟩ := TensorArray.euclid_unique hx hx' hcolumn
    obtain ⟨rfl, rfl⟩ := TensorArray.euclid_unique hy hy' hrow
    exact ⟨rfl, rfl, rfl, rfl⟩

end Address

/-! ### What a region copies -/

/-- The two directions of a valid block shape. -/
structure Valid (rows columns : Block) (input : Extents) : Prop where
  rows_pos : 0 < rows.block
  columns_pos : 0 < columns.block
  height : rows.block ∣ input.height + rows.before + rows.behind
  width : columns.block ∣ input.width + columns.before + columns.behind

section Region

variable {l : Layout} {rows columns : Block} {input : Extents} {r : ℕ}

theorem strideH_lt (hr : r < rows.block * columns.block) : strideH columns r < rows.block :=
  Nat.div_lt_of_lt_mul (by rwa [Nat.mul_comm])

namespace Valid

variable (h : Valid rows columns input)

include h

theorem out_height : input.height + rows.before + rows.behind =
    (input.blocked rows columns).height * rows.block :=
  (Nat.div_mul_cancel h.height).symm

theorem out_width : input.width + columns.before + columns.behind =
    (input.blocked rows columns).width * columns.block :=
  (Nat.div_mul_cancel h.width).symm

theorem strideW_lt : strideW columns r < columns.block := Nat.mod_lt _ h.columns_pos

end Valid

theorem region_swap {output : Extents} {s o : ℤ} :
    (region l rows columns input output r true).Copies s o ↔
      (region l rows columns input output r false).Copies o s :=
  exists_congr fun _ => and_congr_right fun _ => and_comm

/-- By how many columns the part of the image is shifted. -/
def slip (rows columns : Block) (r : ℕ) : ℤ :=
  (validHStart rows columns r - validWStart columns r) * columns.block

/-- **What a region copies.** -/
theorem region_copies (h : Valid rows columns input) (hr : r < rows.block * columns.block)
    {s o : ℤ} :
    (region l rows columns input (input.blocked rows columns) r false).Copies s o ↔
      ∃ z y i x j, z < input.batch * input.channel ∧
        Reads rows input.height (strideH columns r) y i ∧
        Reads columns input.width (strideW columns r) x j ∧
        s = z * strides l input.height input.width input.channel 1 +
          i * strides l input.height input.width input.channel 2 +
          (j + slip rows columns r) * strides l input.height input.width input.channel 3 ∧
        o = r * input.batch * strides l (input.blocked rows columns).height
            (input.blocked rows columns).width input.channel 0 +
          z * strides l (input.blocked rows columns).height (input.blocked rows columns).width
            input.channel 1 +
          y * strides l (input.blocked rows columns).height (input.blocked rows columns).width
            input.channel 2 +
          x * strides l (input.blocked rows columns).height (input.blocked rows columns).width
            input.channel 3 := by
  have hH := strideH_lt hr
  have hW := h.strideW_lt (r := r)
  have hcast : ∀ {b : Block} {size s y i : ℕ}, Reads b size s y i →
      (i : ℤ) = y * b.block + s - b.before := by
    intro b size s y i hreads
    have heq := congrArg (Nat.cast : ℕ → ℤ) hreads.eq
    push_cast at heq
    omega
  have hchannel : (input.blocked rows columns).channel = input.channel := rfl
  simp only [Region.Copies, region, size, inputView, outputView, exists_box, View.address,
    Matrix.cons_val, if_neg Bool.false_ne_true, hchannel]
  constructor
  · rintro ⟨z, u, v, ⟨hz, hz'⟩, hu, hv, rfl, rfl⟩
    obtain ⟨z, rfl⟩ := Int.eq_ofNat_of_zero_le hz
    obtain ⟨y, hy⟩ := Int.eq_ofNat_of_zero_le
      (add_nonneg (validStart_nonneg (b := rows) (s := strideH columns r)) hu.1)
    obtain ⟨x, hx⟩ := Int.eq_ofNat_of_zero_le
      (add_nonneg (validStart_nonneg (b := columns) (s := strideW columns r)) hv.1)
    rw [← validHStart] at hy
    rw [← validWStart] at hx
    obtain ⟨i, hi⟩ := (reads_iff hH h.out_height).1
      ⟨show validHStart rows columns r ≤ y by omega, show (y : ℤ) < validHEnd _ _ _ _ _ by omega⟩
    obtain ⟨j, hj⟩ := (reads_iff hW h.out_width).1
      ⟨show validWStart columns r ≤ x by omega, show (x : ℤ) < validWEnd _ _ _ _ by omega⟩
    obtain rfl : u = y - validHStart rows columns r := by omega
    obtain rfl : v = x - validWStart columns r := by omega
    refine ⟨z, y, i, x, j, by exact_mod_cast hz', hi, hj, ?_, ?_⟩
    · rw [hcast hi, hcast hj, slip]
      ring
    · ring
  · rintro ⟨z, y, i, x, j, hz, hi, hj, rfl, rfl⟩
    obtain ⟨hy, hy'⟩ := (reads_iff hH h.out_height).2 ⟨i, hi⟩
    obtain ⟨hx, hx'⟩ := (reads_iff hW h.out_width).2 ⟨j, hj⟩
    refine ⟨z, y - validHStart rows columns r, x - validWStart columns r,
      ⟨Int.natCast_nonneg z, by exact_mod_cast hz⟩, ⟨sub_nonneg.2 hy, sub_lt_sub_right hy' _⟩,
      ⟨sub_nonneg.2 hx, sub_lt_sub_right hx' _⟩, ?_, ?_⟩
    · rw [hcast hi, hcast hj, slip]
      ring
    · ring

end Region

/-! ### The blocks -/

/-- The first places of all blocks that read the image agree. -/
def SameStart (rows columns : Block) (input : Extents) : Prop :=
  ∀ i j, i < rows.block → i < input.height → j < columns.block → j < input.width →
    (i + rows.before) / rows.block = (j + columns.before) / columns.block

/-- Batches and channels are one dimension. -/
def OneDimension (l : Layout) (rows columns : Block) (input : Extents) : Prop :=
  l = .nhwc → input.batch ≤ 1 ∨ input.height * input.width = 0 ∨
    input.height * input.width = 1 ∧
      (input.blocked rows columns).height * (input.blocked rows columns).width = 1

section Addresses

variable {l : Layout} {rows columns : Block} {input : Extents} {n c i j : ℕ}

theorem eq_zero_of_mul_eq_one {a b x : ℕ} (h : a * b = 1) (hx : x < a) : x = 0 := by
  have := Nat.eq_one_of_mul_eq_one_right h
  omega

theorem input_address (hone : OneDimension l rows columns input) (h : Within input n c i j) :
    (address l input n c i j : ℤ) =
      (n * input.channel + c : ℕ) * strides l input.height input.width input.channel 1 +
        i * strides l input.height input.width input.channel 2 +
        j * strides l input.height input.width input.channel 3 := by
  obtain ⟨hn, hc, hi, hj⟩ := h
  cases l with
  | nchw =>
    simp only [address, strides, Matrix.cons_val]
    push_cast
    ring
  | nhwc =>
    simp only [address, strides, Matrix.cons_val]
    have hplane : n * (input.height * input.width) = n := by
      rcases hone rfl with hbatch | hzero | ⟨hplane, -⟩
      · rw [show n = 0 by omega, Nat.zero_mul]
      · rcases Nat.mul_eq_zero.1 hzero with h | h <;> omega
      · rw [hplane, Nat.mul_one]
    have hplane' := congrArg (Nat.cast : ℕ → ℤ) hplane
    push_cast at hplane' ⊢
    linear_combination (input.channel : ℤ) * hplane'

theorem output_address {r y x : ℕ} (hone : OneDimension l rows columns input)
    (h : Within input n c i j) :
    (address l (input.blocked rows columns) (r * input.batch + n) c y x : ℤ) =
      r * input.batch * strides l (input.blocked rows columns).height
          (input.blocked rows columns).width input.channel 0 +
        (n * input.channel + c : ℕ) * strides l (input.blocked rows columns).height
          (input.blocked rows columns).width input.channel 1 +
        y * strides l (input.blocked rows columns).height (input.blocked rows columns).width
          input.channel 2 +
        x * strides l (input.blocked rows columns).height (input.blocked rows columns).width
          input.channel 3 := by
  obtain ⟨hn, hc, hi, hj⟩ := h
  have hchannel : (input.blocked rows columns).channel = input.channel := rfl
  cases l with
  | nchw =>
    simp only [address, strides, Matrix.cons_val, hchannel]
    push_cast
    ring
  | nhwc =>
    simp only [address, strides, Matrix.cons_val, hchannel]
    have hplane : n * ((input.blocked rows columns).height *
        (input.blocked rows columns).width) = n := by
      rcases hone rfl with hbatch | hzero | ⟨-, hplane⟩
      · rw [show n = 0 by omega, Nat.zero_mul]
      · rcases Nat.mul_eq_zero.1 hzero with h | h <;> omega
      · rw [hplane, Nat.mul_one]
    have hplane' := congrArg (Nat.cast : ℕ → ℤ) hplane
    push_cast at hplane' ⊢
    linear_combination (input.channel : ℤ) * hplane'

end Addresses

section Copies

variable {l : Layout} {rows columns : Block} {input : Extents} {r : ℕ}

/-- **A region copies the elements of its block.** -/
theorem copies_iff (h : Valid rows columns input) (hr : r < rows.block * columns.block)
    (hstart : SameStart rows columns input) (hone : OneDimension l rows columns input) {s o : ℤ} :
    (region l rows columns input (input.blocked rows columns) r false).Copies s o ↔
      ∃ n c y i x j, Within input n c i j ∧
        Reads rows input.height (strideH columns r) y i ∧
        Reads columns input.width (strideW columns r) x j ∧
        s = address l input n c i j ∧
        o = address l (input.blocked rows columns) (r * input.batch + n) c y x := by
  have hH := strideH_lt hr
  have hW := h.strideW_lt (r := r)
  have hslip : ∀ {y i x j : ℕ}, Reads rows input.height (strideH columns r) y i →
      Reads columns input.width (strideW columns r) x j → slip rows columns r = 0 := by
    intro y i x j hi hj
    have hi' := Nat.mod_lt i h.rows_pos
    have hj' := Nat.mod_lt j h.columns_pos
    rw [slip, validHStart, validWStart, hi.validStart_eq hH, hj.validStart_eq hW,
      hstart _ _ hi' ((Nat.mod_le _ _).trans_lt hi.lt) hj' ((Nat.mod_le _ _).trans_lt hj.lt),
      sub_self, zero_mul]
  rw [region_copies h hr]
  constructor
  · rintro ⟨z, y, i, x, j, hz, hi, hj, hs, ho⟩
    have hchannel : 0 < input.channel := Nat.pos_of_ne_zero fun h0 => by simp [h0] at hz
    have hwithin : Within input (z / input.channel) (z % input.channel) i j :=
      ⟨Nat.div_lt_of_lt_mul (by rwa [Nat.mul_comm]), Nat.mod_lt _ hchannel, hi.lt, hj.lt⟩
    refine ⟨_, _, y, i, x, j, hwithin, hi, hj, ?_, ?_⟩
    · rw [hs, hslip hi hj, add_zero, input_address hone hwithin, Nat.div_add_mod']
    · rw [ho, output_address hone hwithin,
        Nat.div_add_mod']
  · rintro ⟨n, c, y, i, x, j, hwithin, hi, hj, hs, ho⟩
    refine ⟨n * input.channel + c, y, i, x, j, mul_add_lt hwithin.batch hwithin.channel, hi, hj,
      ?_, ?_⟩
    · rw [hs, hslip hi hj, add_zero, input_address hone hwithin]
    · rw [ho, output_address hone hwithin]

end Copies

/-! ### Both operators -/

/-- The blocks are the elements of the image, and zeros; the way back gives the image; nothing else
is read or written. -/
structure Moves (V : Type*) [Zero V] (l : Layout) (rows columns : Block)
    (input output : Extents) (forth back : List (Region Ref)) : Prop where
  element : ∀ (value : Ref → ℤ → V) (r n c y i x j : ℕ), r < rows.block * columns.block →
    Within input n c i j → Reads rows input.height (strideH columns r) y i →
    Reads columns input.width (strideW columns r) x j →
    raster forth value (address l output (r * input.batch + n) c y x) =
      value (.input 0) (address l input n c i j)
  zero : ∀ (value : Ref → ℤ → V) (r n c y x : ℕ), r < rows.block * columns.block →
    n < input.batch → Within output (r * input.batch + n) c y x →
    (∀ i j, Reads rows input.height (strideH columns r) y i →
      ¬ Reads columns input.width (strideW columns r) x j) →
    raster forth value (address l output (r * input.batch + n) c y x) = 0
  inverse : ∀ (value : Ref → ℤ → V) (n c i j : ℕ), Within input n c i j →
    raster back (fun _ => raster forth value) (address l input n c i j) =
      value (.input 0) (address l input n c i j)
  inside : ∀ reg ∈ forth, ∀ s o, reg.Copies s o → (0 ≤ s ∧ s < (input.lengths l).prod) ∧
    0 ≤ o ∧ o < (output.lengths l).prod
  inside_back : ∀ reg ∈ back, ∀ s o, reg.Copies s o → (0 ≤ s ∧ s < (output.lengths l).prod) ∧
    0 ≤ o ∧ o < (input.lengths l).prod
  size_nonneg : ∀ reg ∈ forth ++ back, ∀ k, 0 ≤ reg.size k

/-- Both size computers set the extents, and the regions between such tensors move the blocks. -/
def Exact (V : Type*) [Zero V] (l : Layout) (blocks : List Block) (input : Extents) : Prop :=
  ∃ output forth back,
    (SpaceToBatchND.onComputeSize l blocks input).shape = some (output.lengths l) ∧
    onCompute l false blocks input output = some forth ∧
    (BatchToSpaceND.onComputeSize l blocks output).shape = some (input.lengths l) ∧
    onCompute l true blocks output input = some back ∧
    Moves V l (blocks.getD 0 ⟨1, 0, 0⟩) (blocks.getD 1 ⟨1, 0, 0⟩) input output forth back

/-- There are two directions and a batch, and what a single region can do suffices. -/
def Handled (l : Layout) (blocks : List Block) (input : Extents) : Prop :=
  ∃ rows columns, blocks = [rows, columns] ∧ 0 < input.batch ∧
    (input.channel = 0 ∨ SameStart rows columns input ∧ OneDimension l rows columns input)

section Moves

variable {V : Type*} [Zero V] {l : Layout} {rows columns : Block} {input : Extents}

/-- The regions from the image to the blocks, or back. -/
def regions (l : Layout) (rows columns : Block) (input : Extents) (batchToSpace : Bool) :
    List (Region Ref) :=
  (List.range (rows.block * columns.block)).map fun r =>
    region l rows columns input (input.blocked rows columns) r batchToSpace

theorem onCompute_forth (hbatch : 0 < input.batch) :
    onCompute l false [rows, columns] input (input.blocked rows columns) =
      some (regions l rows columns input false) := by
  have hcount : (input.blocked rows columns).batch / input.batch = rows.block * columns.block := by
    rw [Extents.blocked, Nat.mul_assoc, Nat.mul_div_cancel_left _ hbatch]
  rw [onCompute, regions, ← hcount]
  exact if_neg hbatch.ne'

theorem onCompute_back (hbatch : 0 < input.batch) :
    onCompute l true [rows, columns] (input.blocked rows columns) input =
      some (regions l rows columns input true) := by
  have hcount : (input.blocked rows columns).batch / input.batch = rows.block * columns.block := by
    rw [Extents.blocked, Nat.mul_assoc, Nat.mul_div_cancel_left _ hbatch]
  rw [onCompute, regions, ← hcount]
  exact if_neg hbatch.ne'

theorem lengths_prod (e : Extents) :
    (e.lengths l).prod = (e.batch * e.channel * e.height * e.width : ℕ) := by
  cases l <;> simp only [Extents.lengths, List.prod_cons, List.prod_nil] <;> push_cast <;> ring

variable (h : Valid rows columns input)

include h

/-- The sizes are not negative, whatever the parts begin with. -/
theorem size_nonneg {r : ℕ} (hr : r < rows.block * columns.block) {batchToSpace : Bool}
    (k : Fin 3) :
    0 ≤ (region l rows columns input (input.blocked rows columns) r batchToSpace).size k := by
  have hH := validStart_le_validEnd (strideH_lt hr) h.out_height
  have hW := validStart_le_validEnd (h.strideW_lt (r := r)) h.out_width
  fin_cases k
  · exact mul_nonneg (Int.natCast_nonneg _) (Int.natCast_nonneg _)
  · exact sub_nonneg.2 hH
  · exact sub_nonneg.2 hW

/-- The block that an element of the image is in. -/
def blockOf (rows columns : Block) (i j : ℕ) : ℕ :=
  (i + rows.before) % rows.block * columns.block + (j + columns.before) % columns.block

theorem blockOf_lt {i j : ℕ} : blockOf rows columns i j < rows.block * columns.block :=
  mul_add_lt (Nat.mod_lt _ h.rows_pos) (Nat.mod_lt _ h.columns_pos)

theorem strideH_blockOf {i j : ℕ} :
    strideH columns (blockOf rows columns i j) = (i + rows.before) % rows.block := by
  rw [strideH, blockOf, Nat.mul_comm, Nat.mul_add_div h.columns_pos,
    Nat.div_eq_of_lt (Nat.mod_lt _ h.columns_pos), Nat.add_zero]

omit h in
theorem strideW_blockOf {i j : ℕ} :
    strideW columns (blockOf rows columns i j) = (j + columns.before) % columns.block := by
  rw [strideW, blockOf, Nat.mul_add_mod', Nat.mod_mod]

theorem exists_reads {n c i j : ℕ} (hin : Within input n c i j) :
    ∃ r y x, r < rows.block * columns.block ∧
      Reads rows input.height (strideH columns r) y i ∧
      Reads columns input.width (strideW columns r) x j := by
  refine ⟨blockOf rows columns i j, (i + rows.before) / rows.block,
    (j + columns.before) / columns.block, blockOf_lt h, ?_, ?_⟩
  · rw [strideH_blockOf h]
    exact reads_div_mod hin.row
  · rw [strideW_blockOf]
    exact reads_div_mod hin.column

omit h in
theorem Reads.index_unique {b : Block} {size s y i i' : ℕ} (hi : Reads b size s y i)
    (hi' : Reads b size s y i') : i = i' :=
  Nat.add_right_cancel (hi.eq.trans hi'.eq.symm)

/-- Where an element of the image is in the blocks. -/
theorem within_blocked {r n c y i x j : ℕ} (hr : r < rows.block * columns.block)
    (hin : Within input n c i j) (hi : Reads rows input.height (strideH columns r) y i)
    (hj : Reads columns input.width (strideW columns r) x j) :
    Within (input.blocked rows columns) (r * input.batch + n) c y x where
  batch := by
    show _ < input.batch * rows.block * columns.block
    rw [Nat.mul_assoc, Nat.mul_comm input.batch]
    exact mul_add_lt hr hin.batch
  channel := hin.channel
  row := hi.out_lt h.out_height
  column := hj.out_lt h.out_width

omit h in
theorem mem_regions {batchToSpace : Bool} {reg : Region Ref} :
    reg ∈ regions l rows columns input batchToSpace ↔ ∃ r < rows.block * columns.block,
      region l rows columns input (input.blocked rows columns) r batchToSpace = reg := by
  simp only [regions, List.mem_map, List.mem_range]

theorem size_nonneg_of_mem :
    ∀ reg ∈ regions l rows columns input false ++ regions l rows columns input true,
      ∀ k, 0 ≤ reg.size k := by
  intro reg hreg k
  rcases List.mem_append.1 hreg with hmem | hmem
  · obtain ⟨r, hr, rfl⟩ := mem_regions.1 hmem
    exact size_nonneg h hr k
  · obtain ⟨r, hr, rfl⟩ := mem_regions.1 hmem
    exact size_nonneg h hr k

/-- A copy to a place of the blocks comes from the element that the place reads. -/
theorem copies_place (hstart : SameStart rows columns input)
    (hone : OneDimension l rows columns input) {r n c y x : ℕ} (hn : n < input.batch)
    (hplace : Within (input.blocked rows columns) (r * input.batch + n) c y x) {reg : Region Ref}
    (hreg : reg ∈ regions l rows columns input false) {s : ℤ}
    (hcopies : reg.Copies s (address l (input.blocked rows columns) (r * input.batch + n) c y x)) :
    reg.origin = .input 0 ∧ ∃ i j, Within input n c i j ∧
      Reads rows input.height (strideH columns r) y i ∧
      Reads columns input.width (strideW columns r) x j ∧ s = address l input n c i j := by
  obtain ⟨r', hr', rfl⟩ := mem_regions.1 hreg
  obtain ⟨n', c', y', i, x', j, hin, hi, hj, rfl, ho⟩ :=
    (copies_iff h hr' hstart hone).1 hcopies
  obtain ⟨hbatch, rfl, rfl, rfl⟩ :=
    address_injective hplace (within_blocked h hr' hin hi hj) (Int.ofNat_inj.1 ho)
  obtain ⟨rfl, rfl⟩ := TensorArray.euclid_unique hn hin.batch hbatch
  exact ⟨rfl, i, j, hin, hi, hj, rfl⟩

/-- A place that reads an element holds it. -/
theorem raster_element (hstart : SameStart rows columns input)
    (hone : OneDimension l rows columns input) (value : Ref → ℤ → V) {r n c y i x j : ℕ}
    (hr : r < rows.block * columns.block) (hin : Within input n c i j)
    (hi : Reads rows input.height (strideH columns r) y i)
    (hj : Reads columns input.width (strideW columns r) x j) :
    raster (regions l rows columns input false) value
        (address l (input.blocked rows columns) (r * input.batch + n) c y x) =
      value (.input 0) (address l input n c i j) := by
  refine raster_of_agree ⟨_, mem_regions.2 ⟨r, hr, rfl⟩, _, (copies_iff h hr hstart hone).2
    ⟨n, c, y, i, x, j, hin, hi, hj, rfl, rfl⟩⟩ fun reg hreg s hs => ?_
  obtain ⟨horigin, i', j', -, hi', hj', rfl⟩ := copies_place h hstart hone hin.batch
    (within_blocked h hr hin hi hj) hreg hs
  rw [horigin, hi.index_unique hi', hj.index_unique hj']

/-- **Blocks that agree are moved exactly.** -/
theorem moves_of_sameStart (hstart : SameStart rows columns input)
    (hone : OneDimension l rows columns input) :
    Moves V l rows columns input (input.blocked rows columns)
      (regions l rows columns input false) (regions l rows columns input true) where
  element value r n c y i x j hr hin hi hj :=
    raster_element h hstart hone value hr hin hi hj
  zero value r n c y x hr hn hplace hnone := by
    refine foldl_copy_of_not_copies _ _ _ fun reg hreg s hs => ?_
    obtain ⟨-, i, j, -, hi, hj, -⟩ := copies_place h hstart hone hn hplace hreg hs
    exact hnone i j hi hj
  inverse value n c i j hin := by
    obtain ⟨r, y, x, hr, hi, hj⟩ := exists_reads h hin
    refine raster_of_agree ⟨_, mem_regions.2 ⟨r, hr, rfl⟩, _, region_swap.2
      ((copies_iff h hr hstart hone).2 ⟨n, c, y, i, x, j, hin, hi, hj, rfl, rfl⟩)⟩
      fun reg hreg s hs => ?_
    obtain ⟨r', hr', rfl⟩ := mem_regions.1 hreg
    obtain ⟨n', c', y', i', x', j', hin', hi', hj', hs', rfl⟩ :=
      (copies_iff h hr' hstart hone).1 (region_swap.1 hs)
    obtain ⟨rfl, rfl, rfl, rfl⟩ := address_injective hin hin' (Int.ofNat_inj.1 hs')
    exact raster_element h hstart hone value hr' hin hi' hj'
  inside reg hreg s o hcopies := by
    obtain ⟨r, hr, rfl⟩ := mem_regions.1 hreg
    obtain ⟨n, c, y, i, x, j, hin, hi, hj, rfl, rfl⟩ := (copies_iff h hr hstart hone).1 hcopies
    rw [lengths_prod, lengths_prod]
    exact ⟨⟨Int.natCast_nonneg _, by exact_mod_cast address_lt hin⟩, Int.natCast_nonneg _,
      by exact_mod_cast address_lt (within_blocked h hr hin hi hj)⟩
  inside_back reg hreg s o hcopies := by
    obtain ⟨r, hr, rfl⟩ := mem_regions.1 hreg
    obtain ⟨n, c, y, i, x, j, hin, hi, hj, rfl, rfl⟩ :=
      (copies_iff h hr hstart hone).1 (region_swap.1 hcopies)
    rw [lengths_prod, lengths_prod]
    exact ⟨⟨Int.natCast_nonneg _, by exact_mod_cast address_lt (within_blocked h hr hin hi hj)⟩,
      Int.natCast_nonneg _, by exact_mod_cast address_lt hin⟩
  size_nonneg := size_nonneg_of_mem h

/-- Without channels nothing is moved, and there is nothing to move. -/
theorem moves_of_channel (hchannel : input.channel = 0) :
    Moves V l rows columns input (input.blocked rows columns)
      (regions l rows columns input false) (regions l rows columns input true) := by
  have hnone : ∀ {e : Extents} {n c y x : ℕ}, e.channel = 0 → ¬ Within e n c y x :=
    fun he hin => absurd (he ▸ hin.channel) (Nat.not_lt_zero _)
  have hcopies : ∀ {r : ℕ}, r < rows.block * columns.block → ∀ s o,
      ¬ (region l rows columns input (input.blocked rows columns) r false).Copies s o := by
    intro r hr s o hcopies
    obtain ⟨z, _, _, _, _, hz, -⟩ := (region_copies h hr).1 hcopies
    rw [hchannel, Nat.mul_zero] at hz
    exact Nat.not_lt_zero z hz
  refine ⟨fun value r n c y i x j _ hin => absurd hin (hnone hchannel),
    fun value r n c y x _ _ hplace => absurd hplace (hnone hchannel),
    fun value n c i j hin => absurd hin (hnone hchannel), fun reg hreg s o hs => ?_,
    fun reg hreg s o hs => ?_, size_nonneg_of_mem h⟩
  · obtain ⟨r, hr, rfl⟩ := mem_regions.1 hreg
    exact absurd hs (hcopies hr s o)
  · obtain ⟨r, hr, rfl⟩ := mem_regions.1 hreg
    exact absurd (region_swap.1 hs) (hcopies hr o s)

/-! ### What exact regions require -/

variable [Nontrivial V]
  (hmoves : Moves V l rows columns input (input.blocked rows columns)
    (regions l rows columns input false) (regions l rows columns input true))

include hmoves

omit h in
/-- An element is copied to where it belongs. -/
theorem exists_copy {r n c y i x j : ℕ} (hr : r < rows.block * columns.block)
    (hin : Within input n c i j) (hi : Reads rows input.height (strideH columns r) y i)
    (hj : Reads columns input.width (strideW columns r) x j) :
    ∃ r' < rows.block * columns.block,
      (region l rows columns input (input.blocked rows columns) r' false).Copies
        (address l input n c i j)
        (address l (input.blocked rows columns) (r * input.batch + n) c y x) := by
  obtain ⟨reg, hreg, hcopies⟩ := exists_copies_of_raster fun value =>
    hmoves.element value r n c y i x j hr hin hi hj
  obtain ⟨r', hr', rfl⟩ := mem_regions.1 hreg
  exact ⟨r', hr', hcopies⟩

/-- If a block is one dimension in the regions too, the part of the image is not shifted. -/
theorem slip_eq_zero (hunit : l = .nhwc → input.batch = 1) {r n c y i x j : ℕ}
    (hr : r < rows.block * columns.block) (hin : Within input n c i j)
    (hi : Reads rows input.height (strideH columns r) y i)
    (hj : Reads columns input.width (strideW columns r) x j) : slip rows columns r = 0 := by
  obtain ⟨r', hr', hcopies⟩ := exists_copy hmoves hr hin hi hj
  obtain ⟨z, y', i', x', j', hz, hi', hj', hs, ho⟩ := (region_copies h hr').1 hcopies
  have hy := hi.out_lt h.out_height
  have hx := hj.out_lt h.out_width
  have hy' := hi'.out_lt h.out_height
  have hx' := hj'.out_lt h.out_width
  cases l with
  | nchw =>
    simp only [address, strides, Matrix.cons_val] at hs ho
    have hplace : (((r * input.batch + n) * input.channel + c) *
        (input.blocked rows columns).height + y) * (input.blocked rows columns).width + x =
        ((r' * input.batch * input.channel + z) * (input.blocked rows columns).height + y') *
          (input.blocked rows columns).width + x' := by
      zify
      refine Eq.trans ?_ (ho.trans ?_)
      · push_cast
        rfl
      · ring
    obtain ⟨hrow, rfl⟩ := TensorArray.euclid_unique hx hx' hplace
    obtain ⟨hchannel, rfl⟩ := TensorArray.euclid_unique hy hy' hrow
    have hblock : r * (input.batch * input.channel) + (n * input.channel + c) =
        r' * (input.batch * input.channel) + z := by
      rw [← Nat.mul_assoc, ← Nat.mul_assoc, ← Nat.add_assoc, ← Nat.add_mul]
      exact hchannel
    obtain ⟨rfl, rfl⟩ :=
      TensorArray.euclid_unique (mul_add_lt hin.batch hin.channel) hz hblock
    obtain rfl := hi.index_unique hi'
    obtain rfl := hj.index_unique hj'
    push_cast at hs
    linarith
  | nhwc =>
    simp only [address, strides, Matrix.cons_val] at hs ho
    have hbatch := hunit rfl
    have hn : n = 0 := by
      have := hin.batch
      omega
    rw [hbatch, Nat.one_mul] at hz
    have hplace : ((r * (input.blocked rows columns).height + y) *
        (input.blocked rows columns).width + x) * input.channel + c =
        ((r' * (input.blocked rows columns).height + y') *
          (input.blocked rows columns).width + x') * input.channel + z := by
      zify
      rw [hbatch, hn, Nat.mul_one, Nat.add_zero] at ho
      refine Eq.trans ?_ (ho.trans ?_)
      · push_cast
        rfl
      · push_cast
        ring
    obtain ⟨hcolumn, rfl⟩ := TensorArray.euclid_unique hin.channel hz hplace
    obtain ⟨hrow, rfl⟩ := TensorArray.euclid_unique hx hx' hcolumn
    obtain ⟨rfl, rfl⟩ := TensorArray.euclid_unique hy hy' hrow
    obtain rfl := hi.index_unique hi'
    obtain rfl := hj.index_unique hj'
    have hchannel : (input.channel : ℤ) ≠ 0 := by
      have := hin.channel
      omega
    refine (mul_eq_zero.1 (?_ : slip rows columns r * input.channel = 0)).resolve_right hchannel
    rw [hn] at hs
    push_cast at hs
    linarith

/-- The regions of several batches overlap unless a batch is a single place. -/
theorem plane_eq_one (hnhwc : l = .nhwc) (hbatch : 2 ≤ input.batch) (hchannel : 0 < input.channel)
    (hheight : 0 < input.height) (hwidth : 0 < input.width) :
    input.height * input.width = 1 ∧
      (input.blocked rows columns).height * (input.blocked rows columns).width = 1 := by
  subst hnhwc
  -- the last element of the last batch
  have hin : Within input (input.batch - 1) 0 (input.height - 1) (input.width - 1) :=
    ⟨by omega, hchannel, by omega, by omega⟩
  obtain ⟨r, y, x, hr, hi, hj⟩ := exists_reads h hin
  obtain ⟨r', hr', hcopies⟩ := exists_copy hmoves hr hin hi hj
  obtain ⟨z, y', i', x', j', hz, hi', hj', hs, ho⟩ := (region_copies h hr').1 hcopies
  have hy := hi.out_lt h.out_height
  have hx := hj.out_lt h.out_width
  have hy' := hi'.out_lt h.out_height
  have hx' := hj'.out_lt h.out_width
  have hsame : (input.blocked rows columns).channel = input.channel := rfl
  simp only [address, strides, Matrix.cons_val, hsame] at hs ho
  generalize hK : (input.blocked rows columns).height = K at ho hy hy' ⊢
  generalize hL : (input.blocked rows columns).width = L at ho hx hx' ⊢
  have hplane : 0 < K * L := Nat.mul_pos (Nat.zero_lt_of_lt hy) (Nat.zero_lt_of_lt hx)
  have hplace := mul_add_lt hy hx
  have hplace' := mul_add_lt hy' hx'
  have hlast : (input.batch - 1) * (K * L) + (y * L + x) < input.batch * (K * L) :=
    mul_add_lt (by omega) hplace
  have hspread : z + (y' * L + x') * input.channel < input.batch * (K * L) * input.channel := by
    obtain ⟨b, hb⟩ : ∃ b, input.batch = b + 1 := ⟨input.batch - 1, by omega⟩
    have hrows : b + (y' * L + x') < input.batch * (K * L) := by
      rw [hb, Nat.succ_mul]
      have := Nat.le_mul_of_pos_right b hplane
      omega
    calc z + (y' * L + x') * input.channel
        < input.batch * input.channel + (y' * L + x') * input.channel := Nat.add_lt_add_right hz _
      _ = (b + (y' * L + x') + 1) * input.channel := by rw [hb]; ring
      _ ≤ input.batch * (K * L) * input.channel := Nat.mul_le_mul_right _ hrows
  have hblock : r * (input.batch * (K * L) * input.channel) +
      ((input.batch - 1) * (K * L) + (y * L + x)) * input.channel =
      r' * (input.batch * (K * L) * input.channel) +
        (z + (y' * L + x') * input.channel) := by
    zify
    refine Eq.trans ?_ (ho.trans ?_)
    · push_cast
      ring
    · ring
  obtain ⟨rfl, hrest⟩ := TensorArray.euclid_unique
    (Nat.mul_lt_mul_of_pos_right hlast hchannel) hspread hblock
  have hle : ∀ {b : Block} {size s u u' a : ℕ}, s < b.block → Reads b size s u (size - 1) →
      Reads b size s u' a → u' ≤ u := by
    intro b size s u u' a hsb hu hu'
    refine Nat.le_of_mul_le_mul_right ?_ (Nat.zero_lt_of_lt hsb)
    have := hu.eq
    have := hu'.eq
    have := hu'.lt
    omega
  have hya := hle (strideH_lt hr) hi hi'
  have hxa := hle h.strideW_lt hj hj'
  have hone : K * L = 1 := by
    have hrow : y' * L + x' ≤ y * L + x := Nat.add_le_add (Nat.mul_le_mul_right _ hya) hxa
    have hz' : (input.batch - 1) * (K * L) * input.channel < input.batch * input.channel := by
      have := Nat.mul_le_mul_right input.channel hrow
      rw [Nat.add_mul] at hrest
      omega
    have hlt := Nat.lt_of_mul_lt_mul_right hz'
    by_contra hne
    have : (input.batch - 1) * 2 ≤ (input.batch - 1) * (K * L) :=
      Nat.mul_le_mul_left _ (by omega)
    omega
  refine ⟨?_, hone⟩
  have hK1 := Nat.eq_one_of_mul_eq_one_right hone
  have hL1 := Nat.eq_one_of_mul_eq_one_left hone
  have hzero : y = 0 ∧ x = 0 ∧ y' = 0 ∧ x' = 0 := by omega
  obtain ⟨rfl, rfl, rfl, rfl⟩ := hzero
  obtain rfl := hi.index_unique hi'
  obtain rfl := hj.index_unique hj'
  have hslip : slip rows columns r = 0 := by
    have hH := ((reads_iff (strideH_lt hr) h.out_height).2 ⟨_, hi⟩).1
    have hW := ((reads_iff h.strideW_lt h.out_width).2 ⟨_, hj⟩).1
    rw [slip, validHStart, validWStart, le_antisymm hH validStart_nonneg,
      le_antisymm hW validStart_nonneg, sub_self, zero_mul]
  rw [hone, Nat.mul_one, Nat.zero_mul, Nat.zero_add, Nat.add_zero, Nat.zero_mul,
    Nat.add_zero] at hrest
  rw [hslip, ← hrest] at hs
  have hplanes : (input.batch - 1) * input.channel * (input.height * input.width) =
      (input.batch - 1) * input.channel * 1 := by
    zify
    push_cast at hs
    linarith
  exact Nat.eq_of_mul_eq_mul_left (Nat.mul_pos (by omega) hchannel) hplanes

/-- **What exact regions require.** -/
theorem handled_of_moves (hbatch : 0 < input.batch) (hchannel : 0 < input.channel) :
    SameStart rows columns input ∧ OneDimension l rows columns input := by
  have hone : OneDimension l rows columns input := by
    intro hnhwc
    by_contra hnot
    simp only [not_or, not_le] at hnot
    obtain ⟨hmany, harea, hnot⟩ := hnot
    exact hnot (plane_eq_one h hmoves hnhwc hmany hchannel
      (Nat.pos_of_ne_zero fun h0 => harea (by rw [h0, Nat.zero_mul]))
      (Nat.pos_of_ne_zero fun h0 => harea (by rw [h0, Nat.mul_zero])))
  refine ⟨fun i j hi hheight hj hwidth => ?_, hone⟩
  have hin : Within input 0 0 i j := ⟨hbatch, hchannel, hheight, hwidth⟩
  obtain ⟨r, y, x, hr, hiread, hjread⟩ := exists_reads h hin
  by_cases hunit : l = .nhwc → input.batch = 1
  · have hslip := slip_eq_zero h hmoves hunit hr hin hiread hjread
    have hblock : (columns.block : ℤ) ≠ 0 := by
      have := h.columns_pos
      omega
    have hstart := sub_eq_zero.1 ((mul_eq_zero.1 hslip).resolve_right hblock)
    rw [validHStart, validWStart, hiread.validStart_eq (strideH_lt hr),
      hjread.validStart_eq h.strideW_lt, Nat.mod_eq_of_lt hi, Nat.mod_eq_of_lt hj] at hstart
    exact Int.ofNat_inj.1 hstart
  · -- the blocks are single places
    obtain ⟨hnhwc, hmany⟩ := Classical.not_imp.1 hunit
    obtain ⟨-, hplace⟩ := plane_eq_one h hmoves hnhwc (by omega) hchannel
      (Nat.zero_lt_of_lt hheight) (Nat.zero_lt_of_lt hwidth)
    have hrow : (i + rows.before) / rows.block = 0 :=
      eq_zero_of_mul_eq_one hplace ((reads_div_mod hheight).out_lt h.out_height)
    have hcolumn : (j + columns.before) / columns.block = 0 :=
      eq_zero_of_mul_eq_one (Nat.mul_comm _ _ ▸ hplace)
        ((reads_div_mod hwidth).out_lt h.out_width)
    rw [hrow, hcolumn]

end Moves

theorem lengths_injective {l : Layout} {e e' : Extents} (h : e.lengths l = e'.lengths l) :
    e = e' := by
  obtain ⟨n, c, y, x⟩ := e
  obtain ⟨n', c', y', x'⟩ := e'
  cases l <;> simp only [Extents.lengths, List.cons.injEq, Int.ofNat_inj, and_true] at h <;>
    simp only [Extents.mk.injEq] <;> tauto

/-- What the regions have to satisfy whenever both directions are exact. -/
theorem handled_of_exact {V : Type*} [Zero V] [Nontrivial V] {l : Layout} {blocks : List Block}
    {input : Extents} (hlength : blocks.length = 1 ∨ blocks.length = 2)
    (hvalid : Valid (blocks.getD 0 ⟨1, 0, 0⟩) (blocks.getD 1 ⟨1, 0, 0⟩) input)
    (hexact : Exact V l blocks input) : Handled l blocks input := by
  obtain ⟨output, forth, back, hshape, hforth, -, hback, hmoves⟩ := hexact
  match blocks, hlength with
  | [rows], _ => rw [toBatch_shape_one] at hshape; cases hshape
  | [rows, columns], _ =>
    rw [toBatch_shape] at hshape
    obtain rfl := lengths_injective (Option.some.inj hshape)
    have hbatch : 0 < input.batch := Nat.pos_of_ne_zero fun h0 => by
      have hnone : onCompute l false [rows, columns] input (input.blocked rows columns) = none :=
        if_pos h0
      rw [hnone] at hforth
      cases hforth
    rw [onCompute_forth hbatch] at hforth
    rw [onCompute_back hbatch] at hback
    obtain rfl := Option.some.inj hforth
    obtain rfl := Option.some.inj hback
    refine ⟨rows, columns, rfl, hbatch, ?_⟩
    rcases Nat.eq_zero_or_pos input.channel with hchannel | hchannel
    · exact .inl hchannel
    · exact .inr (handled_of_moves hvalid hmoves hbatch hchannel)

/-- **Blocks as batches, and back**, for a block shape of one or two dimensions. -/
theorem spaceToBatch_iff {V : Type*} [Zero V] [Nontrivial V] {l : Layout} {blocks : List Block}
    {input : Extents} (hlength : blocks.length = 1 ∨ blocks.length = 2)
    (hvalid : Valid (blocks.getD 0 ⟨1, 0, 0⟩) (blocks.getD 1 ⟨1, 0, 0⟩) input) :
    Exact V l blocks input ↔ Handled l blocks input := by
  refine ⟨handled_of_exact hlength hvalid, ?_⟩
  rintro ⟨rows, columns, rfl, hbatch, hhandled⟩
  have hvalid : Valid rows columns input := hvalid
  refine ⟨input.blocked rows columns, _, _, toBatch_shape l, onCompute_forth hbatch,
    toSpace_shape l hvalid.rows_pos hvalid.columns_pos hvalid.height hvalid.width,
    onCompute_back hbatch, ?_⟩
  rcases hhandled with hchannel | ⟨hstart, hone⟩
  · exact moves_of_channel hvalid hchannel
  · exact moves_of_sameStart hvalid hstart hone

/-- Blocks of two by two without pads. -/
theorem exact_two : Exact ℤ .nchw [⟨2, 0, 0⟩, ⟨2, 0, 0⟩] ⟨3, 1, 2, 2⟩ := by
  refine (spaceToBatch_iff (.inr rfl) ⟨by decide, by decide, by decide, by decide⟩).2
    ⟨_, _, rfl, by decide, .inr ⟨fun i j hi _ hj _ => ?_, fun h => absurd h (by decide)⟩⟩
  have hi0 : i / 2 = 0 := Nat.div_eq_of_lt hi
  have hj0 : j / 2 = 0 := Nat.div_eq_of_lt hj
  simp only [add_zero, hi0, hj0]

/-- The rows have a pad above and the columns have none. -/
theorem not_exact_padded : ¬ Exact ℤ .nchw [⟨2, 2, 0⟩, ⟨2, 0, 0⟩] ⟨1, 1, 2, 2⟩ := by
  intro hexact
  obtain ⟨rows, columns, hblocks, -, hhandled⟩ := handled_of_exact (.inr rfl)
    ⟨by decide, by decide, by decide, by decide⟩ hexact
  cases hblocks
  rcases hhandled with hchannel | ⟨hstart, -⟩
  · exact absurd hchannel (by decide)
  · exact absurd (hstart 0 0 (by decide) (by decide) (by decide) (by decide)) (by decide)

end Mnn.SpaceToBatch
