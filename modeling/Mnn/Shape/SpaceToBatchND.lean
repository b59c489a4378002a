import Mnn.Shape.SizeComputer

/-!
# `SpaceToBatchNDSizeComputer` and `BatchToSpaceNDSizeComputer`

The extents of a tensor whose blocks are batches (`source/shape/ShapeSpaceToBatchND.cpp`,
`source/shape/ShapeBatchToSpaceND.cpp`).

* `Layout`, `Extents`: a tensor with a batch, channels, rows and columns;
* `Block`: the length of a block in one direction, with the pads (or crops) of that direction;
* `SpaceToBatchND.onComputeSize`, `BatchToSpaceND.onComputeSize`: the extents that are set;
* `toBatch_shape`, `toSpace_shape`: **with two directions they are those of the blocks, and those of
  the tensor again**;
* `toBatch_shape_one`: with one direction an extent is not set.
-/

namespace Mnn.Shape

inductive Layout
  | nchw
  | nhwc
  deriving DecidableEq, Repr

structure Extents where
  batch : ℕ
  channel : ℕ
  height : ℕ
  width : ℕ
  deriving DecidableEq, Repr

namespace Extents

/-- The extents in the order of the dimensions. -/
def lengths (l : Layout) (e : Extents) : List ℤ :=
  match l with
  | .nchw => [e.batch, e.channel, e.height, e.width]
  | .nhwc => [e.batch, e.height, e.width, e.channel]

/-- `Tensor::length`. -/
def length (l : Layout) (e : Extents) (i : ℕ) : ℤ := (e.lengths l).getD i 0

end Extents

/-- An entry of the block shape, with its row of the paddings. -/
structure Block where
  block : ℕ
  before : ℕ
  behind : ℕ
  deriving DecidableEq, Repr

namespace SpaceToBatchND

/-- The first of the dimensions that are cut into blocks. -/
def firstDim : Layout → ℕ
  | .nchw => 2
  | .nhwc => 1

/-- The loop over the block shape. -/
def setBlocked (l : Layout) (length : ℕ → Block → ℤ) (blocks : List Block) (output : Output) :
    Output :=
  blocks.zipIdx.foldl (fun output p =>
    output.setLength (p.2 + firstDim l : ℕ) (length (p.2 + firstDim l) p.1)) output

/-- What both size computers set, given the batch and the blocked extents. -/
def setLengths (l : Layout) (input : Extents) (batch : ℤ) (length : ℕ → Block → ℤ)
    (blocks : List Block) : Output :=
  let output := Output.setLength { dimensions := 4 } 0 batch
  match l with
  | .nchw => setBlocked l length blocks (output.setLength 1 (input.length l 1))
  | .nhwc => (setBlocked l length blocks output).setLength (1 + blocks.length : ℕ)
      (input.length l (1 + blocks.length))

def onComputeSize (l : Layout) (blocks : List Block) (input : Extents) : Output :=
  setLengths l input (blocks.foldl (fun batch b => batch * b.block) (input.batch : ℤ))
    (fun i b => (input.length l i + b.before + b.behind).tdiv b.block) blocks

end SpaceToBatchND

/-- The channels are set before the blocked extents here, which makes no difference. -/
def BatchToSpaceND.onComputeSize (l : Layout) (blocks : List Block) (input : Extents) : Output :=
  SpaceToBatchND.setLengths l input
    (blocks.foldl (fun batch b => batch.tdiv b.block) (input.batch : ℤ))
    (fun i b => input.length l i * b.block - b.before - b.behind) blocks

/-! ### Extents of blocks -/

/-- The length of a direction in blocks. -/
def Block.out (b : Block) (size : ℕ) : ℕ := (size + b.before + b.behind) / b.block

/-- The extents of the blocks of a tensor. -/
def Extents.blocked (e : Extents) (rows columns : Block) : Extents where
  batch := e.batch * rows.block * columns.block
  channel := e.channel
  height := rows.out e.height
  width := columns.out e.width

section Shapes

variable (l : Layout) {rows columns : Block} {e : Extents}

/-- The extents that are set for two directions. -/
theorem setLengths_shape {batch : ℤ} {length : ℕ → Block → ℤ} :
    (SpaceToBatchND.setLengths l e batch length [rows, columns]).shape = some (match l with
      | .nchw => [batch, e.channel, length 2 rows, length 3 columns]
      | .nhwc => [batch, length 1 rows, length 2 columns, e.channel]) := by
  rw [Output.shape_eq_some_iff]
  cases l with
  | nchw =>
    refine ⟨rfl, fun i hi => ?_⟩
    match i, hi with
    | 0, _ | 1, _ | 2, _ | 3, _ => rfl
  | nhwc =>
    refine ⟨rfl, fun i hi => ?_⟩
    match i, hi with
    | 0, _ | 1, _ | 2, _ | 3, _ => rfl

/-- The last extent is not set for one direction. -/
theorem setLengths_shape_one {batch : ℤ} {length : ℕ → Block → ℤ} :
    (SpaceToBatchND.setLengths l e batch length [rows]).shape = none := by
  rw [Output.shape, if_neg]
  intro hset
  have hlast := hset 3 (by cases l <;> exact (by decide : 3 < (4 : ℤ).toNat))
  cases l <;> exact absurd hlast Bool.false_ne_true

theorem toBatch_shape : (SpaceToBatchND.onComputeSize l [rows, columns] e).shape =
    some ((e.blocked rows columns).lengths l) := by
  have hbatch : [rows, columns].foldl (fun (batch : ℤ) b => batch * b.block) (e.batch : ℤ) =
      (e.blocked rows columns).batch := by
    rw [Extents.blocked, Nat.cast_mul, Nat.cast_mul]
    rfl
  have hout : ∀ (size : ℕ) (b : Block),
      (size + b.before + b.behind : ℤ).tdiv b.block = (b.out size : ℕ) := by
    intro size b
    rw [Block.out, Int.ofNat_tdiv, Nat.cast_add, Nat.cast_add]
  rw [SpaceToBatchND.onComputeSize, setLengths_shape, hbatch]
  cases l with
  | nchw => exact congrArg₂ (fun h w => some [_, _, h, w]) (hout _ _) (hout _ _)
  | nhwc => exact congrArg₂ (fun h w => some [_, h, w, _]) (hout _ _) (hout _ _)

theorem toSpace_shape (hrows : 0 < rows.block) (hcolumns : 0 < columns.block)
    (hheight : rows.block ∣ e.height + rows.before + rows.behind)
    (hwidth : columns.block ∣ e.width + columns.before + columns.behind) :
    (BatchToSpaceND.onComputeSize l [rows, columns] (e.blocked rows columns)).shape =
      some (e.lengths l) := by
  have hbatch : [rows, columns].foldl (fun (batch : ℤ) b => batch.tdiv b.block)
      ((e.blocked rows columns).batch : ℤ) = e.batch := by
    have hdiv : e.batch * rows.block * columns.block / rows.block / columns.block = e.batch := by
      rw [Nat.mul_right_comm, Nat.mul_div_cancel _ hrows, Nat.mul_div_cancel _ hcolumns]
    exact congrArg Nat.cast hdiv
  have hcrop : ∀ {size : ℕ} {b : Block}, b.block ∣ size + b.before + b.behind →
      (b.out size : ℤ) * b.block - b.before - b.behind = size := by
    intro size b hdvd
    rw [Block.out, ← Nat.cast_mul, Nat.div_mul_cancel hdvd]
    push_cast
    omega
  rw [BatchToSpaceND.onComputeSize, setLengths_shape, hbatch]
  cases l with
  | nchw => exact congrArg₂ (fun h w => some [_, _, h, w]) (hcrop hheight) (hcrop hwidth)
  | nhwc => exact congrArg₂ (fun h w => some [_, h, w, _]) (hcrop hheight) (hcrop hwidth)

theorem toBatch_shape_one : (SpaceToBatchND.onComputeSize l [rows] e).shape = none :=
  setLengths_shape_one l

end Shapes

end Mnn.Shape
