import Mnn.Shape.SpaceToBatchND

/-!
# `DepthToSpaceSizeComputer` and `SpaceToDepthSizeComputer`

The extents of a tensor whose channels become the places of blocks
(`source/shape/ShapeDepthToSpace.cpp`, `source/shape/ShapeSpaceToDepth.cpp`).

* `DepthToSpace.onComputeSize`, `SpaceToDepth.onComputeSize`: the extents that are set;
* `Cut`: the extents of two tensors with the channels of one in the blocks of the other;
* `Cut.toSpace_shape`, `Cut.toDepth_shape`: **each operator sets those of the other's input**.
-/

namespace Mnn.Shape

/-- The four extents, in the order in which both size computers set them. -/
def setFour (l : Layout) (batch channel height width : ℤ) : Output :=
  let output := Output.setLength { dimensions := 4 } 0 batch
  match l with
  | .nhwc => ((output.setLength 1 height).setLength 2 width).setLength 3 channel
  | .nchw => ((output.setLength 3 width).setLength 2 height).setLength 1 channel

def DepthToSpace.onComputeSize (l : Layout) (blockSize : ℕ) (input : Extents) : Output :=
  setFour l input.batch ((input.channel : ℤ).tdiv (blockSize * blockSize))
    (input.height * blockSize) (input.width * blockSize)

def SpaceToDepth.onComputeSize (l : Layout) (blockSize : ℕ) (input : Extents) : Output :=
  setFour l input.batch (input.channel * (blockSize * blockSize))
    ((input.height : ℤ).tdiv blockSize) ((input.width : ℤ).tdiv blockSize)

/-- The channels of `deep` are those of `space` at the places of a block. -/
structure Cut (blockSize : ℕ) (deep space : Extents) : Prop where
  pos : 0 < blockSize
  batch : deep.batch = space.batch
  channel : deep.channel = space.channel * (blockSize * blockSize)
  height : space.height = deep.height * blockSize
  width : space.width = deep.width * blockSize

section Shapes

variable (l : Layout) {blockSize : ℕ} {deep space : Extents}

theorem setFour_shape {batch channel height width : ℤ} {e : Extents} (hbatch : batch = e.batch)
    (hchannel : channel = e.channel) (hheight : height = e.height) (hwidth : width = e.width) :
    (setFour l batch channel height width).shape = some (e.lengths l) := by
  subst hbatch hchannel hheight hwidth
  rw [Output.shape_eq_some_iff]
  cases l with
  | nchw =>
    refine ⟨rfl, fun i hi => ?_⟩
    match i, hi with
    | 0, _ | 1, _ | 2, _ | 3, _ => rfl
  | nhwc =>
    refine ⟨rfl, fun i hi => ?_⟩
    match i, hi with
    | 0, _ | 1, _ | 2, _ | 3, _ => rfl

namespace Cut

theorem toSpace_shape (h : Cut blockSize deep space) :
    (DepthToSpace.onComputeSize l blockSize deep).shape = some (space.lengths l) := by
  refine setFour_shape l (congrArg _ h.batch) ?_ ?_ ?_
  · rw [h.channel, ← Nat.cast_mul, ← Int.ofNat_tdiv,
      Nat.mul_div_cancel _ (Nat.mul_pos h.pos h.pos)]
  · rw [h.height, Nat.cast_mul]
  · rw [h.width, Nat.cast_mul]

theorem toDepth_shape (h : Cut blockSize deep space) :
    (SpaceToDepth.onComputeSize l blockSize space).shape = some (deep.lengths l) := by
  refine setFour_shape l (congrArg _ h.batch.symm) ?_ ?_ ?_
  · rw [h.channel, Nat.cast_mul, Nat.cast_mul]
  · rw [h.height, ← Int.ofNat_tdiv, Nat.mul_div_cancel _ h.pos]
  · rw [h.width, ← Int.ofNat_tdiv, Nat.mul_div_cancel _ h.pos]

end Cut

/-- The channels of an input of `DepthToSpace` are cut. -/
theorem exists_cut_of_channel (hpos : 0 < blockSize)
    (hchannel : blockSize * blockSize ∣ deep.channel) : ∃ space, Cut blockSize deep space :=
  ⟨⟨deep.batch, deep.channel / (blockSize * blockSize), deep.height * blockSize,
    deep.width * blockSize⟩, hpos, rfl, (Nat.div_mul_cancel hchannel).symm, rfl, rfl⟩

/-- The rows and columns of an input of `SpaceToDepth` are cut. -/
theorem exists_cut_of_plane (hpos : 0 < blockSize) (hheight : blockSize ∣ space.height)
    (hwidth : blockSize ∣ space.width) : ∃ deep, Cut blockSize deep space :=
  ⟨⟨space.batch, space.channel * (blockSize * blockSize), space.height / blockSize,
    space.width / blockSize⟩, hpos, rfl, rfl, (Nat.div_mul_cancel hheight).symm,
    (Nat.div_mul_cancel hwidth).symm⟩

end Shapes

end Mnn.Shape
