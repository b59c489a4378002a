import Mnn.Geometry.BroadCastDims
import Mnn.Geometry.SpaceToBatchND
import Mnn.Shape.DepthToSpace

/-!
# `GeometryDepthToSpace`

Channels as the places of blocks, and back (`source/geometry/GeometryDepthToSpace.cpp`).

* `DepthToSpaceMode`, `region`, `onCompute`: the regions of both operators;
* `depthChannel`: the channel of a place of a block;
* `mem_regions`: the regions copy each element to its place;
* `writes_snd`, `writes_fst`: every address is written once, and read once;
* `Rearranges`: both operators move every element to its place, and each undoes the other;
* `depthToSpace_spaceToDepth`: **this is so for all extents that can be cut**.
-/

namespace Mnn.DepthToSpace

open Shape Recompute SpaceToBatch

/-! ### Regions -/

inductive DepthToSpaceMode
  | dcr
  | crd
  deriving DecidableEq, Repr

section Views

variable (l : Layout) (mode : DepthToSpaceMode) (blockSize : ℕ) (input output : Extents)
  (b hb wb : ℕ)

/-- The part of the tensor with the deeper channels. -/
def srcR : View :=
  let inputStride := strides l input.height input.width input.channel
  let offsetC : ℤ := hb * blockSize + wb
  let offsetC := if mode = .dcr then offsetC * output.channel else offsetC
  { offset := b * inputStride 0 + offsetC * inputStride 1
    stride := ![inputStride 2, inputStride 3,
      if mode = .crd then inputStride 1 * (blockSize * blockSize) else inputStride 1] }

/-- The part of the tensor with the larger plane. -/
def dstR : View :=
  let outputStride := strides l output.height output.width output.channel
  { offset := b * outputStride 0 + hb * outputStride 2 + wb * outputStride 3
    stride := ![outputStride 2 * blockSize, outputStride 3 * blockSize, outputStride 1] }

/-- The region of `DepthToSpace`, and that of `SpaceToDepth` between the same tensors. -/
def region (spaceToDepth : Bool) : Region Ref where
  src := if spaceToDepth then dstR l blockSize output b hb wb
    else srcR l mode blockSize input output b hb wb
  dst := if spaceToDepth then srcR l mode blockSize input output b hb wb
    else dstR l blockSize output b hb wb
  size := ![input.height, input.width, output.channel]
  origin := .input 0

end Views

/-- The regions from `input` to `output`, in the order of their indices. -/
def onCompute (l : Layout) (spaceToDepth : Bool) (mode : DepthToSpaceMode) (blockSize : ℕ)
    (input output : Extents) : List (Region Ref) :=
  -- For SpaceToDepth, swap input and output
  let (input, output) := if spaceToDepth then (output, input) else (input, output)
  (List.range input.batch).flatMap fun b => (List.range blockSize).flatMap fun hb =>
    (List.range blockSize).map fun wb =>
      region l mode blockSize input output b hb wb spaceToDepth

/-! ### Elements -/

/-- The channel of channel `c` at place `(hb, wb)` of a block. -/
def depthChannel (mode : DepthToSpaceMode) (blockSize channel hb wb c : ℕ) : ℕ :=
  match mode with
  | .dcr => (hb * blockSize + wb) * channel + c
  | .crd => c * (blockSize * blockSize) + (hb * blockSize + wb)

theorem exists_within {l : Layout} {e : Extents} {o : ℕ}
    (ho : o < e.batch * e.channel * e.height * e.width) :
    ∃ n c y x, Within e n c y x ∧ address l e n c y x = o := by
  have hpos : 0 < e.batch * e.channel * e.height * e.width := Nat.zero_lt_of_lt ho
  have hwidth : 0 < e.width := Nat.pos_of_mul_pos_left hpos
  have hheight : 0 < e.height := Nat.pos_of_mul_pos_left (Nat.pos_of_mul_pos_right hpos)
  have hchannel : 0 < e.channel :=
    Nat.pos_of_mul_pos_left (Nat.pos_of_mul_pos_right (Nat.pos_of_mul_pos_right hpos))
  cases l with
  | nchw =>
    refine ⟨o / e.width / e.height / e.channel, o / e.width / e.height % e.channel,
      o / e.width % e.height, o % e.width, ⟨?_, Nat.mod_lt _ hchannel, Nat.mod_lt _ hheight,
        Nat.mod_lt _ hwidth⟩, ?_⟩
    · rw [Nat.div_div_eq_div_mul, Nat.div_div_eq_div_mul]
      refine Nat.div_lt_of_lt_mul (ho.trans_eq ?_)
      ring
    · rw [address, Nat.div_add_mod', Nat.div_add_mod', Nat.div_add_mod']
  | nhwc =>
    refine ⟨o / e.channel / e.width / e.height, o % e.channel, o / e.channel / e.width % e.height,
      o / e.channel % e.width, ⟨?_, Nat.mod_lt _ hchannel, Nat.mod_lt _ hheight,
        Nat.mod_lt _ hwidth⟩, ?_⟩
    · rw [Nat.div_div_eq_div_mul, Nat.div_div_eq_div_mul]
      refine Nat.div_lt_of_lt_mul (ho.trans_eq ?_)
      ring
    · rw [address, Nat.div_add_mod', Nat.div_add_mod', Nat.div_add_mod']

/-- Every channel is the channel of a place. -/
theorem exists_depthChannel (mode : DepthToSpaceMode) {blockSize channel k : ℕ}
    (hpos : 0 < blockSize) (hk : k < channel * (blockSize * blockSize)) :
    ∃ hb wb c, hb < blockSize ∧ wb < blockSize ∧ c < channel ∧
      depthChannel mode blockSize channel hb wb c = k := by
  have hchannel : 0 < channel := Nat.pos_of_mul_pos_right (Nat.zero_lt_of_lt hk)
  cases mode with
  | dcr =>
    refine ⟨k / channel / blockSize, k / channel % blockSize, k % channel, ?_,
      Nat.mod_lt _ hpos, Nat.mod_lt _ hchannel, ?_⟩
    · exact Nat.div_lt_of_lt_mul (Nat.div_lt_of_lt_mul hk)
    · rw [depthChannel, Nat.div_add_mod', Nat.div_add_mod']
  | crd =>
    have hplace : k % (blockSize * blockSize) < blockSize * blockSize :=
      Nat.mod_lt _ (Nat.mul_pos hpos hpos)
    refine ⟨k % (blockSize * blockSize) / blockSize, k % (blockSize * blockSize) % blockSize,
      k / (blockSize * blockSize), Nat.div_lt_of_lt_mul hplace, Nat.mod_lt _ hpos, ?_, ?_⟩
    · exact Nat.div_lt_of_lt_mul (Nat.mul_comm _ channel ▸ hk)
    · rw [depthChannel, Nat.div_add_mod', Nat.div_add_mod']

section Cut

variable {l : Layout} {mode : DepthToSpaceMode} {blockSize : ℕ} {deep space : Extents}

/-- Where element `(y, x)` is among the deeper channels, which is the definition of ONNX. -/
def depthAddress (l : Layout) (mode : DepthToSpaceMode) (blockSize : ℕ) (deep space : Extents)
    (n c y x : ℕ) : ℕ :=
  address l deep n (depthChannel mode blockSize space.channel (y % blockSize) (x % blockSize) c)
    (y / blockSize) (x / blockSize)

theorem mem_onCompute {reg : Region Ref} : reg ∈ onCompute l false mode blockSize deep space ↔
    ∃ b < deep.batch, ∃ hb < blockSize, ∃ wb < blockSize,
      region l mode blockSize deep space b hb wb false = reg := by
  simp only [onCompute, Bool.false_eq_true, if_false, List.mem_flatMap, List.mem_map,
    List.mem_range]

/-- The same copies the other way. -/
def turned (reg : Region Ref) : Region Ref := { reg with src := reg.dst, dst := reg.src }

theorem onCompute_turned : onCompute l true mode blockSize space deep =
    (onCompute l false mode blockSize deep space).map turned := by
  simp only [onCompute, if_true, Bool.false_eq_true, if_false, List.map_flatMap, List.map_map]
  rfl

theorem writes_swap : Permute.writes (onCompute l true mode blockSize space deep) =
    (Permute.writes (onCompute l false mode blockSize deep space)).map Prod.swap := by
  rw [onCompute_turned, Permute.writes, Permute.writes, Multiset.map_bind, ← Multiset.map_coe,
    Multiset.bind_map]
  refine Multiset.bind_congr fun reg _ => ?_
  rw [Multiset.map_coe, List.map_map]
  rfl

variable (h : Cut blockSize deep space)

include h

/-- The element of a place is copied to it. -/
theorem mem_regions {n c y x : ℕ} (hin : Within space n c y x) :
    ((depthAddress l mode blockSize deep space n c y x : ℤ), (address l space n c y x : ℤ)) ∈
      Permute.writes (onCompute l false mode blockSize deep space) := by
  have hy : y / blockSize < deep.height :=
    Nat.div_lt_of_lt_mul (Nat.mul_comm _ blockSize ▸ h.height ▸ hin.row)
  have hx : x / blockSize < deep.width :=
    Nat.div_lt_of_lt_mul (Nat.mul_comm _ blockSize ▸ h.width ▸ hin.column)
  refine Permute.mem_writes.2 ⟨_, mem_onCompute.2 ⟨n, h.batch ▸ hin.batch, y % blockSize,
    Nat.mod_lt _ h.pos, x % blockSize, Nat.mod_lt _ h.pos, rfl⟩, ?_⟩
  simp only [Region.Copies, region, exists_box, Bool.false_eq_true, if_false]
  refine ⟨(y / blockSize : ℕ), (x / blockSize : ℕ), c, ⟨Int.natCast_nonneg _, mod_cast hy⟩,
    ⟨Int.natCast_nonneg _, mod_cast hx⟩, ⟨Int.natCast_nonneg _, mod_cast hin.channel⟩, ?_, ?_⟩
  · cases l <;> cases mode <;>
      simp only [srcR, View.address, depthAddress, depthChannel, address, strides, Matrix.cons_val,
        reduceCtorEq, if_true, if_false] <;>
      push_cast <;> ring
  · have hrow : (y : ℤ) = (y / blockSize : ℕ) * blockSize + (y % blockSize : ℕ) := by
      exact_mod_cast (Nat.div_add_mod' y blockSize).symm
    have hcolumn : (x : ℤ) = (x / blockSize : ℕ) * blockSize + (x % blockSize : ℕ) := by
      exact_mod_cast (Nat.div_add_mod' x blockSize).symm
    cases l with
    | nchw =>
      simp only [dstR, View.address, address, strides, Matrix.cons_val, Nat.cast_add, Nat.cast_mul]
      rw [hrow, hcolumn]
      ring
    | nhwc =>
      simp only [dstR, View.address, address, strides, Matrix.cons_val, Nat.cast_add, Nat.cast_mul]
      rw [hrow, hcolumn]
      ring

omit h in
theorem length_onCompute : (onCompute l false mode blockSize deep space).length =
    deep.batch * (blockSize * blockSize) := by
  simp only [onCompute, Bool.false_eq_true, if_false, List.length_flatMap, List.length_map,
    List.length_range, List.map_const', List.sum_replicate, smul_eq_mul]

/-- As much is copied as there are elements. -/
theorem card_writes : (Permute.writes (onCompute l false mode blockSize deep space)).card =
    space.batch * space.channel * space.height * space.width := by
  have hregion : ∀ reg ∈ onCompute l false mode blockSize deep space,
      (boxIndices reg.size).length = deep.height * (deep.width * space.channel) := by
    intro reg hreg
    obtain ⟨b, -, hb, -, wb, -, rfl⟩ := mem_onCompute.1 hreg
    rw [card_boxIndices]
    rfl
  rw [Recompute.card_writes hregion, length_onCompute, h.batch, h.height, h.width]
  ring

/-- **Every address of the output is written once.** -/
theorem writes_snd : (Permute.writes (onCompute l false mode blockSize deep space)).map Prod.snd =
    (Multiset.range (space.batch * space.channel * space.height * space.width)).map
      fun n : ℕ => (n : ℤ) := by
  refine map_snd_writes (fun o ho => ?_) (card_writes h).le
  obtain ⟨n, c, y, x, hin, rfl⟩ := exists_within (l := l) ho
  obtain ⟨reg, hreg, hcopies⟩ := Permute.mem_writes.1 (mem_regions h hin)
  exact ⟨reg, hreg, _, hcopies⟩

/-- Every address of the input is read once. -/
theorem writes_fst : (Permute.writes (onCompute l false mode blockSize deep space)).map Prod.fst =
    (Multiset.range (deep.batch * deep.channel * deep.height * deep.width)).map
      fun n : ℕ => (n : ℤ) := by
  have hcover : ∀ o < deep.batch * deep.channel * deep.height * deep.width,
      ∃ reg ∈ onCompute l true mode blockSize space deep, ∃ s, reg.Copies s o := by
    intro o ho
    obtain ⟨n, k, y, x, ⟨hn, hk, hy, hx⟩, rfl⟩ := exists_within (l := l) ho
    obtain ⟨hb, wb, c, hhb, hwb, hc, rfl⟩ := exists_depthChannel mode h.pos (h.channel ▸ hk)
    have hin : Within space n c (y * blockSize + hb) (x * blockSize + wb) :=
      ⟨h.batch ▸ hn, hc, h.height ▸ mul_add_lt hy hhb, h.width ▸ mul_add_lt hx hwb⟩
    have hdiv : ∀ {a k : ℕ}, k < blockSize → (a * blockSize + k) / blockSize = a := by
      intro a k hk
      rw [Nat.add_comm, Nat.add_mul_div_right _ _ h.pos, Nat.div_eq_of_lt hk, Nat.zero_add]
    have hmem : (_, _) ∈ Permute.writes (onCompute l false mode blockSize deep space) :=
      mem_regions h hin
    rw [depthAddress, Nat.mul_add_mod_of_lt hhb, Nat.mul_add_mod_of_lt hwb, hdiv hhb,
      hdiv hwb] at hmem
    have hturned := Multiset.mem_map_of_mem Prod.swap hmem
    rw [← writes_swap] at hturned
    obtain ⟨reg, hreg, hcopies⟩ := Permute.mem_writes.1 hturned
    exact ⟨reg, hreg, _, hcopies⟩
  have hcard : (Permute.writes (onCompute l true mode blockSize space deep)).card =
      deep.batch * deep.channel * deep.height * deep.width := by
    rw [writes_swap, Multiset.card_map, card_writes h, h.batch, h.channel, h.height, h.width]
    ring
  have hmap := map_snd_writes hcover hcard.le
  rwa [writes_swap, Multiset.map_map] at hmap

end Cut

/-! ### Both operators -/

/-- The addresses of a tensor, each of them once. -/
def allAddresses (l : Layout) (e : Extents) : Multiset ℤ :=
  (Multiset.range (e.lengths l).prod.toNat).map fun n : ℕ => (n : ℤ)

/-- Both operators write and read every address once and move every element to its place, and each
undoes the other. -/
structure Rearranges (V : Type*) [Zero V] (l : Layout) (mode : DepthToSpaceMode) (blockSize : ℕ)
    (deep space : Extents) (toSpace toDepth : List (Region Ref)) : Prop where
  origin : ∀ reg ∈ toSpace ++ toDepth, reg.origin = .input 0
  written : (Permute.writes toSpace).map Prod.snd = allAddresses l space
  read : (Permute.writes toSpace).map Prod.fst = allAddresses l deep
  written_back : (Permute.writes toDepth).map Prod.snd = allAddresses l deep
  read_back : (Permute.writes toDepth).map Prod.fst = allAddresses l space
  element : ∀ (value : Ref → ℤ → V) (n c y x : ℕ), Within space n c y x →
    raster toSpace value (address l space n c y x) =
      value (.input 0) (depthAddress l mode blockSize deep space n c y x)
  element_back : ∀ (value : Ref → ℤ → V) (n c y x : ℕ), Within space n c y x →
    raster toDepth value (depthAddress l mode blockSize deep space n c y x) =
      value (.input 0) (address l space n c y x)
  inverse : ∀ (value : Ref → ℤ → V), ∀ a ∈ allAddresses l deep,
    raster toDepth (fun _ => raster toSpace value) a = value (.input 0) a
  inverse_back : ∀ (value : Ref → ℤ → V), ∀ a ∈ allAddresses l space,
    raster toSpace (fun _ => raster toDepth value) a = value (.input 0) a

section Rearranges

variable {V : Type*} [Zero V] {l : Layout} {mode : DepthToSpaceMode} {blockSize : ℕ}
  {deep space : Extents}

theorem nodup_allAddresses (e : Extents) : (allAddresses l e).Nodup :=
  (Multiset.nodup_range _).map Nat.cast_injective

/-- **Tensors whose channels are cut are rearranged.** -/
theorem rearranges_of_cut (h : Cut blockSize deep space) :
    Rearranges V l mode blockSize deep space (onCompute l false mode blockSize deep space)
      (onCompute l true mode blockSize space deep) := by
  have hall : ∀ e : Extents, allAddresses l e =
      (Multiset.range (e.batch * e.channel * e.height * e.width)).map fun n : ℕ => (n : ℤ) := by
    intro e
    rw [allAddresses, lengths_prod, Int.toNat_natCast]
  have horigin : ∀ reg ∈ onCompute l false mode blockSize deep space, reg.origin = .input 0 := by
    intro reg hreg
    obtain ⟨b, -, hb, -, wb, -, rfl⟩ := mem_onCompute.1 hreg
    rfl
  have horigin' : ∀ reg ∈ onCompute l true mode blockSize space deep, reg.origin = .input 0 := by
    intro reg hreg
    rw [onCompute_turned] at hreg
    obtain ⟨reg, hmem, rfl⟩ := List.mem_map.1 hreg
    exact horigin reg hmem
  have hwritten : (Permute.writes (onCompute l false mode blockSize deep space)).map Prod.snd =
      allAddresses l space := (writes_snd h).trans (hall space).symm
  have hread : (Permute.writes (onCompute l false mode blockSize deep space)).map Prod.fst =
      allAddresses l deep := (writes_fst h).trans (hall deep).symm
  have hwritten' : (Permute.writes (onCompute l true mode blockSize space deep)).map Prod.snd =
      allAddresses l deep := by
    rw [writes_swap, Multiset.map_map, ← hread]
    rfl
  have hread' : (Permute.writes (onCompute l true mode blockSize space deep)).map Prod.fst =
      allAddresses l space := by
    rw [writes_swap, Multiset.map_map, ← hwritten]
    rfl
  have hforth : ∀ (value : Ref → ℤ → V) {s o : ℤ},
      (s, o) ∈ Permute.writes (onCompute l false mode blockSize deep space) →
      raster (onCompute l false mode blockSize deep space) value o = value (.input 0) s :=
    fun value s o hmem =>
      Permute.raster_of_writes value (hwritten ▸ nodup_allAddresses space) horigin hmem
  have hback : ∀ (value : Ref → ℤ → V) {s o : ℤ},
      (s, o) ∈ Permute.writes (onCompute l false mode blockSize deep space) →
      raster (onCompute l true mode blockSize space deep) value s = value (.input 0) o :=
    fun value s o hmem => Permute.raster_of_writes value (hwritten' ▸ nodup_allAddresses deep)
      horigin' (writes_swap ▸ Multiset.mem_map_of_mem Prod.swap hmem)
  refine ⟨fun reg hreg => (List.mem_append.1 hreg).elim (horigin reg) (horigin' reg), hwritten,
    hread, hwritten', hread', fun value n c y x hin => hforth value (mem_regions h hin),
    fun value n c y x hin => hback value (mem_regions h hin), fun value a ha => ?_,
    fun value a ha => ?_⟩
  · rw [← hread] at ha
    obtain ⟨⟨s, o⟩, hmem, rfl⟩ := Multiset.mem_map.1 ha
    rw [hback _ hmem, hforth _ hmem]
  · rw [← hwritten] at ha
    obtain ⟨⟨s, o⟩, hmem, rfl⟩ := Multiset.mem_map.1 ha
    rw [hforth _ hmem, hback _ hmem]

/-- **`DepthToSpace` and `SpaceToDepth` are inverse rearrangements**, from either side. -/
theorem depthToSpace_spaceToDepth (V : Type*) [Zero V] (l : Layout) (mode : DepthToSpaceMode)
    (blockSize : ℕ) (hpos : 0 < blockSize) (input : Extents) :
    (blockSize * blockSize ∣ input.channel → ∃ output : Extents,
      (DepthToSpace.onComputeSize l blockSize input).shape = some (output.lengths l) ∧
      (SpaceToDepth.onComputeSize l blockSize output).shape = some (input.lengths l) ∧
      Rearranges V l mode blockSize input output (onCompute l false mode blockSize input output)
        (onCompute l true mode blockSize output input)) ∧
    (blockSize ∣ input.height → blockSize ∣ input.width → ∃ output : Extents,
      (SpaceToDepth.onComputeSize l blockSize input).shape = some (output.lengths l) ∧
      (DepthToSpace.onComputeSize l blockSize output).shape = some (input.lengths l) ∧
      Rearranges V l mode blockSize output input (onCompute l false mode blockSize output input)
        (onCompute l true mode blockSize input output)) := by
  constructor
  · intro hchannel
    obtain ⟨output, hcut⟩ := exists_cut_of_channel hpos hchannel
    exact ⟨output, hcut.toSpace_shape l, hcut.toDepth_shape l, rearranges_of_cut hcut⟩
  · intro hheight hwidth
    obtain ⟨output, hcut⟩ := exists_cut_of_plane hpos hheight hwidth
    exact ⟨output, hcut.toDepth_shape l, hcut.toSpace_shape l, rearranges_of_cut hcut⟩

/-- Blocks of two by two, in both ways. -/
theorem rearranges_two : ∃ output : Extents,
    (DepthToSpace.onComputeSize .nhwc 2 ⟨3, 8, 2, 4⟩).shape = some (output.lengths .nhwc) ∧
    Rearranges ℤ .nhwc .crd 2 ⟨3, 8, 2, 4⟩ output (onCompute .nhwc false .crd 2 ⟨3, 8, 2, 4⟩ output)
      (onCompute .nhwc true .crd 2 output ⟨3, 8, 2, 4⟩) := by
  obtain ⟨output, hshape, -, hrearranges⟩ :=
    (depthToSpace_spaceToDepth ℤ .nhwc .crd 2 (by decide) ⟨3, 8, 2, 4⟩).1 (by decide)
  exact ⟨output, hshape, hrearranges⟩

end Rearranges

end Mnn.DepthToSpace
