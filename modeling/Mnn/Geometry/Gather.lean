import Mnn.Geometry.BatchMatMul

/-!
# `GeometryGather` and `GeometryGatherND`

The geometry of `Gather` and `GatherND` (`source/geometry/GeometryGather.cpp`): a loop that copies
one slice for each index.

* `GeometryGather.onCompute`, `onRecompute`: a few constant indices are copied by regions, others by
  a loop whose numbers `onRecompute` patches;
* `GeometryGatherND.onCompute`, `onRecompute`: the rows of indices are multiplied with strides and
  summed, with five temporary tensors that `onRecompute` keeps;
* `GeometryGather.onRecompute_eq`, `GeometryGatherND.onRecompute_eq`: **recomputing is computing**.
-/

namespace Mnn.Recompute

/-- The loop of both operators: iteration `n` copies the slice with index `n`. -/
def sliceLoop (number : ℕ) (size : Fin 3 → ℤ) (step0 step1 : ℤ) (view0 view1 : Fin 3 → ℤ) :
    LoopParam where
  commands := [{
    op := .copy
    size := size
    view := [{ stride := view0 }, { stride := view1 }]
    indexes := [2, 0]
    iterIndexes := [-1, 1]
    steps := [step0, step1] }]
  loopNumber := number
  tensorNumber := 3
  inputIndexes := [0, 1]
  outputIndexes := [2]

/-- A stride vector with new first entries. -/
def patchStride (stride : Fin 3 → ℤ) (s0 s1 : ℤ) : Fin 3 → ℤ :=
  Function.update (Function.update stride 0 s0) 1 s1

theorem patchStride_eq (a b c s0 s1 : ℤ) : patchStride ![a, b, c] s0 s1 = ![s0, s1, c] := by
  funext k
  fin_cases k <;> rfl

/-- Only geometry makes its output virtual. -/
theorem not_virtual {output kept : Tensor} (hkeep : output.virtual = true → kept.virtual = true)
    (hkept : kept.virtual = false) : output.virtual = false := by
  cases hv : output.virtual with
  | false => rfl
  | true => exact (hkeep hv).symm.trans hkept

namespace GeometryGather

structure Sizes where
  outside : ℕ
  inside : ℕ
  axisLen : ℕ
  /-- The number of indices. -/
  n : ℕ
  deriving DecidableEq

/-- The axis of the operator is taken before the third input. -/
def gatherAxis (axis : Option ℤ) (inputs : List Tensor) : ℤ :=
  match axis with
  | some a => a
  | none => if inputs.length = 3 then (inputs.getD 2 {}).host.getD 0 0 else 0

def sizes (axis : Option ℤ) (inputs : List Tensor) : Sizes :=
  let params := inputs.getD 0 {}
  let a := gatherAxis axis inputs
  let at0 := (if a < 0 then params.dimensions + a else a).toNat
  { outside := (params.shape.take at0).prod
    inside := (params.shape.drop (at0 + 1)).prod
    axisLen := params.length at0
    n := (inputs.getD 1 {}).elementSize }

/-- Use Raster instead of loop. -/
def usesRaster (inputs : List Tensor) : Prop :=
  (inputs.getD 1 {}).constant = true ∧ (inputs.getD 1 {}).elementSize < 3

instance (inputs : List Tensor) : Decidable (usesRaster inputs) :=
  inferInstanceAs (Decidable (_ ∧ _))

/-- The region of one index; indices outside of the axis leave zeros. -/
def sliceRegion (s : Sizes) (host : List ℤ) (i : ℕ) : Option (Region Ref) :=
  let index := host.getD i 0
  if index < 0 ∨ s.axisLen ≤ index then none
  else some {
    src := { offset := index * s.inside, stride := ![0, s.inside * s.axisLen, 1] }
    dst := { offset := i * s.inside, stride := ![1, s.inside * s.n, 1] }
    size := ![1, s.outside, s.inside]
    origin := .input 0 }

def gatherLoop (s : Sizes) : LoopParam :=
  sliceLoop s.n ![s.outside, 1, s.inside] s.inside s.inside ![s.inside * s.n, s.inside, 1]
    ![s.inside * s.axisLen, s.inside, 1]

/-- `_computeGather` into an empty buffer. -/
def onCompute (axis : Option ℤ) (inputs : List Tensor) (output : Tensor) : CommandBuffer × Tensor :=
  let s := sizes axis inputs
  if usesRaster inputs then
    ({}, { output with
      virtual := true
      regions := (List.range s.n).filterMap (sliceRegion s (inputs.getD 1 {}).host) })
  else
    ({ command := [{ op := .loop (gatherLoop s), inputs := [.input 0, .input 1] }] },
      { output with virtual := false })

/-- Reset parameters for last command. -/
def patch (s : Sizes) (c : RegionCommand) : RegionCommand :=
  { c with
    steps := (c.steps.set 0 s.inside).set 1 s.inside
    size := Function.update (Function.update c.size 0 s.outside) 2 s.inside
    view := (c.view.modify 0 fun v =>
        { v with stride := patchStride v.stride (s.inside * s.n) s.inside }).modify 1 fun v =>
        { v with stride := patchStride v.stride (s.inside * s.axisLen) s.inside } }

def onRecompute (axis : Option ℤ) (inputs : List Tensor) (output : Tensor) (cmd : CommandBuffer) :
    Outcome (CommandBuffer × Tensor) :=
  match cmd.command with
  | [loopCmd] =>
    match loopCmd.op with
    | .loop param =>
      let s := sizes axis inputs
      let param := { param with
        loopNumber := s.n
        commands := param.commands.modify 0 (patch s) }
      .done ({ cmd with command := [{ loopCmd with op := .loop param }] }, output)
    | _ => .fails
  | _ => .refused

/-- The buffers that `onCompute` makes. -/
inductive Cached (b : CommandBuffer) (output : Tensor) : Prop
  | raster (hb : b = {})
  | loop (s : Sizes)
      (hb : b = { command := [{ op := .loop (gatherLoop s), inputs := [.input 0, .input 1] }] })
      (hout : output.virtual = false)

theorem cached_onCompute (axis : Option ℤ) (inputs : List Tensor) (output : Tensor) :
    Cached (onCompute axis inputs output).1 (onCompute axis inputs output).2 := by
  by_cases h : usesRaster inputs
  · refine .raster ?_
    simp only [onCompute, h, if_true]
  · refine .loop (sizes axis inputs) ?_ ?_
    · simp only [onCompute, h, if_false]
    · simp only [onCompute, h, if_false]

theorem patch_gatherLoop (s s' : Sizes) :
    { gatherLoop s with
      loopNumber := s'.n
      commands := (gatherLoop s).commands.modify 0 (patch s') } = gatherLoop s' := by
  have hsize : Function.update (Function.update (![(s.outside : ℤ), 1, s.inside] : Fin 3 → ℤ) 0
      s'.outside) 2 s'.inside = ![(s'.outside : ℤ), 1, s'.inside] := by
    funext k
    fin_cases k <;> rfl
  simp [gatherLoop, sliceLoop, patch, hsize, patchStride_eq]

/-- A loop for indices that would be copied by regions is not noticed; otherwise recomputing is
computing. -/
theorem onRecompute_eq {axis : Option ℤ} {inputs : List Tensor} {output kept : Tensor}
    {cmd : CommandBuffer} (hcached : Cached cmd kept)
    (hkeep : output.virtual = true → kept.virtual = true)
    (hfits : cmd.command ≠ [] → ¬ usesRaster inputs) :
    onRecompute axis inputs output cmd = .refused ∨
      onRecompute axis inputs output cmd = .done (onCompute axis inputs output) := by
  cases hcached with
  | raster hb =>
    subst hb
    exact .inl rfl
  | loop s hb hout =>
    subst hb
    right
    have houtput : { output with virtual := false } = output := by rw [← not_virtual hkeep hout]
    have hpatch := patch_gatherLoop s (sizes axis inputs)
    simp only [onRecompute, onCompute, hfits (List.cons_ne_nil _ _), if_false, hpatch, houtput]

end GeometryGather

/-! ### `GatherND` -/

namespace GeometryGatherND

structure Sizes where
  /-- The number of index rows. -/
  n : ℕ
  /-- The length of a row. -/
  d : ℕ
  /-- The size of a slice. -/
  s : ℕ
  deriving DecidableEq

def sizes (batchDim : ℕ) (inputs : List Tensor) : Sizes :=
  let params := inputs.getD 0 {}
  let indice := inputs.getD 1 {}
  let indiceNd := indice.length (indice.dimensions - 1)
  { n := indice.shape.dropLast.prod
    d := indiceNd
    s := (params.shape.drop (indiceNd + batchDim)).prod }

/-- The host values of `constStride`: the sizes of the slices below each dimension. -/
def constStrides (params : Tensor) (batchDim d : ℕ) : List ℤ :=
  ((List.range d).foldl (fun (paramSize, strides) i =>
    let dimCount := paramSize / params.length (i + batchDim)
    (dimCount, strides ++ [(dimCount : ℤ)])) ((params.shape.drop batchDim).prod, [])).2

/-- `createDevice<int>`. -/
def intTensor (shape : List ℕ) : Tensor := { shape := shape, type := ⟨0, 32⟩ }

/-- `midTensors`. -/
def midTensors (z : Sizes) (strides : List ℤ) : List Tensor :=
  [{ intTensor [z.d] with host := strides },
   { intTensor [z.n, z.d] with
      virtual := true
      regions := [makeRawAddressRef (.input 1) 0 (z.n * z.d)] },
   { intTensor [z.n, z.d] with
      virtual := true
      -- [D] => [N, D]
      regions := [{
        src := { stride := ![0, 0, 1] }
        dst := { stride := ![z.d * z.n, z.d, 1] }
        size := ![1, z.n, z.d]
        origin := .extra 0 }] },
   intTensor [z.n, z.d],
   intTensor [z.n, 1]]

def gatherLoop (z : Sizes) : LoopParam :=
  sliceLoop z.n ![1, 1, z.s] z.s 1 ![z.s, z.s, 1] ![z.s, z.s, 1]

/-- `BinaryOpOperation_MUL`. -/
def mul : ℕ := 2

/-- `buildGatherND`. -/
def buildGatherND (z : Sizes) (strides : List ℤ) : CommandBuffer where
  command := [
    -- [N, D] * [N, D] => [N, D]
    { op := .binary mul, inputs := [.extra 1, .extra 2], outputs := [.extra 3] },
    -- [N, D] => [N, 1]
    { op := .reduceSum, inputs := [.extra 3], outputs := [.extra 4] },
    { op := .loop (gatherLoop z), inputs := [.input 0, .extra 4] }]
  extras := midTensors z strides

def onCompute (axis : Option ℕ) (inputs : List Tensor) (output : Tensor) : CommandBuffer × Tensor :=
  let batchDim := axis.getD 0
  let z := sizes batchDim inputs
  (buildGatherND z (constStrides (inputs.getD 0 {}) batchDim z.d), { output with virtual := false })

/-- Reset parameters for last command. -/
def patch (z : Sizes) (c : RegionCommand) : RegionCommand :=
  { c with
    steps := c.steps.set 0 z.s
    size := Function.update c.size 2 z.s
    view := (c.view.modify 0 fun v => { v with stride := patchStride v.stride z.s z.s }).modify 1
      fun v => { v with stride := patchStride v.stride z.s z.s } }

/-- The region of `broadcastStride`. -/
def patchRegion (z : Sizes) (r : Region Ref) : Region Ref :=
  { r with
    origin := .extra 0
    size := ![1, z.n, z.d]
    dst := { r.dst with stride := ![z.d * z.n, z.d, 1] } }

def onRecompute (axis : Option ℕ) (inputs : List Tensor) (output : Tensor) (cmd : CommandBuffer) :
    Outcome (CommandBuffer × Tensor) :=
  match cmd.extras with
  | [constStride, reshapeIndice, broadcastStride, mulIndice, indiceOneLine] =>
    let batchDim := axis.getD 0
    let z := sizes batchDim inputs
    match cmd.command.getLast? with
    | some { op := .loop param, inputs := loopInputs, outputs := loopOutputs } =>
      let param := { param with
        loopNumber := z.n
        commands := param.commands.modify 0 (patch z) }
      .done ({ cmd with
        command := cmd.command.dropLast ++ [⟨.loop param, loopInputs, loopOutputs⟩]
        extras := [
          { constStride with
            shape := constStride.shape.set 0 z.d
            host := constStrides (inputs.getD 0 {}) batchDim z.d },
          { reshapeIndice with
            shape := (reshapeIndice.shape.set 0 z.n).set 1 z.d
            virtual := true
            regions := [makeRawAddressRef (.input 1) 0 (z.n * z.d)] },
          { broadcastStride with
            shape := (broadcastStride.shape.set 0 z.n).set 1 z.d
            virtual := true
            regions := broadcastStride.regions.modify 0 (patchRegion z) },
          { mulIndice with shape := (mulIndice.shape.set 0 z.n).set 1 z.d },
          { indiceOneLine with shape := (indiceOneLine.shape.set 0 z.n).set 1 1 }] }, output)
    | _ => .fails
  | _ => .refused

/-- The buffers that `onCompute` makes, and the empty one. -/
inductive Cached (b : CommandBuffer) (output : Tensor) : Prop
  | empty (hb : b = {})
  | built (z : Sizes) (strides : List ℤ) (hb : b = buildGatherND z strides)
      (hout : output.virtual = false)

theorem cached_onCompute (axis : Option ℕ) (inputs : List Tensor) (output : Tensor) :
    Cached (onCompute axis inputs output).1 (onCompute axis inputs output).2 :=
  .built _ _ rfl rfl

theorem patch_gatherLoop (z z' : Sizes) :
    { gatherLoop z with
      loopNumber := z'.n
      commands := (gatherLoop z).commands.modify 0 (patch z') } = gatherLoop z' := by
  have hsize : Function.update (![1, 1, (z.s : ℤ)] : Fin 3 → ℤ) 2 z'.s = ![1, 1, (z'.s : ℤ)] := by
    funext k
    fin_cases k <;> rfl
  simp [gatherLoop, sliceLoop, patch, hsize, patchStride_eq]

theorem onRecompute_eq {axis : Option ℕ} {inputs : List Tensor} {output kept : Tensor}
    {cmd : CommandBuffer} (hcached : Cached cmd kept)
    (hkeep : output.virtual = true → kept.virtual = true) :
    onRecompute axis inputs output cmd = .refused ∨
      onRecompute axis inputs output cmd = .done (onCompute axis inputs output) := by
  cases hcached with
  | empty hb =>
    subst hb
    exact .inl rfl
  | built z strides hb hout =>
    subst hb
    right
    have houtput : { output with virtual := false } = output := by rw [← not_virtual hkeep hout]
    have hpatch := patch_gatherLoop z (sizes (axis.getD 0) inputs)
    simp only [onRecompute, onCompute, buildGatherND, midTensors, intTensor, houtput,
      List.getLast?_cons_cons, List.getLast?_singleton, hpatch]
    rfl

end GeometryGatherND

end Mnn.Recompute
