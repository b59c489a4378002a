import Mnn.Geometry.BroadcastTo

/-!
# `GeometryBinary`

The geometry of `BinaryOp` (`source/geometry/GeometryBinary.cpp`): operands that are smaller than
the output are broadcast by the kernel, by a loop, or by temporary tensors.

* `onCompute`, `onRecompute`: the code; `RecomputeFits`: the condition under which they agree;
* `value`: what the operator computes; `content_direct`, `content_broadcast`, `content_loop`: each
  of the three buffers denotes it, with the type of its first operand;
* `onRecompute_content`: **with the condition, recomputing denotes what computing does**.
-/

namespace Mnn.Recompute

open Lib.Broadcast
open Resize (DataType)

/-- What geometry reads of the context. -/
structure Context where
  /-- `forwardType() == MNN_FORWARD_NN`. -/
  forwardNN : Bool := false
  /-- `forwardType() == MNN_FORWARD_OPENCL`. -/
  forwardOpenCL : Bool := false
  /-- `support(GEOMETRCOMPUTEMASK_USELOOP)`. -/
  useLoop : Bool := true
  deriving DecidableEq

namespace GeometryBinary

/-- `input0Broadcast` and `input1Broadcast`. OpenCL default format is `NC4HW4`. -/
def needsBroadcast (ctx : Context) (input output : Tensor) : Bool :=
  output.rawSize ≠ input.rawSize || input.dimensionFormat ≠ output.dimensionFormat ||
    (output.dimensions ≠ input.dimensions &&
      (output.dimensionFormat = .nc4hw4 || ctx.forwardOpenCL))

/-- A temporary tensor, perhaps one that was there before, as the broadcast input. -/
def broadcastTensor (cache input : Tensor) (r : Ref) (output : Tensor) : Tensor :=
  broadcastto input r { cache with
    shape := output.shape, dimensionFormat := output.dimensionFormat, type := output.type }

/-- The temporary tensors, and the operands; tensors of the cache are taken from its end. -/
def broadcastInputs (ctx : Context) (inputs : List Tensor) (output : Tensor) (cache : List Tensor) :
    List Tensor × List Ref :=
  let input0 := inputs.getD 0 {}
  let input1 := inputs.getD 1 {}
  let (extras0, cache) :=
    if needsBroadcast ctx input0 output then
      ([broadcastTensor (cache.getLastD {}) input0 (.input 0) output], cache.dropLast)
    else ([], cache)
  let extras1 :=
    if needsBroadcast ctx input1 output then
      [broadcastTensor (cache.getLastD {}) input1 (.input 1) output]
    else []
  (extras0 ++ extras1,
    [if needsBroadcast ctx input0 output then .extra 0 else .input 0,
      if needsBroadcast ctx input1 output then .extra extras0.length else .input 1])

/-- Can directly compute. -/
def isDirect (inputs : List Tensor) : Prop :=
  (inputs.getD 0 {}).rawSize = 1 ∨ (inputs.getD 1 {}).rawSize = 1

instance (inputs : List Tensor) : Decidable (isDirect inputs) :=
  inferInstanceAs (Decidable (_ ∨ _))

/-- `singleBroadCast && forwardSupportLoop && openLoop`. -/
def usesLoop (ctx : Context) (activationType : ℕ) (inputs : List Tensor) (output : Tensor) : Bool :=
  let input0 := inputs.getD 0 {}
  let input1 := inputs.getD 1 {}
  -- One input need broadcast, the other needn't
  (needsBroadcast ctx input0 output != needsBroadcast ctx input1 output) &&
    (input0.dimensionFormat = output.dimensionFormat &&
      input1.dimensionFormat = output.dimensionFormat &&
      output.dimensionFormat ≠ .nc4hw4 && input0.type.code = 2 && activationType = 0) &&
    ctx.useLoop

/-- Use Loop instead of broadcast: one command for each region of the broadcast input. -/
def loopParam (opType : ℕ) (input0Broadcast : Bool) (regions : List (Region Ref)) : LoopParam where
  commands := regions.map fun reg => {
    op := .binary opType
    size := reg.size
    view := if input0Broadcast then [reg.dst, reg.src, reg.dst] else [reg.dst, reg.dst, reg.src]
    indexes := [2, 0, 1]
    iterIndexes := [-1, -1, -1]
    steps := [0, 0, 0] }
  loopNumber := 1
  tensorNumber := 3
  inputIndexes := [0, 1]
  outputIndexes := [2]

/-- The one command that computes the operator. -/
def single (refs : List Ref) (extras : List Tensor) : CommandBuffer where
  command := [{ op := .op, inputs := refs }]
  extras := extras

/-- The regions that the loop runs through. -/
def loopRegions (ctx : Context) (inputs : List Tensor) (output : Tensor) : List (Region Ref) :=
  let input0 := inputs.getD 0 {}
  let input1 := inputs.getD 1 {}
  if needsBroadcast ctx input0 output then (broadcastTensor {} input0 (.input 0) output).regions
  else (broadcastTensor {} input1 (.input 1) output).regions

/-- `onCompute` into an empty buffer. -/
def onCompute (ctx : Context) (opType activationType : ℕ) (inputs : List Tensor) (output : Tensor) :
    CommandBuffer × Tensor :=
  if isDirect inputs ∨ ctx.forwardNN = true then (single [.input 0, .input 1] [], output)
  else if usesLoop ctx activationType inputs output then
    ({ command := [{
        op := .loop (loopParam opType (needsBroadcast ctx (inputs.getD 0 {}) output)
          (loopRegions ctx inputs output))
        inputs := [.input 0, .input 1] }] }, output)
  else
    let (extras, refs) := broadcastInputs ctx inputs output []
    (single refs extras, output)

def onRecompute (ctx : Context) (inputs : List Tensor) (output : Tensor) (cmd : CommandBuffer) :
    Outcome (CommandBuffer × Tensor) :=
  match cmd.command with
  | [cmdP] =>
    if cmdP.op ≠ .op then .refused
    else if isDirect inputs then
      .done ({ cmd with
        command := [{ cmdP with inputs := (cmdP.inputs.set 0 (.input 0)).set 1 (.input 1) }] },
        output)
    else
      let (extras, refs) := broadcastInputs ctx inputs output cmd.extras
      .done ({ cmd with
        command := [{ cmdP with
          inputs := (cmdP.inputs.set 0 (refs.getD 0 .output)).set 1 (refs.getD 1 .output) }]
        extras := extras }, output)
  | _ => .refused

/-- What the shape computer gives: the output repeats both inputs. -/
structure ShapeComputed (inputs : List Tensor) (output : Tensor) : Prop where
  repeats0 : Repeats (inputs.getD 0 {}).shape output.shape
  repeats1 : Repeats (inputs.getD 1 {}).shape output.shape

/-- Where only `onRecompute` broadcasts the first input, into the type of the output, that is the
input's own. -/
def RecomputeFits (ctx : Context) (activationType : ℕ) (inputs : List Tensor) (output : Tensor) :
    Prop :=
  ¬ isDirect inputs → needsBroadcast ctx (inputs.getD 0 {}) output = true →
    ctx.forwardNN = true ∨ usesLoop ctx activationType inputs output = true →
    (inputs.getD 0 {}).type = output.type

/-! ### Contents -/

section Content

variable {α : Type*} [Zero α] {K : Kernels α} {ctx : Context} {opType activationType : ℕ}
  {inputs : List Tensor} {output : Tensor}

/-- What the operator computes for element `n`, in the arithmetic of `type`. -/
def value (K : Kernels α) (type : DataType) (opType activationType : ℕ) (inputs : List Tensor)
    (output : Tensor) (start : Memory α) (n : ℕ) : α :=
  K.activate activationType (K.binary type opType
    (start (.input 0) (index (pad (inputs.getD 0 {}).shape output.shape) n : ℕ))
    (start (.input 1) (index (pad (inputs.getD 1 {}).shape output.shape) n : ℕ)))

/-- The regions of a temporary tensor depend on the shape of the output alone. -/
theorem regions_broadcastTensor (cache input : Tensor) (r : Ref) :
    (broadcastTensor cache input r output).regions = (broadcastto input r output).regions :=
  rfl

section Operand

variable {b : CommandBuffer} {start : Memory α} {n : ℕ}

theorem operand_input (i : ℕ) :
    broadcastValue (reader inputs output b (b.memory K start)) (.input i) output.shape n =
      start (.input i) (index (pad (inputs.getD i {}).shape output.shape) n : ℕ) :=
  congrFun (read_input ..) _

theorem operand_extra {k i : ℕ} {cache : Tensor}
    (hextra : b.extras.getD k {} = broadcastTensor cache (inputs.getD i {}) (.input i) output)
    (hrep : Repeats (inputs.getD i {}).shape output.shape) (hn : n < output.rawSize) :
    broadcastValue (reader inputs output b (b.memory K start)) (.extra k) output.shape n =
      start (.input i) (index (pad (inputs.getD i {}).shape output.shape) n : ℕ) := by
  obtain ⟨d, hd⟩ : ∃ d, b.depth = d + 1 := ⟨_, rfl⟩
  have hself : index (pad output.shape output.shape) n = n := by
    have hpad : pad output.shape output.shape = output.shape.zip output.shape := by
      rw [pad, Nat.sub_self]
      rfl
    refine index_self (fun p hp => ?_) (by rwa [largeSize_pad])
    rw [hpad] at hp
    obtain ⟨j, hj, rfl⟩ := List.mem_iff_getElem.1 hp
    rw [List.getElem_zip]
  have hvirtual : (b.extras.getD k {}).virtual = true := by rw [hextra]; rfl
  have hshape : (b.extras.getD k {}).shape = output.shape := by rw [hextra]; rfl
  have hvalue : read inputs output b (b.memory K start) b.depth (.extra k) n =
      start (.input i) (index (pad (inputs.getD i {}).shape output.shape) n : ℕ) := by
    rw [hd, read_virtual hvirtual, hextra, regions_broadcastTensor, raster_broadcastto hrep _ hn,
      read_input]
    rfl
  rw [← hvalue, broadcastValue]
  simp only [reader, tensorAt, hshape, hself]

end Operand

/-- The command reads both operands directly. -/
theorem content_direct (hout : output.virtual = false) (extras : List Tensor) (start : Memory α)
    {n : ℕ} (hn : n < output.rawSize) :
    content K (.binary opType activationType) inputs output (single [.input 0, .input 1] extras)
        start n =
      value K (inputs.getD 0 {}).type opType activationType inputs output start n := by
  rw [content_one hout rfl rfl]
  have hrange : (0 : ℤ) ≤ n ∧ (n : ℤ) < output.shape.prod :=
    ⟨Int.natCast_nonneg n, Int.ofNat_lt.2 hn⟩
  refine (if_pos hrange).trans ?_
  exact congrArg (K.activate activationType) (congrArg₂ _ (operand_input 0) (operand_input 1))

/-- The command reads temporary tensors for the operands that are broadcast. -/
theorem content_broadcast (hout : output.virtual = false) (hshape : ShapeComputed inputs output)
    (cache : List Tensor) (start : Memory α) {n : ℕ} (hn : n < output.rawSize) :
    content K (.binary opType activationType) inputs output
        (single (broadcastInputs ctx inputs output cache).2
          (broadcastInputs ctx inputs output cache).1) start n =
      value K (if needsBroadcast ctx (inputs.getD 0 {}) output then output.type
        else (inputs.getD 0 {}).type) opType activationType inputs output start n := by
  rw [content_one hout rfl rfl]
  have hrange : (0 : ℤ) ≤ n ∧ (n : ℤ) < output.shape.prod :=
    ⟨Int.natCast_nonneg n, Int.ofNat_lt.2 hn⟩
  refine (if_pos hrange).trans ?_
  refine congrArg (K.activate activationType) ?_
  cases h0 : needsBroadcast ctx (inputs.getD 0 {}) output with
  | false =>
    cases h1 : needsBroadcast ctx (inputs.getD 1 {}) output with
    | false =>
      simp only [broadcastInputs, h0, h1]
      exact congrArg₂ _ (operand_input 0) (operand_input 1)
    | true =>
      simp only [broadcastInputs, h0, h1]
      exact congrArg₂ _ (operand_input 0)
        (operand_extra rfl hshape.repeats1 hn)
  | true =>
    cases h1 : needsBroadcast ctx (inputs.getD 1 {}) output with
    | false =>
      simp only [broadcastInputs, h0, h1]
      exact congrArg₂ _ (operand_extra rfl hshape.repeats0 hn) (operand_input 1)
    | true =>
      simp only [broadcastInputs, h0, h1]
      exact congrArg₂ _ (operand_extra rfl hshape.repeats0 hn)
        (operand_extra rfl hshape.repeats1 hn)

/-- One command of the loop runs through one region. -/
theorem run_loopCommand (R : Reader α) (stack : ℤ → Ref) (input0Broadcast : Bool)
    (reg : Region Ref) (out : ℤ → α) :
    RegionCommand.run K R stack
        { op := .binary opType
          size := reg.size
          view :=
            if input0Broadcast then [reg.dst, reg.src, reg.dst] else [reg.dst, reg.dst, reg.src]
          indexes := [2, 0, 1], iterIndexes := [-1, -1, -1], steps := [0, 0, 0] } 0 out =
      (boxIndices reg.size).foldl (fun out i => Function.update out (reg.dst.address i)
        ((fun s o => K.binary (R.type (stack 0)) opType
          (R.value (stack 0) (if input0Broadcast then s else o))
          (R.value (stack 1) (if input0Broadcast then o else s)))
          (reg.src.address i) (reg.dst.address i))) out := by
  cases input0Broadcast <;>
    simp [RegionCommand.run, RegionCommand.target, RegionCommand.element, RegionCommand.offset,
      RegionCommand.viewAt, RegionCommand.operand, View.address, add_assoc]

/-- An operand that needs no broadcast has the elements of the output. -/
theorem index_of_not_needsBroadcast {input : Tensor} (h : needsBroadcast ctx input output = false)
    (hrep : Repeats input.shape output.shape) {n : ℕ} (hn : n < output.rawSize) :
    index (pad input.shape output.shape) n = n := by
  have hsize : output.rawSize = input.rawSize := by
    simp only [needsBroadcast, Bool.or_eq_false_iff, decide_eq_false_iff_not, not_not] at h
    exact h.1.1
  exact hrep.index_self hsize.symm hn

/-- The loop reads one operand along the regions and the other one at the output's addresses. -/
theorem content_loop (hout : output.virtual = false) (hshape : ShapeComputed inputs output)
    (hloop : usesLoop ctx activationType inputs output = true) (start : Memory α) {n : ℕ}
    (hn : n < output.rawSize) :
    content K (.binary opType activationType) inputs output
        { command := [{
            op := .loop (loopParam opType (needsBroadcast ctx (inputs.getD 0 {}) output)
              (loopRegions ctx inputs output))
            inputs := [.input 0, .input 1] }] } start n =
      value K (inputs.getD 0 {}).type opType activationType inputs output start n := by
  simp only [usesLoop, Bool.and_eq_true, bne_iff_ne, ne_eq, decide_eq_true_eq] at hloop
  obtain ⟨⟨hne, -, hactivation⟩, -⟩ := hloop
  have hvalue : value K (inputs.getD 0 {}).type opType activationType inputs output start n =
      K.binary (inputs.getD 0 {}).type opType
        (start (.input 0) (index (pad (inputs.getD 0 {}).shape output.shape) n : ℕ))
        (start (.input 1) (index (pad (inputs.getD 1 {}).shape output.shape) n : ℕ)) :=
    if_pos hactivation
  rw [content_one hout rfl rfl, hvalue]
  simp only [Command.run, LoopParam.run, loopParam, List.range_one, List.foldl_cons, List.foldl_nil,
    List.foldl_map, run_loopCommand]
  cases h0 : needsBroadcast ctx (inputs.getD 0 {}) output with
  | true =>
    have h1 : needsBroadcast ctx (inputs.getD 1 {}) output = false := by
      cases h1 : needsBroadcast ctx (inputs.getD 1 {}) output with
      | false => rfl
      | true => exact absurd (h0.trans h1.symm) hne
    rw [index_of_not_needsBroadcast h1 hshape.repeats1 hn, loopRegions, if_pos h0,
      regions_broadcastTensor]
    exact foldl_broadcastto hshape.repeats0 _ hn (fun s o => K.binary (inputs.getD 0 {}).type opType
      (start (.input 0) s) (start (.input 1) o)) _
  | false =>
    rw [index_of_not_needsBroadcast h0 hshape.repeats0 hn, loopRegions, h0,
      if_neg Bool.false_ne_true, regions_broadcastTensor]
    exact foldl_broadcastto hshape.repeats1 _ hn (fun s o => K.binary (inputs.getD 0 {}).type opType
      (start (.input 0) o) (start (.input 1) s)) _

end Content

/-! ### Recomputing -/

/-- The buffers that `onCompute` makes, and the empty one; a recomputed one has new operands. -/
inductive Cached (b : CommandBuffer) : Prop
  | empty (hb : b = {})
  | single (refs : List Ref) (extras : List Tensor) (hlen : refs.length = 2)
      (hb : b = single refs extras)
  | loop (param : LoopParam) (refs : List Ref)
      (hb : b = { command := [{ op := .loop param, inputs := refs }] })

variable {ctx : Context} {opType activationType : ℕ} {inputs : List Tensor} {output : Tensor}

theorem cached_onCompute : Cached (onCompute ctx opType activationType inputs output).1 := by
  by_cases hdirect : isDirect inputs ∨ ctx.forwardNN = true
  · rw [onCompute, if_pos hdirect]
    exact .single _ _ rfl rfl
  · rw [onCompute, if_neg hdirect]
    cases hloop : usesLoop ctx activationType inputs output with
    | true => exact .loop _ _ rfl
    | false => exact .single _ _ rfl rfl

/-- What `onRecompute` does with a buffer of its own kind. -/
theorem onRecompute_single {refs : List Ref} (hlen : refs.length = 2) (extras : List Tensor) :
    onRecompute ctx inputs output (single refs extras) =
      .done (if isDirect inputs then single [.input 0, .input 1] extras
        else single (broadcastInputs ctx inputs output extras).2
          (broadcastInputs ctx inputs output extras).1, output) := by
  obtain ⟨r0, r1, rfl⟩ := List.length_eq_two.1 hlen
  by_cases hdirect : isDirect inputs
  · simp [onRecompute, single, hdirect]
  · simp [onRecompute, single, hdirect, broadcastInputs]

theorem onRecompute_cases {cmd : CommandBuffer} (hcached : Cached cmd) :
    onRecompute ctx inputs output cmd = .refused ∨
      ∃ refs extras, refs.length = 2 ∧ cmd = single refs extras := by
  cases hcached with
  | empty hb =>
    subst hb
    exact .inl rfl
  | single refs extras hlen hb => exact .inr ⟨refs, extras, hlen, hb⟩
  | loop param refs hb =>
    subst hb
    exact .inl (by simp [onRecompute])

theorem cached_onRecompute {cmd : CommandBuffer} (hcached : Cached cmd)
    {result : CommandBuffer × Tensor}
    (hresult : onRecompute ctx inputs output cmd = .done result) : Cached result.1 := by
  rcases onRecompute_cases hcached with href | ⟨refs, extras, hlen, rfl⟩
  · rw [href] at hresult
    cases hresult
  · rw [onRecompute_single hlen] at hresult
    cases hresult
    by_cases hdirect : isDirect inputs
    · exact .single _ _ rfl (if_pos hdirect)
    · exact .single _ _ rfl (if_neg hdirect)

/-- **With the condition, recomputing denotes what computing does.** -/
theorem onRecompute_content {α : Type*} [Zero α] (K : Kernels α) (hout : output.virtual = false)
    (hshape : ShapeComputed inputs output)
    (hfits : RecomputeFits ctx activationType inputs output) {cmd : CommandBuffer}
    (hcached : Cached cmd) {result : CommandBuffer × Tensor}
    (hresult : onRecompute ctx inputs output cmd = .done result) (start : Memory α) {n : ℕ}
    (hn : n < output.rawSize) :
    content K (.binary opType activationType) inputs result.2 result.1 start n =
      content K (.binary opType activationType) inputs
        (onCompute ctx opType activationType inputs output).2
        (onCompute ctx opType activationType inputs output).1 start n := by
  rcases onRecompute_cases hcached with href | ⟨refs, extras, hlen, rfl⟩
  · rw [href] at hresult
    cases hresult
  rw [onRecompute_single hlen] at hresult
  cases hresult
  by_cases hdirect : isDirect inputs
  · rw [if_pos hdirect, onCompute, if_pos (.inl hdirect)]
    rw [content_direct hout extras start hn]
    exact (content_direct hout [] start hn).symm
  · simp only [if_neg hdirect]
    rw [content_broadcast hout hshape extras start hn]
    have htype : (ctx.forwardNN = true ∨ usesLoop ctx activationType inputs output = true) →
        (if needsBroadcast ctx (inputs.getD 0 {}) output then output.type
          else (inputs.getD 0 {}).type) = (inputs.getD 0 {}).type := by
      intro hother
      cases h0 : needsBroadcast ctx (inputs.getD 0 {}) output with
      | true => exact (hfits hdirect h0 hother).symm
      | false => rfl
    cases hnn : ctx.forwardNN with
    | true =>
      rw [htype (.inl hnn), onCompute, if_pos (.inr hnn)]
      exact (content_direct hout [] start hn).symm
    | false =>
      have hnot : ¬ (isDirect inputs ∨ ctx.forwardNN = true) := by simp [hdirect, hnn]
      cases hloop : usesLoop ctx activationType inputs output with
      | true =>
        rw [htype (.inr hloop), onCompute, if_neg hnot, if_pos hloop]
        exact (content_loop hout hshape hloop start hn).symm
      | false =>
        rw [onCompute, if_neg hnot, hloop, if_neg Bool.false_ne_true]
        exact (content_broadcast hout hshape [] start hn).symm

end GeometryBinary

end Mnn.Recompute
