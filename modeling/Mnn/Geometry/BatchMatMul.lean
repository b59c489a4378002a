import Mnn.Geometry.Command

/-!
# `GeometryBatchMatMul`

The geometry of `BatchMatMul` and `MatMul` (`source/geometry/GeometryBatchMatMul.cpp`): one `MatMul`
for matrices, and otherwise a loop over the batches, with offsets by steps (the fast way) or by
tables.

* `onCompute`, `onRecompute`: the code;
* `RecomputeFits`: the condition under which `onRecompute` notices what it has to;
* `Cached`: what a buffer without temporary tensors holds;
* `onRecompute_eq`: **with the condition, a buffer that `onRecompute` keeps is what `onCompute`
  makes**.
-/

namespace Mnn.Recompute

/-- `onRecompute` refuses, is done with a result, or reads parameters that are not there. -/
inductive Outcome (σ : Type*)
  | refused
  | done (s : σ)
  | fails

namespace GeometryBatchMatMul

/-! ### Sizes -/

/-- The loop over the batch dimensions. -/
structure BatchSizes where
  outputStrides : List ℕ := []
  input0Strides : List ℕ := []
  input1Strides : List ℕ := []
  totalSize : ℕ := 1
  i0Size : ℕ := 1
  i1Size : ℕ := 1
  deriving DecidableEq

/-- The length of an input at a batch dimension of the output, where it is more than one. -/
def batchLength (output input : Tensor) (i : ℕ) : Option ℕ :=
  let offset : ℤ := output.dimensions - input.dimensions
  if offset ≤ i ∧ 1 < input.length (i - offset).toNat then some (input.length (i - offset).toNat)
  else none

def batchStep (input0 input1 output : Tensor) (s : BatchSizes) (i : ℕ) : BatchSizes where
  outputStrides := s.totalSize :: s.outputStrides
  input0Strides := (if (batchLength output input0 i).isSome then s.i0Size else 0) :: s.input0Strides
  input1Strides := (if (batchLength output input1 i).isSome then s.i1Size else 0) :: s.input1Strides
  totalSize := s.totalSize * output.length i
  i0Size := s.i0Size * (batchLength output input0 i).getD 1
  i1Size := s.i1Size * (batchLength output input1 i).getD 1

def batchSizes (input0 input1 output : Tensor) : BatchSizes :=
  (List.range (output.dimensions - 2)).reverse.foldl (batchStep input0 input1 output) {}

/-- `e`, `l` and `h`. -/
structure MatSizes where
  e : ℕ
  l : ℕ
  h : ℕ
  deriving DecidableEq

def matSizes (transposeA transposeB : Bool) (input0 input1 : Tensor) : MatSizes :=
  let input0_end1 := input0.length (input0.dimensions - 2)
  let input0_end0 := input0.length (input0.dimensions - 1)
  let input1_end1 := input1.length (input1.dimensions - 2)
  let input1_end0 := input1.length (input1.dimensions - 1)
  { e := if transposeA then input0_end0 else input0_end1
    l := if transposeA then input0_end1 else input0_end0
    h := if transposeB then input1_end1 else input1_end0 }

/-- `fastway`. -/
def BatchSizes.fastway (s : BatchSizes) : Bool :=
  s.i0Size = s.i1Size || s.i0Size = 1 || s.i1Size = 1

/-! ### Loops -/

variable (transposeA transposeB : Bool)

def allViews (bias : Bool) (m : MatSizes) : List View :=
  [{ stride := ![m.h, 0, 1] },
   { stride := if transposeA then ![1, m.e, 0] else ![m.l, 1, 0] },
   { stride := if transposeB then ![0, 1, m.l] else ![0, m.h, 1] }] ++
  if bias then [{ stride := ![0, 0, 1] }] else []

/-- `steps`, with the zeros of the fast way. -/
def fastSteps (m : MatSizes) (s : BatchSizes) : List ℤ :=
  [m.e * m.h, if s.i0Size = 1 then 0 else m.e * m.l, if s.i1Size = 1 then 0 else m.l * m.h, 0]

/-- The loop of the fast way. -/
def fastLoop (bias : Bool) (m : MatSizes) (s : BatchSizes) : LoopParam :=
  let inputNumber := if bias then 3 else 2
  let number := inputNumber + 1
  { commands := [{
      op := .matMul transposeA transposeB
      size := ![m.e, m.l, m.h]
      view := allViews transposeA transposeB bias m
      indexes := [2, 0, 1, 3].take number
      iterIndexes := [-1, -1, -1, -1].take number
      steps := (fastSteps m s).take number }]
    loopNumber := s.totalSize
    tensorNumber := number
    parallel := true
    inputIndexes := [0, 1, 3].take inputNumber
    outputIndexes := [2] }

/-- The loop with tables of offsets. -/
def offsetLoop (bias : Bool) (m : MatSizes) (s : BatchSizes) : LoopParam :=
  let inputNumber := if bias then 5 else 4
  let number := inputNumber + 1
  let rgNumber := number - 2
  { commands := [{
      op := .matMul transposeA transposeB
      size := ![m.e, m.l, m.h]
      view := allViews transposeA transposeB bias m
      indexes := [4, 0, 1, 5].take rgNumber
      iterIndexes := [-1, 2, 3, -1].take rgNumber
      steps := [(m.e * m.h : ℤ), m.e * m.l, m.l * m.h, 0].take rgNumber }]
    loopNumber := s.totalSize
    tensorNumber := number
    parallel := true
    inputIndexes := [0, 1, 2, 3, 5].take inputNumber
    outputIndexes := [4] }

/-- The offset of one batch: the coordinates are unrolled along `outputStrides`. -/
def batchOffset (outputStrides inputStrides : List ℕ) (index : ℕ) : ℤ :=
  ((outputStrides.zip inputStrides).foldl (fun (c, offset) (stride, inputStride) =>
    (c % stride, offset + inputStride * (c / stride))) (index, 0)).2

def offsetTable (s : BatchSizes) (inputStrides : List ℕ) : List ℤ :=
  (List.range s.totalSize).map (batchOffset s.outputStrides inputStrides)

/-! ### The code -/

/-- The part of `onCompute` after the one-dimensional inputs: `input0`, `input1` and `output` are
the tensors that the commands use, at `r0`, `r1` and `ro`. -/
def computeMatrices (bias : Bool) (r0 r1 ro : Ref) (input0 input1 output : Tensor) :
    List Command × List (List ℤ) :=
  let biasRef := if bias then [Ref.input 2] else []
  let m := matSizes transposeA transposeB input0 input1
  let s := batchSizes input0 input1 output
  if output.dimensions = 2 then
    -- Use normal MatMul
    ([{ op := .op, inputs := [r0, r1] ++ biasRef, outputs := [ro] }], [])
  else if s.fastway then
    ([{ op := .loop (fastLoop transposeA transposeB bias m s)
        inputs := [r0, r1] ++ biasRef, outputs := [ro] }], [])
  else
    ([{ op := .loop (offsetLoop transposeA transposeB bias m s)
        inputs := [r0, r1, .const 0, .const 1] ++ biasRef, outputs := [ro] }],
      [offsetTable s s.input0Strides, offsetTable s s.input1Strides])

/-- A one-dimensional input as a matrix of the given shape. -/
def insertDimension (input : Tensor) (r : Ref) (shape : List ℕ) : Tensor :=
  { shape := shape, type := input.type, dimensionFormat := input.dimensionFormat, virtual := true
    regions := [input.makeFullSlice r] }

/-- `onCompute` into an empty buffer. -/
def onCompute (inputs : List Tensor) (output : Tensor) : CommandBuffer × Tensor :=
  let input0 := inputs.getD 0 {}
  let input1 := inputs.getD 1 {}
  let bias : Bool := 2 < inputs.length
  -- Fill output by zero if one of inputs is empty.
  if input0.elementSize = 0 ∨ input1.elementSize = 0 then
    ({}, { output with regions := [], virtual := true })
  else
    let eInsert : Bool := input0.dimensions < 2
    let hInsert : Bool := input1.dimensions < 2
    let extras0 :=
      if eInsert then [insertDimension input0 (.input 0) [1, input0.length 0]] else []
    let extras1 :=
      if hInsert then [insertDimension input1 (.input 1) [input1.length 0, 1]] else []
    let matrix0 := extras0.headD input0
    let matrix1 := extras1.headD input1
    let r0 := if eInsert then .extra 0 else .input 0
    let r1 := if hInsert then .extra extras0.length else .input 1
    let squeeze := extras0.length + extras1.length
    if 0 < squeeze then
      let m := matSizes transposeA transposeB matrix0 matrix1
      let newTensor : Tensor := {
        shape := output.shape.take (output.dimensions + squeeze - 2) ++ [m.h, m.e]
        type := output.type, dimensionFormat := output.dimensionFormat }
      let (command, consts) := computeMatrices transposeA transposeB bias r0 r1 (.extra squeeze)
        matrix0 matrix1 newTensor
      (⟨command, extras0 ++ extras1 ++ [newTensor], consts⟩,
        { output with regions := [newTensor.makeFullSlice (.extra squeeze)], virtual := true })
    else
      let (command, consts) := computeMatrices transposeA transposeB bias r0 r1 .output matrix0
        matrix1 output
      (⟨command, [], consts⟩,
        if output.dimensions = 2 then output else { output with virtual := false })

/-- The numbers that `onRecompute` writes into the first command of a loop. -/
def patch (m : MatSizes) (s : BatchSizes) (c : RegionCommand) : RegionCommand :=
  { c with
    size := ![m.e, m.l, m.h]
    steps := ((c.steps.set 0 (m.e * m.h)).set 1 (if s.i0Size = 1 then 0 else m.e * m.l)).set 2
      (if s.i1Size = 1 then 0 else m.l * m.h)
    view := ((c.view.modify 0 fun v => { v with stride := Function.update v.stride 0 m.h }).modify 1
        fun v => { v with stride :=
          if transposeA then Function.update v.stride 1 m.e
          else Function.update v.stride 0 m.l }).modify 2
        fun v => { v with stride :=
          if transposeB then Function.update v.stride 2 m.l
          else Function.update v.stride 1 m.h } }

/-- `onRecompute`. -/
def onRecompute (inputs : List Tensor) (output : Tensor) (cmd : CommandBuffer) :
    Outcome (CommandBuffer × Tensor) :=
  let input0 := inputs.getD 0 {}
  let input1 := inputs.getD 1 {}
  match cmd.command with
  | [] => .refused
  | first :: rest =>
    -- TODO: Support broadcast case
    if 3 < first.inputs.length then .refused
    -- TODO: Support one-dimenstion matmul
    else if input0.dimensions < 2 ∨ input1.dimensions < 2 then .refused
    -- Fill output by zero if one of inputs is empty.
    else if input0.elementSize = 0 ∨ input1.elementSize = 0 then
      .done ({ cmd with command := [], extras := [] },
        { output with regions := [], virtual := true })
    -- Don't change
    else if output.dimensions = 2 then .done (cmd, output)
    else
      let m := matSizes transposeA transposeB input0 input1
      let s := batchSizes input0 input1 output
      match first.op with
      | .loop param =>
        let param := { param with
          loopNumber := s.totalSize
          commands := param.commands.modify 0 (patch transposeA transposeB m s) }
        .done ({ cmd with command := { first with op := .loop param } :: rest },
          { output with virtual := false })
      | _ => .fails

/-! ### Recomputing -/

/-- What the buffer was built for: no dimension was inserted, a matrix product stays one, and a loop
stays one of the fast way. -/
def RecomputeFits (inputs : List Tensor) (output : Tensor) (cmd : CommandBuffer) : Prop :=
  let input0 := inputs.getD 0 {}
  let input1 := inputs.getD 1 {}
  ∀ first ∈ cmd.command.head?, first.inputs.length ≤ 3 →
    2 ≤ input0.dimensions → 2 ≤ input1.dimensions →
    input0.elementSize ≠ 0 → input1.elementSize ≠ 0 →
    cmd.extras = [] ∧ (first.op = .op ↔ output.dimensions = 2) ∧
      (output.dimensions ≠ 2 → (batchSizes input0 input1 output).fastway = true)

/-- The one command that reads the operator's inputs directly. -/
def direct (bias : Bool) (what : CommandOp) : CommandBuffer :=
  { command := [{ op := what
                  inputs := [.input 0, .input 1] ++ if bias then [Ref.input 2] else [] }] }

/-- The buffers that `onCompute` makes. -/
inductive Cached (bias : Bool) (b : CommandBuffer) : Prop
  | empty (hcommand : b.command = [])
  | squeezed (hextras : b.extras ≠ []) (hop : ∀ first ∈ b.command.head?,
      first.inputs.length ≤ 3 → b.consts = [])
  | plain (hb : b = direct bias .op)
  | fast (m : MatSizes) (s : BatchSizes)
      (hb : b = direct bias (.loop (fastLoop transposeA transposeB bias m s)))
  | offset (hop : ∀ first ∈ b.command.head?, 3 < first.inputs.length)

variable {transposeA transposeB}

theorem patch_fastLoop (bias : Bool) (m m' : MatSizes) (s s' : BatchSizes) :
    { fastLoop transposeA transposeB bias m s with
      loopNumber := s'.totalSize
      commands := (fastLoop transposeA transposeB bias m s).commands.modify 0
        (patch transposeA transposeB m' s') } = fastLoop transposeA transposeB bias m' s' := by
  have hc : Function.update (![(m.h : ℤ), 0, 1] : Fin 3 → ℤ) 0 m'.h = ![(m'.h : ℤ), 0, 1] := by
    funext i
    fin_cases i <;> rfl
  have ha : (if transposeA then Function.update (![1, (m.e : ℤ), 0] : Fin 3 → ℤ) 1 m'.e
      else Function.update (![(m.l : ℤ), 1, 0] : Fin 3 → ℤ) 0 m'.l) =
      if transposeA then ![1, (m'.e : ℤ), 0] else ![(m'.l : ℤ), 1, 0] := by
    cases transposeA <;> funext i <;> fin_cases i <;> rfl
  have hb : (if transposeB then Function.update (![0, 1, (m.l : ℤ)] : Fin 3 → ℤ) 2 m'.l
      else Function.update (![0, (m.h : ℤ), 1] : Fin 3 → ℤ) 1 m'.h) =
      if transposeB then ![0, 1, (m'.l : ℤ)] else ![0, (m'.h : ℤ), 1] := by
    cases transposeB <;> funext i <;> fin_cases i <;> rfl
  cases bias <;> cases transposeA <;> cases transposeB <;>
    simp_all [fastLoop, patch, allViews, fastSteps]

section Matrices

variable {bias : Bool} {r0 r1 ro : Ref} {input0 input1 output : Tensor}

theorem computeMatrices_plain (hdim : output.dimensions = 2) :
    computeMatrices transposeA transposeB bias r0 r1 ro input0 input1 output =
      ([{ op := .op, inputs := [r0, r1] ++ if bias then [Ref.input 2] else [], outputs := [ro] }],
        []) :=
  if_pos hdim

theorem computeMatrices_fast (hdim : output.dimensions ≠ 2)
    (hfast : (batchSizes input0 input1 output).fastway = true) :
    computeMatrices transposeA transposeB bias r0 r1 ro input0 input1 output =
      ([{ op := .loop (fastLoop transposeA transposeB bias
            (matSizes transposeA transposeB input0 input1) (batchSizes input0 input1 output))
          inputs := [r0, r1] ++ if bias then [Ref.input 2] else [], outputs := [ro] }], []) :=
  (if_neg hdim).trans (if_pos hfast)

theorem computeMatrices_offset (hdim : output.dimensions ≠ 2)
    (hfast : (batchSizes input0 input1 output).fastway = false) :
    (computeMatrices transposeA transposeB bias r0 r1 ro input0 input1 output).1 =
      [{ op := .loop (offsetLoop transposeA transposeB bias
            (matSizes transposeA transposeB input0 input1) (batchSizes input0 input1 output))
         inputs := [r0, r1, .const 0, .const 1] ++ if bias then [Ref.input 2] else []
         outputs := [ro] }] := by
  rw [computeMatrices, if_neg hdim, if_neg (by rw [hfast]; exact Bool.false_ne_true)]

/-- Tables are allocated only for a loop that reads them. -/
theorem computeMatrices_consts :
    ∃ first, (computeMatrices transposeA transposeB bias r0 r1 ro input0 input1 output).1 =
        [first] ∧
      (first.inputs.length ≤ 3 →
        (computeMatrices transposeA transposeB bias r0 r1 ro input0 input1 output).2 = []) := by
  by_cases hdim : output.dimensions = 2
  · rw [computeMatrices_plain hdim]
    exact ⟨_, rfl, fun _ => rfl⟩
  · cases hfast : (batchSizes input0 input1 output).fastway with
    | true =>
      rw [computeMatrices_fast hdim hfast]
      exact ⟨_, rfl, fun _ => rfl⟩
    | false =>
      rw [computeMatrices_offset hdim hfast]
      refine ⟨_, rfl, fun hle => ?_⟩
      simp only [List.length_append, List.length_cons, List.length_nil] at hle
      omega

end Matrices

/-- Two inputs with two dimensions or more. -/
theorem onCompute_matrices {inputs : List Tensor} {output : Tensor}
    (h0 : 2 ≤ (inputs.getD 0 {}).dimensions) (h1 : 2 ≤ (inputs.getD 1 {}).dimensions)
    (he0 : (inputs.getD 0 {}).elementSize ≠ 0) (he1 : (inputs.getD 1 {}).elementSize ≠ 0) :
    onCompute transposeA transposeB inputs output =
      (⟨(computeMatrices transposeA transposeB (2 < inputs.length) (.input 0) (.input 1) .output
          (inputs.getD 0 {}) (inputs.getD 1 {}) output).1, [],
        (computeMatrices transposeA transposeB (2 < inputs.length) (.input 0) (.input 1) .output
          (inputs.getD 0 {}) (inputs.getD 1 {}) output).2⟩,
        if output.dimensions = 2 then output else { output with virtual := false }) := by
  have hnot0 : ¬ (inputs.getD 0 {}).dimensions < 2 := by omega
  have hnot1 : ¬ (inputs.getD 1 {}).dimensions < 2 := by omega
  simp only [onCompute, he0, he1, or_self, if_false, hnot0, hnot1, decide_false, Bool.false_eq_true,
    List.length_nil, List.headD_nil, Nat.add_zero, Nat.lt_irrefl]

/-- `onCompute` makes one of the buffers. -/
theorem cached_onCompute (inputs : List Tensor) (output : Tensor) :
    Cached transposeA transposeB (2 < inputs.length)
      (onCompute transposeA transposeB inputs output).1 := by
  by_cases hempty : (inputs.getD 0 {}).elementSize = 0 ∨ (inputs.getD 1 {}).elementSize = 0
  · refine .empty ?_
    simp only [onCompute, hempty, if_true]
  obtain ⟨he0, he1⟩ := not_or.1 hempty
  by_cases hdims : 2 ≤ (inputs.getD 0 {}).dimensions ∧ 2 ≤ (inputs.getD 1 {}).dimensions
  · rw [onCompute_matrices hdims.1 hdims.2 he0 he1]
    by_cases hdim : output.dimensions = 2
    · rw [computeMatrices_plain hdim]
      exact .plain rfl
    · cases hfast : (batchSizes (inputs.getD 0 {}) (inputs.getD 1 {}) output).fastway with
      | true =>
        rw [computeMatrices_fast hdim hfast]
        exact .fast _ _ rfl
      | false =>
        rw [computeMatrices_offset hdim hfast]
        refine .offset fun first hfirst => ?_
        rw [List.head?_cons, Option.mem_some_iff] at hfirst
        subst hfirst
        simp
  · -- a dimension is inserted, and the temporary tensors stand for it
    have hsqueeze : ∃ r0 r1 ro input0 input1 out extras, extras ≠ [] ∧
        (onCompute transposeA transposeB inputs output).1 =
          ⟨(computeMatrices transposeA transposeB (2 < inputs.length) r0 r1 ro input0 input1 out).1,
            extras,
            (computeMatrices transposeA transposeB (2 < inputs.length) r0 r1 ro input0 input1
              out).2⟩ := by
      by_cases h0 : (inputs.getD 0 {}).dimensions < 2
      · by_cases h1 : (inputs.getD 1 {}).dimensions < 2
        · simp only [onCompute, hempty, if_false, h0, h1, decide_true, if_true]
          exact ⟨_, _, _, _, _, _, _, by simp, rfl⟩
        · simp only [onCompute, hempty, if_false, h0, h1, decide_true, decide_false, if_true,
            Bool.false_eq_true]
          exact ⟨_, _, _, _, _, _, _, by simp, rfl⟩
      · have h1 : (inputs.getD 1 {}).dimensions < 2 := by
          by_contra h1
          exact hdims ⟨by omega, by omega⟩
        simp only [onCompute, hempty, if_false, h0, h1, decide_true, decide_false, if_true,
          Bool.false_eq_true]
        exact ⟨_, _, _, _, _, _, _, by simp, rfl⟩
    obtain ⟨r0, r1, ro, input0, input1, out, extras, hextras, hb⟩ := hsqueeze
    obtain ⟨first, hfirst, hconsts⟩ :=
      @computeMatrices_consts _ _ (2 < inputs.length) r0 r1 ro input0 input1 out
    rw [hb]
    refine .squeezed hextras fun c hc hle => ?_
    rw [hfirst, List.head?_cons, Option.mem_some_iff] at hc
    subst hc
    exact hconsts hle

/-- **With the condition, recomputing is computing.** -/
theorem onRecompute_eq {inputs : List Tensor} {output : Tensor} {cmd : CommandBuffer}
    (hcached : Cached transposeA transposeB (2 < inputs.length) cmd)
    (hfits : RecomputeFits inputs output cmd) :
    onRecompute transposeA transposeB inputs output cmd = .refused ∨
      onRecompute transposeA transposeB inputs output cmd =
        .done (onCompute transposeA transposeB inputs output) := by
  cases hcommand : cmd.command with
  | nil => exact .inl (by simp only [onRecompute, hcommand])
  | cons first rest =>
    by_cases hlen : 3 < first.inputs.length
    · exact .inl (by simp only [onRecompute, hcommand, hlen, if_true])
    by_cases hdims : (inputs.getD 0 {}).dimensions < 2 ∨ (inputs.getD 1 {}).dimensions < 2
    · exact .inl (by simp only [onRecompute, hcommand, hlen, if_false, hdims, if_true])
    right
    have h0 : 2 ≤ (inputs.getD 0 {}).dimensions := by omega
    have h1 : 2 ≤ (inputs.getD 1 {}).dimensions := by omega
    have hmem : first ∈ cmd.command.head? := by rw [hcommand]; rfl
    by_cases hempty : (inputs.getD 0 {}).elementSize = 0 ∨ (inputs.getD 1 {}).elementSize = 0
    · have hconsts : cmd.consts = [] := by
        cases hcached with
        | empty h => rw [hcommand] at h; cases h
        | squeezed _ hop => exact hop first hmem (by omega)
        | plain hb => rw [hb]; rfl
        | fast m s hb => rw [hb]; rfl
        | offset hop => exact absurd (hop first hmem) hlen
      simp only [onRecompute, onCompute, hcommand, hlen, if_false, hdims, hempty, if_true, hconsts]
    · obtain ⟨he0, he1⟩ := not_or.1 hempty
      obtain ⟨hextras, hop, hfast⟩ := hfits first hmem (by omega) h0 h1 he0 he1
      rw [onCompute_matrices h0 h1 he0 he1]
      cases hcached with
      | empty h => rw [hcommand] at h; cases h
      | squeezed h _ => exact absurd hextras h
      | offset h => exact absurd (h first hmem) hlen
      | plain hb =>
        have hdim : output.dimensions = 2 := hop.1 (by rw [hb] at hmem; cases hmem; rfl)
        rw [computeMatrices_plain hdim]
        simp only [onRecompute, hcommand, hlen, if_false, hdims, hempty, hdim, if_true]
        rw [hb]
        rfl
      | fast m s hb =>
        have hdim : output.dimensions ≠ 2 := fun hdim => by
          have := hop.2 hdim
          rw [hb] at hmem
          cases hmem
          cases this
        rw [computeMatrices_fast hdim (hfast hdim)]
        rw [hb] at hcommand
        cases hcommand
        have hpatch := @patch_fastLoop transposeA transposeB (2 < inputs.length) m
          (matSizes transposeA transposeB (inputs.getD 0 {}) (inputs.getD 1 {})) s
          (batchSizes (inputs.getD 0 {}) (inputs.getD 1 {}) output)
        simp only [onRecompute, hb, direct, hlen, if_false, hdims, hempty, hdim, hpatch]

end GeometryBatchMatMul

end Mnn.Recompute
