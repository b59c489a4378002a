import Mnn.Lib.Dataflow
import Mathlib.Tactic

/-!
# Modules of several submodules

`PipelineModule` (`express/module/PipelineModule.cpp`): a net is cut into submodules that run one
after another on a stack of variables.

* `Op`, `Net`: what the division reads of operators and nets;
* `collectNeededOps`: the operators that the outputs need;
* `cut`, `findBreakIndex`, `splitSubModuleForShapeConst`: the lists of operators of the submodules;
* `interface`, `checkInput`, `createSubModuleInfo`: their inputs and outputs;
* `stackMap`, `load`: the slots of the stack, and the module;
* `Interp`, `forward`: `PipelineModule::onForward`, with submodules that compute their operators;
* `value`, `Correct`: the values of the tensors, and what has to hold of a module;
* `Apart`: the condition under which it holds.
-/

namespace Mnn.PipelineModule

open Lib.Dataflow

/-! ### Nets -/

/-- `OpType`, with those that the division names. -/
inductive OpType
  | input
  | const
  | trainableParam
  | if
  | while
  | where
  | segment
  | unique
  | nonMaxSuppressionV2
  | moe
  | other (n : ℕ)
  deriving DecidableEq, Repr

/-- `Op`; `needContent` is `OpCommonUtils::opNeedContent` of its inputs, `inputContent` is
`SizeComputer::needInputContent`. -/
structure Op where
  type : OpType := .other 0
  whileParam : Bool := false
  inputIndexes : List ℤ := []
  outputIndexes : List ℤ := []
  needContent : ℕ → Bool := fun _ => true
  inputContent : List ℕ := []
  deriving Inhabited

/-- `Net`. -/
structure Net where
  oplists : List Op
  tensorName : List String

def needComputeOp (op : Op) : Bool :=
  op.type ≠ .input && op.type ≠ .const && op.type ≠ .trainableParam

def isBreakOp (op : Op) : Bool :=
  op.type = .if || (op.type = .while && op.whileParam) || op.type = .where || op.type = .segment ||
    op.type = .unique || op.type = .nonMaxSuppressionV2 || op.type = .moe

namespace Net

variable (net : Net)

def opAt (i : ℕ) : Op := net.oplists.getD i default

/-- An index inside the vectors over the tensors. -/
def inside (t : ℤ) : Bool := 0 ≤ t && t < net.tensorName.length

/-- All tensors. -/
def tensors : List ℤ := (List.range net.tensorName.length).map fun i : ℕ => (i : ℤ)

def nameAt (t : ℤ) : String := net.tensorName.getD t.toNat ""

/-- A tensor that `initConstTensors` makes. -/
def isConst (t : ℤ) : Bool :=
  net.oplists.any fun op =>
    (op.type = .const || op.type = .trainableParam) && op.outputIndexes.head? = some t

end Net

variable (net : Net)

/-! ### The operators that are needed -/

/-- The variables of `_collectNeededOps`. -/
structure Marks where
  tensorMask : ℤ → ℕ
  opMask : ℕ → Bool
  change : Bool

/-- One operator; there is no result if an index of a marked operator is outside the mask. -/
def visit (m : Marks) (i : ℕ) : Option Marks :=
  let op := net.opAt i
  if m.opMask i then some m
  else if op.outputIndexes.any fun t => m.tensorMask t = 1 then
    if op.inputIndexes.all net.inside then
      some {
        tensorMask := op.inputIndexes.foldl
          (fun mask t => if mask t ≠ 2 then Function.update mask t 1 else mask) m.tensorMask
        opMask := Function.update m.opMask i true
        change := true }
    else none
  else some m

/-- One pass over the operators. -/
def pass (m : Marks) : Option Marks :=
  (List.range net.oplists.length).foldlM (visit net) { m with change := false }

/-- The loop, for at most `fuel` passes. -/
def collect : ℕ → Marks → Option Marks
  | 0, _ => none
  | fuel + 1, m => (pass net m).bind fun m' => if m'.change then collect fuel m' else some m'

/-- The initial status; a tensor that is input and output is an input. -/
def initMarks (inputIndexes outputIndexes : List ℤ) : Marks where
  tensorMask t := if t ∈ inputIndexes then 2 else if t ∈ outputIndexes then 1 else 0
  opMask _ := false
  change := false

/-- `_collectNeededOps`. -/
def collectNeededOps (inputIndexes outputIndexes : List ℤ) : Option (List ℕ) :=
  (collect net (net.oplists.length + 1) (initMarks inputIndexes outputIndexes)).map fun m =>
    (List.range net.oplists.length).filter fun i => m.opMask i && needComputeOp (net.opAt i)

/-! ### The operators of the submodules -/

/-- `SubModuleInfo`; a submodule that is a break has no mask. -/
structure SubModuleInfo where
  opList : List ℕ
  inputs : List ℤ := []
  outputs : List ℤ := []
  tensorMask : Option (ℤ → ℕ) := none
  isBreak : Bool := false

/-- The submodule of a break. -/
def controlOp (i : ℕ) : SubModuleInfo where
  opList := [i]
  inputs := (net.opAt i).inputIndexes
  outputs := (net.opAt i).outputIndexes
  isBreak := true

/-- One operator of the loop that separates the graph, with the submodules and the current one. -/
def cutOp (p : List SubModuleInfo × List ℕ) (i : ℕ) : List SubModuleInfo × List ℕ :=
  if isBreakOp (net.opAt i) then
    ((if p.2 ≠ [] then p.1 ++ [{ opList := p.2 }] else p.1) ++ [controlOp net i], [])
  else (p.1, p.2 ++ [i])

/-- The submodules between the breaks. -/
def cut (selectOps : List ℕ) : List SubModuleInfo :=
  let p := selectOps.foldl (cutOp net) ([], [])
  if p.2 ≠ [] then p.1 ++ [{ opList := p.2 }] else p.1

/-- `constMask` after the operators. -/
def constMask (opList : List ℕ) : ℤ → Bool :=
  opList.foldl (fun constMask i =>
    let op := net.opAt i
    if op.outputIndexes = [] then constMask
    else if op.inputIndexes.zipIdx.all fun p => constMask p.1 || !op.needContent p.2 then
      op.outputIndexes.foldl (fun constMask t => Function.update constMask t true) constMask
    else constMask) net.isConst

/-- `_findBreakIndex`. -/
def findBreakIndex (opList : List ℕ) : List ℕ :=
  (List.range opList.length).filter fun v =>
    let op := net.opAt (opList.getD v 0)
    op.outputIndexes ≠ [] && op.inputIndexes ≠ [] && op.inputContent.any fun index =>
      index < op.inputIndexes.length &&
        !constMask net opList (op.inputIndexes.getD index 0)

/-- The loop over the breaks: the submodules so far, and where the current one starts. -/
def splitAt (opList : List ℕ) (p : List SubModuleInfo × ℕ) (breakIndex : ℕ) :
    List SubModuleInfo × ℕ :=
  (p.1 ++ (if p.2 < breakIndex then
      [{ opList := (opList.drop p.2).take (breakIndex - p.2) }] else []) ++
    [{ opList := [opList.getD breakIndex 0] }], breakIndex + 1)

/-- `_splitSubModuleForShapeConst`, for one submodule. -/
def splitOne (m : SubModuleInfo) : List SubModuleInfo :=
  if m.isBreak then [m]
  else
    let breakIndexes := findBreakIndex net m.opList
    if breakIndexes ≠ [] then
      let p := breakIndexes.foldl (splitAt m.opList) ([], 0)
      p.1 ++ if p.2 < m.opList.length then [{ opList := m.opList.drop p.2 }] else []
    else [m]

def splitSubModuleForShapeConst (origin : List SubModuleInfo) : List SubModuleInfo :=
  origin.flatMap (splitOne net)

/-! ### Inputs and outputs -/

/-- `_computeTensorMask`: 1 is read, 2 is written. -/
def computeTensorMask (opList : List ℕ) : ℤ → ℕ :=
  opList.foldl (fun tensorMask i =>
    let op := net.opAt i
    let tensorMask := op.inputIndexes.foldl
      (fun mask t => Function.update mask t (mask t ||| 1)) tensorMask
    op.outputIndexes.foldl (fun mask t => Function.update mask t (mask t ||| 2)) tensorMask)
    fun _ => 0

/-- The inputs and outputs of a submodule. -/
def interface (outputIndexes : List ℤ) (m : SubModuleInfo) : SubModuleInfo :=
  if m.isBreak then m
  else
    let mask := computeTensorMask net m.opList
    { m with
      tensorMask := some mask
      inputs := m.inputs ++ net.tensors.filter fun t => mask t = 1 && !net.isConst t
      outputs := m.outputs ++ net.tensors.filter fun t =>
        mask t = 2 || (mask t = 3 && t ∈ outputIndexes) }

/-- A tensor becomes an output of the first submodule that has it inside. -/
def extend : List SubModuleInfo → ℤ → Option (List SubModuleInfo)
  | [], _ => none
  | m :: ms, t =>
    match m.tensorMask with
    | none => (extend ms t).map (m :: ·)
    | some mask =>
      if mask t = 2 then some (m :: ms)
      else if mask t = 3 then
        some ({ m with
          outputs := m.outputs ++ [t]
          tensorMask := some (Function.update mask t 2) } :: ms)
      else (extend ms t).map (m :: ·)

/-- One input of a submodule is valid, or becomes so by a change of the submodules before. -/
def checkInput (inputIndexes : List ℤ) (before : List SubModuleInfo) (t : ℤ) :
    Option (List SubModuleInfo) :=
  if t ∈ inputIndexes || net.isConst t || before.any fun m => t ∈ m.outputs then some before
  else extend before t

/-- One submodule. -/
def addSubModule (inputIndexes outputIndexes : List ℤ) (before : List SubModuleInfo)
    (m : SubModuleInfo) : Option (List SubModuleInfo) :=
  let m := interface net outputIndexes m
  (m.inputs.foldlM (checkInput net inputIndexes) before).map (· ++ [m])

/-- `_createSubModuleInfo`, after the needed operators are collected. -/
def createSubModuleInfo (inputIndexes outputIndexes : List ℤ) (selectOps : List ℕ) :
    Option (List SubModuleInfo) :=
  (splitSubModuleForShapeConst net (cut net selectOps)).foldlM
    (addSubModule net inputIndexes outputIndexes) []

/-! ### The stack -/

/-- `stackMap`. -/
abbrev StackMap := ℤ → Option ℕ

/-- `stackMap.insert`: what is there stays. -/
def StackMap.insert (stackMap : StackMap) (t : ℤ) (s : ℕ) : StackMap :=
  if stackMap t = none then Function.update stackMap t (some s) else stackMap

/-- The slots of the inputs: for each tensor the first input with its name. -/
def inputSlots (inputs : List String) : StackMap := fun t =>
  if net.inside t then inputs.idxOf? (net.nameAt t) else none

/-- The slots of the constants: each takes one, also where the tensor has one. -/
def constSlots (inputs : List String) : StackMap :=
  ((net.tensors.filter net.isConst).zipIdx inputs.length).foldl
    (fun stackMap p => stackMap.insert p.1 p.2) (inputSlots net inputs)

/-- A slot for a tensor that has none. -/
def addSlot (p : StackMap × ℕ) (t : ℤ) : StackMap × ℕ :=
  if p.1 t = none then (Function.update p.1 t (some p.2), p.2 + 1) else p

/-- The slots, and the size of the stack. -/
def slots (inputs : List String) (infos : List SubModuleInfo) : StackMap × ℕ :=
  (infos.flatMap fun m => m.inputs ++ m.outputs).foldl addSlot
    (constSlots net inputs, inputs.length + (net.tensors.filter net.isConst).length)

/-! ### Loading -/

/-- A submodule with its slots. -/
structure SubModule where
  info : SubModuleInfo
  inputs : List ℕ
  outputs : List ℕ

/-- `PipelineModule`; `stackMap` is that of `load`. -/
structure Module where
  mSubModules : List SubModule
  mInitVars : List ℤ
  mInputSize : ℕ
  mOutputIndex : List ℕ
  mStackSize : ℕ
  stackMap : StackMap

/-- What `load` does: it may read and write outside a vector. -/
inductive Loaded
  | undefined
  | failed
  | module (m : Module)

/-- The tensor of an output name: the last one that has it. -/
def tensorOf (name : String) : Option ℤ := net.tensors.reverse.find? fun t => net.nameAt t = name

def inputIndexes (inputs : List String) : List ℤ :=
  net.tensors.filter fun t => net.nameAt t ∈ inputs

def outputIndexes (outputs : List String) : List ℤ :=
  net.tensors.filter fun t => net.nameAt t ∈ outputs

/-- The module; a tensor without a slot gets the default of `std::map`. -/
def build (inputs outputs : List String) (infos : List SubModuleInfo) : Module :=
  let stackMap := (slots net inputs infos).1
  { mSubModules := infos.map fun m => {
      info := m
      inputs := m.inputs.map fun t => (stackMap t).getD 0
      outputs := m.outputs.map fun t => (stackMap t).getD 0 }
    mInitVars := net.tensors.filter net.isConst
    mInputSize := inputs.length
    mOutputIndex := outputs.map fun name => ((tensorOf net name).bind stackMap).getD 0
    mStackSize := (slots net inputs infos).2
    stackMap }

/-- `PipelineModule::load`. -/
def load (inputs outputs : List String) : Loaded :=
  if outputs.all fun name => (tensorOf net name).isSome then
    match collectNeededOps net (inputIndexes net inputs) (outputIndexes net outputs) with
    | none => .undefined
    | some selectOps =>
      match createSubModuleInfo net (inputIndexes net inputs) (outputIndexes net outputs)
        selectOps with
      | none => .failed
      | some infos => .module (build net inputs outputs infos)
  else .failed

/-! ### Running -/

/-- What constants hold, and what operators compute for each of their outputs. -/
structure Interp (V : Type) where
  const : ℤ → V
  apply : ℕ → List (Option V) → ℕ → V

section Forward

variable {V : Type} (I : Interp V)

def Interp.meaning : Meaning ℕ (Option V) := fun i args k => some (I.apply i args k)

def Net.nodes (ops : List ℕ) : List (Node ℕ ℤ) :=
  ops.map fun i => ⟨i, (net.opAt i).inputIndexes, (net.opAt i).outputIndexes⟩

/-- What a submodule reads before its operators run: its inputs, and constants. -/
def bind (m : SubModuleInfo) (args : List (Option V)) : ℤ → Option V := fun t =>
  match m.inputs.idxOf? t with
  | some k => args.getD k none
  | none => if net.isConst t then some (I.const t) else none

/-- `Module::onForward` of a submodule. -/
def forwardOne (m : SubModuleInfo) (args : List (Option V)) : List (Option V) :=
  m.outputs.map (eval I.meaning (bind net I m args) (net.nodes m.opList))

/-- A submodule reads and writes the stack. -/
def runOne (mStack : List (Option V)) (m : SubModule) : List (Option V) :=
  (m.outputs.zip (forwardOne net I m.info (m.inputs.map fun s => mStack.getD s none))).foldl
    (fun mStack p => mStack.set p.1 p.2) mStack

/-- The stack before the submodules run. -/
def initStack (m : Module) (inputs : List V) : List (Option V) :=
  let mStack := m.mInitVars.zipIdx.foldl
    (fun mStack p => mStack.set (p.2 + m.mInputSize) (some (I.const p.1)))
    (List.replicate m.mStackSize none)
  inputs.zipIdx.foldl (fun mStack p => mStack.set p.2 (some p.1)) mStack

/-- The stack before submodule `k` runs. -/
def stackAt (m : Module) (inputs : List V) (k : ℕ) : List (Option V) :=
  (m.mSubModules.take k).foldl (runOne net I) (initStack I m inputs)

/-- `PipelineModule::onForward`. -/
def forward (m : Module) (inputs : List V) : List (Option V) :=
  m.mOutputIndex.map fun s => (stackAt net I m inputs m.mSubModules.length).getD s none

end Forward

/-! ### What has to hold -/

/-- The operators from which an output is reached without passing an input. -/
inductive Reach (inputs outputs : List String) : ℕ → Prop
  | output {i : ℕ} {t : ℤ} (hi : i < net.oplists.length) (ht : t ∈ (net.opAt i).outputIndexes)
      (hout : t ∈ outputIndexes net outputs) (hin : t ∉ inputIndexes net inputs) :
      Reach inputs outputs i
  | input {i j : ℕ} {t : ℤ} (hi : i < net.oplists.length) (ht : t ∈ (net.opAt i).outputIndexes)
      (hj : Reach inputs outputs j) (hread : t ∈ (net.opAt j).inputIndexes)
      (hin : t ∉ inputIndexes net inputs) : Reach inputs outputs i

/-- A needed operator. -/
def Needed (inputs outputs : List String) (i : ℕ) : Prop :=
  Reach net inputs outputs i ∧ needComputeOp (net.opAt i) = true

open Classical in
/-- The needed operators, in their order. -/
noncomputable def neededOps (inputs outputs : List String) : List ℕ :=
  (List.range net.oplists.length).filter fun i => Needed net inputs outputs i

/-- The values of the tensors: the inputs and the constants are given, and the needed operators run
one after another. -/
noncomputable def value {V : Type} (I : Interp V) (inputs outputs : List String) (given : List V) :
    ℤ → Option V :=
  evalPinned I.meaning
    (fun t => match inputSlots net inputs t with
      | some k => given[k]?
      | none => if net.isConst t then some (I.const t) else none)
    (fun t => t ∈ inputIndexes net inputs) (net.nodes (neededOps net inputs outputs))

/-- What has to hold of a module. -/
structure Correct (inputs outputs : List String) (m : Module) : Prop where
  /-- Each needed operator is in one submodule, in the original order. -/
  ops : m.mSubModules.flatMap (fun sub => sub.info.opList) = neededOps net inputs outputs
  /-- Distinct tensors have distinct slots. -/
  distinct : ∀ t t' s, m.stackMap t = some s → m.stackMap t' = some s → t = t'
  /-- The input slots of a submodule hold the values of their tensors when it is reached. -/
  slots : ∀ (V : Type) (I : Interp V) (given : List V), given.length = inputs.length →
    ∀ (k : ℕ) (sub : SubModule), m.mSubModules[k]? = some sub →
      ∀ (i : ℕ) (t : ℤ) (s : ℕ), sub.info.inputs[i]? = some t → sub.inputs[i]? = some s →
        ∃ v, value net I inputs outputs given t = some v ∧
          (stackAt net I m given k).getD s none = some v
  /-- The outputs are those of the needed operators. -/
  outputs : ∀ (V : Type) (I : Interp V) (given : List V), given.length = inputs.length →
    ∀ (i : ℕ) (name : String), outputs[i]? = some name → ∀ t ∈ net.tensors, net.nameAt t = name →
      ∃ v, value net I inputs outputs given t = some v ∧ (forward net I m given)[i]? = some (some v)

/-! ### The condition -/

/-- Single assignment, operators after those that they read from, and only optional inputs outside
the tensors. -/
structure WellFormed : Prop where
  ordered : Ordered (net.nodes (List.range net.oplists.length))
  outputs : ∀ i < net.oplists.length, ∀ t ∈ (net.opAt i).outputIndexes, net.inside t = true
  inputs : ∀ i < net.oplists.length, ∀ t ∈ (net.opAt i).inputIndexes, t < net.tensorName.length
  sources : ∀ i < net.oplists.length, needComputeOp (net.opAt i) = false →
    (net.opAt i).inputIndexes = []

/-- When a module that was loaded is correct. -/
structure Apart (inputs outputs : List String) : Prop where
  /-- The names of inputs and outputs are names of one tensor. -/
  names : ∀ t ∈ net.tensors, ∀ t' ∈ net.tensors, net.nameAt t = net.nameAt t' →
    net.nameAt t ∈ inputs ∨ net.nameAt t ∈ outputs → t = t'
  /-- A constant that is an input is read by breaks only. -/
  consts : ∀ i, Needed net inputs outputs i → isBreakOp (net.opAt i) = false →
    ∀ t ∈ (net.opAt i).inputIndexes, t ∈ inputIndexes net inputs → net.isConst t = false
  /-- An input that a needed operator writes is not read, and no output. -/
  kept : ∀ i, Needed net inputs outputs i → ∀ t ∈ (net.opAt i).outputIndexes,
    t ∈ inputIndexes net inputs → t ∉ outputIndexes net outputs ∧
      ∀ j, Needed net inputs outputs j → t ∉ (net.opAt j).inputIndexes
  /-- An output is an input, a constant, or written by a needed operator. -/
  known : ∀ t ∈ outputIndexes net outputs, t ∈ inputIndexes net inputs ∨ net.isConst t = true ∨
    ∃ i, Needed net inputs outputs i ∧ t ∈ (net.opAt i).outputIndexes

end Mnn.PipelineModule
