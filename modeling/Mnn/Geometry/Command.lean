import Mnn.Geometry.Region
import Mnn.Core.ResizeCache
import Mnn.Lib.Broadcast

/-!
# Command buffers

What a geometry computer makes of an operator (`source/geometry/GeometryComputer.hpp`): commands,
temporary tensors, and the regions of the output.

* `Tensor`, `Ref`, `Op`: what geometry reads of tensors and operators;
* `RegionCommand`, `LoopParam`, `Command`, `CommandBuffer`: the buffer;
* `Kernels`: the arithmetic of the backends; `RegionCommand.run`, `LoopParam.run` (`CPULoop` in
  `source/backend/cpu/CPURaster.cpp`), `Command.run`;
* `content`: the output content that a buffer and the output's regions denote.

A tensor is referred to by its place: an input or the output of the operator, a temporary tensor of
the buffer, or a constant of the context.
-/

namespace Mnn.Recompute

open Resize (DataType Format)

/-- Which tensor a pointer points to. -/
inductive Ref
  | input (i : ℕ)
  | output
  | extra (k : ℕ)
  | const (k : ℕ)
  deriving DecidableEq, Repr

/-- What geometry reads of a tensor; `host` are the integers that it reads or writes itself. -/
structure Tensor where
  shape : List ℕ := []
  type : DataType := ⟨2, 32⟩
  dimensionFormat : Format := .nchw
  constant : Bool := false
  virtual : Bool := false
  regions : List (Region Ref) := []
  host : List ℤ := []

namespace Tensor

variable (t : Tensor)

/-- `Tensor::dimensions`. -/
def dimensions : ℕ := t.shape.length

/-- `Tensor::length`. -/
def length (i : ℕ) : ℕ := t.shape.getD i 1

/-- `TensorUtils::getRawSize`. -/
def rawSize : ℕ := t.shape.prod

/-- `Tensor::elementSize`: dimension 1 is rounded up to 4 channels in `NC4HW4`. -/
def elementSize : ℕ :=
  (t.shape.mapIdx fun i d =>
    if t.dimensionFormat = .nc4hw4 ∧ i = 1 then (d + 3) / 4 * 4 else d).prod

/-- `TensorUtils::makeFullSlice`, for the tensor `r`. -/
def makeFullSlice (r : Ref) : Region Ref where
  src := { stride := ![t.rawSize, t.rawSize, 1] }
  dst := { stride := ![t.rawSize, t.rawSize, 1] }
  size := ![1, 1, t.rawSize]
  origin := r

end Tensor

/-- `GeometryComputerUtils::makeRawAddressRef`. -/
def makeRawAddressRef (r : Ref) (srcOffset size : ℕ) : Region Ref where
  src := { offset := srcOffset }
  size := ![1, 1, size]
  origin := r

/-- The operators with an `onRecompute` of their own, with what it reads of them. -/
inductive Op
  /-- `BatchMatMul` and `MatMul`. -/
  | matMul (transposeA transposeB : Bool)
  | gather (axis : Option ℤ)
  | gatherND (axis : Option ℕ)
  | binary (opType activationType : ℕ)
  /-- `Squeeze`, `Unsqueeze`, `ExpandDims`, `Flatten` and `QuantizedReshape`. -/
  | single
  deriving DecidableEq, Repr

/-! ### Commands -/

/-- The operator of a `RegionCommand`; a unary operator without parameters copies. -/
inductive LoopOp
  | copy
  | binary (opType : ℕ)
  | matMul (transposeA transposeB : Bool)
  deriving DecidableEq, Repr

/-- `RegionCommand` of the schema. -/
structure RegionCommand where
  op : LoopOp
  size : Fin 3 → ℤ
  view : List View
  indexes : List ℤ
  iterIndexes : List ℤ
  steps : List ℤ
  deriving DecidableEq

/-- `LoopParam` of the schema. -/
structure LoopParam where
  commands : List RegionCommand
  loopNumber : ℕ
  tensorNumber : ℕ
  parallel : Bool := false
  inputIndexes : List ℤ
  outputIndexes : List ℤ
  deriving DecidableEq

/-- The operator of a command: the one that geometry was called for, one made by `makeBinary` or
`makeReduce`, or a loop. -/
inductive CommandOp
  | op
  | binary (opType : ℕ)
  | reduceSum
  | loop (param : LoopParam)
  deriving DecidableEq

structure Command where
  op : CommandOp
  inputs : List Ref
  outputs : List Ref := [.output]
  deriving DecidableEq

/-- `CommandBuffer`, with the constants that geometry allocated for it. -/
structure CommandBuffer where
  command : List Command := []
  extras : List Tensor := []
  consts : List (List ℤ) := []

/-! ### What a buffer denotes -/

/-- The arithmetic of a backend on the elements of tensors. -/
structure Kernels (α : Type*) where
  binary : DataType → ℕ → α → α → α
  activation : ℕ → α → α
  dot : List (α × α) → Option α → α
  sum : List α → α
  ofInt : ℤ → α
  toInt : α → ℤ

variable {α : Type*}

/-- Activation type 0 is none. -/
def Kernels.activate (K : Kernels α) (activationType : ℕ) (x : α) : α :=
  if activationType = 0 then x else K.activation activationType x

/-- The contents of all tensors. -/
abbrev Memory (α : Type*) := Ref → ℤ → α

/-- What a command reads: the contents, sizes and types of its tensors. -/
structure Reader (α : Type*) where
  value : Ref → ℤ → α
  size : Ref → ℕ
  type : Ref → DataType
  shape : Ref → List ℕ

namespace RegionCommand

variable (K : Kernels α) (R : Reader α) (stack : ℤ → Ref) (c : RegionCommand)

def operand (v : ℕ) : Ref := stack (c.indexes.getD v 0)

def viewAt (v : ℕ) : View := c.view.getD v {}

/-- Where operand `v` begins in one iteration. -/
def offset (iter : ℕ) (v : ℕ) : ℤ :=
  let iterIndex := c.iterIndexes.getD v (-1)
  let n : ℤ := if 0 ≤ iterIndex then K.toInt (R.value (stack iterIndex) iter) else iter
  n * c.steps.getD v 0 + (c.viewAt v).offset

/-- An element of operand `v`, counted from its offset. -/
def element (iter : ℕ) (v : ℕ) (i : Fin 3 → ℤ) : α :=
  R.value (c.operand stack v) (c.offset K R stack iter v +
    (i 0 * (c.viewAt v).stride 0 + i 1 * (c.viewAt v).stride 1 + i 2 * (c.viewAt v).stride 2))

/-- Where element `i` of the destination is. -/
def target (iter : ℕ) (i : Fin 3 → ℤ) : ℤ :=
  c.offset K R stack iter 0 +
    (i 0 * (c.viewAt 0).stride 0 + i 1 * (c.viewAt 0).stride 1 + i 2 * (c.viewAt 0).stride 2)

variable [Zero α]

/-- One iteration of `CPULoop::onExecute`. -/
def run (iter : ℕ) (out : ℤ → α) : ℤ → α :=
  match c.op with
  | .copy =>
    -- For Gather / Single Unary
    let dstOffset := c.offset K R stack iter 0
    let srcOffset := c.offset K R stack iter 1
    if 0 ≤ dstOffset ∧ dstOffset < R.size (c.operand stack 0) then
      (boxIndices c.size).foldl (fun out i => Function.update out (c.target K R stack iter i)
        (if 0 ≤ srcOffset ∧ srcOffset < R.size (c.operand stack 1) then
          c.element K R stack iter 1 i else 0)) out
    else out
  | .binary opType =>
    (boxIndices c.size).foldl (fun out i => Function.update out (c.target K R stack iter i)
      (K.binary (R.type (c.operand stack 1)) opType (c.element K R stack iter 1 i)
        (c.element K R stack iter 2 i))) out
  | .matMul _ _ =>
    (boxIndices ![c.size 0, 1, c.size 2]).foldl (fun out i =>
      Function.update out (c.target K R stack iter i) (K.dot
        ((List.range (c.size 1).toNat).map fun l : ℕ =>
          (c.element K R stack iter 1 ![i 0, l, i 2], c.element K R stack iter 2 ![i 0, l, i 2]))
        (if 3 < c.indexes.length then some (c.element K R stack iter 3 i) else none))) out

end RegionCommand

/-- `CPULoop::onExecute`, on the content of the output. -/
def LoopParam.run [Zero α] (K : Kernels α) (R : Reader α) (inputs outputs : List Ref)
    (p : LoopParam) (out : ℤ → α) : ℤ → α :=
  let stack (n : ℤ) : Ref :=
    if p.outputIndexes.contains n then outputs.getD (p.outputIndexes.idxOf n) .output
    else inputs.getD (p.inputIndexes.idxOf n) .output
  (List.range p.loopNumber).foldl (fun out iter =>
    p.commands.foldl (fun out c => c.run K R stack iter out) out) out

/-- Elementwise operators broadcast their operands. -/
def broadcastValue (R : Reader α) (r : Ref) (shape : List ℕ) (o : ℕ) : α :=
  R.value r (Lib.Broadcast.index (Lib.Broadcast.pad (R.shape r) shape) o)

/-- The content that a command leaves in its output. -/
def Command.run [Zero α] (K : Kernels α) (op : Op) (R : Reader α) (c : Command) (out : ℤ → α) :
    ℤ → α :=
  let input (v : ℕ) : Ref := c.inputs.getD v .output
  let shape := R.shape (c.outputs.getD 0 .output)
  match c.op, op with
  | .op, .binary opType activationType => fun o =>
    if 0 ≤ o ∧ o < shape.prod then
      K.activate activationType (K.binary (R.type (input 0)) opType
        (broadcastValue R (input 0) shape o.toNat) (broadcastValue R (input 1) shape o.toNat))
    else out o
  | .op, .matMul transposeA transposeB =>
    let rows := R.shape (input 0)
    let columns := R.shape (input 1)
    let e := if transposeA then rows.getD 1 1 else rows.getD 0 1
    let l := if transposeA then rows.getD 0 1 else rows.getD 1 1
    let h := if transposeB then columns.getD 0 1 else columns.getD 1 1
    fun o =>
      if 0 ≤ o ∧ o < e * h then
        let i := o / h
        let j := o % h
        K.dot ((List.range l).map fun k : ℕ =>
            (R.value (input 0) (if transposeA then k * e + i else i * l + k),
              R.value (input 1) (if transposeB then j * l + k else k * h + j)))
          (if 2 < c.inputs.length then some (R.value (input 2) j) else none)
      else out o
  | .binary opType, _ => fun o =>
    if 0 ≤ o ∧ o < shape.prod then
      K.binary (R.type (input 0)) opType (broadcastValue R (input 0) shape o.toNat)
        (broadcastValue R (input 1) shape o.toNat)
    else out o
  | .reduceSum, _ =>
    let rows := (R.shape (input 0)).getD 0 1
    let columns := (R.shape (input 0)).getD 1 1
    fun o =>
      if 0 ≤ o ∧ o < rows then
        K.sum ((List.range columns).map fun d : ℕ => R.value (input 0) (o * columns + d))
      else out o
  | .loop param, _ => param.run K R c.inputs c.outputs out
  -- the other operators are never commands
  | .op, _ => out

section Content

variable [Zero α] (K : Kernels α) (op : Op) (inputs : List Tensor) (output : Tensor)
  (b : CommandBuffer)

/-- The tensor that is referred to. -/
def tensorAt : Ref → Tensor
  | .input i => inputs.getD i {}
  | .output => output
  | .extra k => b.extras.getD k {}
  | .const k => { shape := [(b.consts.getD k []).length] }

/-- The contents before the first command: what geometry wrote, or anything. -/
def CommandBuffer.memory (start : Memory α) : Memory α
  | .extra k => fun o =>
    match (b.extras.getD k {}).host[o.toNat]? with
    | some n => K.ofInt n
    | none => start (.extra k) o
  | .const k => fun o => K.ofInt ((b.consts.getD k []).getD o.toNat 0)
  | r => start r

/-- Reads through virtual tensors; the inputs of the operator are read as they are. -/
def read (memory : Memory α) : ℕ → Ref → ℤ → α
  | 0, r => memory r
  | n + 1, r =>
    match r with
    | .input _ => memory r
    | .const _ => memory r
    | r =>
      if (tensorAt inputs output b r).virtual then
        raster (tensorAt inputs output b r).regions (read memory n)
      else memory r

/-- A virtual tensor refers to tensors that were there before it. -/
def CommandBuffer.depth : ℕ := b.extras.length + 1

def reader (memory : Memory α) : Reader α where
  value := read inputs output b memory b.depth
  size r := (tensorAt inputs output b r).elementSize
  type r := (tensorAt inputs output b r).type
  shape r := (tensorAt inputs output b r).shape

/-- All commands in order. -/
def runCommands (start : Memory α) : Memory α :=
  b.command.foldl (fun memory c => Function.update memory (c.outputs.getD 0 .output)
    (c.run K op (reader inputs output b memory) (memory (c.outputs.getD 0 .output))))
    (b.memory K start)

/-- The output content, from the contents that are there at the start. -/
def content (start : Memory α) : ℤ → α :=
  (reader inputs output b (runCommands K op inputs output b start)).value .output

variable {K op inputs output b}

theorem read_input (memory : Memory α) (n i : ℕ) :
    read inputs output b memory n (.input i) = memory (.input i) := by
  cases n <;> rfl

theorem read_output (hout : output.virtual = false) (memory : Memory α) (n : ℕ) :
    read inputs output b memory n .output = memory .output := by
  cases n with
  | zero => rfl
  | succ n => exact if_neg (by rw [tensorAt, hout]; exact Bool.false_ne_true)

theorem read_virtual {k : ℕ} (hk : (b.extras.getD k {}).virtual = true) (memory : Memory α)
    (n : ℕ) :
    read inputs output b memory (n + 1) (.extra k) =
      raster (b.extras.getD k {}).regions (read inputs output b memory n) :=
  if_pos hk

/-- A buffer with one command denotes what the command leaves. -/
theorem content_one (hout : output.virtual = false) {c : Command} (hb : b.command = [c])
    (hc : c.outputs = [.output]) (start : Memory α) :
    content K op inputs output b start =
      c.run K op (reader inputs output b (b.memory K start)) (start .output) := by
  refine (read_output hout _ _).trans ?_
  rw [runCommands, hb, List.foldl_cons, List.foldl_nil, hc]
  exact Function.update_self ..

end Content

end Mnn.Recompute
