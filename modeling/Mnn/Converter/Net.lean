import Mnn.Lib.Dataflow
import Mathlib.Data.List.GetD
import Mathlib.Tactic

/-!
# Nets of the converter

`NetT` and `OpT` of the schema, as far as the passes over them read or write
(`schema/default/MNN.fbs`).

* `Float32`: floats by their bits, with the comparison of C++;
* `Main`: the parameters of an operator; `OpT`, `NetT`, `TensorNetT`: operators and nets;
* `Params`, `OpT.node`: an operator as a node of a dataflow program, with all its parameters;
* `lookup`: the tensor of a name;
* `NetT.WellFormed`: single assignment, topological order, and distinct names;
* `NetT.InRange`: operators whose tensors are tensors of the net.
-/

namespace Mnn.Converter

open Lib.Dataflow

/-- A `float`, by its bits. -/
structure Float32 where
  bits : UInt32
  deriving DecidableEq, Repr

namespace Float32

def isNaN (x : Float32) : Bool := 0x7f800000 < x.bits &&& 0x7fffffff

def isZero (x : Float32) : Bool := x.bits &&& 0x7fffffff = 0

/-- `==` on floats: zeros of both signs are equal, and a NaN is not equal to anything. -/
def eq (x y : Float32) : Bool :=
  !x.isNaN && !y.isNaN && (x.bits = y.bits || (x.isZero && y.isZero))

end Float32

/-- `==` on vectors of floats. -/
def floatsEq (xs ys : List Float32) : Bool :=
  xs.length = ys.length && (xs.zip ys).all fun p => p.1.eq p.2

/-- `MNN::DataType`. -/
inductive DataType
  | float
  | int32
  | uint8
  | int8
  | int64
  | other (n : ℕ)
  deriving DecidableEq, Repr

/-- `MNN_DATA_FORMAT`. -/
inductive Format
  | nchw
  | nhwc
  | nc4hw4
  | nhwc4
  | unknown
  deriving DecidableEq, Repr

/-- `OpType`, with those that a pass names. -/
inductive OpType
  | input
  | const
  | relu
  | relu6
  | while
  | identity
  | cast
  | crop
  | concat
  | slice
  | seq2Out
  | extra
  | other (n : ℕ)
  deriving DecidableEq, Repr

/-- `Blob`. -/
structure Blob where
  dims : List ℤ := []
  dataFormat : Format := .nchw
  dataType : DataType := .float
  uint8s : List ℕ := []
  int8s : List ℤ := []
  int32s : List ℤ := []
  int64s : List ℤ := []
  float32s : List Float32 := []
  strings : List String := []
  external : List ℤ := []
  deriving DecidableEq, Repr

/-- `NetSource`. -/
inductive NetSource
  | caffe
  | tensorflow
  | tflite
  | onnx
  | torch
  deriving DecidableEq, Repr

/-- `OpParameter`, with those that a pass reads; the others keep a number for all they hold. -/
inductive Main
  | none
  | relu (slope : Float32)
  | relu6 (minValue maxValue : Float32)
  | blob (b : Blob)
  | reshape (dims : List ℤ) (dimType : Format)
  | tensorConvertInfo (source dest : Format)
  | unaryOp (opType : ℕ) (t : DataType) (tableInt8 : List ℤ)
  | binaryOp (opType : ℕ) (t : DataType) (activationType : ℤ)
  | reductionParam (operation : ℕ) (dim : List ℤ) (coeff : Float32) (keepDims : Bool)
      (dType : DataType)
  | whileParam (aliases_updates : List (List String)) (rest : ℕ)
  | extra (type : String) (rest : ℕ)
  | castParam (srcT dstT : DataType)
  | crop (axis : ℤ) (offset : List ℤ)
  | slice (axis : ℤ) (slicePoints : List ℤ) (sourceType : NetSource)
  | other (type content : ℕ)
  deriving DecidableEq, Repr

/-- `OpParameter` itself: which member of the union is set. -/
def Main.type : Main → ℕ ⊕ ℕ
  | .none => .inl 0
  | .relu _ => .inl 1
  | .relu6 _ _ => .inl 2
  | .blob _ => .inl 3
  | .reshape _ _ => .inl 4
  | .tensorConvertInfo _ _ => .inl 5
  | .unaryOp _ _ _ => .inl 6
  | .binaryOp _ _ _ => .inl 7
  | .reductionParam _ _ _ _ _ => .inl 8
  | .whileParam _ _ => .inl 9
  | .extra _ _ => .inl 10
  | .castParam _ _ => .inl 11
  | .crop _ _ => .inl 12
  | .slice _ _ _ => .inl 13
  | .other type _ => .inr type

/-- `OpT`. -/
structure OpT where
  inputIndexes : List ℤ
  main : Main := .none
  name : String
  outputIndexes : List ℤ
  type : OpType
  defaultDimentionFormat : Format := .nhwc
  externalPath : String := ""
  deriving DecidableEq, Repr

/-- `NetT`. -/
structure NetT where
  oplists : List OpT
  outputName : List String
  tensorName : List String
  sourceType : NetSource := .caffe
  deriving DecidableEq, Repr

/-- `TensorDescribeT`, with a number for what it says about the tensor. -/
structure TensorDescribeT where
  index : ℤ
  name : String
  rest : ℕ
  deriving DecidableEq, Repr

/-- A net with what it keeps about its tensors. -/
structure TensorNetT extends NetT where
  extraTensorDescribe : List TensorDescribeT := []
  tensorNumber : ℕ := 0
  deriving DecidableEq, Repr

/-- All parameters of an operator, and the number of its outputs: what its meaning may depend on. -/
structure Params where
  type : OpType
  main : Main
  defaultDimentionFormat : Format
  externalPath : String
  outputs : ℕ
  deriving DecidableEq, Repr

def OpT.params (op : OpT) : Params :=
  ⟨op.type, op.main, op.defaultDimentionFormat, op.externalPath, op.outputIndexes.length⟩

/-- The operator as a node of a dataflow program. -/
def OpT.node (op : OpT) : Node Params ℤ := ⟨op.params, op.inputIndexes, op.outputIndexes⟩

/-- `tensorName[t]`. -/
def nameAt (tensorName : List String) (t : ℤ) : String := tensorName.getD t.toNat ""

/-- The tensor of a name: the first that has it, as for the outputs of a program. -/
def lookup (tensorName : List String) (name : String) : Option ℕ :=
  tensorName.findIdx? fun s => s = name

theorem lookup_lt {tensorName : List String} {name : String} {t : ℕ}
    (h : lookup tensorName name = some t) : t < tensorName.length :=
  (List.findIdx?_eq_some_iff_findIdx_eq.1 h).1

theorem nameAt_set {tensorName : List String} {b t : ℤ} (name : String)
    (hb : 0 ≤ b ∧ b.toNat < tensorName.length) (ht : 0 ≤ t) :
    nameAt (tensorName.set b.toNat name) t = if t = b then name else nameAt tensorName t := by
  rw [nameAt, List.getD_eq_getElem?_getD, List.getElem?_set]
  by_cases h : t = b
  · rw [if_pos h, h, if_pos rfl, if_pos hb.2]
    rfl
  · have hne : b.toNat ≠ t.toNat := by omega
    rw [if_neg h, if_neg hne]
    rfl

/-- Distinct names at distinct places. -/
theorem nameAt_inj {tensorName : List String} (hnodup : tensorName.Nodup) {t t' : ℤ}
    (ht : 0 ≤ t ∧ t.toNat < tensorName.length) (ht' : 0 ≤ t' ∧ t'.toNat < tensorName.length)
    (h : nameAt tensorName t = nameAt tensorName t') : t = t' := by
  rw [nameAt, nameAt, List.getD_eq_getElem _ _ ht.2, List.getD_eq_getElem _ _ ht'.2] at h
  have := (hnodup.getElem_inj_iff).1 h
  omega

namespace NetT

variable (net : NetT)

def nodes : List (Node Params ℤ) := net.oplists.map OpT.node

/-- The tensor has this name and some operator produces it. -/
def Names (t : ℤ) (name : String) : Prop :=
  t ∈ produced net.nodes ∧ nameAt net.tensorName t = name

/-- The content of tensor `t`, for a meaning of the operators and contents of the other tensors. -/
def value {V : Type*} (f : Meaning Params V) (base : ℤ → V) (t : ℤ) : V := eval f base net.nodes t

/-- Single assignment in topological order, tensors with distinct names and operators with distinct
names, and declared outputs that are produced. -/
structure WellFormed : Prop where
  ordered : Ordered net.nodes
  range : ∀ t ∈ produced net.nodes, 0 ≤ t ∧ t.toNat < net.tensorName.length
  tensorName : net.tensorName.Nodup
  opName : (net.oplists.map OpT.name).Nodup
  outputName : ∀ name ∈ net.outputName, ∃ t, net.Names t name

/-- The tensors of the operators are tensors of the net; optional inputs are negative. -/
structure InRange : Prop where
  inputs : ∀ op ∈ net.oplists, ∀ t ∈ op.inputIndexes, t < net.tensorName.length
  outputs : ∀ op ∈ net.oplists, ∀ t ∈ op.outputIndexes, 0 ≤ t ∧ t < net.tensorName.length

end NetT

end Mnn.Converter
