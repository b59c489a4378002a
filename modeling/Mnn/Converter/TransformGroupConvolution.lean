import Mnn.Converter.GroupConvolution
import Mnn.Converter.Net
import Mnn.Lib.Run

/-!
# `TransformGroupConvolution`

The pass that turns convolutions with groups into depthwise ones, or splits them into one convolution
for each group between a slice and a concatenation
(`tools/converter/source/optimizer/postconvert/TransformGroupConvolution.cpp`).

* `turnConv2DW`, `newOps`, `split`, `visit`, `onExecute`: the pass;
* `places`, `onExecute_eq`: **the loop puts some operators in the place of every one**;
* `ordered_placed`: **the operators stay in topological order**;
* `meaning`, `Solved`: what the operators compute, and what the new ones say about the tensors;
* `Grouped`, `Fine`: the operators that the pass is for, and those that it handles;
* `computes_iff`: **what is put in the place of an operator computes the same exactly if it is
  fine**;
* `transformGroupConvolution_exact`: the pass on a net;
* `onExecute_keeps`: **the contents of all tensors are kept** if all operators are fine.
-/

namespace Mnn.Converter.TransformGroupConvolution

open Lib Lib.Dataflow GroupConvolution

/-- `OpType`, with those that the pass names. -/
inductive OpType
  | convolution
  | deconvolution
  | convolutionDepthwise
  | deconvolutionDepthwise
  | slice
  | concat
  | other (n : ℕ)
  deriving DecidableEq, Repr

/-- `OpParameter`; `slice` is a slice with the default source, which is caffe. -/
inductive Main (γ R κ : Type*)
  | convolution2D (c : Convolution2D γ R)
  | slice (axis : ℤ) (slicePoints : List ℤ)
  | axis (axis : ℤ)
  | other (content : κ)

structure OpT (γ R κ : Type*) where
  type : OpType
  name : String
  inputIndexes : List ℤ
  outputIndexes : List ℤ
  main : Main γ R κ

structure NetT (γ R κ : Type*) where
  oplists : List (OpT γ R κ)
  tensorName : List String
  sourceType : NetSource := .caffe

variable {γ σ P R κ : Type*}

/-- The parameters of a convolution or deconvolution, and whether it is one of the latter. -/
def OpT.conv2D (op : OpT γ R κ) : Option (Bool × Convolution2D γ R) :=
  match op.type, op.main with
  | .convolution, .convolution2D c => some (false, c)
  | .deconvolution, .convolution2D c => some (true, c)
  | _, _ => none

/-! ### The code -/

/-- An extent at the head of a quantised buffer: `weightShapePtr[i]`. -/
def weightShape (buffer : List UInt8) (i : ℕ) : ℕ :=
  (buffer.getD (1 + 2 * i) 0).toNat + 256 * (buffer.getD (2 + 2 * i) 0).toNat

def turnConv2DW (sourceType : NetSource) (c : Convolution2D γ R) : Bool :=
  match c.quanParameter with
  | some buffer =>
    -- check whether idst quantization model
    if (buffer.getD 0 0).toNat = 4 then
      let ci := weightShape buffer 1
      let ci :=
        if ci = 1 ∧ c.common.group ≠ 1 ∧ sourceType = .caffe then weightShape buffer 0 else ci
      c.common.outputCount = c.common.group ∧ ci = c.common.outputCount
    else false
  | none =>
    c.common.outputCount = c.common.group ∧ c.common.inputCount = c.common.outputCount

/-- The first loop, for one operator. -/
def turn (sourceType : NetSource) (op : OpT γ R κ) : OpT γ R κ :=
  match op.conv2D with
  | some (deconv, c) =>
    if turnConv2DW sourceType c then
      { op with type := if deconv then .deconvolutionDepthwise else .convolutionDepthwise }
    else op
  | none => op

/-- The convolutions that the second loop splits. -/
def splits (op : OpT γ R κ) : Option (Convolution2D γ R) :=
  match op.conv2D with
  | some (_, c) =>
    if c.common.group = 1 ∨ c.common.inputCount % c.common.group ≠ 0 ∨
        c.common.outputCount % c.common.group ≠ 0 then none
    else some c
  | none => none

/-- The indexes of `count` tensors, of which `n` is the first. -/
def indexesFrom (n count : ℕ) : List ℤ := (List.range count).map fun i => ((n + i : ℕ) : ℤ)

/-- A name with a number behind it. -/
def numbered (name : String) (count : ℕ) : List String :=
  (List.range count).map fun i => name ++ toString i

section Split

variable (n : ℕ) (op : OpT γ R κ) (c : Convolution2D γ R)

/-- The names of the new tensors, in the order of their indexes. -/
def newTensorNames : List String :=
  numbered (op.name ++ "___input___") c.common.group ++
    (numbered (op.name ++ "___output___") c.common.group ++
      if 1 < op.inputIndexes.length then
        numbered (op.name ++ "___input___weight___") c.common.group ++
          if op.inputIndexes.length = 3 then
            numbered (op.name ++ "___input___bias___") c.common.group
          else []
      else [])

def sliceOp (name : String) (input : ℤ) (outputs : List ℤ) (axis : ℤ) (points : List ℤ) :
    OpT γ R κ where
  type := .slice
  name := op.name ++ name
  inputIndexes := [input]
  outputIndexes := outputs
  main := .slice axis points

/-- The slices of the weights and of the bias that are inputs; those of a deconvolution are cut in the
same way. -/
def operandSlices : List (OpT γ R κ) :=
  if 1 < op.inputIndexes.length then
    sliceOp op "_____weight_____slice" (op.inputIndexes.getD 1 0)
        (indexesFrom (n + c.common.group + c.common.group) c.common.group) 0
        (slicePoints c.common.outputCount c.common.group) ::
      if op.inputIndexes.length = 3 then
        [sliceOp op "_____bias_____slice" (op.inputIndexes.getD 2 0)
          (indexesFrom (n + c.common.group + c.common.group + c.common.group) c.common.group) 0
          (slicePoints c.common.outputCount c.common.group)]
      else []
  else []

/-- The inputs of a new convolution. -/
def subInputs (i : ℕ) : List ℤ :=
  ((n + i : ℕ) : ℤ) ::
    if 1 < op.inputIndexes.length then
      ((n + c.common.group + c.common.group + i : ℕ) : ℤ) ::
        if op.inputIndexes.length = 3 then
          [((n + c.common.group + c.common.group + c.common.group + i : ℕ) : ℤ)]
        else []
    else []

/-- The weights and the bias that it stores. -/
def subParameters (i : ℕ) : List R × List R :=
  if 1 < op.inputIndexes.length then ([], [])
  else
    let partWeightSize := c.weight.length / c.common.group
    let partBiasSize := c.bias.length / c.common.group
    (cut c.weight partWeightSize i, cut c.bias partBiasSize i)

def newConvolutionT (i : ℕ) : Convolution2D γ R where
  common := c.common.part
  weight := (subParameters op c i).1
  bias := (subParameters op c i).2

def newConvOp (i : ℕ) : OpT γ R κ where
  type := op.type
  name := op.name ++ "__group__" ++ toString i
  inputIndexes := subInputs n op c i
  outputIndexes := [((n + c.common.group + i : ℕ) : ℤ)]
  main := .convolution2D (newConvolutionT op c i)

/-- `newOp`: the slices and the convolutions.  The new tensors are the inputs of the convolutions from
`n` on, then their outputs, and then the parts of the weights and of the bias that are inputs. -/
def newOps : List (OpT γ R κ) :=
  sliceOp op "_____slice" (op.inputIndexes.getD 0 0) (indexesFrom n c.common.group) 1
      (slicePoints c.common.inputCount c.common.group) ::
    (operandSlices n op c ++ (List.range c.common.group).map (newConvOp n op c))

/-- This operator becomes the concatenation. -/
def concatOp : OpT γ R κ :=
  { op with
    type := .concat
    inputIndexes := indexesFrom (n + c.common.group) c.common.group
    main := .axis 1 }

def split : List (OpT γ R κ) := newOps n op c ++ [concatOp n op c]

end Split

/-- The variables of the second loop; `iter` is at the first operator of `rest`. -/
structure State (γ R κ : Type*) where
  done : List (OpT γ R κ)
  rest : List (OpT γ R κ)
  tensorName : List String

def visit (s : State γ R κ) : State γ R κ :=
  match s.rest with
  | [] => s
  | op :: rest =>
    match splits op with
    | none => { s with done := s.done ++ [op], rest := rest }
    | some c =>
      -- `iter` is left at the first of the new operators
      { s with
        rest := split s.tensorName.length op c ++ rest
        tensorName := s.tensorName ++ newTensorNames op c }

/-- How often the second loop passes: once more for each operator that is put in. -/
def passes (ops : List (OpT γ R κ)) : ℕ :=
  (ops.map fun op => match splits op with
    | none => 1
    | some c => (split 0 op c).length + 1).sum

def onExecute (groupConvNative : Bool) (net : NetT γ R κ) : Option (NetT γ R κ) :=
  let oplists := net.oplists.map (turn net.sourceType)
  if groupConvNative then some { net with oplists := oplists }
  else
    (loop (fun s => s.rest.isEmpty) visit (passes oplists) ⟨[], oplists, net.tensorName⟩).map
      fun s => { net with oplists := s.done ++ s.rest, tensorName := s.tensorName }

/-! ### What is put in the place of an operator -/

/-- The convolutions that are split, if the second loop is run at all. -/
def splitBy (groupConvNative : Bool) (op : OpT γ R κ) : Option (Convolution2D γ R) :=
  if groupConvNative then none else splits op

/-- What is put in the place of an operator after the first loop, when there are `n` tensors. -/
def putInPlace (groupConvNative : Bool) (n : ℕ) (op : OpT γ R κ) : List (OpT γ R κ) :=
  match splitBy groupConvNative op with
  | none => [op]
  | some c => split n op c

/-- How many tensors it adds. -/
def added (groupConvNative : Bool) (op : OpT γ R κ) : ℕ :=
  match splitBy groupConvNative op with
  | none => 0
  | some c => (newTensorNames op c).length

/-- Every operator, with what the pass puts in its place when there are `n` tensors. -/
def places (groupConvNative : Bool) (sourceType : NetSource) :
    ℕ → List (OpT γ R κ) → List (OpT γ R κ × List (OpT γ R κ))
  | _, [] => []
  | n, op :: rest =>
    (op, putInPlace groupConvNative n (turn sourceType op)) ::
      places groupConvNative sourceType (n + added groupConvNative (turn sourceType op)) rest

section Loop

variable {n : ℕ} {op : OpT γ R κ} {c : Convolution2D γ R}

theorem splits_eq_none_of_group {new : OpT γ R κ}
    (h : ∀ deconv c, new.conv2D = some (deconv, c) → c.common.group = 1) : splits new = none := by
  unfold splits
  cases hconv : new.conv2D with
  | none => rfl
  | some p => exact if_pos (.inl (h p.1 p.2 hconv))

/-- No operator that is put in is split again. -/
theorem splits_of_mem_split {new : OpT γ R κ} (h : new ∈ split n op c) : splits new = none := by
  refine splits_eq_none_of_group fun deconv c' hconv => ?_
  rw [split, newOps, List.cons_append, List.mem_cons, List.mem_append, List.mem_append,
    List.mem_singleton] at h
  rcases h with rfl | (hslice | hconvOp) | rfl
  · cases hconv
  · unfold operandSlices at hslice
    split_ifs at hslice with h₁ h₃
    · rcases List.mem_pair.1 hslice with rfl | rfl <;> cases hconv
    · rw [List.mem_singleton.1 hslice] at hconv
      cases hconv
    · cases hslice
  · obtain ⟨i, -, rfl⟩ := List.mem_map.1 hconvOp
    unfold OpT.conv2D newConvOp at hconv
    split at hconv
    · next hmain =>
      cases hmain
      cases hconv
      rfl
    · next hmain =>
      cases hmain
      cases hconv
      rfl
    · cases hconv
  · cases hconv

/-- The loop steps over operators that it does not split. -/
theorem loop_skip {ops : List (OpT γ R κ)} (h : ∀ op ∈ ops, splits op = none) (fuel : ℕ)
    (done rest : List (OpT γ R κ)) (tensorName : List String) :
    loop (fun s => s.rest.isEmpty) visit (ops.length + fuel) ⟨done, ops ++ rest, tensorName⟩ =
      loop (fun s => s.rest.isEmpty) visit fuel ⟨done ++ ops, rest, tensorName⟩ := by
  induction ops generalizing done with
  | nil => rw [List.length_nil, Nat.zero_add, List.nil_append, List.append_nil]
  | cons op ops ih =>
    obtain ⟨hop, hops⟩ := List.forall_mem_cons.1 h
    have hvisit : visit ⟨done, op :: (ops ++ rest), tensorName⟩ =
        ⟨done ++ [op], ops ++ rest, tensorName⟩ := by
      simp only [visit, hop]
    rw [List.length_cons, Nat.succ_add, loop]
    refine (if_neg Bool.false_ne_true).trans ?_
    rw [List.cons_append, hvisit, ih hops, List.append_assoc]
    rfl

theorem length_split (n : ℕ) : (split n op c).length = (split 0 op c).length := by
  simp only [split, newOps, operandSlices, List.length_append, List.length_cons, List.length_map]
  split_ifs <;> rfl

/-- The second loop. -/
theorem loop_eq (sourceType : NetSource) (ops done : List (OpT γ R κ)) (tensorName : List String) :
    ∃ names, loop (fun s => s.rest.isEmpty) visit (passes (ops.map (turn sourceType)))
        ⟨done, ops.map (turn sourceType), tensorName⟩ =
      some ⟨done ++ (places false sourceType tensorName.length ops).flatMap Prod.snd, [], names⟩ := by
  induction ops generalizing done tensorName with
  | nil => exact ⟨tensorName, by rw [places, List.flatMap_nil, List.append_nil]; rfl⟩
  | cons op ops ih =>
    have hsplitBy : splitBy false (turn sourceType op) = splits (turn sourceType op) := rfl
    rw [places, List.flatMap_cons, List.map_cons, passes, List.map_cons, List.sum_cons, putInPlace,
      added, hsplitBy]
    cases hsplits : splits (turn sourceType op) with
    | none =>
      obtain ⟨names, hnames⟩ := ih (done ++ [turn sourceType op]) tensorName
      refine ⟨names, ?_⟩
      rw [List.append_assoc] at hnames
      refine Eq.trans ?_ hnames
      have hskip : ∀ o ∈ [turn sourceType op], splits o = none :=
        List.forall_mem_singleton.2 hsplits
      exact loop_skip hskip _ _ _ _
    | some c =>
      obtain ⟨names, hnames⟩ := ih (done ++ split tensorName.length (turn sourceType op) c)
        (tensorName ++ newTensorNames (turn sourceType op) c)
      refine ⟨names, ?_⟩
      rw [List.append_assoc, List.length_append] at hnames
      refine Eq.trans ?_ hnames
      have hvisit : visit ⟨done, turn sourceType op :: ops.map (turn sourceType), tensorName⟩ =
          ⟨done, split tensorName.length (turn sourceType op) c ++ ops.map (turn sourceType),
            tensorName ++ newTensorNames (turn sourceType op) c⟩ := by
        simp only [visit, hsplits]
      rw [Nat.add_right_comm, loop]
      refine (if_neg Bool.false_ne_true).trans ?_
      rw [hvisit, ← length_split tensorName.length]
      exact loop_skip (fun _ => splits_of_mem_split) _ _ _ _

/-- **The pass puts some operators in the place of every one.** -/
theorem onExecute_eq (groupConvNative : Bool) (net : NetT γ R κ) :
    ∃ names, onExecute groupConvNative net = some
      { net with
        oplists :=
          (places groupConvNative net.sourceType net.tensorName.length net.oplists).flatMap Prod.snd
        tensorName := names } := by
  unfold onExecute
  cases groupConvNative with
  | false =>
    obtain ⟨names, hnames⟩ := loop_eq net.sourceType net.oplists [] net.tensorName
    refine ⟨names, ?_⟩
    rw [if_neg Bool.false_ne_true, hnames, Option.map_some, List.append_nil, List.nil_append]
  | true =>
    have hplaces : ∀ (n : ℕ) (ops : List (OpT γ R κ)), (places true net.sourceType n ops).flatMap
        Prod.snd = ops.map (turn net.sourceType) := by
      intro n ops
      induction ops with
      | nil => rfl
      | cons op ops ih => exact congrArg (_ :: ·) ih
    exact ⟨net.tensorName, by rw [if_pos rfl, hplaces]⟩

end Loop

/-! ### Topological order -/

/-- What the meaning of an operator may depend on. -/
structure Kind (γ R κ : Type*) where
  type : OpType
  main : Main γ R κ
  outputs : ℕ

/-- The operator as a node of a dataflow program. -/
def OpT.node (op : OpT γ R κ) : Node (Kind γ R κ) ℤ :=
  ⟨⟨op.type, op.main, op.outputIndexes.length⟩, op.inputIndexes, op.outputIndexes⟩

def nodes (ops : List (OpT γ R κ)) : List (Node (Kind γ R κ) ℤ) := ops.map OpT.node

@[simp] theorem nodes_nil : nodes ([] : List (OpT γ R κ)) = [] := rfl
@[simp] theorem nodes_cons (op : OpT γ R κ) (ops : List (OpT γ R κ)) :
    nodes (op :: ops) = op.node :: nodes ops := rfl
@[simp] theorem nodes_append (ops ops' : List (OpT γ R κ)) :
    nodes (ops ++ ops') = nodes ops ++ nodes ops' := List.map_append

section Indexes

theorem mem_indexesFrom {n count : ℕ} {t : ℤ} :
    t ∈ indexesFrom n count ↔ (n : ℤ) ≤ t ∧ t < (n + count : ℕ) := by
  rw [indexesFrom, List.mem_map]
  constructor
  · rintro ⟨i, hi, rfl⟩
    have hlt := List.mem_range.1 hi
    omega
  · rintro ⟨hle, hlt⟩
    exact ⟨(t - n).toNat, List.mem_range.2 (by omega), by omega⟩

theorem nodup_indexesFrom (n count : ℕ) : (indexesFrom n count).Nodup := by
  refine List.Nodup.map ?_ List.nodup_range
  intro i j h
  exact Nat.add_left_cancel (Int.ofNat_inj.1 h)

theorem indexesFrom_add (n a b : ℕ) :
    indexesFrom n (a + b) = indexesFrom n a ++ indexesFrom (n + a) b := by
  rw [indexesFrom, List.range_add, List.map_append, List.map_map]
  refine congrArg (_ ++ ·) (List.map_congr_left fun i _ => ?_)
  rw [Function.comp_apply, Nat.add_assoc]

theorem length_indexesFrom (n count : ℕ) : (indexesFrom n count).length = count := by
  rw [indexesFrom, List.length_map, List.length_range]

theorem length_numbered (name : String) (count : ℕ) : (numbered name count).length = count := by
  rw [numbered, List.length_map, List.length_range]

end Indexes

section Order

variable {n : ℕ} {op : OpT γ R κ} {c : Convolution2D γ R}

theorem produced_newConvOps (count : ℕ) :
    produced (nodes ((List.range count).map (newConvOp n op c))) =
      indexesFrom (n + c.common.group) count := by
  rw [nodes, produced, List.map_map, List.flatMap_map]
  exact List.flatMap_pure_eq_map _ _

/-- How many tensors the slices of the weights and of the bias write. -/
def operandTensors (op : OpT γ R κ) (c : Convolution2D γ R) : ℕ :=
  if 1 < op.inputIndexes.length then
    c.common.group + if op.inputIndexes.length = 3 then c.common.group else 0
  else 0

theorem length_newTensorNames : (newTensorNames op c).length =
    c.common.group + (c.common.group + operandTensors op c) := by
  simp only [newTensorNames, operandTensors, List.length_append, length_numbered]
  split_ifs <;> simp only [List.length_append, length_numbered, List.length_nil]

theorem produced_operandSlices : produced (nodes (operandSlices n op c)) =
    indexesFrom (n + c.common.group + c.common.group) (operandTensors op c) := by
  unfold operandSlices operandTensors
  split_ifs
  · exact (congrArg (_ ++ ·) (List.append_nil _)).trans (indexesFrom_add _ _ _).symm
  · exact List.append_nil _
  · rfl

/-- The new operators write the new tensors and the outputs of the old one. -/
theorem produced_split : (produced (nodes (split n op c))).Perm
    (indexesFrom n (newTensorNames op c).length ++ op.outputIndexes) := by
  have hproduced : produced (nodes (split n op c)) = indexesFrom n c.common.group ++
      (indexesFrom (n + c.common.group + c.common.group) (operandTensors op c) ++
        (indexesFrom (n + c.common.group) c.common.group ++ op.outputIndexes)) := by
    rw [split, newOps, List.cons_append, nodes_cons, nodes_append, nodes_append, produced_cons,
      produced_append, produced_append, produced_operandSlices, produced_newConvOps,
      List.append_assoc, nodes_cons, nodes_nil, produced_cons, produced_nil, List.append_nil]
    rfl
  rw [hproduced, length_newTensorNames, indexesFrom_add n, indexesFrom_add (n + _),
    List.append_assoc, List.append_assoc]
  exact .append_left _ (List.perm_append_comm_assoc _ _ _)

/-- The new operators read the inputs of the old one, and what was written before them. -/
theorem fed_split {S : Set ℤ} (hS : ∀ t ∈ op.inputIndexes, t ∈ S) (hinputs : op.inputIndexes ≠ []) :
    Fed S (nodes (split n op c)) := by
  have hread : ∀ i < op.inputIndexes.length, op.inputIndexes.getD i 0 ∈ S := fun i hi =>
    List.getD_eq_getElem _ _ hi ▸ hS _ (List.getElem_mem hi)
  rw [split, newOps, List.cons_append, nodes_cons, nodes_append, nodes_append, Fed, fed_append,
    fed_append, produced_operandSlices, produced_append, produced_newConvOps]
  refine ⟨?_, ⟨fed_of_reads ?_, fed_of_reads ?_⟩, fed_of_reads ?_⟩
  · exact List.forall_mem_singleton.2 (hread 0 (List.length_pos_of_ne_nil hinputs))
  · intro m hm
    obtain ⟨new, hnew, rfl⟩ := List.mem_map.1 hm
    unfold operandSlices at hnew
    split_ifs at hnew with h₁ h₃
    · rcases List.mem_pair.1 hnew with rfl | rfl
      · exact List.forall_mem_singleton.2 (.inl (hread 1 h₁))
      · exact List.forall_mem_singleton.2 (.inl (hread 2 (by omega)))
    · rw [List.mem_singleton.1 hnew]
      exact List.forall_mem_singleton.2 (.inl (hread 1 h₁))
    · cases hnew
  · intro m hm
    obtain ⟨new, hnew, rfl⟩ := List.mem_map.1 hm
    obtain ⟨i, hi, rfl⟩ := List.mem_map.1 hnew
    have hi' := List.mem_range.1 hi
    have hfirst : ((n + i : ℕ) : ℤ) ∈ indexesFrom n c.common.group :=
      mem_indexesFrom.2 ⟨by omega, by omega⟩
    intro t ht
    rcases List.mem_cons.1 ht with rfl | ht
    · exact .inl (.inr hfirst)
    · refine .inr (mem_indexesFrom.2 ?_)
      unfold operandTensors
      split_ifs at ht ⊢ with h₁ h₃
      · rcases List.mem_pair.1 ht with rfl | rfl <;> omega
      · rw [List.mem_singleton.1 ht]
        omega
      · cases ht
  · rw [nodes_cons, nodes_nil]
    exact List.forall_mem_singleton.2 fun t ht => .inr (List.mem_append_right _ ht)

section Turn

variable (sourceType : NetSource) (op : OpT γ R κ)

theorem turn_cases : (∃ deconv c, op.conv2D = some (deconv, c) ∧ turnConv2DW sourceType c = true ∧
      turn sourceType op =
        { op with type := if deconv then .deconvolutionDepthwise else .convolutionDepthwise }) ∨
    (turn sourceType op = op ∧
      ∀ deconv c, op.conv2D = some (deconv, c) → turnConv2DW sourceType c = false) := by
  unfold turn
  cases hconv : op.conv2D with
  | none => exact .inr ⟨rfl, nofun⟩
  | some p =>
    obtain ⟨deconv, c⟩ := p
    dsimp only
    cases hturn : turnConv2DW sourceType c with
    | true => exact .inl ⟨deconv, c, rfl, hturn, if_pos rfl⟩
    | false =>
      refine .inr ⟨if_neg Bool.false_ne_true, fun deconv' c' h => ?_⟩
      obtain ⟨-, rfl⟩ := Prod.mk.inj (Option.some.inj h)
      exact hturn

@[simp] theorem turn_inputIndexes : (turn sourceType op).inputIndexes = op.inputIndexes := by
  rcases turn_cases sourceType op with ⟨_, _, -, -, h⟩ | ⟨h, -⟩ <;> rw [h]

@[simp] theorem turn_outputIndexes : (turn sourceType op).outputIndexes = op.outputIndexes := by
  rcases turn_cases sourceType op with ⟨_, _, -, -, h⟩ | ⟨h, -⟩ <;> rw [h]

end Turn

section Places

variable {groupConvNative : Bool} {sourceType : NetSource}

theorem produced_putInPlace : (produced (nodes (putInPlace groupConvNative n op))).Perm
    (indexesFrom n (added groupConvNative op) ++ op.outputIndexes) := by
  unfold putInPlace added
  cases splitBy groupConvNative op with
  | none =>
    rw [nodes_cons, nodes_nil, produced_cons, produced_nil, List.append_nil]
    exact .refl _
  | some c => exact produced_split

theorem fed_putInPlace {S : Set ℤ} (hS : ∀ t ∈ op.inputIndexes, t ∈ S)
    (hinputs : splitBy groupConvNative op ≠ none → op.inputIndexes ≠ []) :
    Fed S (nodes (putInPlace groupConvNative n op)) := by
  unfold putInPlace
  cases hsplit : splitBy groupConvNative op with
  | none => exact ⟨hS, trivial⟩
  | some c => exact fed_split hS (hinputs (by rw [hsplit]; exact Option.some_ne_none c))

variable (groupConvNative sourceType) in
/-- All operators after the pass. -/
def placed (n : ℕ) (ops : List (OpT γ R κ)) : List (OpT γ R κ) :=
  (places groupConvNative sourceType n ops).flatMap Prod.snd

theorem placed_cons (rest : List (OpT γ R κ)) : placed groupConvNative sourceType n (op :: rest) =
    putInPlace groupConvNative n (turn sourceType op) ++
      placed groupConvNative sourceType (n + added groupConvNative (turn sourceType op)) rest := rfl

variable (groupConvNative sourceType) in
/-- New tensors are written besides the old ones. -/
theorem produced_placed (n : ℕ) (ops : List (OpT γ R κ)) : ∃ count,
    (produced (nodes (placed groupConvNative sourceType n ops))).Perm
      (indexesFrom n count ++ produced (nodes ops)) := by
  induction ops generalizing n with
  | nil => exact ⟨0, .refl _⟩
  | cons op rest ih =>
    obtain ⟨count, hcount⟩ := ih (n + added groupConvNative (turn sourceType op))
    refine ⟨added groupConvNative (turn sourceType op) + count, ?_⟩
    rw [placed_cons, nodes_append, produced_append, nodes_cons, produced_cons, indexesFrom_add,
      List.append_assoc]
    refine (produced_putInPlace.append hcount).trans ?_
    rw [List.append_assoc, turn_outputIndexes]
    exact .append_left _ (List.perm_append_comm_assoc _ _ _)

theorem fed_placed {S : Set ℤ} (n : ℕ) {ops : List (OpT γ R κ)} (h : Fed S (nodes ops))
    (hinputs : ∀ op ∈ ops, splitBy groupConvNative (turn sourceType op) ≠ none →
      op.inputIndexes ≠ []) : Fed S (nodes (placed groupConvNative sourceType n ops)) := by
  induction ops generalizing n S with
  | nil => trivial
  | cons op rest ih =>
    obtain ⟨hop, hrest⟩ := List.forall_mem_cons.1 hinputs
    rw [placed_cons, nodes_append, fed_append]
    refine ⟨fed_putInPlace (by rw [turn_inputIndexes]; exact h.1) ?_, (ih _ h.2 hrest).mono ?_⟩
    · rw [turn_inputIndexes]
      exact hop
    · refine Set.union_subset_union_right _ fun t ht => ?_
      refine produced_putInPlace.mem_iff.2 (List.mem_append_right _ ?_)
      rw [turn_outputIndexes]
      exact ht

/-- **The operators stay in topological order.** -/
theorem ordered_placed {n : ℕ} {ops : List (OpT γ R κ)} (hordered : Ordered (nodes ops))
    (hrange : ∀ op ∈ ops, ∀ t ∈ op.inputIndexes ++ op.outputIndexes, t < n)
    (hinputs : ∀ op ∈ ops, splitBy groupConvNative (turn sourceType op) ≠ none →
      op.inputIndexes ≠ []) : Ordered (nodes (placed groupConvNative sourceType n ops)) := by
  have hlt : ∀ t ∈ produced (nodes ops), t < n := by
    intro t ht
    obtain ⟨m, hm, htm⟩ := mem_produced.1 ht
    obtain ⟨op, hop, rfl⟩ := List.mem_map.1 hm
    exact hrange op hop t (List.mem_append_right _ htm)
  obtain ⟨count, hcount⟩ := produced_placed groupConvNative sourceType n ops
  have hfed : Fed {t : ℤ | t < n ∧ t ∉ produced (nodes ops)} (nodes ops) := by
    refine hordered.fed fun m hm t ht hnot => ⟨?_, hnot⟩
    obtain ⟨op, hop, rfl⟩ := List.mem_map.1 hm
    exact hrange op hop t (List.mem_append_left _ ht)
  refine (fed_placed n hfed hinputs).ordered ?_ fun t ht => ?_
  · refine hcount.nodup_iff.2 (List.nodup_append.2 ⟨nodup_indexesFrom _ _, hordered.nodup, ?_⟩)
    rintro t ht _ ht' rfl
    exact absurd (hlt t ht') (not_lt.2 (mem_indexesFrom.1 ht).1)
  · rw [hcount.mem_iff, List.mem_append, not_or]
    exact ⟨fun hnew => absurd ht.1 (not_lt.2 (mem_indexesFrom.1 hnew).1), ht.2⟩

end Places

end Order

/-! ### What the operators compute -/

/-- The parts of planes along their channels, and of numbers along their first axis. -/
def sliceValue (axis : ℤ) (points : List ℤ) (outputs : ℕ) (input : Option (Value σ P R)) (i : ℕ) :
    Option (Value σ P R) :=
  match input with
  | some (.maps channels) =>
    if axis = 1 then (slice points outputs channels i).map .maps else none
  | some (.rows rows) => if axis = 0 then (slice points outputs rows i).map .rows else none
  | _ => none

def channelsOf : Option (Value σ P R) → Option (List P)
  | some (.maps channels) => some channels
  | _ => none

/-- Planes one after the other. -/
def concatValue (inputs : List (Option (Value σ P R))) : Option (Value σ P R) :=
  (inputs.mapM channelsOf).map fun parts => .maps parts.flatten

section Meaning

variable [Add P] [Zero P] (K : Kernels γ σ P R)
  (other : Kind γ R κ → List (Option (Value σ P R)) → ℕ → Option (Value σ P R))

/-- What an operator computes, with any meaning of the operators that the pass does not look at. -/
def meaning : Meaning (Kind γ R κ) (Option (Value σ P R)) := fun k inputs i =>
  match k.type, k.main with
  | .convolution, .convolution2D c => c.run K false inputs
  | .deconvolution, .convolution2D c => c.run K true inputs
  | .convolutionDepthwise, .convolution2D c => c.depthwise.run K false inputs
  | .deconvolutionDepthwise, .convolution2D c => c.depthwise.run K true inputs
  | .slice, .slice axis points =>
    if axis = 0 ∨ axis = 1 then sliceValue axis points k.outputs inputs.head?.join i
    else other k inputs i
  | .concat, .axis axis => if axis = 1 then concatValue inputs else other k inputs i
  | _, _ => other k inputs i

variable {K other} {n : ℕ} {op : OpT γ R κ} {deconv : Bool} {c : Convolution2D γ R}

theorem conv2D_eq_some_iff : op.conv2D = some (deconv, c) ↔
    op.type = (if deconv then .deconvolution else .convolution) ∧ op.main = .convolution2D c := by
  unfold OpT.conv2D
  constructor
  · intro h
    split at h
    · next htype hmain =>
      obtain ⟨rfl, rfl⟩ := Prod.mk.inj (Option.some.inj h)
      exact ⟨htype, hmain⟩
    · next htype hmain =>
      obtain ⟨rfl, rfl⟩ := Prod.mk.inj (Option.some.inj h)
      exact ⟨htype, hmain⟩
    · cases h
  · rintro ⟨htype, hmain⟩
    rw [htype, hmain]
    cases deconv <;> rfl

theorem meaning_conv2D (h : op.conv2D = some (deconv, c)) (inputs : List (Option (Value σ P R)))
    (i : ℕ) : meaning K other op.node.kind inputs i = c.run K deconv inputs := by
  obtain ⟨htype, hmain⟩ := conv2D_eq_some_iff.1 h
  rw [OpT.node, htype, hmain]
  cases deconv <;> rfl

theorem meaning_turned (h : op.conv2D = some (deconv, c)) (inputs : List (Option (Value σ P R)))
    (i : ℕ) : meaning K other (OpT.node { op with
      type := if deconv then .deconvolutionDepthwise else .convolutionDepthwise }).kind inputs i =
        c.depthwise.run K deconv inputs := by
  obtain ⟨-, hmain⟩ := conv2D_eq_some_iff.1 h
  rw [OpT.node, hmain]
  cases deconv <;> rfl

theorem meaning_concat (inputs : List (Option (Value σ P R))) (i : ℕ) :
    meaning K other (concatOp n op c).node.kind inputs i = concatValue inputs := by
  unfold meaning OpT.node concatOp
  exact if_pos rfl

theorem conv2D_newConvOp (h : op.conv2D = some (deconv, c)) (i : ℕ) :
    (newConvOp n op c i).conv2D = some (deconv, newConvolutionT op c i) :=
  conv2D_eq_some_iff.2 ⟨(conv2D_eq_some_iff.1 h).1, rfl⟩

theorem idxOf_indexesFrom {n count i : ℕ} (hi : i < count) :
    (indexesFrom n count).idxOf ((n + i : ℕ) : ℤ) = i := by
  have hlt : i < (indexesFrom n count).length := by rwa [length_indexesFrom]
  have hget : (indexesFrom n count)[i] = ((n + i : ℕ) : ℤ) := by
    simp only [indexesFrom, List.getElem_map, List.getElem_range]
  rw [← hget, (nodup_indexesFrom n count).idxOf_getElem]

theorem natCast_mem_indexesFrom {n count i : ℕ} (hi : i < count) :
    ((n + i : ℕ) : ℤ) ∈ indexesFrom n count :=
  mem_indexesFrom.2 ⟨by omega, by omega⟩

variable (K n op deconv c) in
/-- What the new operators say about the contents `E` of the tensors. -/
structure Solved (E : ℤ → Option (Value σ P R)) : Prop where
  input : ∀ i < c.common.group, E ((n + i : ℕ) : ℤ) = sliceValue 1
    (slicePoints c.common.inputCount c.common.group) c.common.group (E (op.inputIndexes.getD 0 0)) i
  weight : 1 < op.inputIndexes.length → ∀ i < c.common.group,
    E ((n + c.common.group + c.common.group + i : ℕ) : ℤ) = sliceValue 0
      (slicePoints c.common.outputCount c.common.group) c.common.group
      (E (op.inputIndexes.getD 1 0)) i
  bias : op.inputIndexes.length = 3 → ∀ i < c.common.group,
    E ((n + c.common.group + c.common.group + c.common.group + i : ℕ) : ℤ) = sliceValue 0
      (slicePoints c.common.outputCount c.common.group) c.common.group
      (E (op.inputIndexes.getD 2 0)) i
  conv : ∀ i < c.common.group, E ((n + c.common.group + i : ℕ) : ℤ) =
    (newConvolutionT op c i).run K deconv ((subInputs n op c i).map E)
  output : ∀ t ∈ op.outputIndexes,
    E t = concatValue ((indexesFrom (n + c.common.group) c.common.group).map E)

/-- A slice solves its equation. -/
theorem solves_sliceOp {E : ℤ → Option (Value σ P R)} {ops : List (OpT γ R κ)}
    (hsolves : Solves (meaning K other) E (nodes ops)) {name : String} {input : ℤ} {m count : ℕ}
    {axis : ℤ} (haxis : axis = 0 ∨ axis = 1) {points : List ℤ}
    (hmem : sliceOp op name input (indexesFrom m count) axis points ∈ ops) {i : ℕ} (hi : i < count) :
    E ((m + i : ℕ) : ℤ) = sliceValue axis points count (E input) i := by
  have h := hsolves _ (List.mem_map_of_mem hmem) _ (natCast_mem_indexesFrom hi)
  refine h.trans ?_
  have hidx := idxOf_indexesFrom (n := m) hi
  have hlen := length_indexesFrom m count
  show meaning K other ⟨.slice, .slice axis points, (indexesFrom m count).length⟩ [E input]
    ((indexesFrom m count).idxOf _) = _
  rw [hidx, hlen]
  exact if_pos haxis

theorem solved_of_solves (hconv : op.conv2D = some (deconv, c)) {E : ℤ → Option (Value σ P R)}
    (hsolves : Solves (meaning K other) E (nodes (split n op c))) : Solved K n op deconv c E := by
  have hnew : ∀ {o}, o ∈ newOps n op c → o ∈ split n op c := fun ho =>
    List.mem_append_left _ ho
  have hslices : ∀ {o}, o ∈ operandSlices n op c → o ∈ split n op c := fun ho =>
    hnew (List.mem_cons_of_mem _ (List.mem_append_left _ ho))
  refine ⟨fun i hi => ?_, fun h₁ i hi => ?_, fun h₃ i hi => ?_, fun i hi => ?_, fun t ht => ?_⟩
  · exact solves_sliceOp hsolves (.inr rfl) (hnew List.mem_cons_self) hi
  · have hmem : sliceOp op "_____weight_____slice" (op.inputIndexes.getD 1 0)
        (indexesFrom (n + c.common.group + c.common.group) c.common.group) 0
        (slicePoints c.common.outputCount c.common.group) ∈ operandSlices n op c := by
      rw [operandSlices, if_pos h₁]
      exact List.mem_cons_self
    exact solves_sliceOp hsolves (.inl rfl) (hslices hmem) hi
  · have hmem : sliceOp op "_____bias_____slice" (op.inputIndexes.getD 2 0)
        (indexesFrom (n + c.common.group + c.common.group + c.common.group) c.common.group) 0
        (slicePoints c.common.outputCount c.common.group) ∈ operandSlices n op c := by
      rw [operandSlices, if_pos (by omega), if_pos h₃]
      exact List.mem_cons_of_mem _ List.mem_cons_self
    exact solves_sliceOp hsolves (.inl rfl) (hslices hmem) hi
  · have hmem : newConvOp n op c i ∈ split n op c := hnew (List.mem_cons_of_mem _
      (List.mem_append_right _ (List.mem_map_of_mem (List.mem_range.2 hi))))
    refine (hsolves _ (List.mem_map_of_mem hmem) _ List.mem_cons_self).trans ?_
    exact meaning_conv2D (conv2D_newConvOp hconv i) _ _
  · have hmem : concatOp n op c ∈ split n op c :=
      List.mem_append_right _ List.mem_cons_self
    exact (hsolves _ (List.mem_map_of_mem hmem) t ht).trans (meaning_concat _ _)

end Meaning

/-! ### Operators that the pass handles -/

/-- The group divides both counts. -/
structure Divides (common : Common γ) : Prop where
  inputCount : common.group ∣ common.inputCount
  outputCount : common.group ∣ common.outputCount

/-- A deconvolution with an output shape has it as an input. -/
def shapeInputs (deconv : Bool) (c : Convolution2D γ R) : ℕ :=
  if deconv && c.common.hasOutputShape then 1 else 0

/-- A convolution as the pass gets it: sizes that are positive numbers of the type `int`; one to three
different inputs, and the output shape; one output; and weights and a bias of the right sizes, as
floats or in a quantised buffer, when they are stored. -/
structure Grouped (K : Kernels γ σ P R) (op : OpT γ R κ) (deconv : Bool) (c : Convolution2D γ R) :
    Prop where
  group_pos : 0 < c.common.group
  inputCount : 0 < c.common.inputCount ∧ c.common.inputCount < 2 ^ 31
  outputCount : 0 < c.common.outputCount ∧ c.common.outputCount < 2 ^ 31
  kernelSize : 0 < c.common.kernelSize
  nodup : op.inputIndexes.Nodup
  inputs : 1 + shapeInputs deconv c ≤ op.inputIndexes.length ∧
    op.inputIndexes.length ≤ 3 + shapeInputs deconv c
  output : ∃ t, op.outputIndexes = [t]
  stored : op.inputIndexes.length = 1 + shapeInputs deconv c →
    (c.storedWeight K).length = c.common.weightSize ∧ c.bias.length = c.common.outputCount ∧
      (c.quanParameter ≠ none → c.weight = [])

/-- The operators that the pass handles.  A depthwise convolution has as many inputs as outputs.  One
that is split has no output shape, its weights are stored as floats or are an input, and in a
deconvolution whose weights are an input there are as many inputs as outputs. -/
def Fine (groupConvNative : Bool) (sourceType : NetSource) (op : OpT γ R κ) (deconv : Bool)
    (c : Convolution2D γ R) : Prop :=
  if turnConv2DW sourceType c then c.common.inputCount = c.common.outputCount
  else groupConvNative = true ∨ c.common.group = 1 ∨
    (deconv && c.common.hasOutputShape) = false ∧
      if 1 < op.inputIndexes.length then deconv = true → c.common.inputCount = c.common.outputCount
      else c.quanParameter = none

section Parts

variable {common : Common γ} {deconv : Bool} {i : ℕ}

theorem secondPart_part : common.part.secondPart deconv = common.secondPart deconv := by
  unfold Common.secondPart
  rw [part_inputPart, part_outputPart]

/-- Where outputs and inputs are as many, or the first axis is that of the outputs. -/
theorem isWeight_cut (hdvd : Divides common) {rows : List (List R)}
    (h : common.IsWeight deconv rows)
    (hcount : deconv = true → common.inputCount = common.outputCount) (hi : i < common.group) :
    common.part.IsWeight deconv (cut rows common.outputPart i) ∧
      (cut rows common.outputPart i).flatten =
        cut rows.flatten (common.outputPart * common.inputPart * common.kernelSize) i := by
  have hpart : common.firstCount deconv = common.outputPart * common.group ∧
      common.part.firstCount deconv = common.outputPart ∧
      common.secondPart deconv = common.inputPart := by
    cases deconv with
    | false => exact ⟨(Nat.div_mul_cancel hdvd.outputCount).symm, rfl, rfl⟩
    | true =>
      have heq : common.inputPart = common.outputPart := by
        rw [Common.inputPart, hcount rfl, Common.outputPart]
      exact ⟨(hcount rfl).trans (Nat.div_mul_cancel hdvd.outputCount).symm, heq, heq.symm⟩
  obtain ⟨hfirst, hfirstPart, hsecond⟩ := hpart
  refine ⟨⟨?_, fun row hrow => ?_⟩, ?_⟩
  · rw [hfirstPart]
    exact length_cut (h.1.trans hfirst) hi
  · rw [secondPart_part]
    exact h.2 row (mem_of_mem_cut hrow)
  · rw [flatten_cut h.2, hsecond, Nat.mul_assoc]

theorem isBias_cut (hdvd : Divides common) {rows : List (List R)} (h : common.IsBias rows)
    (hi : i < common.group) : common.part.IsBias (cut rows common.outputPart i) ∧
      (cut rows common.outputPart i).flatten = cut rows.flatten common.outputPart i := by
  refine ⟨⟨?_, fun row hrow => h.2 row (mem_of_mem_cut hrow)⟩, ?_⟩
  · exact length_cut (h.1.trans (Nat.div_mul_cancel hdvd.outputCount).symm) hi
  · rw [flatten_cut h.2, Nat.mul_one]

end Parts

section Split

variable {K : Kernels γ σ P R} {n : ℕ} {op : OpT γ R κ} {deconv : Bool}
  {c : Convolution2D γ R} {E : ℤ → Option (Value σ P R)}

/-- The parts of stored weights. -/
theorem subParameters_eq (hdvd : Divides c.common) (hgroup : 0 < c.common.group)
    (hlen : ¬ 1 < op.inputIndexes.length) (hweight : c.weight.length = c.common.weightSize)
    (hbias : c.bias.length = c.common.outputCount) (i : ℕ) : subParameters op c i =
      (cut c.weight (c.common.outputPart * c.common.inputPart * c.common.kernelSize) i,
        cut c.bias c.common.outputPart i) := by
  have hsize : c.weight.length / c.common.group =
      c.common.outputPart * c.common.inputPart * c.common.kernelSize := by
    have houtput : c.common.outputCount = c.common.outputPart * c.common.group :=
      (Nat.div_mul_cancel hdvd.outputCount).symm
    refine Nat.div_eq_of_eq_mul_left hgroup ?_
    rw [hweight, Common.weightSize, houtput]
    ring
  rw [subParameters, if_neg hlen, hsize, hbias]
  rfl

theorem sliceValue_rows {count group : ℕ} (hgroup : 0 < group) (hdvd : group ∣ count)
    (hcount : count < 2 ^ 31) {rows : List (List R)} (hlength : rows.length = count) {i : ℕ}
    (hi : i < group) : sliceValue 0 (slicePoints count group) group
      (some (.rows rows) : Option (Value σ P R)) i = some (.rows (cut rows (count / group) i)) := by
  rw [sliceValue, if_pos rfl, slice_equal hgroup hdvd hcount hlength hi]
  rfl

/-- The number of the rows of weights that are an input. -/
theorem length_of_isWeight {rows : List (List R)} (h : c.common.IsWeight deconv rows)
    (hcount : deconv = true → c.common.inputCount = c.common.outputCount) :
    rows.length = c.common.outputCount := by
  rw [h.1, Common.firstCount]
  split_ifs with hdeconv
  · exact hcount hdeconv
  · rfl

end Split

section Exact

variable [Add P] [Zero P] {K : Kernels γ σ P R} {n : ℕ} {op : OpT γ R κ} {deconv : Bool}
  {c : Convolution2D γ R} {E : ℤ → Option (Value σ P R)}

/-- The weights and the bias of the new convolutions are the parts of those of the old one. -/
theorem Solved.parameters (hE : Solved K n op deconv c E) (hdvd : Divides c.common)
    (hg : Grouped K op deconv c)
    (hfine : if 1 < op.inputIndexes.length then
      deconv = true → c.common.inputCount = c.common.outputCount else c.quanParameter = none)
    {x : ℤ} {ys : List ℤ} (hinputs : op.inputIndexes = x :: ys) {weight bias : List R}
    (h : c.parameters K deconv (ys.map E) = some (weight, bias)) {i : ℕ} (hi : i < c.common.group) :
    ∃ zs, subInputs n op c i = ((n + i : ℕ) : ℤ) :: zs ∧
      (newConvolutionT op c i).parameters K deconv (zs.map E) =
        some (cut weight (c.common.outputPart * c.common.inputPart * c.common.kernelSize) i,
          cut bias c.common.outputPart i) := by
  have hcut : ∀ {rows : List (List R)}, rows.length = c.common.outputCount →
      sliceValue 0 (slicePoints c.common.outputCount c.common.group) c.common.group
        (some (.rows rows) : Option (Value σ P R)) i =
          some (.rows (cut rows c.common.outputPart i)) := fun hlength =>
    sliceValue_rows hg.group_pos hdvd.outputCount hg.outputCount.2 hlength hi
  have hlength : op.inputIndexes.length = ys.length + 1 := by rw [hinputs, List.length_cons]
  rcases Convolution2D.parameters_cases h with ⟨hys, hweight, hbias, rfl, rfl⟩ |
    ⟨rows, hys, hweight, rfl, rfl⟩ | ⟨rows, biasRows, hys, hweight, hbias, rfl, rfl⟩
  · -- stored weights
    obtain rfl := List.map_eq_nil_iff.1 hys
    have hlen : ¬ 1 < op.inputIndexes.length := by rw [hlength]; exact Nat.lt_irrefl 1
    rw [if_neg hlen] at hfine
    have hstored : c.storedWeight K = c.weight := by rw [Convolution2D.storedWeight, hfine]
    rw [hstored] at hweight ⊢
    have hparts := subParameters_eq hdvd hg.group_pos hlen hweight hbias i
    refine ⟨[], by rw [subInputs, if_neg hlen], ?_⟩
    have hsub : (newConvolutionT op c i).storedWeight K = (subParameters op c i).1 := rfl
    have hsubBias : (newConvolutionT op c i).bias = (subParameters op c i).2 := rfl
    rw [List.map_nil, Convolution2D.parameters, hsub, hsubBias, hparts, if_pos]
    have houtput : c.common.outputCount = c.common.outputPart * c.common.group :=
      (Nat.div_mul_cancel hdvd.outputCount).symm
    refine ⟨(length_cut ?_ hi).trans ?_, length_cut (hbias.trans houtput) hi⟩
    · rw [hweight, Common.weightSize, houtput]
      ring
    · show _ = c.common.outputPart * c.common.part.inputPart * c.common.kernelSize
      rw [part_inputPart]
  · -- weights that are an input
    obtain ⟨y, rfl, hy⟩ : ∃ y, ys = [y] ∧ E y = some (.rows rows) := by
      obtain ⟨y, ys', rfl, hy, hnil⟩ := List.map_eq_cons_iff.1 hys
      exact ⟨y, by rw [List.map_eq_nil_iff.1 hnil], hy⟩
    rw [List.length_singleton] at hlength
    have hlen : 1 < op.inputIndexes.length := by omega
    have hlen' : op.inputIndexes.length ≠ 3 := by omega
    rw [if_pos hlen] at hfine
    have hsecond : op.inputIndexes.getD 1 0 = y := by rw [hinputs]; rfl
    have hE' := hE.weight hlen i hi
    rw [hsecond, hy, hcut (length_of_isWeight hweight hfine)] at hE'
    obtain ⟨hpart, hflatten⟩ := isWeight_cut hdvd hweight hfine hi
    refine ⟨_, by rw [subInputs, if_pos hlen, if_neg hlen'], ?_⟩
    rw [List.map_singleton, hE', Convolution2D.parameters,
      if_pos (show (newConvolutionT op c i).common.IsWeight deconv _ from hpart), hflatten]
    exact congrArg (fun b => some (_, b)) (List.take_nil.symm.trans (by rw [cut, List.drop_nil]))
  · -- weights and a bias that are inputs
    obtain ⟨y, z, rfl, hy, hz⟩ : ∃ y z, ys = [y, z] ∧ E y = some (.rows rows) ∧
        E z = some (.rows biasRows) := by
      obtain ⟨y, ys', rfl, hy, hrest⟩ := List.map_eq_cons_iff.1 hys
      obtain ⟨z, ys'', rfl, hz, hnil⟩ := List.map_eq_cons_iff.1 hrest
      exact ⟨y, z, by rw [List.map_eq_nil_iff.1 hnil], hy, hz⟩
    have hlen₃ : op.inputIndexes.length = 3 := hlength
    have hlen : 1 < op.inputIndexes.length := by omega
    rw [if_pos hlen] at hfine
    have hsecond : op.inputIndexes.getD 1 0 = y := by rw [hinputs]; rfl
    have hthird : op.inputIndexes.getD 2 0 = z := by rw [hinputs]; rfl
    have hE' := hE.weight hlen i hi
    have hE'' := hE.bias hlen₃ i hi
    rw [hsecond, hy, hcut (length_of_isWeight hweight hfine)] at hE'
    rw [hthird, hz, hcut hbias.1] at hE''
    obtain ⟨hpart, hflatten⟩ := isWeight_cut hdvd hweight hfine hi
    obtain ⟨hbiasPart, hbiasFlatten⟩ := isBias_cut hdvd hbias hi
    refine ⟨_, by rw [subInputs, if_pos hlen, if_pos hlen₃], ?_⟩
    rw [List.map_cons, List.map_singleton, hE', hE'', Convolution2D.parameters,
      if_pos (show (newConvolutionT op c i).common.IsWeight deconv _ ∧
        (newConvolutionT op c i).common.IsBias _ from ⟨hpart, hbiasPart⟩), hflatten, hbiasFlatten]

/-- **One convolution for each group computes the grouped convolution.** -/
theorem Solved.exact (hE : Solved K n op deconv c E) (hdvd : Divides c.common)
    (hg : Grouped K op deconv c) (hshape : (deconv && c.common.hasOutputShape) = false)
    (hfine : if 1 < op.inputIndexes.length then
      deconv = true → c.common.inputCount = c.common.outputCount else c.quanParameter = none)
    {v : Value σ P R} (hrun : c.run K deconv (op.inputIndexes.map E) = some v) :
    ∀ t ∈ op.outputIndexes, E t = some v := by
  intro t ht
  obtain ⟨channels, rest, outputShape, weight, bias, hoperands, hlength, hparameters, rfl⟩ :=
    Convolution2D.run_eq_some_iff.1 hrun
  rw [Common.operands, if_neg (by rw [hshape]; exact Bool.false_ne_true)] at hoperands
  obtain ⟨hrest, rfl⟩ := Prod.mk.inj (Option.some.inj hoperands)
  obtain ⟨x, ys, hinputs, hx, rfl⟩ := List.map_eq_cons_iff.1 hrest
  have hinput : c.common.inputCount = c.common.inputPart * c.common.group :=
    (Nat.div_mul_cancel hdvd.inputCount).symm
  have hconv : ∀ i < c.common.group, E ((n + c.common.group + i : ℕ) : ℤ) =
      some (.maps (convolve K deconv c.common.part none
        (cut weight (c.common.outputPart * c.common.inputPart * c.common.kernelSize) i)
        (cut bias c.common.outputPart i) (cut channels c.common.inputPart i))) := by
    intro i hi
    obtain ⟨zs, hzs, hsub⟩ := hE.parameters hdvd hg hfine hinputs hparameters hi
    have hfirst : E ((n + i : ℕ) : ℤ) = some (.maps (cut channels c.common.inputPart i)) := by
      rw [hE.input i hi, hinputs]
      show sliceValue _ _ _ (E x) i = _
      rw [hx, sliceValue, if_pos rfl, slice_equal hg.group_pos hdvd.inputCount hg.inputCount.2
        hlength hi]
      rfl
    rw [hE.conv i hi, hzs, List.map_cons, hfirst]
    refine Convolution2D.run_eq_some_iff.2 ⟨_, _, _, _, _, if_neg ?_, ?_, hsub, rfl⟩
    · show ¬ (deconv && c.common.hasOutputShape) = true
      rw [hshape]
      exact Bool.false_ne_true
    · exact length_cut (hlength.trans hinput) hi
  rw [hE.output t ht, concatValue, indexesFrom, List.map_map, List.mapM_map,
    Lib.mapM_eq_some fun i hi => by
      rw [Function.comp_apply, Function.comp_apply, hconv i (List.mem_range.1 hi)]
      rfl, Option.map_some, convolve_groups K hdvd.outputCount]
  rfl

omit [Add P] [Zero P] in
theorem sliceValue_zero {points : List ℤ} {outputs i : ℕ} {input : Option (Value σ P R)}
    {v : Value σ P R} (h : sliceValue 0 points outputs input i = some v) :
    ∃ rows part, v = .rows part ∧ slice points outputs (rows : List (List R)) i = some part := by
  match input with
  | none => cases h
  | some (.shape s) => cases h
  | some (.maps channels) =>
    rw [sliceValue, if_neg (by decide)] at h
    cases h
  | some (.rows rows) =>
    rw [sliceValue, if_pos rfl] at h
    obtain ⟨part, hpart, rfl⟩ := Option.map_eq_some_iff.1 h
    exact ⟨rows, part, rfl, hpart⟩

/-- The last input of a new convolution is not an output shape. -/
theorem Solved.last_ne_shape (hE : Solved K n op deconv c E) (hlen : 1 < op.inputIndexes.length)
    {i : ℕ} (hi : i < c.common.group) {s : σ} :
    ((subInputs n op c i).map E).getLast? ≠ some (some (.shape s)) := by
  intro hlast
  have hrows : ∀ {points outputs} {input : Option (Value σ P R)},
      sliceValue 0 points outputs input i ≠ some (.shape s) := by
    intro points outputs input h
    obtain ⟨_, _, heq, -⟩ := sliceValue_zero h
    cases heq
  rw [subInputs, if_pos hlen] at hlast
  split_ifs at hlast with h₃
  · exact hrows ((hE.bias h₃ i hi).symm.trans (Option.some.inj hlast))
  · exact hrows ((hE.weight hlen i hi).symm.trans (Option.some.inj hlast))

/-- Otherwise the first of the new convolutions computes nothing. -/
theorem Solved.run_eq_none (hE : Solved K n op deconv c E) (hdvd : Divides c.common)
    (hg : Grouped K op deconv c) (hne : c.common.group ≠ 1)
    (hnot : ¬ ((deconv && c.common.hasOutputShape) = false ∧
      if 1 < op.inputIndexes.length then deconv = true → c.common.inputCount = c.common.outputCount
      else c.quanParameter = none)) :
    (newConvolutionT op c 0).run K deconv ((subInputs n op c 0).map E) = none := by
  have hgroup := hg.group_pos
  rw [Option.eq_none_iff_forall_ne_some]
  intro v hrun
  obtain ⟨channels, rest, outputShape, weight, bias, hoperands, -, hparameters, -⟩ :=
    Convolution2D.run_eq_some_iff.1 hrun
  have hoperands' : c.common.operands deconv ((subInputs n op c 0).map E) =
      some (some (.maps channels) :: rest, outputShape) := hoperands
  cases hshape : deconv && c.common.hasOutputShape with
  | true =>
    -- an output shape is taken for weights
    have hlen : 1 < op.inputIndexes.length := by
      have := hg.inputs.1
      rw [shapeInputs, hshape, if_pos rfl] at this
      omega
    rw [Common.operands, if_pos hshape] at hoperands'
    split at hoperands'
    · next hlast => exact hE.last_ne_shape hlen hgroup hlast
    · cases hoperands'
  | false =>
    rw [hshape, and_iff_right rfl] at hnot
    rw [Common.operands, if_neg (by rw [hshape]; exact Bool.false_ne_true)] at hoperands'
    obtain ⟨hrest, -⟩ := Prod.mk.inj (Option.some.inj hoperands')
    by_cases hlen : 1 < op.inputIndexes.length
    · -- the weights of a deconvolution are cut by outputs
      rw [if_pos hlen, Classical.not_imp] at hnot
      obtain ⟨rfl, hcount⟩ := hnot
      rw [subInputs, if_pos hlen, List.map_cons, List.map_cons] at hrest
      obtain ⟨-, rfl⟩ := List.cons.inj hrest
      have hrows : ∃ rows, E ((n + c.common.group + c.common.group + 0 : ℕ) : ℤ) =
          some (.rows rows) ∧ (newConvolutionT op c 0).common.IsWeight true rows := by
        rcases Convolution2D.parameters_cases hparameters with ⟨h, -⟩ | ⟨rows, h, hweight, -⟩ |
          ⟨rows, _, h, hweight, -⟩
        · cases h
        · exact ⟨rows, (List.cons.inj h).1, hweight⟩
        · exact ⟨rows, (List.cons.inj h).1, hweight⟩
      obtain ⟨rows, hE₀, hweight⟩ := hrows
      obtain ⟨_, part, heq, hslice⟩ := sliceValue_zero ((hE.weight hlen 0 hgroup).symm.trans hE₀)
      obtain rfl : rows = part := by cases heq; rfl
      have hpart : c.common.inputCount / c.common.group = c.common.outputCount / c.common.group :=
        hweight.1.symm.trans (length_of_slice (by omega) hg.outputCount.2 hslice)
      refine hcount ?_
      rw [← Nat.div_mul_cancel hdvd.inputCount, hpart, Nat.div_mul_cancel hdvd.outputCount]
    · -- the weights of a quantised buffer are left out
      rw [if_neg hlen] at hnot
      have hone : op.inputIndexes.length = 1 + shapeInputs deconv c := by
        have := hg.inputs.1
        rw [shapeInputs, hshape, if_neg Bool.false_ne_true] at this ⊢
        omega
      have hempty := (hg.stored hone).2.2 hnot
      rw [subInputs, if_neg hlen] at hrest
      obtain ⟨-, rfl⟩ := List.cons.inj hrest
      rw [List.map_nil, Convolution2D.parameters] at hparameters
      split_ifs at hparameters with hsize
      have hweight : (newConvolutionT op c 0).storedWeight K = [] := by
        show (subParameters op c 0).1 = []
        rw [subParameters, if_neg hlen, hempty]
        exact (congrArg (List.take _) List.drop_nil).trans List.take_nil
      have hzero := hsize.1
      rw [hweight] at hzero
      have hpos : 0 < c.common.outputPart * c.common.part.inputPart * c.common.kernelSize := by
        rw [part_inputPart]
        exact Nat.mul_pos (Nat.mul_pos
          (Nat.div_pos (Nat.le_of_dvd hg.outputCount.1 hdvd.outputCount) hgroup)
          (Nat.div_pos (Nat.le_of_dvd hg.inputCount.1 hdvd.inputCount) hgroup)) hg.kernelSize
      exact hpos.ne hzero

/-- So the concatenation computes nothing. -/
theorem Solved.output_eq_none (hE : Solved K n op deconv c E) (hgroup : 0 < c.common.group)
    (hnone : (newConvolutionT op c 0).run K deconv ((subInputs n op c 0).map E) = none) :
    ∀ t ∈ op.outputIndexes, E t = none := by
  intro t ht
  have hmem : (none : Option (Value σ P R)) ∈
      (indexesFrom (n + c.common.group) c.common.group).map E := by
    rw [← hnone, ← hE.conv 0 hgroup]
    exact List.mem_map_of_mem (natCast_mem_indexesFrom hgroup)
  rw [hE.output t ht, concatValue, Lib.mapM_eq_none hmem rfl]
  rfl

end Exact

/-! ### Inputs that fit -/

section Inputs

variable [Add P] [Zero P] [Zero R] [Inhabited σ] {K : Kernels γ σ P R} {op : OpT γ R κ}
  {deconv : Bool} {c : Convolution2D γ R}

variable (K deconv c)

omit [Add P] [Zero P] [Zero R] in
/-- Inputs, with an output shape behind them if there is one. -/
theorem exists_operands (xs : List (Option (Value σ P R))) : ∃ ys outputShape,
    ys.length = xs.length + shapeInputs deconv c ∧
      c.common.operands deconv ys = some (xs, outputShape) := by
  cases hshape : deconv && c.common.hasOutputShape with
  | false =>
    refine ⟨xs, none, ?_, ?_⟩
    · rw [shapeInputs, hshape]
      rfl
    · rw [Common.operands, hshape]
      rfl
  | true =>
    refine ⟨xs ++ [some (.shape default)], some default, ?_, ?_⟩
    · rw [shapeInputs, hshape, List.length_append]
      rfl
    · rw [Common.operands, if_pos hshape, List.getLast?_concat, List.dropLast_concat]

omit [Add P] [Zero P] [Inhabited σ] in
/-- Weights, and a bias where there are three inputs. -/
theorem exists_parameters {k : ℕ} (hk : k ≤ 2)
    (hstored : k = 0 → (c.storedWeight K).length = c.common.weightSize ∧
      c.bias.length = c.common.outputCount) :
    ∃ (rest : List (Option (Value σ P R))) (p : List R × List R),
      rest.length = k ∧ c.parameters K deconv rest = some p := by
  have hweight : c.common.IsWeight deconv (List.replicate (c.common.firstCount deconv)
      (List.replicate (c.common.secondPart deconv * c.common.kernelSize) (0 : R))) :=
    ⟨List.length_replicate, fun row hrow => by
      rw [List.eq_of_mem_replicate hrow, List.length_replicate]⟩
  have hbias : c.common.IsBias (List.replicate c.common.outputCount [(0 : R)]) :=
    ⟨List.length_replicate, fun row hrow => by rw [List.eq_of_mem_replicate hrow]; rfl⟩
  match k with
  | 0 => exact ⟨[], _, rfl, if_pos (hstored rfl)⟩
  | 1 => exact ⟨[some (.rows _)], _, rfl, if_pos hweight⟩
  | 2 => exact ⟨[some (.rows _), some (.rows _)], _, rfl, if_pos ⟨hweight, hbias⟩⟩

variable {K deconv c}

/-- A convolution computes something for some inputs. -/
theorem Grouped.exists_run (hg : Grouped K op deconv c) :
    ∃ (env : ℤ → Option (Value σ P R)) (v : Value σ P R),
      c.run K deconv (op.inputIndexes.map env) = some v := by
  obtain ⟨k, hk⟩ : ∃ k, op.inputIndexes.length = k + 1 + shapeInputs deconv c :=
    ⟨op.inputIndexes.length - shapeInputs deconv c - 1, by have := hg.inputs.1; omega⟩
  have hk' : k ≤ 2 := by
    have := hg.inputs.2
    omega
  have hstored : k = 0 → (c.storedWeight K).length = c.common.weightSize ∧
      c.bias.length = c.common.outputCount := by
    intro hzero
    have h := hg.stored (by omega)
    exact ⟨h.1, h.2.1⟩
  obtain ⟨rest, p, hrest, hp⟩ := exists_parameters (σ := σ) (P := P) K deconv c hk' hstored
  obtain ⟨ys, outputShape, hys, hoperands⟩ := exists_operands deconv c
    (some (.maps (List.replicate c.common.inputCount (0 : P))) :: rest)
  have hlength : ys.length = op.inputIndexes.length := by
    rw [hys, List.length_cons, hrest, hk]
  have henv : (op.inputIndexes.map fun t => ys.getD (op.inputIndexes.idxOf t) none) = ys := by
    refine List.ext_getElem (by rw [List.length_map, hlength]) fun i hi hi' => ?_
    rw [List.getElem_map, hg.nodup.idxOf_getElem, List.getD_eq_getElem _ _ hi']
  have hrun := Convolution2D.run_eq_some_iff.2 ⟨_, _, _, p.1, p.2, hoperands,
    List.length_replicate, hp, rfl⟩
  rw [← henv] at hrun
  exact ⟨_, _, hrun⟩

end Inputs

/-! ### The pass -/

section Pass

variable [Add P] [Zero P] (K : Kernels γ σ P R)
  (other : Kind γ R κ → List (Option (Value σ P R)) → ℕ → Option (Value σ P R))

/-- Operators that compute what one operator computes, wherever it computes something. -/
def Computes (op : OpT γ R κ) (ops : List (OpT γ R κ)) : Prop :=
  ∀ (env : ℤ → Option (Value σ P R)) (v : Value σ P R), ∀ t ∈ op.outputIndexes,
    meaning K other op.node.kind (op.inputIndexes.map env) 0 = some v →
      eval (meaning K other) env (nodes ops) t = some v

variable {K other} {n : ℕ} {op : OpT γ R κ} {deconv : Bool} {c : Convolution2D γ R}

theorem eval_single {op' : OpT γ R κ} {t : ℤ} (hout : op'.outputIndexes = [t])
    (env : ℤ → Option (Value σ P R)) : eval (meaning K other) env (nodes [op']) t =
      meaning K other op'.node.kind (op'.inputIndexes.map env) 0 := by
  have hmem : t ∈ op'.node.outs := by
    show t ∈ op'.outputIndexes
    rw [hout]
    exact List.mem_cons_self
  have hidx : op'.node.outs.idxOf t = 0 := by
    show op'.outputIndexes.idxOf t = 0
    rw [hout, List.idxOf_cons_self]
  show step _ env op'.node t = _
  rw [step, if_pos hmem, hidx]
  rfl

/-- The depthwise convolution is the grouped one exactly if it has as many inputs as outputs. -/
theorem computes_turned_iff [Zero R] [Inhabited σ] (hconv : op.conv2D = some (deconv, c))
    (hg : Grouped K op deconv c) (hgroup : c.common.outputCount = c.common.group) :
    Computes K other op [{ op with
      type := if deconv then .deconvolutionDepthwise else .convolutionDepthwise }] ↔
        c.common.inputCount = c.common.outputCount := by
  obtain ⟨t, hout⟩ := hg.output
  have hmem : t ∈ op.outputIndexes := by rw [hout]; exact List.mem_cons_self
  constructor
  · intro h
    obtain ⟨env, v, hrun⟩ := hg.exists_run (σ := σ) (P := P)
    have hnew := h env v t hmem ((meaning_conv2D hconv _ _).trans hrun)
    rw [eval_single (by exact hout), meaning_turned hconv] at hnew
    obtain ⟨channels, _, _, _, _, hoperands, hlength, -⟩ := Convolution2D.run_eq_some_iff.1 hrun
    obtain ⟨channels', _, _, _, _, hoperands', hlength', -⟩ := Convolution2D.run_eq_some_iff.1 hnew
    have hsame := hoperands.symm.trans (show c.common.operands deconv _ = _ from hoperands')
    obtain ⟨hcons, -⟩ := Prod.mk.inj (Option.some.inj hsame)
    obtain ⟨hchannels, -⟩ := List.cons.inj hcons
    cases hchannels
    exact hlength.symm.trans hlength'
  · intro hcount env v t' ht' hmeaning
    obtain rfl : t' = t := List.mem_singleton.1 (hout ▸ ht')
    rw [eval_single (by exact hout), meaning_turned hconv,
      Convolution2D.depthwise_eq hgroup hcount]
    exact (meaning_conv2D hconv _ _).symm.trans hmeaning

theorem outputCount_of_turn {sourceType : NetSource} (h : turnConv2DW sourceType c = true) :
    c.common.outputCount = c.common.group := by
  unfold turnConv2DW at h
  split at h
  · split_ifs at h
    exact (of_decide_eq_true h).1
  · exact (of_decide_eq_true h).1

theorem splits_eq_none_iff (hconv : op.conv2D = some (deconv, c)) (hdvd : Divides c.common) :
    splits op = none ↔ c.common.group = 1 := by
  rw [splits, hconv]
  dsimp only
  rw [Nat.mod_eq_zero_of_dvd hdvd.inputCount, Nat.mod_eq_zero_of_dvd hdvd.outputCount]
  by_cases hgroup : c.common.group = 1
  · rw [if_pos (.inl hgroup)]
    exact iff_of_true rfl hgroup
  · rw [if_neg (by simpa using hgroup)]
    exact iff_of_false (Option.some_ne_none c) hgroup

variable (K other) in
/-- The new operators, run after whatever computed the inputs. -/
theorem solved_eval (hconv : op.conv2D = some (deconv, c))
    (hrange : ∀ t ∈ op.inputIndexes ++ op.outputIndexes, t < n)
    (hown : ∀ t ∈ op.outputIndexes, t ∉ op.inputIndexes) (houts : op.outputIndexes.Nodup)
    (hinputs : op.inputIndexes ≠ []) (env : ℤ → Option (Value σ P R)) :
    Solved K n op deconv c (eval (meaning K other) env (nodes (split n op c))) ∧
      op.inputIndexes.map (eval (meaning K other) env (nodes (split n op c))) =
        op.inputIndexes.map env := by
  have hnot : ∀ t ∈ op.inputIndexes, t ∉ produced (nodes (split n op c)) := by
    intro t ht hmem
    rcases List.mem_append.1 (produced_split.mem_iff.1 hmem) with hnew | hout
    · exact absurd (hrange t (List.mem_append_left _ ht)) (not_lt.2 (mem_indexesFrom.1 hnew).1)
    · exact hown t hout ht
  have hnodup : (produced (nodes (split n op c))).Nodup := by
    refine produced_split.nodup_iff.2 (List.nodup_append.2 ⟨nodup_indexesFrom _ _, houts, ?_⟩)
    rintro t ht _ ht' rfl
    exact absurd (hrange t (List.mem_append_right _ ht')) (not_lt.2 (mem_indexesFrom.1 ht).1)
  have hordered : Ordered (nodes (split n op c)) :=
    (fed_split (S := {t | t ∈ op.inputIndexes}) (fun _ => id) hinputs).ordered hnodup hnot
  exact ⟨solved_of_solves hconv (eval_solves hordered),
    List.map_congr_left fun t ht => eval_of_not_mem (hnot t ht)⟩

/-- **What is put in the place of a convolution computes the same exactly if it is fine.** -/
theorem computes_iff [Zero R] [Inhabited σ] (groupConvNative : Bool) (sourceType : NetSource)
    (hconv : op.conv2D = some (deconv, c)) (hdvd : Divides c.common) (hg : Grouped K op deconv c)
    (hrange : ∀ t ∈ op.inputIndexes ++ op.outputIndexes, t < n)
    (hown : ∀ t ∈ op.outputIndexes, t ∉ op.inputIndexes) :
    Computes K other op (putInPlace groupConvNative n (turn sourceType op)) ↔
      Fine groupConvNative sourceType op deconv c := by
  obtain ⟨t, hout⟩ := hg.output
  have hmem : t ∈ op.outputIndexes := by rw [hout]; exact List.mem_cons_self
  rcases turn_cases sourceType op with ⟨deconv', c', hconv', hturn, heq⟩ | ⟨heq, hturn⟩
  · obtain ⟨rfl, rfl⟩ := Prod.mk.inj (Option.some.inj (hconv'.symm.trans hconv))
    have hsplit : splitBy groupConvNative (turn sourceType op) = none := by
      have hnone : splits (turn sourceType op) = none := by
        rw [heq]
        cases deconv' <;> rfl
      rw [splitBy, hnone, ite_self]
    rw [putInPlace, hsplit, Fine, if_pos hturn, heq]
    exact computes_turned_iff hconv hg (outputCount_of_turn hturn)
  · rw [heq, Fine, if_neg (by rw [hturn deconv c hconv]; exact Bool.false_ne_true), putInPlace]
    cases hsplit : splitBy groupConvNative op with
    | none =>
      refine iff_of_true (fun env v t' ht' hmeaning => ?_) ?_
      · obtain rfl : t' = t := List.mem_singleton.1 (hout ▸ ht')
        exact (eval_single hout env).trans hmeaning
      · cases groupConvNative with
        | true => exact .inl rfl
        | false => exact .inr (.inl ((splits_eq_none_iff hconv hdvd).1 hsplit))
    | some c' =>
      obtain ⟨rfl, hsplits⟩ : groupConvNative = false ∧ splits op = some c' := by
        cases groupConvNative with
        | true => cases hsplit
        | false => exact ⟨rfl, hsplit⟩
      have hne : c.common.group ≠ 1 := fun h => by
        rw [(splits_eq_none_iff hconv hdvd).2 h] at hsplits
        cases hsplits
      obtain rfl : c' = c := by
        unfold splits at hsplits
        rw [hconv] at hsplits
        dsimp only at hsplits
        split_ifs at hsplits
        exact (Option.some.inj hsplits).symm
      have hinputs : op.inputIndexes ≠ [] := fun h => by
        have := hg.inputs.1
        rw [h, List.length_nil] at this
        omega
      rw [or_iff_right Bool.false_ne_true, or_iff_right hne]
      have hsolved := solved_eval K other hconv hrange hown
        (by rw [hout]; exact List.nodup_singleton t) hinputs
      constructor
      · intro h
        by_contra hnot
        obtain ⟨env, v, hrun⟩ := hg.exists_run (σ := σ) (P := P)
        obtain ⟨hE, -⟩ := hsolved env
        have hnone := hE.output_eq_none hg.group_pos (hE.run_eq_none hdvd hg hne hnot) t hmem
        have hsome := h env v t hmem ((meaning_conv2D hconv _ _).trans hrun)
        exact Option.some_ne_none v (hsome.symm.trans hnone)
      · intro hfine env v t' ht' hmeaning
        obtain ⟨hE, hin⟩ := hsolved env
        refine hE.exact hdvd hg hfine.1 hfine.2 ?_ t' ht'
        rw [hin]
        exact (meaning_conv2D hconv _ _).symm.trans hmeaning

/-- Where the second loop splits something, there was a convolution whose group divides its counts. -/
theorem of_splitBy {groupConvNative : Bool} {sourceType : NetSource}
    (h : splitBy groupConvNative (turn sourceType op) ≠ none) :
    ∃ deconv c, op.conv2D = some (deconv, c) ∧ Divides c.common := by
  have hsplits : splits (turn sourceType op) ≠ none := by
    rw [splitBy] at h
    split_ifs at h with hnative
    · exact absurd rfl h
    · exact h
  rcases turn_cases sourceType op with ⟨deconv, c, -, -, heq⟩ | ⟨heq, -⟩
  · rw [heq] at hsplits
    exact absurd (by cases deconv <;> rfl) hsplits
  · rw [heq, splits] at hsplits
    cases hconv : op.conv2D with
    | none =>
      rw [hconv] at hsplits
      exact absurd rfl hsplits
    | some p =>
      rw [hconv] at hsplits
      dsimp only at hsplits
      split_ifs at hsplits with hcond
      · exact absurd rfl hsplits
      · rw [not_or, not_or, not_not, not_not] at hcond
        exact ⟨p.1, p.2, rfl, Nat.dvd_of_mod_eq_zero hcond.2.1, Nat.dvd_of_mod_eq_zero hcond.2.2⟩

section Places

variable {groupConvNative : Bool} {sourceType : NetSource} {ops : List (OpT γ R κ)}

theorem of_mem_places {p : OpT γ R κ × List (OpT γ R κ)}
    (h : p ∈ places groupConvNative sourceType n ops) :
    p.1 ∈ ops ∧ ∃ m, n ≤ m ∧ p.2 = putInPlace groupConvNative m (turn sourceType p.1) := by
  induction ops generalizing n with
  | nil => cases h
  | cons op rest ih =>
    rcases List.mem_cons.1 h with rfl | h
    · exact ⟨List.mem_cons_self, n, le_rfl, rfl⟩
    · obtain ⟨hmem, m, hle, hp⟩ := ih h
      exact ⟨List.mem_cons_of_mem _ hmem, m, (Nat.le_add_right _ _).trans hle, hp⟩

variable (groupConvNative sourceType n) in
theorem exists_mem_places (h : op ∈ ops) : ∃ m, n ≤ m ∧
    (op, putInPlace groupConvNative m (turn sourceType op)) ∈
      places groupConvNative sourceType n ops := by
  induction ops generalizing n with
  | nil => cases h
  | cons op' rest ih =>
    rcases List.mem_cons.1 h with rfl | h
    · exact ⟨n, le_rfl, List.mem_cons_self⟩
    · obtain ⟨m, hle, hm⟩ := ih _ h
      exact ⟨m, (Nat.le_add_right _ _).trans hle, List.mem_cons_of_mem _ hm⟩

end Places

/-- A net in topological order, of its own tensors.  The source divides by the groups. -/
structure NetT.WellFormed (net : NetT γ R κ) : Prop where
  ordered : Ordered (nodes net.oplists)
  range : ∀ op ∈ net.oplists, ∀ t ∈ op.inputIndexes ++ op.outputIndexes, t < net.tensorName.length
  group_pos : ∀ op ∈ net.oplists, ∀ deconv c, op.conv2D = some (deconv, c) → 0 < c.common.group

variable (K other) in
/-- The pass leaves operators in topological order, and those that it puts in the place of a
convolution whose group divides its counts compute that convolution. -/
def Exact (groupConvNative : Bool) (net : NetT γ R κ) : Prop :=
  let places := places groupConvNative net.sourceType net.tensorName.length net.oplists
  ∃ net', onExecute groupConvNative net = some net' ∧ net'.oplists = places.flatMap Prod.snd ∧
    Ordered (nodes net'.oplists) ∧
    ∀ p ∈ places, ∀ deconv c, p.1.conv2D = some (deconv, c) → Divides c.common →
      Computes K other p.1 p.2

/-- **The pass is exact for the nets whose convolutions with groups are all fine.** -/
theorem transformGroupConvolution_exact [Zero R] [Inhabited σ] (groupConvNative : Bool)
    {net : NetT γ R κ} (hnet : net.WellFormed)
    (hops : ∀ op ∈ net.oplists, ∀ deconv c, op.conv2D = some (deconv, c) → Divides c.common →
      Grouped K op deconv c) :
    Exact K other groupConvNative net ↔
      ∀ op ∈ net.oplists, ∀ deconv c, op.conv2D = some (deconv, c) → Divides c.common →
        Fine groupConvNative net.sourceType op deconv c := by
  have hown : ∀ op ∈ net.oplists, ∀ t ∈ op.outputIndexes, t ∉ op.inputIndexes := fun op hop =>
    hnet.ordered.own op.node (List.mem_map_of_mem hop)
  have hiff : ∀ op ∈ net.oplists, ∀ deconv c, op.conv2D = some (deconv, c) → Divides c.common →
      ∀ m, net.tensorName.length ≤ m →
        (Computes K other op (putInPlace groupConvNative m (turn net.sourceType op)) ↔
          Fine groupConvNative net.sourceType op deconv c) := by
    intro op hop deconv c hconv hdvd m hm
    refine computes_iff groupConvNative net.sourceType hconv hdvd (hops op hop deconv c hconv hdvd)
      (fun t ht => ?_) (hown op hop)
    have := hnet.range op hop t ht
    omega
  constructor
  · rintro ⟨net', -, -, -, hall⟩ op hop deconv c hconv hdvd
    obtain ⟨m, hm, hmem⟩ :=
      exists_mem_places net.tensorName.length groupConvNative net.sourceType hop
    exact (hiff op hop deconv c hconv hdvd m hm).1 (hall _ hmem deconv c hconv hdvd)
  · intro hfine
    obtain ⟨names, hexecute⟩ := onExecute_eq groupConvNative net
    refine ⟨_, hexecute, rfl, ordered_placed hnet.ordered hnet.range ?_, ?_⟩
    · intro op hop hsplit hnil
      obtain ⟨deconv, c, hconv, hdvd⟩ := of_splitBy hsplit
      have := (hops op hop deconv c hconv hdvd).inputs.1
      rw [hnil, List.length_nil] at this
      omega
    · intro p hp deconv c hconv hdvd
      obtain ⟨hop, m, hm, heq⟩ := of_mem_places hp
      rw [heq]
      exact (hiff p.1 hop deconv c hconv hdvd m hm).2 (hfine p.1 hop deconv c hconv hdvd)

variable (K other) in
/-- Every convolution whose group divides its counts computes something where it is run, and the
others are not taken for depthwise ones. -/
def Defined (sourceType : NetSource) :
    (ℤ → Option (Value σ P R)) → List (OpT γ R κ) → Prop
  | _, [] => True
  | base, op :: rest =>
    (∀ deconv c, op.conv2D = some (deconv, c) →
      (Divides c.common → meaning K other op.node.kind (op.inputIndexes.map base) 0 ≠ none) ∧
      (¬ Divides c.common → turnConv2DW sourceType c = false)) ∧
    Defined sourceType (step (meaning K other) base op.node) rest

/-- What is put in the place of an operator gives its outputs the contents that it gave them. -/
theorem eval_putInPlace {groupConvNative : Bool} {sourceType : NetSource}
    {base : ℤ → Option (Value σ P R)}
    (hops : ∀ deconv c, op.conv2D = some (deconv, c) → Divides c.common →
      (∃ t, op.outputIndexes = [t]) ∧
        Computes K other op (putInPlace groupConvNative n (turn sourceType op)))
    (hdefined : ∀ deconv c, op.conv2D = some (deconv, c) →
      (Divides c.common → meaning K other op.node.kind (op.inputIndexes.map base) 0 ≠ none) ∧
      (¬ Divides c.common → turnConv2DW sourceType c = false)) {t : ℤ} (ht : t < n) :
    eval (meaning K other) base (nodes (putInPlace groupConvNative n (turn sourceType op))) t =
      step (meaning K other) base op.node t := by
  by_cases hmem : t ∈ op.outputIndexes
  · by_cases hgrouped : ∃ deconv c, op.conv2D = some (deconv, c) ∧ Divides c.common
    · obtain ⟨deconv, c, hconv, hdvd⟩ := hgrouped
      obtain ⟨⟨t', hout⟩, hcomputes⟩ := hops deconv c hconv hdvd
      obtain ⟨v, hv⟩ := Option.ne_none_iff_exists'.1 ((hdefined deconv c hconv).1 hdvd)
      obtain rfl : t = t' := List.mem_singleton.1 (hout ▸ hmem)
      rw [hcomputes base v t hmem hv]
      exact (hv.symm.trans (eval_single hout base).symm)
    · -- other operators are left as they are
      have hturn : turn sourceType op = op := by
        rcases turn_cases sourceType op with ⟨deconv, c, hconv, hturn, -⟩ | ⟨heq, -⟩
        · have hdvd : ¬ Divides c.common := fun h => hgrouped ⟨deconv, c, hconv, h⟩
          exact absurd (hturn.symm.trans ((hdefined deconv c hconv).2 hdvd)) (by decide)
        · exact heq
      have hsplit : splitBy groupConvNative (turn sourceType op) = none := by
        by_contra h
        exact hgrouped (of_splitBy h)
      rw [putInPlace, hsplit, hturn]
      rfl
  · have hnot : t ∉ produced (nodes (putInPlace groupConvNative n (turn sourceType op))) := by
      rw [produced_putInPlace.mem_iff, List.mem_append, turn_outputIndexes, not_or]
      exact ⟨fun h => absurd ht (not_lt.2 (mem_indexesFrom.1 h).1), hmem⟩
    exact (eval_of_not_mem hnot).trans (if_neg hmem).symm

/-- Operators that read the same give the same. -/
theorem step_congr {base base' : ℤ → Option (Value σ P R)} {N : ℕ}
    (hbase : ∀ t : ℤ, t < N → base' t = base t) (hop : ∀ t ∈ op.inputIndexes, t < N) {t : ℤ}
    (ht : t < N) :
    step (meaning K other) base' op.node t = step (meaning K other) base op.node t := by
  have hreads : op.node.ins.map base' = op.node.ins.map base :=
    List.map_congr_left fun t ht => hbase t (hop t ht)
  rw [step, step, hreads, hbase t ht]

/-- **The contents of all tensors are kept**, where every convolution with groups is fine and computes
something. -/
theorem eval_placed [Zero R] [Inhabited σ] {groupConvNative : Bool} {sourceType : NetSource} {N : ℕ}
    {ops : List (OpT γ R κ)} (hn : N ≤ n)
    (hrange : ∀ op ∈ ops, ∀ t ∈ op.inputIndexes ++ op.outputIndexes, t < N)
    (hown : ∀ op ∈ ops, ∀ t ∈ op.outputIndexes, t ∉ op.inputIndexes)
    (hops : ∀ op ∈ ops, ∀ deconv c, op.conv2D = some (deconv, c) → Divides c.common →
      Grouped K op deconv c ∧ Fine groupConvNative sourceType op deconv c)
    {base base' : ℤ → Option (Value σ P R)} (hbase : ∀ t : ℤ, t < N → base' t = base t)
    (hdefined : Defined K other sourceType base ops) {t : ℤ} (ht : t < N) :
    eval (meaning K other) base' (nodes (placed groupConvNative sourceType n ops)) t =
      eval (meaning K other) base (nodes ops) t := by
  induction ops generalizing n base base' with
  | nil => exact hbase t ht
  | cons op rest ih =>
    obtain ⟨hrangeOp, hrangeRest⟩ := List.forall_mem_cons.1 hrange
    obtain ⟨hownOp, hownRest⟩ := List.forall_mem_cons.1 hown
    obtain ⟨hop, hopsRest⟩ := List.forall_mem_cons.1 hops
    have hlt : ∀ t ∈ op.inputIndexes ++ op.outputIndexes, t < n := fun t ht => by
      have := hrangeOp t ht
      omega
    have hins : ∀ t ∈ op.inputIndexes, t < N := fun t ht => hrangeOp t (List.mem_append_left _ ht)
    have hreads : op.inputIndexes.map base' = op.inputIndexes.map base :=
      List.map_congr_left fun t ht => hbase t (hins t ht)
    have hfirst : ∀ t : ℤ, t < N →
        eval (meaning K other) base' (nodes (putInPlace groupConvNative n (turn sourceType op))) t =
          step (meaning K other) base op.node t := by
      intro t ht
      refine (eval_putInPlace (fun deconv c hconv hdvd => ?_) ?_ (by omega)).trans
        (step_congr hbase hins ht)
      · obtain ⟨hg, hfine⟩ := hop deconv c hconv hdvd
        exact ⟨hg.output,
          (computes_iff groupConvNative sourceType hconv hdvd hg hlt hownOp).2 hfine⟩
      · rw [hreads]
        exact hdefined.1
    rw [placed_cons, nodes_append, eval, List.foldl_append]
    exact ih (hn.trans (Nat.le_add_right _ _)) hrangeRest hownRest hopsRest hfirst hdefined.2

end Pass

/-! ### Fixed nets -/

section Fixed

/-- Planes of one number, with one weight for each. -/
def oneByOne : Kernels Unit Unit ℤ ℤ where
  tap _ _ _ _ _ kernel x := kernel.headD 0 * x
  post _ bias x := x + bias.getD 0
  decode buffer := (buffer.drop 9).map fun b => (b.toNat : ℤ)

/-- Four channels in two groups. -/
def twoGroups : Common Unit where
  group := 2
  inputCount := 4
  outputCount := 4
  kernelX := 1
  kernelY := 1
  rest := ()

/-- A deconvolution that gets its weights and its bias as inputs. -/
def deconvolutionNet : NetT Unit ℤ Unit where
  oplists := [{
    type := .deconvolution
    name := "deconv"
    inputIndexes := [0, 1, 2]
    outputIndexes := [3]
    main := .convolution2D { common := twoGroups } }]
  tensorName := ["x", "w", "b", "y"]

theorem transformGroupConvolution_exact_deconvolution :
    Exact oneByOne (fun _ _ _ => none) false deconvolutionNet := by
  have hconv : ∀ op ∈ deconvolutionNet.oplists, ∀ deconv c, op.conv2D = some (deconv, c) →
      op.inputIndexes = [0, 1, 2] ∧ op.outputIndexes = [3] ∧ deconv = true ∧
        c = { common := twoGroups } := by
    intro op hop deconv c h
    obtain rfl := List.mem_singleton.1 hop
    obtain ⟨rfl, rfl⟩ := Prod.mk.inj (Option.some.inj h)
    exact ⟨rfl, rfl, rfl, rfl⟩
  refine (transformGroupConvolution_exact false ⟨?_, ?_, ?_⟩ ?_).2 ?_
  · exact ordered_cons.2 ⟨by decide, by decide, by decide, ordered_nil⟩
  · intro op hop
    obtain rfl := List.mem_singleton.1 hop
    decide
  · intro op hop deconv c h
    obtain ⟨-, -, -, rfl⟩ := hconv op hop deconv c h
    decide
  · intro op hop deconv c h _
    obtain ⟨hins, hout, rfl, rfl⟩ := hconv op hop deconv c h
    refine ⟨by decide, by decide, by decide, by decide, ?_, ?_, ⟨3, hout⟩, ?_⟩
    · rw [hins]
      decide
    · rw [hins]
      decide
    · rw [hins]
      exact fun h => absurd h (by decide)
  · intro op hop deconv c h _
    obtain ⟨hins, -, rfl, rfl⟩ := hconv op hop deconv c h
    rw [Fine, hins]
    exact .inr (.inr ⟨rfl, fun _ => rfl⟩)

/-- Its three operands. -/
def operands (t : ℤ) : Option (Value Unit ℤ ℤ) :=
  if t = 0 then some (.maps [1, 2, 3, 4])
  else some (.rows (List.replicate 4 (List.replicate (if t = 1 then 2 else 1) 1)))

/-- A convolution with its weights in a quantised buffer. -/
def quantisedConvolution : Convolution2D Unit ℤ where
  common := twoGroups
  bias := [0, 0, 0, 0]
  quanParameter := some [4, 4, 0, 2, 0, 1, 0, 1, 0, 1, 2, 3, 4, 5, 6, 7, 8]

def quantisedNet : NetT Unit ℤ Unit where
  oplists := [{
    type := .convolution
    name := "conv"
    inputIndexes := [0]
    outputIndexes := [1]
    main := .convolution2D quantisedConvolution }]
  tensorName := ["x", "y"]

/-- The convolutions that take its place have no weights. -/
theorem not_transformGroupConvolution_exact :
    ¬ Exact oneByOne (fun _ _ _ => none) false quantisedNet := by
  rintro ⟨net', -, -, -, hall⟩
  have hcomputes := hall _ List.mem_cons_self false quantisedConvolution rfl ⟨by decide, by decide⟩
  have hsome := hcomputes (fun _ => some (.maps [1, 2, 3, 4])) (.maps [5, 11, 39, 53]) 1
    List.mem_cons_self rfl
  exact Option.some_ne_none _ (hsome.symm.trans rfl)

end Fixed

end Mnn.Converter.TransformGroupConvolution
