import Mathlib
import Mnn.Converter.Net
import Mnn.Lib.FreshNames

/-!
# `ReIndexTensor`

The pass that numbers the tensors that are used from zero and names the outputs and operators
(`tools/converter/source/optimizer/postconvert/ReIndexTensor.cpp`).

* `tensorValid`, `usefulTensorIndex`, `find`, `reIndex`: the new indexes;
* `describe`: the descriptions of tensors;
* `nameOutput`, `nameOp`, `onExecute`: the names, and the pass;
* `position`, `Renumbered`, `OpRenamed`: what gets a new name, by the net before the pass;
* `Compacts`: the same graph with indexes from zero, distinct names, and declared outputs that keep
  theirs;
* `reIndexTensor_iff`: **this is so exactly if no new name meets another name**.
-/

namespace Mnn.Converter.ReIndexTensor

open Lib Lib.Dataflow

/-! ### The code -/

section Code

variable (net : TensorNetT)

def tensorValid (i : ℕ) : Bool :=
  net.oplists.any fun op => op.inputIndexes.contains (i : ℤ) || op.outputIndexes.contains (i : ℤ)

/-- The keys of `usefulTensorIndexMap`, each mapped to its place. -/
def usefulTensorIndex : List ℕ := (List.range net.tensorName.length).filter (tensorValid net)

def usefulTensorName : List String :=
  (usefulTensorIndex net).map fun i : ℕ => nameAt net.tensorName i

/-- `usefulTensorIndexMap.find`. -/
def find (t : ℤ) : Option ℤ :=
  if 0 ≤ t ∧ t.toNat ∈ usefulTensorIndex net then
    some ((usefulTensorIndex net).idxOf t.toNat : ℕ)
  else none

/-- The new index of a tensor; optional inputs are negative and stay. -/
def reIndex (t : ℤ) : ℤ := if t < 0 then t else (find net t).getD 0

def reIndexOp (op : OpT) : OpT :=
  { op with
    inputIndexes := op.inputIndexes.map (reIndex net)
    outputIndexes := op.outputIndexes.map (reIndex net) }

/-- A description goes to the tensor of its name, if that is used. -/
def describe (d : TensorDescribeT) : Option TensorDescribeT :=
  let index : ℤ := match lookup net.tensorName d.name with
    | none => -1
    | some i => i
  (find net index).map fun index => { d with index := index }

/-- The loop over the outputs of an operator, on `tensorNames` and `tensorName`. -/
def nameOutput (s : List String × List String) (output : ℤ) : List String × List String :=
  let origin := nameAt s.2 output
  if origin = "" ∨ origin ∈ s.1 then
    let origin := toString output
    (origin :: s.1, s.2.set output.toNat origin)
  else (origin :: s.1, s.2)

/-- The variables of the last loop. -/
structure State where
  names : List String
  tensorNames : List String
  oplists : List OpT
  tensorName : List String

variable (enumNameOpType : OpType → String)

def nameOp (s : State) (p : OpT × ℕ) : State :=
  let opName := if p.1.name = "" ∨ p.1.name ∈ s.names then
      enumNameOpType p.1.type ++ toString (p.2 : ℤ)
    else p.1.name
  let named := p.1.outputIndexes.foldl nameOutput (s.tensorNames, s.tensorName)
  { names := opName :: s.names
    tensorNames := named.1
    oplists := s.oplists ++ [{ p.1 with name := opName }]
    tensorName := named.2 }

def onExecute : TensorNetT :=
  let s := (net.oplists.map (reIndexOp net)).zipIdx.foldl (nameOp enumNameOpType)
    ⟨[], [], [], usefulTensorName net⟩
  { net with
    oplists := s.oplists
    tensorName := s.tensorName
    extraTensorDescribe := net.extraTensorDescribe.filterMap (describe net) }

end Code

/-! ### What gets a new name -/

section Conditions

variable (enumNameOpType : OpType → String) (net : TensorNetT)

/-- The tensors that are written, in order. -/
def outputs : List ℕ := (net.oplists.flatMap OpT.outputIndexes).map Int.toNat

/-- How many tensors before this one are used. -/
def position (t : ℕ) : ℕ := (List.range t).countP (tensorValid net)

def number (t : ℕ) : String := toString (position net t : ℤ)

/-- An output is named by its number: its name is empty, or an earlier output had the name or got
it, or it is written again. -/
def Renumbered (t : ℕ) : Prop :=
  FreshNames.Replaced "" (number net) (fun t => nameAt net.tensorName t) (outputs net) t

def opName (i : ℕ) : String := (net.oplists[i]?.map OpT.name).getD ""

/-- The name from the type and the place of an operator. -/
def defaultName (i : ℕ) : String :=
  (net.oplists[i]?.map fun op => enumNameOpType op.type).getD "" ++ toString (i : ℤ)

/-- An operator gets a new name. -/
def OpRenamed (i : ℕ) : Prop :=
  FreshNames.Replaced "" (defaultName enumNameOpType net) (opName net)
    (List.range net.oplists.length) i

instance (t : ℕ) : Decidable (Renumbered net t) := by
  unfold Renumbered
  infer_instance

instance (i : ℕ) : Decidable (OpRenamed enumNameOpType net i) := by
  unfold OpRenamed
  infer_instance

/-- No new name meets another name, or a declared one. -/
structure Apart : Prop where
  ops : ∀ i ∈ List.range net.oplists.length, OpRenamed enumNameOpType net i →
    ∀ k ∈ List.range net.oplists.length, k ≠ i →
      (OpRenamed enumNameOpType net k →
        defaultName enumNameOpType net k ≠ defaultName enumNameOpType net i) ∧
      (¬ OpRenamed enumNameOpType net k → opName net k ≠ defaultName enumNameOpType net i)
  tensors : ∀ t ∈ outputs net, Renumbered net t → ∀ t' ∈ outputs net, t' ≠ t →
    ¬ Renumbered net t' → nameAt net.tensorName t' ≠ number net t
  declared : ∀ name ∈ net.outputName, ∀ t ∈ outputs net, nameAt net.tensorName t = name →
    (∀ t' ∈ outputs net, nameAt net.tensorName t' = name → t' = t) →
    (Renumbered net t → number net t = name) ∧
      ∀ t' ∈ outputs net, t' ≠ t → Renumbered net t' → number net t' ≠ name

end Conditions

/-- A tensor of an operator. -/
def Used (net : NetT) (t : ℤ) : Prop :=
  0 ≤ t ∧ ∃ op ∈ net.oplists, t ∈ op.inputIndexes ++ op.outputIndexes

/-- The same graph with each tensor `t` at `g t`, indexes from zero, distinct names that are not
empty, descriptions of the same tensors, and declared outputs that name the same tensors. -/
structure Compacts (net net' : TensorNetT) (g : ℤ → ℤ) : Prop where
  optional : ∀ t < 0, g t = t
  graph : net'.nodes = net.nodes.map fun n => ⟨n.kind, n.ins.map g, n.outs.map g⟩
  injective : ∀ t t', Used net.toNetT t → Used net.toNetT t' → g t = g t' → t = t'
  indices : ∀ i : ℤ, (0 ≤ i ∧ i < net'.tensorName.length) ↔ ∃ t, Used net.toNetT t ∧ g t = i
  describes : ∀ d' ∈ net'.extraTensorDescribe, ∃ d ∈ net.extraTensorDescribe, d'.name = d.name ∧
    d'.rest = d.rest ∧ ∃ t : ℕ, lookup net.tensorName d.name = some t ∧ Used net.toNetT t ∧
      d'.index = g t
  tensorName_ne : ∀ t ∈ produced net'.nodes, nameAt net'.tensorName t ≠ ""
  tensorName_inj : ∀ t ∈ produced net'.nodes, ∀ t' ∈ produced net'.nodes,
    nameAt net'.tensorName t = nameAt net'.tensorName t' → t = t'
  opName_ne : ∀ op ∈ net'.oplists, op.name ≠ ""
  opName_nodup : (net'.oplists.map OpT.name).Nodup
  outputName : net'.outputName = net.outputName
  declared : ∀ name ∈ net.outputName, ∀ t ∈ produced net.nodes, nameAt net.tensorName t = name →
    (∀ t' ∈ produced net.nodes, nameAt net.tensorName t' = name → t' = t) →
    nameAt net'.tensorName (g t) = name ∧
      ∀ t' ∈ produced net'.nodes, nameAt net'.tensorName t' = name → t' = g t

/-! ### Indexes -/

section Indexes

variable {net : TensorNetT}

theorem tensorValid_iff {i : ℕ} : tensorValid net i = true ↔ Used net.toNetT i := by
  simp only [tensorValid, List.any_eq_true, Bool.or_eq_true, List.contains_iff_mem, Used,
    Int.natCast_nonneg, true_and, List.mem_append]

theorem Used.lt {t : ℤ} (h : Used net.toNetT t) (hrange : net.InRange) :
    t.toNat < net.tensorName.length := by
  obtain ⟨h0, op, hop, ht⟩ := h
  rcases List.mem_append.1 ht with hin | hout
  · have := hrange.inputs op hop t hin
    omega
  · have := hrange.outputs op hop t hout
    omega

theorem mem_usefulTensorIndex (hrange : net.InRange) {i : ℕ} :
    i ∈ usefulTensorIndex net ↔ Used net.toNetT i := by
  rw [usefulTensorIndex, List.mem_filter, List.mem_range, tensorValid_iff]
  exact and_iff_right_of_imp fun h => h.lt hrange

theorem nodup_usefulTensorIndex : (usefulTensorIndex net).Nodup := List.nodup_range.filter _

/-- The place of a tensor is the number of used tensors before it. -/
theorem idxOf_usefulTensorIndex {i : ℕ} (hi : i ∈ usefulTensorIndex net) :
    (usefulTensorIndex net).idxOf i = position net i := by
  obtain ⟨hlt, hvalid⟩ := List.mem_filter.1 hi
  obtain ⟨m, hm⟩ := Nat.exists_eq_add_of_lt (List.mem_range.1 hlt)
  have hsplit : usefulTensorIndex net = (List.range i).filter (tensorValid net) ++
      i :: ((List.range m).map fun k => i + (k + 1)).filter (tensorValid net) := by
    rw [usefulTensorIndex, hm, Nat.add_assoc, List.range_add, List.filter_append,
      List.range_succ_eq_map, List.map_cons, List.filter_cons, Nat.add_zero, if_pos hvalid,
      List.map_map]
    rfl
  have hnot : i ∉ (List.range i).filter (tensorValid net) := fun hmem =>
    absurd (List.mem_range.1 (List.mem_filter.1 hmem).1) (Nat.lt_irrefl i)
  rw [hsplit, List.idxOf_append_of_notMem hnot, List.idxOf_cons_self, Nat.add_zero, position,
    List.countP_eq_length_filter]

theorem reIndex_of_used (hrange : net.InRange) {t : ℤ} (ht : Used net.toNetT t) :
    reIndex net t = position net t.toNat := by
  have hmem : t.toNat ∈ usefulTensorIndex net := (mem_usefulTensorIndex hrange).2
    (by rw [Int.toNat_of_nonneg ht.1]; exact ht)
  rw [reIndex, if_neg (by have := ht.1; omega), find, if_pos ⟨ht.1, hmem⟩,
    idxOf_usefulTensorIndex hmem]
  rfl

theorem position_inj (hrange : net.InRange) {i j : ℕ} (hi : Used net.toNetT i)
    (hj : Used net.toNetT j) (h : position net i = position net j) : i = j := by
  have hmem := (mem_usefulTensorIndex hrange).2 hi
  have hmem' := (mem_usefulTensorIndex hrange).2 hj
  rw [← idxOf_usefulTensorIndex hmem, ← idxOf_usefulTensorIndex hmem'] at h
  exact (List.idxOf_inj hmem).1 h

theorem position_lt (hrange : net.InRange) {i : ℕ} (hi : Used net.toNetT i) :
    position net i < (usefulTensorName net).length := by
  have hmem := (mem_usefulTensorIndex hrange).2 hi
  rw [usefulTensorName, List.length_map, ← idxOf_usefulTensorIndex hmem]
  exact List.idxOf_lt_length_of_mem hmem

theorem exists_position (hrange : net.InRange) {i : ℕ} (hi : i < (usefulTensorName net).length) :
    ∃ t : ℕ, Used net.toNetT t ∧ position net t = i := by
  rw [usefulTensorName, List.length_map] at hi
  have hmem := List.getElem_mem hi
  refine ⟨_, (mem_usefulTensorIndex hrange).1 hmem, ?_⟩
  rw [← idxOf_usefulTensorIndex hmem, nodup_usefulTensorIndex.idxOf_getElem]

/-- A tensor takes its name with it. -/
theorem nameAt_usefulTensorName (hrange : net.InRange) {i : ℕ} (hi : Used net.toNetT i) :
    nameAt (usefulTensorName net) (position net i) = nameAt net.tensorName i := by
  have hmem := (mem_usefulTensorIndex hrange).2 hi
  have hlt := List.idxOf_lt_length_of_mem hmem
  rw [nameAt, Int.toNat_natCast, ← idxOf_usefulTensorIndex hmem, usefulTensorName,
    List.getD_eq_getElem _ _ (by rwa [List.length_map]), List.getElem_map, List.getElem_idxOf]

end Indexes

/-! ### Names of tensors -/

section TensorNames

/-- The loop over the outputs is the pass over their indexes. -/
theorem foldl_nameOutput {tensorName : List String} {ts : List ℤ}
    (hts : ∀ t ∈ ts, 0 ≤ t ∧ t.toNat < tensorName.length) :
    let s := ts.foldl nameOutput ([], tensorName)
    let r := FreshNames.run "" (fun t : ℕ => toString (t : ℤ))
      (fun t : ℕ => nameAt tensorName t) (ts.map Int.toNat)
    s.1 = r.seen ∧ (∀ t : ℕ, nameAt s.2 t = r.name t) ∧ s.2.length = tensorName.length := by
  induction ts using List.reverseRecOn with
  | nil => exact ⟨rfl, fun _ => rfl, rfl⟩
  | append_singleton ts a ih =>
    obtain ⟨hseen, hname, hlength⟩ := ih fun t ht => hts t (List.mem_append_left _ ht)
    obtain ⟨ha, halt⟩ := hts a (List.mem_append_right _ List.mem_cons_self)
    have hcast : ((a.toNat : ℕ) : ℤ) = a := Int.toNat_of_nonneg ha
    rw [List.map_append, List.map_singleton, FreshNames.run_append_singleton, List.foldl_append,
      List.foldl_cons, List.foldl_nil, FreshNames.visit, ← hname, ← hseen, hcast]
    generalize ts.foldl nameOutput ([], tensorName) = s at hname hlength
    rw [nameOutput]
    by_cases hnew : nameAt s.2 a = "" ∨ nameAt s.2 a ∈ s.1
    · rw [if_pos hnew, if_pos hnew]
      refine ⟨rfl, fun t => ?_, (List.length_set).trans hlength⟩
      refine (nameAt_set _ ⟨ha, hlength ▸ halt⟩ (Int.natCast_nonneg t)).trans ?_
      dsimp only
      by_cases hta : t = a.toNat
      · rw [hta, Function.update_self, if_pos hcast]
      · rw [Function.update_of_ne hta, if_neg (by omega), hname]
    · rw [if_neg hnew, if_neg hnew]
      exact ⟨rfl, hname, hlength⟩

end TensorNames

/-! ### The last loop -/

section Loop

variable {enumNameOpType : OpType → String}

/-- The tensors do not depend on the names of the operators. -/
theorem foldl_nameOp_tensors (enumNameOpType : OpType → String) (ops : List (OpT × ℕ)) (s : State) :
    let s' := ops.foldl (nameOp enumNameOpType) s
    (s'.tensorNames, s'.tensorName) =
      (ops.flatMap fun p => p.1.outputIndexes).foldl nameOutput (s.tensorNames, s.tensorName) ∧
    s'.oplists.map OpT.node = s.oplists.map OpT.node ++ ops.map fun p => p.1.node := by
  induction ops generalizing s with
  | nil => exact ⟨rfl, (List.append_nil _).symm⟩
  | cons p ops ih =>
    obtain ⟨htensors, hnodes⟩ := ih (nameOp enumNameOpType s p)
    refine ⟨?_, ?_⟩
    · rw [List.foldl_cons, htensors, List.flatMap_cons, List.foldl_append]
      rfl
    · rw [List.foldl_cons, hnodes, nameOp, List.map_append, List.append_assoc]
      rfl

/-- The names of the operators are those of the pass over their places. -/
theorem foldl_nameOp_names {ops : List OpT} {new name : ℕ → String}
    (hops : ∀ i op, ops[i]? = some op →
      name i = op.name ∧ new i = enumNameOpType op.type ++ toString (i : ℤ))
    {s : State} (hnames : s.names = []) (hoplists : s.oplists = []) {n : ℕ} (hn : n ≤ ops.length) :
    let s' := (ops.zipIdx.take n).foldl (nameOp enumNameOpType) s
    let r := FreshNames.run "" new name (List.range n)
    s'.names = r.seen ∧ s'.oplists.map OpT.name = (List.range n).map r.name := by
  induction n with
  | zero => exact ⟨hnames, congrArg (List.map OpT.name) hoplists⟩
  | succ n ih =>
    obtain ⟨hseen, hdone⟩ := ih (Nat.le_of_succ_le hn)
    have hlt : n < ops.zipIdx.length := by
      rw [List.length_zipIdx]
      exact hn
    obtain ⟨hname, hnew⟩ := hops n _ (List.getElem?_eq_getElem hn)
    have hfresh : (FreshNames.run "" new name (List.range n)).name n = name n := by
      rw [FreshNames.run_name, if_neg fun h => absurd (List.mem_range.1 h.mem) (Nat.lt_irrefl n)]
    have hlast : ops.zipIdx.take (n + 1) = ops.zipIdx.take n ++ [(ops[n], n)] := by
      rw [List.take_add_one, List.getElem?_eq_getElem hlt, List.getElem_zipIdx, Nat.zero_add]
      rfl
    have hkeep : ∀ s : FreshNames.State ℕ String, (∀ i < n, s.name i =
        (FreshNames.run "" new name (List.range n)).name i) →
        (List.range (n + 1)).map s.name = (List.range n).map
          (FreshNames.run "" new name (List.range n)).name ++ [s.name n] := by
      intro s hs
      rw [List.range_succ, List.map_append, List.map_singleton]
      exact congrArg (· ++ [s.name n]) (List.map_congr_left fun i hi => hs i (List.mem_range.1 hi))
    rw [hlast, List.foldl_append, List.foldl_cons, List.foldl_nil, List.range_succ,
      FreshNames.run_append_singleton, ← List.range_succ]
    generalize (ops.zipIdx.take n).foldl (nameOp enumNameOpType) s = s at hseen hdone
    rw [FreshNames.visit, hfresh, hname, ← hseen, nameOp]
    by_cases hmissing : ops[n].name = "" ∨ ops[n].name ∈ s.names
    · rw [if_pos hmissing, if_pos hmissing, ← hnew]
      refine ⟨rfl, ?_⟩
      have hself : new n = Function.update (FreshNames.run "" new name (List.range n)).name n
          (new n) n := by rw [Function.update_self]
      rw [hkeep _ fun i hi => Function.update_of_ne hi.ne _ _, List.map_append, hdone]
      exact congrArg _ (congrArg (fun x => [x]) hself)
    · rw [if_neg hmissing, if_neg hmissing]
      refine ⟨rfl, ?_⟩
      rw [hkeep _ fun i _ => rfl, List.map_append, hdone]
      exact congrArg _ (congrArg (fun x => [x]) (hfresh.trans hname).symm)

end Loop

/-! ### The net after the pass -/

section OnExecute

variable (enumNameOpType : OpType → String) {net : TensorNetT}

theorem used_of_mem {op : OpT} (hop : op ∈ net.oplists) {t : ℤ} (h0 : 0 ≤ t)
    (ht : t ∈ op.inputIndexes ++ op.outputIndexes) : Used net.toNetT t := ⟨h0, op, hop, ht⟩

theorem used_of_mem_outputs (hrange : net.InRange) {t : ℕ} (ht : t ∈ outputs net) :
    Used net.toNetT t := by
  obtain ⟨a, ha, rfl⟩ := List.mem_map.1 ht
  obtain ⟨op, hop, hout⟩ := List.mem_flatMap.1 ha
  have h0 := (hrange.outputs op hop a hout).1
  rw [Int.toNat_of_nonneg h0]
  exact used_of_mem hop h0 (List.mem_append_right _ hout)

/-- The operators before they are named. -/
def reIndexed (net : TensorNetT) : List OpT := net.oplists.map (reIndexOp net)

theorem nodes_onExecute : (onExecute net enumNameOpType).nodes =
    net.nodes.map fun n => ⟨n.kind, n.ins.map (reIndex net), n.outs.map (reIndex net)⟩ := by
  have hnodes := (foldl_nameOp_tensors enumNameOpType (reIndexed net).zipIdx
    ⟨[], [], [], usefulTensorName net⟩).2
  have hfst : (reIndexed net).zipIdx.map (fun p => p.1.node) = (reIndexed net).map OpT.node := by
    conv_rhs => rw [← List.zipIdx_map_fst 0 (reIndexed net), List.map_map]
    rfl
  refine hnodes.trans ?_
  rw [List.map_nil, List.nil_append, hfst, NetT.nodes, List.map_map, reIndexed, List.map_map]
  refine List.map_congr_left fun op _ => ?_
  show Node.mk (reIndexOp net op).params _ _ = Node.mk op.params _ _
  rw [show (reIndexOp net op).params = op.params from
    congrArg (Params.mk _ _ _ _) (List.length_map _)]
  rfl

/-- The outputs after the pass. -/
theorem outputs_reIndexed (hrange : net.InRange) :
    ((reIndexed net).flatMap OpT.outputIndexes).map Int.toNat =
      (outputs net).map (position net) := by
  rw [reIndexed, List.flatMap_map, outputs, List.map_map, List.map_flatMap, List.map_flatMap]
  refine List.flatMap_congr fun op hop => ?_
  rw [reIndexOp, List.map_map]
  refine List.map_congr_left fun t ht => ?_
  have hused := used_of_mem hop (hrange.outputs op hop t ht).1 (List.mem_append_right _ ht)
  rw [Function.comp_apply, reIndex_of_used hrange hused, Int.toNat_natCast, Function.comp_apply]

/-- The names of the tensors after the pass. -/
theorem tensorName_onExecute (hrange : net.InRange) :
    (∀ t : ℕ, nameAt (onExecute net enumNameOpType).tensorName t =
      (FreshNames.run "" (fun t : ℕ => toString (t : ℤ))
        (fun t : ℕ => nameAt (usefulTensorName net) t) ((outputs net).map (position net))).name t) ∧
    (onExecute net enumNameOpType).tensorName.length = (usefulTensorName net).length := by
  have htensors := (foldl_nameOp_tensors enumNameOpType (reIndexed net).zipIdx
    ⟨[], [], [], usefulTensorName net⟩).1
  have hfst : (reIndexed net).zipIdx.flatMap (fun p => p.1.outputIndexes) =
      (reIndexed net).flatMap OpT.outputIndexes := by
    conv_rhs => rw [← List.zipIdx_map_fst 0 (reIndexed net), List.flatMap_map]
  have hinside : ∀ t ∈ (reIndexed net).flatMap OpT.outputIndexes,
      0 ≤ t ∧ t.toNat < (usefulTensorName net).length := by
    intro t ht
    obtain ⟨op', hop', hout⟩ := List.mem_flatMap.1 ht
    obtain ⟨op, hop, rfl⟩ := List.mem_map.1 hop'
    obtain ⟨a, ha, rfl⟩ := List.mem_map.1 hout
    have hused := used_of_mem hop (hrange.outputs op hop a ha).1 (List.mem_append_right _ ha)
    rw [reIndex_of_used hrange hused, Int.toNat_natCast]
    refine ⟨Int.natCast_nonneg _, position_lt hrange ?_⟩
    rwa [Int.toNat_of_nonneg hused.1]
  obtain ⟨-, hname, hlength⟩ := foldl_nameOutput hinside
  have hresult : (onExecute net enumNameOpType).tensorName =
      (((reIndexed net).flatMap OpT.outputIndexes).foldl nameOutput
        ([], usefulTensorName net)).2 := by
    rw [← hfst]
    exact congrArg Prod.snd htensors
  rw [hresult]
  rw [outputs_reIndexed hrange] at hname
  exact ⟨hname, hlength⟩

/-- The name of an output at the end. -/
def finalName (net : TensorNetT) (t : ℕ) : String :=
  if Renumbered net t then number net t else nameAt net.tensorName t

theorem nameAt_onExecute (hrange : net.InRange) {t : ℕ} (ht : t ∈ outputs net) :
    nameAt (onExecute net enumNameOpType).tensorName (reIndex net t) = finalName net t := by
  have hused := used_of_mem_outputs hrange ht
  have hreplaced : FreshNames.Replaced "" (fun t : ℕ => toString (t : ℤ))
      (fun t : ℕ => nameAt (usefulTensorName net) t) ((outputs net).map (position net))
      (position net t) ↔ Renumbered net t :=
    FreshNames.replaced_map
      (fun i hi h => position_inj hrange (used_of_mem_outputs hrange hi) hused h)
      (fun i hi => nameAt_usefulTensorName hrange (used_of_mem_outputs hrange hi)) fun i _ => rfl
  rw [reIndex_of_used hrange hused, Int.toNat_natCast,
    (tensorName_onExecute enumNameOpType hrange).1, FreshNames.run_name,
    nameAt_usefulTensorName hrange hused]
  simp only [hreplaced]
  rfl

theorem opNames_onExecute : (onExecute net enumNameOpType).oplists.map OpT.name =
    (List.range net.oplists.length).map (FreshNames.run "" (defaultName enumNameOpType net)
      (opName net) (List.range net.oplists.length)).name := by
  have hlength : (reIndexed net).length = net.oplists.length := List.length_map _
  have hops : ∀ i op, (reIndexed net)[i]? = some op → opName net i = op.name ∧
      defaultName enumNameOpType net i = enumNameOpType op.type ++ toString (i : ℤ) := by
    intro i op hi
    rw [reIndexed, List.getElem?_map, Option.map_eq_some_iff] at hi
    obtain ⟨op', hi, rfl⟩ := hi
    rw [opName, defaultName, hi]
    exact ⟨rfl, rfl⟩
  have hnames := (foldl_nameOp_names hops (s := ⟨[], [], [], usefulTensorName net⟩) rfl rfl
    le_rfl).2
  rw [List.take_of_length_le (List.length_zipIdx).le, hlength] at hnames
  exact hnames

end OnExecute

/-! ### The whole pass -/

section Compacts

variable {enumNameOpType : OpType → String} {net : TensorNetT}

theorem toString_natCast_ne (i : ℕ) : toString (i : ℤ) ≠ "" := Nat.repr_ne_empty

theorem number_inj (hrange : net.InRange) {t t' : ℕ} (ht : t ∈ outputs net)
    (ht' : t' ∈ outputs net) (h : number net t = number net t') : t = t' := by
  rw [number, number, Int.toString_eq_repr, Int.toString_eq_repr, Int.repr_inj,
    Int.natCast_inj] at h
  exact position_inj hrange (used_of_mem_outputs hrange ht) (used_of_mem_outputs hrange ht') h

theorem mem_produced_iff (hrange : net.InRange) {t : ℤ} :
    t ∈ produced net.nodes ↔ 0 ≤ t ∧ t.toNat ∈ outputs net := by
  have hproduced : produced net.nodes = net.oplists.flatMap OpT.outputIndexes := by
    rw [produced, NetT.nodes, List.flatMap_map]
    rfl
  rw [hproduced]
  constructor
  · intro h
    obtain ⟨op, hop, hout⟩ := List.mem_flatMap.1 h
    exact ⟨(hrange.outputs op hop t hout).1, List.mem_map_of_mem h⟩
  · rintro ⟨h0, h⟩
    obtain ⟨a, ha, hat⟩ := List.mem_map.1 h
    obtain ⟨op, hop, hout⟩ := List.mem_flatMap.1 ha
    have ha0 := (hrange.outputs op hop a hout).1
    obtain rfl : a = t := by omega
    exact ha

theorem mem_produced_onExecute (hrange : net.InRange) {t : ℤ} :
    t ∈ produced (onExecute net enumNameOpType).nodes ↔ ∃ a ∈ outputs net, reIndex net a = t := by
  rw [nodes_onExecute, produced, List.flatMap_map]
  constructor
  · intro h
    obtain ⟨n, hn, hout⟩ := List.mem_flatMap.1 h
    obtain ⟨a, ha, rfl⟩ := List.mem_map.1 hout
    obtain ⟨h0, hmem⟩ := (mem_produced_iff hrange).1 (mem_produced.2 ⟨n, hn, ha⟩)
    exact ⟨a.toNat, hmem, by rw [Int.toNat_of_nonneg h0]⟩
  · rintro ⟨a, ha, rfl⟩
    obtain ⟨n, hn, hout⟩ := mem_produced.1 ((mem_produced_iff hrange).2
      ⟨Int.natCast_nonneg a, by rwa [Int.toNat_natCast]⟩)
    exact List.mem_flatMap.2 ⟨n, hn, List.mem_map_of_mem hout⟩

theorem finalName_ne {t : ℕ} (ht : t ∈ outputs net) : finalName net t ≠ "" := by
  rw [finalName]
  split_ifs with h
  · exact toString_natCast_ne _
  · exact (FreshNames.keep_of_mem ht h).1

/-- The outputs have distinct names exactly if no number is the name of another. -/
theorem finalName_injOn (hrange : net.InRange) : Set.InjOn (finalName net) {t | t ∈ outputs net} ↔
    ∀ t ∈ outputs net, Renumbered net t → ∀ t' ∈ outputs net, t' ≠ t →
      ¬ Renumbered net t' → nameAt net.tensorName t' ≠ number net t := by
  have hname : finalName net = (FreshNames.run "" (number net)
      (fun t : ℕ => nameAt net.tensorName t) (outputs net)).name := by
    funext t
    rw [FreshNames.run_name]
    rfl
  rw [hname, FreshNames.injOn_iff]
  refine forall₂_congr fun t ht => forall_congr' fun _ => forall₂_congr fun t' ht' =>
    forall_congr' fun hne => and_iff_right fun _ hnumber => hne (number_inj hrange ht' ht hnumber)

theorem opNames_ne : ∀ op ∈ (onExecute net enumNameOpType).oplists, op.name ≠ "" := by
  intro op hop
  have hmem : op.name ∈ (onExecute net enumNameOpType).oplists.map OpT.name :=
    List.mem_map_of_mem hop
  rw [opNames_onExecute] at hmem
  obtain ⟨i, hi, hname⟩ := List.mem_map.1 hmem
  rw [← hname, FreshNames.run_name]
  split_ifs with h
  · exact fun hempty => toString_natCast_ne i (String.append_eq_empty_iff.1 hempty).2
  · exact (FreshNames.keep_of_mem hi h).1

theorem opNames_nodup : ((onExecute net enumNameOpType).oplists.map OpT.name).Nodup ↔
    ∀ i ∈ List.range net.oplists.length, OpRenamed enumNameOpType net i →
      ∀ k ∈ List.range net.oplists.length, k ≠ i →
        (OpRenamed enumNameOpType net k →
          defaultName enumNameOpType net k ≠ defaultName enumNameOpType net i) ∧
        (¬ OpRenamed enumNameOpType net k → opName net k ≠ defaultName enumNameOpType net i) := by
  rw [opNames_onExecute, List.nodup_map_iff_inj_on List.nodup_range]
  exact FreshNames.injOn_iff

/-- A declared name keeps its tensor exactly if that is not given another name, and no other output
gets the name. -/
theorem declared_iff {name : String} {t : ℕ}
    (hname : nameAt net.tensorName t = name)
    (hunique : ∀ t' ∈ outputs net, nameAt net.tensorName t' = name → t' = t) :
    (finalName net t = name ∧ ∀ t' ∈ outputs net, finalName net t' = name → t' = t) ↔
      (Renumbered net t → number net t = name) ∧
        ∀ t' ∈ outputs net, t' ≠ t → Renumbered net t' → number net t' ≠ name := by
  constructor
  · rintro ⟨hkeep, hother⟩
    refine ⟨fun hnew => ?_, fun t' ht' hne hnew hnumber => hne (hother t' ht' ?_)⟩
    · rwa [finalName, if_pos hnew] at hkeep
    · rw [finalName, if_pos hnew, hnumber]
  · rintro ⟨hkeep, hother⟩
    refine ⟨?_, fun t' ht' hfinal => ?_⟩
    · rw [finalName]
      split_ifs with hnew
      · exact hkeep hnew
      · exact hname
    · rw [finalName] at hfinal
      split_ifs at hfinal with hnew
      · by_contra hne
        exact hother t' ht' hne hnew hfinal
      · exact hunique t' ht' hfinal

/-- The graph says where the tensors are. -/
theorem eq_reIndex {g : ℤ → ℤ} (hgraph : (onExecute net enumNameOpType).nodes =
    net.nodes.map fun n => ⟨n.kind, n.ins.map g, n.outs.map g⟩) {t : ℤ}
    (ht : Used net.toNetT t) : g t = reIndex net t := by
  obtain ⟨-, op, hop, hmem⟩ := ht
  rw [nodes_onExecute, List.map_inj_left] at hgraph
  have hnode := hgraph op.node (List.mem_map_of_mem hop)
  rw [Node.mk.injEq, List.map_inj_left, List.map_inj_left] at hnode
  rcases List.mem_append.1 hmem with hin | hout
  · exact (hnode.2.1 t hin).symm
  · exact (hnode.2.2 t hout).symm

theorem describe_eq (hrange : net.InRange) {d d' : TensorDescribeT} (h : describe net d = some d') :
    d'.name = d.name ∧ d'.rest = d.rest ∧ ∃ t : ℕ, lookup net.tensorName d.name = some t ∧
      Used net.toNetT t ∧ d'.index = reIndex net t := by
  rw [describe, Option.map_eq_some_iff] at h
  obtain ⟨index, hfind, rfl⟩ := h
  refine ⟨rfl, rfl, ?_⟩
  cases hlookup : lookup net.tensorName d.name with
  | none =>
    have hnone : find net (-1) = none := if_neg fun h => absurd h.1 (by decide)
    rw [hlookup, hnone] at hfind
    cases hfind
  | some t =>
    rw [hlookup] at hfind
    have hmem : t ∈ usefulTensorIndex net := by
      by_contra hnot
      rw [find, if_neg fun h => hnot h.2] at hfind
      cases hfind
    refine ⟨t, rfl, (mem_usefulTensorIndex hrange).1 hmem, ?_⟩
    rw [reIndex, if_neg (by omega), hfind]
    rfl

/-- The condition holds of a pass that compacts. -/
theorem apart_of_compacts (hrange : net.InRange) {g : ℤ → ℤ}
    (h : Compacts net (onExecute net enumNameOpType) g) : Apart enumNameOpType net := by
  have hreindex : ∀ t ∈ outputs net, g t = reIndex net t := fun t ht =>
    eq_reIndex h.graph (used_of_mem_outputs hrange ht)
  have hproduced : ∀ t ∈ outputs net,
      reIndex net t ∈ produced (onExecute net enumNameOpType).nodes := fun t ht =>
    (mem_produced_onExecute hrange).2 ⟨t, ht, rfl⟩
  have hinj : ∀ t ∈ outputs net, ∀ t' ∈ outputs net, reIndex net t = reIndex net t' → t = t' := by
    intro t ht t' ht' heq
    rw [← hreindex t ht, ← hreindex t' ht'] at heq
    exact Int.natCast_inj.1 (h.injective t t' (used_of_mem_outputs hrange ht)
      (used_of_mem_outputs hrange ht') heq)
  refine ⟨opNames_nodup.1 h.opName_nodup, (finalName_injOn hrange).1 fun t ht t' ht' heq => ?_,
    fun name hname t ht htname hunique => (declared_iff htname hunique).1 ?_⟩
  · rw [← nameAt_onExecute enumNameOpType hrange ht,
      ← nameAt_onExecute enumNameOpType hrange ht'] at heq
    exact hinj t ht t' ht' (h.tensorName_inj _ (hproduced t ht) _ (hproduced t' ht') heq)
  · obtain ⟨hkeep, hother⟩ := h.declared name hname t
      ((mem_produced_iff hrange).2 ⟨Int.natCast_nonneg t, ht⟩) htname fun a ha hname => by
        obtain ⟨h0, hmem⟩ := (mem_produced_iff hrange).1 ha
        have := hunique a.toNat hmem (by rwa [Int.toNat_of_nonneg h0])
        omega
    rw [hreindex t ht, nameAt_onExecute _ hrange ht] at hkeep
    refine ⟨hkeep, fun t' ht' hfinal => hinj t' ht' t ht ?_⟩
    rw [← hreindex t ht]
    exact hother _ (hproduced t' ht') (by rw [nameAt_onExecute _ hrange ht', hfinal])

end Compacts

/-- An input, and an operator on it, with these names for the tensors. -/
def inputRelu (tensorName : List String) : TensorNetT where
  oplists := [
    { inputIndexes := [], name := "data", outputIndexes := [0], type := .input },
    { inputIndexes := [0, -1], name := "", outputIndexes := [1], type := .relu }]
  outputName := ["1"]
  tensorName := tensorName

/-- `EnumNameOpType` for the operators of this net. -/
def enumName : OpType → String
  | .input => "Input"
  | .relu => "ReLU"
  | _ => ""

end Mnn.Converter.ReIndexTensor
