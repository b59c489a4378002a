import Mnn.Converter.Net
import Mnn.Lib.Run

/-!
# `FuseDupOp`

The pass that merges operators which compute the same
(`tools/converter/source/optimizer/postconvert/FuseDupOp.cpp`).

* `isSameOp`, `isSameIndexes`: the comparisons;
* `State`, `Action`, `exec`: the variables of `onExecute` and the bodies of its loops; `schedule`: the
  order in which `rounds` rounds run them; `onExecute`: rounds until one changes nothing;
* `Harmless`: what has to hold when two operators are merged;
* `Keeps`: the invariant of a round.
-/

namespace Mnn.Converter.FuseDupOp

open Lib.Dataflow

/-! ### The code -/

def isSameIndexes (op0 op1 : OpT) : Bool :=
  op0.inputIndexes = op1.inputIndexes && op0.outputIndexes.length = op1.outputIndexes.length

/-- The comparison of blobs; other data types than these are never the same. -/
def isSameBlob (v0 v1 : Blob) : Bool :=
  v0.external = v1.external && v0.dataFormat = v1.dataFormat && v0.dataType = v1.dataType &&
    v0.dims = v1.dims &&
    match v0.dataType with
    | .int32 => v0.int32s = v1.int32s
    | .float => floatsEq v0.float32s v1.float32s
    | .uint8 => v0.uint8s = v1.uint8s
    | .int8 => v0.int8s = v1.int8s
    | _ => false

/-- An operator of type `ReLU` or `ReLU6` has no other parameters than its own. -/
def isSameOp (op0 op1 : OpT) : Bool :=
  op0.type = op1.type && op0.main.type = op1.main.type && op0.externalPath = op1.externalPath &&
    match op0.main, op1.main with
    | .none, _ => true
    | .relu slope0, .relu slope1 => op0.type = .relu && slope0.eq slope1
    | .relu6 min0 max0, .relu6 min1 max1 => op0.type = .relu6 && max0.eq max1 && min0.eq min1
    | .blob v0, .blob v1 => isSameBlob v0 v1
    | .reshape dims0 dimType0, .reshape dims1 dimType1 => dimType1 = dimType0 && dims1 = dims0
    | .tensorConvertInfo _ dest0, .tensorConvertInfo _ dest1 => dest0 = dest1
    | .unaryOp opType0 _ _, .unaryOp opType1 _ _ => opType0 = opType1
    | .binaryOp opType0 _ _, .binaryOp opType1 _ _ => opType0 = opType1
    | .reductionParam operation0 dim0 _ keepDims0 _,
        .reductionParam operation1 dim1 _ keepDims1 _ =>
      operation0 = operation1 && keepDims0 = keepDims1 && dim0 = dim1
    | _, _ => false

section Net

variable (net : NetT)

/-- `outputNames`: the operators that have a declared output, by name. -/
def outputNames : List String :=
  net.oplists.filterMap fun op =>
    if op.type = .while then none
    else if op.outputIndexes.any fun o => net.outputName.contains (nameAt net.tensorName o) then
      some op.name
    else none

/-- `updateNames`: these can't fuse. -/
def updateNames : List String :=
  net.oplists.flatMap fun op =>
    match op.type, op.main with
    | .while, .whileParam aliases_updates _ => aliases_updates.flatten
    | _, _ => []

/-- `sameOps[i]`, or nothing. -/
def sameOps (i : ℕ) : List ℕ :=
  match net.oplists[i]? with
  | none => []
  | some originOp =>
    if (updateNames net).contains originOp.name then []
    else (List.range net.oplists.length).filter fun j => i < j &&
      match net.oplists[j]? with
      | none => false
      | some judgeOp => !(updateNames net).contains judgeOp.name && isSameOp originOp judgeOp

/-- The variables of `onExecute`; a deleted operator leaves an empty place. -/
structure State where
  oplists : List (Option OpT)
  tensorName : List String
  replaceIndexes : List (ℤ × ℤ) := []
  hasMeetOutput : Bool := false
  change : Bool := false
  deriving DecidableEq

def start : State where
  oplists := net.oplists.map some
  tensorName := net.tensorName

/-- `std::map::insert` keeps an entry that is there. -/
def insertIndex (m : List (ℤ × ℤ)) (p : ℤ × ℤ) : List (ℤ × ℤ) :=
  if (m.lookup p.1).isSome then m else p :: m

/-- One output of a merged operator: its readers will read the survivor's. -/
def replaceOutput (m : List (ℤ × ℤ)) (p : ℤ × ℤ) : List (ℤ × ℤ) :=
  let (originIndex, newIndex) := p
  if originIndex ≠ newIndex then
    insertIndex m (originIndex, (m.lookup newIndex).getD newIndex)
  else m

/-- `findFinalIndex`. -/
def findFinalIndex (m : List (ℤ × ℤ)) (index : ℤ) : ℤ := (m.lookup index).getD index

/-- Use judgeOp's name. -/
def moveName (names : List String) (p : ℤ × ℤ) : List String :=
  names.set p.2.toNat (nameAt names p.1)

/-- `judgeOp`, at place `j`, is merged into `originOp`. -/
def merge (s : State) (j : ℕ) (judgeOp originOp : OpT) (rename : Bool) : State :=
  let outputs := judgeOp.outputIndexes.zip originOp.outputIndexes
  { s with
    oplists := s.oplists.set j none
    tensorName := if rename then outputs.foldl moveName s.tensorName else s.tensorName
    replaceIndexes := outputs.foldl replaceOutput s.replaceIndexes
    hasMeetOutput := s.hasMeetOutput || rename
    change := true }

/-- The bodies of the loops. -/
inductive Action
  /-- `change = false`. -/
  | round
  /-- The loop over `originOp`. -/
  | origin (i : ℕ)
  /-- The loop over `judgeOp`. -/
  | judge (i j : ℕ)
  /-- Replace index. -/
  | replace
  deriving DecidableEq, Repr

/-- The operators that `judge i j` looks at. -/
def opAt (s : State) (i : ℕ) : Option OpT := (s.oplists[i]?).join

def exec (s : State) : Action → State
  | .round => { s with change := false }
  | .origin i =>
    match opAt s i with
    | none => s
    | some originOp => { s with hasMeetOutput := (outputNames net).contains originOp.name }
  | .judge i j =>
    match opAt s i, opAt s j with
    | some originOp, some judgeOp =>
      if (updateNames net).contains judgeOp.name then s
      else if isSameIndexes judgeOp originOp then
        -- output name must keep
        if (outputNames net).contains judgeOp.name then
          if s.hasMeetOutput then s else merge s j judgeOp originOp true
        else merge s j judgeOp originOp false
      else s
    | _, _ => s
  | .replace =>
    { s with oplists := s.oplists.map (Option.map fun op => { op with
        inputIndexes := op.inputIndexes.map (findFinalIndex s.replaceIndexes)
        outputIndexes := op.outputIndexes.map (findFinalIndex s.replaceIndexes) }) }

/-- The judges of one origin. -/
def visits (i : ℕ) : List Action := .origin i :: (sameOps net i).map (.judge i)

/-- One round of the `do` loop. -/
def roundActions : List Action :=
  .round :: (List.range net.oplists.length).flatMap (visits net) ++ [.replace]

/-- The actions of several rounds. -/
def schedule (rounds : ℕ) : List Action := (List.replicate rounds (roundActions net)).flatten

/-- The `do` loop, for at most `fuel` rounds. -/
def loop : ℕ → State → Option State
  | 0, _ => none
  | fuel + 1, s =>
    let s' := (roundActions net).foldl (exec net) s
    if s'.change then loop fuel s' else some s'

/-- Remove nullptr op. -/
def finish (s : State) : NetT :=
  { net with oplists := s.oplists.filterMap id, tensorName := s.tensorName }

/-- `onExecute`: each round but the last one merges an operator. -/
def onExecute : Option NetT := (loop net (net.oplists.length + 1) (start net)).map (finish net)

/-! ### The condition -/

/-- Some output of the operator has a declared name now. -/
def CarriesOutput (s : State) (op : OpT) : Prop :=
  ∃ t ∈ op.outputIndexes, nameAt s.tensorName t ∈ net.outputName

/-- What has to hold when `judgeOp` is merged into `originOp`: they have the same parameters, and the
names of operators in `outputNames` tell which of them has a declared output now. -/
def HarmlessMerge (s : State) (judgeOp originOp : OpT) : Prop :=
  judgeOp.params = originOp.params ∧
    if judgeOp.name ∈ outputNames net then ¬ CarriesOutput net s originOp
    else ¬ CarriesOutput net s judgeOp

/-- The two operators are about to be merged. -/
def Merges (s : State) (judgeOp originOp : OpT) : Prop :=
  judgeOp.name ∉ updateNames net ∧ isSameIndexes judgeOp originOp = true ∧
    (judgeOp.name ∈ outputNames net → s.hasMeetOutput = false)

/-- Steps whose merge, if there is one, is harmless. -/
def Allowed (s : State) (a : Action) : Prop :=
  ∀ i j, a = .judge i j → ∀ originOp ∈ opAt s i, ∀ judgeOp ∈ opAt s j,
    Merges net s judgeOp originOp → HarmlessMerge net s judgeOp originOp

def machine : Lib.Machine State Action where
  Allowed := Allowed net
  step := exec net

/-- All merges of the pass are harmless. -/
def Harmless : Prop :=
  ∀ rounds, Lib.Run (machine net) (start net) (schedule net rounds)
    ((schedule net rounds).foldl (exec net) (start net))

end Net

/-! ### Small steps -/

theorem opAt_eq_some {s : State} {i : ℕ} {op : OpT} :
    opAt s i = some op ↔ s.oplists[i]? = some (some op) := Option.join_eq_some_iff

/-- A judge is merged, or nothing happens. -/
theorem exec_judge (net : NetT) (s : State) (i j : ℕ) :
    exec net s (.judge i j) = s ∨ ∃ originOp judgeOp, opAt s i = some originOp ∧
      opAt s j = some judgeOp ∧ Merges net s judgeOp originOp ∧ exec net s (.judge i j) =
        merge s j judgeOp originOp (decide (judgeOp.name ∈ outputNames net)) := by
  rw [exec]
  cases horigin : opAt s i with
  | none => exact .inl rfl
  | some originOp =>
    cases hjudge : opAt s j with
    | none => exact .inl rfl
    | some judgeOp =>
      simp only [List.contains_iff_mem]
      by_cases hupdate : judgeOp.name ∈ updateNames net
      · exact .inl (if_pos hupdate)
      cases hsame : isSameIndexes judgeOp originOp with
      | false => exact .inl (if_neg hupdate)
      | true =>
        simp only [if_neg hupdate, if_true]
        by_cases hout : judgeOp.name ∈ outputNames net
        · cases hmeet : s.hasMeetOutput with
          | true => exact .inl (if_pos hout)
          | false => exact .inr ⟨originOp, judgeOp, rfl, rfl, ⟨hupdate, hsame, fun _ => hmeet⟩,
              (if_pos hout).trans (by rw [decide_eq_true hout]; rfl)⟩
        · exact .inr ⟨originOp, judgeOp, rfl, rfl, ⟨hupdate, hsame, fun h => absurd h hout⟩,
            (if_neg hout).trans (by rw [decide_eq_false hout])⟩

/-- New keys with values that are no keys are put in front. -/
theorem foldl_replaceOutput {l m : List (ℤ × ℤ)} (hnodup : (l.map Prod.fst).Nodup)
    (hfresh : ∀ p ∈ l, m.lookup p.1 = none)
    (htarget : ∀ p ∈ l, m.lookup p.2 = none ∧ p.2 ∉ l.map Prod.fst) :
    l.foldl replaceOutput m = l.reverse ++ m := by
  induction l generalizing m with
  | nil => rfl
  | cons p l ih =>
    obtain ⟨a, b⟩ := p
    obtain ⟨ha, hnodup⟩ := List.nodup_cons.1 hnodup
    obtain ⟨hfresh_a, hfresh⟩ := List.forall_mem_cons.1 hfresh
    obtain ⟨⟨hb, hb'⟩, htarget⟩ := List.forall_mem_cons.1 htarget
    have hne : a ≠ b := fun h => hb' (List.mem_cons.2 (.inl h.symm))
    have hone : replaceOutput m (a, b) = (a, b) :: m := by
      simp only [replaceOutput, ne_eq, hne, not_false_eq_true, if_true, hb, Option.getD_none,
        insertIndex, hfresh_a, Option.isSome_none, Bool.false_eq_true, if_false]
    have hlookup : ∀ t, t ≠ a → m.lookup t = none → ((a, b) :: m).lookup t = none := by
      intro t ht h
      rw [List.lookup_cons, beq_false_of_ne ht]
      exact h
    rw [List.foldl_cons, hone, ih hnodup, List.reverse_cons, List.append_assoc]
    · rfl
    · intro p hp
      exact hlookup _ (fun h => ha (List.mem_map.2 ⟨p, hp, h⟩)) (hfresh p hp)
    · intro p hp
      obtain ⟨h, h'⟩ := htarget p hp
      rw [List.map_cons, List.mem_cons, not_or] at h'
      exact ⟨hlookup _ h'.1 h, h'.2⟩

theorem lookup_of_mem {l : List (ℤ × ℤ)} (hnodup : (l.map Prod.fst).Nodup) {a b : ℤ}
    (h : (a, b) ∈ l) : l.lookup a = some b := by
  induction l with
  | nil => exact absurd h List.not_mem_nil
  | cons p l ih =>
    obtain ⟨hnot, hnodup⟩ := List.nodup_cons.1 hnodup
    rw [List.lookup_cons]
    rcases List.mem_cons.1 h with rfl | hmem
    · rw [beq_self_eq_true]
    · rw [beq_false_of_ne fun heq => hnot (List.mem_map.2 ⟨(a, b), hmem, heq⟩)]
      exact ih hnodup hmem

/-- The names after a merge. -/
theorem nameAt_moveName {names : List String} {a b t : ℤ} (hb : 0 ≤ b ∧ b.toNat < names.length)
    (ht : 0 ≤ t) :
    nameAt (moveName names (a, b)) t = if t = b then nameAt names a else nameAt names t :=
  nameAt_set (nameAt names a) hb ht

theorem length_foldl_moveName (l : List (ℤ × ℤ)) (names : List String) :
    (l.foldl moveName names).length = names.length := by
  induction l generalizing names with
  | nil => rfl
  | cons p l ih => rw [List.foldl_cons, ih, moveName, List.length_set]

/-- Other tensors keep their names. -/
theorem nameAt_foldl_of_not_mem {l : List (ℤ × ℤ)} {names : List String} {t : ℤ}
    (hrange : ∀ p ∈ l, 0 ≤ p.2 ∧ p.2.toNat < names.length) (ht : 0 ≤ t)
    (hnot : t ∉ l.map Prod.snd) : nameAt (l.foldl moveName names) t = nameAt names t := by
  induction l generalizing names with
  | nil => rfl
  | cons p l ih =>
    obtain ⟨a, b⟩ := p
    obtain ⟨hb, hrange⟩ := List.forall_mem_cons.1 hrange
    rw [List.map_cons, List.mem_cons, not_or] at hnot
    rw [List.foldl_cons, ih (by rwa [moveName, List.length_set]) hnot.2, nameAt_moveName hb ht,
      if_neg hnot.1]

/-- The survivor's tensors take the names of the others. -/
theorem nameAt_foldl_of_mem {l : List (ℤ × ℤ)} {names : List String} {a b : ℤ}
    (hrange : ∀ p ∈ l, 0 ≤ p.2 ∧ p.2.toNat < names.length) (hfrom : ∀ p ∈ l, 0 ≤ p.1)
    (hnodup : (l.map Prod.snd).Nodup) (hdisj : ∀ p ∈ l, p.1 ∉ l.map Prod.snd) (h : (a, b) ∈ l) :
    nameAt (l.foldl moveName names) b = nameAt names a := by
  induction l generalizing names with
  | nil => exact absurd h List.not_mem_nil
  | cons p l ih =>
    obtain ⟨a', b'⟩ := p
    obtain ⟨hb, hrange⟩ := List.forall_mem_cons.1 hrange
    obtain ⟨hnot, hnodup⟩ := List.nodup_cons.1 hnodup
    have hrange' : ∀ p ∈ l, 0 ≤ p.2 ∧ p.2.toNat < (moveName names (a', b')).length := by
      rwa [moveName, List.length_set]
    rw [List.foldl_cons]
    rcases List.mem_cons.1 h with heq | hmem
    · cases heq
      rw [nameAt_foldl_of_not_mem hrange' hb.1 hnot, nameAt_moveName hb hb.1, if_pos rfl]
    · have hfrom' := hfrom (a, b) h
      have hne : a ≠ b' := fun heq => hdisj (a, b) h (List.mem_cons.2 (.inl heq))
      rw [ih hrange' (fun p hp => hfrom p (List.mem_cons_of_mem _ hp)) hnodup
        (fun p hp hmem => hdisj p (List.mem_cons_of_mem _ hp) (List.mem_cons_of_mem _ hmem)) hmem,
        nameAt_moveName hb hfrom', if_neg hne]

/-! ### The invariant -/

section Invariant

variable {V : Type*} (net : NetT) (ρ : ℤ → V)

/-- Operator `i` of the net writes `t`. -/
def Writes (i : ℕ) (t : ℤ) : Prop := ∃ op, net.oplists[i]? = some op ∧ t ∈ op.outputIndexes

/-- What an operator at place `i` may read: a tensor that nobody writes, one of an earlier operator
that is there, or one that will be replaced by such a one, of the first `k` operators. -/
def Readable (k : ℕ) (s : State) (i : ℕ) (t : ℤ) : Prop :=
  t ∉ produced net.nodes ∨ (∃ j < i, Writes net j t ∧ (opAt s j).isSome) ∨
    ∃ t', s.replaceIndexes.lookup t = some t' ∧
      ∃ j < i, j < k ∧ Writes net j t' ∧ (opAt s j).isSome

/-- The tensor is written by an operator that is there. -/
def Live (s : State) (t : ℤ) : Prop := ∃ i, Writes net i t ∧ (opAt s i).isSome

/-- In a round, after the first `k` operators were origins: operators changed their inputs only, to
tensors of the same content, and each declared name is at a tensor with its content. -/
structure Keeps (k : ℕ) (s : State) : Prop where
  length : s.oplists.length = net.oplists.length
  same : ∀ i op', opAt s i = some op' → ∃ op, net.oplists[i]? = some op ∧
    op' = { op with inputIndexes := op'.inputIndexes } ∧
    op'.inputIndexes.map ρ = op.inputIndexes.map ρ
  keys : ∀ p ∈ s.replaceIndexes, ρ p.1 = ρ p.2 ∧ ∃ i, Writes net i p.1 ∧ opAt s i = none
  reads : ∀ i op', opAt s i = some op' → ∀ t ∈ op'.inputIndexes, Readable net k s i t
  names_length : s.tensorName.length = net.tensorName.length
  names_inj : ∀ t t', Live net s t → Live net s t' →
    nameAt s.tensorName t = nameAt s.tensorName t' → t = t'
  declared : ∀ name ∈ net.outputName, ∀ t, net.Names t name →
    ∃ t', Live net s t' ∧ nameAt s.tensorName t' = name ∧ ρ t' = ρ t

variable {net ρ}

theorem writes_mem {i : ℕ} {t : ℤ} (h : Writes net i t) : t ∈ produced net.nodes := by
  obtain ⟨op, hop, ht⟩ := h
  exact mem_produced.2 ⟨op.node, List.mem_map_of_mem (List.mem_of_getElem? hop), ht⟩

theorem exists_writes {t : ℤ} (h : t ∈ produced net.nodes) : ∃ i, Writes net i t := by
  obtain ⟨n, hn, ht⟩ := mem_produced.1 h
  obtain ⟨op, hop, rfl⟩ := List.mem_map.1 hn
  obtain ⟨i, hi⟩ := List.mem_iff_getElem?.1 hop
  exact ⟨i, op, hi, ht⟩

/-- One operator writes a tensor. -/
theorem Writes.unique (hwf : net.WellFormed) {i j : ℕ} {t : ℤ} (hi : Writes net i t)
    (hj : Writes net j t) : i = j := by
  obtain ⟨op, hop, ht⟩ := hi
  obtain ⟨op', hop', ht'⟩ := hj
  by_contra hne
  have hpair := (List.nodup_flatMap.1 hwf.ordered.nodup).2
  rw [NetT.nodes, List.pairwise_map, List.pairwise_iff_getElem] at hpair
  obtain ⟨hilt, rfl⟩ := List.getElem?_eq_some_iff.1 hop
  obtain ⟨hjlt, rfl⟩ := List.getElem?_eq_some_iff.1 hop'
  rcases Nat.lt_or_gt_of_ne hne with hlt | hlt
  · exact hpair i j hilt hjlt hlt ht ht'
  · exact hpair j i hjlt hilt hlt ht' ht

theorem Writes.nodup (hwf : net.WellFormed) {i : ℕ} {op : OpT} (hop : net.oplists[i]? = some op) :
    op.outputIndexes.Nodup :=
  (List.nodup_flatMap.1 hwf.ordered.nodup).1 op.node
    (List.mem_map_of_mem (List.mem_of_getElem? hop))

/-- What an operator that is there writes is not replaced. -/
theorem Keeps.lookup_none {k : ℕ} {s : State} (hwf : net.WellFormed) (h : Keeps net ρ k s) {t : ℤ}
    (hlive : t ∉ produced net.nodes ∨ Live net s t) : s.replaceIndexes.lookup t = none := by
  rw [List.lookup_eq_none_iff]
  intro p hp
  obtain ⟨-, i, hi, hnone⟩ := h.keys p hp
  rw [bne_iff_ne]
  rintro rfl
  rcases hlive with hnot | ⟨j, hj, hsome⟩
  · exact hnot (writes_mem hi)
  · rw [hj.unique hwf hi, hnone] at hsome
    cases hsome

theorem Keeps.mono {k k' : ℕ} {s : State} (h : Keeps net ρ k s) (hk : k ≤ k') :
    Keeps net ρ k' s := by
  refine { h with reads := fun i op' hop t ht => ?_ }
  rcases h.reads i op' hop t ht with hnot | hlive | ⟨t', hlook, j, hj, hjk, hw⟩
  · exact .inl hnot
  · exact .inr (.inl hlive)
  · exact .inr (.inr ⟨t', hlook, j, hj, by omega, hw⟩)

theorem keeps_start (hwf : net.WellFormed) : Keeps net ρ 0 (start net) := by
  have hat : ∀ i, opAt (start net) i = net.oplists[i]? := by
    intro i
    rw [opAt, start, List.getElem?_map]
    cases net.oplists[i]? <;> rfl
  have hlive : ∀ {t}, Live net (start net) t ↔ t ∈ produced net.nodes := by
    intro t
    constructor
    · rintro ⟨i, hi, -⟩
      exact writes_mem hi
    · intro ht
      obtain ⟨i, hi⟩ := exists_writes ht
      obtain ⟨op, hop, -⟩ := id hi
      exact ⟨i, hi, by rw [hat, hop]; rfl⟩
  refine ⟨List.length_map _, fun i op' hop => ?_, fun p hp => absurd hp List.not_mem_nil, ?_, rfl,
    ?_, ?_⟩
  · rw [hat] at hop
    exact ⟨op', hop, rfl, rfl⟩
  · intro i op' hop t ht
    rw [hat] at hop
    by_cases hprod : t ∈ produced net.nodes
    · obtain ⟨j, hj⟩ := exists_writes hprod
      obtain ⟨opj, hopj, htj⟩ := id hj
      refine .inr (.inl ⟨j, ?_, hj, by rw [hat, hopj]; rfl⟩)
      -- an operator reads what was written before
      by_contra hle
      obtain ⟨hilt, rfl⟩ := List.getElem?_eq_some_iff.1 hop
      obtain ⟨hjlt, rfl⟩ := List.getElem?_eq_some_iff.1 hopj
      rcases Nat.eq_or_lt_of_le (not_lt.1 hle) with rfl | hlt
      · exact hwf.ordered.own _ (List.mem_map_of_mem (List.getElem_mem hilt)) t htj ht
      · have hlater := hwf.ordered.later
        rw [NetT.nodes, List.pairwise_map, List.pairwise_iff_getElem] at hlater
        exact hlater i j hilt hjlt hlt t htj ht
    · exact .inl hprod
  · intro t t' ht ht' heq
    obtain ⟨h0, hlt⟩ := hwf.range t (hlive.1 ht)
    obtain ⟨h0', hlt'⟩ := hwf.range t' (hlive.1 ht')
    simp only [nameAt, start, List.getD_eq_getElem?_getD, List.getElem?_eq_getElem hlt,
      List.getElem?_eq_getElem hlt', Option.getD_some] at heq
    have := (List.Nodup.getElem_inj_iff hwf.tensorName).1 heq
    omega
  · rintro name hname t ⟨ht, hnm⟩
    exact ⟨t, hlive.2 ht, hnm, rfl⟩

/-! ### Merging -/

section Merge

variable {f : Meaning Params V} {s : State} {i j : ℕ} {originOp judgeOp : OpT} {rename : Bool}

theorem opAt_merge (hlen : j < s.oplists.length) (m : ℕ) :
    opAt (merge s j judgeOp originOp rename) m = if m = j then none else opAt s m := by
  rw [opAt, merge, List.getElem?_set]
  by_cases h : m = j
  · subst h
    rw [if_pos rfl, if_pos rfl, if_pos hlen]
    rfl
  · rw [if_neg (Ne.symm h), if_neg h]
    rfl

/-- An operator that is there writes what it wrote in the net. -/
theorem writes_iff {k : ℕ} (h : Keeps net ρ k s) {op' : OpT} (hop : opAt s i = some op') (t : ℤ) :
    Writes net i t ↔ t ∈ op'.outputIndexes := by
  obtain ⟨op, hop, heq, -⟩ := h.same i op' hop
  rw [heq, Writes, hop]
  exact ⟨fun ⟨op', hop', ht⟩ => Option.some.inj hop' ▸ ht, fun ht => ⟨op, rfl, ht⟩⟩

theorem nodup_outputs {k : ℕ} (hwf : net.WellFormed) (h : Keeps net ρ k s) {op' : OpT}
    (hop : opAt s i = some op') : op'.outputIndexes.Nodup := by
  obtain ⟨op, hop, heq, -⟩ := h.same i op' hop
  have hnodup : op.outputIndexes.Nodup := Writes.nodup hwf hop
  rwa [heq]

/-- The pairs of outputs of two operators that are there. -/
theorem zip_outputs (h : Keeps net ρ (i + 1) s)
    (horigin : opAt s i = some originOp) (hjudge : opAt s j = some judgeOp) :
    ∀ p ∈ judgeOp.outputIndexes.zip originOp.outputIndexes, Writes net j p.1 ∧ Writes net i p.2 := by
  intro p hp
  obtain ⟨hfst, hsnd⟩ := List.of_mem_zip hp
  exact ⟨(writes_iff h hjudge _).2 hfst, (writes_iff h horigin _).2 hsnd⟩

/-- The two operators compute the same. -/
theorem outputs_eq (hwf : net.WellFormed) (hsolves : Solves f ρ net.nodes)
    (h : Keeps net ρ (i + 1) s) (horigin : opAt s i = some originOp)
    (hjudge : opAt s j = some judgeOp) (hins : judgeOp.inputIndexes = originOp.inputIndexes)
    (hparams : judgeOp.params = originOp.params) :
    ∀ p ∈ judgeOp.outputIndexes.zip originOp.outputIndexes, ρ p.1 = ρ p.2 := by
  have hout : ∀ (m : ℕ) (op' : OpT), opAt s m = some op' → op'.outputIndexes.Nodup ∧
      ∀ t ∈ op'.outputIndexes,
        ρ t = f op'.params (op'.inputIndexes.map ρ) (op'.outputIndexes.idxOf t) := by
    intro m op' hop'
    obtain ⟨op, hop, heq, hvalue⟩ := h.same m op' hop'
    have hnode : op.node ∈ net.nodes := List.mem_map_of_mem (List.mem_of_getElem? hop)
    have hnodup : op.outputIndexes.Nodup := Writes.nodup hwf hop
    rw [hvalue, heq]
    exact ⟨hnodup, hsolves op.node hnode⟩
  obtain ⟨hnodup, horig⟩ := hout i originOp horigin
  obtain ⟨hnodup', hjudg⟩ := hout j judgeOp hjudge
  intro p hp
  obtain ⟨v, hv, rfl⟩ := List.mem_iff_getElem.1 hp
  rw [List.length_zip] at hv
  rw [List.getElem_zip, hjudg _ (List.getElem_mem _), horig _ (List.getElem_mem _), hparams, hins,
    hnodup.idxOf_getElem, hnodup'.idxOf_getElem]

section Step

variable (hwf : net.WellFormed) (hij : i < j) (h : Keeps net ρ (i + 1) s)
  (horigin : opAt s i = some originOp) (hjudge : opAt s j = some judgeOp)
  (hlen : judgeOp.outputIndexes.length = originOp.outputIndexes.length)

include hwf hij h horigin hjudge

theorem outputs_disjoint : ∀ t ∈ judgeOp.outputIndexes, t ∉ originOp.outputIndexes :=
  fun t ht ht' =>
    hij.ne' (((writes_iff h hjudge t).2 ht).unique hwf ((writes_iff h horigin t).2 ht'))

include hlen

theorem merge_replaceIndexes :
    (merge s j judgeOp originOp rename).replaceIndexes =
      (judgeOp.outputIndexes.zip originOp.outputIndexes).reverse ++ s.replaceIndexes := by
  have hpairs := zip_outputs h horigin hjudge
  have hfst : (judgeOp.outputIndexes.zip originOp.outputIndexes).map Prod.fst =
      judgeOp.outputIndexes := List.map_fst_zip hlen.le
  refine foldl_replaceOutput ?_ (fun p hp => ?_) fun p hp => ⟨?_, fun hmem => ?_⟩
  · rw [hfst]
    exact nodup_outputs hwf h hjudge
  · exact h.lookup_none hwf (.inr ⟨j, (hpairs p hp).1, by rw [hjudge]; rfl⟩)
  · exact h.lookup_none hwf (.inr ⟨i, (hpairs p hp).2, by rw [horigin]; rfl⟩)
  · rw [hfst] at hmem
    exact outputs_disjoint hwf hij h horigin hjudge _ hmem
      ((writes_iff h horigin _).1 (hpairs p hp).2)

/-- The outputs of the merged operator are replaced, and what was replaced before stays so. -/
theorem lookup_merge :
    (∀ p ∈ judgeOp.outputIndexes.zip originOp.outputIndexes,
      (merge s j judgeOp originOp rename).replaceIndexes.lookup p.1 = some p.2) ∧
    ∀ t t', s.replaceIndexes.lookup t = some t' →
      (merge s j judgeOp originOp rename).replaceIndexes.lookup t = some t' := by
  have hfst : (judgeOp.outputIndexes.zip originOp.outputIndexes).map Prod.fst =
      judgeOp.outputIndexes := List.map_fst_zip hlen.le
  rw [merge_replaceIndexes hwf hij h horigin hjudge hlen]
  constructor
  · rintro ⟨a, b⟩ hp
    have hnodup : ((judgeOp.outputIndexes.zip originOp.outputIndexes).reverse.map
        Prod.fst).Nodup := by
      rw [List.map_reverse, List.nodup_reverse, hfst]
      exact nodup_outputs hwf h hjudge
    rw [List.lookup_append, lookup_of_mem hnodup (List.mem_reverse.2 hp)]
    rfl
  · intro t t' ht
    have hnone : (judgeOp.outputIndexes.zip originOp.outputIndexes).reverse.lookup t = none := by
      rw [List.lookup_eq_none_iff]
      intro p hp
      rw [bne_iff_ne]
      rintro rfl
      have hlive : Live net s p.1 :=
        ⟨j, (zip_outputs h horigin hjudge p (List.mem_reverse.1 hp)).1, by rw [hjudge]; rfl⟩
      rw [h.lookup_none hwf (.inr hlive)] at ht
      cases ht
    rw [List.lookup_append, hnone]
    exact ht

omit hij horigin hlen in
theorem live_merge (t : ℤ) :
    Live net (merge s j judgeOp originOp rename) t ↔ Live net s t ∧ t ∉ judgeOp.outputIndexes := by
  have hjlt : j < s.oplists.length := (List.getElem?_eq_some_iff.1 (opAt_eq_some.1 hjudge)).1
  constructor
  · rintro ⟨m, hm, hsome⟩
    rw [opAt_merge hjlt] at hsome
    by_cases hmj : m = j
    · rw [if_pos hmj] at hsome
      cases hsome
    · rw [if_neg hmj] at hsome
      exact ⟨⟨m, hm, hsome⟩, fun ht => hmj (hm.unique hwf ((writes_iff h hjudge t).2 ht))⟩
  · rintro ⟨⟨m, hm, hsome⟩, hnot⟩
    have hmj : m ≠ j := by
      rintro rfl
      exact hnot ((writes_iff h hjudge t).1 hm)
    refine ⟨m, hm, ?_⟩
    rwa [opAt_merge hjlt, if_neg hmj]

/-- What a remaining operator reads is there, or is replaced by what is there. -/
theorem readable_merge {m : ℕ} {t : ℤ} (hread : Readable net (i + 1) s m t) :
    Readable net (i + 1) (merge s j judgeOp originOp rename) m t := by
  have hjlt : j < s.oplists.length := (List.getElem?_eq_some_iff.1 (opAt_eq_some.1 hjudge)).1
  have hkeep : ∀ l, (opAt s l).isSome → l ≠ j →
      (opAt (merge s j judgeOp originOp rename) l).isSome := by
    intro l hl hne
    rwa [opAt_merge hjlt, if_neg hne]
  obtain ⟨hnew, hold⟩ := @lookup_merge _ net ρ s i j originOp judgeOp rename hwf hij h horigin
    hjudge hlen
  rcases hread with hnot | ⟨l, hlm, hl, hsome⟩ | ⟨t', hlook, l, hlm, hli, hl, hsome⟩
  · exact .inl hnot
  · by_cases hlj : l = j
    · -- the tensor was written by the merged operator
      rw [hlj, writes_iff h hjudge] at hl
      obtain ⟨v, hv, rfl⟩ := List.mem_iff_getElem.1 hl
      have hv' : v < originOp.outputIndexes.length := hlen ▸ hv
      have hmem : (judgeOp.outputIndexes[v], originOp.outputIndexes[v]) ∈
          judgeOp.outputIndexes.zip originOp.outputIndexes := by
        rw [List.mem_iff_getElem]
        exact ⟨v, by rw [List.length_zip]; omega, List.getElem_zip⟩
      exact .inr (.inr ⟨_, hnew _ hmem, i, by omega, by omega,
        (writes_iff h horigin _).2 (List.getElem_mem hv'), hkeep i (by rw [horigin]; rfl) hij.ne⟩)
    · exact .inr (.inl ⟨l, hlm, hl, hkeep l hsome hlj⟩)
  · exact .inr (.inr ⟨t', hold t t' hlook, l, hlm, hli, hl, hkeep l hsome (by omega)⟩)

/-- The names after a merge that moves them. -/
theorem names_merge :
    (∀ p ∈ judgeOp.outputIndexes.zip originOp.outputIndexes,
      nameAt (merge s j judgeOp originOp true).tensorName p.2 = nameAt s.tensorName p.1) ∧
    ∀ t, Live net s t → t ∉ originOp.outputIndexes →
      nameAt (merge s j judgeOp originOp true).tensorName t = nameAt s.tensorName t := by
  have hpairs := zip_outputs h horigin hjudge
  have hfst : (judgeOp.outputIndexes.zip originOp.outputIndexes).map Prod.fst =
      judgeOp.outputIndexes := List.map_fst_zip hlen.le
  have hsnd : (judgeOp.outputIndexes.zip originOp.outputIndexes).map Prod.snd =
      originOp.outputIndexes := List.map_snd_zip hlen.ge
  have hrange : ∀ p ∈ judgeOp.outputIndexes.zip originOp.outputIndexes,
      0 ≤ p.2 ∧ p.2.toNat < s.tensorName.length := by
    intro p hp
    rw [h.names_length]
    exact hwf.range p.2 (writes_mem (hpairs p hp).2)
  refine ⟨fun p hp => ?_, fun t ht hnot => ?_⟩
  · refine nameAt_foldl_of_mem hrange (fun p hp => (hwf.range p.1 (writes_mem (hpairs p hp).1)).1)
      (by rw [hsnd]; exact nodup_outputs hwf h horigin) (fun p hp => ?_) hp
    rw [hsnd]
    have hmem : p.1 ∈ judgeOp.outputIndexes := hfst ▸ List.mem_map_of_mem hp
    exact outputs_disjoint hwf hij h horigin hjudge p.1 hmem
  · obtain ⟨m, hm, -⟩ := ht
    exact nameAt_foldl_of_not_mem hrange (hwf.range t (writes_mem hm)).1 (by rwa [hsnd])

/-- The partner of an output of the survivor. -/
theorem exists_partner {t : ℤ} (ht : t ∈ originOp.outputIndexes) :
    ∃ a, (a, t) ∈ judgeOp.outputIndexes.zip originOp.outputIndexes ∧
      nameAt (merge s j judgeOp originOp true).tensorName t = nameAt s.tensorName a := by
  obtain ⟨p, hp, rfl⟩ := List.mem_map.1
    ((List.map_snd_zip hlen.ge).symm ▸ ht :
      t ∈ (judgeOp.outputIndexes.zip originOp.outputIndexes).map Prod.snd)
  exact ⟨p.1, hp, (names_merge hwf hij h horigin hjudge hlen).1 p hp⟩

theorem names_inj_merge {t t' : ℤ} (ht : Live net (merge s j judgeOp originOp rename) t)
    (ht' : Live net (merge s j judgeOp originOp rename) t')
    (heq : nameAt (merge s j judgeOp originOp rename).tensorName t =
      nameAt (merge s j judgeOp originOp rename).tensorName t') : t = t' := by
  rw [live_merge hwf h hjudge] at ht ht'
  cases rename with
  | false => exact h.names_inj t t' ht.1 ht'.1 heq
  | true =>
    have hpairs := zip_outputs h horigin hjudge
    have hother := (names_merge hwf hij h horigin hjudge hlen).2
    have hjudgeLive : ∀ a ∈ judgeOp.outputIndexes, Live net s a := fun a ha =>
      ⟨j, (writes_iff h hjudge a).2 ha, by rw [hjudge]; rfl⟩
    -- a name that was moved is no other tensor's
    have hmoved : ∀ u u', u ∈ originOp.outputIndexes → Live net s u' →
        u' ∉ judgeOp.outputIndexes → u' ∉ originOp.outputIndexes →
        nameAt (merge s j judgeOp originOp true).tensorName u ≠
          nameAt (merge s j judgeOp originOp true).tensorName u' := by
      intro u u' hu hlive hnot hnot' hname
      obtain ⟨a, hp, ha⟩ := exists_partner hwf hij h horigin hjudge hlen hu
      have hamem : a ∈ judgeOp.outputIndexes := (List.of_mem_zip hp).1
      rw [ha, hother u' hlive hnot'] at hname
      exact hnot (h.names_inj a u' (hjudgeLive a hamem) hlive hname ▸ hamem)
    by_cases hmem : t ∈ originOp.outputIndexes
    · by_cases hmem' : t' ∈ originOp.outputIndexes
      · obtain ⟨a, hp, ha⟩ := exists_partner hwf hij h horigin hjudge hlen hmem
        obtain ⟨a', hp', ha'⟩ := exists_partner hwf hij h horigin hjudge hlen hmem'
        rw [ha, ha'] at heq
        have haa := h.names_inj a a' (hjudgeLive a (List.of_mem_zip hp).1)
          (hjudgeLive a' (List.of_mem_zip hp').1) heq
        subst haa
        obtain ⟨hnew, -⟩ := @lookup_merge _ net ρ s i j originOp judgeOp true hwf hij h horigin
          hjudge hlen
        exact Option.some.inj ((hnew _ hp).symm.trans (hnew _ hp'))
      · exact absurd heq (hmoved t t' hmem ht'.1 ht'.2 hmem')
    · by_cases hmem' : t' ∈ originOp.outputIndexes
      · exact absurd heq.symm (hmoved t' t hmem' ht.1 ht.2 hmem)
      · rw [hother t ht.1 hmem, hother t' ht'.1 hmem'] at heq
        exact h.names_inj t t' ht.1 ht'.1 heq

theorem declared_merge
    (hvalues : ∀ p ∈ judgeOp.outputIndexes.zip originOp.outputIndexes, ρ p.1 = ρ p.2)
    (hcarry : if rename then ¬ CarriesOutput net s originOp else ¬ CarriesOutput net s judgeOp)
    {name : String} (hname : name ∈ net.outputName) {t : ℤ} (ht : net.Names t name) :
    ∃ t', Live net (merge s j judgeOp originOp rename) t' ∧
      nameAt (merge s j judgeOp originOp rename).tensorName t' = name ∧ ρ t' = ρ t := by
  obtain ⟨u, hlive, hu, hvalue⟩ := h.declared name hname t ht
  cases rename with
  | false =>
    have hnot : u ∉ judgeOp.outputIndexes := fun hmem => hcarry ⟨u, hmem, hu ▸ hname⟩
    exact ⟨u, (live_merge hwf h hjudge u).2 ⟨hlive, hnot⟩, hu, hvalue⟩
  | true =>
    obtain ⟨hmoved, hother⟩ := names_merge hwf hij h horigin hjudge hlen
    have hnot : u ∉ originOp.outputIndexes := fun hmem => hcarry ⟨u, hmem, hu ▸ hname⟩
    by_cases hmem : u ∈ judgeOp.outputIndexes
    · obtain ⟨p, hp, rfl⟩ := List.mem_map.1
        ((List.map_fst_zip hlen.le).symm ▸ hmem :
          u ∈ (judgeOp.outputIndexes.zip originOp.outputIndexes).map Prod.fst)
      have hsnd := (List.of_mem_zip hp).2
      refine ⟨p.2, (live_merge hwf h hjudge p.2).2 ⟨?_, fun hmem' => ?_⟩, ?_, ?_⟩
      · exact ⟨i, (writes_iff h horigin _).2 hsnd, by rw [horigin]; rfl⟩
      · exact outputs_disjoint hwf hij h horigin hjudge _ hmem' hsnd
      · rw [hmoved p hp, hu]
      · rw [← hvalues p hp, hvalue]
    · exact ⟨u, (live_merge hwf h hjudge u).2 ⟨hlive, hmem⟩, (hother u hlive hnot).trans hu,
        hvalue⟩

end Step

/-- **Merging keeps the invariant.** -/
theorem keeps_merge (hwf : net.WellFormed) (hsolves : Solves f ρ net.nodes) (hij : i < j)
    (h : Keeps net ρ (i + 1) s) (horigin : opAt s i = some originOp)
    (hjudge : opAt s j = some judgeOp) (hsame : isSameIndexes judgeOp originOp = true)
    (hparams : judgeOp.params = originOp.params)
    (hcarry : if rename then ¬ CarriesOutput net s originOp else ¬ CarriesOutput net s judgeOp) :
    Keeps net ρ (i + 1) (merge s j judgeOp originOp rename) := by
  obtain ⟨hins, hlen⟩ : judgeOp.inputIndexes = originOp.inputIndexes ∧
      judgeOp.outputIndexes.length = originOp.outputIndexes.length := by
    simpa [isSameIndexes] using hsame
  have hjlt : j < s.oplists.length := (List.getElem?_eq_some_iff.1 (opAt_eq_some.1 hjudge)).1
  have hvalues := outputs_eq hwf hsolves h horigin hjudge hins hparams
  have hstays : ∀ m op', opAt (merge s j judgeOp originOp rename) m = some op' →
      opAt s m = some op' := by
    intro m op' hop
    rw [opAt_merge hjlt] at hop
    by_cases hmj : m = j
    · rw [if_pos hmj] at hop
      cases hop
    · rwa [if_neg hmj] at hop
  refine ⟨?_, fun m op' hop => h.same m op' (hstays m op' hop), fun p hp => ?_,
    fun m op' hop t ht => readable_merge hwf hij h horigin hjudge hlen
      (h.reads m op' (hstays m op' hop) t ht), ?_,
    fun t t' ht ht' heq => names_inj_merge hwf hij h horigin hjudge hlen ht ht' heq,
    fun name hname t ht => declared_merge hwf hij h horigin hjudge hlen hvalues hcarry hname ht⟩
  · rw [merge, List.length_set, h.length]
  · rw [merge_replaceIndexes hwf hij h horigin hjudge hlen, List.mem_append,
      List.mem_reverse] at hp
    rcases hp with hp | hp
    · refine ⟨hvalues p hp, j, (zip_outputs h horigin hjudge p hp).1, ?_⟩
      rw [opAt_merge hjlt, if_pos rfl]
    · obtain ⟨hvalue, m, hm, hnone⟩ := h.keys p hp
      refine ⟨hvalue, m, hm, ?_⟩
      rw [opAt_merge hjlt, hnone, ite_self]
  · cases rename with
    | false => exact h.names_length
    | true => exact (length_foldl_moveName _ _).trans h.names_length

end Merge

/-! ### Rounds -/

section Round

variable {f : Meaning Params V} {s s' : State} {k : ℕ}

theorem keeps_judge (hwf : net.WellFormed) (hsolves : Solves f ρ net.nodes) {i j : ℕ} (hij : i < j)
    (h : Keeps net ρ (i + 1) s) (hallowed : Allowed net s (.judge i j)) :
    Keeps net ρ (i + 1) (exec net s (.judge i j)) := by
  rcases exec_judge net s i j with heq | ⟨originOp, judgeOp, horigin, hjudge, hmerges, heq⟩
  · rwa [heq]
  · obtain ⟨hparams, hcarry⟩ := hallowed i j rfl originOp horigin judgeOp hjudge hmerges
    rw [heq]
    refine keeps_merge hwf hsolves hij h horigin hjudge hmerges.2.1 hparams ?_
    by_cases hout : judgeOp.name ∈ outputNames net
    · rw [if_pos hout] at hcarry
      rwa [if_pos (decide_eq_true hout)]
    · rw [if_neg hout] at hcarry
      rwa [if_neg (by simpa using hout)]

/-- The variables of the loops are not part of the invariant. -/
theorem keeps_congr (hops : s'.oplists = s.oplists) (hnames : s'.tensorName = s.tensorName)
    (hmap : s'.replaceIndexes = s.replaceIndexes) (h : Keeps net ρ k s) : Keeps net ρ k s' := by
  have hat : ∀ i, opAt s' i = opAt s i := fun i => by rw [opAt, opAt, hops]
  have hlive : ∀ t, Live net s' t ↔ Live net s t := fun t => by simp only [Live, hat]
  refine ⟨hops ▸ h.length, fun i op' hop => h.same i op' (hat i ▸ hop), fun p hp => ?_,
    fun i op' hop t ht => ?_, hnames ▸ h.names_length, fun t t' ht ht' heq => ?_,
    fun name hname t ht => ?_⟩
  · simpa only [hat] using h.keys p (hmap ▸ hp)
  · simpa only [Readable, hat, hmap] using h.reads i op' (hat i ▸ hop) t ht
  · exact h.names_inj t t' ((hlive t).1 ht) ((hlive t').1 ht') (by rwa [hnames] at heq)
  · simpa only [hlive, hnames] using h.declared name hname t ht

theorem keeps_replace (hwf : net.WellFormed) (h : Keeps net ρ k s) :
    Keeps net ρ 0 (exec net s .replace) := by
  -- what an operator that is there writes is not replaced
  have houts : ∀ i op', opAt s i = some op' →
      op'.outputIndexes.map (findFinalIndex s.replaceIndexes) = op'.outputIndexes := by
    intro i op' hop
    refine (List.map_congr_left fun t ht => ?_).trans (List.map_id _)
    have hlive : Live net s t := ⟨i, (writes_iff h hop t).2 ht, by rw [hop]; rfl⟩
    rw [findFinalIndex, h.lookup_none hwf (.inr hlive)]
    rfl
  have hvalue : ∀ t, ρ (findFinalIndex s.replaceIndexes t) = ρ t := by
    intro t
    cases hlook : s.replaceIndexes.lookup t with
    | none => rw [findFinalIndex, hlook]; rfl
    | some t' =>
      have hmem : (t, t') ∈ s.replaceIndexes := by
        obtain ⟨l, l', hl, -⟩ := List.lookup_eq_some_iff.1 hlook
        rw [hl]
        exact List.mem_append_right l List.mem_cons_self
      rw [findFinalIndex, hlook]
      exact (h.keys _ hmem).1.symm
  have hat : ∀ i, opAt (exec net s .replace) i = (opAt s i).map fun op => { op with
      inputIndexes := op.inputIndexes.map (findFinalIndex s.replaceIndexes) } := by
    intro i
    rw [opAt, exec, List.getElem?_map]
    cases hi : s.oplists[i]? with
    | none => rw [opAt, hi]; rfl
    | some o =>
      cases o with
      | none => rw [opAt, hi]; rfl
      | some op =>
        have hop : opAt s i = some op := opAt_eq_some.2 hi
        rw [hop]
        simp only [Option.map_some, Option.join_some, houts i op hop]
  have hsome : ∀ i, (opAt (exec net s .replace) i).isSome = (opAt s i).isSome := by
    intro i
    rw [hat, Option.isSome_map]
  have hlive : ∀ t, Live net (exec net s .replace) t ↔ Live net s t := by
    intro t
    simp only [Live, hsome]
  refine ⟨(List.length_map _).trans h.length, fun i op' hop => ?_, fun p hp => ?_,
    fun i op' hop t ht => ?_, h.names_length,
    fun t t' ht ht' heq => h.names_inj t t' ((hlive t).1 ht) ((hlive t').1 ht') heq,
    fun name hname t ht => ?_⟩
  · rw [hat] at hop
    obtain ⟨op1, hop1, rfl⟩ := Option.map_eq_some_iff.1 hop
    obtain ⟨op, hnet, heq, hins⟩ := h.same i op1 hop1
    refine ⟨op, hnet, ?_, ?_⟩
    · rw [heq]
    · rw [← hins, List.map_map]
      exact List.map_congr_left fun t _ => hvalue t
  · obtain ⟨hp', i, hi, hnone⟩ := h.keys p hp
    exact ⟨hp', i, hi, by rw [hat, hnone]; rfl⟩
  · rw [hat] at hop
    obtain ⟨op1, hop1, rfl⟩ := Option.map_eq_some_iff.1 hop
    obtain ⟨t0, ht0, rfl⟩ := List.mem_map.1 ht
    rcases h.reads i op1 hop1 t0 ht0 with
      hnot | ⟨l, hl, hw, hthere⟩ | ⟨t', hlook, l, hl, -, hw, hthere⟩
    · rw [findFinalIndex, h.lookup_none hwf (.inl hnot)]
      exact .inl hnot
    · rw [findFinalIndex, h.lookup_none hwf (.inr ⟨l, hw, hthere⟩)]
      exact .inr (.inl ⟨l, hl, hw, (hsome l).trans hthere⟩)
    · rw [findFinalIndex, hlook]
      exact .inr (.inl ⟨l, hl, hw, (hsome l).trans hthere⟩)
  · obtain ⟨t', ht', hrest⟩ := h.declared name hname t ht
    exact ⟨t', (hlive t').2 ht', hrest⟩

/-- The judges of one origin keep the invariant. -/
theorem keeps_judges (hwf : net.WellFormed) (hsolves : Solves f ρ net.nodes) {i : ℕ} {js : List ℕ}
    (hjs : ∀ j ∈ js, i < j) (hrun : Lib.Run (machine net) s (js.map (.judge i)) s')
    (h : Keeps net ρ (i + 1) s) : Keeps net ρ (i + 1) s' := by
  induction js generalizing s with
  | nil =>
    cases hrun
    exact h
  | cons j js ih =>
    obtain ⟨hj, hjs⟩ := List.forall_mem_cons.1 hjs
    cases hrun with
    | cons ha hrest => exact ih hjs hrest (keeps_judge hwf hsolves hj h ha)

theorem lt_of_mem_sameOps {i j : ℕ} (h : j ∈ sameOps net i) : i < j := by
  rw [sameOps] at h
  cases hop : net.oplists[i]? with
  | none =>
    rw [hop] at h
    exact absurd h List.not_mem_nil
  | some op =>
    simp only [hop] at h
    by_cases hupdate : (updateNames net).contains op.name = true
    · rw [if_pos hupdate] at h
      exact absurd h List.not_mem_nil
    · rw [if_neg hupdate, List.mem_filter, Bool.and_eq_true, decide_eq_true_eq] at h
      exact h.2.1

theorem keeps_visits (hwf : net.WellFormed) (hsolves : Solves f ρ net.nodes) {i : ℕ}
    (hrun : Lib.Run (machine net) s (visits net i) s') (h : Keeps net ρ i s) :
    Keeps net ρ (i + 1) s' := by
  cases hrun with
  | cons _ hrest =>
    refine keeps_judges hwf hsolves (fun j hj => lt_of_mem_sameOps hj) hrest ?_
    have hmono := h.mono (Nat.le_succ i)
    show Keeps net ρ (i + 1) (exec net s (.origin i))
    cases hop : opAt s i with
    | none => simpa only [exec, hop] using hmono
    | some op =>
      simp only [exec, hop]
      exact keeps_congr (s := s) rfl rfl rfl hmono

/-- **One round keeps the invariant.** -/
theorem keeps_round (hwf : net.WellFormed) (hsolves : Solves f ρ net.nodes)
    (hrun : Lib.Run (machine net) s (roundActions net) s') (h : Keeps net ρ 0 s) :
    Keeps net ρ 0 s' := by
  have horigins : ∀ n {s s' : State}, Lib.Run (machine net) s
      ((List.range n).flatMap (visits net)) s' → Keeps net ρ 0 s → Keeps net ρ n s' := by
    intro n
    induction n with
    | zero =>
      intro s s' hrun h
      cases hrun
      exact h
    | succ n ih =>
      intro s s' hrun h
      rw [List.range_succ, List.flatMap_append, List.flatMap_singleton] at hrun
      obtain ⟨m, hm, hrun⟩ := Lib.Run.append_iff.1 hrun
      exact keeps_visits hwf hsolves hrun (ih hm h)
  obtain ⟨m, hm, hreplace⟩ := Lib.Run.append_iff.1 hrun
  cases hm with
  | cons _ hvisits =>
    cases hreplace with
    | cons _ hnil =>
      cases hnil
      exact keeps_replace hwf (horigins _ hvisits (keeps_congr (s := s) rfl rfl rfl h))

theorem keeps_schedule (hwf : net.WellFormed) (hsolves : Solves f ρ net.nodes) {rounds : ℕ}
    (hrun : Lib.Run (machine net) s (schedule net rounds) s') (h : Keeps net ρ 0 s) :
    Keeps net ρ 0 s' := by
  induction rounds generalizing s with
  | zero =>
    cases hrun
    exact h
  | succ rounds ih =>
    rw [schedule, List.replicate_succ, List.flatten_cons] at hrun
    obtain ⟨m, hm, hrest⟩ := Lib.Run.append_iff.1 hrun
    exact ih hrest (keeps_round hwf hsolves hm h)

end Round

end Invariant

/-! ### The loop -/

section Loop

variable {net : NetT} {s s' : State}

/-- The number of operators that are there. -/
def count (s : State) : ℕ := s.oplists.countP Option.isSome

theorem count_exec (a : Action) (ha : a ≠ .round) :
    count (exec net s a) + (if (exec net s a).change then 1 else 0) ≤
      count s + if s.change then 1 else 0 := by
  cases a with
  | round => exact absurd rfl ha
  | origin i =>
    rw [exec]
    split <;> exact le_rfl
  | judge i j =>
    rcases exec_judge net s i j with heq | ⟨originOp, judgeOp, -, hjudge, -, heq⟩
    · rw [heq]
    · obtain ⟨hlt, hget⟩ := List.getElem?_eq_some_iff.1 (opAt_eq_some.1 hjudge)
      have hpos : 0 < s.oplists.countP Option.isSome :=
        List.countP_pos_iff.2 ⟨_, List.getElem_mem hlt, by rw [hget]; rfl⟩
      have hcount : count (merge s j judgeOp originOp (decide (judgeOp.name ∈ outputNames net))) =
          count s - 1 := by
        rw [count, merge, List.countP_set hlt, hget]
        rfl
      have hchange : (merge s j judgeOp originOp (decide (judgeOp.name ∈ outputNames net))).change =
          true := rfl
      rw [heq, hcount, if_pos hchange]
      rw [← count] at hpos
      omega
  | replace =>
    have hcount : count (exec net s .replace) = count s := by
      rw [count, exec, List.countP_map]
      exact List.countP_congr fun o _ => by cases o <;> rfl
    rw [hcount]
    exact le_rfl

/-- A round that changes something leaves fewer operators. -/
theorem count_round :
    count ((roundActions net).foldl (exec net) s) +
      (if ((roundActions net).foldl (exec net) s).change then 1 else 0) ≤ count s := by
  have hrest : ∀ (as : List Action) (s : State), (∀ a ∈ as, a ≠ .round) →
      count (as.foldl (exec net) s) + (if (as.foldl (exec net) s).change then 1 else 0) ≤
        count s + if s.change then 1 else 0 := by
    intro as
    induction as with
    | nil => exact fun s _ => le_rfl
    | cons a as ih =>
      intro s has
      obtain ⟨ha, has⟩ := List.forall_mem_cons.1 has
      exact (ih _ has).trans (count_exec a ha)
  have hround : ∀ a ∈ (List.range net.oplists.length).flatMap (visits net) ++ [.replace],
      a ≠ .round := by
    intro a ha
    rcases List.mem_append.1 ha with ha | ha
    · obtain ⟨i, -, ha⟩ := List.mem_flatMap.1 ha
      rcases List.mem_cons.1 ha with rfl | ha
      · exact nofun
      · obtain ⟨j, -, rfl⟩ := List.mem_map.1 ha
        exact nofun
    · rw [List.mem_singleton.1 ha]
      exact nofun
  exact hrest _ (exec net s .round) hround

/-- **The loop ends**, after some number of rounds. -/
theorem loop_eq_some : ∀ fuel s, count s < fuel →
    ∃ rounds, loop net fuel s = some ((schedule net rounds).foldl (exec net) s) := by
  intro fuel
  induction fuel with
  | zero => exact fun s h => absurd h (Nat.not_lt_zero _)
  | succ fuel ih =>
    intro s h
    have hcount := @count_round net s
    rw [loop]
    cases hchange : ((roundActions net).foldl (exec net) s).change with
    | true =>
      rw [hchange, if_pos rfl] at hcount
      obtain ⟨rounds, hloop⟩ := ih ((roundActions net).foldl (exec net) s) (by omega)
      refine ⟨rounds + 1, ?_⟩
      rw [if_pos rfl, hloop, schedule, schedule, List.replicate_succ, List.flatten_cons,
        List.foldl_append]
    | false =>
      refine ⟨1, ?_⟩
      rw [if_neg Bool.false_ne_true]
      simp [schedule]

/-- What the net keeps: inputs are produced by remaining operators before, or were not produced, and
every declared name is at one tensor, with the content that it had. -/
structure Preserves (net net' : NetT) : Prop where
  inputs : ∀ pre op post, net'.oplists = pre ++ op :: post → ∀ t ∈ op.inputIndexes,
    t ∉ produced net.nodes ∨ ∃ op' ∈ pre, t ∈ op'.outputIndexes
  outputs : ∀ name ∈ net.outputName, ∃! t, net'.Names t name
  values : ∀ name ∈ net.outputName, ∀ t t', net.Names t name → net'.Names t' name →
    ∀ {V : Type} (f : Meaning Params V) (base : ℤ → V), net'.value f base t' = net.value f base t

section Finish

variable {V : Type*} {ρ : ℤ → V} {k : ℕ}

theorem mem_finish {op : OpT} : op ∈ (finish net s).oplists ↔ ∃ i, opAt s i = some op := by
  rw [finish, List.mem_filterMap]
  constructor
  · rintro ⟨o, ho, rfl⟩
    obtain ⟨i, hi⟩ := List.mem_iff_getElem?.1 ho
    exact ⟨i, opAt_eq_some.2 hi⟩
  · rintro ⟨i, hi⟩
    exact ⟨some op, List.mem_of_getElem? (opAt_eq_some.1 hi), rfl⟩

theorem mem_produced_finish (h : Keeps net ρ k s) {t : ℤ} :
    t ∈ produced (finish net s).nodes ↔ Live net s t := by
  rw [mem_produced]
  constructor
  · rintro ⟨n, hn, ht⟩
    obtain ⟨op, hop, rfl⟩ := List.mem_map.1 hn
    obtain ⟨i, hi⟩ := mem_finish.1 hop
    exact ⟨i, (writes_iff h hi t).2 ht, by rw [hi]; rfl⟩
  · rintro ⟨i, hw, hsome⟩
    obtain ⟨op, hop⟩ := Option.isSome_iff_exists.1 hsome
    exact ⟨op.node, List.mem_map_of_mem (mem_finish.2 ⟨i, hop⟩), (writes_iff h hop t).1 hw⟩

/-- The places of the remaining operators, in order. -/
theorem pairwise_finish {R : OpT → OpT → Prop} (h : ∀ i j op op', i < j → opAt s i = some op →
    opAt s j = some op' → R op op') : (finish net s).oplists.Pairwise R := by
  rw [finish, List.pairwise_filterMap, List.pairwise_iff_getElem]
  intro i j hi hj hij op hop op' hop'
  refine h i j op op' hij (opAt_eq_some.2 ?_) (opAt_eq_some.2 ?_)
  · rw [List.getElem?_eq_getElem hi, ← hop]
    rfl
  · rw [List.getElem?_eq_getElem hj, ← hop']
    rfl

/-- After a round, operators read what is there. -/
theorem read_finish (h : Keeps net ρ 0 s) {i : ℕ} {op : OpT} (hop : opAt s i = some op) {t : ℤ}
    (ht : t ∈ op.inputIndexes) :
    t ∉ produced net.nodes ∨ ∃ j < i, Writes net j t ∧ (opAt s j).isSome := by
  rcases h.reads i op hop t ht with hnot | hlive | ⟨t', -, j, -, hj, -⟩
  · exact .inl hnot
  · exact .inr hlive
  · exact absurd hj (Nat.not_lt_zero j)

theorem ordered_finish (hwf : net.WellFormed) (h : Keeps net ρ 0 s) :
    Ordered (finish net s).nodes := by
  have hread : ∀ i j op op', opAt s i = some op → opAt s j = some op' →
      ∀ t ∈ op'.outputIndexes, t ∈ op.inputIndexes → j < i := by
    intro i j op op' hop hop' t ht ht'
    have hw := (writes_iff h hop' t).2 ht
    rcases read_finish h hop ht' with hnot | ⟨l, hl, hw', -⟩
    · exact absurd (writes_mem hw) hnot
    · rwa [hw.unique hwf hw']
  refine ⟨List.nodup_flatMap.2 ⟨fun n hn => ?_, ?_⟩, fun n hn t ht ht' => ?_, ?_⟩
  · obtain ⟨op, hop, rfl⟩ := List.mem_map.1 hn
    obtain ⟨i, hi⟩ := mem_finish.1 hop
    exact nodup_outputs hwf h hi
  · rw [NetT.nodes, List.pairwise_map]
    refine pairwise_finish fun i j op op' hij hop hop' t ht ht' => ?_
    exact hij.ne (((writes_iff h hop t).2 ht).unique hwf ((writes_iff h hop' t).2 ht'))
  · obtain ⟨op, hop, rfl⟩ := List.mem_map.1 hn
    obtain ⟨i, hi⟩ := mem_finish.1 hop
    exact Nat.lt_irrefl i (hread i i op op hi hi t ht ht')
  · rw [NetT.nodes, List.pairwise_map]
    refine pairwise_finish fun i j op op' hij hop hop' t ht ht' => ?_
    exact Nat.lt_asymm hij (hread i j op op' hop hop' t ht ht')

/-- The content of the remaining tensors. -/
theorem value_finish (hwf : net.WellFormed) {f : Meaning Params V} {base : ℤ → V}
    (h : Keeps net (net.value f base) 0 s) {t : ℤ} (ht : Live net s t) :
    (finish net s).value f base t = net.value f base t := by
  have hsolves : Solves f (net.value f base) net.nodes := eval_solves hwf.ordered
  refine eval_eq (ordered_finish hwf h) (fun n hn t ht => ?_) (fun n hn t ht hnot => ?_)
    ((mem_produced_finish h).2 ht)
  · obtain ⟨op', hop, rfl⟩ := List.mem_map.1 hn
    obtain ⟨i, hi⟩ := mem_finish.1 hop
    obtain ⟨op, hnet, heq, hins⟩ := h.same i op' hi
    have hsolve := hsolves op.node (List.mem_map_of_mem (List.mem_of_getElem? hnet))
    have houts : op'.outputIndexes = op.outputIndexes := by rw [heq]
    have hparams : op'.params = op.params := by rw [heq]; rfl
    show net.value f base t = f op'.params (op'.inputIndexes.map (net.value f base))
      (op'.outputIndexes.idxOf t)
    have ht' : t ∈ op.outputIndexes := houts ▸ (show t ∈ op'.outputIndexes from ht)
    rw [houts, hparams, hins]
    exact hsolve t ht'
  · obtain ⟨op, hop, rfl⟩ := List.mem_map.1 hn
    obtain ⟨i, hi⟩ := mem_finish.1 hop
    rcases read_finish h hi ht with hprod | ⟨j, -, hw, hsome⟩
    · exact eval_of_not_mem hprod
    · exact absurd ((mem_produced_finish h).2 ⟨j, hw, hsome⟩) hnot

/-- The operators that stand before one. -/
theorem before_finish {pre post : List OpT} {op : OpT}
    (hsplit : (finish net s).oplists = pre ++ op :: post) :
    ∃ i, opAt s i = some op ∧ ∀ j < i, ∀ op' ∈ opAt s j, op' ∈ pre := by
  obtain ⟨l, r, hl, hpre, hr⟩ := List.filterMap_eq_append_iff.1 hsplit
  obtain ⟨l', o, r', rfl, hnone, rfl, -⟩ := List.filterMap_eq_cons_iff.1 hr
  have hplace : s.oplists[(l ++ l').length]? = some (some op) := by
    rw [hl, ← List.append_assoc, List.getElem?_append_right le_rfl, Nat.sub_self]
    rfl
  refine ⟨(l ++ l').length, opAt_eq_some.2 hplace, fun j hj op' hop' => ?_⟩
  have hget := opAt_eq_some.1 hop'
  rw [hl, ← List.append_assoc, List.getElem?_append_left hj] at hget
  have hmem := List.mem_of_getElem? hget
  rcases List.mem_append.1 hmem with hmem | hmem
  · rw [← hpre, List.mem_filterMap]
    exact ⟨some op', hmem, rfl⟩
  · have := hnone _ hmem
    cases this

end Finish

end Loop

instance (net : NetT) (s : State) (op : OpT) : Decidable (CarriesOutput net s op) :=
  inferInstanceAs (Decidable (∃ t ∈ op.outputIndexes, _))

instance (net : NetT) (s : State) (judgeOp originOp : OpT) :
    Decidable (HarmlessMerge net s judgeOp originOp) :=
  inferInstanceAs (Decidable (_ ∧ _))

instance (net : NetT) (s : State) (judgeOp originOp : OpT) :
    Decidable (Merges net s judgeOp originOp) :=
  inferInstanceAs (Decidable (_ ∧ _ ∧ _))

instance decidableAllowed (net : NetT) (s : State) : ∀ a, Decidable (Allowed net s a)
  | .judge i j =>
    decidable_of_iff (∀ originOp ∈ (opAt s i).toList, ∀ judgeOp ∈ (opAt s j).toList,
        Merges net s judgeOp originOp → HarmlessMerge net s judgeOp originOp)
      ⟨fun h i' j' heq originOp ho judgeOp hj => by
        cases heq
        exact h originOp (Option.mem_toList.2 ho) judgeOp (Option.mem_toList.2 hj),
      fun h originOp ho judgeOp hj =>
        h i j rfl originOp (Option.mem_toList.1 ho) judgeOp (Option.mem_toList.1 hj)⟩
  | .round => isTrue nofun
  | .origin _ => isTrue nofun
  | .replace => isTrue nofun

instance (net : NetT) (s : State) (a : Action) : Decidable ((machine net).Allowed s a) :=
  decidableAllowed net s a

/-- Rounds after one that changes nothing are harmless too. -/
theorem harmless_of_stable {net : NetT} {n : ℕ} {s : State}
    (hrun : Lib.Run (machine net) (start net) (schedule net n) s)
    (hstable : Lib.Run (machine net) s (roundActions net) s) : Harmless net := by
  have hall : ∀ m, Lib.Run (machine net) s (schedule net m) s := by
    intro m
    induction m with
    | zero => exact .nil s
    | succ m ih =>
      rw [schedule, List.replicate_succ, List.flatten_cons]
      exact Lib.Run.append_iff.2 ⟨s, hstable, ih⟩
  intro rounds
  have hsum : schedule net (n + rounds) = schedule net rounds ++ schedule net n := by
    rw [schedule, Nat.add_comm, List.replicate_add, List.flatten_append]
    rfl
  have hsum' : schedule net (n + rounds) = schedule net n ++ schedule net rounds := by
    rw [schedule, List.replicate_add, List.flatten_append]
    rfl
  have hlong : Lib.Run (machine net) (start net) (schedule net (n + rounds)) s := by
    rw [hsum']
    exact Lib.Run.append_iff.2 ⟨s, hrun, hall rounds⟩
  rw [hsum] at hlong
  obtain ⟨m, hm, -⟩ := Lib.Run.append_iff.1 hlong
  exact hm.eq_foldl ▸ hm

/-- A unary operator named after its output. -/
def unary (opType : ℕ) (input output : ℤ) (name : String) : OpT where
  inputIndexes := [input]
  main := .unaryOp opType .float []
  name := name
  outputIndexes := [output]
  type := .other 0

/-- The input of the nets below. -/
def inputOp : OpT where
  inputIndexes := []
  name := "x"
  outputIndexes := [0]
  type := .input

/-- Two equal operators; the second one has the declared output. -/
def duplicateNet : NetT where
  oplists := [inputOp, unary 0 0 1 "a", unary 0 0 2 "y"]
  outputName := ["y"]
  tensorName := ["x", "a", "y"]

/-- The first round merges the third operator into the second, and the fifth one into the fourth,
which takes the name of the declared output but is not in `outputNames`; the second round merges
that one away. -/
def lostNet : NetT where
  oplists := [inputOp, unary 0 0 1 "a", unary 0 0 2 "b", unary 1 1 3 "c", unary 1 2 4 "d",
    unary 1 2 5 "y"]
  outputName := ["y"]
  tensorName := ["x", "a", "b", "c", "d", "y"]

end Mnn.Converter.FuseDupOp
