import Mnn.Converter.Net
import Mnn.Lib.Run

/-!
# `RemoveUnusefulOp`

The pass that removes operators which only pass their input on, or only have side effects
(`tools/converter/source/optimizer/postconvert/RemoveTestNoUseOps.cpp`, `RemoveUnusefulOp.cpp`).

* `shouldDeleteJudge`, `shouldRemoveUnusefulInputs`, `shouldDeleteOutput`: the operators;
* `State`, `visit`: the first loop; `Sweep`, `judge`: the loop that removes what nobody reads;
* `onExecute`: the pass;
* `Harmless`: what has to hold where an operator is removed;
* `Keeps`: the invariant of both loops.
-/

namespace Mnn.Converter.RemoveUnusefulOp

open Lib Lib.Dataflow

/-! ### The code -/

def unuseExtraOpType : List String :=
  ["Identity", "IdentityN", "NoOp", "Assign", "Print", "Assert", "StopGradient", "Enter",
    "NextIteration", "AliasWithName"]

/-- `main.AsExtra()->type` of an operator of type `Extra`. -/
def extraType (op : OpT) : Option String :=
  match op.type, op.main with
  | .extra, .extra type _ => some type
  | _, _ => none

def shouldDeleteJudge (sourceType : NetSource) (op : OpT) : Bool :=
  match op.type, op.main with
  | .seq2Out, _ => true
  | .extra, .extra type _ => unuseExtraOpType.contains type || (sourceType = .caffe && type = "Split")
  | .identity, _ => op.inputIndexes.length = 1 && 1 < op.outputIndexes.length
  | .cast, .castParam srcT dstT =>
    dstT = srcT || (dstT = .int32 && srcT = .int64) || (srcT = .int32 && dstT = .int64)
  | .crop, .crop _ offset => offset.isEmpty
  | .concat, _ => op.inputIndexes.length = 1
  | .slice, .slice _ slicePoints sourceType =>
    (sourceType ≠ .tensorflow && op.outputIndexes.length = 1) ||
      (slicePoints.isEmpty && op.outputIndexes.length = 1) ||
      (slicePoints = [1] && op.outputIndexes.length = 1)
  | _, _ => false

def shouldRemoveUnusefulInputs (op : OpT) : Bool :=
  extraType op = some "Assert" || extraType op = some "NoOp" || extraType op = some "Print"

def shouldDeleteOutput (op : OpT) : Bool := extraType op = some "Assert"

/-- The declared names, and those of the inputs of the net. -/
def netOutputNames (net : NetT) : List String :=
  net.outputName ++ (net.oplists.filter fun op => op.type = .input).flatMap fun op =>
    op.outputIndexes.map (nameAt net.tensorName)

/-- The variables of the first loop; `iter` is at the first operator of `rest`. -/
structure State where
  done : List OpT
  rest : List OpT
  tensorName : List String
  removedInputs : List ℤ

namespace State

def oplists (s : State) : List OpT := s.done ++ s.rest

/-- Some of these tensors has one of the names. -/
def HasName (s : State) (names : List String) (ts : List ℤ) : Prop :=
  ∃ t ∈ ts, nameAt s.tensorName t ∈ names

instance (s : State) (names : List String) (ts : List ℤ) : Decidable (s.HasName names ts) :=
  inferInstanceAs (Decidable (∃ t ∈ ts, nameAt s.tensorName t ∈ names))

end State

/-- The input takes the names of the outputs; it stops when the input has a declared name. -/
def rename (names : List String) (originInput : ℤ) : List String → List ℤ → List String × Bool
  | tensorName, [] => (tensorName, true)
  | tensorName, o :: originOutputs =>
    if nameAt tensorName o ∈ names then
      if nameAt tensorName originInput ∈ names then (tensorName, false)
      else rename names originInput (tensorName.set originInput.toNat (nameAt tensorName o))
        originOutputs
    else rename names originInput tensorName originOutputs

/-- What a reader of the outputs reads afterwards. -/
def redirect (deleteOutput : Bool) (originOutputs : List ℤ) (originInput : ℤ) (subOp : OpT) : OpT :=
  { subOp with
    inputIndexes :=
      if deleteOutput then subOp.inputIndexes.filter fun t => !originOutputs.contains t
      else subOp.inputIndexes.map fun t => if t ∈ originOutputs then originInput else t }

/-- The names, when the operator is removed; not valid if the loop over the outputs stopped. -/
def newNames (net : NetT) (s : State) (op : OpT) (originInput : ℤ) : List String × Bool :=
  if shouldDeleteOutput op = false ∧ s.HasName (netOutputNames net) op.outputIndexes then
    rename (netOutputNames net) originInput s.tensorName op.outputIndexes
  else (s.tensorName, true)

/-- The body of the first loop. -/
def visit (net : NetT) (s : State) : State :=
  match s.rest with
  | [] => s
  | op :: rest =>
    if ¬ shouldDeleteJudge net.sourceType op then { s with done := s.done ++ [op], rest := rest }
    else if s.HasName (netOutputNames net) op.inputIndexes ∧
        s.HasName (netOutputNames net) op.outputIndexes then
      { s with done := s.done ++ [op], rest := rest }
    else
      match op.inputIndexes with
      | [] => { s with rest := rest }
      | originInput :: _ =>
        if op.outputIndexes = [] then { s with rest := rest }
        else
          let (tensorName, valid) := newNames net s op originInput
          -- `continue` without moving `iter`
          if valid = false then { s with tensorName := tensorName }
          else
            let subOp := redirect (shouldDeleteOutput op) op.outputIndexes originInput
            { done := s.done.map subOp
              rest := rest.map subOp
              tensorName := tensorName
              removedInputs := if shouldRemoveUnusefulInputs op then
                s.removedInputs ++ (subOp op).inputIndexes else s.removedInputs }

def start (net : NetT) : State where
  done := []
  rest := net.oplists
  tensorName := net.tensorName
  removedInputs := []

/-- The first loop: an operator is visited twice at most. -/
def removeLoop (net : NetT) : Option State :=
  loop (fun s => s.rest.isEmpty) (visit net) (2 * net.oplists.length + 1) (start net)

/-- Reference counts. -/
abbrev Counts := ℤ → Option ℤ

def addReader (uselessIndex : Counts) (input : ℤ) : Counts :=
  Function.update uselessIndex input (some ((uselessIndex input).getD 0 + 1))

def addOutput (removedInputs : List ℤ) (uselessIndex : Counts) (output : ℤ) : Counts :=
  if (uselessIndex output).isSome then uselessIndex
  else Function.update uselessIndex output (some (if output ∈ removedInputs then 0 else 1))

/-- `uselessIndex` after the loops that set it up. -/
def uselessIndex (s : State) : Counts :=
  (s.oplists.flatMap OpT.outputIndexes).foldl (addOutput s.removedInputs)
    ((s.oplists.flatMap OpT.inputIndexes).foldl addReader fun _ => none)

def dropReader (uselessIndex : Counts) (input : ℤ) : Counts :=
  Function.update uselessIndex input ((uselessIndex input).map (· - 1))

/-- The variables of the second loop; `iter` is at the first operator of `rest`. -/
structure Sweep where
  done : List OpT
  rest : List OpT
  uselessIndex : Counts
  needIteration : Bool

/-- `uselessIndex.at(index) > 0` for no output. -/
def Useless (uselessIndex : Counts) (op : OpT) : Prop :=
  ∀ t ∈ op.outputIndexes, (uselessIndex t).getD 0 ≤ 0

instance (uselessIndex : Counts) (op : OpT) : Decidable (Useless uselessIndex op) :=
  inferInstanceAs (Decidable (∀ t ∈ op.outputIndexes, (uselessIndex t).getD 0 ≤ 0))

/-- The body of the second loop; at its end the next round starts, if there is one. -/
def judge (w : Sweep) : Sweep :=
  match w.rest with
  | [] => { w with done := [], rest := w.done, needIteration := false }
  | op :: rest =>
    if Useless w.uselessIndex op then
      { w with
        rest := rest
        uselessIndex := op.inputIndexes.foldl dropReader w.uselessIndex
        needIteration := w.needIteration || !op.inputIndexes.isEmpty }
    else { w with done := w.done ++ [op], rest := rest }

def Sweep.finished (w : Sweep) : Bool := w.rest.isEmpty && !w.needIteration

def sweepStart (s : State) : Sweep where
  done := []
  rest := s.oplists
  uselessIndex := uselessIndex s
  needIteration := false

/-- Enough for all rounds. -/
def sweepFuel (s : State) : ℕ := (s.oplists.length + 1) * (s.oplists.length + 2)

def sweepLoop (s : State) : Option Sweep :=
  loop Sweep.finished judge (sweepFuel s) (sweepStart s)

def onExecute (net : NetT) : Option NetT := do
  let s ← removeLoop net
  let w ← sweepLoop s
  return { net with oplists := w.done, tensorName := s.tensorName }

/-! ### The condition -/

/-- The input whose value an output has. -/
def passIndex (op : OpT) (j : ℕ) : Option ℕ :=
  match extraType op with
  | some "IdentityN" => some j
  | some "NoOp" => none
  | some "Assert" => none
  | _ => some 0

/-- Operators that the pass takes for pass-through operators are. -/
def PassThrough {V : Type*} (net : NetT) (f : Meaning Params V) : Prop :=
  ∀ op ∈ net.oplists, shouldDeleteJudge net.sourceType op = true → ∀ j < op.outputIndexes.length,
    ∀ i ∈ passIndex op j, ∀ ins : List V, ins.length = op.inputIndexes.length →
      ∀ v ∈ ins[i]?, f op.params ins j = v

/-- Output `t` has the value of the first input. -/
def PassesFirst (op : OpT) (t : ℤ) : Prop :=
  ∃ i ∈ passIndex op (op.outputIndexes.idxOf t), op.inputIndexes[i]?.isSome ∧
    op.inputIndexes[i]? = op.inputIndexes.head?

/-- The pass removes this operator, when it visits it. -/
def Removes (net : NetT) (s : State) (op : OpT) : Prop :=
  shouldDeleteJudge net.sourceType op = true ∧
    ¬ (s.HasName (netOutputNames net) op.inputIndexes ∧
      s.HasName (netOutputNames net) op.outputIndexes)

instance (net : NetT) (s : State) (op : OpT) : Decidable (Removes net s op) :=
  inferInstanceAs (Decidable (_ ∧ _))

/-- Somebody reads the tensor, or it has a declared name. -/
def Used (net : NetT) (s : State) (t : ℤ) : Prop :=
  (∃ op ∈ s.oplists, t ∈ op.inputIndexes) ∨ nameAt s.tensorName t ∈ netOutputNames net

/-- What has to hold when an operator is removed: the outputs that are used have the value of its
first input, and one of them at most has a declared name. -/
def HarmlessVisit (net : NetT) (s : State) : Prop :=
  ∀ op ∈ s.rest.head?, Removes net s op →
    (∀ t ∈ op.outputIndexes, Used net s t → PassesFirst op t) ∧
    ∀ t ∈ op.outputIndexes, ∀ t' ∈ op.outputIndexes,
      nameAt s.tensorName t ∈ netOutputNames net → nameAt s.tensorName t' ∈ netOutputNames net →
        t = t'

/-- What has to hold when an operator is useless: no output has a declared name. -/
def HarmlessJudge (net : NetT) (tensorName : List String) (w : Sweep) : Prop :=
  ∀ op ∈ w.rest.head?, Useless w.uselessIndex op →
    ∀ t ∈ op.outputIndexes, nameAt tensorName t ∉ net.outputName

/-- All removals of the pass are harmless. -/
def Harmless (net : NetT) : Prop :=
  Along (fun s => s.rest.isEmpty) (visit net) (HarmlessVisit net) (2 * net.oplists.length + 1)
      (start net) ∧
    ∀ s ∈ removeLoop net,
      Along Sweep.finished judge (HarmlessJudge net s.tensorName) (sweepFuel s) (sweepStart s)

/-- Single assignment in topological order, tensors with distinct names, declared outputs that are
produced, and nothing left out among the inputs of the operators to remove. -/
structure Valid (net : NetT) : Prop where
  ordered : Ordered net.nodes
  range : ∀ t ∈ produced net.nodes, 0 ≤ t ∧ t.toNat < net.tensorName.length
  tensorName : net.tensorName.Nodup
  outputName : ∀ name ∈ net.outputName, ∃ t, net.Names t name
  inputs : ∀ op ∈ net.oplists, shouldDeleteJudge net.sourceType op = true →
    ∀ t ∈ op.inputIndexes, t ∈ produced net.nodes

/-- What the pass has to keep. -/
structure Preserves (net net' : NetT) : Prop where
  inputs : ∀ pre op post, net'.oplists = pre ++ op :: post → ∀ t ∈ op.inputIndexes,
    t ∉ produced net.nodes ∨ ∃ op' ∈ pre, t ∈ op'.outputIndexes
  outputs : ∀ name ∈ net.outputName, ∃! t, net'.Names t name
  values : ∀ {V : Type} (f : Meaning Params V) (base : ℤ → V), PassThrough net f →
    (∀ name ∈ net.outputName, ∀ t t', net.Names t name → net'.Names t' name →
      net'.value f base t' = net.value f base t) ∧
    ∀ op' ∈ net'.oplists, ∃ op ∈ net.oplists,
      op' = { op with inputIndexes := op'.inputIndexes } ∧
      op'.inputIndexes.map (net'.value f base) = op.inputIndexes.map (net.value f base)
  kept : ∀ op ∈ net.oplists, (∃ t ∈ op.outputIndexes,
      (∃ op' ∈ net'.oplists, t ∈ op'.inputIndexes) ∨
        (shouldDeleteJudge net.sourceType op = false ∧
          nameAt net.tensorName t ∈ net.outputName)) →
    ∃ op' ∈ net'.oplists, op' = { op with inputIndexes := op'.inputIndexes }

/-! ### Small steps -/

section Rename

variable {names tensorName : List String} {originInput : ℤ} {originOutputs : List ℤ}

theorem rename_none (h : ∀ o ∈ originOutputs, nameAt tensorName o ∉ names) :
    rename names originInput tensorName originOutputs = (tensorName, true) := by
  induction originOutputs with
  | nil => rfl
  | cons o originOutputs ih =>
    obtain ⟨ho, h⟩ := List.forall_mem_cons.1 h
    rw [rename, if_neg ho, ih h]

/-- One output has a declared name: the input takes it. -/
theorem rename_one {o : ℤ} (hx : 0 ≤ originInput ∧ originInput.toNat < tensorName.length)
    (hundeclared : nameAt tensorName originInput ∉ names) (hnodup : originOutputs.Nodup)
    (hout : ∀ t ∈ originOutputs, 0 ≤ t ∧ t ≠ originInput) (ho : o ∈ originOutputs)
    (hdeclared : ∀ t ∈ originOutputs, nameAt tensorName t ∈ names ↔ t = o) :
    rename names originInput tensorName originOutputs =
      (tensorName.set originInput.toNat (nameAt tensorName o), true) := by
  induction originOutputs with
  | nil => exact absurd ho List.not_mem_nil
  | cons a originOutputs ih =>
    obtain ⟨ha, hnodup⟩ := List.nodup_cons.1 hnodup
    obtain ⟨hda, hdeclared⟩ := List.forall_mem_cons.1 hdeclared
    obtain ⟨-, hout⟩ := List.forall_mem_cons.1 hout
    by_cases hao : a = o
    · subst hao
      rw [rename, if_pos (hda.2 rfl), if_neg hundeclared]
      refine rename_none fun t ht => ?_
      have hta : t ≠ a := fun h => ha (h ▸ ht)
      rw [nameAt_set _ hx (hout t ht).1, if_neg (hout t ht).2]
      exact fun h => hta ((hdeclared t ht).1 h)
    · rw [rename, if_neg fun h => hao (hda.1 h)]
      exact ih hnodup hout ((List.mem_cons.1 ho).resolve_left (Ne.symm hao)) hdeclared

/-- The loop stopped: the input and an output have declared names. -/
theorem rename_invalid {tensorName' : List String}
    (h : rename names originInput tensorName originOutputs = (tensorName', false)) :
    nameAt tensorName' originInput ∈ names ∧ ∃ o ∈ originOutputs, nameAt tensorName' o ∈ names := by
  induction originOutputs generalizing tensorName with
  | nil => cases h
  | cons o originOutputs ih =>
    rw [rename] at h
    by_cases ho : nameAt tensorName o ∈ names
    · rw [if_pos ho] at h
      by_cases hx : nameAt tensorName originInput ∈ names
      · rw [if_pos hx] at h
        cases h
        exact ⟨hx, o, List.mem_cons_self, ho⟩
      · rw [if_neg hx] at h
        obtain ⟨hx', o', ho', h'⟩ := ih h
        exact ⟨hx', o', List.mem_cons_of_mem o ho', h'⟩
    · rw [if_neg ho] at h
      obtain ⟨hx', o', ho', h'⟩ := ih h
      exact ⟨hx', o', List.mem_cons_of_mem o ho', h'⟩

end Rename

/-- An operator that reads other tensors. -/
def reindex (g : ℤ → ℤ) (op : OpT) : OpT := { op with inputIndexes := op.inputIndexes.map g }

@[simp] theorem reindex_node (g : ℤ → ℤ) (op : OpT) : (reindex g op).node = op.node.rename g := rfl

theorem map_reindex_node (g : ℤ → ℤ) (ops : List OpT) :
    (ops.map (reindex g)).map OpT.node = (ops.map OpT.node).map (Node.rename g) := by
  rw [List.map_map, List.map_map]
  rfl

theorem map_reindex_id (ops : List OpT) : ops.map (reindex id) = ops := by
  refine (List.map_congr_left fun op _ => ?_).trans (List.map_id ops)
  rw [reindex, List.map_id]
  rfl

/-- The reader of an output reads the first input. -/
def toFirst (originOutputs : List ℤ) (originInput t : ℤ) : ℤ :=
  if t ∈ originOutputs then originInput else t

theorem redirect_eq {deleteOutput : Bool} {originOutputs : List ℤ} {originInput : ℤ} {subOp : OpT}
    (h : deleteOutput = true → ∀ t ∈ subOp.inputIndexes, t ∉ originOutputs) :
    redirect deleteOutput originOutputs originInput subOp =
      reindex (toFirst originOutputs originInput) subOp := by
  cases deleteOutput with
  | false => rfl
  | true =>
    have hread := h rfl
    have hfilter : (subOp.inputIndexes.filter fun t => !originOutputs.contains t) =
        subOp.inputIndexes := by
      refine List.filter_eq_self.2 fun t ht => ?_
      rw [List.contains_eq_mem, decide_eq_false (hread t ht)]
      rfl
    have hmap : subOp.inputIndexes.map (toFirst originOutputs originInput) =
        subOp.inputIndexes := by
      refine (List.map_congr_left fun t ht => ?_).trans (List.map_id _)
      exact if_neg (hread t ht)
    rw [redirect, if_pos rfl, hfilter, reindex, hmap]

/-- What a visit does: the operator stays, goes without a trace, is visited again, or goes and its
readers read its first input. -/
theorem visit_cases (net : NetT) {s : State} {op : OpT} {rest : List OpT}
    (hrest : s.rest = op :: rest) :
    (¬ Removes net s op ∧ visit net s = { s with done := s.done ++ [op], rest := rest }) ∨
      (Removes net s op ∧ (op.inputIndexes = [] ∨ op.outputIndexes = []) ∧
        visit net s = { s with rest := rest }) ∨
      ∃ x ∈ op.inputIndexes.head?, Removes net s op ∧
        (((newNames net s op x).2 = false ∧
            visit net s = { s with tensorName := (newNames net s op x).1 }) ∨
          ((newNames net s op x).2 = true ∧ ∃ removedInputs, visit net s =
            { done := s.done.map (redirect (shouldDeleteOutput op) op.outputIndexes x)
              rest := rest.map (redirect (shouldDeleteOutput op) op.outputIndexes x)
              tensorName := (newNames net s op x).1
              removedInputs := removedInputs })) := by
  rw [visit, hrest]
  simp only
  by_cases hjudge : shouldDeleteJudge net.sourceType op = true
  · by_cases hnames : s.HasName (netOutputNames net) op.inputIndexes ∧
        s.HasName (netOutputNames net) op.outputIndexes
    · exact .inl ⟨fun h => h.2 hnames, by rw [if_neg (not_not.2 hjudge), if_pos hnames]⟩
    · have hremoves : Removes net s op := ⟨hjudge, hnames⟩
      rw [if_neg (not_not.2 hjudge), if_neg hnames]
      right
      cases hins : op.inputIndexes with
      | nil => exact .inl ⟨hremoves, .inl rfl, rfl⟩
      | cons x ins =>
        simp only
        by_cases houts : op.outputIndexes = []
        · exact .inl ⟨hremoves, .inr houts, if_pos houts⟩
        · refine .inr ⟨x, rfl, hremoves, ?_⟩
          rw [if_neg houts]
          cases hvalid : (newNames net s op x).2 with
          | false => exact .inl ⟨rfl, if_pos rfl⟩
          | true => exact .inr ⟨rfl, _, if_neg Bool.noConfusion⟩
  · exact .inl ⟨fun h => hjudge h.1, if_pos hjudge⟩

/-! ### Termination -/

/-- Passes of the first loop that are left. -/
def visitsLeft (net : NetT) (s : State) : ℕ :=
  match s.rest with
  | [] => 0
  | op :: rest => 2 * (rest.length + 1) + if Removes net s op then 1 else 0

theorem visitsLeft_le (net : NetT) (s : State) : visitsLeft net s ≤ 2 * s.rest.length + 1 := by
  rw [visitsLeft]
  split
  · omega
  · next h =>
    rw [h, List.length_cons]
    split <;> omega

theorem visitsLeft_cons {net : NetT} {s : State} {op : OpT} {rest : List OpT}
    (hrest : s.rest = op :: rest) :
    visitsLeft net s = 2 * (rest.length + 1) + if Removes net s op then 1 else 0 := by
  rw [visitsLeft, hrest]

/-- An operator that is visited again stays. -/
theorem not_removes_again {net : NetT} {s : State} {op : OpT} {x : ℤ}
    (hx : x ∈ op.inputIndexes.head?) (hinvalid : (newNames net s op x).2 = false) :
    ¬ Removes net { s with tensorName := (newNames net s op x).1 } op := by
  rintro ⟨-, hnot⟩
  rw [newNames] at hinvalid hnot
  split at hinvalid
  · next h =>
    rw [if_pos h] at hnot
    obtain ⟨hdeclared, o, ho, hdeclared'⟩ := rename_invalid (Prod.ext rfl hinvalid)
    exact hnot ⟨⟨x, List.mem_of_mem_head? hx, hdeclared⟩, o, ho, hdeclared'⟩
  · cases hinvalid

theorem visitsLeft_visit (net : NetT) (s : State) (h : s.rest.isEmpty = false) :
    visitsLeft net (visit net s) < visitsLeft net s := by
  cases hrest : s.rest with
  | nil =>
    rw [hrest] at h
    cases h
  | cons op rest =>
    have hnow : 2 * (rest.length + 1) ≤ visitsLeft net s := by
      rw [visitsLeft_cons hrest]
      exact Nat.le_add_right _ _
    have hless : (visit net s).rest.length = rest.length →
        visitsLeft net (visit net s) < visitsLeft net s := by
      intro hlen
      have := visitsLeft_le net (visit net s)
      omega
    rcases visit_cases net hrest with ⟨-, heq⟩ | ⟨-, -, heq⟩ | ⟨x, hx, hremoves, h⟩
    · exact hless (by rw [heq])
    · exact hless (by rw [heq])
    · rcases h with ⟨hinvalid, heq⟩ | ⟨-, _, heq⟩
      · have hstays := not_removes_again hx hinvalid
        have hagain :=
          @visitsLeft_cons net { s with tensorName := (newNames net s op x).1 } op rest hrest
        rw [heq, hagain, visitsLeft_cons hrest, if_neg hstays, if_pos hremoves]
        omega
      · exact hless (by rw [heq, List.length_map])

/-- Passes of the second loop that are left. -/
def judgesLeft (w : Sweep) : ℕ :=
  let n := w.done.length + w.rest.length
  n * (n + 2) + w.rest.length + if w.needIteration then n + 1 else 0

theorem judgesLeft_judge (w : Sweep) (h : w.finished = false) :
    judgesLeft (judge w) < judgesLeft w := by
  obtain ⟨done, rest, uselessIndex, needIteration⟩ := w
  cases rest with
  | nil =>
    have hneed : needIteration = true := by simpa [Sweep.finished] using h
    subst hneed
    simp only [judge, judgesLeft, List.length_nil, Nat.zero_add, Nat.add_zero, Bool.false_eq_true,
      if_false, if_true]
    omega
  | cons op rest =>
    have hsquare : (done.length + (rest.length + 1)) * (done.length + (rest.length + 1) + 2) =
        (done.length + rest.length) * (done.length + rest.length + 2) +
          (2 * (done.length + rest.length) + 3) := by ring
    by_cases huseless : Useless uselessIndex op
    · have hafter : (if needIteration || !op.inputIndexes.isEmpty then
          done.length + rest.length + 1 else 0) ≤ done.length + rest.length + 1 := by
        split <;> omega
      simp only [judge, if_pos huseless, judgesLeft, List.length_cons]
      omega
    · have hlen : (done ++ [op]).length + rest.length = done.length + (rest.length + 1) := by
        rw [List.length_append, List.length_singleton]
        omega
      simp only [judge, if_neg huseless, judgesLeft, List.length_cons, hlen]
      omega

/-- **Both loops end**, for every net. -/
theorem onExecute_isSome (net : NetT) : ∃ s w, removeLoop net = some s ∧ sweepLoop s = some w := by
  obtain ⟨s, hs⟩ := loop_isSome (visitsLeft net) (fun s => visitsLeft_visit net s)
    (visitsLeft_le net (start net))
  have hfuel : judgesLeft (sweepStart s) ≤ sweepFuel s := by
    simp only [judgesLeft, sweepStart, sweepFuel, List.length_nil, Nat.zero_add,
      Bool.false_eq_true, if_false]
    nlinarith
  obtain ⟨w, hw⟩ := loop_isSome judgesLeft judgesLeft_judge hfuel
  exact ⟨s, w, hs, hw⟩

/-! ### The invariant -/

section Keeps

variable {V : Type*}

/-- `op` is what became of `op₀`: it may read other tensors with the same contents. -/
structure Derived (ρ : ℤ → V) (op₀ op : OpT) : Prop where
  same : op = { op₀ with inputIndexes := op.inputIndexes }
  reads : op.inputIndexes.map ρ = op₀.inputIndexes.map ρ

/-- The tensors that the operators produce. -/
abbrev made (ops : List OpT) : List ℤ := produced (ops.map OpT.node)

/-- The operators that are left, and the names of the tensors; `D` are the names to keep. -/
structure Keeps (net : NetT) (ρ : ℤ → V) (D : List String) (ops : List OpT)
    (tensorName : List String) : Prop where
  derived : ∀ op ∈ ops, ∃ op₀ ∈ net.oplists, Derived ρ op₀ op
  nodup : (made ops).Nodup
  fed : Fed {t | t ∉ produced net.nodes} (ops.map OpT.node)
  inputs : ∀ op ∈ ops, shouldDeleteJudge net.sourceType op = true → ∀ t ∈ op.inputIndexes,
    t ∈ produced net.nodes
  length : tensorName.length = net.tensorName.length
  inj : ∀ t ∈ made ops, ∀ t' ∈ made ops, nameAt tensorName t = nameAt tensorName t' → t = t'
  declared : ∀ name ∈ D, ∃ t ∈ made ops, nameAt tensorName t = name ∧
    ∀ t₀, net.Names t₀ name → ρ t = ρ t₀
  named : ∀ t ∈ produced net.nodes, nameAt net.tensorName t ∈ D →
    nameAt tensorName t = nameAt net.tensorName t
  stays : ∀ op₀ ∈ net.oplists, shouldDeleteJudge net.sourceType op₀ = false →
    (∃ t ∈ op₀.outputIndexes, nameAt net.tensorName t ∈ D) → ∃ op ∈ ops, Derived ρ op₀ op

theorem mem_made {ops : List OpT} {t : ℤ} : t ∈ made ops ↔ ∃ op ∈ ops, t ∈ op.outputIndexes := by
  rw [made, mem_produced]
  constructor
  · rintro ⟨n, hn, ht⟩
    obtain ⟨op, hop, rfl⟩ := List.mem_map.1 hn
    exact ⟨op, hop, ht⟩
  · rintro ⟨op, hop, ht⟩
    exact ⟨op.node, List.mem_map_of_mem hop, ht⟩

theorem made_append (ops ops' : List OpT) : made (ops ++ ops') = made ops ++ made ops' := by
  rw [made, List.map_append, produced_append]

theorem made_cons (op : OpT) (ops : List OpT) : made (op :: ops) = op.outputIndexes ++ made ops := rfl

theorem made_reindex (g : ℤ → ℤ) (ops : List OpT) : made (ops.map (reindex g)) = made ops := by
  rw [made, map_reindex_node, produced_map_rename]

section Derived

variable {ρ : ℤ → V} {op₀ op : OpT} (h : Derived ρ op₀ op)

include h

theorem Derived.outputIndexes : op.outputIndexes = op₀.outputIndexes := by rw [h.same]

theorem Derived.params : op.params = op₀.params := by
  rw [h.same]
  rfl

theorem Derived.length : op.inputIndexes.length = op₀.inputIndexes.length := by
  have := congrArg List.length h.reads
  rwa [List.length_map, List.length_map] at this

/-- The judgement looks at the parameters and the numbers of tensors. -/
theorem Derived.shouldDeleteJudge (sourceType : NetSource) :
    shouldDeleteJudge sourceType op = shouldDeleteJudge sourceType op₀ := by
  have hlen := h.length
  obtain ⟨ins₀, main, name, outs, type, _, _⟩ := op₀
  obtain ⟨ins, main', name', outs', type', _, _⟩ := op
  obtain ⟨⟩ := h.same
  simp only [RemoveUnusefulOp.shouldDeleteJudge] at hlen ⊢
  rw [hlen]

theorem Derived.reindex {g : ℤ → ℤ} (hg : ∀ t ∈ op.inputIndexes, ρ (g t) = ρ t) :
    Derived ρ op₀ (reindex g op) := by
  refine ⟨?_, ?_⟩
  · rw [h.same]
    rfl
  · rw [← h.reads, RemoveUnusefulOp.reindex, List.map_map]
    exact List.map_congr_left hg

end Derived

section Erase

variable {net : NetT} {ρ : ℤ → V} {D : List String} {pre post : List OpT} {op : OpT}
  {tensorName : List String} {g : ℤ → ℤ}

theorem Keeps.disjoint (h : Keeps net ρ D (pre ++ op :: post) tensorName) {t : ℤ}
    (ht : t ∈ op.outputIndexes) : t ∉ made (pre ++ post) := by
  have hnodup := h.nodup
  rw [made_append, made_cons] at hnodup
  obtain ⟨-, hrest, hpre⟩ := List.nodup_append.1 hnodup
  obtain ⟨-, -, hpost⟩ := List.nodup_append.1 hrest
  rw [made_append, List.mem_append, not_or]
  exact ⟨fun h => hpre t h t (List.mem_append_left _ ht) rfl, fun h => hpost t ht t h rfl⟩

theorem Keeps.made_subset (h : Keeps net ρ D (pre ++ op :: post) tensorName) {t : ℤ}
    (ht : t ∈ made (pre ++ op :: post)) : t ∈ produced net.nodes := by
  obtain ⟨op', hop', ht⟩ := mem_made.1 ht
  obtain ⟨op₀, hop₀, hder⟩ := h.derived op' hop'
  rw [hder.outputIndexes] at ht
  exact mem_produced.2 ⟨op₀.node, List.mem_map_of_mem hop₀, ht⟩

/-- Operators before `op` do not read its outputs. -/
theorem Keeps.before (h : Keeps net ρ D (pre ++ op :: post) tensorName) {op' : OpT} (hop' : op' ∈ pre)
    {t : ℤ} (ht : t ∈ op'.inputIndexes) : t ∉ op.outputIndexes := by
  intro hout
  have hfed := h.fed
  rw [List.map_append] at hfed
  rcases (fed_append.1 hfed).1.mem (List.mem_map_of_mem hop') ht with hnot | hmade
  · refine hnot (h.made_subset ?_)
    rw [made_append, made_cons]
    exact List.mem_append_right _ (List.mem_append_left _ hout)
  · refine h.disjoint hout ?_
    rw [made_append]
    exact List.mem_append_left _ hmade

/-- What an operator reads is written before it. -/
theorem Keeps.written (h : Keeps net ρ D (pre ++ op :: post) tensorName) {t : ℤ}
    (ht : t ∈ op.inputIndexes) : t ∉ produced net.nodes ∨ t ∈ made pre := by
  have hfed := h.fed
  rw [List.map_append] at hfed
  exact hfed.split t ht

theorem mem_erased {t : ℤ} (ht : t ∈ made (pre ++ post)) : t ∈ made (pre ++ op :: post) := by
  rw [made_append, List.mem_append] at ht
  rw [made_append, made_cons]
  exact ht.elim (fun h => List.mem_append_left _ h)
    fun h => List.mem_append_right _ (List.mem_append_right _ h)

/-- An operator is erased and its readers read something else with the same content, under new
names that keep the declared ones. -/
theorem Keeps.erase {tensorName' : List String} (h : Keeps net ρ D (pre ++ op :: post) tensorName)
    (hg : ∀ t ∉ op.outputIndexes, g t = t)
    (hread : ∀ op' ∈ post, ∀ t ∈ op'.inputIndexes, t ∈ op.outputIndexes →
      g t ∈ op.inputIndexes ∧ g t ∈ produced net.nodes ∧ ρ (g t) = ρ t)
    (hlength : tensorName'.length = tensorName.length)
    (hinj : ∀ t ∈ made (pre ++ post), ∀ t' ∈ made (pre ++ post),
      nameAt tensorName' t = nameAt tensorName' t' → t = t')
    (hdeclared : ∀ name ∈ D, ∃ t ∈ made (pre ++ post), nameAt tensorName' t = name ∧
      ∀ t₀, net.Names t₀ name → ρ t = ρ t₀)
    (hnamed : ∀ t ∈ produced net.nodes, nameAt net.tensorName t ∈ D →
      nameAt tensorName' t = nameAt net.tensorName t)
    (hstays : shouldDeleteJudge net.sourceType op = true ∨
      ∀ t ∈ op.outputIndexes, nameAt net.tensorName t ∉ D) :
    Keeps net ρ D ((pre ++ post).map (reindex g)) tensorName' := by
  have hmem : ∀ op' ∈ pre ++ post, op' ∈ pre ++ op :: post := by
    intro op' hop'
    rcases List.mem_append.1 hop' with hpre | hpost
    · exact List.mem_append_left _ hpre
    · exact List.mem_append_right _ (List.mem_cons_of_mem _ hpost)
  -- what is read afterwards
  have hcases : ∀ op' ∈ pre ++ post, ∀ t ∈ op'.inputIndexes,
      g t = t ∨ (g t ∈ produced net.nodes ∧ ρ (g t) = ρ t) := by
    intro op' hop' t ht
    by_cases hout : t ∈ op.outputIndexes
    · rcases List.mem_append.1 hop' with hpre | hpost
      · exact absurd hout (h.before hpre ht)
      · exact .inr (hread op' hpost t ht hout).2
    · exact .inl (hg t hout)
  have hcontent : ∀ op' ∈ pre ++ post, ∀ t ∈ op'.inputIndexes, ρ (g t) = ρ t := by
    intro op' hop' t ht
    rcases hcases op' hop' t ht with heq | ⟨-, heq⟩
    · rw [heq]
    · exact heq
  have hmade := made_reindex g (pre ++ post)
  refine ⟨?_, ?_, ?_, ?_, hlength.trans h.length, by rwa [hmade], by rwa [hmade], hnamed, ?_⟩
  · intro op' hop'
    obtain ⟨op₁, hop₁, rfl⟩ := List.mem_map.1 hop'
    obtain ⟨op₀, hop₀, hder⟩ := h.derived op₁ (hmem op₁ hop₁)
    exact ⟨op₀, hop₀, hder.reindex (hcontent op₁ hop₁)⟩
  · have hnodup := h.nodup
    rw [made_append, made_cons] at hnodup
    rw [hmade, made_append]
    refine hnodup.sublist (List.Sublist.append (List.Sublist.refl _) ?_)
    exact List.sublist_append_right _ _
  · rw [map_reindex_node, List.map_append]
    have hfed := h.fed
    rw [List.map_append, List.map_cons] at hfed
    refine hfed.erase hg (fun m hm t ht => ?_) fun m hm t ht hout => ?_
    · obtain ⟨op', hop', rfl⟩ := List.mem_map.1 hm
      exact h.before hop' ht
    · obtain ⟨op', hop', rfl⟩ := List.mem_map.1 hm
      exact h.written (hread op' hop' t ht hout).1
  · intro op' hop' hjudge t ht
    obtain ⟨op₁, hop₁, rfl⟩ := List.mem_map.1 hop'
    obtain ⟨u, hu, rfl⟩ := List.mem_map.1 ht
    rcases hcases op₁ hop₁ u hu with heq | ⟨hprod, -⟩
    · rw [heq]
      refine h.inputs op₁ (hmem op₁ hop₁) ?_ u hu
      rwa [← (Derived.mk rfl ?_ : Derived ρ op₁ (reindex g op₁)).shouldDeleteJudge]
      rw [reindex, List.map_map]
      exact List.map_congr_left (hcontent op₁ hop₁)
    · exact hprod
  · intro op₀ hop₀ hjudge hdec
    obtain ⟨op₁, hop₁, hder⟩ := h.stays op₀ hop₀ hjudge hdec
    have hne : op₁ ≠ op := by
      rintro rfl
      rcases hstays with hj | hnot
      · rw [hder.shouldDeleteJudge, hjudge] at hj
        cases hj
      · obtain ⟨t, ht, hD⟩ := hdec
        exact hnot t (by rwa [hder.outputIndexes]) hD
    have hop₁' : op₁ ∈ pre ++ post := by
      rcases List.mem_append.1 hop₁ with hpre | hpost
      · exact List.mem_append_left _ hpre
      · exact List.mem_append_right _ ((List.mem_cons.1 hpost).resolve_left hne)
    exact ⟨reindex g op₁, List.mem_map_of_mem hop₁', hder.reindex (hcontent op₁ hop₁')⟩

/-- No output of the erased operator has a declared name. -/
theorem Keeps.erase_same (h : Keeps net ρ D (pre ++ op :: post) tensorName)
    (hg : ∀ t ∉ op.outputIndexes, g t = t)
    (hread : ∀ op' ∈ post, ∀ t ∈ op'.inputIndexes, t ∈ op.outputIndexes →
      g t ∈ op.inputIndexes ∧ g t ∈ produced net.nodes ∧ ρ (g t) = ρ t)
    (hout : ∀ t ∈ op.outputIndexes, nameAt tensorName t ∉ D) :
    Keeps net ρ D ((pre ++ post).map (reindex g)) tensorName := by
  refine h.erase hg hread rfl (fun t ht t' ht' => h.inj t (mem_erased ht) t' (mem_erased ht'))
    (fun name hname => ?_) h.named (.inr fun t ht hD => ?_)
  · obtain ⟨t, ht, hnamed, hval⟩ := h.declared name hname
    have hnot : t ∉ op.outputIndexes := fun hmem => hout t hmem (hnamed.symm ▸ hname)
    refine ⟨t, ?_, hnamed, hval⟩
    rw [made_append, made_cons, List.mem_append, List.mem_append] at ht
    rw [made_append, List.mem_append]
    exact ht.imp_right fun h => h.resolve_left hnot
  · have hprod : t ∈ produced net.nodes := by
      refine h.made_subset ?_
      rw [made_append, made_cons]
      exact List.mem_append_right _ (List.mem_append_left _ ht)
    exact hout t ht (by rwa [h.named t hprod hD])

/-- One output of the erased operator has a declared name, and an input takes it. -/
theorem Keeps.erase_rename {x o : ℤ} (hvalid : Valid net)
    (h : Keeps net ρ D (pre ++ op :: post) tensorName)
    (hjudge : shouldDeleteJudge net.sourceType op = true)
    (hg : ∀ t ∉ op.outputIndexes, g t = t)
    (hread : ∀ op' ∈ post, ∀ t ∈ op'.inputIndexes, t ∈ op.outputIndexes →
      g t ∈ op.inputIndexes ∧ g t ∈ produced net.nodes ∧ ρ (g t) = ρ t)
    (hx : x ∈ op.inputIndexes) (hundeclared : nameAt tensorName x ∉ D) (hval : ρ x = ρ o)
    (ho : o ∈ op.outputIndexes)
    (hdec : ∀ t ∈ op.outputIndexes, nameAt tensorName t ∈ D → t = o) :
    Keeps net ρ D ((pre ++ post).map (reindex g))
      (tensorName.set x.toNat (nameAt tensorName o)) := by
  have hxprod : x ∈ produced net.nodes :=
    h.inputs op (List.mem_append_right _ List.mem_cons_self) hjudge x hx
  have hxrange : 0 ≤ x ∧ x.toNat < tensorName.length := by
    rw [h.length]
    exact hvalid.range x hxprod
  have hxmade : x ∈ made (pre ++ post) := by
    rw [made_append]
    exact List.mem_append_left _ ((h.written hx).resolve_left (not_not.2 hxprod))
  have homade : o ∈ made (pre ++ op :: post) := by
    rw [made_append, made_cons]
    exact List.mem_append_right _ (List.mem_append_left _ ho)
  have hname : ∀ t ∈ produced net.nodes,
      nameAt (tensorName.set x.toNat (nameAt tensorName o)) t =
        if t = x then nameAt tensorName o else nameAt tensorName t :=
    fun t ht => nameAt_set _ hxrange (hvalid.range t ht).1
  -- the name of `o` is no other tensor's that is left
  have hfree : ∀ t ∈ made (pre ++ post), nameAt tensorName o ≠ nameAt tensorName t := by
    intro t ht heq
    exact h.disjoint ho ((h.inj o homade t (mem_erased ht) heq).symm ▸ ht)
  refine h.erase hg hread (List.length_set) (fun t ht t' ht' heq => ?_) (fun name hname' => ?_)
    (fun t ht hD => ?_) (.inl hjudge)
  · rw [hname t (h.made_subset (mem_erased ht)), hname t' (h.made_subset (mem_erased ht'))] at heq
    by_cases htx : t = x <;> by_cases htx' : t' = x
    · rw [htx, htx']
    · rw [if_pos htx, if_neg htx'] at heq
      exact absurd heq (hfree t' ht')
    · rw [if_neg htx, if_pos htx'] at heq
      exact absurd heq.symm (hfree t ht)
    · rw [if_neg htx, if_neg htx'] at heq
      exact h.inj t (mem_erased ht) t' (mem_erased ht') heq
  · obtain ⟨t, ht, rfl, hval'⟩ := h.declared name hname'
    by_cases hto : t = o
    · subst hto
      exact ⟨x, hxmade, by rw [hname x hxprod, if_pos rfl], fun t₀ ht₀ => hval.trans (hval' t₀ ht₀)⟩
    · have hnot : t ∉ op.outputIndexes := fun hmem => hto (hdec t hmem hname')
      have hne : t ≠ x := fun h => hundeclared (h ▸ hname')
      refine ⟨t, ?_, by rw [hname t (h.made_subset ht), if_neg hne], hval'⟩
      rw [made_append, made_cons, List.mem_append, List.mem_append] at ht
      rw [made_append, List.mem_append]
      exact ht.imp_right fun h => h.resolve_left hnot
  · have hkeep := h.named t ht hD
    have hne : t ≠ x := by
      rintro rfl
      exact hundeclared (hkeep.symm ▸ hD)
    rw [hname t ht, if_neg hne, hkeep]

end Erase

/-! ### The first loop -/

section Visit

variable {net : NetT} {ρ : ℤ → V} {f : Meaning Params V} {s : State}

/-- An output of an operator to remove has the value of the input that it passes on. -/
theorem value_passesFirst (hpass : PassThrough net f) (hsolves : Solves f ρ net.nodes) {op₀ op : OpT}
    (hop₀ : op₀ ∈ net.oplists) (hder : Derived ρ op₀ op)
    (hjudge : shouldDeleteJudge net.sourceType op = true) {t x : ℤ} (ht : t ∈ op.outputIndexes)
    (hfirst : PassesFirst op t) (hx : x ∈ op.inputIndexes.head?) : ρ x = ρ t := by
  obtain ⟨i, hi, -, hhead⟩ := hfirst
  rw [hder.shouldDeleteJudge] at hjudge
  have hext : extraType op = extraType op₀ := by
    rw [hder.same]
    rfl
  have hindex : i ∈ passIndex op₀ (op₀.outputIndexes.idxOf t) := by
    rw [passIndex, hext, hder.outputIndexes] at hi
    exact hi
  rw [hder.outputIndexes] at ht
  rw [hsolves op₀.node (List.mem_map_of_mem hop₀) t ht]
  refine (hpass op₀ hop₀ hjudge _ (List.idxOf_lt_length_iff.2 ht) i hindex _ (List.length_map _) _
    ?_).symm
  rw [← hder.reads, List.getElem?_map, hhead, hx]
  rfl

/-- The invariant of the first loop. -/
abbrev KeepsState (net : NetT) (ρ : ℤ → V) (s : State) : Prop :=
  Keeps net ρ (netOutputNames net) s.oplists s.tensorName

theorem not_passesFirst_of_deleteOutput {op : OpT} (h : shouldDeleteOutput op = true) (t : ℤ) :
    ¬ PassesFirst op t := by
  rintro ⟨i, hi, -⟩
  rw [shouldDeleteOutput, decide_eq_true_eq] at h
  rw [passIndex, h] at hi
  cases hi

/-- The names, when a harmless removal is done. -/
theorem newNames_cases (hvalid : Valid net) (h : KeepsState net ρ s) {op : OpT} {rest : List OpT}
    (hrest : s.rest = op :: rest) (hremoves : Removes net s op) (hharmless : HarmlessVisit net s)
    {x : ℤ} (hx : x ∈ op.inputIndexes) :
    ((∀ t ∈ op.outputIndexes, nameAt s.tensorName t ∉ netOutputNames net) ∧
        newNames net s op x = (s.tensorName, true)) ∨
      ∃ o ∈ op.outputIndexes, nameAt s.tensorName o ∈ netOutputNames net ∧
        nameAt s.tensorName x ∉ netOutputNames net ∧
        (∀ t ∈ op.outputIndexes, nameAt s.tensorName t ∈ netOutputNames net → t = o) ∧
        newNames net s op x = (s.tensorName.set x.toNat (nameAt s.tensorName o), true) := by
  obtain ⟨hused, hone⟩ := hharmless op (by rw [hrest]; rfl) hremoves
  have hsplit : s.oplists = s.done ++ op :: rest := by rw [State.oplists, hrest]
  rw [KeepsState, hsplit] at h
  by_cases hnames : s.HasName (netOutputNames net) op.outputIndexes
  · obtain ⟨o, ho, hdeclared⟩ := hnames
    right
    have hdec : ∀ t ∈ op.outputIndexes, nameAt s.tensorName t ∈ netOutputNames net → t = o :=
      fun t ht ht' => hone t ht o ho ht' hdeclared
    have hundeclared : nameAt s.tensorName x ∉ netOutputNames net :=
      fun hx' => hremoves.2 ⟨⟨x, hx, hx'⟩, o, ho, hdeclared⟩
    have hdelete : shouldDeleteOutput op = false := by
      rw [← Bool.not_eq_true]
      exact fun hdel => not_passesFirst_of_deleteOutput hdel o (hused o ho (.inr hdeclared))
    have hxprod : x ∈ produced net.nodes :=
      h.inputs op (List.mem_append_right _ List.mem_cons_self) hremoves.1 x hx
    have houts : ∀ t ∈ op.outputIndexes, t ∈ made (s.done ++ op :: rest) := by
      intro t ht
      rw [made_append, made_cons]
      exact List.mem_append_right _ (List.mem_append_left _ ht)
    have hnodup : op.outputIndexes.Nodup := by
      have := h.nodup
      rw [made_append, made_cons] at this
      exact (List.nodup_append.1 (List.nodup_append.1 this).2.1).1
    refine ⟨o, ho, hdeclared, hundeclared, hdec, ?_⟩
    rw [newNames, if_pos ⟨hdelete, o, ho, hdeclared⟩]
    refine rename_one ?_ hundeclared hnodup (fun t ht => ⟨?_, ?_⟩) ho
      fun t ht => ⟨hdec t ht, fun h => h ▸ hdeclared⟩
    · rw [h.length]
      exact hvalid.range x hxprod
    · exact (hvalid.range t (h.made_subset (houts t ht))).1
    · rintro rfl
      refine h.disjoint ht ?_
      rw [made_append]
      exact List.mem_append_left _ ((h.written hx).resolve_left (not_not.2 hxprod))
  · exact .inl ⟨fun t ht hname => hnames ⟨t, ht, hname⟩, by rw [newNames, if_neg fun h => hnames h.2]⟩

theorem keeps_visit (hvalid : Valid net) (hpass : PassThrough net f) (hsolves : Solves f ρ net.nodes)
    (h : KeepsState net ρ s) (hrest : s.rest.isEmpty = false) (hharmless : HarmlessVisit net s) :
    KeepsState net ρ (visit net s) := by
  cases hcons : s.rest with
  | nil =>
    rw [hcons] at hrest
    cases hrest
  | cons op rest =>
    have hsplit : s.oplists = s.done ++ op :: rest := by rw [State.oplists, hcons]
    have h' := h
    rw [KeepsState, hsplit] at h'
    have hop : op ∈ s.done ++ op :: rest := List.mem_append_right _ List.mem_cons_self
    have hlater : ∀ op' ∈ rest, op' ∈ s.oplists := by
      intro op' hop'
      rw [hsplit]
      exact List.mem_append_right _ (List.mem_cons_of_mem _ hop')
    rcases visit_cases net hcons with ⟨-, heq⟩ | ⟨hremoves, hempty, heq⟩ |
      ⟨x, hx, hremoves, hvisit⟩
    · rw [KeepsState, heq, State.oplists, List.append_assoc]
      exact h'
    · have hused := (hharmless op (by rw [hcons]; rfl) hremoves).1
      have hunused : ∀ t ∈ op.outputIndexes, ¬ Used net s t := by
        intro t ht hu
        rcases hempty with hins | houts
        · obtain ⟨i, -, hsome, -⟩ := hused t ht hu
          rw [hins] at hsome
          cases hsome
        · rw [houts] at ht
          cases ht
      rw [KeepsState, heq, State.oplists, ← map_reindex_id (s.done ++ rest)]
      exact h'.erase_same (fun _ _ => rfl)
        (fun op' hop' t ht hout => absurd (.inl ⟨op', hlater op' hop', ht⟩) (hunused t hout))
        fun t ht hD => hunused t ht (.inr hD)
    · have hxmem : x ∈ op.inputIndexes := List.mem_of_mem_head? hx
      have hused := (hharmless op (by rw [hcons]; rfl) hremoves).1
      obtain ⟨op₀, hop₀, hder⟩ := h'.derived op hop
      have hxprod := h'.inputs op hop hremoves.1 x hxmem
      have hfirst : ∀ t ∈ op.outputIndexes, Used net s t → ρ x = ρ t := fun t ht hu =>
        value_passesFirst hpass hsolves hop₀ hder hremoves.1 ht (hused t ht hu) hx
      have hg : ∀ t ∉ op.outputIndexes, toFirst op.outputIndexes x t = t := fun t ht => if_neg ht
      have hread : ∀ op' ∈ rest, ∀ t ∈ op'.inputIndexes, t ∈ op.outputIndexes →
          toFirst op.outputIndexes x t ∈ op.inputIndexes ∧
          toFirst op.outputIndexes x t ∈ produced net.nodes ∧
          ρ (toFirst op.outputIndexes x t) = ρ t := by
        intro op' hop' t ht hout
        rw [toFirst, if_pos hout]
        exact ⟨hxmem, hxprod, hfirst t hout (.inl ⟨op', hlater op' hop', ht⟩)⟩
      -- nobody reads an output that would be deleted
      have hredirect : ∀ subOp ∈ s.done ++ rest,
          redirect (shouldDeleteOutput op) op.outputIndexes x subOp =
            reindex (toFirst op.outputIndexes x) subOp := by
        refine fun subOp hsub => redirect_eq fun hdel t ht hout => ?_
        refine not_passesFirst_of_deleteOutput hdel t (hused t hout (.inl ⟨subOp, ?_, ht⟩))
        rw [hsplit]
        rcases List.mem_append.1 hsub with hdone | hrest
        · exact List.mem_append_left _ hdone
        · exact List.mem_append_right _ (List.mem_cons_of_mem _ hrest)
      have hops : s.done.map (redirect (shouldDeleteOutput op) op.outputIndexes x) ++
          rest.map (redirect (shouldDeleteOutput op) op.outputIndexes x) =
          (s.done ++ rest).map (reindex (toFirst op.outputIndexes x)) := by
        rw [← List.map_append]
        exact List.map_congr_left hredirect
      rcases newNames_cases hvalid h hcons hremoves hharmless hxmem with
        ⟨hout, hnew⟩ | ⟨o, ho, hdeclared, hundeclared, hdec, hnew⟩
      · rcases hvisit with ⟨hinvalid, -⟩ | ⟨-, removedInputs, heq⟩
        · rw [hnew] at hinvalid
          cases hinvalid
        · rw [KeepsState, heq, State.oplists, hops, hnew]
          exact h'.erase_same hg hread hout
      · rcases hvisit with ⟨hinvalid, -⟩ | ⟨-, removedInputs, heq⟩
        · rw [hnew] at hinvalid
          cases hinvalid
        · rw [KeepsState, heq, State.oplists, hops, hnew]
          exact h'.erase_rename hvalid hremoves.1 hg hread hxmem hundeclared
            (hfirst o ho (.inr hdeclared)) ho hdec

end Visit

/-! ### The second loop -/

section Judge

variable {net : NetT} {ρ : ℤ → V}

theorem getD_addReader (l : List ℤ) (m : Counts) (t : ℤ) :
    ((l.foldl addReader m) t).getD 0 = (m t).getD 0 + l.count t := by
  induction l generalizing m with
  | nil => simp
  | cons a l ih =>
    rw [List.foldl_cons, ih, addReader, List.count_cons]
    by_cases h : t = a
    · subst h
      rw [Function.update_self]
      simp
      ring
    · rw [Function.update_of_ne h, beq_false_of_ne (Ne.symm h)]
      simp

theorem le_addOutput (removedInputs l : List ℤ) (m : Counts) (t : ℤ) :
    (m t).getD 0 ≤ ((l.foldl (addOutput removedInputs) m) t).getD 0 := by
  induction l generalizing m with
  | nil => exact le_rfl
  | cons a l ih =>
    refine le_trans ?_ (ih _)
    rw [addOutput]
    cases hsome : m a with
    | some c => exact le_rfl
    | none =>
      rw [Option.isSome_none, if_neg Bool.false_ne_true]
      by_cases h : t = a
      · subst h
        rw [hsome, Function.update_self]
        split <;> simp
      · rw [Function.update_of_ne h]

theorem le_dropReader (l : List ℤ) (m : Counts) (t : ℤ) :
    (m t).getD 0 - l.count t ≤ ((l.foldl dropReader m) t).getD 0 := by
  induction l generalizing m with
  | nil => simp
  | cons a l ih =>
    refine le_trans ?_ (ih _)
    rw [dropReader, List.count_cons]
    by_cases h : t = a
    · subst h
      rw [Function.update_self]
      cases m t with
      | none => simp
      | some c =>
        simp
        omega
    · rw [Function.update_of_ne h, beq_false_of_ne (Ne.symm h)]
      simp

/-- The number of readers of a tensor. -/
def readers (ops : List OpT) (t : ℤ) : ℕ := (ops.flatMap OpT.inputIndexes).count t

theorem readers_append (ops ops' : List OpT) (t : ℤ) :
    readers (ops ++ ops') t = readers ops t + readers ops' t := by
  rw [readers, List.flatMap_append, List.count_append]
  rfl

theorem readers_cons (op : OpT) (ops : List OpT) (t : ℤ) :
    readers (op :: ops) t = op.inputIndexes.count t + readers ops t := by
  rw [readers, List.flatMap_cons, List.count_append]
  rfl

theorem not_mem_of_readers {ops : List OpT} {t : ℤ} (h : readers ops t = 0) {op : OpT}
    (hop : op ∈ ops) :
    t ∉ op.inputIndexes :=
  fun ht => List.count_eq_zero.1 h (List.mem_flatMap.2 ⟨op, hop, ht⟩)

/-- The counts are not less than the numbers of readers at the start. -/
theorem readers_le_uselessIndex (s : State) (t : ℤ) :
    (readers s.oplists t : ℤ) ≤ (uselessIndex s t).getD 0 := by
  refine le_trans (le_of_eq ?_) (le_addOutput s.removedInputs _ _ t)
  rw [getD_addReader, readers]
  simp

/-- The invariant of the second loop. -/
structure KeepsSweep (net : NetT) (ρ : ℤ → V) (tensorName : List String) (w : Sweep) : Prop where
  ops : Keeps net ρ net.outputName (w.done ++ w.rest) tensorName
  counts : ∀ t, (readers (w.done ++ w.rest) t : ℤ) ≤ (w.uselessIndex t).getD 0

theorem keeps_judge {tensorName : List String} {w : Sweep} (h : KeepsSweep net ρ tensorName w)
    (hharmless : HarmlessJudge net tensorName w) : KeepsSweep net ρ tensorName (judge w) := by
  obtain ⟨done, rest, counts, needIteration⟩ := w
  cases rest with
  | nil => exact ⟨by simpa [judge] using h.ops, by simpa [judge] using h.counts⟩
  | cons op rest =>
    by_cases huseless : Useless counts op
    · rw [judge]
      simp only [if_pos huseless]
      have hunread : ∀ t ∈ op.outputIndexes, ∀ op' ∈ rest, t ∉ op'.inputIndexes := by
        intro t ht op' hop'
        have hle : (readers (done ++ op :: rest) t : ℤ) ≤ 0 := (h.counts t).trans (huseless t ht)
        have hzero : readers (done ++ op :: rest) t = 0 := by omega
        exact not_mem_of_readers hzero (List.mem_append_right _ (List.mem_cons_of_mem _ hop'))
      constructor
      · rw [← map_reindex_id (done ++ rest)]
        exact h.ops.erase_same (fun _ _ => rfl)
          (fun op' hop' t ht hout => absurd ht (hunread t hout op' hop'))
          (hharmless op rfl huseless)
      · intro t
        refine le_trans ?_ (le_dropReader op.inputIndexes counts t)
        have hcount := h.counts t
        rw [readers_append, readers_cons] at hcount
        rw [readers_append]
        push_cast at hcount ⊢
        omega
    · rw [judge]
      simp only [if_neg huseless]
      have hsame : done ++ [op] ++ rest = done ++ op :: rest := by
        rw [List.append_assoc]
        rfl
      exact ⟨hsame.symm ▸ h.ops, hsame.symm ▸ h.counts⟩

end Judge

/-! ### The pass -/

section Pass

variable {net : NetT} {ρ : ℤ → V} {f : Meaning Params V}

theorem mem_netOutputNames_of_outputName {name : String} (h : name ∈ net.outputName) :
    name ∈ netOutputNames net := List.mem_append_left _ h

/-- Every name to keep is that of a tensor. -/
theorem exists_names (hvalid : Valid net) {name : String} (h : name ∈ netOutputNames net) :
    ∃ t, net.Names t name := by
  rcases List.mem_append.1 h with hout | hin
  · exact hvalid.outputName name hout
  · obtain ⟨op, hop, hname⟩ := List.mem_flatMap.1 hin
    obtain ⟨t, ht, rfl⟩ := List.mem_map.1 hname
    exact ⟨t, mem_produced.2 ⟨op.node, List.mem_map_of_mem (List.mem_filter.1 hop).1, ht⟩, rfl⟩

/-- Single assignment: a tensor has one writer. -/
theorem writer_unique (hvalid : Valid net) {op op' : OpT} (hop : op ∈ net.oplists)
    (hop' : op' ∈ net.oplists) {t : ℤ} (ht : t ∈ op.outputIndexes) (ht' : t ∈ op'.outputIndexes) :
    op = op' := by
  by_contra hne
  have hnodup := hvalid.ordered.nodup
  rw [NetT.nodes, produced, List.flatMap_map, List.nodup_flatMap] at hnodup
  have : Std.Symm (Function.onFun List.Disjoint fun op : OpT => op.node.outs) :=
    ⟨fun _ _ h => List.Disjoint.symm h⟩
  exact hnodup.2.forall hop hop' hne ht ht'

theorem names_unique (hvalid : Valid net) {name : String} {t t' : ℤ} (h : net.Names t name)
    (h' : net.Names t' name) : t = t' :=
  nameAt_inj hvalid.tensorName (hvalid.range t h.1) (hvalid.range t' h'.1) (h.2.trans h'.2.symm)

theorem keeps_start (hvalid : Valid net) (ρ : ℤ → V) : KeepsState net ρ (start net) := by
  refine ⟨fun op hop => ⟨op, hop, rfl, rfl⟩, hvalid.ordered.nodup, ?_, hvalid.inputs, rfl, ?_, ?_,
    fun _ _ _ => rfl, fun op hop _ _ => ⟨op, hop, rfl, rfl⟩⟩
  · exact hvalid.ordered.fed fun n hn t ht hnot => hnot
  · exact fun t ht t' ht' heq =>
      nameAt_inj hvalid.tensorName (hvalid.range t ht) (hvalid.range t' ht') heq
  · intro name hname
    obtain ⟨t, ht⟩ := exists_names hvalid hname
    exact ⟨t, ht.1, ht.2, fun t₀ ht₀ => by rw [names_unique hvalid ht ht₀]⟩

/-- The second loop keeps the declared names only. -/
theorem keeps_sweepStart {s : State} (h : KeepsState net ρ s) :
    KeepsSweep net ρ s.tensorName (sweepStart s) :=
  ⟨⟨h.derived, h.nodup, h.fed, h.inputs, h.length, h.inj,
    fun name hname => h.declared name (mem_netOutputNames_of_outputName hname),
    fun t ht hD => h.named t ht (mem_netOutputNames_of_outputName hD),
    fun op₀ hop₀ hjudge ⟨t, ht, hD⟩ =>
      h.stays op₀ hop₀ hjudge ⟨t, ht, mem_netOutputNames_of_outputName hD⟩⟩,
    readers_le_uselessIndex s⟩

/-- Both loops keep the invariant. -/
theorem keeps_loops (hvalid : Valid net) (hharmless : Harmless net) (hpass : PassThrough net f)
    (hsolves : Solves f ρ net.nodes) {s : State} {w : Sweep} (hs : removeLoop net = some s)
    (hw : sweepLoop s = some w) : Keeps net ρ net.outputName w.done s.tensorName := by
  obtain ⟨hstate, -⟩ := loop_invariant (I := KeepsState net ρ)
    (fun s h hrest hP => keeps_visit hvalid hpass hsolves h hrest hP) (keeps_start hvalid ρ)
    hharmless.1 hs
  obtain ⟨hsweep, hfinished⟩ := loop_invariant (I := KeepsSweep net ρ s.tensorName)
    (fun w h _ hP => keeps_judge h hP) (keeps_sweepStart hstate) (hharmless.2 s hs) hw
  have hrest : w.rest = [] := by
    rw [Sweep.finished, Bool.and_eq_true] at hfinished
    exact List.isEmpty_iff.1 hfinished.1
  have hops := hsweep.ops
  rwa [hrest, List.append_nil] at hops

section Result

variable {D : List String} {net' : NetT}

theorem Keeps.ordered (h : Keeps net ρ D net'.oplists net'.tensorName) : Ordered net'.nodes := by
  refine h.fed.ordered h.nodup fun t ht hmade => ht ?_
  obtain ⟨op, hop, ht'⟩ := mem_made.1 hmade
  obtain ⟨op₀, hop₀, hder⟩ := h.derived op hop
  rw [hder.outputIndexes] at ht'
  exact mem_produced.2 ⟨op₀.node, List.mem_map_of_mem hop₀, ht'⟩

theorem Keeps.solves (h : Keeps net ρ D net'.oplists net'.tensorName)
    (hsolves : Solves f ρ net.nodes) : Solves f ρ net'.nodes := by
  intro n hn t ht
  obtain ⟨op, hop, rfl⟩ := List.mem_map.1 hn
  obtain ⟨op₀, hop₀, hder⟩ := h.derived op hop
  have ht₀ : t ∈ op₀.outputIndexes := hder.outputIndexes ▸ (ht : t ∈ op.outputIndexes)
  have hsolve := hsolves op₀.node (List.mem_map_of_mem hop₀) t ht₀
  rw [hsolve]
  change f op₀.params (op₀.inputIndexes.map ρ) (op₀.outputIndexes.idxOf t) =
    f op.params (op.inputIndexes.map ρ) (op.outputIndexes.idxOf t)
  rw [hder.params, hder.reads, hder.outputIndexes]

/-- The contents afterwards. -/
theorem Keeps.value_eq {base : ℤ → V}
    (h : Keeps net (net.value f base) D net'.oplists net'.tensorName)
    (hsolves : Solves f (net.value f base) net.nodes) {t : ℤ} (ht : t ∈ produced net'.nodes) :
    net'.value f base t = net.value f base t := by
  refine eval_eq h.ordered (h.solves hsolves) (fun n hn t ht hnot => ?_) ht
  exact eval_of_not_mem ((h.fed.mem hn ht).resolve_right hnot)

/-- The contents that an operator reads. -/
theorem Keeps.reads_eq {base : ℤ → V}
    (h : Keeps net (net.value f base) D net'.oplists net'.tensorName)
    (hsolves : Solves f (net.value f base) net.nodes) {op : OpT} (hop : op ∈ net'.oplists) :
    op.inputIndexes.map (net'.value f base) = op.inputIndexes.map (net.value f base) := by
  refine List.map_congr_left fun t ht => ?_
  by_cases hmade : t ∈ produced net'.nodes
  · exact h.value_eq hsolves hmade
  · have hnot := (h.fed.mem (List.mem_map_of_mem hop) ht).resolve_right hmade
    exact (eval_of_not_mem hmade).trans (eval_of_not_mem hnot).symm

theorem Keeps.kept (hvalid : Valid net) (h : Keeps net ρ net.outputName net'.oplists net'.tensorName)
    {op : OpT} (hop : op ∈ net.oplists) {t : ℤ} (ht : t ∈ op.outputIndexes)
    (hneed : (∃ op' ∈ net'.oplists, t ∈ op'.inputIndexes) ∨
      (shouldDeleteJudge net.sourceType op = false ∧ nameAt net.tensorName t ∈ net.outputName)) :
    ∃ op' ∈ net'.oplists, op' = { op with inputIndexes := op'.inputIndexes } := by
  rcases hneed with ⟨op', hop', hread⟩ | ⟨hjudge, hname⟩
  · have hprod : t ∈ produced net.nodes := mem_produced.2 ⟨op.node, List.mem_map_of_mem hop, ht⟩
    have hmade := (h.fed.mem (List.mem_map_of_mem hop') hread).resolve_left (not_not.2 hprod)
    obtain ⟨op₁, hop₁, ht₁⟩ := mem_made.1 hmade
    obtain ⟨op₀, hop₀, hder⟩ := h.derived op₁ hop₁
    have hsame : op₀ = op := writer_unique hvalid hop₀ hop (hder.outputIndexes ▸ ht₁) ht
    exact ⟨op₁, hop₁, hsame ▸ hder.same⟩
  · obtain ⟨op', hop', hder⟩ := h.stays op hop hjudge ⟨t, ht, hname⟩
    exact ⟨op', hop', hder.same⟩

end Result

end Pass

end Keeps

/-! ### Concrete nets -/

instance (op : OpT) (t : ℤ) : Decidable (PassesFirst op t) :=
  inferInstanceAs (Decidable (∃ i ∈ passIndex op _, _))

instance (net : NetT) (s : State) (t : ℤ) : Decidable (Used net s t) :=
  inferInstanceAs (Decidable (_ ∨ _))

instance (net : NetT) (s : State) : Decidable (HarmlessVisit net s) :=
  inferInstanceAs (Decidable (∀ op ∈ s.rest.head?, _))

instance (net : NetT) (tensorName : List String) (w : Sweep) :
    Decidable (HarmlessJudge net tensorName w) :=
  inferInstanceAs (Decidable (∀ op ∈ w.rest.head?, _))

instance (net : NetT) : Decidable (Harmless net) :=
  inferInstanceAs (Decidable (_ ∧ ∀ s ∈ removeLoop net, _))

/-- An operator with one input and one output, named after its output. -/
def unary (type : OpType) (main : Main) (input output : ℤ) (name : String) : OpT where
  inputIndexes := [input]
  main := main
  name := name
  outputIndexes := [output]
  type := type

def inputOp : OpT where
  inputIndexes := []
  name := "x"
  outputIndexes := [0]
  type := .input

/-- A declared output behind an operator to remove, with a reader. -/
def identityNet : NetT where
  oplists := [inputOp, unary (.other 0) .none 0 1 "a", unary .extra (.extra "Identity" 0) 1 2 "y",
    unary (.other 0) .none 2 3 "z"]
  outputName := ["y", "z"]
  tensorName := ["x", "a", "y", "z"]

/-- A declared output that is printed. -/
def printNet : NetT where
  oplists := [inputOp, unary (.other 0) .none 0 1 "y", unary .extra (.extra "Print" 0) 1 2 "p"]
  outputName := ["y"]
  tensorName := ["x", "y", "p"]

end Mnn.Converter.RemoveUnusefulOp
