import Mnn.Lib.Loops

/-!
# `WhileModule`

Loops over a body (`source/express/module/WhileModule.cpp`), with a graph for the condition, or
with a limit and scan outputs.

* `Module.onForward`: outputs are made, or they are inputs that are handed through;
* `create`, `WhileModule.onForward`: the tables, found by names, and the loops over them;
* `Names`, `Names.run`: the loop over what the names stand for;
* `Carried`, `Carried.run`: the loop over carried values and scans;
* `runsWhile_iff`, `runsLoop_iff`, `runs_iff`: **the tables and the bodies for which the module
  runs these loops**.
-/

namespace Mnn.While

open Function (update)

/-! ### Modules -/

/-- A variable: the counter, whose content is written again in every iteration, or one whose
content stays. -/
inductive Var (V : Type*)
  | counter
  | value (v : V)

/-- The contents when the counter holds `n`. -/
def Var.content {V : Type*} (n : V) : Var V → V
  | .counter => n
  | .value v => v

/-- A module without state. An output is an input that it hands through, or a new variable. -/
structure Module (V : Type*) where
  outputs : ℕ
  passes : ℕ → Option ℕ
  compute : List V → ℕ → V

namespace Module

variable {V : Type*} (m : Module V)

/-- `Module::onForward`, by the contents of the inputs. -/
def onForward (content : Var V → V) (inputs : List (Var V)) : List (Var V) :=
  (List.range m.outputs).map fun k =>
    ((m.passes k).bind (inputs[·]?)).getD (.value (m.compute (inputs.map content) k))

/-- The contents of the outputs. -/
def results (values : List V) : List V :=
  (List.range m.outputs).map fun k =>
    ((m.passes k).bind (values[·]?)).getD (m.compute values k)

end Module

/-- The names of a subgraph. -/
structure Interface where
  inputs : List String
  outputs : List String

structure SubGraph (V : Type*) extends Interface where
  m : Module V
  outputs_eq : m.outputs = outputs.length

/-! ### Tables -/

structure WhileParam where
  cond_graph : Option String
  body_graph : String
  aliases_inputs : List (List String)
  aliases_outputs : List String
  aliases_updates : List (String × String)

/-- `_findPos`. -/
def _findPos (names : List String) (key : String) : Option ℕ := names.findIdx? (· = key)

structure Info where
  mCondInputNumber : ℕ := 0
  mBodyInputNumber : ℕ := 0
  mOutputNumber : ℕ
  -- first an index of the inputs of the graph, second one of the inputs of the op
  mInputForCond : List (ℕ × ℕ) := []
  mInputForBody : List (ℕ × ℕ) := []
  mOutputFromBody : List (ℕ × ℕ) := []
  mOutputFromBodyInput : List (ℕ × ℕ) := []
  mOutputFromInput : List ℕ := []
  mUpdateForCond : List (ℕ × ℕ) := []
  mUpdateForBody : List (ℕ × ℕ) := []
  mCondUpdateForCond : List (ℕ × ℕ) := []
  mCondUpdateForBody : List (ℕ × ℕ) := []

namespace WhileParam

variable (op : WhileParam) (cond body : Interface)

/-- The inputs with a name in `names`, by their positions there. -/
def inputTable (names : List String) : List (ℕ × ℕ) :=
  op.aliases_inputs.zipIdx.flatMap fun p => p.1.filterMap fun name =>
    (_findPos names name).map (·, p.2)

/-- The updates from a name in `outputs` to one in `inputs`, by their positions there. -/
def updateTable (inputs outputs : List String) : List (ℕ × ℕ) :=
  op.aliases_updates.filterMap fun (outputName, inputName) => do
    let outputPos ← _findPos outputs outputName
    let inputPos ← _findPos inputs inputName
    return (inputPos, outputPos)

/-- A `std::map`: the first entry of a key stays. -/
def replaceOutputs : List (ℕ × ℕ) := op.updateTable body.outputs body.outputs

/-- The first input with the name. -/
def inputOf (name : String) : Option ℕ := op.aliases_inputs.findIdx? (name ∈ ·)

/-- The tables of a loop with a condition. -/
def info : Info where
  mCondInputNumber := cond.inputs.length
  mBodyInputNumber := body.inputs.length
  mOutputNumber := op.aliases_outputs.length
  mInputForCond := op.inputTable cond.inputs
  mInputForBody := op.inputTable body.inputs
  mOutputFromBody := op.aliases_outputs.zipIdx.filterMap fun p =>
    (_findPos body.outputs p.1).map fun pos =>
      (p.2, ((op.replaceOutputs body).lookup pos).getD pos)
  mOutputFromBodyInput := op.aliases_outputs.zipIdx.filterMap fun p =>
    (_findPos body.inputs p.1).map (p.2, ·)
  mOutputFromInput := op.aliases_outputs.filterMap op.inputOf
  mUpdateForCond := op.updateTable cond.inputs body.outputs
  mUpdateForBody := op.updateTable body.inputs body.outputs
  mCondUpdateForCond := op.updateTable cond.inputs cond.outputs
  mCondUpdateForBody := op.updateTable body.inputs cond.outputs

end WhileParam

/-! ### The module -/

structure WhileModule (V : Type*) where
  mInfo : Info
  mCond : Option (Module V)
  mBody : Module V

/-- `WhileModule::create` for an op with so many inputs and outputs. -/
def create {V : Type*} (op : WhileParam) (inputNumber outputNumber : ℕ)
    (subGraph : String → Option (SubGraph V)) : Option (WhileModule V) := do
  let body ← subGraph op.body_graph
  match op.cond_graph with
  -- From onnx's loop, use easy way to init
  | none =>
    return { mInfo := { mOutputNumber := outputNumber, mBodyInputNumber := inputNumber }
             mCond := none
             mBody := body.m }
  | some name =>
    let cond ← subGraph name
    return { mInfo := op.info cond.toInterface body.toInterface
             mCond := some cond.m
             mBody := body.m }

/-- What an output of the op holds. -/
inductive Content (V : Type*)
  | value (v : V)
  | stack (slices : List V)

section Forward

variable {V : Type*} (read : V → ℤ) (ofInt : ℤ → V)

/-- `table` assigned from `source`, where a null variable is `none`. -/
def assign (vars : ℕ → Option V) (table : List (ℕ × ℕ)) (source : ℕ → Option V) :
    ℕ → Option V :=
  table.foldl (fun vars p => update vars p.1 (source p.2)) vars

/-- The variables of a loop with a condition. -/
structure State (V : Type*) where
  condInputs : ℕ → Option V
  bodyInputs : ℕ → Option V
  outputs : ℕ → Option V

namespace Info

variable (info : Info)

/-- The variables before the loop. -/
def start (inputs : List V) : State V where
  condInputs := assign (fun _ => none) info.mInputForCond (inputs[·]?)
  bodyInputs := assign (fun _ => none) info.mInputForBody (inputs[·]?)
  outputs := assign (fun _ => none) (info.mOutputFromInput.zipIdx.map Prod.swap) (inputs[·]?)

/-- The variables after an iteration. -/
def next (s : State V) (res : V) (bodyOutputs : List V) : State V :=
  let condInputs := assign s.condInputs info.mUpdateForCond (bodyOutputs[·]?)
  let bodyInputs := assign s.bodyInputs info.mUpdateForBody (bodyOutputs[·]?)
  let condInputs := assign condInputs info.mCondUpdateForCond fun _ => some res
  let bodyInputs := assign bodyInputs info.mCondUpdateForBody fun _ => some res
  { condInputs, bodyInputs
    outputs := assign (assign s.outputs info.mOutputFromBody (bodyOutputs[·]?))
      info.mOutputFromBodyInput bodyInputs }

/-- The loop with a condition, for so many iterations; a null variable stops the program. -/
def run (mCond mBody : Module V) : ℕ → State V → Option (List (Option (Content V)))
  | 0, _ => none
  | fuel + 1, s => do
    let condInputs ← (List.range info.mCondInputNumber).mapM s.condInputs
    match mCond.results condInputs with
    | [] => return []
    | res :: _ =>
      if read res ≤ 0 then
        return (List.range info.mOutputNumber).map fun i => (s.outputs i).map .value
      else
        let bodyInputs ← (List.range info.mBodyInputNumber).mapM s.bodyInputs
        match mBody.results bodyInputs with
        | [] => return []
        | out :: bodyOutputs => run mCond mBody fuel (info.next s res (out :: bodyOutputs))

end Info

/-- The variables of a loop with a limit. -/
structure LoopState (V : Type*) where
  step : ℕ
  cond : ℤ
  bodyInputs : List (Var V)
  bodyOutputs : List (Var V) := []
  spans : List (List (Var V))

/-- The variables before the loop; the first input becomes the counter. -/
def LoopState.start (cond : ℤ) (inputs : List V) (K : ℕ) : LoopState V where
  step := 0
  cond := cond
  bodyInputs := .counter :: inputs.tail.map .value
  spans := List.replicate K []

/-- The variables after an iteration. -/
def LoopState.next (N : ℕ) (s : LoopState V) (bodyOutputs : List (Var V)) : LoopState V :=
  { step := s.step + 1
    cond := (bodyOutputs.head?.map fun o => read (o.content (ofInt s.step))).getD 0
    bodyInputs := s.bodyInputs.take 2 ++ bodyOutputs.tail.take N
    bodyOutputs := bodyOutputs
    spans := List.zipWith (fun span o => span ++ [o]) s.spans (bodyOutputs.tail.drop N) }

/-- The loop with a limit: so many iterations, or `none` after an error. -/
def LoopState.run (mBody : Module V) (N : ℕ) : ℕ → LoopState V → Option (LoopState V)
  | 0, s => some s
  | remaining + 1, s =>
    if s.cond ≤ 0 then some s
    else
      match mBody.onForward (Var.content (ofInt s.step)) s.bodyInputs with
      | [] => none
      | out :: bodyOutputs =>
        run mBody N remaining (s.next read ofInt N (out :: bodyOutputs))

/-- `_Stack`; the shape is that of the first slice. -/
def _Stack (slices : List V) : Option (Content V) :=
  if slices = [] then none else some (.stack slices)

/-- `WhileModule::onForward`. -/
def WhileModule.onForward (w : WhileModule V) (fuel : ℕ) (inputs : List V) :
    Option (List (Option (Content V))) :=
  match w.mCond with
  | some mCond => w.mInfo.run read mCond w.mBody fuel (w.mInfo.start inputs)
  | none => do
    let limit := read (← inputs[0]?)
    let cond := read (← inputs[1]?)
    -- Body Input: 2 + N, Body Output: 1 + N + K, Op output: N + K
    let N := w.mInfo.mBodyInputNumber - 2
    let K := w.mInfo.mOutputNumber - N
    if limit > 0 ∧ cond > 0 then
      match (LoopState.start cond inputs K).run read ofInt w.mBody N limit.toNat with
      | none => return []
      | some s =>
        let content := Var.content (ofInt (s.step - 1))
        return ((s.bodyOutputs.tail.take N).map fun o => some (.value (content o))) ++
          s.spans.map fun span => _Stack (span.map content)
    else
      return (((inputs.drop 2).take N).map fun v => some (.value v)) ++
        List.replicate K (_Stack [])

end Forward

/-! ### What the loops mean -/

section Meaning

variable {V : Type}

/-- What the names stand for: the loop variables, and the outputs of the last body. -/
structure Names (V : Type*) where
  loopVars : String → Option V
  body : String → Option V

/-- The value of a name, where `values` are those of `names`. -/
def named (names : List String) (values : List V) (name : String) : Option V :=
  (_findPos names name).bind (values[·]?)

/-- The output that updates a loop variable. -/
def WhileParam.updateOf (op : WhileParam) (name : String) : Option String :=
  (op.aliases_updates.find? (·.2 = name)).map Prod.fst

namespace Names

variable (op : WhileParam)

def start (inputs : List V) : Names V where
  loopVars name := (op.inputOf name).bind (inputs[·]?)
  body _ := none

theorem start_loopVars (inputs : List V) (name : String) :
    (start op inputs).loopVars name = (op.inputOf name).bind (inputs[·]?) := rfl

/-- The names after an iteration; all updates are taken together. -/
def next (cond body : Interface) (condOutputs bodyOutputs : List V) (s : Names V) : Names V where
  loopVars name :=
    match op.updateOf name with
    | none => s.loopVars name
    | some output =>
      (named body.outputs bodyOutputs output).or (named cond.outputs condOutputs output)
  body := named body.outputs bodyOutputs

section Next

variable {op} {cond body : Interface} {condOutputs bodyOutputs : List V} {s : Names V}
  {name output : String}

theorem next_of_none (h : op.updateOf name = none) :
    (s.next op cond body condOutputs bodyOutputs).loopVars name = s.loopVars name := by
  simp only [next, h]

theorem next_of_some (h : op.updateOf name = some output) :
    (s.next op cond body condOutputs bodyOutputs).loopVars name =
      (named body.outputs bodyOutputs output).or (named cond.outputs condOutputs output) := by
  simp only [next, h]

end Next

/-- The names after the last iteration, if there are fewer than `n`. -/
def run (cond body : SubGraph V) (read : V → ℤ) : ℕ → Names V → Option (Names V)
  | 0, _ => none
  | n + 1, s => do
    let condInputs ← cond.inputs.mapM s.loopVars
    let res ← (cond.m.results condInputs).head?
    if read res ≤ 0 then return s
    else
      let bodyInputs ← body.inputs.mapM s.loopVars
      run cond body read n (s.next op cond.toInterface body.toInterface
        (cond.m.results condInputs) (body.m.results bodyInputs))

/-- The value of a loop variable, or of an output of the last body. -/
def value (s : Names V) (name : String) : Option V := (s.loopVars name).or (s.body name)

end Names

/-- Carried values and the slices of the scans. -/
structure Carried (V : Type*) where
  step : ℕ := 0
  cond : ℤ
  values : List V
  scans : List (List V)

namespace Carried

variable (read : V → ℤ) (ofInt : ℤ → V) (mBody : Module V) (condition : V) (N : ℕ)

def start (cond : ℤ) (values : List V) (K : ℕ) : Carried V where
  cond := cond
  values := values
  scans := List.replicate K []

@[simp] theorem start_values (cond : ℤ) (values : List V) (K : ℕ) :
    (start cond values K).values = values := rfl

@[simp] theorem start_scans (cond : ℤ) (values : List V) (K : ℕ) :
    (start cond values K).scans = List.replicate K [] := rfl

/-- An iteration. The condition holds in every iteration, so the body gets that of the op. -/
def next (s : Carried V) : Carried V :=
  let results := mBody.results (ofInt s.step :: condition :: s.values)
  { step := s.step + 1
    cond := (results.head?.map read).getD 0
    values := results.tail.take N
    scans := List.zipWith (fun scan o => scan ++ [o]) s.scans (results.tail.drop N) }

/-- The loop, with so many iterations until the limit. -/
def run : ℕ → Carried V → Carried V
  | 0, s => s
  | remaining + 1, s =>
    if s.cond ≤ 0 then s else run remaining (s.next read ofInt mBody condition N)

end Carried

end Meaning

/-! ### Consistent tables -/

/-- The tables of an op belong together. -/
structure WhileParam.Consistent (op : WhileParam) (cond body : Interface) : Prop where
  inputs : op.aliases_inputs.flatten.Nodup
  cond_inputs : cond.inputs.Nodup ∧ ∀ name ∈ cond.inputs, name ∈ op.aliases_inputs.flatten
  body_inputs : body.inputs.Nodup ∧ ∀ name ∈ body.inputs, name ∈ op.aliases_inputs.flatten
  cond_outputs : cond.outputs ≠ []
  -- one input is updated by one output
  updates : (op.aliases_updates.map Prod.snd).Nodup
  update : ∀ p ∈ op.aliases_updates, p.2 ∈ op.aliases_inputs.flatten ∧
    (p.1 ∈ body.outputs ∧ p.1 ∉ cond.outputs ∧ (p.2 ∈ cond.inputs ∨ p.2 ∈ body.inputs) ∨
      p.1 ∈ cond.outputs ∧ p.1 ∉ body.outputs)
  update_cond : ∃ p ∈ op.aliases_updates, p.1 ∈ body.outputs ∧ p.2 ∈ cond.inputs
  outputs : ∀ name ∈ op.aliases_outputs,
    name ∈ op.aliases_inputs.flatten ∨ name ∈ body.outputs

/-- The tables for which the module keeps the names apart. -/
structure WhileParam.Sound (op : WhileParam) (cond body : Interface) : Prop where
  /-- What comes from an input is not behind what does not. -/
  aligned : ∀ (i j : ℕ) (name : String), op.aliases_outputs[i]? = some name →
    op.inputOf name = some j →
    (op.aliases_outputs.filterMap op.inputOf)[i]? = some j
  /-- Only the first output of the condition updates a variable that is read. -/
  first : ∀ p ∈ op.aliases_updates, p.1 ∈ cond.outputs → p.2 ∈ cond.inputs ∨ p.2 ∈ body.inputs →
    _findPos cond.outputs p.1 = some 0
  /-- A variable that the body does not take is returned only if it is not updated, or if it is
  updated by the body and also names one of its outputs. -/
  returned : ∀ name ∈ op.aliases_outputs, name ∈ op.aliases_inputs.flatten →
    name ∉ body.inputs → if name ∈ body.outputs then
      ∃ output ∈ body.outputs, op.updateOf name = some output
    else op.updateOf name = none

/-- The module returns what the names of the outputs stand for after the last iteration. -/
def RunsWhile (op : WhileParam) (cond body : Interface) : Prop :=
  ∀ (V : Type) (read : V → ℤ) (ofInt : ℤ → V) (mCond mBody : Module V)
    (hcond : mCond.outputs = cond.outputs.length) (hbody : mBody.outputs = body.outputs.length)
    (inputs : List V), inputs.length = op.aliases_inputs.length →
    ∀ n final, (Names.start op inputs).run op ⟨cond, mCond, hcond⟩ ⟨body, mBody, hbody⟩ read n =
        some final →
      ∃ fuel outputs, (⟨op.info cond body, some mCond, mBody⟩ : WhileModule V).onForward read ofInt
          fuel inputs = some outputs ∧
        outputs.length = op.aliases_outputs.length ∧
        ∀ (i : ℕ) (name : String) (v : V), op.aliases_outputs[i]? = some name →
          final.value name = some v → outputs[i]? = some (some (Content.value v))

/-! ### Tables by names -/

section Tables

variable {op : WhileParam} {names outputs : List String} {name : String} {k j : ℕ}

theorem getElem?_of_findPos (h : _findPos names name = some k) : names[k]? = some name := by
  obtain ⟨hk, hname, -⟩ := List.findIdx?_eq_some_iff_getElem.1 h
  rw [List.getElem?_eq_getElem hk, of_decide_eq_true hname]

theorem findPos_eq_some (hnodup : names.Nodup) : _findPos names name = some k ↔
    names[k]? = some name := by
  refine ⟨getElem?_of_findPos, fun h => ?_⟩
  obtain ⟨hk, rfl⟩ := List.getElem?_eq_some_iff.1 h
  refine List.findIdx?_eq_some_iff_getElem.2 ⟨hk, decide_eq_true rfl, fun l hl heq => ?_⟩
  exact absurd ((hnodup.getElem_inj_iff).1 (of_decide_eq_true heq)) hl.ne

theorem findPos_eq_none : _findPos names name = none ↔ name ∉ names := by
  simp [_findPos, List.findIdx?_eq_none_iff]
  exact ⟨fun h hmem => h name hmem rfl, fun h x hx heq => h (heq ▸ hx)⟩

theorem exists_findPos (h : name ∈ names) : ∃ k, _findPos names name = some k :=
  Option.ne_none_iff_exists'.1 fun hnone => findPos_eq_none.1 hnone h

theorem mem_inputTable : (k, j) ∈ op.inputTable names ↔
    ∃ name, (∃ data, op.aliases_inputs[j]? = some data ∧ name ∈ data) ∧
      _findPos names name = some k := by
  simp only [WhileParam.inputTable, List.mem_flatMap, List.mem_filterMap, Option.map_eq_some_iff,
    Prod.exists, List.mem_zipIdx_iff_getElem?, Prod.mk.injEq]
  constructor
  · rintro ⟨data, j', hdata, name, hname, pos, hpos, rfl, rfl⟩
    exact ⟨name, ⟨data, hdata, hname⟩, hpos⟩
  · rintro ⟨name, ⟨data, hdata, hname⟩, hpos⟩
    exact ⟨data, j, hdata, name, hname, k, hpos, rfl, rfl⟩

theorem mem_updateTable : (k, j) ∈ op.updateTable names outputs ↔
    ∃ p ∈ op.aliases_updates, _findPos outputs p.1 = some j ∧ _findPos names p.2 = some k := by
  simp only [WhileParam.updateTable, List.mem_filterMap, Option.bind_eq_bind,
    Option.bind_eq_some_iff, Option.pure_def, Option.some.injEq, Prod.mk.injEq]
  constructor
  · rintro ⟨p, hp, o, ho, i, hi, rfl, rfl⟩
    exact ⟨p, hp, ho, hi⟩
  · rintro ⟨p, hp, ho, hi⟩
    exact ⟨p, hp, j, ho, k, hi, rfl, rfl⟩

/-- The op input of a loop variable. -/
theorem inputOf_eq_some (hnodup : op.aliases_inputs.flatten.Nodup) {data : List String}
    (hdata : op.aliases_inputs[j]? = some data) (hname : name ∈ data) :
    op.inputOf name = some j := by
  obtain ⟨hj, rfl⟩ := List.getElem?_eq_some_iff.1 hdata
  refine List.findIdx?_eq_some_iff_getElem.2 ⟨hj, decide_eq_true hname, fun l hl hmem => ?_⟩
  have hdisjoint := List.pairwise_iff_getElem.1 (List.nodup_flatten.1 hnodup).2 l j
    (hl.trans hj) hj hl
  exact hdisjoint (of_decide_eq_true hmem) hname

theorem exists_inputOf (h : name ∈ op.aliases_inputs.flatten) : ∃ j < op.aliases_inputs.length,
    op.inputOf name = some j := by
  obtain ⟨data, hdata, hname⟩ := List.mem_flatten.1 h
  cases hinput : op.inputOf name with
  | none =>
    exact absurd hname (by simpa using List.findIdx?_eq_none_iff.1 hinput data hdata)
  | some j =>
    obtain ⟨hj, -⟩ := List.findIdx?_eq_some_iff_getElem.1 hinput
    exact ⟨j, hj, rfl⟩

theorem inputOf_eq_none : op.inputOf name = none ↔ name ∉ op.aliases_inputs.flatten := by
  simp [WhileParam.inputOf, List.findIdx?_eq_none_iff, List.mem_flatten]

theorem updateOf_eq_some (hnodup : (op.aliases_updates.map Prod.snd).Nodup) {output : String} :
    op.updateOf name = some output ↔ (output, name) ∈ op.aliases_updates := by
  constructor
  · intro h
    obtain ⟨p, hp, rfl⟩ := Option.map_eq_some_iff.1 h
    obtain rfl : p.2 = name := by simpa using List.find?_some hp
    exact List.mem_of_find?_eq_some hp
  · intro h
    cases hfind : op.aliases_updates.find? (·.2 = name) with
    | none => simpa using List.find?_eq_none.1 hfind _ h
    | some p =>
      have hp : p.2 = name := by simpa using List.find?_some hfind
      have heq : p = (output, name) := List.inj_on_of_nodup_map hnodup
        (List.mem_of_find?_eq_some hfind) h hp
      rw [WhileParam.updateOf, hfind, heq]
      rfl

end Tables

/-! ### One iteration -/

section Assign

variable {V : Type} {vars : ℕ → Option V} {table : List (ℕ × ℕ)} {source : ℕ → Option V} {k : ℕ}
  {v : Option V}

theorem assign_eq (h : ∀ p ∈ table, p.1 = k → source p.2 = v)
    (hex : (∃ p ∈ table, p.1 = k) ∨ vars k = v) : assign vars table source k = v :=
  Lib.foldl_update_of_agree _ _ _ h _ hex

theorem assign_of_ne (h : ∀ p ∈ table, p.1 ≠ k) : assign vars table source k = vars k :=
  Lib.foldl_update_of_ne _ _ _ h _

/-- A table of consecutive places. -/
theorem assign_zipIdx (l : List ℕ) : assign (fun _ => none) (l.zipIdx.map Prod.swap) source k =
    l[k]?.bind source := by
  cases hk : l[k]? with
  | none =>
    refine assign_of_ne fun p hp heq => ?_
    obtain ⟨q, hq, rfl⟩ := List.mem_map.1 hp
    rw [← heq, Prod.fst_swap, List.mem_zipIdx_iff_getElem?.1 hq] at hk
    exact Option.some_ne_none _ hk
  | some j =>
    refine assign_eq (fun p hp heq => ?_) (.inl ⟨(k, j), ?_, rfl⟩)
    · obtain ⟨q, hq, rfl⟩ := List.mem_map.1 hp
      rw [← heq, Prod.fst_swap, List.mem_zipIdx_iff_getElem?.1 hq] at hk
      rw [Prod.snd_swap, Option.some.inj hk]
      rfl
    · exact List.mem_map.2 ⟨(j, k), List.mem_zipIdx_iff_getElem?.2 hk, rfl⟩

end Assign

section Iteration

variable {V : Type} {op : WhileParam} {cond body : Interface}
  (h : op.Consistent cond body) {names : List String} (hnodup : names.Nodup)
  {k : ℕ} {name : String} (hk : names[k]? = some name)

include h hnodup hk

/-- What an input of a graph is at the start. -/
theorem assign_inputTable (inputs : List V) (hname : name ∈ op.aliases_inputs.flatten) :
    assign (fun _ => none) (op.inputTable names) (inputs[·]?) k =
      (Names.start op inputs).loopVars name := by
  refine assign_eq (fun p hp heq => ?_) (.inl ?_)
  · obtain ⟨name', ⟨data, hdata, hname'⟩, hpos⟩ := mem_inputTable.1 hp
    rw [heq] at hpos
    obtain rfl : name = name' := Option.some.inj (hk.symm.trans (getElem?_of_findPos hpos))
    rw [Names.start_loopVars, inputOf_eq_some h.inputs hdata hname', Option.bind_some]
  · obtain ⟨data, hdata, hname⟩ := List.mem_flatten.1 hname
    obtain ⟨j, hj⟩ := List.mem_iff_getElem?.1 hdata
    exact ⟨(k, j), mem_inputTable.2 ⟨name, ⟨data, hj, hname⟩, (findPos_eq_some hnodup).2 hk⟩, rfl⟩

omit h hnodup in
theorem not_mem_updateTable {outputs : List String} {output : Option String}
    (hupdates : (op.aliases_updates.map Prod.snd).Nodup) (houtput : op.updateOf name = output)
    (hnot : ∀ o ∈ output, o ∉ outputs) : ∀ p ∈ op.updateTable names outputs, p.1 ≠ k := by
  rintro p hp rfl
  obtain ⟨q, hq, hpos, hpos'⟩ := mem_updateTable.1 hp
  obtain rfl : name = q.2 := Option.some.inj (hk.symm.trans (getElem?_of_findPos hpos'))
  have hq' := (updateOf_eq_some hupdates).2 hq
  exact hnot q.1 (houtput ▸ hq') (List.mem_of_getElem? (getElem?_of_findPos hpos))

omit h in
theorem assign_updateTable {outputs : List String} {output : String}
    (hupdates : (op.aliases_updates.map Prod.snd).Nodup) (houtput : op.updateOf name = some output)
    (hmem : output ∈ outputs) (vars source : ℕ → Option V) :
    assign vars (op.updateTable names outputs) source k =
      (_findPos outputs output).bind source := by
  obtain ⟨j, hj⟩ := exists_findPos hmem
  have hp := (updateOf_eq_some hupdates).1 houtput
  refine assign_eq (fun p hp heq => ?_) (.inl ⟨(k, j), mem_updateTable.2 ⟨(output, name), hp, hj,
    (findPos_eq_some hnodup).2 hk⟩, rfl⟩)
  obtain ⟨q, hq, hpos, hpos'⟩ := mem_updateTable.1 hp
  rw [heq] at hpos'
  obtain rfl : name = q.2 := Option.some.inj (hk.symm.trans (getElem?_of_findPos hpos'))
  obtain rfl : q.1 = output :=
    Option.some.inj (((updateOf_eq_some hupdates).2 hq).symm.trans houtput)
  rw [hpos, Option.bind_some]

/-- What an input of a graph is after an iteration. -/
theorem assign_updates {res : V} {condOutputs : List V}
    (hres : ∀ p ∈ op.aliases_updates, p.1 ∈ cond.outputs → p.2 = name →
      named cond.outputs condOutputs p.1 = some res)
    {n : Names V} {vars : ℕ → Option V} (hvars : vars k = n.loopVars name)
    (bodyOutputs : List V) :
    assign (assign vars (op.updateTable names body.outputs) (bodyOutputs[·]?))
        (op.updateTable names cond.outputs) (fun _ => some res) k =
      (n.next op cond body condOutputs bodyOutputs).loopVars name := by
  have hupdates := h.updates
  cases houtput : op.updateOf name with
  | none =>
    have hnot : ∀ o ∈ (none : Option String), ∀ l : List String, o ∉ l := nofun
    rw [assign_of_ne (not_mem_updateTable hk hupdates houtput fun o ho => hnot o ho _),
      assign_of_ne (not_mem_updateTable hk hupdates houtput fun o ho => hnot o ho _),
      Names.next_of_none houtput, hvars]
  | some output =>
    have hp := (updateOf_eq_some hupdates).1 houtput
    rcases (h.update _ hp).2 with ⟨hbody, hcond, -⟩ | ⟨hcond, hbody⟩
    · rw [assign_of_ne (not_mem_updateTable hk hupdates houtput ?_),
        assign_updateTable hnodup hk hupdates houtput hbody, Names.next_of_some houtput]
      · simp only [named, findPos_eq_none.2 hcond, Option.bind_none, Option.or_none]
      · rintro o ⟨⟩
        exact hcond
    · rw [assign_updateTable hnodup hk hupdates houtput hcond, Names.next_of_some houtput]
      obtain ⟨pos, hpos⟩ := exists_findPos hcond
      rw [hres _ hp hcond rfl, named, findPos_eq_none.2 hbody, Option.bind_none, Option.none_or,
        hpos, Option.bind_some]

end Iteration

/-- The variables hold what their names stand for. -/
structure Matches {V : Type} (op : WhileParam) (cond body : Interface) (s : State V)
    (n : Names V) : Prop where
  cond : ∀ (k : ℕ) (name : String), cond.inputs[k]? = some name →
    s.condInputs k = n.loopVars name
  body : ∀ (k : ℕ) (name : String), body.inputs[k]? = some name →
    s.bodyInputs k = n.loopVars name
  outputs : ∀ (i : ℕ) (name : String) (v : V), op.aliases_outputs[i]? = some name →
    n.value name = some v → s.outputs i = some v
  loopVars : ∀ name, (n.loopVars name).isSome ↔ name ∈ op.aliases_inputs.flatten

section Outputs

variable {V : Type} (m : Module V)

theorem length_results (values : List V) : (m.results values).length = m.outputs := by
  rw [Module.results, List.length_map, List.length_range]

variable {m}

theorem getElem?_results {k : ℕ} (hk : k < m.outputs) (values : List V) :
    (m.results values)[k]? =
      some (((m.passes k).bind (values[·]?)).getD (m.compute values k)) := by
  rw [Module.results, List.getElem?_map, List.getElem?_range hk, Option.map_some]

theorem getElem?_onForward {k : ℕ} (hk : k < m.outputs) (content : Var V → V)
    (inputs : List (Var V)) : (m.onForward content inputs)[k]? =
      some (((m.passes k).bind (inputs[·]?)).getD (.value (m.compute (inputs.map content) k))) := by
  rw [Module.onForward, List.getElem?_map, List.getElem?_range hk, Option.map_some]

end Outputs

section Steps

variable {V : Type} {op : WhileParam} {cond body : Interface}

/-- A table of the names of the outputs. -/
theorem assign_filterMap {l : List String} (g : String → Option ℕ) (vars source : ℕ → Option V)
    {i : ℕ} {name : String} (hi : l[i]? = some name) :
    assign vars (l.zipIdx.filterMap fun p => (g p.1).map (p.2, ·)) source i =
      match g name with
      | none => vars i
      | some pos => source pos := by
  have hmem : ∀ p, p ∈ l.zipIdx.filterMap (fun p => (g p.1).map (p.2, ·)) ↔
      ∃ name, l[p.1]? = some name ∧ g name = some p.2 := by
    rintro ⟨i, pos⟩
    simp only [List.mem_filterMap, Option.map_eq_some_iff, Prod.exists, Prod.mk.injEq,
      List.mem_zipIdx_iff_getElem?]
    constructor
    · rintro ⟨name, i', hi', pos', hpos, rfl, rfl⟩
      exact ⟨name, hi', hpos⟩
    · rintro ⟨name, hi', hpos⟩
      exact ⟨name, i, hi', pos, hpos, rfl, rfl⟩
  have hg : ∀ p ∈ l.zipIdx.filterMap (fun p => (g p.1).map (p.2, ·)), p.1 = i →
      g name = some p.2 := by
    rintro p hp rfl
    obtain ⟨name', hname', hpos⟩ := (hmem p).1 hp
    obtain rfl := Option.some.inj (hi.symm.trans hname')
    exact hpos
  cases hpos : g name with
  | none =>
    exact assign_of_ne fun p hp heq => Option.some_ne_none _ ((hg p hp heq).symm.trans hpos)
  | some pos =>
    refine assign_eq (fun p hp heq => ?_) (.inl ⟨(i, pos), (hmem _).2 ⟨name, hi, hpos⟩, rfl⟩)
    rw [Option.some.inj ((hg p hp heq).symm.trans hpos)]

/-- A name of the outputs of the body is replaced by its update. -/
theorem lookup_replaceOutputs (hupdates : (op.aliases_updates.map Prod.snd).Nodup) {name : String}
    {pos : ℕ} (hpos : _findPos body.outputs name = some pos) :
    (op.replaceOutputs body).lookup pos =
      (op.updateOf name).bind (_findPos body.outputs) := by
  have hmem : ∀ j, (pos, j) ∈ op.replaceOutputs body ↔
      ∃ output, op.updateOf name = some output ∧ _findPos body.outputs output = some j := by
    intro j
    rw [WhileParam.replaceOutputs, mem_updateTable]
    constructor
    · rintro ⟨p, hp, hj, hname⟩
      obtain rfl : p.2 = name := Option.some.inj
        ((getElem?_of_findPos hname).symm.trans (getElem?_of_findPos hpos))
      exact ⟨p.1, (updateOf_eq_some hupdates).2 hp, hj⟩
    · rintro ⟨output, houtput, hj⟩
      exact ⟨(output, name), (updateOf_eq_some hupdates).1 houtput, hj, hpos⟩
  cases hlookup : (op.replaceOutputs body).lookup pos with
  | none =>
    refine (Option.eq_none_iff_forall_not_mem.2 fun j hj => ?_).symm
    obtain ⟨output, houtput, hj⟩ := Option.bind_eq_some_iff.1 hj
    have hne := List.lookup_eq_none_iff.1 hlookup _ ((hmem j).2 ⟨output, houtput, hj⟩)
    simp at hne
  | some j =>
    obtain ⟨l₁, l₂, hl, -⟩ := List.lookup_eq_some_iff.1 hlookup
    obtain ⟨output, houtput, hj⟩ := (hmem j).1 (hl ▸ List.mem_append_right _ (.head _))
    rw [houtput, Option.bind_some, hj]

variable (h : op.Consistent cond body)

include h

omit h in
theorem start_isSome {inputs : List V} (hinputs : inputs.length = op.aliases_inputs.length)
    (name : String) : ((Names.start op inputs).loopVars name).isSome ↔
      name ∈ op.aliases_inputs.flatten := by
  constructor
  · intro hsome
    by_contra hnot
    rw [Names.start_loopVars, inputOf_eq_none.2 hnot] at hsome
    exact Bool.false_ne_true hsome
  · intro hname
    obtain ⟨j, hj, hinput⟩ := exists_inputOf hname
    rw [Names.start_loopVars, hinput, Option.bind_some, List.getElem?_eq_getElem (hinputs ▸ hj)]
    rfl

theorem start_matches (haligned : ∀ (i j : ℕ) (name : String), op.aliases_outputs[i]? = some name →
      op.inputOf name = some j → (op.aliases_outputs.filterMap op.inputOf)[i]? = some j)
    {inputs : List V} (hinputs : inputs.length = op.aliases_inputs.length) :
    Matches op cond body ((op.info cond body).start inputs) (Names.start op inputs) := by
  refine ⟨fun k name hk => ?_, fun k name hk => ?_, fun i name v hi hv => ?_, fun name => ?_⟩
  · exact assign_inputTable h h.cond_inputs.1 hk inputs
      (h.cond_inputs.2 name (List.mem_of_getElem? hk))
  · exact assign_inputTable h h.body_inputs.1 hk inputs
      (h.body_inputs.2 name (List.mem_of_getElem? hk))
  · have hv' : (op.inputOf name).bind (inputs[·]?) = some v := by
      simpa [Names.value, Names.start] using hv
    obtain ⟨j, hj, hv'⟩ := Option.bind_eq_some_iff.1 hv'
    exact (assign_zipIdx _).trans (by rw [WhileParam.info, haligned i j name hi hj]; exact hv')
  · exact start_isSome hinputs name

/-- What an iteration leaves for a name that is not an input of the body. -/
theorem outputs_eq_of_not_mem {s : State V} {res : V} {bodyOutputs : List V} {i : ℕ}
    {name : String} (hi : op.aliases_outputs[i]? = some name) (hnot : name ∉ body.inputs) :
    ((op.info cond body).next s res bodyOutputs).outputs i =
      match _findPos body.outputs name with
      | none => s.outputs i
      | some pos => bodyOutputs[((op.updateOf name).bind (_findPos body.outputs)).getD pos]? := by
  have hassign := assign_filterMap (_findPos body.inputs)
    (assign s.outputs (op.info cond body).mOutputFromBody (bodyOutputs[·]?))
    ((op.info cond body).next s res bodyOutputs).bodyInputs hi
  rw [findPos_eq_none.2 hnot] at hassign
  have hassign' := assign_filterMap (fun name => (_findPos body.outputs name).map fun pos =>
    ((op.replaceOutputs body).lookup pos).getD pos) s.outputs (bodyOutputs[·]?) hi
  simp only [Option.map_map, Function.comp_def] at hassign'
  refine hassign.trans (hassign'.trans ?_)
  cases hpos : _findPos body.outputs name with
  | none => rfl
  | some pos => rw [Option.map_some, lookup_replaceOutputs h.updates hpos]

/-- The value of a name that is not an input of the body. -/
theorem outputs_of_not_mem (hreturned : ∀ name ∈ op.aliases_outputs,
      name ∈ op.aliases_inputs.flatten → name ∉ body.inputs → if name ∈ body.outputs then
        ∃ output ∈ body.outputs, op.updateOf name = some output
      else op.updateOf name = none)
    {s : State V} {n : Names V} (hs : Matches op cond body s n) {condOutputs bodyOutputs : List V}
    {res : V} {i : ℕ} {name : String} {v : V} (hi : op.aliases_outputs[i]? = some name)
    (hname : name ∉ body.inputs)
    (hv : (n.next op cond body condOutputs bodyOutputs).value name = some v)
    (hsome : ((n.next op cond body condOutputs bodyOutputs).loopVars name).isSome ↔
      name ∈ op.aliases_inputs.flatten) :
    ((op.info cond body).next s res bodyOutputs).outputs i = some v := by
  have hmem := List.mem_of_getElem? hi
  rw [outputs_eq_of_not_mem h hi hname]
  by_cases hvar : name ∈ op.aliases_inputs.flatten
  · -- a loop variable that only the condition reads
    have hvalue : (n.next op cond body condOutputs bodyOutputs).loopVars name = some v := by
      obtain ⟨w, hw⟩ := Option.isSome_iff_exists.1 (hsome.2 hvar)
      rw [Names.value, hw, Option.some_or] at hv
      rw [hw, hv]
    have hreturned := hreturned name hmem hvar hname
    split_ifs at hreturned with hbody
    · obtain ⟨output, houtput, hupdate⟩ := hreturned
      obtain ⟨pos, hpos⟩ := exists_findPos hbody
      obtain ⟨pos', hpos'⟩ := exists_findPos houtput
      have hcond : output ∉ cond.outputs := by
        have hp := h.update _ ((updateOf_eq_some h.updates).1 hupdate)
        rcases hp.2 with ⟨-, hcond, -⟩ | ⟨-, hbody⟩
        · exact hcond
        · exact absurd houtput hbody
      rw [Names.next_of_some hupdate, named, named, hpos', findPos_eq_none.2 hcond,
        Option.bind_none, Option.or_none, Option.bind_some] at hvalue
      rw [hpos, hupdate, Option.bind_some, hpos']
      exact hvalue
    · rw [Names.next_of_none hreturned] at hvalue
      rw [findPos_eq_none.2 hbody]
      exact hs.outputs i name v hi (by rw [Names.value, hvalue, Option.some_or])
  · have hnone : op.updateOf name = none := by
      refine Option.eq_none_iff_forall_not_mem.2 fun output houtput => hvar ?_
      exact (h.update _ ((updateOf_eq_some h.updates).1 houtput)).1
    have hbody := (h.outputs name hmem).resolve_left hvar
    obtain ⟨pos, hpos⟩ := exists_findPos hbody
    have hloop : (n.next op cond body condOutputs bodyOutputs).loopVars name = none :=
      Option.not_isSome_iff_eq_none.1 (mt hsome.1 hvar)
    rw [Names.value, hloop, Option.none_or] at hv
    rw [hpos, hnone, Option.bind_none]
    have hv : named body.outputs bodyOutputs name = some v := hv
    rw [named, hpos, Option.bind_some] at hv
    exact hv

/-- The loop variables are those that have a value. -/
theorem next_isSome {n : Names V}
    (hn : ∀ name, (n.loopVars name).isSome ↔ name ∈ op.aliases_inputs.flatten)
    {condOutputs bodyOutputs : List V} (hcond : condOutputs.length = cond.outputs.length)
    (hbody : bodyOutputs.length = body.outputs.length) (name : String) :
    ((n.next op cond body condOutputs bodyOutputs).loopVars name).isSome ↔
      name ∈ op.aliases_inputs.flatten := by
  cases hupdate : op.updateOf name with
  | none => rw [Names.next_of_none hupdate, hn]
  | some output =>
    have hp := h.update _ ((updateOf_eq_some h.updates).1 hupdate)
    refine iff_of_true ?_ hp.1
    have hnamed : ∀ {names : List String} {values : List V}, output ∈ names →
        values.length = names.length → (named names values output).isSome := by
      intro names values hmem hlen
      obtain ⟨pos, hpos⟩ := exists_findPos hmem
      have hlt := (List.getElem?_eq_some_iff.1 (getElem?_of_findPos hpos)).1
      rw [named, hpos, Option.bind_some, List.getElem?_eq_getElem (hlen ▸ hlt)]
      rfl
    rw [Names.next_of_some hupdate, Option.isSome_or]
    rcases hp.2 with ⟨hmem, -⟩ | ⟨hmem, -⟩
    · rw [hnamed hmem hbody, Bool.true_or]
    · rw [hnamed hmem hcond, Bool.or_true]

theorem next_matches (hsound : op.Sound cond body) {s : State V} {n : Names V}
    (hs : Matches op cond body s n) {condOutputs bodyOutputs : List V} {res : V}
    (hres : condOutputs[0]? = some res) (hcond : condOutputs.length = cond.outputs.length)
    (hbody : bodyOutputs.length = body.outputs.length) :
    Matches op cond body ((op.info cond body).next s res bodyOutputs)
      (n.next op cond body condOutputs bodyOutputs) := by
  have hfirst : ∀ name, name ∈ cond.inputs ∨ name ∈ body.inputs → ∀ p ∈ op.aliases_updates,
      p.1 ∈ cond.outputs → p.2 = name → named cond.outputs condOutputs p.1 = some res := by
    rintro name hname p hp hout rfl
    rw [named, hsound.first p hp hout hname, Option.bind_some, hres]
  have hcondInputs : ∀ (k : ℕ) (name : String), cond.inputs[k]? = some name →
      ((op.info cond body).next s res bodyOutputs).condInputs k =
        (n.next op cond body condOutputs bodyOutputs).loopVars name := fun k name hk =>
    assign_updates h h.cond_inputs.1 hk (hfirst name (.inl (List.mem_of_getElem? hk)))
      (hs.cond k name hk) bodyOutputs
  have hbodyInputs : ∀ (k : ℕ) (name : String), body.inputs[k]? = some name →
      ((op.info cond body).next s res bodyOutputs).bodyInputs k =
        (n.next op cond body condOutputs bodyOutputs).loopVars name := fun k name hk =>
    assign_updates h h.body_inputs.1 hk (hfirst name (.inr (List.mem_of_getElem? hk)))
      (hs.body k name hk) bodyOutputs
  have hsome := next_isSome h hs.loopVars hcond hbody
  refine ⟨hcondInputs, hbodyInputs, fun i name v hi hv => ?_, hsome⟩
  by_cases hname : name ∈ body.inputs
  · obtain ⟨pos, hpos⟩ := List.mem_iff_getElem?.1 hname
    have hassign := assign_filterMap (_findPos body.inputs)
      (assign s.outputs (op.info cond body).mOutputFromBody (bodyOutputs[·]?))
      ((op.info cond body).next s res bodyOutputs).bodyInputs hi
    rw [(findPos_eq_some h.body_inputs.1).2 hpos] at hassign
    obtain ⟨w, hw⟩ := Option.isSome_iff_exists.1 ((hsome name).2 (h.body_inputs.2 name hname))
    rw [Names.value, hw, Option.some_or] at hv
    exact hassign.trans ((hbodyInputs pos name hpos).trans (hw.trans hv))
  · exact outputs_of_not_mem h hsound.returned hs hi hname hv (hsome name)

omit h in
theorem mapM_range {names : List String} {f : ℕ → Option V} {g : String → Option V}
    (hfg : ∀ (k : ℕ) (name : String), names[k]? = some name → f k = g name) :
    (List.range names.length).mapM f = names.mapM g := by
  have hrange : ∀ a, (∀ (k : ℕ) (name : String), names[k]? = some name → f (a + k) = g name) →
      (List.range' a names.length).mapM f = names.mapM g := by
    clear hfg
    induction names with
    | nil => exact fun _ _ => rfl
    | cons name names ih =>
      intro a hfg
      have htail := ih (a + 1) fun k name' hk => by
        rw [Nat.add_assoc, Nat.add_comm 1]
        exact hfg (k + 1) name' hk
      rw [List.length_cons, List.range'_succ, List.mapM_cons, List.mapM_cons, ← hfg 0 name rfl,
        htail]
      rfl
  rw [List.range_eq_range']
  exact hrange 0 fun k name hk => (congrArg f (Nat.zero_add k)).trans (hfg k name hk)

/-- The run follows what the names stand for. -/
theorem run_matches (hsound : op.Sound cond body) (read : V → ℤ) {mCond mBody : Module V}
    (hcond : mCond.outputs = cond.outputs.length) (hbody : mBody.outputs = body.outputs.length)
    {s : State V} {n final : Names V} (hs : Matches op cond body s n) {fuel : ℕ}
    (hrun : n.run op ⟨cond, mCond, hcond⟩ ⟨body, mBody, hbody⟩ read fuel = some final) :
    ∃ s', Matches op cond body s' final ∧ (op.info cond body).run read mCond mBody fuel s =
      some ((List.range op.aliases_outputs.length).map fun i => (s'.outputs i).map .value) := by
  induction fuel generalizing s n with
  | zero => exact absurd hrun (Option.some_ne_none _).symm
  | succ fuel ih =>
    obtain ⟨condInputs, hcondInputs, hrun⟩ := Option.bind_eq_some_iff.1 hrun
    obtain ⟨res, hres, hrun⟩ := Option.bind_eq_some_iff.1 hrun
    obtain ⟨condOutputs, houtputs⟩ := List.head?_eq_some_iff.1 hres
    have hrange := (mapM_range hs.cond).trans hcondInputs
    rw [Info.run]
    simp only [Option.bind_eq_bind]
    rw [show (op.info cond body).mCondInputNumber = cond.inputs.length from rfl, hrange,
      Option.bind_some]
    have houtputs' : mCond.results condInputs = res :: condOutputs := houtputs
    rw [houtputs']
    dsimp only
    split_ifs with hread
    · rw [if_pos hread] at hrun
      obtain rfl := Option.some.inj hrun
      exact ⟨s, hs, rfl⟩
    · rw [if_neg hread] at hrun
      obtain ⟨bodyInputs, hbodyInputs, hrun⟩ := Option.bind_eq_some_iff.1 hrun
      have hrange' := (mapM_range hs.body).trans hbodyInputs
      rw [show (op.info cond body).mBodyInputNumber = body.inputs.length from rfl, hrange',
        Option.bind_some]
      cases hresults : mBody.results bodyInputs with
      | nil =>
        obtain ⟨p, -, hp, -⟩ := h.update_cond
        have hlen := congrArg List.length hresults
        rw [length_results, hbody, List.length_nil] at hlen
        exact absurd hp (List.eq_nil_of_length_eq_zero hlen ▸ List.not_mem_nil)
      | cons out bodyOutputs =>
        refine ih (next_matches h hsound hs ?_ ?_ ?_) (hresults ▸ hrun)
        · rw [houtputs]
          rfl
        · rw [length_results, hcond]
        · rw [← hresults, length_results, hbody]

/-- **Sound tables.** The module returns what the names stand for. -/
theorem Sound.runsWhile (hsound : op.Sound cond body) : RunsWhile op cond body := by
  intro V read ofInt mCond mBody hcond hbody inputs hinputs n final hrun
  obtain ⟨s, hs, hloop⟩ :=
    run_matches h hsound read hcond hbody (start_matches h hsound.aligned hinputs) hrun
  refine ⟨n, _, hloop, by rw [List.length_map, List.length_range], fun i name v hi hv => ?_⟩
  have hlt := (List.getElem?_eq_some_iff.1 hi).1
  rw [List.getElem?_map, List.getElem?_range hlt, Option.map_some, hs.outputs i name v hi hv]
  rfl

end Steps

/-! ### Other tables -/

section Necessary

variable {V : Type} {op : WhileParam} {cond body : Interface}

/-- The values of names that all have one. -/
theorem exists_values {names : List String} {f : String → Option V}
    (hf : ∀ name ∈ names, (f name).isSome) : ∃ values, names.mapM f = some values ∧
      ∀ (k : ℕ) (name : String), names[k]? = some name → values[k]? = f name := by
  induction names with
  | nil => exact ⟨[], rfl, fun k name hk => absurd hk (by simp)⟩
  | cons name names ih =>
    obtain ⟨v, hv⟩ := Option.isSome_iff_exists.1 (hf name List.mem_cons_self)
    obtain ⟨values, hvalues, hget⟩ := ih fun name' hname' => hf name' (.tail _ hname')
    refine ⟨v :: values, by rw [List.mapM_cons, hv, hvalues]; rfl, fun k name' hk => ?_⟩
    cases k with
    | zero =>
      obtain rfl := Option.some.inj hk
      exact hv.symm
    | succ k => exact hget k name' hk

/-- A condition that asks whether an input is five, with other outputs. -/
def asks (outputs k : ℕ) (other : ℤ) : Module ℤ where
  outputs := outputs
  passes _ := none
  compute values j := if j = 0 then if values[k]? = some 5 then 0 else 1 else other

/-- A body with one value for all outputs. -/
def tells (outputs : ℕ) (f : List ℤ → ℤ) : Module ℤ where
  outputs := outputs
  passes _ := none
  compute values _ := f values

theorem results_getElem? {m : Module V} (hpasses : ∀ k, m.passes k = none) {values : List V}
    {j : ℕ} (hj : j < m.outputs) : (m.results values)[j]? = some (m.compute values j) := by
  rw [getElem?_results hj, hpasses]
  rfl

theorem head?_asks {outputs : ℕ} (k : ℕ) (other : ℤ) (values : List ℤ) (houtputs : outputs ≠ 0) :
    ((asks outputs k other).results values).head? =
      some (if values[k]? = some 5 then 0 else 1) := by
  rw [List.head?_eq_getElem?, results_getElem? (fun _ => rfl) (Nat.pos_of_ne_zero houtputs)]
  rfl

variable {read : V → ℤ} {mCond mBody : Module V} {hcond : mCond.outputs = cond.outputs.length}
  {hbody : mBody.outputs = body.outputs.length} {n : Names V} {values : List V} {res : V}

/-- The last step of a run. -/
theorem run_of_nonpos (hvalues : cond.inputs.mapM n.loopVars = some values)
    (hres : (mCond.results values).head? = some res) (hread : read res ≤ 0) (fuel : ℕ) :
    n.run op ⟨cond, mCond, hcond⟩ ⟨body, mBody, hbody⟩ read (fuel + 1) = some n := by
  simp only [Names.run, Option.bind_eq_bind, hvalues, Option.bind_some, hres, if_pos hread]
  rfl

/-- Another step. -/
theorem run_of_pos (hvalues : cond.inputs.mapM n.loopVars = some values)
    (hres : (mCond.results values).head? = some res) (hread : 0 < read res) {bodyInputs : List V}
    (hbodyInputs : body.inputs.mapM n.loopVars = some bodyInputs) (fuel : ℕ) :
    n.run op ⟨cond, mCond, hcond⟩ ⟨body, mBody, hbody⟩ read (fuel + 1) =
      (n.next op cond body (mCond.results values) (mBody.results bodyInputs)).run op
        ⟨cond, mCond, hcond⟩ ⟨body, mBody, hbody⟩ read fuel := by
  simp only [Names.run, Option.bind_eq_bind, hvalues, Option.bind_some, hres,
    if_neg hread.not_ge, hbodyInputs]

/-- Assignments keep what holds of all values. -/
theorem assign_invariant {P : Option V → Prop} {vars source : ℕ → Option V}
    {table : List (ℕ × ℕ)} (hvars : ∀ k, P (vars k)) (hsource : ∀ j, P (source j)) (k : ℕ) :
    P (assign vars table source k) := by
  unfold assign
  induction table generalizing vars with
  | nil => exact hvars k
  | cons p table ih =>
    rw [List.foldl_cons]
    refine ih fun k' => ?_
    by_cases hk' : k' = p.1
    · rw [hk', Function.update_self]
      exact hsource p.2
    · rw [Function.update_of_ne hk']
      exact hvars k'

/-- The values of variables that are not null. -/
theorem getElem?_of_mapM {vars : ℕ → Option V} {m : ℕ}
    (hvalues : (List.range m).mapM vars = some values) :
    values.length = m ∧ ∀ k < m, values[k]? = vars k := by
  have hforall := Lib.mapM_eq_some_iff.1 hvalues
  have hlen : m = values.length := by simpa using hforall.length_eq
  refine ⟨hlen.symm, fun k hk => ?_⟩
  have hget := (List.forall₂_iff_get.1 hforall).2 k (by rwa [List.length_range]) (hlen ▸ hk)
  rw [List.get_eq_getElem, List.get_eq_getElem, List.getElem_range] at hget
  rw [hget, List.getElem?_eq_getElem]

/-- What a run that ends did first. -/
theorem run_inv {info : Info} (hcond : mCond.outputs ≠ 0) (hbody : mBody.outputs ≠ 0) {fuel : ℕ}
    {s : State V} {outputs : List (Option (Content V))}
    (hrun : info.run read mCond mBody (fuel + 1) s = some outputs) :
    ∃ condInputs res, (List.range info.mCondInputNumber).mapM s.condInputs = some condInputs ∧
      (mCond.results condInputs).head? = some res ∧
      (read res ≤ 0 ∧
          outputs = (List.range info.mOutputNumber).map (fun i => (s.outputs i).map .value) ∨
        0 < read res ∧ ∃ bodyInputs,
          (List.range info.mBodyInputNumber).mapM s.bodyInputs = some bodyInputs ∧
          info.run read mCond mBody fuel (info.next s res (mBody.results bodyInputs)) =
            some outputs) := by
  have hne : ∀ {m : Module V} (values : List V), m.outputs ≠ 0 → m.results values ≠ [] := by
    intro m values hm hnil
    exact hm ((length_results m values).symm.trans (congrArg List.length hnil))
  obtain ⟨condInputs, hcondInputs, hrun⟩ := Option.bind_eq_some_iff.1 hrun
  obtain ⟨res, condOutputs, hresults⟩ := List.exists_cons_of_ne_nil (hne condInputs hcond)
  refine ⟨condInputs, res, hcondInputs, by rw [hresults]; rfl, ?_⟩
  rw [hresults] at hrun
  by_cases hread : read res ≤ 0
  · exact .inl ⟨hread, (Option.some.inj ((if_pos hread).symm.trans hrun)).symm⟩
  · obtain ⟨bodyInputs, hbodyInputs, hrun⟩ :=
      Option.bind_eq_some_iff.1 ((if_neg hread).symm.trans hrun)
    obtain ⟨out, bodyOutputs, hresults'⟩ := List.exists_cons_of_ne_nil (hne bodyInputs hbody)
    rw [hresults'] at hrun
    exact .inr ⟨not_le.1 hread, bodyInputs, hbodyInputs, by rw [hresults']; exact hrun⟩

theorem output_eq {number : ℕ} {s : State V} {outputs : List (Option (Content V))}
    (houtputs : outputs = (List.range number).map fun i => (s.outputs i).map .value) {i : ℕ} {v : V}
    (hv : outputs[i]? = some (some (.value v))) : s.outputs i = some v := by
  rw [houtputs, List.getElem?_map] at hv
  obtain ⟨i', hi', hv⟩ := Option.map_eq_some_iff.1 hv
  obtain ⟨hlt, rfl⟩ := List.getElem?_eq_some_iff.1 hi'
  obtain ⟨w, hw, hwv⟩ := Option.map_eq_some_iff.1 hv
  rw [List.getElem_range] at hw
  rw [hw, Content.value.inj hwv]

variable (h : op.Consistent cond body)

include h

theorem outputs_ne_zero : cond.outputs.length ≠ 0 ∧ body.outputs.length ≠ 0 := by
  obtain ⟨p, -, hp, -⟩ := h.update_cond
  exact ⟨mt List.eq_nil_of_length_eq_zero h.cond_outputs,
    (List.length_pos_of_mem hp).ne'⟩

/-- A run in which no variable becomes five does not end, if the condition waits for a five. -/
theorem run_eq_none {k : ℕ} {other : ℤ} {mBody : Module ℤ}
    (hbody : mBody.outputs = body.outputs.length)
    (hfive : ∀ values : List ℤ, (∀ v ∈ values, v ≠ 5) → ∀ v ∈ mBody.results values, v ≠ 5)
    {s : State ℤ} (hs : ∀ k, s.condInputs k ≠ some 5 ∧ s.bodyInputs k ≠ some 5) (fuel : ℕ) :
    (op.info cond body).run id (asks cond.outputs.length k other) mBody fuel s = none := by
  obtain ⟨hcond, hne⟩ := outputs_ne_zero h
  have hmapM : ∀ {vars : ℕ → Option ℤ} {m : ℕ} {values : List ℤ}, (∀ k, vars k ≠ some 5) →
      (List.range m).mapM vars = some values → ∀ v ∈ values, v ≠ 5 := by
    rintro vars m values hvars hvalues v hv rfl
    obtain ⟨hlen, hget⟩ := getElem?_of_mapM hvalues
    obtain ⟨k, hk⟩ := List.mem_iff_getElem?.1 hv
    have hlt := (List.getElem?_eq_some_iff.1 hk).1
    exact hvars k ((hget k (hlen ▸ hlt)).symm.trans hk)
  induction fuel generalizing s with
  | zero => rfl
  | succ fuel ih =>
    refine Option.eq_none_iff_forall_not_mem.2 fun outputs hrun => ?_
    obtain ⟨condInputs, res, hcondInputs, hres, hcase⟩ := run_inv hcond (hbody ▸ hne) hrun
    have hcondFive := hmapM (fun k => (hs k).1) hcondInputs
    rw [head?_asks _ _ _ hcond, if_neg fun hfive => hcondFive 5 (List.mem_of_getElem? hfive) rfl,
      Option.some.injEq] at hres
    subst hres
    rcases hcase with ⟨hread, -⟩ | ⟨-, bodyInputs, hbodyInputs, hrun⟩
    · exact absurd hread (by decide)
    · have hbodyFive := hfive bodyInputs (hmapM (fun k => (hs k).2) hbodyInputs)
      have hsource : ∀ j : ℕ, (mBody.results bodyInputs)[j]? ≠ some 5 := fun j hj =>
        hbodyFive 5 (List.mem_of_getElem? hj) rfl
      have hone : (some 1 : Option ℤ) ≠ some 5 := by decide
      refine Option.some_ne_none _ (hrun.symm.trans (ih fun k => ⟨?_, ?_⟩))
      · exact assign_invariant (P := (· ≠ some 5))
          (assign_invariant (P := (· ≠ some 5)) (fun k => (hs k).1) hsource) (fun _ => hone) k
      · exact assign_invariant (P := (· ≠ some 5))
          (assign_invariant (P := (· ≠ some 5)) (fun k => (hs k).2) hsource) (fun _ => hone) k

end Necessary

/-! ### Runs that tell tables apart -/

section Runs

variable {op : WhileParam} {cond body : Interface} {n : Names ℤ} {name output : String}

/-- Inputs of zeros. -/
def zeros (op : WhileParam) : List ℤ := List.replicate op.aliases_inputs.length 0

theorem length_zeros : (zeros op).length = op.aliases_inputs.length := List.length_replicate

theorem start_zeros (hname : name ∈ op.aliases_inputs.flatten) :
    (Names.start op (zeros op)).loopVars name = some 0 := by
  obtain ⟨j, hj, hinput⟩ := exists_inputOf hname
  rw [Names.start_loopVars, hinput, Option.bind_some, zeros, List.getElem?_replicate, if_pos hj]

theorem next_tells (hupdate : op.updateOf name = some output)
    (hmem : output ∈ body.outputs) (f : List ℤ → ℤ) (condOutputs values : List ℤ) :
    (n.next op cond body condOutputs ((tells body.outputs.length f).results values)).loopVars
      name = some (f values) := by
  obtain ⟨pos, hpos⟩ := exists_findPos hmem
  have hlt := (List.getElem?_eq_some_iff.1 (getElem?_of_findPos hpos)).1
  rw [Names.next_of_some hupdate, named, hpos, Option.bind_some,
    results_getElem? (fun _ => rfl) hlt, Option.some_or]
  rfl

theorem next_asks (hupdate : op.updateOf name = some output) (hbody : output ∉ body.outputs)
    {pos : ℕ} (hpos : _findPos cond.outputs output = some pos) (k : ℕ) (other : ℤ)
    (values bodyOutputs : List ℤ) :
    (n.next op cond body ((asks cond.outputs.length k other).results values)
      bodyOutputs).loopVars name =
        some ((asks cond.outputs.length k other).compute values pos) := by
  have hlt := (List.getElem?_eq_some_iff.1 (getElem?_of_findPos hpos)).1
  rw [Names.next_of_some hupdate, named, named, hpos, findPos_eq_none.2 hbody, Option.bind_none,
    Option.none_or, Option.bind_some, results_getElem? (fun _ => rfl) hlt]

variable (h : op.Consistent cond body)

include h

/-- A step of a loop that waits for a five. -/
theorem run_asks {k : ℕ} {watched : String} (hk : cond.inputs[k]? = some watched) (other : ℤ)
    {mBody : Module ℤ} (hbody : mBody.outputs = body.outputs.length)
    (hn : ∀ name, (n.loopVars name).isSome ↔ name ∈ op.aliases_inputs.flatten) :
    ∃ condValues bodyValues, condValues[k]? = n.loopVars watched ∧
      (∀ (k : ℕ) (name : String), body.inputs[k]? = some name →
        bodyValues[k]? = n.loopVars name) ∧
      ∀ fuel, n.run op ⟨cond, asks cond.outputs.length k other, rfl⟩ ⟨body, mBody, hbody⟩ id
        (fuel + 1) = if n.loopVars watched = some 5 then some n
          else (n.next op cond body ((asks cond.outputs.length k other).results condValues)
            (mBody.results bodyValues)).run op ⟨cond, asks cond.outputs.length k other, rfl⟩
              ⟨body, mBody, hbody⟩ id fuel := by
  obtain ⟨condValues, hcond, hcondGet⟩ :=
    exists_values fun name hname => (hn name).2 (h.cond_inputs.2 name hname)
  obtain ⟨bodyValues, hbodyInputs, hbodyGet⟩ :=
    exists_values fun name hname => (hn name).2 (h.body_inputs.2 name hname)
  have hres := head?_asks k other condValues
    (mt List.eq_nil_of_length_eq_zero h.cond_outputs)
  rw [hcondGet k watched hk] at hres
  refine ⟨condValues, bodyValues, hcondGet k watched hk, hbodyGet, fun fuel => ?_⟩
  split_ifs with hfive
  · rw [if_pos hfive] at hres
    exact run_of_nonpos hcond hres le_rfl fuel
  · rw [if_neg hfive] at hres
    exact run_of_pos hcond hres Int.one_pos hbodyInputs fuel

omit h in
/-- No variable is five at the start. -/
theorem start_ne_five (k : ℕ) : ((op.info cond body).start (zeros op)).condInputs k ≠ some 5 ∧
    ((op.info cond body).start (zeros op)).bodyInputs k ≠ some 5 := by
  have hnone : (none : Option ℤ) ≠ some 5 := nofun
  have hzero : ∀ j : ℕ, (zeros op)[j]? ≠ some 5 := by
    intro j hj
    have hmem := List.eq_of_mem_replicate (List.mem_of_getElem? hj)
    exact absurd hmem (by decide)
  exact ⟨assign_invariant (P := (· ≠ some 5)) (fun _ => hnone) hzero k,
    assign_invariant (P := (· ≠ some 5)) (fun _ => hnone) hzero k⟩

omit h in
theorem start_loopVars_ne_five (name : String) :
    (Names.start op (zeros op)).loopVars name ≠ some 5 := by
  intro hname
  have hmem := (start_isSome length_zeros name).1 (by rw [hname]; rfl)
  rw [start_zeros hmem] at hname
  exact absurd (Option.some.inj hname) (by decide)

/-- A loop that ends by its names, but only at a five that the module never sees. -/
theorem not_runsWhile (k : ℕ) (f : List ℤ → ℤ)
    (hf : ∀ values : List ℤ, (∀ v ∈ values, v ≠ 5) → f values ≠ 5)
    (hrun : ∃ fuel final, (Names.start op (zeros op)).run op
      ⟨cond, asks cond.outputs.length k 5, rfl⟩ ⟨body, tells body.outputs.length f, rfl⟩ id fuel =
        some final) : ¬ RunsWhile op cond body := by
  intro hruns
  obtain ⟨fuel, final, hrun⟩ := hrun
  obtain ⟨fuel', outputs, hmodule, -⟩ :=
    hruns ℤ id id _ _ rfl rfl (zeros op) length_zeros fuel final hrun
  refine Option.some_ne_none _ (hmodule.symm.trans (run_eq_none h rfl ?_ start_ne_five fuel'))
  intro values hvalues v hv
  obtain ⟨j, -, rfl⟩ := List.mem_map.1 hv
  exact hf values hvalues

/-- A later output of the condition is not what the module takes. -/
theorem first_of_runsWhile (hruns : RunsWhile op cond body) {p : String × String}
    (hp : p ∈ op.aliases_updates) (hout : p.1 ∈ cond.outputs)
    (hread : p.2 ∈ cond.inputs ∨ p.2 ∈ body.inputs) : _findPos cond.outputs p.1 = some 0 := by
  obtain ⟨pos, hpos⟩ := exists_findPos hout
  by_contra hne
  have hpos0 : pos ≠ 0 := by
    rintro rfl
    exact hne hpos
  have hupdate := (updateOf_eq_some h.updates).2 hp
  have hnot : p.1 ∉ body.outputs := by
    rcases (h.update p hp).2 with ⟨-, hnot, -⟩ | ⟨-, hnot⟩
    · exact absurd hout hnot
    · exact hnot
  have hisSome := start_isSome (length_zeros : (zeros op).length = _)
  have hlength : ∀ (k : ℕ) (values : List ℤ), ((asks cond.outputs.length k 5).results
      values).length = cond.outputs.length := fun _ => length_results _
  have hfive : ∀ (n : Names ℤ) (k : ℕ) (values bodyOutputs : List ℤ), (n.next op cond body
      ((asks cond.outputs.length k 5).results values) bodyOutputs).loopVars p.2 = some 5 := by
    intro n k values bodyOutputs
    rw [next_asks hupdate hnot hpos]
    exact congrArg some (if_neg hpos0)
  by_cases hcond : p.2 ∈ cond.inputs
  · -- the condition waits for the variable
    obtain ⟨k, hk⟩ := List.mem_iff_getElem?.1 hcond
    have hbody : (tells body.outputs.length fun _ => 1).outputs = body.outputs.length := rfl
    obtain ⟨values, bodyValues, -, -, hrun⟩ := run_asks h hk 5 hbody hisSome
    obtain ⟨_, _, -, -, hrun'⟩ := run_asks h hk 5 hbody
      (next_isSome h hisSome (hlength k values) ((length_results _ bodyValues).trans hbody))
    have hend := (hrun 1).trans ((if_neg (start_loopVars_ne_five _)).trans
      ((hrun' 0).trans (if_pos (hfive _ _ _ _))))
    exact not_runsWhile h k (fun _ => 1) (fun _ _ => by decide) ⟨2, _, hend⟩ hruns
  · -- the condition waits for the body, which waits for the variable
    obtain ⟨k', hk'⟩ := List.mem_iff_getElem?.1 (hread.resolve_left hcond)
    obtain ⟨q, hq, hqout, hqin⟩ := h.update_cond
    obtain ⟨k, hk⟩ := List.mem_iff_getElem?.1 hqin
    have hqupdate := (updateOf_eq_some h.updates).2 hq
    have hbody : (tells body.outputs.length fun values =>
      if values[k']? = some 5 then 5 else 1).outputs = body.outputs.length := rfl
    obtain ⟨values₁, bodyValues₁, -, hget₁, hrun₁⟩ := run_asks h hk 5 hbody hisSome
    have hisSome₁ :=
      next_isSome h hisSome (hlength k values₁) ((length_results _ bodyValues₁).trans hbody)
    obtain ⟨values₂, bodyValues₂, -, hget₂, hrun₂⟩ := run_asks h hk 5 hbody hisSome₁
    have hisSome₂ :=
      next_isSome h hisSome₁ (hlength k values₂) ((length_results _ bodyValues₂).trans hbody)
    obtain ⟨_, _, -, -, hrun₃⟩ := run_asks h hk 5 hbody hisSome₂
    have hone : ∀ condOutputs, ((Names.start op (zeros op)).next op cond body condOutputs
        ((tells body.outputs.length fun values =>
          if values[k']? = some 5 then 5 else 1).results bodyValues₁)).loopVars q.2 ≠ some 5 := by
      intro condOutputs
      rw [next_tells hqupdate hqout, hget₁ k' p.2 hk', if_neg (start_loopVars_ne_five _)]
      decide
    have hend := (hrun₁ 2).trans ((if_neg (start_loopVars_ne_five _)).trans
      ((hrun₂ 1).trans ((if_neg (hone _)).trans ((hrun₃ 0).trans (if_pos ?_)))))
    · refine not_runsWhile h k (fun values => if values[k']? = some 5 then 5 else 1)
        (fun values hvalues => ?_) ⟨3, _, hend⟩ hruns
      rw [if_neg fun hmem => hvalues 5 (List.mem_of_getElem? hmem) rfl]
      decide
    · rw [next_tells hqupdate hqout, hget₂ k' p.2 hk', hfive, if_pos rfl]

/-- What comes from an input must not be behind what does not: without an iteration it shows. -/
theorem aligned_of_runsWhile (hruns : RunsWhile op cond body) {i j : ℕ}
    (hi : op.aliases_outputs[i]? = some name) (hj : op.inputOf name = some j) :
    (op.aliases_outputs.filterMap op.inputOf)[i]? = some j := by
  obtain ⟨hcond, hbody⟩ := outputs_ne_zero h
  set inputs : List ℤ := (List.range op.aliases_inputs.length).map fun j : ℕ => (j : ℤ) with hdef
  have hget : ∀ {j : ℕ} {v : ℤ}, inputs[j]? = some v ↔ j < op.aliases_inputs.length ∧ v = j := by
    intro j v
    rw [hdef, List.getElem?_map, Option.map_eq_some_iff]
    constructor
    · rintro ⟨k, hk, rfl⟩
      obtain ⟨hlt, rfl⟩ := List.getElem?_eq_some_iff.1 hk
      rw [List.getElem_range]
      exact ⟨by simpa using hlt, rfl⟩
    · rintro ⟨hlt, rfl⟩
      exact ⟨j, List.getElem?_range hlt, rfl⟩
  have hinputs : inputs.length = op.aliases_inputs.length := by
    rw [hdef, List.length_map, List.length_range]
  obtain ⟨values, hvalues, -⟩ := exists_values fun name hname =>
    (start_isSome hinputs name).2 (h.cond_inputs.2 name hname)
  have hhead : ∀ values : List ℤ,
      ((tells cond.outputs.length fun _ => 0).results values).head? = some 0 := by
    intro values
    rw [List.head?_eq_getElem?, results_getElem? (fun _ => rfl) (Nat.pos_of_ne_zero hcond)]
    rfl
  obtain ⟨fuel, outputs, hrun, -, hval⟩ := hruns ℤ id id (tells cond.outputs.length fun _ => 0)
    (tells body.outputs.length fun _ => 0) rfl rfl inputs hinputs 1 _
    (run_of_nonpos hvalues (hhead values) le_rfl 0)
  have hlt : j < op.aliases_inputs.length := (List.findIdx?_eq_some_iff_getElem.1 hj).1
  have hvalue : (Names.start op inputs).value name = some (j : ℤ) := by
    rw [Names.value, Names.start_loopVars, hj, Option.bind_some, hget.2 ⟨hlt, rfl⟩, Option.some_or]
  have hout := hval i name j hi hvalue
  cases fuel with
  | zero => exact absurd hrun (Option.some_ne_none _).symm
  | succ fuel =>
    obtain ⟨condInputs, res, -, hres, hcase⟩ := run_inv hcond hbody hrun
    obtain rfl := Option.some.inj ((hhead condInputs).symm.trans hres)
    rcases hcase with ⟨-, houtputs⟩ | ⟨hread, -⟩
    · have hstart := (assign_zipIdx _).symm.trans (output_eq houtputs hout)
      obtain ⟨j', hj', hv⟩ := Option.bind_eq_some_iff.1 hstart
      obtain rfl := Nat.cast_injective (hget.1 hv).2
      exact hj'
    · exact absurd hread (lt_irrefl 0)

/-- What a loop returns that ends after its first iteration. -/
theorem output_of_run {k : ℕ} {watched : String} (hk : cond.inputs[k]? = some watched)
    (hupdate : op.updateOf watched = some output) (hmem : output ∈ body.outputs) {fuel : ℕ}
    {outputs : List (Option (Content ℤ))}
    (hrun : (op.info cond body).run id (asks cond.outputs.length k 1)
      (tells body.outputs.length fun _ => 5) fuel ((op.info cond body).start (zeros op)) =
        some outputs) {i : ℕ} {v : ℤ} (hv : outputs[i]? = some (some (.value v))) :
    ∃ bodyInputs, ((op.info cond body).next ((op.info cond body).start (zeros op)) 1
      ((tells body.outputs.length fun _ => 5).results bodyInputs)).outputs i = some v := by
  obtain ⟨hcond, hbody⟩ := outputs_ne_zero h
  have hlt : k < cond.inputs.length := (List.getElem?_eq_some_iff.1 hk).1
  match fuel with
  | 0 => exact absurd hrun (Option.some_ne_none _).symm
  | fuel + 1 =>
    obtain ⟨condInputs, res, hcondInputs, hres, hcase⟩ := run_inv hcond hbody hrun
    rw [head?_asks _ _ _ hcond, (getElem?_of_mapM hcondInputs).2 k hlt, if_neg (start_ne_five k).1,
      Option.some.injEq] at hres
    subst hres
    rcases hcase with ⟨hread, -⟩ | ⟨-, bodyInputs, -, hrun⟩
    · exact absurd hread (by decide)
    · refine ⟨bodyInputs, ?_⟩
      match fuel with
      | 0 => exact absurd hrun (Option.some_ne_none _).symm
      | fuel + 1 =>
        obtain ⟨condInputs', res', hcondInputs', hres', hcase'⟩ := run_inv hcond hbody hrun
        have hfive : ((op.info cond body).next ((op.info cond body).start (zeros op)) 1
            ((tells body.outputs.length fun _ => 5).results bodyInputs)).condInputs k =
              some 5 := by
          have hstart := assign_inputTable h h.cond_inputs.1 hk (zeros op)
            (h.cond_inputs.2 watched (List.mem_of_getElem? hk))
          refine Eq.trans (assign_updates h h.cond_inputs.1 hk ?_ hstart _)
            (next_tells hupdate hmem _ [] _)
          rintro p hp hout rfl
          obtain rfl : p.1 = output :=
            Option.some.inj (((updateOf_eq_some h.updates).2 hp).symm.trans hupdate)
          rcases (h.update p hp).2 with ⟨-, hnot, -⟩ | ⟨-, hnot⟩
          · exact absurd hout hnot
          · exact absurd hmem hnot
        rw [head?_asks _ _ _ hcond, (getElem?_of_mapM hcondInputs').2 k hlt, if_pos hfive,
          Option.some.injEq] at hres'
        subst hres'
        rcases hcase' with ⟨-, houtputs⟩ | ⟨hread, -⟩
        · exact output_eq houtputs hv
        · exact absurd hread (lt_irrefl 0)

/-- A variable that the body does not take must come from the body in another way. -/
theorem returned_of_runsWhile (hruns : RunsWhile op cond body)
    (hname : name ∈ op.aliases_outputs) (hvar : name ∈ op.aliases_inputs.flatten)
    (hnot : name ∉ body.inputs) : if name ∈ body.outputs then
        ∃ output ∈ body.outputs, op.updateOf name = some output
      else op.updateOf name = none := by
  obtain ⟨hcond, hbody⟩ := outputs_ne_zero h
  obtain ⟨i, hi⟩ := List.mem_iff_getElem?.1 hname
  obtain ⟨q, hq, hqout, hqin⟩ := h.update_cond
  obtain ⟨k, hk⟩ := List.mem_iff_getElem?.1 hqin
  have hqupdate := (updateOf_eq_some h.updates).2 hq
  -- one iteration, after which all outputs of the body are five
  have hisSome := start_isSome (length_zeros : (zeros op).length = _)
  have hlength : (tells body.outputs.length fun _ => 5).outputs = body.outputs.length := rfl
  obtain ⟨values, bodyValues, hwatched, -, hrun⟩ := run_asks h hk 1 hlength hisSome
  obtain ⟨_, _, -, -, hrun'⟩ := run_asks h hk 1 hlength
    (next_isSome h hisSome (length_results (asks cond.outputs.length k 1) values)
      ((length_results _ bodyValues).trans hlength))
  have hend := (hrun 1).trans ((if_neg (start_loopVars_ne_five _)).trans
    ((hrun' 0).trans (if_pos (next_tells hqupdate hqout _ _ _))))
  obtain ⟨fuel, outputs, hmodule, -, hval⟩ :=
    hruns ℤ id id _ _ rfl rfl (zeros op) length_zeros 2 _ hend
  obtain ⟨v, hv⟩ := Option.isSome_iff_exists.1 ((next_isSome h hisSome
    (length_results (asks cond.outputs.length k 1) values)
    ((length_results _ bodyValues).trans hlength) name).2 hvar)
  obtain ⟨bodyInputs, houtput⟩ := output_of_run h hk hqupdate hqout hmodule
    (hval i name v hi (by rw [Names.value, hv, Option.some_or]))
  rw [outputs_eq_of_not_mem h hi hnot] at houtput
  have hother : ∀ output ∉ body.outputs, op.updateOf name = some output → v = 1 := by
    intro output houtput hupdate
    have hp := h.update _ ((updateOf_eq_some h.updates).1 hupdate)
    obtain ⟨pos, hpos⟩ := exists_findPos
      (hp.2.resolve_left fun hbody => houtput hbody.1).1
    rw [next_asks hupdate houtput hpos, Option.some.injEq] at hv
    rw [← hv, asks]
    dsimp only
    rw [hwatched, if_neg (start_loopVars_ne_five _), ite_self]
  have hstart : ∀ v, ((op.info cond body).start (zeros op)).outputs i = some v → v = 0 := by
    intro v hv
    obtain ⟨j, -, hj⟩ := Option.bind_eq_some_iff.1 ((assign_zipIdx _).symm.trans hv)
    exact List.eq_of_mem_replicate (List.mem_of_getElem? hj)
  split_ifs with hmem
  · by_contra hno
    obtain ⟨pos, hpos⟩ := exists_findPos hmem
    have hlt := (List.getElem?_eq_some_iff.1 (getElem?_of_findPos hpos)).1
    have hnone : (op.updateOf name).bind (_findPos body.outputs) = none := by
      refine Option.eq_none_iff_forall_not_mem.2 fun pos' hpos' => hno ?_
      obtain ⟨output, hupdate, hpos'⟩ := Option.bind_eq_some_iff.1 hpos'
      exact ⟨output, List.mem_of_getElem? (getElem?_of_findPos hpos'), hupdate⟩
    rw [hpos, hnone] at houtput
    have hfive : v = 5 := Option.some.inj (houtput.symm.trans
      (results_getElem? (m := tells body.outputs.length fun _ => 5) (fun _ => rfl) hlt))
    cases hupdate : op.updateOf name with
    | none =>
      rw [Names.next_of_none hupdate, hfive] at hv
      exact start_loopVars_ne_five _ hv
    | some output =>
      have hone := hother output (fun hout => hno ⟨output, hout, hupdate⟩) hupdate
      exact absurd (hone.symm.trans hfive) (by decide)
  · rw [findPos_eq_none.2 hmem] at houtput
    have hzero := hstart v houtput
    refine Option.eq_none_iff_forall_not_mem.2 fun output hupdate => ?_
    by_cases hout : output ∈ body.outputs
    · rw [next_tells hupdate hout, hzero] at hv
      exact absurd (Option.some.inj hv) (by decide)
    · exact absurd ((hother output hout hupdate).symm.trans hzero) (by decide)

/-- **Tables.** The module returns what the names stand for exactly if the tables keep them
apart. -/
theorem runsWhile_iff : RunsWhile op cond body ↔ op.Sound cond body :=
  ⟨fun hruns => ⟨fun _ _ _ hi hj => aligned_of_runsWhile h hruns hi hj,
    fun _ hp hout hread => first_of_runsWhile h hruns hp hout hread,
    fun _ hname hvar hnot => returned_of_runsWhile h hruns hname hvar hnot⟩,
    Sound.runsWhile h⟩

end Runs

/-! ### Loops with a limit -/

section Limit

variable {V : Type}

/-- The module returns the carried values, and the slices of the scans. -/
def RunsLoop (read : V → ℤ) (ofInt : ℤ → V) (mBody : Module V) (K : ℕ) (limit condition : V)
    (values : List V) : Prop :=
  let final := (Carried.start (read condition) values K).run read ofInt mBody condition
    values.length (read limit).toNat
  ∀ fuel, (⟨{ mOutputNumber := values.length + K, mBodyInputNumber := values.length + 2 }, none,
      mBody⟩ : WhileModule V).onForward read ofInt fuel (limit :: condition :: values) =
    some (final.values.map (fun v => some (.value v)) ++
      final.scans.map fun slices => some (.stack slices))

/-- The bodies with `N` carried values and `K` scans that hand the same inputs through. -/
structure Passes (m : Module V) (N K : ℕ) (passes : ℕ → Option ℕ) : Prop where
  outputs : m.outputs = N + K + 1
  passes : ∀ k < N + K, m.passes (k + 1) = passes k

/-- What a module with a limit returns after its loop. -/
theorem onForward_of_pos (read : V → ℤ) (ofInt : ℤ → V) (mBody : Module V) (K fuel : ℕ)
    {limit condition : V} {values : List V} (hlimit : 0 < read limit) (hcond : 0 < read condition)
    {s : LoopState V}
    (hs : (LoopState.start (read condition) (limit :: condition :: values) K).run read ofInt mBody
      values.length (read limit).toNat = some s) :
    (⟨{ mOutputNumber := values.length + K, mBodyInputNumber := values.length + 2 }, none,
      mBody⟩ : WhileModule V).onForward read ofInt fuel (limit :: condition :: values) =
    some (((s.bodyOutputs.tail.take values.length).map fun o =>
        some (.value (o.content (ofInt (s.step - 1))))) ++
      s.spans.map fun span => _Stack (span.map (Var.content (ofInt (s.step - 1))))) := by
  simp only [WhileModule.onForward, List.getElem?_cons_zero, List.getElem?_cons_succ,
    Option.bind_eq_bind, Option.bind_some, Nat.add_sub_cancel, Nat.add_sub_cancel_left]
  rw [if_pos ⟨hlimit, hcond⟩, hs]
  rfl

/-- What it returns without an iteration. -/
theorem onForward_of_nonpos (read : V → ℤ) (ofInt : ℤ → V) (mBody : Module V) (K fuel : ℕ)
    {limit condition : V} {values : List V} (h : ¬ (0 < read limit ∧ 0 < read condition)) :
    (⟨{ mOutputNumber := values.length + K, mBodyInputNumber := values.length + 2 }, none,
      mBody⟩ : WhileModule V).onForward read ofInt fuel (limit :: condition :: values) =
    some (values.map (fun v => some (.value v)) ++ List.replicate K none) := by
  simp only [WhileModule.onForward, List.getElem?_cons_zero, List.getElem?_cons_succ,
    Option.bind_eq_bind, Option.bind_some, Nat.add_sub_cancel, Nat.add_sub_cancel_left,
    List.drop_succ_cons, List.drop_zero, List.take_length]
  rw [if_neg h]
  rfl

/-- Without an iteration, the module returns the scans only if there are none. -/
theorem runsLoop_of_nonpos (read : V → ℤ) (ofInt : ℤ → V) (mBody : Module V) (K : ℕ)
    (limit condition : V) (values : List V) (h : ¬ (0 < read limit ∧ 0 < read condition)) :
    RunsLoop read ofInt mBody K limit condition values ↔ K = 0 := by
  have hrun : (Carried.start (read condition) values K).run read ofInt mBody condition
      values.length (read limit).toNat = Carried.start (read condition) values K := by
    rcases not_and_or.1 h with hlimit | hcond
    · rw [Int.toNat_of_nonpos (not_lt.1 hlimit), Carried.run]
    · cases (read limit).toNat with
      | zero => rfl
      | succ n => exact if_pos (not_lt.1 hcond)
  simp only [RunsLoop, hrun, onForward_of_nonpos read ofInt mBody K _ h, forall_const,
    Carried.start_values, Carried.start_scans, Option.some.injEq, List.append_cancel_left_eq,
    List.map_replicate]
  constructor
  · intro heq
    by_contra hK
    have hhead := congrArg List.head? heq
    rw [List.head?_replicate, List.head?_replicate, if_neg hK, if_neg hK] at hhead
    exact absurd hhead (by simp)
  · rintro rfl
    rfl

section Iterations

variable {read : V → ℤ} {ofInt : ℤ → V} {m : Module V} {N : ℕ}

/-- One iteration of a body that has outputs. -/
theorem LoopState.run_succ (hm : m.outputs ≠ 0) {s : LoopState V} (hs : 0 < s.cond) (n : ℕ) :
    s.run read ofInt m N (n + 1) =
      (s.next read ofInt N (m.onForward (Var.content (ofInt s.step)) s.bodyInputs)).run read ofInt
        m N n := by
  have hne : m.onForward (Var.content (ofInt s.step)) s.bodyInputs ≠ [] := by
    intro hnil
    have hlen := congrArg List.length hnil
    rw [Module.onForward, List.length_map, List.length_range] at hlen
    exact hm hlen
  obtain ⟨out, bodyOutputs, hout⟩ := List.exists_cons_of_ne_nil hne
  rw [LoopState.run, if_neg hs.not_ge, hout]

/-- The contents of the outputs. -/
theorem content_onForward (content : Var V → V) (hcontent : ∀ v, content (.value v) = v)
    (inputs : List (Var V)) :
    (m.onForward content inputs).map content = m.results (inputs.map content) := by
  rw [Module.onForward, Module.results, List.map_map]
  refine List.map_congr_left fun k _ => ?_
  rw [Function.comp_apply]
  cases m.passes k with
  | none => exact hcontent _
  | some j =>
    rw [Option.bind_some, Option.bind_some, List.getElem?_map]
    cases inputs[j]? with
    | none => exact hcontent _
    | some v => rfl

/-- The variables hold carried values and slices; none of them is the counter. -/
structure Holds (condition : V) (N : ℕ) (s : LoopState V) (c : Carried V) : Prop where
  step : s.step = c.step
  cond : s.cond = c.cond
  bodyInputs : s.bodyInputs = .counter :: .value condition :: c.values.map .value
  spans : s.spans = c.scans.map (List.map .value)

variable {condition : V} {s : LoopState V} {c : Carried V}

variable (read ofInt) in
/-- An iteration keeps this. -/
theorem Holds.next {K : ℕ} (hm : m.outputs = N + K + 1)
    (hpasses : ∀ k < N + K, m.passes (k + 1) ≠ some 0) (h : Holds condition N s c) :
    let s' := s.next read ofInt N (m.onForward (Var.content (ofInt s.step)) s.bodyInputs)
    let c' := c.next read ofInt m condition N
    Holds condition N s' c' ∧ s'.bodyOutputs.tail.take N = c'.values.map .value := by
  have hinputs : s.bodyInputs.map (Var.content (ofInt s.step)) =
      ofInt c.step :: condition :: c.values := by
    rw [h.bodyInputs, h.step]
    simp [Var.content, Function.comp_def]
  have hresults := content_onForward (m := m) (Var.content (ofInt s.step)) (fun _ => rfl)
    s.bodyInputs
  rw [hinputs] at hresults
  have htail : (m.onForward (Var.content (ofInt s.step)) s.bodyInputs).tail =
      (m.results (ofInt c.step :: condition :: c.values)).tail.map .value := by
    rw [Module.onForward, Module.results, hm, List.range_succ_eq_map, List.map_cons, List.map_cons,
      List.tail_cons, List.tail_cons, List.map_map, List.map_map, List.map_map, hinputs]
    refine List.map_congr_left fun k hk => ?_
    have hk := hpasses k (List.mem_range.1 hk)
    simp only [Function.comp_apply]
    cases hpass : m.passes (k + 1) with
    | none => rfl
    | some j =>
      obtain ⟨j, rfl⟩ := Nat.exists_eq_succ_of_ne_zero fun hj => hk (hpass.trans (congrArg some hj))
      have hget : s.bodyInputs[j + 1]? = ((condition :: c.values)[j]?).map .value := by
        rw [h.bodyInputs, List.getElem?_cons_succ, ← List.map_cons, List.getElem?_map]
      rw [Option.bind_some, Option.bind_some, hget, List.getElem?_cons_succ]
      cases (condition :: c.values)[j]? <;> rfl
  refine ⟨⟨congrArg (· + 1) h.step, ?_, ?_, ?_⟩, ?_⟩
  · simp only [LoopState.next, Carried.next, ← hresults, List.head?_map, Option.map_map,
      Function.comp_def]
  · simp only [LoopState.next, Carried.next, htail, ← List.map_take]
    rw [h.bodyInputs]
    rfl
  · simp only [LoopState.next, Carried.next, h.spans, htail, ← List.map_drop, List.zipWith_map,
      List.map_zipWith, List.map_append, List.map_cons, List.map_nil]
  · simp only [LoopState.next, Carried.next, htail, List.map_take]

/-- The rest of the loop. -/
theorem Holds.run {K : ℕ} (hm : m.outputs = N + K + 1)
    (hpasses : ∀ k < N + K, m.passes (k + 1) ≠ some 0) (h : Holds condition N s c)
    (hout : s.bodyOutputs.tail.take N = c.values.map .value) (hscans : ∀ scan ∈ c.scans, scan ≠ [])
    (n : ℕ) : ∃ s', s.run read ofInt m N n = some s' ∧
      Holds condition N s' (c.run read ofInt m condition N n) ∧
      s'.bodyOutputs.tail.take N = (c.run read ofInt m condition N n).values.map .value ∧
      ∀ scan ∈ (c.run read ofInt m condition N n).scans, scan ≠ [] := by
  induction n generalizing s c with
  | zero => exact ⟨s, rfl, h, hout, hscans⟩
  | succ n ih =>
    by_cases hcond : c.cond ≤ 0
    · have hrun : c.run read ofInt m condition N (n + 1) = c := if_pos hcond
      rw [hrun]
      exact ⟨s, if_pos (h.cond ▸ hcond), h, hout, hscans⟩
    · have hrun : c.run read ofInt m condition N (n + 1) =
        (c.next read ofInt m condition N).run read ofInt m condition N n := if_neg hcond
      obtain ⟨hnext, hout'⟩ := h.next read ofInt hm hpasses
      rw [LoopState.run_succ (by omega) (h.cond ▸ not_le.1 hcond), hrun]
      refine ih hnext hout' fun scan hscan => ?_
      obtain ⟨i, hi, rfl⟩ := List.mem_iff_getElem.1 hscan
      simp [Carried.next]

/-- **Carried values and scans.** If no output is the counter, the module runs the loop. -/
theorem runsLoop_of_pos {K : ℕ} {values : List V}
    (hm : m.outputs = values.length + K + 1)
    (hpasses : ∀ k < values.length + K, m.passes (k + 1) ≠ some 0) {limit condition : V}
    (hlimit : 0 < read limit) (hcond : 0 < read condition) :
    RunsLoop read ofInt m K limit condition values := by
  intro fuel
  have hstart : Holds condition values.length
      (LoopState.start (read condition) (limit :: condition :: values) K)
      (Carried.start (read condition) values K) :=
    ⟨rfl, rfl, rfl, by rw [Carried.start, List.map_replicate]; rfl⟩
  obtain ⟨n, hn⟩ : ∃ n, (read limit).toNat = n + 1 := ⟨(read limit).toNat - 1, by omega⟩
  obtain ⟨hnext, hout⟩ := hstart.next read ofInt hm hpasses
  obtain ⟨s, hs, hfinal, hout, hscans⟩ := hnext.run hm hpasses hout (fun scan hscan => by
    obtain ⟨i, hi, rfl⟩ := List.mem_iff_getElem.1 hscan
    simp [Carried.next]) n
  have hrun : (Carried.start (read condition) values K).run read ofInt m condition values.length
      (read limit).toNat = ((Carried.start (read condition) values K).next read ofInt m condition
        values.length).run read ofInt m condition values.length n := by
    rw [hn]
    exact if_neg hcond.not_ge
  rw [hrun, onForward_of_pos read ofInt m K fuel hlimit hcond (s := s) ?_, hout, hfinal.spans]
  · rw [List.map_map, List.map_map]
    refine congrArg some (congrArg₂ _ rfl (List.map_congr_left fun scan hscan => ?_))
    rw [Function.comp_apply, List.map_map, show Var.content _ ∘ Var.value = id from rfl,
      List.map_id, _Stack, if_neg (hscans scan hscan)]
  · rw [hn, LoopState.run_succ (by omega) hcond]
    exact hs

end Iterations

end Limit

/-! ### Bodies that hand the counter through -/

section Counter

variable {N K : ℕ} {passes : ℕ → Option ℕ} {f : List ℤ → ℤ}

/-- A body whose condition is computed by `f`. -/
def counting (N K : ℕ) (passes : ℕ → Option ℕ) (f : List ℤ → ℤ) : Module ℤ where
  outputs := N + K + 1
  passes k := if k = 0 then none else passes (k - 1)
  compute values j := if j = 0 then f values else 0

theorem counting_passes : Passes (counting N K passes f) N K passes := ⟨rfl, fun _ _ => rfl⟩

theorem head?_results_counting (values : List ℤ) :
    ((counting N K passes f).results values).head? = some (f values) :=
  List.head?_eq_getElem?.trans (getElem?_results (Nat.succ_pos _) values)

theorem head?_onForward_counting (content : Var ℤ → ℤ) (inputs : List (Var ℤ)) :
    ((counting N K passes f).onForward content inputs).head? =
      some (.value (f (inputs.map content))) :=
  List.head?_eq_getElem?.trans (getElem?_onForward (Nat.succ_pos _) content inputs)

section Index

variable {k : ℕ} (hk : k < N + K) (hpass : passes k = some 0)

include hk hpass

theorem getElem?_results_counting (v : ℤ) (values : List ℤ) :
    ((counting N K passes f).results (v :: values))[k + 1]? = some v := by
  have hpass' : (counting N K passes f).passes (k + 1) = some 0 := hpass
  rw [getElem?_results (Nat.succ_lt_succ hk), hpass']
  rfl

theorem getElem?_onForward_counting (content : Var ℤ → ℤ) (inputs : List (Var ℤ)) :
    ((counting N K passes f).onForward content (.counter :: inputs))[k + 1]? = some .counter := by
  have hpass' : (counting N K passes f).passes (k + 1) = some 0 := hpass
  rw [getElem?_onForward (Nat.succ_lt_succ hk), hpass']
  rfl

end Index

/-- The carried values and the scans after an iteration. -/
theorem next_counting (N K : ℕ) (passes : ℕ → Option ℕ) (f : List ℤ → ℤ) (condition : ℤ)
    {c : Carried ℤ} (hc : 0 < c.cond) : ∃ c' : Carried ℤ,
      (∀ n, c.run id id (counting N K passes f) condition N (n + 1) =
        c'.run id id (counting N K passes f) condition N n) ∧
      c'.step = c.step + 1 ∧ c'.cond = f (c.step :: condition :: c.values) ∧
      c'.values.length = N ∧
      (∀ k < N, passes k = some 0 → c'.values[k]? = some (c.step : ℤ)) ∧
      ∀ i < K, passes (N + i) = some 0 → ∀ scan, c.scans[i]? = some scan →
        c'.scans[i]? = some (scan ++ [(c.step : ℤ)]) := by
  refine ⟨c.next id id (counting N K passes f) condition N, fun n => if_neg hc.not_ge, rfl, ?_, ?_,
    fun k hk hpass => ?_, fun i hi hpass scan hscan => ?_⟩
  · simp only [Carried.next, head?_results_counting]
    rfl
  · simp only [Carried.next, List.length_take, List.length_tail, length_results]
    exact min_eq_left (Nat.le_add_right N K)
  · simp only [Carried.next]
    rw [List.getElem?_take_of_lt hk, List.getElem?_tail,
      getElem?_results_counting (hk.trans_le (Nat.le_add_right N K)) hpass]
    rfl
  · simp only [Carried.next]
    rw [List.getElem?_zipWith, hscan, List.getElem?_drop, List.getElem?_tail,
      getElem?_results_counting (Nat.add_lt_add_left hi N) hpass]
    rfl

/-- The variables after an iteration. -/
theorem next_counter (N K : ℕ) (passes : ℕ → Option ℕ) (f : List ℤ → ℤ) {s : LoopState ℤ}
    {inputs : List (Var ℤ)} (hs : s.bodyInputs = .counter :: inputs) (hcond : 0 < s.cond) :
    ∃ s' : LoopState ℤ,
      (∀ n, s.run id id (counting N K passes f) N (n + 1) =
        s'.run id id (counting N K passes f) N n) ∧
      s'.step = s.step + 1 ∧
      s'.cond = f ((s.step : ℤ) :: inputs.map (Var.content (s.step : ℤ))) ∧
      s'.bodyInputs = .counter :: (inputs.take 1 ++ s'.bodyOutputs.tail.take N) ∧
      (s'.bodyOutputs.tail.take N).length = N ∧
      (∀ k < N, passes k = some 0 → (s'.bodyOutputs.tail.take N)[k]? = some .counter) ∧
      ∀ i < K, passes (N + i) = some 0 → ∀ span, s.spans[i]? = some span →
        s'.spans[i]? = some (span ++ [.counter]) := by
  refine ⟨_, fun n => LoopState.run_succ (Nat.succ_ne_zero _) hcond n, rfl, ?_, ?_, ?_,
    fun k hk hpass => ?_, fun i hi hpass span hspan => ?_⟩
  · simp only [LoopState.next, head?_onForward_counting, hs]
    rfl
  · simp only [LoopState.next, hs]
    rfl
  · simp only [LoopState.next, List.length_take, List.length_tail, Module.onForward,
      List.length_map, List.length_range]
    exact min_eq_left (Nat.le_add_right N K)
  · simp only [LoopState.next, hs]
    rw [List.getElem?_take_of_lt hk, List.getElem?_tail,
      getElem?_onForward_counting (hk.trans_le (Nat.le_add_right N K)) hpass]
  · simp only [LoopState.next, hs]
    rw [List.getElem?_zipWith, hspan, List.getElem?_drop, List.getElem?_tail,
      getElem?_onForward_counting (Nat.add_lt_add_left hi N) hpass]

/-- What the module and the loop leave, where the module returns what the loop describes. -/
theorem runsLoop_parts {m : Module ℤ} {limit condition : ℤ} {values : List ℤ}
    (hruns : RunsLoop id id m K limit condition values) (hlimit : 0 < limit)
    (hcond : 0 < condition) (hN : values.length = N) {s : LoopState ℤ}
    (hs : (LoopState.start condition (limit :: condition :: values) K).run id id m N
      limit.toNat = some s)
    {c : Carried ℤ} (hc : (Carried.start condition values K).run id id m condition N
      limit.toNat = c)
    (hlength : (s.bodyOutputs.tail.take N).length = c.values.length) :
    (s.bodyOutputs.tail.take N).map (Var.content ((s.step : ℤ) - 1)) = c.values ∧
      s.spans.map (fun span => _Stack (span.map (Var.content ((s.step : ℤ) - 1)))) =
        c.scans.map fun slices => some (.stack slices) := by
  subst hN
  have hrun := hruns 0
  rw [onForward_of_pos id id m K 0 hlimit hcond hs, Option.some.injEq] at hrun
  simp only [id_eq, hc] at hrun
  obtain ⟨hvalues, hscans⟩ :=
    List.append_inj hrun (by rw [List.length_map, List.length_map, hlength])
  refine ⟨?_, hscans⟩
  have hinjective : Function.Injective fun v : ℤ => some (Content.value v) := by
    intro v w hvw
    exact Content.value.inj (Option.some.inj hvw)
  refine List.map_injective_iff.2 hinjective ?_
  rw [List.map_map]
  exact hvalues

/-- A scan of the counter holds its last value in all slices. -/
theorem not_runsLoop_scan {i : ℕ} (hi : i < K) (hpass : passes (N + i) = some 0) :
    ¬ RunsLoop id id (counting N K passes fun _ => 1) K 2 1 (List.replicate N 0) := by
  intro hruns
  have hempty : ∀ {α : Type}, (List.replicate K ([] : List α))[i]? = some [] := fun {α} =>
    List.getElem?_replicate.trans (if_pos hi)
  obtain ⟨s₁, hrun₁, hstep₁, hcond₁, hinputs₁, -, -, hspan₁⟩ :=
    next_counter N K passes (fun _ => 1)
      (s := LoopState.start 1 ((2 : ℤ) :: 1 :: List.replicate N 0) K) rfl Int.one_pos
  obtain ⟨s₂, hrun₂, hstep₂, -, -, hlength, -, hspan₂⟩ :=
    next_counter N K passes (fun _ => 1) hinputs₁ (hcond₁ ▸ Int.one_pos)
  obtain ⟨c₁, hrun₁', hstep₁', hcond₁', -, -, hscan₁⟩ := next_counting N K passes (fun _ => 1) 1
    (c := Carried.start 1 (List.replicate N (0 : ℤ)) K) Int.one_pos
  obtain ⟨c₂, hrun₂', -, -, hlength', -, hscan₂⟩ :=
    next_counting N K passes (fun _ => 1) 1 (hcond₁' ▸ Int.one_pos)
  have hspan := hspan₂ i hi hpass _ (hspan₁ i hi hpass [] hempty)
  have hscan := hscan₂ i hi hpass _ (hscan₁ i hi hpass [] hempty)
  have hparts := (runsLoop_parts (c := c₂) hruns (by decide) (by decide) List.length_replicate
    ((hrun₁ 1).trans (hrun₂ 0)) ((hrun₁' 1).trans (hrun₂' 0)) (hlength.trans hlength'.symm)).2
  have hget := congrArg (·[i]?) hparts
  simp only [List.getElem?_map, hspan] at hget
  have hscan' := (congrArg (Option.map fun slices => some (Content.stack slices)) hscan)
  have hslices := Content.stack.inj (Option.some.inj (Option.some.inj (hget.trans hscan')))
  rw [hstep₂, hstep₁, hstep₁'] at hslices
  simp [LoopState.start, Carried.start, Var.content] at hslices

/-- A carried counter is read one iteration too late. -/
theorem not_runsLoop_carried {k : ℕ} (hk : k < N) (hpass : passes k = some 0) :
    ¬ RunsLoop id id (counting N K passes fun values => if values[k + 2]? = some 1 then 0 else 1)
      K 3 1 (List.replicate N 7) := by
  intro hruns
  have hseven : (List.replicate N (7 : ℤ))[k]? = some 7 :=
    List.getElem?_replicate.trans (if_pos hk)
  obtain ⟨s₁, hrun₁, hstep₁, hcond₁, hinputs₁, -, hout₁, -⟩ := next_counter N K passes
    (fun values => if values[k + 2]? = some 1 then 0 else 1)
    (s := LoopState.start 1 ((3 : ℤ) :: 1 :: List.replicate N 7) K) rfl Int.one_pos
  have hone₁ : s₁.cond = 1 := by
    rw [hcond₁, if_neg ?_]
    simp [Var.content, hseven]
  obtain ⟨s₂, hrun₂, hstep₂, hcond₂, -, hlength, hout₂, -⟩ := next_counter N K passes
    (fun values => if values[k + 2]? = some 1 then 0 else 1) hinputs₁ (hone₁ ▸ Int.one_pos)
  -- the second iteration reads the counter, and the loop stops
  have hzero₂ : s₂.cond = 0 := by
    have hget : ((s₁.bodyOutputs.tail.take N).map (Var.content (s₁.step : ℤ)))[k]? = some 1 := by
      rw [List.getElem?_map, hout₁ k hk hpass, hstep₁]
      rfl
    rw [hcond₂, if_pos ?_]
    rw [List.getElem?_cons_succ, List.map_append]
    exact hget
  obtain ⟨c₁, hrun₁', hstep₁', hcond₁', -, hvalue₁, -⟩ := next_counting N K passes
    (fun values => if values[k + 2]? = some 1 then 0 else 1) 1
    (c := Carried.start 1 (List.replicate N (7 : ℤ)) K) Int.one_pos
  have hone₁' : c₁.cond = 1 := by
    rw [hcond₁', if_neg ?_]
    simp [hseven]
  obtain ⟨c₂, hrun₂', hstep₂', hcond₂', -, hvalue₂, -⟩ := next_counting N K passes
    (fun values => if values[k + 2]? = some 1 then 0 else 1) 1 (hone₁' ▸ Int.one_pos)
  have hone₂' : c₂.cond = 1 := by
    rw [hcond₂', if_neg ?_]
    simp [hvalue₁ k hk hpass, Carried.start]
  obtain ⟨c₃, hrun₃', -, -, hlength', hvalue₃, -⟩ := next_counting N K passes
    (fun values => if values[k + 2]? = some 1 then 0 else 1) 1 (hone₂' ▸ Int.one_pos)
  have hparts := (runsLoop_parts (c := c₃) hruns (by decide) (by decide) List.length_replicate
    ((hrun₁ 2).trans ((hrun₂ 1).trans (if_pos hzero₂.le)))
    ((hrun₁' 2).trans ((hrun₂' 1).trans (hrun₃' 0))) (hlength.trans hlength'.symm)).1
  have hget := congrArg (·[k]?) hparts
  simp only [List.getElem?_map, hout₂ k hk hpass, hvalue₃ k hk hpass, hstep₂, hstep₁, hstep₂',
    hstep₁'] at hget
  simp [LoopState.start, Carried.start, Var.content] at hget

/-- **Bodies.** The module runs the loop exactly if no carried value and no scan is the counter;
this is for loops with an iteration. -/
theorem runsLoop_iff (N K : ℕ) (passes : ℕ → Option ℕ) :
    (∀ (V : Type) (read : V → ℤ) (ofInt : ℤ → V) (m : Module V) (limit condition : V)
      (values : List V), values.length = N → Passes m N K passes → 0 < read limit →
      0 < read condition → RunsLoop read ofInt m K limit condition values) ↔
    ∀ k < N + K, passes k ≠ some 0 := by
  constructor
  · intro hruns k hk hpass
    by_cases hkN : k < N
    · exact not_runsLoop_carried hkN hpass (hruns ℤ id id _ 3 1 _ List.length_replicate
        counting_passes (by decide) (by decide))
    · obtain ⟨i, rfl⟩ := Nat.exists_eq_add_of_le (not_lt.1 hkN)
      exact not_runsLoop_scan (Nat.lt_of_add_lt_add_left hk) hpass (hruns ℤ id id _ 2 1 _
        List.length_replicate counting_passes (by decide) (by decide))
  · rintro hpasses V read ofInt m limit condition values rfl hm hlimit hcond
    exact runsLoop_of_pos hm.outputs (fun k hk => hm.passes k hk ▸ hpasses k hk) hlimit hcond

end Counter

/-! ### Both forms -/

/-- The module of a loop with a condition. -/
theorem create_while {V : Type} {op : WhileParam} {subGraph : String → Option (SubGraph V)}
    {name : String} {cond body : SubGraph V} (hname : op.cond_graph = some name)
    (hcond : subGraph name = some cond) (hbody : subGraph op.body_graph = some body)
    (inputNumber outputNumber : ℕ) : create op inputNumber outputNumber subGraph =
      some ⟨op.info cond.toInterface body.toInterface, some cond.m, body.m⟩ := by
  simp only [create, hbody, hname, hcond, Option.bind_eq_bind, Option.bind_some]
  rfl

/-- The module of a loop with a limit. -/
theorem create_loop {V : Type} {op : WhileParam} {subGraph : String → Option (SubGraph V)}
    {body : SubGraph V} (hname : op.cond_graph = none)
    (hbody : subGraph op.body_graph = some body) (inputNumber outputNumber : ℕ) :
    create op inputNumber outputNumber subGraph =
      some ⟨{ mOutputNumber := outputNumber, mBodyInputNumber := inputNumber }, none,
        body.m⟩ := by
  simp only [create, hbody, hname, Option.bind_eq_bind, Option.bind_some]
  rfl

/-- **When the module runs the loop it describes.** With a condition: exactly for sound tables. With
a limit: without an iteration exactly if there are no scans, else exactly for bodies whose carried
values and scans are not the counter. -/
theorem runs_iff (op : WhileParam) (cond body : Interface) (h : op.Consistent cond body) (N K : ℕ)
    (passes : ℕ → Option ℕ) :
    (RunsWhile op cond body ↔ op.Sound cond body) ∧
    (∀ (V : Type) (read : V → ℤ) (ofInt : ℤ → V) (m : Module V) (limit condition : V)
      (values : List V), ¬ (0 < read limit ∧ 0 < read condition) →
        (RunsLoop read ofInt m K limit condition values ↔ K = 0)) ∧
    ((∀ (V : Type) (read : V → ℤ) (ofInt : ℤ → V) (m : Module V) (limit condition : V)
        (values : List V), values.length = N → Passes m N K passes → 0 < read limit →
        0 < read condition → RunsLoop read ofInt m K limit condition values) ↔
      ∀ k < N + K, passes k ≠ some 0) :=
  ⟨runsWhile_iff h, fun _ read ofInt m => runsLoop_of_nonpos read ofInt m K,
    runsLoop_iff N K passes⟩

namespace Example

/-- A loop over `i`, which the body updates. -/
def counted : WhileParam where
  cond_graph := some "cond"
  body_graph := "body"
  aliases_inputs := [["i"]]
  aliases_outputs := ["i"]
  aliases_updates := [("n", "i")]

/-- The condition also computes `d`, which updates `x`. -/
def second : WhileParam where
  cond_graph := some "cond"
  body_graph := "body"
  aliases_inputs := [["i"], ["x"]]
  aliases_outputs := ["x"]
  aliases_updates := [("n", "i"), ("d", "x")]

theorem counted_consistent : counted.Consistent ⟨["i"], ["c"]⟩ ⟨["i"], ["n"]⟩ := by
  constructor <;> decide

theorem second_consistent : second.Consistent ⟨["i"], ["c", "d"]⟩ ⟨["i", "x"], ["n"]⟩ := by
  constructor <;> decide

theorem counted_sound : counted.Sound ⟨["i"], ["c"]⟩ ⟨["i"], ["n"]⟩ := by
  refine ⟨fun i j name hi hj => ?_, by decide, by decide⟩
  cases i with
  | zero =>
    obtain rfl : "i" = name := Option.some.inj hi
    exact hj
  | succ i => exact absurd hi (Option.some_ne_none _).symm

end Example

open Example in
/-- The loop over `i` runs, a limit of zero is right without scans, and a body with one carried
value that it computes. -/
theorem runs_counted : RunsWhile counted ⟨["i"], ["c"]⟩ ⟨["i"], ["n"]⟩ ∧
    RunsLoop id id (counting 1 0 (fun _ => none) fun _ => 1) 0 0 1 [7] ∧
    RunsLoop id id (counting 1 0 (fun _ => none) fun _ => 1) 0 2 1 [7] :=
  have hruns := runs_iff counted _ _ counted_consistent 1 0 fun _ => none
  ⟨hruns.1.2 counted_sound, (hruns.2.1 ℤ id id _ 0 1 [7] (by decide)).2 rfl,
    hruns.2.2.2 (fun _ _ => nofun) ℤ id id _ 2 1 [7] rfl counting_passes (by decide) (by decide)⟩

open Example in
/-- A second output of the condition is not taken, a scan of the counter holds its last value twice,
and without an iteration there is nothing to stack. -/
theorem not_runs :
    second.Consistent ⟨["i"], ["c", "d"]⟩ ⟨["i", "x"], ["n"]⟩ ∧
    ¬ RunsWhile second ⟨["i"], ["c", "d"]⟩ ⟨["i", "x"], ["n"]⟩ ∧
    ¬ RunsLoop id id (counting 0 1 (fun _ => some 0) fun _ => 1) 1 2 1 [] ∧
    ¬ RunsLoop id id (counting 0 1 (fun _ => none) fun _ => 1) 1 0 1 [] := by
  refine ⟨second_consistent, fun hruns => ?_, not_runsLoop_scan Nat.one_pos rfl, fun hruns => ?_⟩
  · have hfirst := first_of_runsWhile second_consistent hruns (p := ("d", "x")) (by decide)
      (by decide) (.inr (by decide))
    exact absurd hfirst (by decide)
  · exact Nat.one_ne_zero ((runsLoop_of_nonpos id id _ 1 0 1 [] (by decide)).1 hruns)

end Mnn.While
