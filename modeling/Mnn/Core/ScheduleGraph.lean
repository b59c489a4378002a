import Mathlib.Algebra.Order.Ring.Int
import Mathlib.Data.List.GetD
import Mnn.Lib.Loops
import Mnn.Lib.Saturate

/-!
# `generateScheduleGraph`

The operators of a net that a path needs (`source/core/Schedule.cpp`).

* `Net`, `Path`: operators refer to tensors by index; an optional input that is left out has a
  negative one;
* `Masks`: the masks of the tensors and operators, where an index outside of the list of tensors
  leaves nothing to go on with;
* `initial`, `visit`, `generateScheduleGraph`: the code;
* `Reaches`, `Selected`: what the path asks for;
* `generateScheduleGraph_iff`: **the operators that are asked for are returned exactly when no
  operator whose inputs are read leaves one out**.
-/

namespace Mnn.ScheduleGraph

open Lib.Saturate

/-! ### Nets and paths -/

/-- What is read of an operator; missing lists of indexes are empty. -/
structure Op where
  name : Option String := none
  inputIndexes : List ℤ := []
  outputIndexes : List ℤ := []
  deriving DecidableEq, Repr

structure Net where
  oplists : List Op
  tensorName : List String
  deriving DecidableEq, Repr

/-- `ScheduleConfig::Path::Mode`. -/
inductive Mode
  | op
  | tensor
  deriving DecidableEq, Repr

/-- `ScheduleConfig::Path`. -/
structure Path where
  inputs : List String
  outputs : List String
  mode : Mode
  deriving DecidableEq, Repr

/-- The entries of `tensorMask`. -/
inductive TensorMask
  | notSet
  | output
  | input
  deriving DecidableEq, Repr

/-- `tensorMask` and `opMask`. -/
structure Masks where
  tensor : ℕ → TensorMask := fun _ => .notSet
  op : ℕ → Bool := fun _ => false

section Code

variable (net : Net) (path : Path)

/-- The index is one of the list of tensors. -/
def Net.InRange (index : ℤ) : Prop := 0 ≤ index ∧ index < net.tensorName.length

instance (index : ℤ) : Decidable (net.InRange index) := inferInstanceAs (Decidable (_ ∧ _))

/-- Marks a tensor as output, unless it is an input. -/
def markOutput (mask : ℕ → TensorMask) (index : ℤ) : Option (ℕ → TensorMask) :=
  if net.InRange index then
    some (if mask index.toNat ≠ .input then Function.update mask index.toNat .output else mask)
  else none

/-- Marks a tensor as input. -/
def markInput (mask : ℕ → TensorMask) (index : ℤ) : Option (ℕ → TensorMask) :=
  if net.InRange index then some (Function.update mask index.toNat .input) else none

/-- The operator has one of the names. -/
def Op.NamedIn (op : Op) (names : List String) : Prop := ∃ name ∈ op.name, name ∈ names

instance (op : Op) (names : List String) : Decidable (op.NamedIn names) :=
  inferInstanceAs (Decidable (∃ name ∈ op.name, name ∈ names))

/-- An operator that is named as output. -/
def initialOutput (s : Masks) : Op × ℕ → Option Masks
  | (op, i) =>
    if op.NamedIn path.outputs then do
      let mask ← op.outputIndexes.foldlM (markOutput net) s.tensor
      let mask ← op.inputIndexes.foldlM (markOutput net) mask
      some { tensor := mask, op := Function.update s.op i true }
    else some s

/-- An operator that is named as input. -/
def initialInput (s : Masks) : Op × ℕ → Option Masks
  | (op, i) =>
    if op.NamedIn path.inputs then do
      let mask ← op.outputIndexes.foldlM (markInput net) s.tensor
      some { tensor := mask, op := Function.update s.op i true }
    else some s

/-- The initial status of one operator, in the mode for operators. -/
def initialOp (s : Masks) (p : Op × ℕ) : Option Masks := do
  let s ← initialOutput net path s p
  initialInput net path s p

/-- Set Initial Status. -/
def initial : Option Masks :=
  match path.mode with
  | .tensor => some { tensor := fun i =>
      match net.tensorName[i]? with
      | none => .notSet
      -- If both input/output, set as input
      | some name => if name ∈ path.inputs then .input else
          if name ∈ path.outputs then .output else .notSet }
  | .op => net.oplists.zipIdx.foldlM (initialOp net path) {}

/-- One operator of a sweep, and whether it was added. -/
def visitOp (s : Masks) : Op × ℕ → Option (Masks × Bool)
  | (op, i) =>
    if s.op i then some (s, false)
    else if ∀ index ∈ op.outputIndexes, net.InRange index then
      if ∃ index ∈ op.outputIndexes, s.tensor index.toNat = .output then do
        let mask ← op.inputIndexes.foldlM (markOutput net) s.tensor
        some ({ tensor := mask, op := Function.update s.op i true }, true)
      else some (s, false)
    else none

/-- The same, where nothing follows an index outside of the list. -/
def visit (s : Option Masks) (p : Op × ℕ) : Option Masks × Bool :=
  match s with
  | none => (none, false)
  | some s =>
    match visitOp net s p with
    | none => (none, true)
    | some (s, changed) => (some s, changed)

/-- `generateScheduleGraph`, with a bound for the number of sweeps: the places of the operators. -/
def generateScheduleGraph (fuel : ℕ) : Option (Option (List ℕ)) :=
  let all := List.range net.oplists.length
  -- Use Default Linear schedule
  if path.inputs = [] ∧ path.outputs = [] then some (some all)
  else (saturate (visit net) net.oplists.zipIdx fuel (initial net path)).map fun s =>
    s.map fun s => all.filter s.op

/-! ### What the path asks for -/

/-- A named input; in the mode for operators, an output of one that is named as input. -/
def InTensor (t : ℕ) : Prop :=
  match path.mode with
  | .tensor => ∃ name ∈ net.tensorName[t]?, name ∈ path.inputs
  | .op => ∃ op ∈ net.oplists, op.NamedIn path.inputs ∧ (t : ℤ) ∈ op.outputIndexes

/-- A named output; in the mode for operators, a tensor of one that is named as output. -/
def OutTensor (t : ℕ) : Prop :=
  match path.mode with
  | .tensor => ∃ name ∈ net.tensorName[t]?, name ∈ path.outputs
  | .op => ∃ op ∈ net.oplists, op.NamedIn path.outputs ∧
      ((t : ℤ) ∈ op.outputIndexes ∨ (t : ℤ) ∈ op.inputIndexes)

/-- A named output is reached from the tensor through tensors that are not named as input. -/
inductive Reaches : ℕ → Prop
  | named {t : ℕ} : OutTensor net path t → ¬ InTensor net path t → Reaches t
  | step {t t' : ℕ} {op : Op} : op ∈ net.oplists → (t : ℤ) ∈ op.inputIndexes →
      (t' : ℤ) ∈ op.outputIndexes → Reaches t' → ¬ InTensor net path t → Reaches t

/-- The operator produces a tensor from which a named output is reached. -/
def Produces (op : Op) : Prop := ∃ t : ℕ, (t : ℤ) ∈ op.outputIndexes ∧ Reaches net path t

/-- The operator is needed: it produces what is asked for, or is named itself. -/
def Selected (op : Op) : Prop :=
  Produces net path op ∨
    path.mode = .op ∧ (op.NamedIn path.inputs ∨ op.NamedIn path.outputs)

/-- The inputs of the operator are needed, too. -/
def ReadsInputs (op : Op) : Prop :=
  Produces net path op ∨ path.mode = .op ∧ op.NamedIn path.outputs

/-- Indexes are below the number of tensors, and those of outputs are not negative. -/
def Net.Valid : Prop :=
  ∀ op ∈ net.oplists, (∀ index ∈ op.outputIndexes, net.InRange index) ∧
    ∀ index ∈ op.inputIndexes, index < net.tensorName.length

instance : Decidable net.Valid := inferInstanceAs (Decidable (∀ op ∈ net.oplists, _))

end Code

/-! ### Loops over indexes -/

section Marking

variable {net : Net}

/-- The mask after a loop of `markOutput`. -/
def markOutputs (mask : ℕ → TensorMask) (l : List ℤ) : ℕ → TensorMask := fun k =>
  if mask k ≠ .input ∧ (k : ℤ) ∈ l then .output else mask k

/-- The mask after a loop of `markInput`. -/
def markInputs (mask : ℕ → TensorMask) (l : List ℤ) : ℕ → TensorMask := fun k =>
  if (k : ℤ) ∈ l then .input else mask k

theorem markOutputs_cons (mask : ℕ → TensorMask) {index : ℤ} (h : 0 ≤ index) (l : List ℤ) :
    markOutputs (if mask index.toNat ≠ .input then Function.update mask index.toNat .output
      else mask) l = markOutputs mask (index :: l) := by
  funext k
  obtain ⟨n, rfl⟩ := Int.eq_ofNat_of_zero_le h
  simp only [markOutputs, List.mem_cons, Nat.cast_inj, Int.toNat_natCast]
  by_cases hk : k = n
  · subst hk
    by_cases hin : mask k = .input
    · simp [hin]
    · simp [hin]
  · by_cases hin : mask n = .input
    · simp [hin, hk]
    · simp [hin, hk]

theorem markInputs_cons (mask : ℕ → TensorMask) {index : ℤ} (h : 0 ≤ index) (l : List ℤ) :
    markInputs (Function.update mask index.toNat .input) l = markInputs mask (index :: l) := by
  funext k
  obtain ⟨n, rfl⟩ := Int.eq_ofNat_of_zero_le h
  simp only [markInputs, List.mem_cons, Nat.cast_inj, Int.toNat_natCast]
  by_cases hk : k = n
  · simp [hk]
  · simp [hk]

theorem foldlM_markOutput (mask : ℕ → TensorMask) (l : List ℤ) :
    l.foldlM (markOutput net) mask =
      if ∀ index ∈ l, net.InRange index then some (markOutputs mask l) else none := by
  induction l generalizing mask with
  | nil =>
    rw [if_pos fun _ h => absurd h List.not_mem_nil]
    refine congrArg some (funext fun k => ?_)
    exact (if_neg fun h => absurd h.2 List.not_mem_nil).symm
  | cons index l ih =>
    rw [List.foldlM_cons, markOutput]
    by_cases h : net.InRange index
    · rw [if_pos h, Option.bind_eq_bind, Option.bind_some, ih, markOutputs_cons mask h.1]
      simp only [List.forall_mem_cons, h, true_and]
    · rw [if_neg h, if_neg fun hall => h (hall index List.mem_cons_self)]
      rfl

theorem foldlM_markInput (mask : ℕ → TensorMask) (l : List ℤ) :
    l.foldlM (markInput net) mask =
      if ∀ index ∈ l, net.InRange index then some (markInputs mask l) else none := by
  induction l generalizing mask with
  | nil =>
    rw [if_pos fun _ h => absurd h List.not_mem_nil]
    refine congrArg some (funext fun k => ?_)
    exact (if_neg List.not_mem_nil).symm
  | cons index l ih =>
    rw [List.foldlM_cons, markInput]
    by_cases h : net.InRange index
    · rw [if_pos h, Option.bind_eq_bind, Option.bind_some, ih, markInputs_cons mask h.1]
      simp only [List.forall_mem_cons, h, true_and]
    · rw [if_neg h, if_neg fun hall => h (hall index List.mem_cons_self)]
      rfl

theorem markOutputs_eq_input {mask : ℕ → TensorMask} {l : List ℤ} {k : ℕ} :
    markOutputs mask l k = .input ↔ mask k = .input := by
  rw [markOutputs]
  split_ifs with h
  · exact iff_of_false (by decide) h.1
  · exact Iff.rfl

theorem markOutputs_eq_notSet {mask : ℕ → TensorMask} {l : List ℤ} {k : ℕ} :
    markOutputs mask l k = .notSet ↔ mask k = .notSet ∧ (k : ℤ) ∉ l := by
  rw [markOutputs]
  split_ifs with h
  · exact iff_of_false (by decide) fun h' => h'.2 h.2
  · refine ⟨fun hk => ⟨hk, fun hl => h ⟨by rw [hk]; decide, hl⟩⟩, And.left⟩

theorem markInputs_eq_input {mask : ℕ → TensorMask} {l : List ℤ} {k : ℕ} :
    markInputs mask l k = .input ↔ mask k = .input ∨ (k : ℤ) ∈ l := by
  rw [markInputs]
  split_ifs with h
  · exact iff_of_true rfl (.inr h)
  · exact (or_iff_left h).symm

theorem markInputs_eq_notSet {mask : ℕ → TensorMask} {l : List ℤ} {k : ℕ} :
    markInputs mask l k = .notSet ↔ mask k = .notSet ∧ (k : ℤ) ∉ l := by
  rw [markInputs]
  split_ifs with h
  · exact iff_of_false (by decide) fun h' => h'.2 h
  · exact (and_iff_left h).symm

end Marking

/-! ### Initial status -/

section Proofs

variable {net : Net} {path : Path}

/-- The masks after the initial status of some operators. -/
structure InitialSpec (path : Path) (done : List (Op × ℕ)) (s s' : Masks) : Prop where
  input : ∀ k, s'.tensor k = .input ↔ s.tensor k = .input ∨
    ∃ p ∈ done, p.1.NamedIn path.inputs ∧ (k : ℤ) ∈ p.1.outputIndexes
  notSet : ∀ k, s'.tensor k = .notSet ↔ s.tensor k = .notSet ∧
    ∀ p ∈ done,
      (p.1.NamedIn path.outputs →
        (k : ℤ) ∉ p.1.outputIndexes ∧ (k : ℤ) ∉ p.1.inputIndexes) ∧
      (p.1.NamedIn path.inputs → (k : ℤ) ∉ p.1.outputIndexes)
  op : ∀ i, s'.op i = true ↔ s.op i = true ∨
    ∃ p ∈ done, p.2 = i ∧ (p.1.NamedIn path.inputs ∨ p.1.NamedIn path.outputs)

theorem update_op_iff {s : Masks} {i j : ℕ} :
    Function.update s.op i true j = true ↔ s.op j = true ∨ i = j := by
  by_cases h : j = i
  · simp [h]
  · simp [h, Ne.symm h]

theorem initialSpec_nil (s : Masks) : InitialSpec path [] s s := by
  refine ⟨fun k => ?_, fun k => ?_, fun i => ?_⟩
  · simp
  · simp
  · simp

theorem InitialSpec.cons {p : Op × ℕ} {done : List (Op × ℕ)} {s s₁ s₂ : Masks}
    (h : InitialSpec path [p] s s₁) (h' : InitialSpec path done s₁ s₂) :
    InitialSpec path (p :: done) s s₂ := by
  refine ⟨fun k => ?_, fun k => ?_, fun i => ?_⟩
  · rw [h'.input, h.input]
    simp only [List.exists_mem_cons_iff, List.not_mem_nil, false_and, exists_false, or_false,
      or_assoc]
  · rw [h'.notSet, h.notSet]
    simp only [List.forall_mem_cons, List.not_mem_nil, false_imp_iff, implies_true, and_true,
      and_assoc]
  · rw [h'.op, h.op]
    simp only [List.exists_mem_cons_iff, List.not_mem_nil, false_and, exists_false, or_false,
      or_assoc]

variable (path) in
/-- The initial status of an operator: what it does, and when it stays inside of the list. -/
theorem initialOp_spec (s : Masks) {p : Op × ℕ}
    (hout : ∀ index ∈ p.1.outputIndexes, net.InRange index) :
    if p.1.NamedIn path.outputs → ∀ index ∈ p.1.inputIndexes, net.InRange index then
      ∃ s', initialOp net path s p = some s' ∧ InitialSpec path [p] s s'
    else initialOp net path s p = none := by
  obtain ⟨op, i⟩ := p
  simp only [initialOp, initialOutput, initialInput, foldlM_markOutput, foldlM_markInput,
    if_pos hout, Option.bind_eq_bind, Option.bind_some]
  by_cases ho : op.NamedIn path.outputs
  · by_cases hin : ∀ index ∈ op.inputIndexes, net.InRange index
    · rw [if_pos fun _ => hin, if_pos ho, if_pos hin, Option.bind_some, Option.bind_some]
      by_cases hi : op.NamedIn path.inputs
      · rw [if_pos hi]
        refine ⟨_, rfl, fun k => ?_, fun k => ?_, fun j => ?_⟩
        · simp [markInputs_eq_input, markOutputs_eq_input, hi]
        · simp only [markInputs_eq_notSet, markOutputs_eq_notSet, List.forall_mem_singleton, ho, hi,
            true_imp_iff]
          tauto
        · simp [update_op_iff, ho, hi]
      · rw [if_neg hi]
        refine ⟨_, rfl, fun k => ?_, fun k => ?_, fun j => ?_⟩
        · simp [markOutputs_eq_input, hi]
        · simp only [markOutputs_eq_notSet, List.forall_mem_singleton, ho, hi, true_imp_iff,
            false_imp_iff, and_true, and_assoc]
        · simp [update_op_iff, ho]
    · rw [if_neg fun h => hin (h ho), if_pos ho, if_neg hin]
      rfl
  · rw [if_pos fun h => absurd h ho, if_neg ho, Option.bind_some]
    by_cases hi : op.NamedIn path.inputs
    · rw [if_pos hi]
      refine ⟨_, rfl, fun k => ?_, fun k => ?_, fun j => ?_⟩
      · simp [markInputs_eq_input, hi]
      · simp [markInputs_eq_notSet, ho, hi]
      · simp [update_op_iff, hi]
    · rw [if_neg hi]
      refine ⟨_, rfl, fun k => ?_, fun k => ?_, fun j => ?_⟩
      · simp [hi]
      · simp [ho, hi]
      · simp [ho, hi]

variable (path) in
/-- The loop over the operators. -/
theorem foldlM_initialOp (l : List (Op × ℕ)) (s : Masks)
    (hout : ∀ p ∈ l, ∀ index ∈ p.1.outputIndexes, net.InRange index) :
    if ∀ p ∈ l, p.1.NamedIn path.outputs → ∀ index ∈ p.1.inputIndexes, net.InRange index then
      ∃ s', l.foldlM (initialOp net path) s = some s' ∧ InitialSpec path l s s'
    else l.foldlM (initialOp net path) s = none := by
  induction l generalizing s with
  | nil =>
    rw [if_pos fun _ h => absurd h List.not_mem_nil]
    exact ⟨s, rfl, initialSpec_nil s⟩
  | cons p l ih =>
    obtain ⟨houtp, houtl⟩ := List.forall_mem_cons.1 hout
    have hp := initialOp_spec path s houtp
    simp only [List.forall_mem_cons, List.foldlM_cons]
    by_cases hin : p.1.NamedIn path.outputs → ∀ index ∈ p.1.inputIndexes, net.InRange index
    · rw [if_pos hin] at hp
      obtain ⟨s₁, hs₁, hspec⟩ := hp
      have hl := ih s₁ houtl
      rw [hs₁, Option.bind_eq_bind, Option.bind_some]
      by_cases hall : ∀ p ∈ l, p.1.NamedIn path.outputs → ∀ index ∈ p.1.inputIndexes,
          net.InRange index
      · rw [if_pos hall] at hl
        obtain ⟨s₂, hs₂, hspec'⟩ := hl
        rw [if_pos ⟨hin, hall⟩]
        exact ⟨s₂, hs₂, hspec.cons hspec'⟩
      · rw [if_neg hall] at hl
        rw [if_neg fun h => hall h.2]
        exact hl
    · rw [if_neg hin] at hp
      rw [if_neg fun h => hin h.1, hp]
      rfl

/-! ### What the masks say -/

/-- What holds of the masks all the time. -/
structure Inv (net : Net) (path : Path) (s : Masks) : Prop where
  input : ∀ k, s.tensor k = .input ↔ InTensor net path k
  output : ∀ k, s.tensor k = .output → Reaches net path k
  start : ∀ k, OutTensor net path k → s.tensor k ≠ .notSet
  selected : ∀ p ∈ net.oplists.zipIdx, s.op p.2 = true → Selected net path p.1
  named : path.mode = .op → ∀ p ∈ net.oplists.zipIdx,
    p.1.NamedIn path.inputs ∨ p.1.NamedIn path.outputs → s.op p.2 = true
  readOutput : path.mode = .op → ∀ p ∈ net.oplists.zipIdx, p.1.NamedIn path.outputs →
    ∀ index ∈ p.1.inputIndexes, net.InRange index
  read : ∀ p ∈ net.oplists.zipIdx, s.op p.2 = true →
    path.mode = .op ∧ p.1.NamedIn path.inputs ∨
      ∀ index ∈ p.1.inputIndexes, net.InRange index ∧ s.tensor index.toNat ≠ .notSet

theorem Reaches.not_inTensor {t : ℕ} (h : Reaches net path t) : ¬ InTensor net path t := by
  cases h with
  | named _ h => exact h
  | step _ _ _ _ h => exact h

theorem mem_oplists {p : Op × ℕ} (hp : p ∈ net.oplists.zipIdx) : p.1 ∈ net.oplists :=
  List.mem_of_getElem? (List.mem_zipIdx_iff_getElem?.1 hp)

theorem exists_mem_zipIdx {op : Op} (h : op ∈ net.oplists) :
    ∃ p ∈ net.oplists.zipIdx, p.1 = op := by
  obtain ⟨i, hi, rfl⟩ := List.getElem_of_mem h
  exact ⟨(_, i), List.mem_zipIdx_iff_getElem?.2 (List.getElem?_eq_getElem hi), rfl⟩

theorem eq_output {m : TensorMask} (h : m ≠ .notSet) (h' : m ≠ .input) : m = .output := by
  cases m with
  | notSet => exact absurd rfl h
  | output => rfl
  | input => exact absurd rfl h'

/-- The tensors and operators that are named are marked at first, and no others. -/
theorem inv_of_initial {s : Masks} (hinput : ∀ k, s.tensor k = .input ↔ InTensor net path k)
    (hnotSet : ∀ k, s.tensor k = .notSet ↔ ¬ InTensor net path k ∧ ¬ OutTensor net path k)
    (hop : ∀ p ∈ net.oplists.zipIdx, s.op p.2 = true ↔
      path.mode = .op ∧ (p.1.NamedIn path.inputs ∨ p.1.NamedIn path.outputs))
    (hread : path.mode = .op → ∀ p ∈ net.oplists.zipIdx, p.1.NamedIn path.outputs →
      ∀ index ∈ p.1.inputIndexes, net.InRange index) : Inv net path s where
  input := hinput
  output k hk := by
    have hnot : ¬ InTensor net path k := fun h => by
      rw [(hinput k).2 h] at hk
      exact TensorMask.noConfusion hk
    refine .named (not_not.1 fun hout => ?_) hnot
    rw [(hnotSet k).2 ⟨hnot, hout⟩] at hk
    exact TensorMask.noConfusion hk
  start k hk h := ((hnotSet k).1 h).2 hk
  selected p hp h := .inr ((hop p hp).1 h)
  named hmode p hp h := (hop p hp).2 ⟨hmode, h⟩
  readOutput := hread
  read p hp h := by
    obtain ⟨hmode, hin | hout⟩ := (hop p hp).1 h
    · exact .inl ⟨hmode, hin⟩
    · refine .inr fun index hindex => ?_
      have hrange := hread hmode p hp hout index hindex
      refine ⟨hrange, fun h => ((hnotSet _).1 h).2 ?_⟩
      rw [OutTensor, hmode]
      refine ⟨p.1, mem_oplists hp, hout, .inr ?_⟩
      rwa [Int.toNat_of_nonneg hrange.1]

theorem inv_initial_tensor (h : path.mode = .tensor) :
    ∃ s, initial net path = some s ∧ Inv net path s := by
  have hmode : path.mode ≠ .op := by rw [h]; decide
  rw [initial, h]
  refine ⟨_, rfl, inv_of_initial (fun k => ?_) (fun k => ?_) (fun p _ => ?_)
    fun hop => absurd hop hmode⟩
  · rw [InTensor, h]
    cases hname : net.tensorName[k]? with
    | none => simp [hname]
    | some name =>
      simp only [hname, Option.mem_some_iff, exists_eq_left']
      split_ifs <;> simp_all
  · rw [InTensor, OutTensor, h]
    cases hname : net.tensorName[k]? with
    | none => simp [hname]
    | some name =>
      simp only [hname, Option.mem_some_iff, exists_eq_left']
      split_ifs <;> simp_all
  · exact iff_of_false Bool.false_ne_true fun hop => hmode hop.1

theorem inv_initial_op (h : path.mode = .op) (hnet : net.Valid) :
    if ∀ p ∈ net.oplists.zipIdx, p.1.NamedIn path.outputs → ∀ index ∈ p.1.inputIndexes,
        net.InRange index then
      ∃ s, initial net path = some s ∧ Inv net path s
    else initial net path = none := by
  have hspec := foldlM_initialOp path net.oplists.zipIdx {}
    fun p hp => (hnet p.1 (mem_oplists hp)).1
  have hex : ∀ P : Op → Prop, (∃ op ∈ net.oplists, P op) ↔ ∃ p ∈ net.oplists.zipIdx, P p.1 := by
    refine fun P => ⟨fun ⟨op, hop, hP⟩ => ?_, fun ⟨p, hp, hP⟩ => ⟨p.1, mem_oplists hp, hP⟩⟩
    obtain ⟨p, hp, rfl⟩ := exists_mem_zipIdx hop
    exact ⟨p, hp, hP⟩
  rw [initial, h]
  by_cases hin : ∀ p ∈ net.oplists.zipIdx, p.1.NamedIn path.outputs → ∀ index ∈ p.1.inputIndexes,
      net.InRange index
  · rw [if_pos hin] at hspec ⊢
    obtain ⟨s, hs, hinput, hnotSet, hop⟩ := hspec
    refine ⟨s, hs, inv_of_initial (fun k => ?_) (fun k => ?_) (fun p hp => ?_) fun _ => hin⟩
    · rw [hinput, InTensor, h]
      show _ ∨ _ ↔ ∃ op ∈ net.oplists, _
      rw [hex]
      exact or_iff_right TensorMask.noConfusion
    · rw [hnotSet, InTensor, OutTensor, h]
      show _ ∧ _ ↔ ¬ (∃ op ∈ net.oplists, _) ∧ ¬ ∃ op ∈ net.oplists, _
      rw [hex, hex]
      push Not
      rw [← forall₂_and]
      refine (and_iff_right rfl).trans (forall₂_congr fun p _ => ?_)
      tauto
    · rw [hop]
      refine (or_iff_right Bool.false_ne_true).trans ?_
      constructor
      · rintro ⟨q, hq, heq, hnamed⟩
        obtain rfl := Lib.eq_of_mem_zipIdx hq hp heq
        exact ⟨h, hnamed⟩
      · exact fun hnamed => ⟨p, hp, rfl, hnamed.2⟩
  · rw [if_neg hin] at hspec ⊢
    exact hspec

/-! ### Sweeps -/

/-- Every input that is needed is there. -/
def NoneLeftOut (net : Net) (path : Path) : Prop :=
  ∀ op ∈ net.oplists, ReadsInputs net path op → ∀ index ∈ op.inputIndexes, 0 ≤ index

/-- What a visit does: nothing, or an operator is added and its inputs are marked. -/
theorem visitOp_cases (hnet : net.Valid) (s : Masks) {p : Op × ℕ} (hp : p ∈ net.oplists.zipIdx) :
    (s.op p.2 = true ∨ ∀ t : ℕ, (t : ℤ) ∈ p.1.outputIndexes → s.tensor t ≠ .output) ∧
        visitOp net s p = some (s, false) ∨
      (s.op p.2 = false ∧ ∃ t : ℕ, (t : ℤ) ∈ p.1.outputIndexes ∧ s.tensor t = .output) ∧
        visitOp net s p = if ∀ index ∈ p.1.inputIndexes, net.InRange index then
          some ({ tensor := markOutputs s.tensor p.1.inputIndexes
                  op := Function.update s.op p.2 true }, true)
          else none := by
  have hout := (hnet p.1 (mem_oplists hp)).1
  obtain ⟨op, i⟩ := p
  have hany : (∃ index ∈ op.outputIndexes, s.tensor index.toNat = .output) ↔
      ∃ t : ℕ, (t : ℤ) ∈ op.outputIndexes ∧ s.tensor t = .output := by
    constructor
    · rintro ⟨index, hindex, hmask⟩
      refine ⟨index.toNat, ?_, hmask⟩
      rwa [Int.toNat_of_nonneg (hout index hindex).1]
    · exact fun ⟨t, ht, hmask⟩ => ⟨t, ht, hmask⟩
  rw [visitOp]
  cases hop : s.op i with
  | true => exact .inl ⟨.inl rfl, rfl⟩
  | false =>
    rw [if_neg Bool.false_ne_true, if_pos hout]
    by_cases hex : ∃ index ∈ op.outputIndexes, s.tensor index.toNat = .output
    · refine .inr ⟨⟨rfl, hany.1 hex⟩, ?_⟩
      rw [if_pos hex, foldlM_markOutput]
      split_ifs <;> rfl
    · exact .inl ⟨.inr fun t ht hmask => hex (hany.2 ⟨t, ht, hmask⟩), if_neg hex⟩

/-- An operator whose output is reached is added. -/
theorem Inv.add {s : Masks} (hs : Inv net path s) {p : Op × ℕ} (hp : p ∈ net.oplists.zipIdx)
    (hproduces : Produces net path p.1) (hin : ∀ index ∈ p.1.inputIndexes, net.InRange index) :
    Inv net path { tensor := markOutputs s.tensor p.1.inputIndexes
                   op := Function.update s.op p.2 true } where
  input k := markOutputs_eq_input.trans (hs.input k)
  output k hk := by
    unfold markOutputs at hk
    dsimp only at hk
    split_ifs at hk with h
    · obtain ⟨t', ht', hreach⟩ := hproduces
      exact .step (mem_oplists hp) h.2 ht' hreach fun hin => h.1 ((hs.input k).2 hin)
    · exact hs.output k hk
  start k hk h := hs.start k hk (markOutputs_eq_notSet.1 h).1
  selected q hq h := by
    rcases update_op_iff.1 h with h | h
    · exact hs.selected q hq h
    · obtain rfl := Lib.eq_of_mem_zipIdx hp hq h
      exact .inl hproduces
  named hmode q hq h := update_op_iff.2 (.inl (hs.named hmode q hq h))
  readOutput := hs.readOutput
  read q hq h := by
    rcases update_op_iff.1 h with h | h
    · refine (hs.read q hq h).imp_right fun h index hindex => ⟨(h index hindex).1, fun hnot => ?_⟩
      exact (h index hindex).2 (markOutputs_eq_notSet.1 hnot).1
    · obtain rfl := Lib.eq_of_mem_zipIdx hp hq h
      refine .inr fun index hindex => ⟨hin index hindex, fun hnot => ?_⟩
      refine (markOutputs_eq_notSet.1 hnot).2 ?_
      rwa [Int.toNat_of_nonneg (hin index hindex).1]

/-- What holds of the masks, and that there are some when no input is left out. -/
def Ok (net : Net) (path : Path) (s : Option Masks) : Prop :=
  (NoneLeftOut net path → s.isSome) ∧ ∀ s' ∈ s, Inv net path s'

theorem ok_visit (hnet : net.Valid) (s : Option Masks) {p : Op × ℕ}
    (hp : p ∈ net.oplists.zipIdx) (hs : Ok net path s) : Ok net path (visit net s p).1 := by
  cases s with
  | none => exact hs
  | some s =>
    have hinv := hs.2 s rfl
    rw [visit]
    obtain ⟨-, h⟩ | ⟨⟨-, t, ht, hmask⟩, h⟩ := visitOp_cases hnet s hp
    · rw [h]
      exact hs
    · have hproduces : Produces net path p.1 := ⟨t, ht, hinv.output t hmask⟩
      rw [h]
      by_cases hin : ∀ index ∈ p.1.inputIndexes, net.InRange index
      · rw [if_pos hin]
        refine ⟨fun _ => rfl, fun s' hs' => ?_⟩
        obtain rfl := Option.mem_some_iff.1 hs'
        exact hinv.add hp hproduces hin
      · rw [if_neg hin]
        refine ⟨fun hnone => (hin fun index hindex => ⟨?_, ?_⟩).elim, fun s' hs' => ?_⟩
        · exact hnone p.1 (mem_oplists hp) (.inl hproduces) index hindex
        · exact (hnet p.1 (mem_oplists hp)).2 index hindex
        · exact absurd hs' (Option.not_mem_none s')

theorem honest_visit (hnet : net.Valid) : Honest (visit net) net.oplists.zipIdx := by
  intro s p hp hfalse
  cases s with
  | none => rfl
  | some s =>
    rw [visit] at hfalse ⊢
    obtain ⟨-, h⟩ | ⟨-, h⟩ := visitOp_cases hnet s hp
    · rw [h]
    · rw [h] at hfalse
      split_ifs at hfalse

/-- The operators that are not added yet; there is one more step down, out of the list. -/
def remaining (net : Net) : Option Masks → ℕ
  | none => 0
  | some s => pending net.oplists.length (fun i => s.op i = true) + 1

theorem remaining_visit (hnet : net.Valid) (s : Option Masks) {p : Op × ℕ}
    (hp : p ∈ net.oplists.zipIdx) (h : (visit net s p).2 = true) :
    remaining net (visit net s p).1 < remaining net s := by
  cases s with
  | none => exact absurd h Bool.false_ne_true
  | some s =>
    rw [visit] at h ⊢
    obtain ⟨-, heq⟩ | ⟨⟨hop, -⟩, heq⟩ := visitOp_cases hnet s hp
    · rw [heq] at h
      exact absurd h Bool.false_ne_true
    · rw [heq]
      split_ifs
      · refine Nat.succ_lt_succ (pending_lt ?_ (fun j hj => update_op_iff.2 (.inl hj)) ?_
          (update_op_iff.2 (.inr rfl)))
        · exact (List.getElem?_eq_some_iff.1 (List.mem_zipIdx_iff_getElem?.1 hp)).1
        · rw [hop]
          exact Bool.false_ne_true
      · exact Nat.succ_pos _

/-- When no visit changes anything, all that is needed has been found. -/
theorem Inv.selected_iff {s : Masks} (hs : Inv net path s)
    (hdone : ∀ p ∈ net.oplists.zipIdx, ∀ t : ℕ, (t : ℤ) ∈ p.1.outputIndexes →
      s.tensor t = .output → s.op p.2 = true) {p : Op × ℕ} (hp : p ∈ net.oplists.zipIdx) :
    s.op p.2 = true ↔ Selected net path p.1 := by
  have hreach : ∀ t, Reaches net path t → s.tensor t = .output := by
    intro t ht
    induction ht with
    | named hout hnot =>
      exact eq_output (hs.start _ hout) fun h => hnot ((hs.input _).1 h)
    | @step t t' op hop hin hout hreach hnot ih =>
      obtain ⟨q, hq, rfl⟩ := exists_mem_zipIdx hop
      rcases hs.read q hq (hdone q hq t' hout ih) with ⟨hmode, hnamed⟩ | hread
      · -- its outputs are named inputs, so that nothing is reached through them
        refine absurd ?_ hreach.not_inTensor
        rw [InTensor, hmode]
        exact ⟨q.1, hop, hnamed, hout⟩
      · exact eq_output (hread _ hin).2 fun h => hnot ((hs.input _).1 h)
  refine ⟨hs.selected p hp, ?_⟩
  rintro (⟨t, ht, hproduces⟩ | ⟨hmode, hnamed⟩)
  · exact hdone p hp t ht (hreach t hproduces)
  · exact hs.named hmode p hp hnamed

/-- Where the masks are found, nothing was left out. -/
theorem Inv.noneLeftOut {s : Masks} (hs : Inv net path s)
    (hselected : ∀ p ∈ net.oplists.zipIdx, s.op p.2 = true ↔ Selected net path p.1) :
    NoneLeftOut net path := by
  intro op hop hreads index hindex
  obtain ⟨p, hp, rfl⟩ := exists_mem_zipIdx hop
  rcases hreads with hproduces | ⟨hmode, hnamed⟩
  · rcases hs.read p hp ((hselected p hp).2 (.inl hproduces)) with ⟨hmode, hnamed⟩ | hread
    · obtain ⟨t, ht, hreach⟩ := hproduces
      refine absurd ?_ hreach.not_inTensor
      rw [InTensor, hmode]
      exact ⟨p.1, hop, hnamed, ht⟩
    · exact (hread index hindex).1.1
  · exact (hs.readOutput hmode p hp hnamed index hindex).1

theorem ok_initial (hnet : net.Valid) : Ok net path (initial net path) := by
  cases h : path.mode with
  | tensor =>
    obtain ⟨s, hs, hinv⟩ : ∃ s, initial net path = some s ∧ Inv net path s :=
      inv_initial_tensor h
    rw [hs]
    refine ⟨fun _ => rfl, fun s' hs' => ?_⟩
    obtain rfl := Option.mem_some_iff.1 hs'
    exact hinv
  | op =>
    have hinitial := inv_initial_op h hnet
    split_ifs at hinitial with hin
    · obtain ⟨s, hs, hinv⟩ := hinitial
      rw [hs]
      refine ⟨fun _ => rfl, fun s' hs' => ?_⟩
      obtain rfl := Option.mem_some_iff.1 hs'
      exact hinv
    · rw [hinitial]
      refine ⟨fun hnone => (hin fun p hp hnamed index hindex => ⟨?_, ?_⟩).elim, fun s' hs' => ?_⟩
      · exact hnone p.1 (mem_oplists hp) (.inr ⟨h, hnamed⟩) index hindex
      · exact (hnet p.1 (mem_oplists hp)).2 index hindex
      · exact absurd hs' (Option.not_mem_none s')

/-- **Path scheduling.** The search ends, stays inside of the list of tensors and returns the needed
operators, each once and in the order of the net, exactly when no operator whose inputs are needed
leaves one out. -/
theorem generateScheduleGraph_iff (hnet : net.Valid) (hpath : path.inputs ≠ [] ∨ path.outputs ≠ [])
    {fuel : ℕ} (hfuel : net.oplists.length + 1 < fuel) :
    (∃ ops, generateScheduleGraph net path fuel = some (some ops) ∧ ops.Pairwise (· < ·) ∧
      ∀ i, i ∈ ops ↔ ∃ op, net.oplists[i]? = some op ∧ Selected net path op) ↔
      NoneLeftOut net path := by
  have hbound : remaining net (initial net path) < fuel := by
    cases initial net path with
    | none => exact Nat.zero_lt_of_lt hfuel
    | some s => exact (Nat.succ_le_succ (pending_le _ _)).trans_lt hfuel
  obtain ⟨s, hsat, hok, hdone⟩ := saturate_spec (honest_visit hnet) (Ok net path) (remaining net)
    (fun s p hp hs => ok_visit hnet s hp hs) (fun s p hp _ h => remaining_visit hnet s hp h)
    (ok_initial hnet) hbound
  have hrun : generateScheduleGraph net path fuel =
      some (s.map fun s => (List.range net.oplists.length).filter s.op) := by
    rw [generateScheduleGraph, if_neg fun h => hpath.elim (· h.1) (· h.2), hsat]
    rfl
  rw [hrun]
  cases s with
  | none =>
    refine iff_of_false ?_ fun hnone => Bool.false_ne_true (hok.1 hnone)
    rintro ⟨ops, h, -⟩
    exact Option.some_ne_none _ (Option.some.inj h).symm
  | some s =>
    have hinv := hok.2 s rfl
    have hselected : ∀ p ∈ net.oplists.zipIdx, s.op p.2 = true ↔ Selected net path p.1 := by
      refine fun p hp => hinv.selected_iff (fun q hq t ht hmask => ?_) hp
      obtain ⟨hor, -⟩ | ⟨-, h⟩ := visitOp_cases hnet s hq
      · exact hor.resolve_right fun hnot => hnot t ht hmask
      · have hq' := hdone q hq
        rw [visit, h] at hq'
        split_ifs at hq'
        · exact Bool.noConfusion (congrArg Prod.snd hq' : true = false)
        · exact Bool.noConfusion (congrArg Prod.snd hq' : true = false)
    refine iff_of_true ⟨_, rfl, ?_, fun i => ?_⟩ (hinv.noneLeftOut hselected)
    · exact List.pairwise_lt_range.filter _
    · rw [List.mem_filter, List.mem_range]
      constructor
      · rintro ⟨hlt, hop⟩
        have hget := List.getElem?_eq_getElem hlt
        exact ⟨_, hget, (hselected (_, i) (List.mem_zipIdx_iff_getElem?.2 hget)).1 hop⟩
      · rintro ⟨op, hget, hsel⟩
        exact ⟨(List.getElem?_eq_some_iff.1 hget).1,
          (hselected (op, i) (List.mem_zipIdx_iff_getElem?.2 hget)).2 hsel⟩

end Proofs

/-- Two operators of three lead from `x` to `y`. -/
theorem generateScheduleGraph_iff_chain :
    let net : Net :=
      ⟨[⟨none, [0], [1]⟩, ⟨none, [0, 1], [2]⟩, ⟨none, [1], [3]⟩], ["x", "u", "y", "z"]⟩
    let path : Path := ⟨["x"], ["y"], .tensor⟩
    (∃ ops, generateScheduleGraph net path 5 = some (some ops) ∧ ops.Pairwise (· < ·) ∧
      ∀ i, i ∈ ops ↔ ∃ op, net.oplists[i]? = some op ∧ Selected net path op) := by
  intro net path
  have hnet : net.Valid := by decide +revert
  have hin : ∀ op ∈ net.oplists, ∀ index ∈ op.inputIndexes, 0 ≤ index := by decide +revert
  exact (generateScheduleGraph_iff hnet (.inl (List.cons_ne_nil _ _)) (Nat.lt_succ_self 4)).2
    fun op hop _ => hin op hop

/-- An operator without its first input, which is optional. -/
theorem generateScheduleGraph_optional :
    let net : Net := ⟨[⟨none, [-1, 0], [1]⟩], ["x", "y"]⟩
    let path : Path := ⟨["x"], ["y"], .tensor⟩
    ¬ ∃ fuel ops, generateScheduleGraph net path fuel = some (some ops) := by
  intro net path
  rintro ⟨fuel, ops, h⟩
  match fuel with
  | 0 | 1 => exact Option.some_ne_none (some ops) h.symm
  | fuel + 2 =>
    have hnone : generateScheduleGraph net path (fuel + 2) = some none := rfl
    rw [hnone] at h
    exact absurd (Option.some.inj h) (Option.some_ne_none ops).symm

end Mnn.ScheduleGraph
