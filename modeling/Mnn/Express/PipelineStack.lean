import Mnn.Express.PipelineInterface

/-!
# The stack of a module

* `constSlots_eq`, `SlotInv`, `addSlot_fresh`: the slots; `slots_inj`: **distinct tensors have
  distinct slots**, where distinct inputs have distinct names;
* `onStack`: what the stack holds for a tensor; `onStack_zero`, `onStack_succ`: how the submodules
  change it.
-/

namespace Mnn.PipelineModule

open Lib.Dataflow

variable {net : Net} {inputs outputs : List String}

/-! ### Slots -/

theorem inputSlots_eq_none_iff {t : ℤ} :
    inputSlots net inputs t = none ↔ t ∉ inputIndexes net inputs := by
  rw [inputSlots, inputIndexes, List.mem_filter, mem_tensors, decide_eq_true_iff]
  split
  · next h => simp [h]
  · next h => simp [h]

theorem inputSlots_eq_some {t : ℤ} {k : ℕ} (h : inputSlots net inputs t = some k) :
    k < inputs.length ∧ inputs[k]? = some (net.nameAt t) ∧ t ∈ inputIndexes net inputs := by
  have hmem : t ∈ inputIndexes net inputs := by
    by_contra hnot
    rw [inputSlots_eq_none_iff.2 hnot] at h
    cases h
  rw [inputSlots] at h
  split at h
  · obtain ⟨hlt, hget, -⟩ := List.idxOf?_eq_some_iff.1 h
    exact ⟨hlt, by rw [List.getElem?_eq_getElem hlt, hget], hmem⟩
  · cases h

theorem foldl_insert (l : List ℤ) (start : ℕ) (m : StackMap) (t : ℤ) :
    ((l.zipIdx start).foldl (fun stackMap p => StackMap.insert stackMap p.1 p.2) m) t =
      match m t with
      | some s => some s
      | none => if t ∈ l then some (start + l.idxOf t) else none := by
  induction l generalizing start m with
  | nil => cases hm : m t <;> simp [hm]
  | cons u l ih =>
    rw [List.zipIdx_cons, List.foldl_cons, ih]
    have hinsert : StackMap.insert m u start t =
        match m t with
        | some s => some s
        | none => if t = u then some start else none := by
      rw [StackMap.insert]
      by_cases htu : t = u
      · subst htu
        cases hm : m t with
        | none => rw [if_pos rfl, Function.update_self, if_pos rfl]
        | some s => rw [if_neg (by simp), hm]
      · split
        · rw [Function.update_of_ne htu]
          cases m t <;> simp
        · cases m t <;> simp
    rw [hinsert]
    cases hm : m t with
    | some s => rfl
    | none =>
      by_cases htu : t = u
      · subst htu
        simp
      · simp only [htu, if_false, List.mem_cons, false_or, List.idxOf_cons_ne _ (Ne.symm htu)]
        split
        · rw [Nat.add_right_comm, Nat.add_assoc]
        · rfl

/-- The constants. -/
abbrev Net.consts (net : Net) : List ℤ := net.tensors.filter net.isConst

theorem constSlots_eq (t : ℤ) : constSlots net inputs t =
    match inputSlots net inputs t with
    | some s => some s
    | none => if t ∈ net.consts then some (inputs.length + net.consts.idxOf t) else none :=
  foldl_insert net.consts inputs.length (inputSlots net inputs) t

/-- Slots are distinct, and below the size. -/
structure SlotInv (p : StackMap × ℕ) : Prop where
  inj : ∀ t t' s, p.1 t = some s → p.1 t' = some s → t = t'
  lt : ∀ t s, p.1 t = some s → s < p.2

theorem constSlots_inv (hnames : ∀ t ∈ inputIndexes net inputs, ∀ t' ∈ inputIndexes net inputs,
    net.nameAt t = net.nameAt t' → t = t') :
    SlotInv (constSlots net inputs, inputs.length + net.consts.length) := by
  have hcase : ∀ t s, constSlots net inputs t = some s →
      inputSlots net inputs t = some s ∧ s < inputs.length ∨
        t ∈ net.consts ∧ s = inputs.length + net.consts.idxOf t := by
    intro t s h
    rw [constSlots_eq] at h
    cases hin : inputSlots net inputs t with
    | some k =>
      rw [hin] at h
      obtain rfl := Option.some.inj h
      exact .inl ⟨rfl, (inputSlots_eq_some hin).1⟩
    | none =>
      rw [hin] at h
      simp only at h
      split at h
      · next hmem => exact .inr ⟨hmem, (Option.some.inj h).symm⟩
      · cases h
  refine ⟨fun t t' s h h' => ?_, fun t s h => ?_⟩
  · rcases hcase t s h with ⟨hin, hlt⟩ | ⟨hmem, rfl⟩
    · rcases hcase t' s h' with ⟨hin', -⟩ | ⟨-, rfl⟩
      · obtain ⟨-, hname, hmem⟩ := inputSlots_eq_some hin
        obtain ⟨-, hname', hmem'⟩ := inputSlots_eq_some hin'
        exact hnames t hmem t' hmem' (Option.some.inj (hname.symm.trans hname'))
      · omega
    · rcases hcase t' _ h' with ⟨-, hlt'⟩ | ⟨-, heq⟩
      · omega
      · exact (List.idxOf_inj hmem).1 (by omega)
  · rcases hcase t s h with ⟨-, hlt⟩ | ⟨hmem, rfl⟩
    · exact Nat.lt_add_right _ hlt
    · have := List.idxOf_lt_length_of_mem hmem
      exact Nat.add_lt_add_left this _

section AddSlot

variable {p : StackMap × ℕ} {u t : ℤ} {s : ℕ}

theorem addSlot_keeps (h : p.1 t = some s) : (addSlot p u).1 t = some s := by
  rw [addSlot]
  split
  · next hu =>
    have hne : t ≠ u := fun heq => by rw [heq, hu] at h; cases h
    exact (Function.update_of_ne hne _ _).trans h
  · exact h

theorem addSlot_ne_none (p : StackMap × ℕ) (u : ℤ) : (addSlot p u).1 u ≠ none := by
  rw [addSlot]
  split
  · simp
  · next hu => exact hu

/-- Only `u` can be new, and its slot is the next one. -/
theorem addSlot_fresh (h : (addSlot p u).1 t = some s) (hnone : p.1 t = none) :
    t = u ∧ s = p.2 := by
  rw [addSlot] at h
  split at h
  · by_cases htu : t = u
    · rw [htu] at h
      simp only [Function.update_self, Option.some.injEq] at h
      exact ⟨htu, h.symm⟩
    · simp only [Function.update_of_ne htu] at h
      exact absurd (h.symm.trans hnone) (by simp)
  · exact absurd (h.symm.trans hnone) (by simp)

theorem le_addSlot (p : StackMap × ℕ) (u : ℤ) : p.2 ≤ (addSlot p u).2 := by
  rw [addSlot]
  split
  · exact Nat.le_succ _
  · exact le_rfl

theorem SlotInv.add (h : SlotInv p) (u : ℤ) : SlotInv (addSlot p u) := by
  refine ⟨fun t t' s ht ht' => ?_, fun t s ht => ?_⟩
  · cases hp : p.1 t with
    | some s₁ =>
      obtain rfl := Option.some.inj ((addSlot_keeps hp).symm.trans ht)
      cases hp' : p.1 t' with
      | some s₂ =>
        obtain rfl := Option.some.inj ((addSlot_keeps hp').symm.trans ht')
        exact h.inj t t' _ hp hp'
      | none =>
        obtain ⟨-, rfl⟩ := addSlot_fresh ht' hp'
        exact absurd (h.lt t _ hp) (lt_irrefl _)
    | none =>
      obtain ⟨rfl, rfl⟩ := addSlot_fresh ht hp
      cases hp' : p.1 t' with
      | some s₂ =>
        obtain rfl := Option.some.inj ((addSlot_keeps hp').symm.trans ht')
        exact absurd (h.lt t' _ hp') (lt_irrefl _)
      | none => exact (addSlot_fresh ht' hp').1.symm
  · cases hp : p.1 t with
    | some s₁ =>
      obtain rfl := Option.some.inj ((addSlot_keeps hp).symm.trans ht)
      exact (h.lt t _ hp).trans_le (le_addSlot p u)
    | none =>
      obtain ⟨rfl, rfl⟩ := addSlot_fresh ht hp
      rw [addSlot, if_pos hp]
      exact Nat.lt_succ_self _

/-! The loop over the inputs and outputs of the submodules. -/

theorem foldl_addSlot_keeps (ts : List ℤ) (h : p.1 t = some s) :
    (ts.foldl addSlot p).1 t = some s := by
  induction ts generalizing p with
  | nil => exact h
  | cons u ts ih => exact ih (addSlot_keeps h)

theorem foldl_addSlot_ne_none {ts : List ℤ} (ht : t ∈ ts) : (ts.foldl addSlot p).1 t ≠ none := by
  induction ts generalizing p with
  | nil => exact absurd ht List.not_mem_nil
  | cons u ts ih =>
    rcases List.mem_cons.1 ht with rfl | ht
    · obtain ⟨s, hs⟩ := Option.ne_none_iff_exists'.1 (addSlot_ne_none p t)
      rw [List.foldl_cons, foldl_addSlot_keeps ts hs]
      exact Option.some_ne_none s
    · exact ih ht

theorem foldl_addSlot_fresh {ts : List ℤ} (h : (ts.foldl addSlot p).1 t = some s)
    (hnone : p.1 t = none) : t ∈ ts ∧ p.2 ≤ s := by
  induction ts generalizing p with
  | nil => exact absurd (h.symm.trans hnone) (by simp)
  | cons u ts ih =>
    cases hp : (addSlot p u).1 t with
    | none =>
      obtain ⟨hmem, hge⟩ := ih h hp
      exact ⟨List.mem_cons_of_mem u hmem, (le_addSlot p u).trans hge⟩
    | some s' =>
      obtain ⟨rfl, rfl⟩ := addSlot_fresh hp hnone
      have hs := foldl_addSlot_keeps ts hp
      exact ⟨List.mem_cons_self, (Option.some.inj (hs.symm.trans h)).le⟩

theorem le_foldl_addSlot (ts : List ℤ) (p : StackMap × ℕ) : p.2 ≤ (ts.foldl addSlot p).2 := by
  induction ts generalizing p with
  | nil => exact le_rfl
  | cons u ts ih => exact (le_addSlot p u).trans (ih (addSlot p u))

theorem SlotInv.foldl (h : SlotInv p) (ts : List ℤ) : SlotInv (ts.foldl addSlot p) := by
  induction ts generalizing p with
  | nil => exact h
  | cons u ts ih => exact ih (h.add u)

end AddSlot

section Slots

variable {infos : List SubModuleInfo}

theorem slots_inj (hnames : ∀ t ∈ inputIndexes net inputs, ∀ t' ∈ inputIndexes net inputs,
    net.nameAt t = net.nameAt t' → t = t') (infos : List SubModuleInfo) :
    SlotInv (slots net inputs infos) :=
  (constSlots_inv hnames).foldl _

theorem slots_ne_none {m : SubModuleInfo} (hm : m ∈ infos) {t : ℤ} (ht : t ∈ m.inputs ++ m.outputs) :
    (slots net inputs infos).1 t ≠ none :=
  foldl_addSlot_ne_none (List.mem_flatMap.2 ⟨m, hm, ht⟩)

theorem slots_of_constSlots {t : ℤ} {s : ℕ} (h : constSlots net inputs t = some s) :
    (slots net inputs infos).1 t = some s :=
  foldl_addSlot_keeps _ h

/-- Where the slots of inputs and constants are, and that of others. -/
theorem slots_cases {t : ℤ} {s : ℕ} (h : (slots net inputs infos).1 t = some s) :
    inputSlots net inputs t = some s ∨ inputSlots net inputs t = none ∧
      (t ∈ net.consts ∧ s = inputs.length + net.consts.idxOf t ∨
        t ∉ net.consts ∧ inputs.length + net.consts.length ≤ s ∧
          ∃ m ∈ infos, t ∈ m.inputs ++ m.outputs) := by
  cases hc : constSlots net inputs t with
  | some s' =>
    obtain rfl := Option.some.inj ((slots_of_constSlots hc).symm.trans h)
    rw [constSlots_eq] at hc
    cases hin : inputSlots net inputs t with
    | some k =>
      rw [hin] at hc
      exact .inl hc
    | none =>
      rw [hin] at hc
      simp only at hc
      split at hc
      · next hmem => exact .inr ⟨rfl, .inl ⟨hmem, (Option.some.inj hc).symm⟩⟩
      · cases hc
  | none =>
    obtain ⟨hmem, hle⟩ := foldl_addSlot_fresh h hc
    rw [constSlots_eq] at hc
    cases hin : inputSlots net inputs t with
    | some k =>
      rw [hin] at hc
      cases hc
    | none =>
      rw [hin] at hc
      simp only at hc
      split at hc
      · cases hc
      · next hnot => exact .inr ⟨rfl, .inr ⟨hnot, hle, List.mem_flatMap.1 hmem⟩⟩

theorem slots_of_inputSlots {t : ℤ} {k : ℕ} (h : inputSlots net inputs t = some k) :
    (slots net inputs infos).1 t = some k :=
  slots_of_constSlots (by rw [constSlots_eq, h])

theorem slots_of_const {t : ℤ} (h : t ∈ net.consts) : (slots net inputs infos).1 t ≠ none := by
  have hc : constSlots net inputs t ≠ none := by
    rw [constSlots_eq]
    cases inputSlots net inputs t with
    | some s => exact Option.some_ne_none s
    | none => simp [h]
  obtain ⟨s, hs⟩ := Option.ne_none_iff_exists'.1 hc
  rw [slots_of_constSlots hs]
  exact Option.some_ne_none s

theorem size_le (net : Net) (inputs : List String) (infos : List SubModuleInfo) :
    inputs.length + net.consts.length ≤ (slots net inputs infos).2 :=
  le_foldl_addSlot _ (constSlots net inputs, inputs.length + net.consts.length)

end Slots

/-! ### The first stack -/

section Stack

variable {V : Type}

/-- Writes one behind another. -/
theorem foldl_set_zipIdx {α : Type} (l : List α) (start off : ℕ) (f : α → Option V)
    (mStack : List (Option V)) (s : ℕ) (hlen : start + off + l.length ≤ mStack.length) :
    ((l.zipIdx start).foldl (fun mStack p => mStack.set (p.2 + off) (f p.1)) mStack).getD s none =
      if h : start + off ≤ s ∧ s - (start + off) < l.length then f (l.get ⟨s - (start + off), h.2⟩)
      else mStack.getD s none := by
  induction l generalizing start mStack with
  | nil => simp
  | cons a l ih =>
    rw [List.length_cons] at hlen
    rw [List.zipIdx_cons, List.foldl_cons, ih (start + 1) _ (by rw [List.length_set]; omega)]
    by_cases hs : s = start + off
    · subst hs
      rw [dif_neg (by omega), dif_pos ⟨le_rfl, by rw [List.length_cons]; omega⟩,
        List.getD_eq_getElem?_getD, List.getElem?_set_self (by omega)]
      simp
    · by_cases hin : start + off ≤ s ∧ s - (start + off) < l.length + 1
      · rw [dif_pos ⟨by omega, by omega⟩, dif_pos (by rw [List.length_cons]; exact hin)]
        simp only [List.get_eq_getElem]
        congr 1
        have : s - (start + off) = (s - (start + 1 + off)) + 1 := by omega
        simp [this]
      · rw [dif_neg (by omega), dif_neg (by rw [List.length_cons]; exact hin),
          List.getD_eq_getElem?_getD, List.getElem?_set_ne (by omega), List.getD_eq_getElem?_getD]

theorem length_foldl_set {α : Type} (l : List α) (f : α → ℕ) (g : α → Option V)
    (mStack : List (Option V)) :
    (l.foldl (fun mStack p => mStack.set (f p) (g p)) mStack).length = mStack.length := by
  induction l generalizing mStack with
  | nil => rfl
  | cons a l ih => rw [List.foldl_cons, ih, List.length_set]

variable (net) (inputs) (I : Interp V) (given : List V)

/-- What is known of a tensor before the operators run. -/
def base : ℤ → Option V := fun t =>
  match inputSlots net inputs t with
  | some k => given[k]?
  | none => if net.isConst t then some (I.const t) else none

variable (outputs) (infos : List SubModuleInfo)

/-- What the stack holds for a tensor before submodule `k` runs. -/
def onStack (k : ℕ) (t : ℤ) : Option V :=
  (stackAt net I (build net inputs outputs infos) given k).getD
    (((slots net inputs infos).1 t).getD 0) none

variable {net inputs I given outputs infos}

theorem length_stackAt (k : ℕ) :
    (stackAt net I (build net inputs outputs infos) given k).length = (slots net inputs infos).2 := by
  have hrun : ∀ (subs : List SubModule) (mStack : List (Option V)),
      (subs.foldl (runOne net I) mStack).length = mStack.length := by
    intro subs
    induction subs with
    | nil => exact fun _ => rfl
    | cons sub subs ih =>
      intro mStack
      rw [List.foldl_cons, ih]
      exact length_foldl_set _ Prod.fst Prod.snd mStack
  rw [stackAt, hrun, initStack]
  rw [length_foldl_set _ Prod.snd fun p => some p.1]
  exact (length_foldl_set net.consts.zipIdx (fun p : ℤ × ℕ => p.2 + inputs.length)
    (fun p => some (I.const p.1)) _).trans List.length_replicate

section First

variable (hlen : given.length = inputs.length)

include hlen

theorem onStack_zero {t : ℤ} (hinside : net.inside t = true)
    (ht : (slots net inputs infos).1 t ≠ none) :
    onStack net inputs outputs I given infos 0 t = base net inputs I given t := by
  obtain ⟨s, hs⟩ := Option.ne_none_iff_exists'.1 ht
  have hsize := size_le net inputs infos
  have hconst : t ∈ net.consts ↔ net.isConst t = true ∧ t ∈ net.tensors := by
    rw [Net.consts, List.mem_filter, and_comm]
  have hinit : (stackAt net I (build net inputs outputs infos) given 0).getD s none =
      if h : 0 ≤ s ∧ s - 0 < given.length then some (given.get ⟨s - 0, h.2⟩)
      else if h : inputs.length ≤ s ∧ s - inputs.length < net.consts.length then
        some (I.const (net.consts.get ⟨s - inputs.length, h.2⟩)) else none := by
    have hfirst := foldl_set_zipIdx net.consts 0 inputs.length (fun t => some (I.const t))
      (List.replicate (slots net inputs infos).2 none) s
      (by rw [List.length_replicate]; omega)
    have hsecond := foldl_set_zipIdx given 0 0 some
      (net.consts.zipIdx.foldl (fun mStack p => mStack.set (p.2 + inputs.length) (some (I.const p.1)))
        (List.replicate (slots net inputs infos).2 none)) s
      (by rw [length_foldl_set _ (fun p : ℤ × ℕ => p.2 + inputs.length) fun p => some (I.const p.1),
        List.length_replicate]; omega)
    refine hsecond.trans ?_
    simp only [Nat.zero_add] at hfirst ⊢
    rw [hfirst]
    have hnone : (List.replicate (slots net inputs infos).2 (none : Option V)).getD s none = none := by
      rw [List.getD_eq_getElem?_getD, List.getElem?_replicate]
      split <;> rfl
    rw [hnone]
  rw [onStack, hs, Option.getD_some, hinit, base]
  rcases slots_cases hs with hin | ⟨hin, ⟨hmem, rfl⟩ | ⟨hnot, hle, -⟩⟩
  · have hlt := (inputSlots_eq_some hin).1
    rw [dif_pos ⟨Nat.zero_le s, by omega⟩, hin]
    simp only [Nat.sub_zero, List.get_eq_getElem]
    rw [List.getElem?_eq_getElem]
  · have hidx := List.idxOf_lt_length_of_mem hmem
    rw [dif_neg (by omega), dif_pos ⟨Nat.le_add_right _ _, by omega⟩, hin,
      if_pos (hconst.1 hmem).1]
    simp
  · have hfalse : net.isConst t ≠ true := fun hc => hnot (hconst.2 ⟨hc, mem_tensors.2 hinside⟩)
    rw [dif_neg (by omega), dif_neg (by omega), hin, if_neg hfalse]

end First

/-! ### Submodules on the stack -/

/-- The values inside submodule `m`, when the tensors hold `T`. -/
def inner (net : Net) (I : Interp V) (m : SubModuleInfo) (T : ℤ → Option V) : ℤ → Option V :=
  eval I.meaning (bind net I m (m.inputs.map T)) (net.nodes m.opList)

theorem foldl_set_map (slot : ℤ → ℕ) (L : ℤ → Option V) (ts : List ℤ) (mStack : List (Option V))
    {t : ℤ} (hlt : slot t < mStack.length) (hinj : ∀ u ∈ ts, slot u = slot t → u = t) :
    ((ts.map fun t => (slot t, L t)).foldl (fun mStack p => mStack.set p.1 p.2) mStack).getD
      (slot t) none = if t ∈ ts then L t else mStack.getD (slot t) none := by
  induction ts generalizing mStack with
  | nil => rw [if_neg List.not_mem_nil]; rfl
  | cons u ts ih =>
    obtain ⟨hu, hinj⟩ := List.forall_mem_cons.1 hinj
    rw [List.map_cons, List.foldl_cons, ih _ (by rwa [List.length_set]) hinj]
    by_cases hut : u = t
    · subst hut
      rw [if_pos List.mem_cons_self, List.getD_eq_getElem?_getD, List.getElem?_set_self hlt]
      exact ite_self _
    · have hne : slot u ≠ slot t := fun heq => hut (hu heq)
      simp only [List.mem_cons, Ne.symm hut, false_or, List.getD_eq_getElem?_getD,
        List.getElem?_set_ne hne]

theorem onStack_succ (hinv : SlotInv (slots net inputs infos)) {k : ℕ} {m : SubModuleInfo}
    (hm : infos[k]? = some m) {t : ℤ} (ht : (slots net inputs infos).1 t ≠ none) :
    onStack net inputs outputs I given infos (k + 1) t =
      if t ∈ m.outputs then inner net I m (onStack net inputs outputs I given infos k) t
      else onStack net inputs outputs I given infos k t := by
  obtain ⟨s, hs⟩ := Option.ne_none_iff_exists'.1 ht
  have hmem := List.mem_of_getElem? hm
  have hget : (build net inputs outputs infos).mSubModules[k]? = some {
      info := m
      inputs := m.inputs.map fun t => ((slots net inputs infos).1 t).getD 0
      outputs := m.outputs.map fun t => ((slots net inputs infos).1 t).getD 0 } := by
    rw [build, List.getElem?_map, hm]
    rfl
  have hstep : stackAt net I (build net inputs outputs infos) given (k + 1) =
      runOne net I (stackAt net I (build net inputs outputs infos) given k) {
        info := m
        inputs := m.inputs.map fun t => ((slots net inputs infos).1 t).getD 0
        outputs := m.outputs.map fun t => ((slots net inputs infos).1 t).getD 0 } := by
    rw [stackAt, List.take_add_one, hget, List.foldl_append]
    rfl
  have hargs : (m.inputs.map fun t => ((slots net inputs infos).1 t).getD 0).map
      (fun s => (stackAt net I (build net inputs outputs infos) given k).getD s none) =
        m.inputs.map (onStack net inputs outputs I given infos k) := by
    rw [List.map_map]
    rfl
  have hzip : (m.outputs.map fun t => ((slots net inputs infos).1 t).getD 0).zip
      (forwardOne net I m (m.inputs.map (onStack net inputs outputs I given infos k))) =
        m.outputs.map fun t => (((slots net inputs infos).1 t).getD 0,
          inner net I m (onStack net inputs outputs I given infos k) t) := by
    rw [forwardOne, List.zip_map']
    rfl
  rw [onStack, hstep, runOne]
  simp only [hargs, hzip]
  rw [foldl_set_map fun t => ((slots net inputs infos).1 t).getD 0]
  · rfl
  · rw [length_stackAt, hs]
    exact hinv.lt t s hs
  · intro u hu heq
    have hslot : (slots net inputs infos).1 u ≠ none :=
      slots_ne_none hmem (List.mem_append_right _ hu)
    obtain ⟨s', hs'⟩ := Option.ne_none_iff_exists'.1 hslot
    rw [hs, hs', Option.getD_some, Option.getD_some] at heq
    exact hinv.inj u t s (heq ▸ hs') hs

end Stack

end Mnn.PipelineModule
