import Mnn.Express.PipelineRun

/-!
# Modules are correct exactly when inputs, constants and names are apart

* `Divided.onStack_eq`: the stack holds the values of the tensors; `Divided.correct`: **the condition
  is enough**;
* `Term`: values that tell how they were computed; `Divided.inner_eq_value`: in a correct module the
  needed operators read the right terms; `Divided.apart`: **the condition is needed**;
* `load_correct_iff`: **cutting a net into submodules**.
-/

namespace Mnn.PipelineModule

open Lib.Dataflow

variable {net : Net} {inputs outputs : List String} {infos : List SubModuleInfo}

/-- The tensor is on the stack before submodule `k`. -/
def Known (net : Net) (inputs : List String) (infos : List SubModuleInfo) (k : ℕ) (t : ℤ) : Prop :=
  (t ∈ inputIndexes net inputs ∨ net.isConst t = true) ∨
    ∃ k' m', k' < k ∧ infos[k']? = some m' ∧ t ∈ m'.outputs

/-- The tensor is not both given and written. -/
def Clean (net : Net) (inputs outputs : List String) (t : ℤ) : Prop :=
  t ∈ inputIndexes net inputs → ¬ Writes net (neededOps net inputs outputs) t

theorem slot_of_known {k : ℕ} {t : ℤ} (hin : net.inside t = true) (h : Known net inputs infos k t) :
    (slots net inputs infos).1 t ≠ none := by
  rcases h with (hinput | hconst) | ⟨k', m', -, hm', ht⟩
  · obtain ⟨s, hs⟩ := Option.ne_none_iff_exists'.1 fun hnone => inputSlots_eq_none_iff.1 hnone hinput
    rw [slots_of_inputSlots hs]
    exact Option.some_ne_none s
  · exact slots_of_const (List.mem_filter.2 ⟨mem_tensors.2 hin, hconst⟩)
  · exact slots_ne_none (List.mem_of_getElem? hm') (List.mem_append_right _ ht)

/-! ### The condition is enough -/

section Apart

variable (hapart : Apart net inputs outputs)

include hapart

theorem Apart.slotInv (infos : List SubModuleInfo) : SlotInv (slots net inputs infos) := by
  refine slots_inj (fun t ht t' ht' heq => ?_) infos
  rw [inputIndexes, List.mem_filter, decide_eq_true_iff] at ht ht'
  exact hapart.names t ht.1 t' ht'.1 heq (.inl ht.2)

theorem Apart.clean_of_reads {i : ℕ} (hi : Needed net inputs outputs i) {t : ℤ}
    (ht : t ∈ (net.opAt i).inputIndexes) : Clean net inputs outputs t := by
  rintro hin ⟨j, hj, hjt⟩
  exact (hapart.kept j (mem_neededOps.1 hj).2 t hjt hin).2 i hi ht

end Apart

namespace Divided

variable (h : Divided net inputs outputs infos)

section Enough

variable (hapart : Apart net inputs outputs) {V : Type} {I : Interp V} {given : List V}

include h hapart

/-- The values that a submodule computes, from the stack before it. -/
theorem inner_eq {k : ℕ} {m : SubModuleInfo} (hm : infos[k]? = some m) {T : ℤ → Option V}
    (hT : ∀ t ∈ m.inputs, Clean net inputs outputs t → T t = value net I inputs outputs given t)
    {t : ℤ} (ht : Writes net m.opList t) (hin : t ∉ inputIndexes net inputs) :
    inner net I m T t = value net I inputs outputs given t := by
  refine eval_eq_on (P := Clean net inputs outputs) (h.ordered hm) ?_ ?_ ?_
    (mem_produced_nodes.2 ht) fun hin' => absurd hin' hin
  · intro n hn t ht
    obtain ⟨i, hi, rfl⟩ := mem_nodes.1 hn
    exact hapart.clean_of_reads (h.needed hm hi) ht
  · intro n hn t ht hclean
    obtain ⟨i, hi, rfl⟩ := mem_nodes.1 hn
    exact value_of_writes h.wellFormed (h.needed hm hi) ht fun hin =>
      hclean hin ⟨i, (h.needed hm hi).mem, ht⟩
  · intro n hn t hread hnot
    obtain ⟨i, hi, rfl⟩ := mem_nodes.1 hn
    have hclean := hapart.clean_of_reads (h.needed hm hi) hread
    by_cases hinput : t ∈ m.inputs
    · rw [bind_of_input hinput, hT t hinput hclean]
    · -- a constant inside a submodule, which no input overrides
      have hconst : net.isConst t = true := by
        by_contra hconst
        exact hinput (h.input_of_reads hm ⟨i, hi, hread⟩
          (fun hw => hnot (mem_produced_nodes.2 hw)) (Bool.eq_false_iff.2 hconst))
      have hface := h.face hm
      have hfree : t ∉ inputIndexes net inputs := by
        intro hin
        cases hface with
        | control j hbreak =>
          obtain rfl : i = j := List.mem_singleton.1 hi
          exact hinput hread
        | static hstatic =>
          have := hapart.consts i (h.needed hm hi) (hstatic.noBreak i hi) t hread hin
          exact absurd (hconst.symm.trans this) Bool.noConfusion
      rw [value_of_not_writes (not_writes_of_const h.wellFormed hconst), base_of_const hfree hconst]
      have hidx : m.inputs.idxOf? t = none := List.idxOf?_eq_none_iff.2 hinput
      rw [bind, hidx]
      simp only [if_pos hconst]

variable (hlen : given.length = inputs.length)

include hlen

/-- The stack holds the values. -/
theorem onStack_eq {k : ℕ} (hk : k ≤ infos.length) {t : ℤ} (hin : net.inside t = true)
    (hknown : Known net inputs infos k t) (hclean : Clean net inputs outputs t) :
    onStack net inputs outputs I given infos k t = value net I inputs outputs given t := by
  induction k generalizing t with
  | zero =>
    rw [onStack_zero hlen hin (slot_of_known hin hknown)]
    rcases hknown with (hinput | hconst) | ⟨k', -, hlt, -⟩
    · rw [value_of_input hinput]
    · rw [value_of_not_writes (not_writes_of_const h.wellFormed hconst)]
    · exact absurd hlt (Nat.not_lt_zero _)
  | succ k ih =>
    have hm : infos[k]? = some infos[k] := List.getElem?_eq_getElem hk
    rw [onStack_succ (hapart.slotInv infos) hm (slot_of_known hin hknown)]
    split
    · next hout =>
      have hw := h.writes_of_output hm hout
      refine h.inner_eq hapart hm (fun u hu hcu => ?_) hw fun hinput =>
        hclean hinput (h.writes_needed hm hw)
      exact ih (by omega) (h.inside_of_reads hm (h.reads_of_input hm hu)) (h.input_source hm hu) hcu
    · next hout =>
      refine ih (by omega) hin (hknown.imp_right ?_) hclean
      rintro ⟨k', m', hlt, hm', ht⟩
      refine ⟨k', m', ?_, hm', ht⟩
      by_contra hge
      obtain rfl : k' = k := by omega
      exact hout (Option.some.inj (hm.symm.trans hm') ▸ ht)

omit hapart in
/-- A tensor on the stack has a value. -/
theorem value_isSome {k : ℕ} {t : ℤ} (hknown : Known net inputs infos k t) :
    ∃ v, value net I inputs outputs given t = some v := by
  by_cases hinput : t ∈ inputIndexes net inputs
  · obtain ⟨-, v, -, -, hv⟩ := base_of_input (I := I) hlen hinput
    exact ⟨v, (value_of_input hinput).trans hv⟩
  · rcases hknown with (hinput' | hconst) | ⟨k', m', -, hm', ht⟩
    · exact absurd hinput' hinput
    · exact ⟨_, (value_of_not_writes (not_writes_of_const h.wellFormed hconst)).trans
        (base_of_const hinput hconst)⟩
    · obtain ⟨i, hi, hit⟩ := h.writes_of_output hm' ht
      exact ⟨_, value_of_writes h.wellFormed (h.needed hm' hi) hit hinput⟩

end Enough

theorem mem_outputIndexes {t : ℤ} : t ∈ outputIndexes net outputs ↔
    t ∈ net.tensors ∧ net.nameAt t ∈ outputs := by
  rw [outputIndexes, List.mem_filter, decide_eq_true_iff]

/-- An output slot of a module, by the tensor of its name. -/
theorem getElem?_forward {V : Type} {I : Interp V} {given : List V} {i : ℕ} {name : String}
    (hi : outputs[i]? = some name) {t : ℤ} (ht : tensorOf net name = some t)
    (hslot : (slots net inputs infos).1 t ≠ none) :
    (forward net I (build net inputs outputs infos) given)[i]? =
      some (onStack net inputs outputs I given infos infos.length t) := by
  obtain ⟨s, hs⟩ := Option.ne_none_iff_exists'.1 hslot
  have hlength : (build net inputs outputs infos).mSubModules.length = infos.length := by
    rw [build, List.length_map]
  have hindex : (build net inputs outputs infos).mOutputIndex[i]? = some s := by
    change (outputs.map fun name =>
      ((tensorOf net name).bind (slots net inputs infos).1).getD 0)[i]? = some s
    rw [List.getElem?_map, hi, Option.map_some, ht, Option.bind_some, hs, Option.getD_some]
  rw [forward, List.getElem?_map, hindex, hlength, onStack, hs]
  rfl

theorem tensorOf_eq {name : String} {t : ℤ} (h : tensorOf net name = some t) :
    t ∈ net.tensors ∧ net.nameAt t = name := by
  have hname := List.find?_some h
  exact ⟨List.mem_reverse.1 (List.mem_of_find?_eq_some h), of_decide_eq_true hname⟩

section Enough

variable (hapart : Apart net inputs outputs)

include h hapart

theorem known_of_output {t : ℤ} (ht : t ∈ outputIndexes net outputs) :
    Known net inputs infos infos.length t := by
  rcases hapart.known t ht with hin | hconst | ⟨i, hi, hit⟩
  · exact .inl (.inl hin)
  · exact .inl (.inr hconst)
  · obtain ⟨k, m, hm, him⟩ := h.exists_submodule hi
    exact .inr ⟨k, m, (List.getElem?_eq_some_iff.1 hm).1, hm,
      h.output_of_writes hm ⟨i, him, hit⟩ (.inr ht)⟩

theorem correct (hfound : ∀ name ∈ outputs, (tensorOf net name).isSome = true) :
    Correct net inputs outputs (build net inputs outputs infos) := by
  refine ⟨?_, (hapart.slotInv infos).inj, ?_, ?_⟩
  · rw [← h.faces.ops, build, List.flatMap_map]
  · intro V I given hlen k sub hsub i t s ht hs
    rw [build, List.getElem?_map, Option.map_eq_some_iff] at hsub
    obtain ⟨m, hm, rfl⟩ := hsub
    have hmem : t ∈ m.inputs := List.mem_of_getElem? ht
    have hread := h.reads_of_input hm hmem
    have hknown := h.input_source hm hmem
    have hclean : Clean net inputs outputs t := by
      obtain ⟨j, hj, hjt⟩ := hread
      exact hapart.clean_of_reads (h.needed hm hj) hjt
    obtain ⟨v, hv⟩ := h.value_isSome (I := I) hlen hknown
    refine ⟨v, hv, ?_⟩
    rw [List.getElem?_map, ht, Option.map_some, Option.some.injEq] at hs
    rw [← hv, ← h.onStack_eq hapart hlen (List.getElem?_eq_some_iff.1 hm).1.le
      (h.inside_of_reads hm hread) hknown hclean, onStack, hs]
  · intro V I given hlen i name hi t ht hname
    have hout : t ∈ outputIndexes net outputs :=
      mem_outputIndexes.2 ⟨ht, hname ▸ List.mem_of_getElem? hi⟩
    obtain ⟨t', ht'⟩ := Option.isSome_iff_exists.1 (hfound name (List.mem_of_getElem? hi))
    obtain ⟨hmem', hname'⟩ := tensorOf_eq ht'
    obtain rfl := hapart.names t ht t' hmem' (hname.trans hname'.symm)
      (.inr (hname ▸ List.mem_of_getElem? hi))
    have hknown := h.known_of_output hapart hout
    have hin := mem_tensors.1 ht
    have hclean : Clean net inputs outputs t := by
      rintro hinput ⟨j, hj, hjt⟩
      exact (hapart.kept j (mem_neededOps.1 hj).2 t hjt hinput).1 hout
    obtain ⟨v, hv⟩ := h.value_isSome (I := I) hlen hknown
    refine ⟨v, hv, ?_⟩
    rw [getElem?_forward hi ht' (slot_of_known hin hknown),
      h.onStack_eq hapart hlen le_rfl hin hknown hclean, hv]

end Enough

/-! ### The condition is needed -/

/-- Values that tell how they were computed. -/
inductive Term
  | given (k : ℕ)
  | const (t : ℤ)
  | node (i : ℕ) (args : List (Option Term)) (k : ℕ)

def freeInterp : Interp Term where
  const := .const
  apply := .node

/-- The inputs. -/
def freeInputs (n : ℕ) : List Term := (List.range n).map .given

section Free

noncomputable abbrev freeValue (net : Net) (inputs outputs : List String) : ℤ → Option Term :=
  value net freeInterp inputs outputs (freeInputs inputs.length)

abbrev freeStack (net : Net) (inputs outputs : List String) (infos : List SubModuleInfo) (k : ℕ) :
    ℤ → Option Term :=
  onStack net inputs outputs freeInterp (freeInputs inputs.length) infos k

theorem length_freeInputs (n : ℕ) : (freeInputs n).length = n := by
  rw [freeInputs, List.length_map, List.length_range]

theorem freeValue_of_input {t : ℤ} (ht : t ∈ inputIndexes net inputs) :
    ∃ k, freeValue net inputs outputs t = some (.given k) := by
  obtain ⟨k, v, -, hv, hbase⟩ := base_of_input (I := freeInterp)
    (length_freeInputs inputs.length) ht
  rw [freeInputs, List.getElem?_map, Option.map_eq_some_iff] at hv
  obtain ⟨j, -, rfl⟩ := hv
  exact ⟨j, (value_of_input ht).trans hbase⟩

theorem freeValue_of_writes (hwf : WellFormed net) {i : ℕ} (hi : Needed net inputs outputs i) {t : ℤ}
    (ht : t ∈ (net.opAt i).outputIndexes) (hin : t ∉ inputIndexes net inputs) :
    freeValue net inputs outputs t = some (.node i
      ((net.opAt i).inputIndexes.map (freeValue net inputs outputs))
      ((net.opAt i).outputIndexes.idxOf t)) :=
  value_of_writes hwf hi ht hin

/-- Where a value comes from. -/
theorem freeValue_cases (hwf : WellFormed net) {t : ℤ} {v : Term}
    (hv : freeValue net inputs outputs t = some v) (hin : t ∉ inputIndexes net inputs) :
    net.isConst t = true ∧ v = .const t ∨ ∃ i, Needed net inputs outputs i ∧
      t ∈ (net.opAt i).outputIndexes ∧ v = .node i
        ((net.opAt i).inputIndexes.map (freeValue net inputs outputs))
        ((net.opAt i).outputIndexes.idxOf t) := by
  by_cases hw : Writes net (neededOps net inputs outputs) t
  · obtain ⟨i, hi, hit⟩ := hw
    have hneeded := (mem_neededOps.1 hi).2
    rw [freeValue_of_writes hwf hneeded hit hin] at hv
    exact .inr ⟨i, hneeded, hit, (Option.some.inj hv).symm⟩
  · rw [freeValue, value_of_not_writes hw, base, inputSlots_eq_none_iff.2 hin] at hv
    simp only at hv
    split at hv
    · next hconst => exact .inl ⟨hconst, (Option.some.inj hv).symm⟩
    · cases hv

/-- Distinct tensors that are not given have distinct values. -/
theorem freeValue_inj (hwf : WellFormed net) {t t' : ℤ} {v : Term}
    (hv : freeValue net inputs outputs t = some v) (hv' : freeValue net inputs outputs t' = some v)
    (hin : t ∉ inputIndexes net inputs) (hin' : t' ∉ inputIndexes net inputs) : t = t' := by
  rcases freeValue_cases hwf hv hin with ⟨-, rfl⟩ | ⟨i, -, hit, rfl⟩
  · rcases freeValue_cases hwf hv' hin' with ⟨-, heq⟩ | ⟨j, -, -, heq⟩
    · exact Term.const.inj heq
    · cases heq
  · rcases freeValue_cases hwf hv' hin' with ⟨-, heq⟩ | ⟨j, -, hjt, heq⟩
    · cases heq
    · obtain ⟨rfl, -, hidx⟩ := Term.node.inj heq
      exact (List.idxOf_inj hit).1 hidx

end Free

section Needs

variable (hcorrect : Correct net inputs outputs (build net inputs outputs infos))

include hcorrect

theorem input_names {t t' : ℤ} (ht : t ∈ inputIndexes net inputs)
    (ht' : t' ∈ inputIndexes net inputs) (hname : net.nameAt t = net.nameAt t') : t = t' := by
  obtain ⟨s, hs⟩ := Option.ne_none_iff_exists'.1 fun hnone => inputSlots_eq_none_iff.1 hnone ht
  have hin : net.inside t = true := mem_tensors.1 (List.mem_of_mem_filter ht)
  have hin' : net.inside t' = true := mem_tensors.1 (List.mem_of_mem_filter ht')
  have hs' : inputSlots net inputs t' = some s := by
    rw [← hs, inputSlots, inputSlots, if_pos hin, if_pos hin', hname]
  exact hcorrect.distinct t t' s (slots_of_inputSlots hs) (slots_of_inputSlots hs')

theorem slotInv_of_correct : SlotInv (slots net inputs infos) :=
  slots_inj (fun _ ht _ ht' hname => input_names hcorrect ht ht' hname) infos

include h

theorem output_names {t t' : ℤ} (ht : t ∈ net.tensors) (ht' : t' ∈ net.tensors)
    (hname : net.nameAt t = net.nameAt t') (hout : net.nameAt t ∈ outputs) : t = t' := by
  obtain ⟨i, hi⟩ := List.mem_iff_getElem?.1 hout
  have hlen := length_freeInputs inputs.length
  obtain ⟨v, hv, hfor⟩ := hcorrect.outputs Term freeInterp _ hlen i _ hi t ht rfl
  obtain ⟨v', hv', hfor'⟩ := hcorrect.outputs Term freeInterp _ hlen i _ hi t' ht' hname.symm
  obtain rfl : v = v' := Option.some.inj (Option.some.inj (hfor.symm.trans hfor'))
  have hiff : t ∈ inputIndexes net inputs ↔ t' ∈ inputIndexes net inputs := by
    rw [inputIndexes, List.mem_filter, List.mem_filter, decide_eq_true_iff, decide_eq_true_iff,
      hname]
    exact ⟨fun hcond => ⟨ht', hcond.2⟩, fun hcond => ⟨ht, hcond.2⟩⟩
  by_cases hin : t ∈ inputIndexes net inputs
  · exact input_names hcorrect hin (hiff.1 hin) hname
  · exact freeValue_inj h.wellFormed hv hv' hin fun hin' => hin (hiff.2 hin')

variable (hfound : ∀ name ∈ outputs, (tensorOf net name).isSome = true)

include hfound

/-- The outputs of the net are on the stack at the end. -/
theorem freeStack_of_output {t : ℤ} (ht : t ∈ outputIndexes net outputs)
    (hslot : (slots net inputs infos).1 t ≠ none) :
    freeStack net inputs outputs infos infos.length t = freeValue net inputs outputs t := by
  obtain ⟨hmem, hout⟩ := mem_outputIndexes.1 ht
  obtain ⟨i, hi⟩ := List.mem_iff_getElem?.1 hout
  obtain ⟨v, hv, hfor⟩ := hcorrect.outputs Term freeInterp _ (length_freeInputs inputs.length) i _ hi
    t hmem rfl
  obtain ⟨t', ht'⟩ := Option.isSome_iff_exists.1 (hfound _ hout)
  obtain ⟨hmem', hname'⟩ := tensorOf_eq ht'
  obtain rfl := h.output_names hcorrect hmem hmem' hname'.symm hout
  rw [getElem?_forward hi ht' hslot, Option.some.injEq] at hfor
  exact hfor.trans hv.symm

omit hfound in
theorem known_needed {t : ℤ} (ht : t ∈ outputIndexes net outputs) :
    t ∈ inputIndexes net inputs ∨ net.isConst t = true ∨
      ∃ i, Needed net inputs outputs i ∧ t ∈ (net.opAt i).outputIndexes := by
  obtain ⟨hmem, hout⟩ := mem_outputIndexes.1 ht
  obtain ⟨i, hi⟩ := List.mem_iff_getElem?.1 hout
  obtain ⟨v, hv, -⟩ := hcorrect.outputs Term freeInterp _ (length_freeInputs inputs.length) i _ hi
    t hmem rfl
  by_cases hin : t ∈ inputIndexes net inputs
  · exact .inl hin
  · rcases freeValue_cases h.wellFormed hv hin with ⟨hconst, -⟩ | ⟨j, hj, hjt, -⟩
    · exact .inr (.inl hconst)
    · exact .inr (.inr ⟨j, hj, hjt⟩)

/-- The needed operators read the right terms: from the outputs backwards. -/
theorem inner_eq_value {i : ℕ} (hreach : Reach net inputs outputs i)
    (hcompute : needComputeOp (net.opAt i) = true) {k : ℕ} {m : SubModuleInfo}
    (hm : infos[k]? = some m) (him : i ∈ m.opList) {x : ℤ} (hx : x ∈ (net.opAt i).inputIndexes) :
    inner net freeInterp m (freeStack net inputs outputs infos k) x =
      freeValue net inputs outputs x := by
  have hinv := slotInv_of_correct hcorrect
  -- equal results of an operator have equal arguments
  have hargs : ∀ {i k : ℕ} {m : SubModuleInfo} {t : ℤ}, infos[k]? = some m → i ∈ m.opList →
      t ∈ (net.opAt i).outputIndexes → t ∉ inputIndexes net inputs →
      inner net freeInterp m (freeStack net inputs outputs infos k) t =
        freeValue net inputs outputs t → ∀ x ∈ (net.opAt i).inputIndexes,
      inner net freeInterp m (freeStack net inputs outputs infos k) x =
        freeValue net inputs outputs x := by
    intro i k m t hm him ht hin heq
    rw [h.inner_of_writes hm him ht, freeValue_of_writes h.wellFormed (h.needed hm him) ht hin] at heq
    exact List.map_inj_left.1 (Term.node.inj (Option.some.inj heq)).2.1
  induction hreach generalizing k m x with
  | @output i t hi ht hout hin =>
    have hmem : t ∈ m.outputs := h.output_of_writes hm ⟨i, him, ht⟩ (.inr hout)
    have hslot : (slots net inputs infos).1 t ≠ none :=
      slots_ne_none (List.mem_of_getElem? hm) (List.mem_append_right _ hmem)
    refine hargs hm him ht hin ?_ x hx
    rw [← h.freeStack_of_output hcorrect hfound hout hslot]
    exact (h.onStack_of_output hinv hm hmem (List.getElem?_eq_some_iff.1 hm).1 le_rfl).symm
  | @input i j t hi ht hj hread hin ih =>
    have hcompute' : needComputeOp (net.opAt j) = true := by
      by_contra hno
      rw [h.wellFormed.sources j hj.lt (Bool.eq_false_iff.2 hno)] at hread
      exact List.not_mem_nil hread
    obtain ⟨k', m', hm', hjm'⟩ := h.exists_submodule ⟨hj, hcompute'⟩
    refine hargs hm him ht hin ?_ x hx
    rw [← ih hcompute' hm' hjm' hread]
    by_cases hw : Writes net m'.opList t
    · obtain rfl := h.writes_unique hm hm' ⟨i, him, ht⟩ hw
      obtain rfl := Option.some.inj (hm.symm.trans hm')
      rfl
    · have hconst := h.not_const hm ⟨i, him, ht⟩
      have hinput := h.input_of_reads hm' ⟨j, hjm', hread⟩ hw hconst
      rw [h.inner_of_input hm' hinput]
      rcases h.input_source hm' hinput with (hgiven | hconst') | ⟨k₁, m₁, hlt, hm₁, hout⟩
      · exact absurd hgiven hin
      · exact absurd (hconst'.symm.trans hconst) Bool.noConfusion
      · obtain rfl := h.writes_unique hm hm₁ ⟨i, him, ht⟩ (h.writes_of_output hm₁ hout)
        obtain rfl := Option.some.inj (hm.symm.trans hm₁)
        exact (h.onStack_of_output hinv hm hout hlt
          (List.getElem?_eq_some_iff.1 hm').1.le).symm

theorem consts_needed {i : ℕ} (hi : Needed net inputs outputs i)
    (hbreak : isBreakOp (net.opAt i) = false) {t : ℤ} (ht : t ∈ (net.opAt i).inputIndexes)
    (hin : t ∈ inputIndexes net inputs) : net.isConst t = false := by
  by_contra hconst
  rw [Bool.not_eq_false] at hconst
  obtain ⟨k, m, hm, him⟩ := h.exists_submodule hi
  have heq := h.inner_eq_value hcorrect hfound hi.1 hi.2 hm him ht
  have hnot : t ∉ m.inputs := by
    have hface := h.face hm
    cases hface with
    | control j hbreak' =>
      obtain rfl : i = j := List.mem_singleton.1 him
      exact absurd (hbreak.symm.trans hbreak') Bool.noConfusion
    | static hstatic =>
      exact fun hinput => absurd (hconst.symm.trans ((hstatic.inputs t).1 hinput).2.2) Bool.noConfusion
  obtain ⟨n, hn⟩ : ∃ n, freeValue net inputs outputs t = some (.given n) := freeValue_of_input hin
  rw [h.inner_of_const hm hconst hnot, hn] at heq
  cases heq

theorem kept_needed {i : ℕ} (hi : Needed net inputs outputs i) {t : ℤ}
    (ht : t ∈ (net.opAt i).outputIndexes) (hin : t ∈ inputIndexes net inputs) :
    t ∉ outputIndexes net outputs ∧
      ∀ j, Needed net inputs outputs j → t ∉ (net.opAt j).inputIndexes := by
  have hinv := slotInv_of_correct hcorrect
  obtain ⟨k, m, hm, him⟩ := h.exists_submodule hi
  obtain ⟨n, hn⟩ : ∃ n, freeValue net inputs outputs t = some (.given n) := freeValue_of_input hin
  -- what the operator writes is not what is given
  have hne : inner net freeInterp m (freeStack net inputs outputs infos k) t ≠
      freeValue net inputs outputs t := by
    rw [h.inner_of_writes hm him ht, hn]
    exact fun heq => by cases heq
  have hown : ¬ Reads net m.opList t := by
    rintro ⟨j, hj, hjt⟩
    have hneeded := h.needed hm hj
    exact hne (h.inner_eq_value hcorrect hfound hneeded.1 hneeded.2 hm hj hjt)
  have hmem : t ∈ m.outputs := h.output_of_writes hm ⟨i, him, ht⟩ (.inl hown)
  refine ⟨fun hout => ?_, fun j hj hread => ?_⟩
  · have hslot : (slots net inputs infos).1 t ≠ none :=
      slots_ne_none (List.mem_of_getElem? hm) (List.mem_append_right _ hmem)
    refine hne ?_
    rw [← h.freeStack_of_output hcorrect hfound hout hslot]
    exact (h.onStack_of_output hinv hm hmem (List.getElem?_eq_some_iff.1 hm).1 le_rfl).symm
  · obtain ⟨k', m', hm', hjm'⟩ := h.exists_submodule hj
    have heq := h.inner_eq_value hcorrect hfound hj.1 hj.2 hm' hjm' hread
    have hle := h.writes_before hm hm' ⟨i, him, ht⟩ ⟨j, hjm', hread⟩
    have hlt : k < k' := by
      refine lt_of_le_of_ne hle fun hkk => ?_
      obtain rfl := Option.some.inj (hm.symm.trans (hkk ▸ hm'))
      exact hown ⟨j, hjm', hread⟩
    have hw : ¬ Writes net m'.opList t := fun hw =>
      hlt.ne (h.writes_unique hm hm' ⟨i, him, ht⟩ hw)
    have hinput := h.input_of_reads hm' ⟨j, hjm', hread⟩ hw (h.not_const hm ⟨i, him, ht⟩)
    rw [h.inner_of_input hm' hinput] at heq
    refine hne (Eq.trans ?_ heq)
    exact (h.onStack_of_output hinv hm hmem hlt (List.getElem?_eq_some_iff.1 hm').1.le).symm

theorem apart : Apart net inputs outputs where
  names := by
    intro t ht t' ht' hname hcase
    rcases hcase with hin | hout
    · refine input_names hcorrect ?_ ?_ hname
      · exact List.mem_filter.2 ⟨ht, decide_eq_true hin⟩
      · exact List.mem_filter.2 ⟨ht', decide_eq_true (hname ▸ hin)⟩
    · exact h.output_names hcorrect ht ht' hname hout
  consts := fun _ hi hbreak _ ht hin => h.consts_needed hcorrect hfound hi hbreak ht hin
  kept := fun _ hi _ ht hin => h.kept_needed hcorrect hfound hi ht hin
  known := fun _ ht => h.known_needed hcorrect ht

end Needs

end Divided

/-! ### Loading -/

/-- What `load` has done when it succeeds. -/
theorem load_eq_module (hwf : WellFormed net) {m : Module}
    (hload : load net inputs outputs = .module m) :
    ∃ infos, m = build net inputs outputs infos ∧ Divided net inputs outputs infos ∧
      ∀ name ∈ outputs, (tensorOf net name).isSome = true := by
  have hspec := collectNeededOps_spec net inputs outputs
  rw [load] at hload
  split at hload
  · next hfound =>
    cases hcollect : collectNeededOps net (inputIndexes net inputs) (outputIndexes net outputs) with
    | none =>
      rw [hcollect] at hload
      cases hload
    | some ops =>
      rw [hcollect] at hload hspec
      obtain ⟨rfl, hinside⟩ := hspec
      simp only at hload
      cases hcreate : createSubModuleInfo net (inputIndexes net inputs) (outputIndexes net outputs)
        (neededOps net inputs outputs) with
      | none =>
        rw [hcreate] at hload
        cases hload
      | some infos =>
        rw [hcreate] at hload
        refine ⟨infos, (Loaded.module.inj hload).symm, ⟨hwf, ?_, hinside⟩, ?_⟩
        · exact createSubModuleInfo_spec
            (fun i hi t ht => hinside i (mem_neededOps.1 hi).2.1 t ht) hcreate
        · exact List.all_eq_true.1 hfound
  · cases hload

/-- `load` leaves its vectors exactly when a needed operator has an optional input that is absent. -/
theorem load_eq_undefined_iff (hwf : WellFormed net) :
    load net inputs outputs = .undefined ↔ (∀ name ∈ outputs, (tensorOf net name).isSome = true) ∧
      ∃ i, Reach net inputs outputs i ∧ ∃ t ∈ (net.opAt i).inputIndexes, t < 0 := by
  have hspec := collectNeededOps_spec net inputs outputs
  have hinside : ∀ i, Reach net inputs outputs i → ∀ t ∈ (net.opAt i).inputIndexes,
      (net.inside t = false ↔ t < 0) := by
    intro i hi t ht
    have hlt := hwf.inputs i hi.lt t ht
    rw [Net.inside, Bool.and_eq_false_iff, decide_eq_false_iff_not, decide_eq_false_iff_not]
    omega
  rw [load]
  split
  · next hfound =>
    have hall := List.all_eq_true.1 hfound
    cases hcollect : collectNeededOps net (inputIndexes net inputs) (outputIndexes net outputs) with
    | none =>
      rw [hcollect] at hspec
      obtain ⟨i, hi, t, ht, hout⟩ := hspec
      exact ⟨fun _ => ⟨hall, i, hi, t, ht, (hinside i hi t ht).1 hout⟩, fun _ => rfl⟩
    | some ops =>
      rw [hcollect] at hspec
      refine ⟨fun hload => ?_, ?_⟩
      · simp only at hload
        split at hload <;> cases hload
      · rintro ⟨-, i, hi, t, ht, hneg⟩
        have hin := hspec.2 i hi t ht
        exact absurd (((hinside i hi t ht).2 hneg).symm.trans hin) Bool.noConfusion
  · next hnot =>
    exact ⟨fun hload => (by cases hload), fun hcond => absurd (List.all_eq_true.2 hcond.1) hnot⟩

/-- **Main theorem.** `load` stays inside its vectors unless a needed operator has an absent optional
input; a module that it returns is correct exactly when inputs, constants and names are apart. -/
theorem load_correct_iff (hwf : WellFormed net) (inputs outputs : List String) :
    (load net inputs outputs = .undefined ↔
      (∀ name ∈ outputs, (tensorOf net name).isSome = true) ∧
        ∃ i, Reach net inputs outputs i ∧ ∃ t ∈ (net.opAt i).inputIndexes, t < 0) ∧
      ∀ m, load net inputs outputs = .module m →
        (Correct net inputs outputs m ↔ Apart net inputs outputs) := by
  refine ⟨load_eq_undefined_iff hwf, fun m hload => ?_⟩
  obtain ⟨infos, rfl, hdivided, hfound⟩ := load_eq_module hwf hload
  exact ⟨fun hcorrect => hdivided.apart hcorrect hfound,
    fun hapart => hdivided.correct hapart hfound⟩

/-! ### Two nets -/

/-- A constant, an operator that adds, a break and an operator behind it that reads over the break. -/
def whereNet : Net where
  oplists := [{ type := .input, outputIndexes := [0] }, { type := .const, outputIndexes := [1] },
    { inputIndexes := [0, 1], outputIndexes := [2] },
    { type := .where, inputIndexes := [2], outputIndexes := [3] },
    { inputIndexes := [3, 2, 1], outputIndexes := [4] }]
  tensorName := ["x", "c", "s", "w", "y"]

theorem whereNet_wellFormed : WellFormed whereNet where
  ordered := ⟨by decide, by decide, by decide⟩
  outputs := by decide
  inputs := by decide
  sources := by decide

theorem whereNet_correct : ∃ m, load whereNet ["x"] ["y"] = .module m ∧
    Correct whereNet ["x"] ["y"] m := by
  refine ⟨_, rfl, ((load_correct_iff whereNet_wellFormed ["x"] ["y"]).2 _ rfl).2 ?_⟩
  have hall : ∀ i < 5, isBreakOp (whereNet.opAt i) = false →
      ∀ t ∈ (whereNet.opAt i).inputIndexes, t ∈ inputIndexes whereNet ["x"] →
        whereNet.isConst t = false := by decide
  have hnone : ∀ i < 5, needComputeOp (whereNet.opAt i) = true →
      ∀ t ∈ (whereNet.opAt i).outputIndexes, t ∉ inputIndexes whereNet ["x"] := by decide
  have hlast : Needed whereNet ["x"] ["y"] 4 :=
    ⟨.output (t := 4) (by decide) (by decide) (by decide) (by decide), rfl⟩
  exact {
    names := fun t ht t' ht' hname _ => by
      revert t' t
      decide
    consts := fun i hi => hall i hi.1.lt
    kept := fun i hi t ht hin => absurd hin (hnone i hi.1.lt hi.2 t ht)
    known := fun t ht => by
      obtain rfl : t = 4 := by
        revert t
        decide
      exact .inr (.inr ⟨4, hlast, by decide⟩) }

/-- An operator that reads a constant. -/
def constNet : Net where
  oplists := [{ type := .const, outputIndexes := [0] }, { inputIndexes := [0], outputIndexes := [1] }]
  tensorName := ["c", "y"]

/-- The constant 3, and operators that copy. -/
def copyThree : Interp ℕ where
  const _ := 3
  apply _ args _ := (args.head?.bind id).getD 0

theorem constNet_wellFormed : WellFormed constNet where
  ordered := ⟨by decide, by decide, by decide⟩
  outputs := by decide
  inputs := by decide
  sources := by decide

theorem constNet_not_correct {m : Module} (hload : load constNet ["c"] ["y"] = .module m) :
    ¬ Correct constNet ["c"] ["y"] m := by
  intro hcorrect
  obtain ⟨infos, rfl, hdivided, hfound⟩ := load_eq_module constNet_wellFormed hload
  have hneeded : Needed constNet ["c"] ["y"] 1 :=
    ⟨.output (t := 1) (by decide) (by decide) (by decide) (by decide), rfl⟩
  have := hdivided.consts_needed hcorrect hfound hneeded rfl (t := 0) (by decide) (by decide)
  exact absurd this (by decide)

/-- The constant is named as an input and 7 is given for it: the operator still reads 3. -/
theorem given_ignored : ∃ m, load constNet ["c"] ["y"] = .module m ∧
    forward constNet copyThree m [7] = [some 3] ∧ ¬ Correct constNet ["c"] ["y"] m :=
  ⟨_, rfl, by decide, constNet_not_correct rfl⟩

end Mnn.PipelineModule
