import Mnn.Express.PipelineStack

/-!
# Values of the tensors in a module

* `Divided`: the submodules of a net whose needed operators stay inside the tensors;
* `inner_of_writes`, `inner_of_reads`: the values inside a submodule;
* `onStack_of_output`: an output of a submodule stays on the stack;
* `value_of_writes`, `value_of_input`, `value_of_const`: the values of the tensors.
-/

namespace Mnn.PipelineModule

open Lib.Dataflow

variable {net : Net} {inputs outputs : List String}

/-! ### The needed operators -/

theorem mem_neededOps {i : ℕ} : i ∈ neededOps net inputs outputs ↔
    i < net.oplists.length ∧ Needed net inputs outputs i := by
  rw [neededOps, List.mem_filter, List.mem_range]
  exact and_congr_right fun _ => @decide_eq_true_iff _ (Classical.propDecidable _)

theorem Reach.lt {i : ℕ} (h : Reach net inputs outputs i) : i < net.oplists.length := by
  cases h with
  | output hi => exact hi
  | input hi => exact hi

theorem Needed.mem {i : ℕ} (h : Needed net inputs outputs i) : i ∈ neededOps net inputs outputs :=
  mem_neededOps.2 ⟨h.1.lt, h⟩

theorem mem_nodes {ops : List ℕ} {n : Node ℕ ℤ} : n ∈ net.nodes ops ↔
    ∃ i ∈ ops, n = ⟨i, (net.opAt i).inputIndexes, (net.opAt i).outputIndexes⟩ := by
  rw [Net.nodes, List.mem_map]
  exact exists_congr fun i => and_congr_right fun _ => eq_comm

theorem mem_produced_nodes {ops : List ℕ} {t : ℤ} :
    t ∈ produced (net.nodes ops) ↔ Writes net ops t := by
  rw [mem_produced]
  constructor
  · rintro ⟨n, hn, ht⟩
    obtain ⟨i, hi, rfl⟩ := mem_nodes.1 hn
    exact ⟨i, hi, ht⟩
  · rintro ⟨i, hi, ht⟩
    exact ⟨_, mem_nodes.2 ⟨i, hi, rfl⟩, ht⟩

namespace WellFormed

variable (hwf : WellFormed net)

include hwf

theorem ordered_sublist {ops : List ℕ} (h : ops.Sublist (List.range net.oplists.length)) :
    Ordered (net.nodes ops) :=
  hwf.ordered.sublist (h.map _)

theorem writer_unique {i j : ℕ} (hi : i < net.oplists.length) (hj : j < net.oplists.length) {t : ℤ}
    (hit : t ∈ (net.opAt i).outputIndexes) (hjt : t ∈ (net.opAt j).outputIndexes) : i = j := by
  by_contra hne
  have hnodup := hwf.ordered.nodup
  rw [produced, Net.nodes, List.flatMap_map] at hnodup
  have hpair := (List.nodup_flatMap.1 hnodup).2
  have hdisj := List.pairwise_iff_getElem.1 hpair
  rcases Nat.lt_or_gt_of_ne hne with hlt | hgt
  · have := hdisj i j (by simpa using hi) (by simpa using hj) hlt
    simp only [List.getElem_range] at this
    exact this hit hjt
  · have := hdisj j i (by simpa using hj) (by simpa using hi) hgt
    simp only [List.getElem_range] at this
    exact this hjt hit

/-- No operator that computes writes a constant. -/
theorem not_const_of_writes {i : ℕ} (hi : i < net.oplists.length)
    (hcompute : needComputeOp (net.opAt i) = true) {t : ℤ} (ht : t ∈ (net.opAt i).outputIndexes) :
    net.isConst t = false := by
  rw [Bool.eq_false_iff]
  intro hconst
  rw [Net.isConst, List.any_eq_true] at hconst
  obtain ⟨op, hop, hcond⟩ := hconst
  rw [Bool.and_eq_true, Bool.or_eq_true, decide_eq_true_iff, decide_eq_true_iff,
    decide_eq_true_iff] at hcond
  obtain ⟨j, hj⟩ := List.mem_iff_getElem?.1 hop
  have hlt := (List.getElem?_eq_some_iff.1 hj).1
  have hat : net.opAt j = op := by rw [Net.opAt, List.getD_eq_getElem?_getD, hj]; rfl
  have hjt : t ∈ (net.opAt j).outputIndexes := by
    rw [hat]
    exact List.mem_of_head? hcond.2
  have hij := hwf.writer_unique hi hlt ht hjt
  rw [hij, hat, needComputeOp] at hcompute
  rcases hcond.1 with htype | htype <;> simp [htype] at hcompute

end WellFormed

theorem neededOps_sublist :
    (neededOps net inputs outputs).Sublist (List.range net.oplists.length) := List.filter_sublist

theorem ordered_neededOps (hwf : WellFormed net) : Ordered (net.nodes (neededOps net inputs outputs)) :=
  hwf.ordered_sublist neededOps_sublist

/-! ### Values -/

section Value

variable {V : Type} {I : Interp V} {given : List V}

theorem value_of_input {t : ℤ} (ht : t ∈ inputIndexes net inputs) :
    value net I inputs outputs given t = base net inputs I given t :=
  evalPinned_of_not_mem (.inl ht)

theorem value_of_not_writes {t : ℤ} (ht : ¬ Writes net (neededOps net inputs outputs) t) :
    value net I inputs outputs given t = base net inputs I given t :=
  evalPinned_of_not_mem (.inr fun h => ht (mem_produced_nodes.1 h))

theorem value_of_writes (hwf : WellFormed net) {i : ℕ} (hi : Needed net inputs outputs i) {t : ℤ}
    (ht : t ∈ (net.opAt i).outputIndexes) (hin : t ∉ inputIndexes net inputs) :
    value net I inputs outputs given t = some (I.apply i
      ((net.opAt i).inputIndexes.map (value net I inputs outputs given))
      ((net.opAt i).outputIndexes.idxOf t)) :=
  evalPinned_solves (ordered_neededOps hwf) (mem_nodes.2 ⟨i, hi.mem, rfl⟩) ht hin

theorem not_writes_of_const (hwf : WellFormed net) {t : ℤ} (ht : net.isConst t = true) :
    ¬ Writes net (neededOps net inputs outputs) t := by
  rintro ⟨i, hi, hit⟩
  obtain ⟨hlt, hneeded⟩ := mem_neededOps.1 hi
  exact absurd (ht.symm.trans (hwf.not_const_of_writes hlt hneeded.2 hit)) Bool.noConfusion

theorem base_of_input (hlen : given.length = inputs.length) {t : ℤ}
    (ht : t ∈ inputIndexes net inputs) : ∃ k v, inputSlots net inputs t = some k ∧
      given[k]? = some v ∧ base net inputs I given t = some v := by
  obtain ⟨k, hk⟩ := Option.ne_none_iff_exists'.1 fun hnone => inputSlots_eq_none_iff.1 hnone ht
  have hlt : k < given.length := hlen ▸ (inputSlots_eq_some hk).1
  refine ⟨k, given[k], hk, List.getElem?_eq_getElem hlt, ?_⟩
  rw [base, hk]
  exact List.getElem?_eq_getElem hlt

theorem base_of_const {t : ℤ} (hin : t ∉ inputIndexes net inputs) (ht : net.isConst t = true) :
    base net inputs I given t = some (I.const t) := by
  rw [base, inputSlots_eq_none_iff.2 hin, if_pos ht]

end Value

/-! ### Submodules -/

/-- The submodules of a net. -/
structure Divided (net : Net) (inputs outputs : List String) (infos : List SubModuleInfo) : Prop where
  wellFormed : WellFormed net
  faces : Faces net (inputIndexes net inputs) (outputIndexes net outputs)
    (neededOps net inputs outputs) infos
  inside : ∀ i, Reach net inputs outputs i → ∀ t ∈ (net.opAt i).inputIndexes, net.inside t = true

namespace Divided

variable {infos : List SubModuleInfo} (h : Divided net inputs outputs infos) {k : ℕ}
  {m : SubModuleInfo} (hm : infos[k]? = some m)

include h hm

theorem needed {i : ℕ} (hi : i ∈ m.opList) : Needed net inputs outputs i := by
  have hmem : i ∈ neededOps net inputs outputs := by
    rw [← h.faces.ops]
    exact List.mem_flatMap.2 ⟨m, List.mem_of_getElem? hm, hi⟩
  exact (mem_neededOps.1 hmem).2

theorem opList_sublist : m.opList.Sublist (List.range net.oplists.length) := by
  refine List.Sublist.trans ?_ (neededOps_sublist : (neededOps net inputs outputs).Sublist _)
  rw [← h.faces.ops, List.flatMap_def]
  exact List.sublist_flatten_of_mem (List.mem_map_of_mem (List.mem_of_getElem? hm))

theorem ordered : Ordered (net.nodes m.opList) :=
  h.wellFormed.ordered_sublist (h.opList_sublist hm)

theorem inside_of_writes {t : ℤ} (ht : Writes net m.opList t) : net.inside t = true := by
  obtain ⟨i, hi, hit⟩ := ht
  exact h.wellFormed.outputs i (h.needed hm hi).1.lt t hit

theorem inside_of_reads {t : ℤ} (ht : Reads net m.opList t) : net.inside t = true := by
  obtain ⟨i, hi, hit⟩ := ht
  exact h.inside i (h.needed hm hi).1 t hit

theorem writes_needed {t : ℤ} (ht : Writes net m.opList t) :
    Writes net (neededOps net inputs outputs) t := by
  obtain ⟨i, hi, hit⟩ := ht
  exact ⟨i, (h.needed hm hi).mem, hit⟩

theorem not_const {t : ℤ} (ht : Writes net m.opList t) : net.isConst t = false := by
  rw [Bool.eq_false_iff]
  exact fun hconst => not_writes_of_const h.wellFormed hconst (h.writes_needed hm ht)

theorem face : Face net (outputIndexes net outputs) m := h.faces.face m (List.mem_of_getElem? hm)

/-- The outputs of a submodule are written in it. -/
theorem writes_of_output {t : ℤ} (ht : t ∈ m.outputs) : Writes net m.opList t := by
  have hface := h.face hm
  cases hface with
  | control i hbreak => exact ⟨i, List.mem_singleton_self i, ht⟩
  | static hstatic => exact hstatic.writes t ht

/-- What is written and not read in a submodule, or is an output of the net, is an output. -/
theorem output_of_writes {t : ℤ} (ht : Writes net m.opList t)
    (hcase : ¬ Reads net m.opList t ∨ t ∈ outputIndexes net outputs) : t ∈ m.outputs := by
  have hin := h.inside_of_writes hm ht
  have hface := h.face hm
  cases hface with
  | control i hbreak =>
    obtain ⟨j, hj, hjt⟩ := ht
    obtain rfl : j = i := List.mem_singleton.1 hj
    exact hjt
  | static hstatic => exact hstatic.outputs t hin ht hcase

/-- What is read and not written in a submodule is an input, but for constants. -/
theorem input_of_reads {t : ℤ} (ht : Reads net m.opList t) (hnot : ¬ Writes net m.opList t)
    (hconst : net.isConst t = false) : t ∈ m.inputs := by
  have hin := h.inside_of_reads hm ht
  have hface := h.face hm
  cases hface with
  | control i hbreak =>
    obtain ⟨j, hj, hjt⟩ := ht
    obtain rfl : j = i := List.mem_singleton.1 hj
    exact hjt
  | static hstatic => exact (hstatic.inputs t).2 ⟨hin, ⟨ht, hnot⟩, hconst⟩

theorem reads_of_input {t : ℤ} (ht : t ∈ m.inputs) : Reads net m.opList t := by
  have hface := h.face hm
  cases hface with
  | control i hbreak => exact ⟨i, List.mem_singleton_self i, ht⟩
  | static hstatic => exact ((hstatic.inputs t).1 ht).2.1.1

theorem not_writes_of_input {t : ℤ} (ht : t ∈ m.inputs) : ¬ Writes net m.opList t := by
  have hord := h.ordered hm
  have hface := h.face hm
  cases hface with
  | control i hbreak =>
    rintro ⟨j, hj, hjt⟩
    obtain rfl : j = i := List.mem_singleton.1 hj
    exact hord.own _ (mem_nodes.2 ⟨j, List.mem_singleton_self j, rfl⟩) t hjt ht
  | static hstatic => exact ((hstatic.inputs t).1 ht).2.1.2

/-! ### Values inside a submodule -/

section Inner

variable {V : Type} {I : Interp V} {T : ℤ → Option V}

theorem inner_of_writes {i : ℕ} (hi : i ∈ m.opList) {t : ℤ}
    (ht : t ∈ (net.opAt i).outputIndexes) :
    inner net I m T t = some (I.apply i ((net.opAt i).inputIndexes.map (inner net I m T))
      ((net.opAt i).outputIndexes.idxOf t)) :=
  eval_solves (h.ordered hm) _ (mem_nodes.2 ⟨i, hi, rfl⟩) t ht

omit h hm in
theorem bind_of_input {t : ℤ} (ht : t ∈ m.inputs) : bind net I m (m.inputs.map T) t = T t := by
  obtain ⟨k, hk⟩ := Option.isSome_iff_exists.1 (List.isSome_idxOf?.2 ht)
  obtain ⟨hlt, hget, -⟩ := List.idxOf?_eq_some_iff.1 hk
  rw [bind, hk]
  simp only [List.getD_eq_getElem?_getD, List.getElem?_map, List.getElem?_eq_getElem hlt, hget,
    Option.map_some, Option.getD_some]

theorem inner_of_input {t : ℤ} (ht : t ∈ m.inputs) : inner net I m T t = T t := by
  have hnot : t ∉ produced (net.nodes m.opList) := fun hmem =>
    h.not_writes_of_input hm ht (mem_produced_nodes.1 hmem)
  exact (eval_of_not_mem hnot).trans (bind_of_input ht)

/-- A constant that is no input of the submodule. -/
theorem inner_of_const {t : ℤ} (hconst : net.isConst t = true) (hnot : t ∉ m.inputs) :
    inner net I m T t = some (I.const t) := by
  have hwrites : t ∉ produced (net.nodes m.opList) := fun hmem =>
    absurd (hconst.symm.trans (h.not_const hm (mem_produced_nodes.1 hmem))) Bool.noConfusion
  refine (eval_of_not_mem hwrites).trans ?_
  have hidx : m.inputs.idxOf? t = none := List.idxOf?_eq_none_iff.2 hnot
  rw [bind, hidx]
  simp only [if_pos hconst]

end Inner

end Divided

/-! ### The order of the submodules -/

namespace Divided

variable {infos : List SubModuleInfo} (h : Divided net inputs outputs infos)

include h

/-- One submodule writes a tensor. -/
theorem writes_unique {k k' : ℕ} {m m' : SubModuleInfo} (hm : infos[k]? = some m)
    (hm' : infos[k']? = some m') {t : ℤ} (ht : Writes net m.opList t)
    (ht' : Writes net m'.opList t) : k = k' := by
  obtain ⟨i, hi, hit⟩ := ht
  obtain ⟨j, hj, hjt⟩ := ht'
  obtain rfl := h.wellFormed.writer_unique (h.needed hm hi).1.lt (h.needed hm' hj).1.lt hit hjt
  have hnodup : (infos.flatMap SubModuleInfo.opList).Nodup := by
    rw [h.faces.ops]
    exact List.nodup_range.sublist neededOps_sublist
  have hdisj := List.pairwise_iff_getElem.1 (List.nodup_flatMap.1 hnodup).2
  obtain ⟨hk, rfl⟩ := List.getElem?_eq_some_iff.1 hm
  obtain ⟨hk', rfl⟩ := List.getElem?_eq_some_iff.1 hm'
  rcases Nat.lt_trichotomy k k' with hlt | heq | hgt
  · exact absurd hj (hdisj k k' hk hk' hlt hi)
  · exact heq
  · exact absurd hi (hdisj k' k hk' hk hgt hj)

/-- A submodule reads what no later one writes. -/
theorem writes_before {k k' : ℕ} {m m' : SubModuleInfo} (hm : infos[k]? = some m)
    (hm' : infos[k']? = some m') {t : ℤ} (ht : Writes net m.opList t)
    (ht' : Reads net m'.opList t) : k ≤ k' := by
  by_contra hlt
  obtain ⟨i, hi, hit⟩ := ht
  obtain ⟨j, hj, hjt⟩ := ht'
  have hsplit : infos = infos.take k ++ infos.drop k := (List.take_append_drop k infos).symm
  have hord : Ordered (net.nodes (neededOps net inputs outputs)) := ordered_neededOps h.wellFormed
  replace hord := hord.later
  rw [← h.faces.ops, hsplit, List.flatMap_append, Net.nodes, List.map_append,
    List.pairwise_append] at hord
  have hmem' : m' ∈ infos.take k := by
    refine List.mem_iff_getElem?.2 ⟨k', ?_⟩
    rw [List.getElem?_take_of_lt (by omega), hm']
  have hmem : m ∈ infos.drop k := by
    refine List.mem_iff_getElem?.2 ⟨0, ?_⟩
    rw [List.getElem?_drop, Nat.add_zero, hm]
  exact hord.2.2 _ (List.mem_map_of_mem (List.mem_flatMap.2 ⟨m', hmem', hj⟩)) _
    (List.mem_map_of_mem (List.mem_flatMap.2 ⟨m, hmem, hi⟩)) t hit hjt

/-- Where an input of a submodule comes from. -/
theorem input_source {k : ℕ} {m : SubModuleInfo} (hm : infos[k]? = some m) {t : ℤ}
    (ht : t ∈ m.inputs) : (t ∈ inputIndexes net inputs ∨ net.isConst t = true) ∨
      ∃ k' m', k' < k ∧ infos[k']? = some m' ∧ t ∈ m'.outputs := by
  have key : ∀ (ms : List SubModuleInfo) (S : ℤ → Prop) (k : ℕ), Fed S ms → ms[k]? = some m →
      S t ∨ ∃ k' m', k' < k ∧ ms[k']? = some m' ∧ t ∈ m'.outputs := by
    intro ms
    induction ms with
    | nil => exact fun S k _ hk => by cases hk
    | cons m₀ ms ih =>
      rintro S k ⟨hins, hfed⟩ hk
      cases k with
      | zero =>
        obtain rfl := Option.some.inj hk
        exact .inl (hins t ht)
      | succ k =>
        rcases ih _ k hfed hk with (hS | hout) | ⟨k', m', hlt, hget, hout⟩
        · exact .inl hS
        · exact .inr ⟨0, m₀, Nat.succ_pos k, rfl, hout⟩
        · exact .inr ⟨k' + 1, m', Nat.succ_lt_succ hlt, hget, hout⟩
  exact key infos _ k h.faces.fed hm

/-- The submodule of a needed operator. -/
theorem exists_submodule {i : ℕ} (hi : Needed net inputs outputs i) :
    ∃ (k : ℕ) (m : SubModuleInfo), infos[k]? = some m ∧ i ∈ m.opList := by
  have hmem := hi.mem
  rw [← h.faces.ops, List.mem_flatMap] at hmem
  obtain ⟨m, hm, him⟩ := hmem
  obtain ⟨k, hk⟩ := List.mem_iff_getElem?.1 hm
  exact ⟨k, m, hk, him⟩

section Stack

variable {V : Type} {I : Interp V} {given : List V}
  (hinv : SlotInv (slots net inputs infos))

include hinv

/-- An output of a submodule stays on the stack. -/
theorem onStack_of_output {k : ℕ} {m : SubModuleInfo} (hm : infos[k]? = some m) {t : ℤ}
    (ht : t ∈ m.outputs) {k' : ℕ} (hlt : k < k') (hle : k' ≤ infos.length) :
    onStack net inputs outputs I given infos k' t =
      inner net I m (onStack net inputs outputs I given infos k) t := by
  have hslot : (slots net inputs infos).1 t ≠ none :=
    slots_ne_none (List.mem_of_getElem? hm) (List.mem_append_right _ ht)
  induction k', hlt using Nat.le_induction with
  | base => rw [onStack_succ hinv hm hslot, if_pos ht]
  | succ k' hlt ih =>
    have hget : infos[k']? = some infos[k'] := List.getElem?_eq_getElem hle
    rw [onStack_succ hinv hget hslot, if_neg, ih (by omega)]
    intro hout
    have := h.writes_unique hm hget (h.writes_of_output hm ht) (h.writes_of_output hget hout)
    omega

end Stack

end Divided

end Mnn.PipelineModule
