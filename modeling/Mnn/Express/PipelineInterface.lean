import Mnn.Express.PipelineCut

/-!
# Inputs and outputs of the submodules

* `Reads`, `Writes`: what a list of operators reads and writes; `computeTensorMask_eq`: the mask;
* `Static`, `Face`: what `_createSubModuleInfo` leaves of a submodule, whatever later ones need of it;
* `Fed`: every input of a submodule is given, a constant, or an output of an earlier one;
* `createSubModuleInfo_spec`: **the submodules of a net**.
-/

namespace Mnn.PipelineModule

variable (net : Net)

/-! ### Masks -/

def Reads (l : List ℕ) (t : ℤ) : Prop := ∃ i ∈ l, t ∈ (net.opAt i).inputIndexes

def Writes (l : List ℕ) (t : ℤ) : Prop := ∃ i ∈ l, t ∈ (net.opAt i).outputIndexes

variable {net}

theorem foldl_or (ts : List ℤ) {c : ℕ} (mask : ℤ → ℕ) (t : ℤ) :
    (ts.foldl (fun mask t => Function.update mask t (mask t ||| c)) mask) t =
      mask t ||| if t ∈ ts then c else 0 := by
  induction ts generalizing mask with
  | nil => exact (Nat.or_zero _).symm
  | cons u ts ih =>
    rw [List.foldl_cons, ih]
    by_cases htu : t = u
    · subst htu
      rw [Function.update_self, if_pos List.mem_cons_self, Nat.or_assoc]
      split
      · rw [Nat.or_self]
      · rw [Nat.or_zero]
    · rw [Function.update_of_ne htu]
      simp only [List.mem_cons, htu, false_or]

theorem ite_or {p q : Prop} [Decidable p] [Decidable q] (c : ℕ) :
    (if p ∨ q then c else 0) = (if p then c else 0) ||| if q then c else 0 := by
  by_cases hp : p <;> by_cases hq : q <;> simp [hp, hq]

open Classical in
theorem computeTensorMask_eq (l : List ℕ) (t : ℤ) :
    computeTensorMask net l t =
      (if Reads net l t then 1 else 0) ||| if Writes net l t then 2 else 0 := by
  have key : ∀ (l : List ℕ) (mask : ℤ → ℕ), (l.foldl (fun tensorMask i =>
      (net.opAt i).outputIndexes.foldl (fun mask t => Function.update mask t (mask t ||| 2))
        ((net.opAt i).inputIndexes.foldl
          (fun mask t => Function.update mask t (mask t ||| 1)) tensorMask)) mask) t =
      mask t ||| ((if Reads net l t then 1 else 0) ||| if Writes net l t then 2 else 0) := by
    intro l
    induction l with
    | nil => simp [Reads, Writes]
    | cons i l ih =>
      intro mask
      have hreads : Reads net (i :: l) t ↔ t ∈ (net.opAt i).inputIndexes ∨ Reads net l t := by
        simp [Reads]
      have hwrites : Writes net (i :: l) t ↔ t ∈ (net.opAt i).outputIndexes ∨ Writes net l t := by
        simp [Writes]
      simp only [List.foldl_cons, ih, foldl_or, hreads, hwrites, ite_or]
      ac_rfl
  rw [computeTensorMask]
  exact (key l fun _ => 0).trans (Nat.zero_or _)

theorem mask_eq_one {l : List ℕ} {t : ℤ} :
    computeTensorMask net l t = 1 ↔ Reads net l t ∧ ¬ Writes net l t := by
  rw [computeTensorMask_eq]
  split <;> split <;> simp [*]

theorem mask_eq_two {l : List ℕ} {t : ℤ} :
    computeTensorMask net l t = 2 ↔ ¬ Reads net l t ∧ Writes net l t := by
  rw [computeTensorMask_eq]
  split <;> split <;> simp [*]

theorem mask_eq_three {l : List ℕ} {t : ℤ} :
    computeTensorMask net l t = 3 ↔ Reads net l t ∧ Writes net l t := by
  rw [computeTensorMask_eq]
  split <;> split <;> simp [*]

theorem mem_tensors {t : ℤ} : t ∈ net.tensors ↔ net.inside t = true := by
  rw [Net.tensors, List.mem_map, Net.inside, Bool.and_eq_true, decide_eq_true_iff, decide_eq_true_iff]
  constructor
  · rintro ⟨i, hi, rfl⟩
    exact ⟨Int.natCast_nonneg i, Int.ofNat_lt.2 (List.mem_range.1 hi)⟩
  · rintro ⟨hle, hlt⟩
    exact ⟨t.toNat, List.mem_range.2 (by omega), Int.toNat_of_nonneg hle⟩

/-! ### Submodules -/

variable {outputIndexes : List ℤ}

/-- A submodule that is no break. -/
structure Static (net : Net) (outputIndexes : List ℤ) (m : SubModuleInfo) : Prop where
  isBreak : m.isBreak = false
  noBreak : ∀ i ∈ m.opList, isBreakOp (net.opAt i) = false
  inputs : ∀ t, t ∈ m.inputs ↔ net.inside t = true ∧ (Reads net m.opList t ∧
    ¬ Writes net m.opList t) ∧ net.isConst t = false
  writes : ∀ t ∈ m.outputs, Writes net m.opList t
  outputs : ∀ t, net.inside t = true → Writes net m.opList t →
    ¬ Reads net m.opList t ∨ t ∈ outputIndexes → t ∈ m.outputs
  mask : ∃ mask, m.tensorMask = some mask ∧
    ∀ t, (mask t = 2 → net.inside t = true → t ∈ m.outputs) ∧ (mask t = 3 → Writes net m.opList t)

/-- What `_createSubModuleInfo` leaves of a submodule. -/
inductive Face (net : Net) (outputIndexes : List ℤ) : SubModuleInfo → Prop
  | control (i : ℕ) (h : isBreakOp (net.opAt i) = true) : Face net outputIndexes (controlOp net i)
  | static {m : SubModuleInfo} (h : Static net outputIndexes m) : Face net outputIndexes m

theorem interface_face (outputIndexes : List ℤ) {m : SubModuleInfo} (h : Piece net m) :
    Face net outputIndexes (interface net outputIndexes m) ∧
      (interface net outputIndexes m).opList = m.opList := by
  cases h with
  | control i hbreak => exact ⟨.control i hbreak, rfl⟩
  | ops l hops =>
    refine ⟨.static ⟨rfl, hops, fun t => ?_, fun t ht => ?_, fun t hin hw hcase => ?_,
      _, rfl, fun t => ⟨fun h2 hin => ?_, fun h3 => (mask_eq_three.1 h3).2⟩⟩, rfl⟩
    · change t ∈ [] ++ net.tensors.filter _ ↔ _
      rw [List.nil_append, List.mem_filter, mem_tensors, Bool.and_eq_true, decide_eq_true_iff,
        mask_eq_one, Bool.not_eq_true']
      exact Iff.rfl
    · change t ∈ [] ++ net.tensors.filter _ at ht
      rw [List.nil_append, List.mem_filter, Bool.or_eq_true, Bool.and_eq_true, decide_eq_true_iff,
        decide_eq_true_iff, mask_eq_two, mask_eq_three] at ht
      rcases ht.2 with h2 | h3
      · exact h2.2
      · exact h3.1.2
    · change t ∈ [] ++ net.tensors.filter _
      rw [List.nil_append, List.mem_filter, Bool.or_eq_true, Bool.and_eq_true, decide_eq_true_iff,
        decide_eq_true_iff, mask_eq_two, mask_eq_three, mem_tensors]
      refine ⟨hin, ?_⟩
      by_cases hr : Reads net l t
      · exact .inr ⟨⟨hr, hw⟩, decide_eq_true (hcase.resolve_left fun hnot => hnot hr)⟩
      · exact .inl ⟨hr, hw⟩
    · change t ∈ [] ++ net.tensors.filter _
      rw [List.nil_append, List.mem_filter, mem_tensors, Bool.or_eq_true, decide_eq_true_iff]
      exact ⟨hin, .inl h2⟩

/-- The same submodule, perhaps with more outputs. -/
structure Grown (m m' : SubModuleInfo) : Prop where
  opList : m'.opList = m.opList
  inputs : m'.inputs = m.inputs
  outputs : ∀ t ∈ m.outputs, t ∈ m'.outputs

theorem Grown.refl (m : SubModuleInfo) : Grown m m := ⟨rfl, rfl, fun _ ht => ht⟩

theorem Grown.trans {m m' m'' : SubModuleInfo} (h : Grown m m') (h' : Grown m' m'') : Grown m m'' :=
  ⟨h'.opList.trans h.opList, h'.inputs.trans h.inputs, fun t ht => h'.outputs t (h.outputs t ht)⟩

theorem forall₂_grown_trans {ms ms' ms'' : List SubModuleInfo} (h : List.Forall₂ Grown ms ms')
    (h' : List.Forall₂ Grown ms' ms'') : List.Forall₂ Grown ms ms'' := by
  induction h generalizing ms'' with
  | nil => exact h'
  | cons hm _ ih =>
    cases h' with
    | cons hm' hms' => exact .cons (hm.trans hm') (ih hms')

theorem exists_grown {ms ms' : List SubModuleInfo} (h : List.Forall₂ Grown ms ms') {m : SubModuleInfo}
    (hm : m ∈ ms) {t : ℤ} (ht : t ∈ m.outputs) : ∃ m' ∈ ms', t ∈ m'.outputs := by
  induction h with
  | nil => exact absurd hm List.not_mem_nil
  | cons hgrown _ ih =>
    rcases List.mem_cons.1 hm with rfl | hm
    · exact ⟨_, List.mem_cons_self, hgrown.outputs t ht⟩
    · obtain ⟨m', hm', ht'⟩ := ih hm
      exact ⟨m', List.mem_cons_of_mem _ hm', ht'⟩

/-- A list of submodules after a change of their outputs. -/
structure Extended (net : Net) (outputIndexes : List ℤ) (ms ms' : List SubModuleInfo) : Prop where
  face : ∀ m ∈ ms', Face net outputIndexes m
  grown : List.Forall₂ Grown ms ms'

theorem extend_spec {ms ms' : List SubModuleInfo} {t : ℤ} (hin : net.inside t = true)
    (h : ∀ m ∈ ms, Face net outputIndexes m) (hext : extend ms t = some ms') :
    Extended net outputIndexes ms ms' ∧ ∃ m ∈ ms', t ∈ m.outputs := by
  induction ms generalizing ms' with
  | nil => cases hext
  | cons m ms ih =>
    obtain ⟨hm, hms⟩ := List.forall_mem_cons.1 h
    have hskip : ∀ ms₁, extend ms t = some ms₁ → ms' = m :: ms₁ →
        Extended net outputIndexes (m :: ms) ms' ∧ ∃ m ∈ ms', t ∈ m.outputs := by
      rintro ms₁ h₁ rfl
      obtain ⟨⟨hface, hgrown⟩, m', hm', ht⟩ := ih hms h₁
      exact ⟨⟨List.forall_mem_cons.2 ⟨hm, hface⟩, .cons (.refl m) hgrown⟩, m',
        List.mem_cons_of_mem m hm', ht⟩
    have hrefl : List.Forall₂ Grown ms ms := List.forall₂_same.2 fun m _ => .refl m
    rw [extend] at hext
    cases hmask : m.tensorMask with
    | none =>
      rw [hmask] at hext
      obtain ⟨ms₁, h₁, heq⟩ := Option.map_eq_some_iff.1 hext
      exact hskip ms₁ h₁ heq.symm
    | some mask =>
      rw [hmask] at hext
      simp only at hext
      cases hm with
      | control i hbreak => cases hmask
      | static hm =>
        obtain ⟨mask', hmask', hinv⟩ := hm.mask
        obtain rfl : mask' = mask := Option.some.inj (hmask'.symm.trans hmask)
        split at hext
        · next h2 =>
          obtain rfl := Option.some.inj hext
          exact ⟨⟨h, .cons (.refl m) hrefl⟩, m, List.mem_cons_self, (hinv t).1 h2 hin⟩
        · split at hext
          · next h3 =>
            obtain rfl := Option.some.inj hext
            refine ⟨⟨List.forall_mem_cons.2 ⟨.static ⟨hm.isBreak, hm.noBreak, hm.inputs,
              fun u hu => ?_, fun u hu hw hcase => ?_, _, rfl, fun u => ?_⟩, hms⟩,
              .cons ⟨rfl, rfl, fun u hu => List.mem_append_left _ hu⟩ hrefl⟩, _,
              List.mem_cons_self, List.mem_append_right _ (List.mem_singleton_self t)⟩
            · rcases List.mem_append.1 hu with hu | hu
              · exact hm.writes u hu
              · rw [List.mem_singleton.1 hu]
                exact (hinv t).2 h3
            · exact List.mem_append_left _ (hm.outputs u hu hw hcase)
            · by_cases hut : u = t
              · subst hut
                rw [Function.update_self]
                exact ⟨fun _ _ => List.mem_append_right _ (List.mem_singleton_self u),
                  fun h => absurd h (by decide)⟩
              · rw [Function.update_of_ne hut]
                exact ⟨fun h2 hin => List.mem_append_left _ ((hinv u).1 h2 hin), (hinv u).2⟩
          · obtain ⟨ms₁, h₁, heq⟩ := Option.map_eq_some_iff.1 hext
            exact hskip ms₁ h₁ heq.symm

/-! ### The list of submodules -/

/-- Every input is in `S`, or an output of an earlier submodule. -/
def Fed (S : ℤ → Prop) : List SubModuleInfo → Prop
  | [] => True
  | m :: ms => (∀ t ∈ m.inputs, S t) ∧ Fed (fun t => S t ∨ t ∈ m.outputs) ms

theorem Fed.grown {S S' : ℤ → Prop} {ms ms' : List SubModuleInfo} (h : Fed S ms)
    (hgrown : List.Forall₂ Grown ms ms') (hS : ∀ t, S t → S' t) : Fed S' ms' := by
  induction hgrown generalizing S S' with
  | nil => trivial
  | cons hm _ ih =>
    refine ⟨fun t ht => hS t (h.1 t (hm.inputs ▸ ht)), ih h.2 fun t ht => ?_⟩
    exact ht.imp (hS t) (hm.outputs t)

theorem fed_append {S : ℤ → Prop} {ms : List SubModuleInfo} {m : SubModuleInfo} :
    Fed S (ms ++ [m]) ↔ Fed S ms ∧ ∀ t ∈ m.inputs, S t ∨ ∃ m' ∈ ms, t ∈ m'.outputs := by
  induction ms generalizing S with
  | nil => simp [Fed]
  | cons m' ms ih =>
    rw [List.cons_append, Fed, Fed, ih, and_assoc]
    simp only [List.exists_mem_cons_iff, or_assoc]

/-- What the submodules of a net are. -/
structure Faces (net : Net) (inputIndexes outputIndexes : List ℤ) (ops : List ℕ)
    (ms : List SubModuleInfo) : Prop where
  face : ∀ m ∈ ms, Face net outputIndexes m
  ops : ms.flatMap SubModuleInfo.opList = ops
  fed : Fed (fun t => t ∈ inputIndexes ∨ net.isConst t = true) ms

variable {inputIndexes : List ℤ} {ops : List ℕ}

theorem Extended.faces {ms ms' : List SubModuleInfo} (hext : Extended net outputIndexes ms ms')
    (h : Faces net inputIndexes outputIndexes ops ms) :
    Faces net inputIndexes outputIndexes ops ms' := by
  refine ⟨hext.face, ?_, h.fed.grown hext.grown fun t ht => ht⟩
  rw [← h.ops]
  have hgrown := hext.grown
  clear h hext
  induction hgrown with
  | nil => rfl
  | cons hm _ ih => rw [List.flatMap_cons, List.flatMap_cons, hm.opList, ih]

theorem Extended.refl {ms : List SubModuleInfo} (h : ∀ m ∈ ms, Face net outputIndexes m) :
    Extended net outputIndexes ms ms := ⟨h, List.forall₂_same.2 fun m _ => .refl m⟩

/-- The inputs of a submodule, one after another. -/
theorem checkInputs_spec {ts : List ℤ} {ms ms' : List SubModuleInfo}
    (hin : ∀ t ∈ ts, net.inside t = true) (h : ∀ m ∈ ms, Face net outputIndexes m)
    (hcheck : ts.foldlM (checkInput net inputIndexes) ms = some ms') :
    Extended net outputIndexes ms ms' ∧ ∀ t ∈ ts,
      (t ∈ inputIndexes ∨ net.isConst t = true) ∨ ∃ m ∈ ms', t ∈ m.outputs := by
  induction ts generalizing ms with
  | nil =>
    obtain rfl : ms = ms' := Option.some.inj hcheck
    exact ⟨.refl h, fun t ht => absurd ht List.not_mem_nil⟩
  | cons t ts ih =>
    obtain ⟨hint, hin⟩ := List.forall_mem_cons.1 hin
    rw [List.foldlM_cons] at hcheck
    obtain ⟨ms₁, h₁, hrest⟩ := Option.bind_eq_some_iff.1 hcheck
    have hone : Extended net outputIndexes ms ms₁ ∧
        ((t ∈ inputIndexes ∨ net.isConst t = true) ∨ ∃ m ∈ ms₁, t ∈ m.outputs) := by
      rw [checkInput] at h₁
      split at h₁
      · next hcond =>
        obtain rfl := Option.some.inj h₁
        refine ⟨.refl h, ?_⟩
        simpa only [Bool.or_eq_true, decide_eq_true_eq, List.any_eq_true] using hcond
      · obtain ⟨hext, hout⟩ := extend_spec hint h h₁
        exact ⟨hext, .inr hout⟩
    obtain ⟨hext, htail⟩ := ih hin hone.1.face hrest
    refine ⟨⟨hext.face, ?_⟩, List.forall_mem_cons.2 ⟨hone.2.imp_right ?_, htail⟩⟩
    · exact forall₂_grown_trans hone.1.grown hext.grown
    · rintro ⟨m, hm, hout⟩
      exact exists_grown hext.grown hm hout

theorem addSubModule_spec {ms ms' : List SubModuleInfo} {m : SubModuleInfo} (hpiece : Piece net m)
    (hin : ∀ i ∈ m.opList, ∀ t ∈ (net.opAt i).inputIndexes, net.inside t = true)
    (h : Faces net inputIndexes outputIndexes ops ms)
    (hadd : addSubModule net inputIndexes outputIndexes ms m = some ms') :
    Faces net inputIndexes outputIndexes (ops ++ m.opList) ms' := by
  obtain ⟨hface, hops⟩ := interface_face outputIndexes hpiece
  rw [addSubModule] at hadd
  obtain ⟨ms₁, h₁, rfl⟩ := Option.map_eq_some_iff.1 hadd
  generalize interface net outputIndexes m = face at hface hops h₁ ⊢
  have hinside : ∀ t ∈ face.inputs, net.inside t = true := by
    cases hface with
    | control i hbreak =>
      exact hin i (hops ▸ List.mem_singleton_self i)
    | static hstatic => exact fun t ht => ((hstatic.inputs t).1 ht).1
  obtain ⟨hext, hvalid⟩ := checkInputs_spec hinside h.face h₁
  have hfaces := hext.faces h
  refine ⟨fun m' hm' => ?_, ?_, fed_append.2 ⟨hfaces.fed, hvalid⟩⟩
  · rcases List.mem_append.1 hm' with hm' | hm'
    · exact hfaces.face m' hm'
    · rwa [List.mem_singleton.1 hm']
  · rw [List.flatMap_append, hfaces.ops, List.flatMap_singleton, hops]

/-- **The submodules of a net.** -/
theorem createSubModuleInfo_spec {infos : List SubModuleInfo}
    (hin : ∀ i ∈ ops, ∀ t ∈ (net.opAt i).inputIndexes, net.inside t = true)
    (hcreate : createSubModuleInfo net inputIndexes outputIndexes ops = some infos) :
    Faces net inputIndexes outputIndexes ops infos := by
  have key : ∀ {pieces : List SubModuleInfo} {ops₀ ops₁ : List ℕ} {ms : List SubModuleInfo},
      Cuts net ops₁ pieces →
      (∀ i ∈ ops₁, ∀ t ∈ (net.opAt i).inputIndexes, net.inside t = true) →
      Faces net inputIndexes outputIndexes ops₀ ms →
      pieces.foldlM (addSubModule net inputIndexes outputIndexes) ms = some infos →
      Faces net inputIndexes outputIndexes (ops₀ ++ ops₁) infos := by
    intro pieces
    induction pieces with
    | nil =>
      rintro ops₀ ops₁ ms ⟨rfl, -⟩ - hms hfold
      obtain rfl : ms = infos := Option.some.inj hfold
      rwa [List.flatMap_nil, List.append_nil]
    | cons m pieces ih =>
      rintro ops₀ ops₁ ms ⟨rfl, hpiece⟩ hin hms hfold
      rw [List.flatMap_cons] at hin ⊢
      rw [List.foldlM_cons] at hfold
      obtain ⟨ms₁, h₁, hrest⟩ := Option.bind_eq_some_iff.1 hfold
      have hone := addSubModule_spec (hpiece m List.mem_cons_self)
        (fun i hi => hin i (List.mem_append_left _ hi)) hms h₁
      rw [← List.append_assoc]
      exact ih ⟨rfl, fun m' hm' => hpiece m' (List.mem_cons_of_mem m hm')⟩
        (fun i hi => hin i (List.mem_append_right _ hi)) hone hrest
  have hcuts := splitSubModuleForShapeConst_spec (cut_spec net ops)
  exact key hcuts hin ⟨fun _ hm => absurd hm List.not_mem_nil, rfl, trivial⟩ hcreate

end Mnn.PipelineModule
