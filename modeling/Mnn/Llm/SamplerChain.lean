import Mnn.Llm.SamplerSubset

/-!
# Lists of samplers

* `StageOk`, `stage_iff`: what a sampler needs to leave at least one id;
* `Valid.handleSelect`: the selection returns an id of the vocabulary;
* `ChainValid`, `chain_iff`: a list of samplers, one after the other;
* `mixed_iff`: **a configured list of samplers goes through exactly when every sampler of it meets
  its condition on the subset that it gets**.
-/

namespace Mnn.Sampler

open Lib

variable {R : Type} [Field R] [LinearOrder R] {lib : Library R} {mConfig : SamplerConfig R}
  {L : List R} {s s' : SubsetLogits R}

/-! ### One sampler -/

/-- The logits in force behind a sampler; the penalty changes them. -/
def inForce (stage : Stage) (L : List R) (s' : SubsetLogits R) : List R :=
  if stage = .penalty then s'.logits.data else L

/-- A subset with at least one id. -/
structure Valid (L : List R) (s : SubsetLogits R) : Prop extends Holds L s where
  ne_nil : s.logits.data ≠ []

/-- What a sampler needs of the subset that it gets, of the history and of its parameters. -/
def StageOk (mConfig : SamplerConfig R) (prev : List ℤ) (s : SubsetLogits R) : Stage → Prop
  | .topK => 1 ≤ mConfig.topK ∧ mConfig.topK ≤ s.logits.data.length
  | .topP => 0 < mConfig.topP
  | .tfs => 3 ≤ s.logits.data.length
  | .penalty => PenaltyOk mConfig prev s.logits.data.length
  | .greedy | .temperature | .minP | .typical | .other => True

variable {prev : List ℤ}

theorem Holds.penalty (h : Holds L s) (hwhole : s.isSubset = false)
    (hs : penalty mConfig prev s = some s') : Holds s'.logits.data s' := by
  obtain ⟨-, hsub, hcols, hlen⟩ := penalty_frame hs
  have hids : ids s'.logits.data.length s' = List.range s'.logits.data.length :=
    if_neg (by rw [hsub, hwhole]; exact Bool.false_ne_true)
  refine ⟨by rw [hcols, hlen, h.cols], hids ▸ List.nodup_range, ?_⟩
  rw [hids, List.forall₂_iff_get]
  exact ⟨List.length_range, fun i hi hi' => by simp⟩

/-- A sampler that looks for candidates. -/
def IsFilter : Stage → Prop
  | .topK | .topP | .minP | .tfs | .typical => True
  | .greedy | .temperature | .penalty | .other => False

/-- What a sampler that comes to its end has done. -/
theorem stage_cases (h : Holds L s) {stage : Stage}
    (hs : subsetSampler lib mConfig prev stage s = some s') :
    (IsFilter stage ∧ ∃ out, Filtered L s out s') ∨
      (stage = .penalty ∧ penalty mConfig prev s = some s') ∨
        (stage ≠ .penalty ∧ ¬ IsFilter stage ∧ s = s') := by
  have hfilter : IsFilter stage → ∀ s₁ out, subsetSampler lib mConfig prev stage s = some s₁ →
      Filtered L s out s₁ → IsFilter stage ∧ ∃ out, Filtered L s out s' := by
    intro hstage s₁ out hs₁ hout
    obtain rfl := Option.some.inj (hs₁.symm.trans hs)
    exact ⟨hstage, out, hout⟩
  cases stage with
  | penalty => exact .inr (.inl ⟨rfl, hs⟩)
  | topK =>
    obtain ⟨out, hout, -⟩ := topK_filtered h hs
    exact .inl (hfilter trivial s' out hs hout)
  | topP =>
    obtain ⟨s₁, out, hs₁, hout, -⟩ := topP_spec lib mConfig h
    exact .inl (hfilter trivial s₁ out hs₁ hout)
  | minP =>
    obtain ⟨s₁, out, hs₁, hout, -⟩ := minP_spec lib mConfig h
    exact .inl (hfilter trivial s₁ out hs₁ hout)
  | typical =>
    obtain ⟨s₁, out, hs₁, hout, -⟩ := typical_spec lib mConfig h
    exact .inl (hfilter trivial s₁ out hs₁ hout)
  | tfs =>
    rcases Nat.lt_or_ge s.logits.data.length 3 with hlt | hge
    · rw [subsetSampler, tfs_eq_none h hlt] at hs
      cases hs
    · obtain ⟨s₁, out, hs₁, hout, -⟩ := tfs_spec lib mConfig h hge
      exact .inl (hfilter trivial s₁ out hs₁ hout)
  | greedy | temperature | other =>
    exact .inr (.inr ⟨Stage.noConfusion, id, Option.some.inj hs⟩)

/-- A sampler that comes to its end leaves a subset, which may be empty. -/
theorem Holds.stage (h : Holds L s) {stage : Stage}
    (hwhole : stage = .penalty → s.isSubset = false)
    (hs : subsetSampler lib mConfig prev stage s = some s') : Holds (inForce stage L s') s' := by
  rcases stage_cases h hs with ⟨hfilter, out, hout⟩ | ⟨rfl, hpenalty⟩ | ⟨hstage, -, rfl⟩
  · rw [inForce, if_neg fun heq => by rw [heq] at hfilter; exact hfilter]
    exact hout.holds
  · exact h.penalty (hwhole rfl) hpenalty
  · rwa [inForce, if_neg hstage]

omit [Field R] [LinearOrder R] in
theorem Filtered.valid_iff {out : List (IndexScore R)} (h : Filtered L s out s') :
    Valid L s' ↔ out ≠ [] := by
  have hnil : s'.logits.data = [] ↔ out = [] := by
    rw [← List.length_eq_zero_iff, h.length, List.length_eq_zero_iff]
  exact ⟨fun hv => mt hnil.2 hv.ne_nil, fun hout => ⟨h.holds, mt hnil.1 hout⟩⟩

omit [Field R] [LinearOrder R] in
/-- The condition of a filter that comes to its end. -/
theorem filter_iff {out : List (IndexScore R)} {x : Option (SubsetLogits R)} (hs : x = some s')
    (hout : Filtered L s out s') {p : Prop} (hp : out ≠ [] ↔ p) :
    (∃ s', x = some s' ∧ Valid L s') ↔ p := by
  rw [← hp, ← hout.valid_iff]
  constructor
  · rintro ⟨s₁, hs₁, hvalid⟩
    obtain rfl := Option.some.inj (hs₁.symm.trans hs)
    exact hvalid
  · exact fun hvalid => ⟨s', hs, hvalid⟩

variable (lib mConfig prev) in
/-- A sampler leaves at least one id exactly when its condition is met. -/
theorem stage_iff (h : Valid L s) {stage : Stage} (hwhole : stage = .penalty → s.isSubset = false) :
    (∃ s', subsetSampler lib mConfig prev stage s = some s' ∧ Valid (inForce stage L s') s') ↔
      StageOk mConfig prev s stage := by
  cases stage with
  | penalty =>
    rw [StageOk, ← exists_penalty_iff]
    refine exists_congr fun s' => and_iff_left_of_imp fun hs => ?_
    refine ⟨h.penalty (hwhole rfl) hs, ?_⟩
    rw [← List.length_pos_iff, (penalty_frame hs).2.2.2]
    exact List.length_pos_iff.2 h.ne_nil
  | topK =>
    constructor
    · rintro ⟨s', hs, -⟩
      by_contra hK
      rw [subsetSampler, topK_eq_none (List.length_pos_iff.2 h.ne_nil) hK] at hs
      cases hs
    · rintro ⟨hK, hlen⟩
      obtain ⟨s', hs⟩ := exists_topK lib h.toHolds hK hlen
      obtain ⟨out, hout, hlen'⟩ := topK_filtered h.toHolds hs
      refine ⟨s', hs, hout.valid_iff.2 ?_⟩
      rw [← List.length_pos_iff, hlen']
      omega
  | topP =>
    obtain ⟨s', out, hs, hout, hp⟩ := topP_spec lib mConfig h.toHolds
    exact filter_iff hs hout (hp h.ne_nil)
  | minP =>
    obtain ⟨s', out, hs, hout, hp⟩ := minP_spec lib mConfig h.toHolds
    exact filter_iff hs hout (iff_true_intro (hp h.ne_nil))
  | typical =>
    obtain ⟨s', out, hs, hout, hp⟩ := typical_spec lib mConfig h.toHolds
    exact filter_iff hs hout (iff_true_intro (hp h.ne_nil))
  | tfs =>
    rcases Nat.lt_or_ge s.logits.data.length 3 with hlt | hge
    · refine iff_of_false ?_ (not_le.2 hlt)
      rintro ⟨s', hs, -⟩
      rw [subsetSampler, tfs_eq_none h.toHolds hlt] at hs
      cases hs
    · obtain ⟨s', out, hs, hout, hne⟩ := tfs_spec lib mConfig h.toHolds hge
      exact filter_iff hs hout (iff_of_true hne hge)
  | greedy | temperature | other => exact iff_of_true ⟨s, rfl, h⟩ trivial

/-! ### The selection -/

omit [Field R] [LinearOrder R] in
theorem Holds.select (h : Holds L s) {k : ℕ} (hk : k < s.logits.data.length) :
    ∃ id, select s k = some id ∧ 0 ≤ id ∧ id < L.length := by
  have hk' : k < (ids L.length s).length := h.length ▸ hk
  unfold Sampler.select
  by_cases hs : s.isSubset
  · have hlt := h.lt (List.getElem_mem hk')
    simp only [ids_of_isSubset hs] at hk' hlt
    refine ⟨s.index[k], ?_, Int.natCast_nonneg _, Int.ofNat_lt.2 hlt⟩
    rw [if_pos hs, if_pos (Int.natCast_nonneg k), Int.toNat_natCast, List.getElem?_eq_getElem hk',
      Option.map_some]
  · rw [ids, if_neg hs, List.length_range] at hk'
    exact ⟨k, if_neg hs, Int.natCast_nonneg k, Int.ofNat_lt.2 hk'⟩

theorem exists_randomSelectFrom {probs : List R} (hprobs : probs ≠ []) (target c : R) (i : ℕ) :
    ∃ k < probs.length, randomSelectFrom target i c probs = (i + k : ℕ) := by
  induction probs generalizing i c with
  | nil => exact absurd rfl hprobs
  | cons p probs ih =>
    unfold randomSelectFrom
    split_ifs with hlt
    · exact ⟨0, Nat.succ_pos _, rfl⟩
    · cases probs with
      | nil => exact ⟨0, Nat.one_pos, by simp [randomSelectFrom]⟩
      | cons q probs =>
        obtain ⟨k, hk, heq⟩ := ih (List.cons_ne_nil q probs) (c + p) (i + 1)
        exact ⟨k + 1, Nat.succ_lt_succ hk, by rw [heq]; congr 1; omega⟩

omit [Field R] in
theorem Valid.argmaxSelect (h : Valid L s) :
    ∃ id, argmaxSelect s = some id ∧ 0 ≤ id ∧ id < L.length := by
  have hpos := List.length_pos_iff.2 h.ne_nil
  -- the best index so far is inside the row
  obtain ⟨best, hbest, hlt⟩ := exists_foldlM (l := List.range s.logits.cols)
    (f := fun (best : R × ℕ) i => do
      let score ← s.logits.data[i]?
      some (if best.1 < score then (score, i) else best))
    (b := (s.logits.data[0], 0)) (fun best => best.2 < s.logits.data.length)
    (fun i hi best hlt => by
      rw [List.mem_range, h.cols] at hi
      rw [List.getElem?_eq_getElem hi]
      refine ⟨_, rfl, ?_⟩
      split_ifs
      · exact hi
      · exact hlt) hpos
  unfold Sampler.argmaxSelect
  rw [List.getElem?_eq_getElem hpos, Option.bind_eq_bind, Option.bind_some, hbest]
  exact h.toHolds.select hlt

/-- One of the ids of a subset is selected. -/
theorem Valid.handleSelect (h : Valid L s) (target : R) :
    ∃ id, handleSelect lib mConfig target s = some id ∧ 0 ≤ id ∧ id < L.length := by
  unfold Sampler.handleSelect
  cases mConfig.selectType with
  | greedy => exact h.argmaxSelect
  | temperature =>
    have hlen := lib.length_softmax mConfig.temperature s.logits.data
    obtain ⟨k, hk, heq⟩ := exists_randomSelectFrom (List.length_pos_iff.1
      (hlen ▸ List.length_pos_iff.2 h.ne_nil)) target 0 0
    obtain ⟨id, hid⟩ := h.toHolds.select (hlen ▸ hk)
    refine ⟨id, ?_, hid.2⟩
    rw [← hid.1, reSoftmaxSelect, data_tempratureSoftmax h.cols, randomSelect, heq, Nat.zero_add]
  | other =>
    refine ⟨0, rfl, le_rfl, ?_⟩
    have hne : ids L.length s ≠ [] := by
      rw [← List.length_pos_iff, h.length]
      exact List.length_pos_iff.2 h.ne_nil
    obtain ⟨id, hid⟩ := List.exists_mem_of_ne_nil _ hne
    exact Int.ofNat_lt.2 (Nat.zero_lt_of_lt (h.lt hid))

/-! ### A list of samplers -/

section Chain

variable (lib mConfig) (prev)

/-- Every sampler of the list leaves at least one id, with the logits in their order, and what is
selected at the end is an id of the vocabulary. -/
def ChainValid : List Stage → SubsetLogits R → List R → Prop
  | [], s, L => ∀ target, ∃ id, handleSelect lib mConfig target s = some id ∧ 0 ≤ id ∧ id < L.length
  | stage :: stages, s, L =>
    ∃ s', subsetSampler lib mConfig prev stage s = some s' ∧ Valid (inForce stage L s') s' ∧
      ChainValid stages s' (inForce stage L s')

/-- Every sampler of the list that is reached meets its condition. -/
def ChainOk : List Stage → SubsetLogits R → Prop
  | [], _ => True
  | stage :: stages, s =>
    StageOk mConfig prev s stage ∧
      ∀ s', subsetSampler lib mConfig prev stage s = some s' → ChainOk stages s'

variable {lib mConfig prev} {stages : List Stage}

variable (lib mConfig prev) in
theorem chain_iff (h : Valid L s) (hstages : .penalty ∉ stages.tail)
    (hwhole : .penalty ∈ stages → s.isSubset = false) :
    ChainValid lib mConfig prev stages s L ↔ ChainOk lib mConfig prev stages s := by
  induction stages generalizing L s with
  | nil => exact iff_of_true (fun target => h.handleSelect target) trivial
  | cons stage stages ih =>
    have hhead : stage = .penalty → s.isSubset = false := fun heq =>
      hwhole (heq ▸ List.mem_cons_self)
    have hstage := stage_iff lib mConfig prev h hhead
    have htail : .penalty ∉ stages.tail := fun hmem => hstages (List.mem_of_mem_tail hmem)
    rw [ChainValid, ChainOk, ← hstage]
    constructor
    · rintro ⟨s', hs', hvalid, hrest⟩
      refine ⟨⟨s', hs', hvalid⟩, fun s₁ hs₁ => ?_⟩
      obtain rfl := Option.some.inj (hs'.symm.trans hs₁)
      exact (ih hvalid htail fun hmem => absurd hmem hstages).1 hrest
    · rintro ⟨⟨s', hs', hvalid⟩, hrest⟩
      exact ⟨s', hs', hvalid, (ih hvalid htail fun hmem => absurd hmem hstages).2 (hrest s' hs')⟩

/-- A sampler does not change the size of the vocabulary. -/
theorem Holds.length_inForce (h : Holds L s) {stage : Stage}
    (hwhole : stage = .penalty → s.isSubset = false)
    (hs : subsetSampler lib mConfig prev stage s = some s') :
    (inForce stage L s').length = L.length := by
  unfold inForce
  split_ifs with hpenalty
  · subst hpenalty
    rw [(penalty_frame hs).2.2.2, ← h.length, ids,
      if_neg (by rw [hwhole rfl]; exact Bool.noConfusion), List.length_range]
  · rfl

/-- The whole list runs, and so does the selection. -/
theorem ChainValid.run (h : ChainValid lib mConfig prev stages s L) (hs : Holds L s)
    (hstages : .penalty ∉ stages.tail) (hwhole : .penalty ∈ stages → s.isSubset = false)
    (target : R) :
    ∃ s' id, stages.foldlM (fun s stage => subsetSampler lib mConfig prev stage s) s = some s' ∧
      handleSelect lib mConfig target s' = some id ∧ 0 ≤ id ∧ id < L.length := by
  induction stages generalizing L s with
  | nil =>
    obtain ⟨id, hid⟩ := h target
    exact ⟨s, id, rfl, hid⟩
  | cons stage stages ih =>
    obtain ⟨s₁, hs₁, hvalid, hrest⟩ := h
    have hhead : stage = .penalty → s.isSubset = false := fun heq =>
      hwhole (heq ▸ List.mem_cons_self)
    obtain ⟨s₂, id, hs₂, hid⟩ := ih hrest hvalid.toHolds
      (fun hmem => hstages (List.mem_of_mem_tail hmem)) fun hmem => absurd hmem hstages
    rw [hs.length_inForce hhead hs₁] at hid
    exact ⟨s₂, id, by rw [List.foldlM_cons, hs₁]; exact hs₂, hid⟩

end Chain

theorem penalty_notMem_tail (stages : List Stage) : .penalty ∉ (penaltyFirst stages).tail := by
  have hfilter : Stage.penalty ∉ stages.filter (· ≠ .penalty) := by simp
  unfold penaltyFirst
  split_ifs
  · exact hfilter
  · exact fun hmem => hfilter (List.mem_of_mem_tail hmem)

theorem penaltyFirst_eq_nil {stages : List Stage} : penaltyFirst stages = [] ↔ stages = [] := by
  unfold penaltyFirst
  split_ifs with hmem
  · simp [List.ne_nil_of_mem hmem]
  · rw [List.filter_eq_self.2 fun stage hstage => by
      simpa using fun heq : stage = .penalty => hmem (heq ▸ hstage)]

variable (lib mConfig) (llmConfig : LlmConfig R) (prev)

/-- A vector of logits. -/
def vector (scores : List R) : Logits R := { cols := scores.length, data := scores }

/-- The configured list of samplers goes through on these logits, and `sample` returns an id of the
vocabulary whatever it draws. -/
def MixedValid (scores : List R) : Prop :=
  ∃ cfg, configSampler mConfig llmConfig .mixed = some cfg ∧
    ChainValid lib cfg prev cfg.mixedSamplers (createLogits (vector scores)) scores ∧
    ∀ target, ∃ id, sample lib cfg .mixed prev target (vector scores) = some id ∧
      0 ≤ id ∧ id < scores.length

/-- There is a sampler in the list, and every one meets its condition. -/
def MixedOk (scores : List R) : Prop :=
  llmConfig.mixedSamplers ≠ [] ∧
    ∀ cfg, configSampler mConfig llmConfig .mixed = some cfg →
      ChainOk lib cfg prev cfg.mixedSamplers (createLogits (vector scores))

omit [Field R] [LinearOrder R] in
theorem configSampler_mixed (h : llmConfig.mixedSamplers ≠ []) :
    ∃ cfg, configSampler mConfig llmConfig .mixed = some cfg ∧
      cfg.mixedSamplers = penaltyFirst llmConfig.mixedSamplers := by
  unfold configSampler configMixed
  cases hlast : (penaltyFirst llmConfig.mixedSamplers).getLast? with
  | none => exact absurd (penaltyFirst_eq_nil.1 (List.getLast?_eq_none_iff.1 hlast)) h
  | some last =>
    simp only [hlast, Option.bind_eq_bind, Option.bind_some, Option.some.injEq]
    exact ⟨_, rfl, rfl⟩

/-- **Main theorem.**  On every vector of logits the configured list of samplers keeps a subset of
distinct ids with their logits, and an id of the vocabulary is returned, exactly when the list is
not empty and every sampler of it meets its condition on the subset that it gets. -/
theorem mixed_iff (score : R) (scores : List R) :
    MixedValid lib mConfig prev llmConfig (score :: scores) ↔
      MixedOk lib mConfig prev llmConfig (score :: scores) := by
  by_cases hne : llmConfig.mixedSamplers = []
  · refine iff_of_false ?_ fun h => h.1 hne
    rintro ⟨cfg, hcfg, -⟩
    simp [configSampler, configMixed, hne, penaltyFirst] at hcfg
  · obtain ⟨cfg, hcfg, hmixed⟩ := configSampler_mixed mConfig llmConfig hne
    have hvalid : Valid (score :: scores) (createLogits (vector (score :: scores))) :=
      ⟨Holds.createLogits (v := vector (score :: scores)) rfl, List.cons_ne_nil score scores⟩
    have htail : .penalty ∉ cfg.mixedSamplers.tail := by
      rw [hmixed]
      exact penalty_notMem_tail _
    have hchain := chain_iff lib cfg prev hvalid htail fun _ => rfl
    constructor
    · rintro ⟨cfg', hcfg', hrun, -⟩
      obtain rfl := Option.some.inj (hcfg.symm.trans hcfg')
      refine ⟨hne, fun cfg' hcfg' => ?_⟩
      obtain rfl := Option.some.inj (hcfg.symm.trans hcfg')
      exact hchain.1 hrun
    · rintro ⟨-, hok⟩
      have hrun := hchain.2 (hok cfg hcfg)
      refine ⟨cfg, hcfg, hrun, fun target => ?_⟩
      obtain ⟨s', id, hs', hid, hrange⟩ := hrun.run hvalid.toHolds htail (fun _ => rfl) target
      exact ⟨id, by rw [sample, mixed, hs']; exact hid, hrange⟩

/-- Two candidates are too few for the second differences of `tfs`. -/
theorem not_mixedValid_topK_tfs :
    ¬ MixedValid listLibrary (.initial ℚ) []
      { LlmConfig.initial ℚ with topK := 2, mixedSamplers := [.topK, .tfs] } [0, 0, 0] := by
  rintro ⟨cfg, hcfg, hchain, -⟩
  obtain rfl := Option.some.inj hcfg
  obtain ⟨s, hs, -, s', hs', -⟩ := hchain
  have hvalid : Holds [0, 0, 0] (createLogits (vector [(0 : ℚ), 0, 0])) :=
    Holds.createLogits (v := vector [(0 : ℚ), 0, 0]) rfl
  obtain ⟨out, hout, hlen⟩ := topK_filtered hvalid hs
  have htwo : s.logits.data.length = 2 := hout.length.trans hlen
  rw [subsetSampler, tfs_eq_none hout.holds (by omega)] at hs'
  cases hs'

end Mnn.Sampler
