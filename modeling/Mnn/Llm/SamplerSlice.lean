import Mnn.Llm.SamplerChain

/-!
# One row of several

`Llm::sample` (`transformers/llm/engine/src/llm.cpp`) cuts a row out of the logits only where its
offset is not zero; the first row is sampled on the whole tensor.

* `llmSample`: the code;
* `Alone`: a row is sampled as if it were the only one;
* `Same`, `Same.sample`: without a filter the other rows do not matter;
* `sampled_of_ok`: **when a row is sampled alone**, exactly for lists whose first filter is `topK`.
-/

namespace Mnn.Sampler

open Lib

variable {R : Type} [Field R] [LinearOrder R] (lib : Library R) (mConfig : SamplerConfig R)

/-- `Llm::sample`. -/
def llmSample (type : SamplerType) (prev : List ℤ) (target : R) (logits : Logits R)
    (offset size : ℕ) : Option ℤ :=
  sample lib mConfig type prev target <|
    if offset ≠ 0 ∧ size ≠ 0 then vector ((logits.data.drop offset).take size) else logits

/-- The samplers that a configuration runs. -/
def stages : SamplerType → List Stage
  | .single stage => [stage]
  | .mixed => mConfig.mixedSamplers

/-- Row `r` of `r + 1 + q` rows gives an id of the vocabulary, the one that the sampler returns for
the row alone, whatever stands in the other rows. -/
def RowAlone (type : SamplerType) (prev : List ℤ) (r q : ℕ) (row : List R) : Prop :=
  ∀ target, 0 ≤ target → target < 1 →
    ∃ id, sample lib mConfig type prev target (vector row) = some id ∧ 0 ≤ id ∧ id < row.length ∧
      ∀ above below : List R, above.length = r * row.length → below.length = q * row.length →
        llmSample lib mConfig type prev target
          { cols := row.length, data := above ++ row ++ below } (r * row.length) row.length =
            some id

/-- The row is cut out, or no filter and no division by a zero temperature sees the other rows. -/
def RowOk (type : SamplerType) (r q : ℕ) : Prop :=
  0 < r ∨ q = 0 ∨
    (∀ stage ∈ stages mConfig type, ¬ IsFilter stage) ∧
      (mConfig.selectType = .temperature → mConfig.temperature ≠ 0)

variable {lib mConfig} {type : SamplerType} {prev : List ℤ} {L : List R} {s s' : SubsetLogits R}

/-- A single sampler is a list of one. -/
theorem sample_eq (target : R) (logits : Logits R) :
    sample lib mConfig type prev target logits =
      ((stages mConfig type).foldlM (fun s stage => subsetSampler lib mConfig prev stage s)
        (createLogits logits)).bind (handleSelect lib mConfig target) := by
  cases type with
  | mixed => rfl
  | single stage =>
    simp only [sample, stages, List.foldlM_cons, List.foldlM_nil]
    cases subsetSampler lib mConfig prev stage (createLogits logits) <;> rfl

/-! ### Rows that no filter sees -/

/-- The first row of the tensor is the vector, and both are whole. -/
structure Same (n : ℕ) (s t : SubsetLogits R) (extra : List R) : Prop where
  whole : s.isSubset = false
  whole' : t.isSubset = false
  cols : s.logits.cols = n
  cols' : t.logits.cols = n
  length : t.logits.data.length = n
  data : s.logits.data = t.logits.data ++ extra

variable {n : ℕ} {t t' : SubsetLogits R} {extra : List R}

theorem foldlM_inv {α β : Type} {f : β → α → Option β} (inv : β → Prop)
    (hf : ∀ a b b', inv b → f b a = some b' → inv b') {l : List α} {b b' : β} (hb : inv b)
    (h : l.foldlM f b = some b') : inv b' := by
  induction l generalizing b with
  | nil =>
    obtain rfl := Option.some.inj h
    exact hb
  | cons a l ih =>
    rw [List.foldlM_cons] at h
    obtain ⟨b₁, h₁, h⟩ := Option.bind_eq_some_iff.1 h
    exact ih (hf a b b₁ hb h₁) h

/-- Only tokens of the history are penalized. -/
theorem mem_of_addPenalty {x : R} {info : List ℤ} {map map' : ℤ → Option R} {i : ℕ}
    (hmap : ∀ token, map token ≠ none → token ∈ prev)
    (h : addPenalty mConfig x prev info map i = some map') :
    ∀ token, map' token ≠ none → token ∈ prev := by
  unfold addPenalty at h
  obtain ⟨token, htoken, h⟩ := Option.bind_eq_some_iff.1 h
  have hmem : token ∈ prev := List.mem_of_getElem? htoken
  have hupdate : ∀ (m : ℤ → Option R) (y : R), (∀ token, m token ≠ none → token ∈ prev) →
      ∀ other, Function.update m token (some y) other ≠ none → other ∈ prev := by
    intro m y hm other hother
    by_cases heq : other = token
    · exact heq ▸ hmem
    · rw [Function.update_of_ne heq] at hother
      exact hm other hother
  have hfirst : ∀ other,
      (if map token = none then Function.update map token (some x) else map) other ≠ none →
        other ∈ prev := by
    split_ifs
    · exact hupdate map x hmap
    · exact hmap
  simp only at h
  generalize (if map token = none then Function.update map token (some x) else map) = first
    at h hfirst
  by_cases hfactor : 1 < mConfig.ngramFactor
  · rw [if_pos hfactor] at h
    obtain ⟨y, -, h⟩ := Option.bind_eq_some_iff.1 h
    obtain rfl := Option.some.inj h
    split_ifs
    · exact hupdate first y hfirst
    · exact hfirst
  · rw [if_neg hfactor] at h
    obtain rfl := Option.some.inj h
    exact hfirst

theorem penalize_append {map : ℤ → Option R} {scores : List R}
    (hmap : ∀ token, map token ≠ none → token < scores.length) (extra : List R) :
    penalize map (scores ++ extra) = penalize map scores ++ extra := by
  unfold penalize
  rw [List.mapIdx_append, List.append_cancel_left_eq]
  refine List.ext_getElem List.length_mapIdx fun i hi hi' => ?_
  have hnone : map ((i + scores.length : ℕ) : ℤ) = none := by
    by_contra hne
    have := hmap _ hne
    omega
  simp only [List.getElem_mapIdx, hnone]

theorem Same.stage (h : Same n s t extra) {stage : Stage} (hstage : ¬ IsFilter stage)
    (ht : subsetSampler lib mConfig prev stage t = some t') :
    ∃ s', subsetSampler lib mConfig prev stage s = some s' ∧ Same n s' t' extra := by
  cases stage with
  | topK | topP | minP | tfs | typical => exact absurd trivial hstage
  | greedy | temperature | other =>
    obtain rfl := Option.some.inj ht
    exact ⟨s, rfl, h⟩
  | penalty =>
    simp only [subsetSampler] at ht ⊢
    by_cases hp : mConfig.penalty ≤ 1
    · rw [penalty, if_pos hp] at ht
      obtain rfl := Option.some.inj ht
      exact ⟨s, if_pos hp, h⟩
    · obtain ⟨hngram, info, hinfo, map, hmap, htokens, rfl⟩ := (penalty_eq_some_iff hp).1 ht
      have hlen : s.logits.data.length = t.logits.data.length + extra.length := by
        rw [h.data, List.length_append]
      have hmem : ∀ token, map token ≠ none → token ∈ prev :=
        foldlM_inv (fun map => ∀ token, map token ≠ none → token ∈ prev)
          (fun _ _ _ => mem_of_addPenalty) (fun _ hne => absurd rfl hne) hmap
      refine ⟨_, (penalty_eq_some_iff hp).2 ⟨hngram, info, hinfo, map, hmap, ?_, rfl⟩, h.whole,
        h.whole', h.cols, h.cols', ?_, ?_⟩
      · intro token htoken
        have := htokens token htoken
        omega
      · rw [penalize, List.length_mapIdx, h.length]
      · rw [h.data]
        exact penalize_append (fun token hne => (htokens token (hmem token hne)).2) extra

/-! ### The selection on several rows -/

/-- The least draw that is not found yet is at the end of the sum. -/
theorem randomSelectFrom_append (target : R) {probs : List R} {i : ℕ} {c : R} (hc : c ≤ target)
    (hlt : target < c + probs.sum) (rest : List R) :
    randomSelectFrom target i c (probs ++ rest) = randomSelectFrom target i c probs := by
  induction probs generalizing i c with
  | nil =>
    rw [List.sum_nil, add_zero] at hlt
    exact absurd hlt (not_lt.2 hc)
  | cons p probs ih =>
    rw [List.cons_append]
    unfold randomSelectFrom
    split_ifs with hp
    · rfl
    · rw [List.sum_cons, ← add_assoc] at hlt
      exact ih (not_lt.1 hp) hlt

variable (lib) in
/-- The softmax of several rows begins with that of the first. -/
theorem tempratureSoftmax_append {row : List R} (hrow : row ≠ []) {q : ℕ} {extra : List R}
    (hextra : extra.length = q * row.length) (temperature : R) :
    ∃ rest, (tempratureSoftmax lib { cols := row.length, data := row ++ extra } temperature).data =
      lib.softmax temperature row ++ rest := by
  have hpos := List.length_pos_iff.2 hrow
  have hdiv : (row ++ extra).length / row.length = q + 1 := by
    rw [List.length_append, hextra, Nat.add_comm, ← Nat.succ_mul, Nat.mul_div_cancel _ hpos]
  unfold tempratureSoftmax
  simp only [hdiv]
  rw [List.range_succ_eq_map, List.flatMap_cons, Nat.zero_mul, List.drop_zero, List.take_left]
  exact ⟨_, rfl⟩

theorem foldlM_congr {α β : Type} {f g : β → α → Option β} {l : List α}
    (hfg : ∀ a ∈ l, ∀ b, f b a = g b a) (b : β) : l.foldlM f b = l.foldlM g b := by
  induction l generalizing b with
  | nil => rfl
  | cons a l ih =>
    rw [List.forall_mem_cons] at hfg
    rw [List.foldlM_cons, List.foldlM_cons, hfg.1 b]
    congr 1
    funext b'
    exact ih hfg.2 b'

theorem Same.handleSelect (h : Same n s t extra) {q : ℕ} (hpos : 0 < n)
    (hextra : extra.length = q * n)
    (htemperature : mConfig.selectType = .temperature → mConfig.temperature ≠ 0) {target : R}
    (hzero : 0 ≤ target) (hone : target < 1) :
    handleSelect lib mConfig target s = handleSelect lib mConfig target t := by
  have hrow : t.logits.data ≠ [] := List.length_pos_iff.1 (by rwa [h.length])
  unfold Sampler.handleSelect
  have hselect : select s = select t := by
    funext id
    rw [select, select, if_neg (by rw [h.whole]; exact Bool.noConfusion),
      if_neg (by rw [h.whole']; exact Bool.noConfusion)]
  cases hs : mConfig.selectType with
  | other => rfl
  | temperature =>
    have hlogits : s.logits = { cols := t.logits.data.length, data := t.logits.data ++ extra } := by
      rw [h.length, ← h.cols, ← h.data]
    rw [← h.length] at hextra
    obtain ⟨rest, hrest⟩ := tempratureSoftmax_append lib hrow hextra mConfig.temperature
    have hsum := lib.sum_softmax _ _ (htemperature hs) hrow
    have hlt : target < 0 + (lib.softmax mConfig.temperature t.logits.data).sum := by
      rwa [hsum, zero_add]
    simp only [reSoftmaxSelect]
    rw [hselect, hlogits, hrest, data_tempratureSoftmax (h.cols'.trans h.length.symm),
      randomSelect, randomSelect, randomSelectFrom_append target hzero hlt]
  | greedy =>
    have hget : ∀ i < n, s.logits.data[i]? = t.logits.data[i]? := by
      intro i hi
      rw [h.data, List.getElem?_append_left (by rwa [h.length])]
    simp only [argmaxSelect]
    rw [hget 0 hpos, h.cols, h.cols', hselect]
    congr 1
    funext first
    congr 1
    refine foldlM_congr (fun i hi best => ?_) _
    rw [hget i (List.mem_range.1 hi)]

/-! ### A row that is sampled alone -/

/-- Samplers that are no filters do the same on the whole tensor. -/
theorem Same.run {stages : List Stage} (h : Same n s t extra)
    (hstages : ∀ stage ∈ stages, ¬ IsFilter stage)
    (ht : stages.foldlM (fun s stage => subsetSampler lib mConfig prev stage s) t = some t') :
    ∃ s', stages.foldlM (fun s stage => subsetSampler lib mConfig prev stage s) s = some s' ∧
      Same n s' t' extra := by
  induction stages generalizing s t with
  | nil =>
    obtain rfl := Option.some.inj ht
    exact ⟨s, rfl, h⟩
  | cons stage stages ih =>
    rw [List.forall_mem_cons] at hstages
    rw [List.foldlM_cons] at ht
    obtain ⟨t₁, ht₁, ht⟩ := Option.bind_eq_some_iff.1 ht
    obtain ⟨s₁, hs₁, hsame⟩ := h.stage hstages.1 ht₁
    obtain ⟨s₂, hs₂, hsame₂⟩ := ih hsame hstages.2 ht
    exact ⟨s₂, by rw [List.foldlM_cons, hs₁]; exact hs₂, hsame₂⟩

theorem rowAlone_of_ok {row : List R} (hrow : row ≠ []) {r q : ℕ}
    (htail : .penalty ∉ (stages mConfig type).tail)
    (hchain : ChainOk lib mConfig prev (stages mConfig type) (createLogits (vector row)))
    (hok : RowOk mConfig type r q) : RowAlone lib mConfig type prev r q row := by
  have hvalid : Valid row (createLogits (vector row)) :=
    ⟨Holds.createLogits (v := vector row) rfl, hrow⟩
  have hrun := (chain_iff lib mConfig prev hvalid htail fun _ => rfl).2 hchain
  intro target hzero hone
  obtain ⟨s', id, hs', hid, hrange⟩ := hrun.run hvalid.toHolds htail (fun _ => rfl) target
  have hsample : sample lib mConfig type prev target (vector row) = some id := by
    rw [sample_eq, hs']
    exact hid
  refine ⟨id, hsample, hrange.1, hrange.2, fun above below habove hbelow => ?_⟩
  unfold llmSample
  rcases Nat.eq_zero_or_pos r with rfl | hr
  · obtain rfl : above = [] := List.length_eq_zero_iff.1 (by rw [habove, Nat.zero_mul])
    rw [if_neg (by simp), List.nil_append]
    rcases hok with hr | rfl | ⟨hstages, htemperature⟩
    · exact absurd hr (lt_irrefl 0)
    · obtain rfl : below = [] := List.length_eq_zero_iff.1 (by rw [hbelow, Nat.zero_mul])
      rw [List.append_nil]
      exact hsample
    · -- the first row of the tensor is the row
      have hsame : Same row.length (createLogits { cols := row.length, data := row ++ below })
          (createLogits (vector row)) below := ⟨rfl, rfl, rfl, rfl, rfl, rfl⟩
      obtain ⟨s₂, hs₂, hsame₂⟩ := hsame.run hstages hs'
      rw [sample_eq, hs₂, Option.bind_some, hsame₂.handleSelect (List.length_pos_iff.2 hrow) hbelow
        htemperature hzero hone]
      exact hid
  · have hpos : r * row.length ≠ 0 := (Nat.mul_pos hr (List.length_pos_iff.2 hrow)).ne'
    rw [if_pos ⟨hpos, (List.length_pos_iff.2 hrow).ne'⟩, List.append_assoc, ← habove,
      List.drop_left, List.take_left]
    exact hsample

/-! ### The best scores of several rows -/

section Best

variable {K : ℤ} {heap heap' : lib.ascending.Heap} {seen : Multiset (IndexScore R)}

/-- No score that was left out is above one in the heap. -/
def Best (K : ℤ) (heap : lib.ascending.Heap) (seen : Multiset (IndexScore R)) : Prop :=
  ∃ rest, seen = lib.ascending.elems heap + rest ∧
    (∀ x ∈ lib.ascending.elems heap, ∀ y ∈ rest, y.score ≤ x.score) ∧
    (rest ≠ 0 → K ≤ lib.ascending.size heap)

theorem Best.keep (h : Best K heap seen) (hK : 1 ≤ K) {m : IndexScore R}
    (hkeep : keep lib K heap m = some heap') : Best K heap' (m ::ₘ seen) := by
  obtain ⟨rest, rfl, hbest, hrest⟩ := h
  unfold Sampler.keep at hkeep
  by_cases hlt : K < 0 ∨ (lib.ascending.size heap : ℤ) < K
  · rw [if_pos hlt] at hkeep
    obtain rfl := Option.some.inj hkeep
    -- a heap that is not full has everything
    have hnil : rest = 0 := by
      by_contra hne
      have := hrest hne
      omega
    exact ⟨0, by simp [hnil], by simp, fun hne => absurd rfl hne⟩
  · rw [if_neg hlt] at hkeep
    have hfull : K ≤ lib.ascending.size heap := not_lt.1 fun h => hlt (.inr h)
    cases hp : lib.ascending.pop heap with
    | none => simp [hp] at hkeep
    | some p =>
      obtain ⟨top, others⟩ := p
      have helems := lib.ascending.elems_pop heap top others hp
      have htop : ∀ x ∈ lib.ascending.elems others, top.score ≤ x.score := fun x hx =>
        not_lt.1 (lib.ascending.best heap top others hp x hx)
      simp only [hp, Option.some.injEq] at hkeep
      by_cases hm : top.score < m.score
      · rw [if_pos hm] at hkeep
        subst hkeep
        refine ⟨top ::ₘ rest, ?_, ?_, fun _ => ?_⟩
        · rw [helems, HeapOps.elems_push, Multiset.cons_add, Multiset.cons_add, Multiset.add_cons]
        · have hout : ∀ y ∈ top ::ₘ rest, y.score ≤ top.score := by
            intro y hy
            rcases Multiset.mem_cons.1 hy with rfl | hy
            · exact le_rfl
            · exact hbest top (by rw [helems]; exact Multiset.mem_cons_self ..) y hy
          intro x hx y hy
          rw [HeapOps.elems_push, Multiset.mem_cons] at hx
          rcases hx with rfl | hx
          · exact (hout y hy).trans hm.le
          · exact (hout y hy).trans (htop x hx)
        · rw [HeapOps.size_push, ← HeapOps.size_pop hp]
          exact hfull
      · rw [if_neg hm] at hkeep
        subst hkeep
        refine ⟨m ::ₘ rest, by rw [Multiset.add_cons], fun x hx y hy => ?_, fun _ => hfull⟩
        rcases Multiset.mem_cons.1 hy with rfl | hy
        · refine (not_lt.1 hm).trans ?_
          rw [helems, Multiset.mem_cons] at hx
          rcases hx with rfl | hx
          · exact le_rfl
          · exact htop x hx
        · exact hbest x hx y hy

theorem Best.foldlM (h : Best K heap seen) (hK : 1 ≤ K) {l : List (IndexScore R)}
    (hl : l.foldlM (Sampler.keep lib K) heap = some heap') : Best K heap' (seen + l) := by
  induction l generalizing heap seen with
  | nil =>
    obtain rfl : heap = heap' := Option.some.inj hl
    rwa [Multiset.coe_nil, add_zero]
  | cons m l ih =>
    rw [List.foldlM_cons] at hl
    obtain ⟨heap₁, h₁, hl⟩ := Option.bind_eq_some_iff.1 hl
    have := ih (h.keep hK h₁) hl
    rwa [Multiset.cons_add, ← Multiset.add_cons, Multiset.cons_coe] at this

/-- Where the rows below have enough scores and all of them are larger, the heap is theirs. -/
theorem Best.le_index {small big : List R} (h : Best K heap (enumerate (small ++ big)))
    (hlt : ∀ x ∈ small, ∀ y ∈ big, x < y) (hsize : (lib.ascending.size heap : ℤ) ≤ big.length) :
    ∀ x ∈ lib.ascending.elems heap, small.length ≤ x.index := by
  obtain ⟨rest, hseen, hbest, -⟩ := h
  intro x hx
  by_contra hindex
  rw [not_le] at hindex
  have hget : ∀ m ∈ lib.ascending.elems heap + rest, (small ++ big)[m.index]? = some m.score := by
    intro m hm
    rw [← hseen] at hm
    exact mem_enumerate.1 hm
  have hsmall : x.score ∈ small := by
    have := hget x (Multiset.mem_add.2 (.inl hx))
    rw [List.getElem?_append_left hindex] at this
    exact List.mem_of_getElem? this
  -- nothing of the rows below was left out
  have hrest : rest.filter (small.length ≤ ·.index) = 0 := by
    rw [Multiset.filter_eq_nil]
    intro y hy hle
    have := hget y (Multiset.mem_add.2 (.inr hy))
    rw [List.getElem?_append_right hle] at this
    exact absurd (hbest x hx y hy) (not_le.2 (hlt _ hsmall _ (List.mem_of_getElem? this)))
  have hcount : big.length ≤
      ((lib.ascending.elems heap).filter (small.length ≤ ·.index)).card := by
    have hfilter := congrArg (Multiset.filter (small.length ≤ ·.index)) hseen
    rw [Multiset.filter_add, hrest, add_zero] at hfilter
    have hbig : (big.mapIdx fun i score => (⟨i + small.length, score⟩ : IndexScore R)).filter
        (small.length ≤ ·.index) = big.mapIdx fun i score => ⟨i + small.length, score⟩ := by
      rw [List.filter_eq_self]
      intro m hm
      obtain ⟨i, -, rfl⟩ := List.mem_mapIdx.1 hm
      simp
    rw [← hfilter, Multiset.filter_coe, Multiset.coe_card, enumerate, List.mapIdx_append,
      List.filter_append, List.length_append, hbig, List.length_mapIdx]
    exact Nat.le_add_left ..
  have hstrict : ((lib.ascending.elems heap).filter (small.length ≤ ·.index)).card <
      lib.ascending.size heap := by
    refine Multiset.card_lt_card (lt_of_le_of_ne (Multiset.filter_le ..) fun heq => ?_)
    rw [Multiset.filter_eq_self] at heq
    exact absurd (heq x hx) (not_le.2 hindex)
  omega

end Best

/-- `topK` over all rows takes the ids of the rows below, where they have the larger scores. -/
theorem topK_index (hwhole : s.isSubset = false) {small big : List R}
    (hdata : s.logits.data = small ++ big) (hlt : ∀ x ∈ small, ∀ y ∈ big, x < y)
    (hpos : 1 ≤ mConfig.topK) (hlen : mConfig.topK ≤ big.length)
    (hs : topK lib mConfig s = some s') :
    Holds s.logits.data s' ∧ s'.isSubset ∧ ∀ id ∈ s'.index, small.length ≤ id := by
  have hvector : topK lib mConfig (createLogits (vector s.logits.data)) = some s' := by
    rw [← hs]
    unfold topK transformIndex
    rw [hwhole]
    rfl
  obtain ⟨out, hout, -⟩ :=
    topK_filtered (Holds.createLogits (v := vector s.logits.data) rfl) hvector
  refine ⟨hout.holds, hout.isSubset, ?_⟩
  obtain ⟨heap, hheap, hsize⟩ := exists_heap lib hpos s.logits.data
  have hbest : Best mConfig.topK heap (enumerate (small ++ big)) := by
    have hempty : Best mConfig.topK lib.ascending.empty 0 := ⟨0, by simp, by simp, by simp⟩
    have := hempty.foldlM hpos hheap
    rwa [zero_add, hdata] at this
  have hindex := hbest.le_index hlt (by omega)
  unfold topK at hs
  rw [hheap, Option.bind_eq_bind, Option.bind_some, if_neg (by omega)] at hs
  obtain ⟨popped, hpopped, hs⟩ := Option.bind_eq_some_iff.1 hs
  rw [transformIndex, if_neg (by rw [hwhole]; exact Bool.noConfusion)] at hs
  obtain rfl := Option.some.inj hs
  intro id hid
  obtain ⟨m, hm, rfl⟩ := List.mem_map.1 hid
  refine hindex m (Multiset.mem_of_le (HeapOps.pops_spec hpopped).2.1 ?_)
  exact Multiset.mem_coe.2 (List.mem_reverse.1 hm)

omit [Field R] [LinearOrder R] in
theorem Filtered.mem {out : List (IndexScore R)} (h : Filtered L s out s') {id : ℕ}
    (hid : id ∈ s'.index) : id ∈ ids L.length s := by
  obtain ⟨k, rfl⟩ := List.mem_iff_get.1 hid
  have hlt : k.1 < (out.map (·.index)).length := by
    rw [h.index.length_eq]
    exact k.2
  exact List.mem_of_getElem? ((List.forall₂_iff_get.1 h.index).2 k hlt k.2)

/-- Behind a filter only ids of its subset are left. -/
theorem Holds.stage_index (h : Holds L s) (hsub : s.isSubset = true) {stage : Stage}
    (hstage : stage ≠ .penalty) (hs : subsetSampler lib mConfig prev stage s = some s') :
    Holds L s' ∧ s'.isSubset = true ∧ ∀ id ∈ s'.index, id ∈ s.index := by
  rcases stage_cases h hs with ⟨-, out, hout⟩ | ⟨hpenalty, -⟩ | ⟨-, -, rfl⟩
  · refine ⟨hout.holds, hout.isSubset, fun id hid => ?_⟩
    rw [← ids_of_isSubset (n := L.length) hsub]
    exact hout.mem hid
  · exact absurd hpenalty hstage
  · exact ⟨h, hsub, fun _ => id⟩

theorem Holds.run_index {stages : List Stage} (h : Holds L s) (hsub : s.isSubset = true)
    (hstages : .penalty ∉ stages)
    (hs : stages.foldlM (fun s stage => subsetSampler lib mConfig prev stage s) s = some s') :
    s'.isSubset = true ∧ ∀ id ∈ s'.index, id ∈ s.index := by
  induction stages generalizing s with
  | nil =>
    obtain rfl := Option.some.inj hs
    exact ⟨hsub, fun _ => id⟩
  | cons stage stages ih =>
    rw [List.mem_cons, not_or] at hstages
    rw [List.foldlM_cons] at hs
    obtain ⟨s₁, hs₁, hs⟩ := Option.bind_eq_some_iff.1 hs
    obtain ⟨hholds, hsub₁, hmem⟩ := h.stage_index hsub (Ne.symm hstages.1) hs₁
    obtain ⟨hsub₂, hmem₂⟩ := ih hholds hsub₁ hstages.2 hs
    exact ⟨hsub₂, fun id hid => hmem id (hmem₂ id hid)⟩

/-- What is selected from a subset is one of its ids. -/
theorem mem_of_handleSelect {target : R} {id : ℤ} (hsub : s.isSubset = true)
    (hselect : mConfig.selectType ≠ .other)
    (hs : handleSelect lib mConfig target s = some id) : ∃ k ∈ s.index, id = k := by
  have hmem : ∀ {k : ℤ}, select s k = some id → ∃ k ∈ s.index, id = k := by
    intro k hk
    rw [select, if_pos hsub] at hk
    split_ifs at hk
    obtain ⟨j, hj, rfl⟩ := Option.map_eq_some_iff.1 hk
    exact ⟨j, List.mem_of_getElem? hj, rfl⟩
  unfold handleSelect at hs
  cases htype : mConfig.selectType with
  | other => exact absurd htype hselect
  | temperature =>
    rw [htype] at hs
    exact hmem hs
  | greedy =>
    rw [htype] at hs
    obtain ⟨first, -, hs⟩ := Option.bind_eq_some_iff.1 hs
    obtain ⟨best, -, hs⟩ := Option.bind_eq_some_iff.1 hs
    exact hmem hs

/-! ### A run that returns -/

/-- Without candidates nothing is found. -/
theorem Holds.stage_nil (h : Holds L s) (hdata : s.logits.data = []) (hsub : s.isSubset = true)
    {stage : Stage} (hstage : stage ≠ .penalty)
    (hs : subsetSampler lib mConfig prev stage s = some s') :
    Holds L s' ∧ s'.isSubset = true ∧ s'.logits.data = [] := by
  have hnil : s.index = [] := by
    rw [← List.length_eq_zero_iff, ← ids_of_isSubset (n := L.length) hsub, h.length, hdata,
      List.length_nil]
  obtain ⟨hholds, hsub', hmem⟩ := h.stage_index hsub hstage hs
  refine ⟨hholds, hsub', ?_⟩
  have hnil' : s'.index = [] := List.eq_nil_iff_forall_not_mem.2 fun id hid => by
    have := hmem id hid
    rw [hnil] at this
    exact List.not_mem_nil this
  rw [← List.length_eq_zero_iff, ← hholds.length, ids_of_isSubset hsub', hnil', List.length_nil]

theorem Holds.run_nil {stages : List Stage} (h : Holds L s) (hdata : s.logits.data = [])
    (hsub : s.isSubset = true) (hstages : .penalty ∉ stages)
    (hs : stages.foldlM (fun s stage => subsetSampler lib mConfig prev stage s) s = some s') :
    Holds L s' ∧ s'.isSubset = true ∧ s'.logits.data = [] := by
  induction stages generalizing s with
  | nil =>
    obtain rfl := Option.some.inj hs
    exact ⟨h, hsub, hdata⟩
  | cons stage stages ih =>
    rw [List.mem_cons, not_or] at hstages
    rw [List.foldlM_cons] at hs
    obtain ⟨s₁, hs₁, hs⟩ := Option.bind_eq_some_iff.1 hs
    obtain ⟨hholds, hsub₁, hdata₁⟩ := h.stage_nil hdata hsub (Ne.symm hstages.1) hs₁
    exact ih hholds hdata₁ hsub₁ hstages.2 hs

theorem handleSelect_nil (hdata : s.logits.data = []) (hsub : s.isSubset = true)
    (hselect : mConfig.selectType ≠ .other) (target : R) :
    handleSelect lib mConfig target s = none := by
  unfold handleSelect
  cases htype : mConfig.selectType with
  | other => exact absurd htype hselect
  | temperature =>
    have hnil : (tempratureSoftmax lib s.logits mConfig.temperature).data = [] := by
      simp [tempratureSoftmax, hdata]
    simp only [reSoftmaxSelect, hnil, select, if_pos hsub]
    rfl
  | greedy =>
    simp only [argmaxSelect, hdata]
    rfl

/-- Where an id is returned, every sampler has met its condition. -/
theorem chainOk_of_run {stages : List Stage} (h : Valid L s) (hstages : .penalty ∉ stages.tail)
    (hwhole : .penalty ∈ stages → s.isSubset = false)
    (hs : stages.foldlM (fun s stage => subsetSampler lib mConfig prev stage s) s = some s')
    (hselect : mConfig.selectType ≠ .other) {target : R} {id : ℤ}
    (hid : handleSelect lib mConfig target s' = some id) : ChainOk lib mConfig prev stages s := by
  induction stages generalizing L s with
  | nil => trivial
  | cons stage stages ih =>
    have hhead : stage = .penalty → s.isSubset = false := fun heq =>
      hwhole (heq ▸ List.mem_cons_self)
    rw [List.foldlM_cons] at hs
    obtain ⟨s₁, hs₁, hs⟩ := Option.bind_eq_some_iff.1 hs
    have hholds := h.toHolds.stage hhead hs₁
    have hvalid : Valid (inForce stage L s₁) s₁ := by
      refine ⟨hholds, fun hdata => ?_⟩
      -- only a filter leaves nothing
      have hsub : s₁.isSubset = true := by
        rcases stage_cases h.toHolds hs₁ with ⟨-, out, hout⟩ | ⟨-, hpenalty⟩ | ⟨-, -, rfl⟩
        · exact hout.isSubset
        · have hlen := (penalty_frame hpenalty).2.2.2
          rw [hdata] at hlen
          exact absurd (List.length_eq_zero_iff.1 hlen.symm) h.ne_nil
        · exact absurd hdata h.ne_nil
      obtain ⟨-, hsub', hdata'⟩ := hholds.run_nil hdata hsub hstages hs
      rw [handleSelect_nil hdata' hsub' hselect] at hid
      cases hid
    refine ⟨(stage_iff lib mConfig prev h hhead).1 ⟨s₁, hs₁, hvalid⟩, fun s₂ hs₂ => ?_⟩
    obtain rfl := Option.some.inj (hs₁.symm.trans hs₂)
    exact ih hvalid (fun hmem => hstages (List.mem_of_mem_tail hmem))
      (fun hmem => absurd hmem hstages) hs

/-! ### `topK` over all rows -/

section TopKFirst

variable [IsStrictOrderedRing R]

theorem exists_forall_lt (l : List R) : ∃ M, ∀ x ∈ l, x < M := by
  obtain ⟨b, hb⟩ := l.finite_toSet.bddAbove
  obtain ⟨M, hM⟩ := exists_gt b
  exact ⟨M, fun x hx => (hb hx).trans_lt hM⟩

/-- With `topK` as the first filter, large numbers in a row below give an id of that row. -/
theorem rowOk_of_rowAlone {row : List R} (hrow : row ≠ []) {r q : ℕ} {before after : List Stage}
    (hstages : stages mConfig type = before ++ .topK :: after)
    (hbefore : ∀ stage ∈ before, ¬ IsFilter stage) (hafter : .penalty ∉ after)
    (hselect : mConfig.selectType ≠ .other) (h : RowAlone lib mConfig type prev r q row) :
    RowOk mConfig type r q := by
  by_contra hnot
  simp only [RowOk, not_or] at hnot
  obtain ⟨hr, hq, -⟩ := hnot
  obtain rfl : r = 0 := Nat.eq_zero_of_not_pos hr
  have hpos := List.length_pos_iff.2 hrow
  obtain ⟨id, hsample, -, hlt, halone⟩ := h 0 le_rfl zero_lt_one
  rw [sample_eq, hstages, List.foldlM_append] at hsample
  obtain ⟨t₃, ht₃, -⟩ := Option.bind_eq_some_iff.1 hsample
  obtain ⟨t₁, ht₁, ht₃⟩ := Option.bind_eq_some_iff.1 ht₃
  rw [List.foldlM_cons] at ht₃
  obtain ⟨t₂, ht₂, -⟩ := Option.bind_eq_some_iff.1 ht₃
  -- the row below is larger than what the penalty leaves of the row
  obtain ⟨M, hM⟩ := exists_forall_lt t₁.logits.data
  set below := List.replicate (q * row.length) M with hbelow
  have hsame : Same row.length (createLogits { cols := row.length, data := row ++ below })
      (createLogits (vector row)) below := ⟨rfl, rfl, rfl, rfl, rfl, rfl⟩
  obtain ⟨s₁, hs₁, hsame₁⟩ := hsame.run hbefore ht₁
  have hK : 1 ≤ mConfig.topK ∧ mConfig.topK ≤ t₁.logits.data.length := by
    by_contra hK
    rw [subsetSampler, topK_eq_none (by rw [hsame₁.length]; exact hpos) hK] at ht₂
    cases ht₂
  have hlen : mConfig.topK ≤ below.length := by
    have hmul : row.length ≤ q * row.length :=
      Nat.le_mul_of_pos_left _ (Nat.pos_of_ne_zero hq)
    rw [hbelow, List.length_replicate]
    rw [hsame₁.length] at hK
    exact hK.2.trans (Int.ofNat_le.2 hmul)
  have hwhole := halone [] below (by rw [List.length_nil, Nat.zero_mul])
    (by rw [hbelow, List.length_replicate])
  rw [llmSample, if_neg (by simp), List.nil_append, sample_eq, hstages, List.foldlM_append, hs₁]
    at hwhole
  obtain ⟨s₃, hs₃, hid⟩ := Option.bind_eq_some_iff.1 hwhole
  rw [Option.bind_eq_bind, Option.bind_some, List.foldlM_cons] at hs₃
  obtain ⟨s₂, hs₂, hs₃⟩ := Option.bind_eq_some_iff.1 hs₃
  obtain ⟨hholds, hsub, hindex⟩ := topK_index hsame₁.whole hsame₁.data
    (fun x hx y hy => List.eq_of_mem_replicate hy ▸ hM x hx) hK.1 hlen hs₂
  obtain ⟨hsub₃, hmem⟩ := hholds.run_index hsub hafter hs₃
  obtain ⟨k, hk, rfl⟩ := mem_of_handleSelect hsub₃ hselect hid
  have := hindex k (hmem k hk)
  rw [hsame₁.length] at this
  omega

variable (lib mConfig) (llmConfig : LlmConfig R) (prev type)

/-- A configured sampler takes a row alone. -/
def Sampled (r q : ℕ) (row : List R) : Prop :=
  ∃ cfg, configSampler mConfig llmConfig type = some cfg ∧ RowAlone lib cfg type prev r q row

/-- The samplers meet their conditions on the row, which is cut out or not touched by a filter. -/
def SampledOk (r q : ℕ) (row : List R) : Prop :=
  ∃ cfg, configSampler mConfig llmConfig type = some cfg ∧
    ChainOk lib cfg prev (stages cfg type) (createLogits (vector row)) ∧ RowOk cfg type r q

/-- The first filter is `topK`. -/
def TopKFirst : Prop :=
  ∀ cfg, configSampler mConfig llmConfig type = some cfg →
    ∃ before after, stages cfg type = before ++ .topK :: after ∧ ∀ stage ∈ before, ¬ IsFilter stage

omit [Field R] [LinearOrder R] [IsStrictOrderedRing R] in
theorem configMixed_spec {cfg : SamplerConfig R} (h : configMixed mConfig llmConfig = some cfg) :
    cfg.mixedSamplers = penaltyFirst llmConfig.mixedSamplers ∧ cfg.selectType ≠ .other := by
  obtain ⟨last, -, h⟩ := Option.bind_eq_some_iff.1 h
  obtain rfl := Option.some.inj h
  refine ⟨rfl, ?_⟩
  simp only
  split_ifs <;> exact SelectType.noConfusion

omit [Field R] [LinearOrder R] [IsStrictOrderedRing R] in
/-- The penalty is in front. -/
theorem penalty_notMem_stages {cfg : SamplerConfig R}
    (h : configSampler mConfig llmConfig type = some cfg) : .penalty ∉ (stages cfg type).tail := by
  cases type with
  | single stage => exact List.not_mem_nil
  | mixed =>
    rw [stages, (configMixed_spec mConfig llmConfig h).1]
    exact penalty_notMem_tail _

omit [Field R] [LinearOrder R] [IsStrictOrderedRing R] in
theorem selectType_ne_other {cfg : SamplerConfig R} {before after : List Stage}
    (h : configSampler mConfig llmConfig type = some cfg)
    (hstages : stages cfg type = before ++ .topK :: after) : cfg.selectType ≠ .other := by
  cases type with
  | single stage =>
    have hmem : Stage.topK ∈ stages cfg (.single stage) := by
      rw [hstages]
      exact List.mem_append_right _ List.mem_cons_self
    obtain rfl := List.mem_singleton.1 hmem
    obtain rfl := Option.some.inj h
    exact SelectType.noConfusion
  | mixed => exact (configMixed_spec mConfig llmConfig h).2

/-- **Main theorem.**  A row is sampled alone, whatever its offset, if the samplers meet their
conditions on it and it is cut out, is the only one or is seen by no filter; and if the first filter
is `topK`, only then. -/
theorem sampled_of_ok (r q : ℕ) (score : R) (scores : List R) :
    (SampledOk lib mConfig type prev llmConfig r q (score :: scores) →
      Sampled lib mConfig type prev llmConfig r q (score :: scores)) ∧
    (TopKFirst mConfig type llmConfig →
      Sampled lib mConfig type prev llmConfig r q (score :: scores) →
        SampledOk lib mConfig type prev llmConfig r q (score :: scores)) := by
  constructor
  · rintro ⟨cfg, hcfg, hchain, hok⟩
    have htail := penalty_notMem_stages mConfig type llmConfig hcfg
    exact ⟨cfg, hcfg, rowAlone_of_ok (List.cons_ne_nil score scores) htail hchain hok⟩
  · rintro hfirst ⟨cfg, hcfg, halone⟩
    obtain ⟨before, after, hstages, hbefore⟩ := hfirst cfg hcfg
    have hselect := selectType_ne_other mConfig type llmConfig hcfg hstages
    have htail := penalty_notMem_stages mConfig type llmConfig hcfg
    have hafter : .penalty ∉ after := by
      intro hmem
      refine htail ?_
      rw [hstages]
      cases before with
      | nil => exact hmem
      | cons stage before => exact List.mem_append_right _ (List.mem_cons_of_mem _ hmem)
    refine ⟨cfg, hcfg, ?_, rowOk_of_rowAlone (List.cons_ne_nil score scores) hstages hbefore hafter
      hselect halone⟩
    obtain ⟨id, hsample, -⟩ := halone 0 le_rfl zero_lt_one
    rw [sample_eq] at hsample
    obtain ⟨s', hs', hid⟩ := Option.bind_eq_some_iff.1 hsample
    exact chainOk_of_run ⟨Holds.createLogits (v := vector (score :: scores)) rfl,
      List.cons_ne_nil score scores⟩ htail (fun _ => rfl) hs' hselect hid

end TopKFirst

/-- The greedy sampler takes the first of two rows alone. -/
theorem sampled_greedy :
    Sampled listLibrary (.initial ℚ) (.single .greedy) [] (.initial ℚ) 0 1 [0, 1] := by
  refine (sampled_of_ok listLibrary (.initial ℚ) (.single .greedy) [] (.initial ℚ) 0 1 0 [1]).1 ?_
  refine ⟨_, rfl, ⟨trivial, fun _ _ => trivial⟩, .inr (.inr ⟨?_, SelectType.noConfusion⟩)⟩
  exact List.forall_mem_singleton.2 id

/-- `topK` takes the larger score of the second row for the first row. -/
theorem not_sampled_topK :
    ¬ Sampled listLibrary (.initial ℚ) (.single .topK) [] { LlmConfig.initial ℚ with topK := 1 } 0 1
      [1, 0] := by
  rintro ⟨cfg, hcfg, halone⟩
  obtain rfl := Option.some.inj hcfg
  obtain ⟨id, -, -, hlt, hrows⟩ := halone 0 le_rfl zero_lt_one
  have hsecond : sample listLibrary
      (configStage (.initial ℚ) { LlmConfig.initial ℚ with topK := 1 } .topK) (.single .topK) [] 0
      { cols := 2, data := [1, 0, 0, 5] } = some 3 := by decide +kernel
  obtain rfl := Option.some.inj (hsecond.symm.trans (hrows [] [0, 5] rfl rfl))
  exact absurd hlt (by decide)

end Mnn.Sampler
