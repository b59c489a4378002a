import Mnn.Lib.Loops
import Mnn.Llm.Sampler

/-!
# Candidate sets of the samplers

A subset of the vocabulary keeps its logits in the order of its ids, whichever filters it went
through.

* `Holds`: the ids of a subset are distinct and its logits are theirs;
* `Filtered`: what a filter's result has in common with what it was given;
* `topK_filtered`, `topP_spec`, `minP_spec`, `typical_spec`, `tfs_spec`: the filters;
* `exists_penalty_iff`, `penalty_frame`: what the penalty needs, and what it leaves alone.
-/

namespace Mnn.Sampler

open Lib

theorem forall₂_of_exists {α β γ : Type} {p : α → β → Prop} {q : β → γ → Prop} {l : List α}
    {l' : List γ} (h : List.Forall₂ (fun a c => ∃ b, p a b ∧ q b c) l l') :
    ∃ m, List.Forall₂ p l m ∧ List.Forall₂ q m l' := by
  induction h with
  | nil => exact ⟨[], .nil, .nil⟩
  | cons h _ ih =>
    obtain ⟨b, hp, hq⟩ := h
    obtain ⟨m, hm, hm'⟩ := ih
    exact ⟨b :: m, .cons hp hm, .cons hq hm'⟩

theorem exists_forall₂ {α β : Type} {p : α → β → Prop} {l : List α} (h : ∀ a ∈ l, ∃ b, p a b) :
    ∃ l', List.Forall₂ p l l' := by
  induction l with
  | nil => exact ⟨[], .nil⟩
  | cons a l ih =>
    rw [List.forall_mem_cons] at h
    obtain ⟨b, hb⟩ := h.1
    obtain ⟨l', hl'⟩ := ih h.2
    exact ⟨b :: l', .cons hb hl'⟩

/-- Distinct elements at distinct positions. -/
theorem nodup_of_forall₂ {α : Type} {l l' : List α} {index : List ℕ} (hl : l.Nodup)
    (hindex : index.Nodup) (h : List.Forall₂ (fun i a => l[i]? = some a) index l') : l'.Nodup := by
  have hmap : index.map (l[·]?) = l'.map some := by
    induction h with
    | nil => rfl
    | cons ha _ ih => rw [List.map_cons, List.map_cons, ha, ih (List.nodup_cons.1 hindex).2]
  refine List.Nodup.of_map some (hmap ▸ hindex.map_on fun i hi j _ hij => ?_)
  refine (List.getElem?_inj ?_ hl).1 hij
  obtain ⟨a, -, ha⟩ : ∃ a ∈ l', l[i]? = some a := by
    have hmem : l[i]? ∈ l'.map some := hmap ▸ List.mem_map_of_mem hi
    obtain ⟨a, ha, heq⟩ := List.mem_map.1 hmem
    exact ⟨a, ha, heq.symm⟩
  exact (List.getElem?_eq_some_iff.1 ha).1

/-! ### Subsets -/

section Subsets

variable {R : Type}

/-- The ids of a subset of a vocabulary of `n` tokens. -/
def ids (n : ℕ) (s : SubsetLogits R) : List ℕ :=
  if s.isSubset then s.index else List.range n

/-- The subset has the logits of its ids, which are distinct. -/
structure Holds (L : List R) (s : SubsetLogits R) : Prop where
  cols : s.logits.cols = s.logits.data.length
  nodup : (ids L.length s).Nodup
  logits : List.Forall₂ (fun id score => L[id]? = some score) (ids L.length s) s.logits.data

variable {L : List R} {s s' : SubsetLogits R}

theorem ids_of_isSubset {n : ℕ} (h : s.isSubset = true) : ids n s = s.index := if_pos h

namespace Holds

theorem length (h : Holds L s) : (ids L.length s).length = s.logits.data.length :=
  h.logits.length_eq

theorem lt (h : Holds L s) {id : ℕ} (hid : id ∈ ids L.length s) : id < L.length := by
  obtain ⟨k, rfl⟩ := List.mem_iff_get.1 hid
  have hget := (List.forall₂_iff_get.1 h.logits).2 k k.2 (h.length ▸ k.2)
  exact (List.getElem?_eq_some_iff.1 hget).1

/-- A whole vector is a subset of itself. -/
theorem createLogits {v : Logits R} (hv : v.cols = v.data.length) :
    Holds v.data (createLogits v) := by
  refine ⟨hv, List.nodup_range, List.forall₂_iff_get.2 ⟨?_, fun i hi hi' => ?_⟩⟩
  · simp [ids, Sampler.createLogits]
  · simp [ids, Sampler.createLogits]

/-- The ids at some positions. -/
theorem transformIndex (h : Holds L s) {index : List ℕ} {scores : List R} (hnodup : index.Nodup)
    (hscores : List.Forall₂ (fun i score => s.logits.data[i]? = some score) index scores) :
    ∃ s', transformIndex s (createSubsetLogits scores index) = some s' ∧ Holds L s' ∧
      s'.isSubset ∧ s'.logits.data = scores ∧
      List.Forall₂ (fun i id => (ids L.length s)[i]? = some id) index s'.index := by
  -- the id at a position has the logit at that position
  have hid : List.Forall₂
      (fun i score => ∃ id, (ids L.length s)[i]? = some id ∧ L[id]? = some score) index scores := by
    refine hscores.imp fun i score hi => ?_
    obtain ⟨hlt, rfl⟩ := List.getElem?_eq_some_iff.1 hi
    have hlt' : i < (ids L.length s).length := h.length ▸ hlt
    exact ⟨_, List.getElem?_eq_getElem hlt', (List.forall₂_iff_get.1 h.logits).2 i hlt' hlt⟩
  obtain ⟨index', hindex, hL⟩ := forall₂_of_exists hid
  have hlen : index.length = index'.length := hindex.length_eq
  have hnodup' := nodup_of_forall₂ h.nodup hnodup hindex
  have hlen' : index'.length = scores.length := hL.length_eq
  refine ⟨{ createSubsetLogits scores index with index := index' }, ?_,
    ⟨hlen.trans hlen', hnodup', hL⟩, rfl, rfl, hindex⟩
  unfold Sampler.transformIndex
  by_cases hs : s.isSubset
  · rw [ids_of_isSubset hs] at hindex
    rw [if_pos hs, createSubsetLogits, mapM_eq_some_iff.2 hindex, Option.map_some]
  · rw [if_neg hs]
    -- every id is its own position
    have hsame : index = index' := by
      refine List.forall₂_eq_eq_eq ▸ hindex.imp fun i id hi => ?_
      rw [ids, if_neg hs, List.getElem?_eq_some_iff] at hi
      obtain ⟨hlt, rfl⟩ := hi
      exact (List.getElem_range hlt).symm
    rw [← hsame]
    rfl

end Holds

@[simp] theorem length_enumerate (scores : List R) : (enumerate scores).length = scores.length :=
  List.length_mapIdx

theorem mem_enumerate {scores : List R} {m : IndexScore R} :
    m ∈ enumerate scores ↔ scores[m.index]? = some m.score := by
  rw [enumerate, List.mem_mapIdx]
  constructor
  · rintro ⟨i, hi, rfl⟩
    exact List.getElem?_eq_getElem hi
  · intro h
    obtain ⟨hi, hscore⟩ := List.getElem?_eq_some_iff.1 h
    exact ⟨m.index, hi, by rw [hscore]⟩

theorem map_index_enumerate (scores : List R) :
    (enumerate scores).map (·.index) = List.range scores.length := by
  refine List.ext_getElem (by simp) fun i hi hi' => ?_
  simp [enumerate]

/-- Elements of an enumeration have distinct indices. -/
theorem nodup_index {scores : List R} {out : List (IndexScore R)}
    (h : (out : Multiset (IndexScore R)) ≤ enumerate scores) : (out.map (·.index)).Nodup := by
  have hle := Multiset.map_le_map (f := fun m : IndexScore R => m.index) h
  rw [Multiset.map_coe, Multiset.map_coe, map_index_enumerate] at hle
  exact Multiset.coe_nodup.1 (Multiset.nodup_of_le hle (Multiset.coe_nodup.2 List.nodup_range))

theorem getElem?_of_le {scores : List R} {out : List (IndexScore R)}
    (h : (out : Multiset (IndexScore R)) ≤ enumerate scores) {m : IndexScore R} (hm : m ∈ out) :
    scores[m.index]? = some m.score :=
  mem_enumerate.1 (Multiset.mem_coe.1 (Multiset.mem_of_le h (Multiset.mem_coe.2 hm)))

/-- What a filter's result has in common with what it was given. -/
structure Filtered (L : List R) (s : SubsetLogits R) (out : List (IndexScore R))
    (s' : SubsetLogits R) : Prop where
  holds : Holds L s'
  isSubset : s'.isSubset = true
  length : s'.logits.data.length = out.length
  index : List.Forall₂ (fun i id => (ids L.length s)[i]? = some id) (out.map (·.index)) s'.index

theorem Holds.take (h : Holds L s) {scores : List R} {out : List (IndexScore R)}
    (hlen : scores.length = s.logits.data.length)
    (hout : (out : Multiset (IndexScore R)) ≤ enumerate scores) :
    ∃ s', take s out = some s' ∧ Filtered L s out s' := by
  obtain ⟨taken, htaken⟩ : ∃ taken, List.Forall₂ (fun (m : IndexScore R) score =>
      s.logits.data[m.index]? = some score) out taken := by
    refine exists_forall₂ fun m hm => ?_
    have hlt := (List.getElem?_eq_some_iff.1 (getElem?_of_le hout hm)).1
    exact ⟨_, List.getElem?_eq_getElem (hlen ▸ hlt)⟩
  obtain ⟨s', hs', hholds, hsub, hdata, hindex⟩ :=
    h.transformIndex (nodup_index hout) (List.forall₂_map_left_iff.2 htaken)
  refine ⟨s', ?_, hholds, hsub, ?_, hindex⟩
  · rw [Sampler.take, mapM_eq_some_iff.2 htaken]
    exact hs'
  · rw [hdata, htaken.length_eq]

end Subsets

variable {R : Type} [Field R] [LinearOrder R] {lib : Library R} {mConfig : SamplerConfig R}

variable {L : List R} {s s' : SubsetLogits R}

/-! ### What is taken -/

/-- The softmax of one row. -/
theorem data_tempratureSoftmax {v : Logits R} (hv : v.cols = v.data.length) (t : R) :
    (tempratureSoftmax lib v t).data = lib.softmax t v.data := by
  unfold tempratureSoftmax
  rcases Nat.eq_zero_or_pos v.data.length with hzero | hpos
  · have hnil : lib.softmax t v.data = [] := List.length_eq_zero_iff.1 (by simp [hzero])
    simp [hv, hzero, hnil]
  · simp [hv, Nat.div_self hpos]

theorem packSoftmax_eq (h : Holds L s) (t : R) :
    packSoftmax lib s.logits t = enumerate (lib.softmax t s.logits.data) := by
  rw [packSoftmax, data_tempratureSoftmax h.cols]

/-! ### The filters -/

section TopK

variable {K : ℤ} {heap heap' : lib.ascending.Heap} {l : List (IndexScore R)}

theorem elems_keep {m : IndexScore R} (h : keep lib K heap m = some heap') :
    lib.ascending.elems heap' ≤ m ::ₘ lib.ascending.elems heap := by
  unfold keep at h
  split_ifs at h with hK
  · obtain rfl := Option.some.inj h
    rw [HeapOps.elems_push]
  · cases hp : lib.ascending.pop heap with
    | none => simp [hp] at h
    | some p =>
      obtain ⟨top, rest⟩ := p
      have helems := lib.ascending.elems_pop heap top rest hp
      simp only [hp, Option.some.injEq] at h
      split_ifs at h with hlt
      · rw [← h, HeapOps.elems_push, helems]
        exact Multiset.cons_le_cons m (Multiset.le_cons_self ..)
      · rw [← h]
        exact Multiset.le_cons_self ..

/-- The heap has elements that were put in. -/
theorem elems_foldlM_keep (h : l.foldlM (keep lib K) heap = some heap') :
    lib.ascending.elems heap' ≤ lib.ascending.elems heap + l := by
  induction l generalizing heap with
  | nil =>
    obtain rfl : heap = heap' := Option.some.inj h
    rw [Multiset.coe_nil, add_zero]
  | cons m l ih =>
    rw [List.foldlM_cons] at h
    obtain ⟨heap₁, h₁, h⟩ := Option.bind_eq_some_iff.1 h
    refine (ih h).trans ?_
    rw [← Multiset.cons_coe, Multiset.add_cons, ← Multiset.cons_add]
    exact Multiset.add_le_add_right (elems_keep h₁)

/-- For a positive `K` no top of an empty heap is asked for. -/
theorem exists_keep (hK : 1 ≤ K) (hsize : lib.ascending.size heap ≤ K) (m : IndexScore R) :
    ∃ heap', keep lib K heap m = some heap' ∧
      (lib.ascending.size heap' : ℤ) = min K (lib.ascending.size heap + 1) := by
  by_cases hlt : (lib.ascending.size heap : ℤ) < K
  · refine ⟨_, if_pos (.inr hlt), ?_⟩
    rw [HeapOps.size_push]
    omega
  · obtain ⟨top, rest, hp⟩ := HeapOps.exists_pop (H := lib.ascending) (h := heap) (by omega)
    have hpop := HeapOps.size_pop hp
    refine ⟨if top.score < m.score then lib.ascending.push rest m else heap, ?_, ?_⟩
    · simp only [keep, hp, if_neg (not_or.2 ⟨not_lt.2 (by omega : (0 : ℤ) ≤ K), hlt⟩)]
    · split_ifs
      · rw [HeapOps.size_push]
        omega
      · omega

theorem exists_foldlM_keep (hK : 1 ≤ K) (hsize : lib.ascending.size heap ≤ K)
    (l : List (IndexScore R)) :
    ∃ heap', l.foldlM (keep lib K) heap = some heap' ∧
      (lib.ascending.size heap' : ℤ) = min K (lib.ascending.size heap + l.length) := by
  induction l generalizing heap with
  | nil => exact ⟨heap, rfl, by simp; omega⟩
  | cons m l ih =>
    obtain ⟨heap₁, h₁, hsize₁⟩ := exists_keep hK hsize m
    have hle : (lib.ascending.size heap₁ : ℤ) ≤ K := by omega
    obtain ⟨heap₂, h₂, hsize₂⟩ := ih hle
    refine ⟨heap₂, ?_, ?_⟩
    · rw [List.foldlM_cons, h₁]
      exact h₂
    · rw [List.length_cons]
      push_cast
      omega

/-- What is popped from the heap makes a subset. -/
theorem Holds.popped (h : Holds L s) {n : ℕ} {popped : List (IndexScore R)}
    (hheap : (enumerate s.logits.data).foldlM (keep lib K) lib.ascending.empty = some heap)
    (hpopped : lib.ascending.pops n heap = some popped) :
    ∃ s', Sampler.transformIndex s (createSubsetLogits (popped.reverse.map (·.score))
      (popped.reverse.map (·.index))) = some s' ∧ Filtered L s popped.reverse s' := by
  have hout : (popped.reverse : Multiset (IndexScore R)) ≤ enumerate s.logits.data := by
    rw [Multiset.coe_reverse]
    refine (HeapOps.pops_spec hpopped).2.1.trans ((elems_foldlM_keep hheap).trans ?_)
    rw [HeapOps.elems_empty, zero_add]
  have hscores : List.Forall₂ (fun i score => s.logits.data[i]? = some score)
      (popped.reverse.map (·.index)) (popped.reverse.map (·.score)) := by
    rw [List.forall₂_map_left_iff, List.forall₂_map_right_iff, List.forall₂_same]
    exact fun m hm => getElem?_of_le hout hm
  obtain ⟨s', hs', hholds, hsub, hdata, hindex⟩ := h.transformIndex (nodup_index hout) hscores
  exact ⟨s', hs', hholds, hsub, by rw [hdata, List.length_map], hindex⟩

theorem topK_filtered (h : Holds L s) (hs : topK lib mConfig s = some s') :
    ∃ out, Filtered L s out s' ∧ out.length = mConfig.topK.toNat := by
  unfold topK at hs
  obtain ⟨heap, hheap, hs⟩ := Option.bind_eq_some_iff.1 hs
  split_ifs at hs with hK
  obtain ⟨popped, hpopped, hs⟩ := Option.bind_eq_some_iff.1 hs
  obtain ⟨s₁, hs₁, hfiltered⟩ := h.popped hheap hpopped
  obtain rfl := Option.some.inj (hs₁.symm.trans hs)
  exact ⟨popped.reverse, hfiltered, by rw [List.length_reverse, (HeapOps.pops_spec hpopped).1]⟩

variable (lib) in
/-- The heap after all scores were looked at. -/
theorem exists_heap (hK : 1 ≤ K) (scores : List R) :
    ∃ heap, (enumerate scores).foldlM (keep lib K) lib.ascending.empty = some heap ∧
      (lib.ascending.size heap : ℤ) = min K scores.length := by
  have hempty : (lib.ascending.size lib.ascending.empty : ℤ) ≤ K := by
    rw [HeapOps.size_empty]
    omega
  obtain ⟨heap, hheap, hsize⟩ := exists_foldlM_keep hK hempty (enumerate scores)
  rw [HeapOps.size_empty, length_enumerate, Nat.cast_zero, zero_add] at hsize
  exact ⟨heap, hheap, hsize⟩

variable (lib) in
theorem exists_topK (h : Holds L s) (hK : 1 ≤ mConfig.topK)
    (hlen : mConfig.topK ≤ s.logits.data.length) : ∃ s', topK lib mConfig s = some s' := by
  obtain ⟨heap, hheap, hsize⟩ := exists_heap lib hK s.logits.data
  obtain ⟨popped, hpopped⟩ := HeapOps.pops_isSome_iff.2
    (by omega : mConfig.topK.toNat ≤ lib.ascending.size heap)
  obtain ⟨s', hs', -⟩ := h.popped hheap hpopped
  refine ⟨s', ?_⟩
  unfold topK
  rw [hheap, Option.bind_eq_bind, Option.bind_some, if_neg (by omega), hpopped]
  exact hs'

/-- For no score, and for fewer scores than `K`, the heap is asked in vain. -/
theorem topK_eq_none (hpos : 0 < s.logits.data.length)
    (hK : ¬ (1 ≤ mConfig.topK ∧ mConfig.topK ≤ s.logits.data.length)) :
    topK lib mConfig s = none := by
  unfold topK
  rcases lt_trichotomy mConfig.topK 0 with hneg | hzero | hone
  · rw [Option.bind_eq_bind, Option.bind_eq_none_iff]
    exact fun heap _ => if_pos hneg
  · obtain ⟨score, scores, hdata⟩ := List.exists_cons_of_length_pos hpos
    have hnone := HeapOps.pop_eq_none_of_size (HeapOps.size_empty (H := lib.ascending))
    simp [hdata, enumerate, hzero, keep, hnone]
  · obtain ⟨heap, hheap, hsize⟩ := exists_heap lib hone s.logits.data
    have hnone : lib.ascending.pops mConfig.topK.toNat heap = none := by
      rw [Option.eq_none_iff_forall_ne_some]
      intro popped hpopped
      have := HeapOps.pops_isSome_iff.1 ⟨popped, hpopped⟩
      omega
    rw [hheap, Option.bind_eq_bind, Option.bind_some, if_neg (by omega), hnone]
    rfl

end TopK

section Loops

variable {p : R}

theorem topPLoop_le (p : R) (fuel : ℕ) (heap : lib.descending.Heap) (cumulative : R)
    (out : List (IndexScore R)) :
    (topPLoop lib p fuel heap cumulative out : Multiset (IndexScore R)) ≤
      out + lib.descending.elems heap := by
  induction fuel generalizing heap cumulative out with
  | zero => exact Multiset.le_add_right ..
  | succ fuel ih =>
    unfold topPLoop
    split_ifs with hlt
    · cases hp : lib.descending.pop heap with
      | none => exact Multiset.le_add_right ..
      | some q =>
        obtain ⟨m, rest⟩ := q
        refine (ih rest (cumulative + m.score) (out ++ [m])).trans ?_
        rw [lib.descending.elems_pop heap m rest hp, ← Multiset.coe_add, add_assoc,
          Multiset.coe_singleton, Multiset.singleton_add]
    · exact Multiset.le_add_right ..

theorem topPLoop_ne_nil {out : List (IndexScore R)} (hout : out ≠ []) (fuel : ℕ)
    (heap : lib.descending.Heap) (cumulative : R) :
    topPLoop lib p fuel heap cumulative out ≠ [] := by
  induction fuel generalizing heap cumulative out with
  | zero => exact hout
  | succ fuel ih =>
    unfold topPLoop
    split_ifs
    · cases lib.descending.pop heap with
      | none => exact hout
      | some q => exact ih (List.append_ne_nil_of_right_ne_nil _ (List.cons_ne_nil _ _)) _ _
    · exact hout

/-- The first element is taken whenever something is asked for. -/
theorem topPLoop_nil {l : List (IndexScore R)} (hl : l ≠ []) :
    topPLoop lib p l.length (lib.descending.make l) 0 [] ≠ [] ↔ 0 < p := by
  obtain ⟨n, hn⟩ := Nat.exists_eq_succ_of_ne_zero (mt List.length_eq_zero_iff.1 hl)
  rw [hn, topPLoop]
  constructor
  · intro h
    by_contra hp
    exact h (if_neg hp)
  · intro hp
    obtain ⟨m, rest, hpop⟩ := HeapOps.exists_pop (H := lib.descending) (h := lib.descending.make l)
      (by rw [HeapOps.size_make, hn]; exact Nat.succ_pos n)
    rw [if_pos hp, hpop]
    exact topPLoop_ne_nil (List.cons_ne_nil m []) _ _ _

omit [Field R] [LinearOrder R] in
theorem exists_cutLoop {before : IndexScore R → IndexScore R → Prop}
    {H : HeapOps (IndexScore R) before} {add : R → IndexScore R → Option R}
    (cut : R → IndexScore R → Bool) {n : ℕ} {heap : H.Heap} (hsize : n ≤ H.size heap)
    (hadd : ∀ m ∈ H.elems heap, ∀ c, ∃ c', add c m = some c') (cumulative : R)
    (out : List (IndexScore R)) : ∃ out', cutLoop H add cut n heap cumulative out = some out' ∧
      (out' : Multiset (IndexScore R)) ≤ out + H.elems heap ∧ (out ≠ [] ∨ 0 < n → out' ≠ []) := by
  induction n generalizing heap cumulative out with
  | zero =>
    refine ⟨out, rfl, Multiset.le_add_right .., fun h => ?_⟩
    exact h.elim id fun h => absurd h (lt_irrefl 0)
  | succ n ih =>
    obtain ⟨m, rest, hpop⟩ := HeapOps.exists_pop (Nat.zero_lt_of_lt hsize)
    have helems := H.elems_pop heap m rest hpop
    obtain ⟨c, hc⟩ := hadd m (by rw [helems]; exact Multiset.mem_cons_self ..) cumulative
    by_cases hcut : cut c m ∧ out ≠ []
    · refine ⟨out, ?_, Multiset.le_add_right .., fun _ => hcut.2⟩
      simp only [cutLoop, hpop, hc, Option.bind_eq_bind, Option.bind_some, if_pos hcut]
    · have hpopped := HeapOps.size_pop hpop
      have hrest : ∀ m' ∈ H.elems rest, ∀ c, ∃ c', add c m' = some c' := fun m' hm' =>
        hadd m' (by rw [helems]; exact Multiset.mem_cons_of_mem hm')
      obtain ⟨out', hout', hle, hne⟩ := ih (by omega) hrest c (out ++ [m])
      refine ⟨out', ?_, ?_, fun _ => hne (.inl ?_)⟩
      · simp only [cutLoop, hpop, hc, Option.bind_eq_bind, Option.bind_some, if_neg hcut, hout']
      · refine hle.trans (le_of_eq ?_)
        rw [helems, ← Multiset.coe_add, add_assoc, Multiset.coe_singleton, Multiset.singleton_add]
      · exact List.append_ne_nil_of_right_ne_nil _ (List.cons_ne_nil _ _)

theorem tfsLoop_le (z sum : R) (l : List (IndexScore R × R)) (cumulative : R)
    (out : List (IndexScore R)) :
    (tfsLoop z sum l cumulative out : Multiset (IndexScore R)) ≤ out + l.map Prod.fst := by
  induction l generalizing cumulative out with
  | nil => exact Multiset.le_add_right ..
  | cons q l ih =>
    obtain ⟨m, d⟩ := q
    simp only [tfsLoop]
    split_ifs with hcut
    · exact Multiset.le_add_right ..
    · refine (ih _ _).trans (le_of_eq ?_)
      rw [List.map_cons, ← Multiset.cons_coe, ← Multiset.coe_add, add_assoc, Multiset.coe_singleton,
        Multiset.singleton_add]

theorem tfsLoop_ne_nil (z sum : R) {l : List (IndexScore R × R)} {out : List (IndexScore R)}
    (h : out ≠ [] ∨ l ≠ []) (cumulative : R) : tfsLoop z sum l cumulative out ≠ [] := by
  induction l generalizing cumulative out with
  | nil => exact h.elim id fun h => absurd rfl h
  | cons q l ih =>
    simp only [tfsLoop]
    split_ifs with hcut
    · exact hcut.2.2
    · exact ih (.inl (List.append_ne_nil_of_right_ne_nil _ (List.cons_ne_nil _ _))) _

end Loops

omit [Field R] [LinearOrder R] in
/-- The enumerated scores of a subset that has a token. -/
theorem enumerate_ne_nil {scores : List R} (hlen : scores.length = s.logits.data.length)
    (hdata : s.logits.data ≠ []) : enumerate scores ≠ [] := by
  rw [← List.length_pos_iff] at hdata ⊢
  rwa [length_enumerate, hlen]

variable (lib mConfig) in
theorem topP_spec (h : Holds L s) :
    ∃ s' out, topP lib mConfig s = some s' ∧ Filtered L s out s' ∧
      (s.logits.data ≠ [] → (out ≠ [] ↔ 0 < mConfig.topP)) := by
  have hlen := lib.length_softmax mConfig.temperature s.logits.data
  unfold topP
  rw [packSoftmax_eq h]
  set indexScores := enumerate (lib.softmax mConfig.temperature s.logits.data) with hdef
  have hle := topPLoop_le mConfig.topP indexScores.length (lib.descending.make indexScores) 0 []
  rw [HeapOps.elems_make, Multiset.coe_nil, zero_add] at hle
  obtain ⟨s', hs', hfiltered⟩ := h.take hlen hle
  exact ⟨s', _, hs', hfiltered, fun hdata => topPLoop_nil (enumerate_ne_nil hlen hdata)⟩

omit [LinearOrder R] in
/-- What `cutLoop` takes makes a subset. -/
theorem Holds.cut (h : Holds L s) {scores : List R} (hlen : scores.length = s.logits.data.length)
    {before : IndexScore R → IndexScore R → Prop} (H : HeapOps (IndexScore R) before)
    {add : R → IndexScore R → Option R} (cut : R → IndexScore R → Bool)
    (hadd : ∀ m ∈ enumerate scores, ∀ c, ∃ c', add c m = some c') :
    ∃ s' out, (cutLoop H add cut (enumerate scores).length (H.make (enumerate scores)) 0 []).bind
        (Sampler.take s) = some s' ∧ Filtered L s out s' ∧ (s.logits.data ≠ [] → out ≠ []) := by
  have hsize : (enumerate scores).length ≤ H.size (H.make (enumerate scores)) := by
    rw [HeapOps.size_make]
  obtain ⟨out, hout, hle, hne⟩ := exists_cutLoop cut hsize (by simpa using hadd) 0 []
  rw [HeapOps.elems_make, Multiset.coe_nil, zero_add] at hle
  obtain ⟨s', hs', hfiltered⟩ := h.take hlen hle
  refine ⟨s', out, by rw [hout]; exact hs', hfiltered, fun hdata => hne (.inr ?_)⟩
  exact List.length_pos_iff.2 (enumerate_ne_nil hlen hdata)

variable (lib mConfig) in
theorem minP_spec (h : Holds L s) :
    ∃ s' out, minP lib mConfig s = some s' ∧ Filtered L s out s' ∧
      (s.logits.data ≠ [] → out ≠ []) := by
  unfold minP
  rw [packSoftmax_eq h]
  exact h.cut (lib.length_softmax ..) _ _ fun _ _ c => ⟨c, rfl⟩

variable (lib mConfig) in
theorem typical_spec (h : Holds L s) :
    ∃ s' out, typical lib mConfig s = some s' ∧ Filtered L s out s' ∧
      (s.logits.data ≠ [] → out ≠ []) := by
  unfold typical
  rw [data_tempratureSoftmax h.cols]
  refine h.cut (by simp) _ _ fun m hm c => ?_
  have hlt := (List.getElem?_eq_some_iff.1 (mem_enumerate.1 hm)).1
  rw [List.length_map] at hlt
  exact ⟨_, by rw [List.getElem?_eq_getElem hlt]; rfl⟩

theorem map_fst_zip_sublist {α β : Type} (l : List α) (l' : List β) :
    ((l.zip l').map Prod.fst).Sublist l := by
  induction l generalizing l' with
  | nil => exact .slnil
  | cons a l ih =>
    cases l' with
    | nil => exact List.nil_sublist _
    | cons b l' => exact (ih l').cons_cons a

variable (lib mConfig) in
/-- The sorted scores of `tfs`. -/
theorem length_sort (h : Holds L s) :
    (lib.sort (packSoftmax lib s.logits mConfig.temperature)).length = s.logits.data.length := by
  rw [(lib.sort_perm _).length_eq, packSoftmax_eq h, length_enumerate, lib.length_softmax]

variable (lib mConfig) in
theorem tfs_spec (h : Holds L s) (hlen : 3 ≤ s.logits.data.length) :
    ∃ s' out, tfs lib mConfig s = some s' ∧ Filtered L s out s' ∧ out ≠ [] := by
  have hsort := length_sort lib mConfig h
  have hperm := lib.sort_perm (packSoftmax lib s.logits mConfig.temperature)
  unfold tfs
  cases hsorted : lib.sort (packSoftmax lib s.logits mConfig.temperature) with
  | nil => simp [hsorted] at hsort; omega
  | cons a l =>
    cases l with
    | nil => simp [hsorted] at hsort; omega
    | cons b l =>
      cases l with
      | nil => simp [hsorted] at hsort; omega
      | cons c l =>
        rw [hsorted] at hperm
        set d := derivatives (a.score - b.score) (b :: c :: l) with hd
        have hle := tfsLoop_le mConfig.tfsZ d.sum ((a :: b :: c :: l).zip d) 0 []
        rw [Multiset.coe_nil, zero_add] at hle
        have hall := hle.trans (Multiset.coe_le.2 (map_fst_zip_sublist _ _).subperm)
        rw [Multiset.coe_eq_coe.2 hperm, packSoftmax_eq h] at hall
        obtain ⟨s', hs', hfiltered⟩ := h.take (lib.length_softmax ..) hall
        refine ⟨s', _, ?_, hfiltered, tfsLoop_ne_nil _ _ (.inr ?_) 0⟩
        · simpa [guard] using hs'
        · simp [hd, derivatives]

theorem tfs_eq_none (h : Holds L s) (hlen : s.logits.data.length < 3) :
    tfs lib mConfig s = none := by
  have hsort := length_sort lib mConfig h
  unfold tfs
  cases hsorted : lib.sort (packSoftmax lib s.logits mConfig.temperature) with
  | nil => rfl
  | cons a l =>
    cases l with
    | nil => rfl
    | cons b l =>
      cases l with
      | nil => rfl
      | cons c l => simp [hsorted] at hsort; omega

/-! ### The penalty -/

/-- A loop whose rounds come to their end and keep an invariant. -/
theorem exists_foldlM {α β : Type} {f : β → α → Option β} {l : List α} (inv : β → Prop)
    (hf : ∀ a ∈ l, ∀ b, inv b → ∃ b', f b a = some b' ∧ inv b') {b : β} (hb : inv b) :
    ∃ b', l.foldlM f b = some b' ∧ inv b' := by
  induction l generalizing b with
  | nil => exact ⟨b, rfl, hb⟩
  | cons a l ih =>
    rw [List.forall_mem_cons] at hf
    obtain ⟨b₁, h₁, hb₁⟩ := hf.1 b hb
    obtain ⟨b₂, h₂, hb₂⟩ := ih hf.2 hb₁
    exact ⟨b₂, by rw [List.foldlM_cons, h₁]; exact h₂, hb₂⟩

section Penalty

variable {prev ngramInfo : List ℤ}

omit [LinearOrder R] in
/-- The inner loop stays inside the history and the local n-gram. -/
theorem exists_ngramPenalty {j : ℕ} (idx : ℕ) (hj : j ≤ prev.length)
    (hinfo : mConfig.ngram ≤ ngramInfo.length + 1) (x : R) :
    ∃ y, ngramPenalty mConfig prev ngramInfo j idx x = some y := by
  induction j generalizing idx x with
  | zero => exact ⟨x, rfl⟩
  | succ j ih =>
    unfold ngramPenalty
    by_cases hidx : (idx : ℤ) + 1 < mConfig.ngram
    · rw [if_pos hidx, List.getElem?_eq_getElem (by omega : j < prev.length),
        List.getElem?_eq_getElem (by omega : idx < ngramInfo.length)]
      simp only [Option.bind_eq_bind, Option.bind_some]
      by_cases htoken : prev[j] ≠ ngramInfo[idx]
      · exact ⟨x, if_pos htoken⟩
      · rw [if_neg htoken]
        exact ih _ (by omega) _
    · exact ⟨x, if_neg hidx⟩

theorem exists_addPenalty {i : ℕ} (hi : i < prev.length)
    (hinfo : mConfig.ngram ≤ ngramInfo.length + 1) (x : R) (map : ℤ → Option R) :
    ∃ map', addPenalty mConfig x prev ngramInfo map i = some map' := by
  obtain ⟨y, hy⟩ := exists_ngramPenalty 0 hi.le hinfo x
  unfold addPenalty
  rw [List.getElem?_eq_getElem hi, hy]
  simp only [Option.bind_eq_bind, Option.bind_some]
  split_ifs <;> exact ⟨_, rfl⟩

/-- The local n-gram looks back as far as the history goes. -/
theorem exists_ngramInfo_iff {n : ℕ} :
    (∃ info, ((List.range n).mapM fun k =>
      if 1 < mConfig.ngramFactor then prev.reverse[k]? else some 0) = some info) ↔
      mConfig.ngramFactor ≤ 1 ∨ n ≤ prev.length := by
  constructor
  · rintro ⟨info, hinfo⟩
    rw [mapM_eq_some_iff] at hinfo
    by_contra hlt
    rw [not_or, not_le, not_le] at hlt
    have hget := (List.forall₂_iff_get.1 hinfo).2 prev.length (by simpa using hlt.2)
      (by rw [← hinfo.length_eq]; simpa using hlt.2)
    simp [hlt.1] at hget
  · intro h
    obtain ⟨info, hinfo⟩ := exists_forall₂ (l := List.range n) (p := fun k x =>
      (if 1 < mConfig.ngramFactor then prev.reverse[k]? else some 0) = some x) <| by
        intro k hk
        rw [List.mem_range] at hk
        split_ifs with hfactor
        · have hlen : n ≤ prev.length := h.resolve_left (not_le.2 hfactor)
          exact ⟨_, List.getElem?_eq_getElem (by rw [List.length_reverse]; omega)⟩
        · exact ⟨0, rfl⟩
    exact ⟨info, mapM_eq_some_iff.2 hinfo⟩

/-- What the penalty needs of the history. -/
def PenaltyOk (mConfig : SamplerConfig R) (prev : List ℤ) (n : ℕ) : Prop :=
  mConfig.penalty ≤ 1 ∨
    1 ≤ mConfig.ngram ∧ (mConfig.ngramFactor ≤ 1 ∨ mConfig.ngram - 1 ≤ prev.length) ∧
      ∀ token ∈ prev, 0 ≤ token ∧ token < n

theorem exists_guard {p q : Prop} [Decidable p] :
    (∃ u, (guard p : Option Unit) = some u ∧ q) ↔ p ∧ q := by
  by_cases hp : p <;> simp [guard, hp]

/-- The penalty, where there is one. -/
theorem penalty_eq_some_iff (h : ¬ mConfig.penalty ≤ 1) :
    penalty mConfig prev s = some s' ↔ 1 ≤ mConfig.ngram ∧
      ∃ info, ((List.range (mConfig.ngram - 1).toNat).mapM fun n =>
        if 1 < mConfig.ngramFactor then prev.reverse[n]? else some 0) = some info ∧
      ∃ map, (List.range prev.length).foldlM (addPenalty mConfig
        (min mConfig.penalty mConfig.maxPenalty) prev info) (fun _ => none) = some map ∧
      (∀ token ∈ prev, 0 ≤ token ∧ token < s.logits.data.length) ∧
      { s with logits := { cols := s.logits.cols, data := penalize map s.logits.data } } = s' := by
  unfold penalty
  rw [if_neg h]
  simp only [Option.bind_eq_bind, Option.bind_eq_some_iff, exists_guard, Option.some.injEq]

theorem exists_penalty_iff :
    (∃ s', penalty mConfig prev s = some s') ↔ PenaltyOk mConfig prev s.logits.data.length := by
  by_cases hp : mConfig.penalty ≤ 1
  · exact ⟨fun _ => .inl hp, fun _ => ⟨s, if_pos hp⟩⟩
  · simp only [penalty_eq_some_iff hp]
    constructor
    · rintro ⟨s', hngram, info, hinfo, map, -, htokens, -⟩
      have hlen := exists_ngramInfo_iff.1 ⟨info, hinfo⟩
      exact .inr ⟨hngram, hlen.imp_right fun h => by omega, htokens⟩
    · intro h
      obtain ⟨hngram, hlen, htokens⟩ := h.resolve_left hp
      obtain ⟨info, hinfo⟩ := exists_ngramInfo_iff.2 <|
        hlen.imp_right fun h => (by omega : (mConfig.ngram - 1).toNat ≤ prev.length)
      have hlen' : (mConfig.ngram - 1).toNat = info.length := by
        simpa using (mapM_eq_some_iff.1 hinfo).length_eq
      obtain ⟨map, hmap, -⟩ := exists_foldlM (l := List.range prev.length) (fun _ => True)
        (fun i hi map _ => (exists_addPenalty (List.mem_range.1 hi)
          (by omega : mConfig.ngram ≤ info.length + 1) (min mConfig.penalty mConfig.maxPenalty)
          map).imp fun _ h => ⟨h, trivial⟩) (b := fun _ => none) trivial
      exact ⟨_, hngram, info, hinfo, map, hmap, htokens, rfl⟩

/-- The penalty changes logits in place. -/
theorem penalty_frame (h : penalty mConfig prev s = some s') :
    s'.index = s.index ∧ s'.isSubset = s.isSubset ∧ s'.logits.cols = s.logits.cols ∧
      s'.logits.data.length = s.logits.data.length := by
  by_cases hp : mConfig.penalty ≤ 1
  · rw [penalty, if_pos hp] at h
    obtain rfl := Option.some.inj h
    exact ⟨rfl, rfl, rfl, rfl⟩
  · obtain ⟨-, info, -, map, -, -, rfl⟩ := (penalty_eq_some_iff hp).1 h
    exact ⟨rfl, rfl, rfl, List.length_mapIdx⟩

end Penalty

end Mnn.Sampler
