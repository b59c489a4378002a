import Mathlib.Data.List.Perm.Basic
import Mathlib.Data.List.Count
import Mathlib.Data.List.GetD
import Mnn.Llm.Lookahead
import Mnn.Lib.Run

/-!
# The incremental n-gram table

`LookaheadGeneration::generate` builds the table of its prompt once and updates it in every round.
The update is told how many tokens the round accepted, but the history it reads is extended by them
only afterwards, so it enters the last tokens of the history before the round again.

* `pairs`: the pairs of a key and a next token that `ngram_cache_update` enters, in its order;
* `countOf_update`, `listOf_update`: a table after an update in terms of them, for either rule;
* `pairs_append`: **the pairs of an extended history are those of the history and those that an
  update after the extension would enter**;
* `table_rebuilt`: **the table after every round is the rebuilt one** in a run in which each round
  enters what the tokens it appends would have entered;
* `updateSlots`, `searchSlots`: the places of a key that are written.
-/

namespace Mnn.Ngram

open Lib

/-! ### What an update enters -/

/-- The pair of the key of `keySize` tokens before position `i` and the token there. -/
def pairAt (tokens : List ℤ) (keySize i : ℕ) : List ℤ × ℤ :=
  (key ((tokens.drop (i - keySize)).take keySize), tokens.getD i 0)

/-- The pairs that `ngram_cache_update` enters for one key size. -/
def pairsOf (tokens : List ℤ) (newCount keySize : ℕ) : List (List ℤ × ℤ) :=
  (updatePositions keySize tokens.length newCount).map (pairAt tokens keySize)

/-- The pairs that `ngram_cache_update` enters. -/
def pairs (keyMaxLen : ℕ) (tokens : List ℤ) (newCount : ℕ) : List (List ℤ × ℤ) :=
  (List.range keyMaxLen).flatMap fun k => pairsOf tokens newCount (k + 1)

/-- The entering of a list of pairs. -/
def Cache.addAll (data : Cache) (ps : List (List ℤ × ℤ)) : Cache :=
  ps.foldl (fun data p => data.add p.1 p.2) data

theorem update_eq_addAll (keyMaxLen : ℕ) (tokens : List ℤ) (newCount : ℕ) (data : Cache) :
    data.update keyMaxLen tokens newCount = data.addAll (pairs keyMaxLen tokens newCount) := by
  rw [Cache.addAll, pairs, List.foldl_flatMap]
  unfold Cache.update
  congr 1
  funext data k
  rw [pairsOf, List.foldl_map]
  rfl

/-! ### What a table holds -/

/-- The count of a token under a key. -/
def countOf (data : CountCache) (k : List ℤ) (token : ℤ) : ℕ :=
  (((data.lookup k).getD []).lookup token).getD 0

/-- The tokens under a key, in order. -/
def listOf (data : OrderedCache) (k : List ℤ) : List ℤ :=
  match data.lookup k with
  | none => []
  | some (t, v) => t :: v

/-- The same tables: equal counts, or equal lists. -/
def Same : Cache → Cache → Prop
  | .freqxLen data, .freqxLen data' => ∀ k t, countOf data k t = countOf data' k t
  | .fcfs data, .fcfs data' => ∀ k, listOf data k = listOf data' k
  | _, _ => False

theorem lookup_addCount (v : List (ℤ × ℕ)) (token t : ℤ) :
    ((addCount token v).lookup t).getD 0 = (v.lookup t).getD 0 + if t = token then 1 else 0 := by
  induction v with
  | nil =>
    by_cases h : t = token
    · simp [addCount, h]
    · simp [addCount, h, List.lookup_cons, beq_false_of_ne h]
  | cons p v ih =>
    obtain ⟨u, n⟩ := p
    by_cases hu : u = token
    · by_cases h : t = token
      · simp [addCount, hu, h]
      · have hb : (t == token) = false := beq_false_of_ne h
        simp [addCount, hu, h, List.lookup_cons, hb]
    · rw [addCount, if_neg hu]
      by_cases h : t = u
      · simp [h, hu]
      · have hb : (t == u) = false := beq_false_of_ne h
        simp only [List.lookup_cons, hb]
        exact ih

theorem countOf_add (data : CountCache) (g k : List ℤ) (token t : ℤ) :
    countOf (addCounted g token data) k t =
      countOf data k t + if (k, t) = (g, token) then 1 else 0 := by
  unfold countOf
  induction data with
  | nil =>
    by_cases h : k = g
    · by_cases ht : t = token
      · simp [addCounted, h, ht]
      · simp [addCounted, h, ht, List.lookup_cons, beq_false_of_ne ht]
    · simp [addCounted, h, List.lookup_cons, beq_false_of_ne h]
  | cons p data ih =>
    obtain ⟨u, v⟩ := p
    by_cases hu : u = g
    · by_cases h : k = g
      · simp [addCounted, hu, h, lookup_addCount]
      · have hb : (k == g) = false := beq_false_of_ne h
        simp [addCounted, hu, h, List.lookup_cons, hb]
    · rw [addCounted, if_neg hu]
      by_cases h : k = u
      · simp [h, hu]
      · have hb : (k == u) = false := beq_false_of_ne h
        simp only [List.lookup_cons, hb]
        exact ih

theorem listOf_add (data : OrderedCache) (g k : List ℤ) (token : ℤ) :
    listOf (addOrdered g token data) k = listOf data k ++ if k = g then [token] else [] := by
  unfold listOf
  induction data with
  | nil =>
    by_cases h : k = g
    · simp [addOrdered, h]
    · simp [addOrdered, h, List.lookup_cons, beq_false_of_ne h]
  | cons p data ih =>
    obtain ⟨u, t, v⟩ := p
    by_cases hu : u = g
    · by_cases h : k = g
      · simp [addOrdered, hu, h]
      · have hb : (k == g) = false := beq_false_of_ne h
        simp [addOrdered, hu, h, List.lookup_cons, hb]
    · rw [addOrdered, if_neg hu]
      by_cases h : k = u
      · simp [h, hu]
      · have hb : (k == u) = false := beq_false_of_ne h
        simp only [List.lookup_cons, hb]
        exact ih

/-- The tokens of a list of pairs that go with one key. -/
def tokensOf (k : List ℤ) (ps : List (List ℤ × ℤ)) : List ℤ :=
  (ps.filter fun p => k = p.1).map Prod.snd

theorem countOf_addAll (ps : List (List ℤ × ℤ)) (data : CountCache) :
    ∃ data', (Cache.freqxLen data).addAll ps = .freqxLen data' ∧
      ∀ k t, countOf data' k t = countOf data k t + ps.count (k, t) := by
  induction ps generalizing data with
  | nil => exact ⟨data, rfl, fun k t => rfl⟩
  | cons p ps ih =>
    obtain ⟨data', hfold, hcount⟩ := ih (addCounted p.1 p.2 data)
    refine ⟨data', hfold, fun k t => ?_⟩
    rw [hcount, countOf_add, List.count_cons, Nat.add_assoc, Nat.add_comm (List.count _ _)]
    congr 2
    by_cases h : (k, t) = p
    · simp [h]
    · simp [h, Ne.symm h]

theorem listOf_addAll (ps : List (List ℤ × ℤ)) (data : OrderedCache) :
    ∃ data', (Cache.fcfs data).addAll ps = .fcfs data' ∧
      ∀ k, listOf data' k = listOf data k ++ tokensOf k ps := by
  induction ps generalizing data with
  | nil => exact ⟨data, rfl, fun k => (List.append_nil _).symm⟩
  | cons p ps ih =>
    obtain ⟨data', hfold, hlist⟩ := ih (addOrdered p.1 p.2 data)
    refine ⟨data', hfold, fun k => ?_⟩
    rw [hlist, listOf_add, List.append_assoc]
    by_cases h : k = p.1
    · simp [tokensOf, h]
    · simp [tokensOf, h]

/-! ### Extending the history -/

theorem updatePositions_add (keySize n m : ℕ) :
    updatePositions keySize (n + m) (n + m) =
      updatePositions keySize n n ++ updatePositions keySize (n + m) m := by
  simp only [updatePositions, Nat.sub_self, Nat.zero_max, Nat.add_sub_cancel]
  have hsplit : n + m - keySize = (n - keySize) + (n + m - max n keySize) := by omega
  rw [hsplit, List.range_add, List.map_append, List.map_map]
  congr 1
  refine List.map_congr_left fun i hi => ?_
  have hi' := List.mem_range.1 hi
  show keySize + (n - keySize + i) = max n keySize + i
  omega

theorem pairAt_append {tokens : List ℤ} (new : List ℤ) {keySize i : ℕ} (hi : keySize ≤ i)
    (hlt : i < tokens.length) : pairAt (tokens ++ new) keySize i = pairAt tokens keySize i := by
  have hdrop : i - keySize ≤ tokens.length := by omega
  have htake : keySize ≤ (tokens.drop (i - keySize)).length := by
    rw [List.length_drop]
    omega
  unfold pairAt
  rw [List.drop_append_of_le_length hdrop, List.take_append_of_le_length htake,
    List.getD_append _ _ _ _ hlt]

theorem mem_updatePositions {keySize n newCount i : ℕ} (h : i ∈ updatePositions keySize n newCount) :
    keySize ≤ i ∧ i < n := by
  obtain ⟨j, hj, rfl⟩ := List.mem_map.1 h
  have hj' := List.mem_range.1 hj
  omega

theorem pairsOf_append (tokens new : List ℤ) (keySize : ℕ) :
    pairsOf (tokens ++ new) (tokens ++ new).length keySize =
      pairsOf tokens tokens.length keySize ++ pairsOf (tokens ++ new) new.length keySize := by
  unfold pairsOf
  rw [List.length_append, updatePositions_add, List.map_append]
  congr 1
  refine List.map_congr_left fun i hi => ?_
  obtain ⟨hle, hlt⟩ := mem_updatePositions hi
  exact pairAt_append new hle hlt

/-- **The pairs of an extended history**, in some order: those of the history, and those that an
update after the extension enters. -/
theorem pairs_append (keyMaxLen : ℕ) (tokens new : List ℤ) :
    (pairs keyMaxLen (tokens ++ new) (tokens ++ new).length).Perm
      (pairs keyMaxLen tokens tokens.length ++ pairs keyMaxLen (tokens ++ new) new.length) := by
  unfold pairs
  simp only [pairsOf_append]
  exact (List.flatMap_append_perm _ _ _).symm

/-- The tokens of a key that are in use. -/
def keyTokens (k : List ℤ) : List ℤ := k.filter fun t => t ≠ -1

theorem keyTokens_key {w : List ℤ} (h : -1 ∉ w) : keyTokens (key w) = w := by
  unfold keyTokens key
  rw [List.filter_append, List.filter_eq_self.2, List.filter_eq_nil_iff.2, List.append_nil]
  · intro t ht
    simp [List.eq_of_mem_replicate ht]
  · intro t ht
    have hne : t ≠ -1 := fun he => h (he ▸ ht)
    simpa using hne

/-- A key of tokens other than `-1` belongs to one key size. -/
theorem tokensOf_pairsOf {tokens : List ℤ} (h : -1 ∉ tokens) (newCount : ℕ) {keySize : ℕ}
    {k : List ℤ} (hk : keySize ≠ (keyTokens k).length) :
    tokensOf k (pairsOf tokens newCount keySize) = [] := by
  unfold tokensOf
  rw [List.map_eq_nil_iff, List.filter_eq_nil_iff]
  intro p hp
  obtain ⟨i, hi, rfl⟩ := List.mem_map.1 hp
  obtain ⟨hle, hlt⟩ := mem_updatePositions hi
  have hw : -1 ∉ (tokens.drop (i - keySize)).take keySize := fun hm =>
    h (List.mem_of_mem_drop (List.mem_of_mem_take hm))
  have hlen : ((tokens.drop (i - keySize)).take keySize).length = keySize := by
    rw [List.length_take, List.length_drop]
    omega
  have hne : k ≠ key ((tokens.drop (i - keySize)).take keySize) := by
    rintro rfl
    exact hk (by rw [keyTokens_key hw, hlen])
  simpa [pairAt] using hne

theorem tokensOf_append (k : List ℤ) (ps qs : List (List ℤ × ℤ)) :
    tokensOf k (ps ++ qs) = tokensOf k ps ++ tokensOf k qs := by
  simp [tokensOf]

theorem tokensOf_flatMap (k : List ℤ) (l : List ℕ) (f : ℕ → List (List ℤ × ℤ)) :
    tokensOf k (l.flatMap f) = l.flatMap fun n => tokensOf k (f n) := by
  induction l with
  | nil => rfl
  | cons n l ih => rw [List.flatMap_cons, tokensOf_append, ih, List.flatMap_cons]

/-- Two lists of blocks, of which one block each is not empty, are joined block by block. -/
theorem flatMap_append_of_single {α : Type*} {l : List ℕ} (hl : l.Nodup) {f g : ℕ → List α} {m : ℕ}
    (hf : ∀ n ∈ l, n ≠ m → f n = []) (hg : ∀ n ∈ l, n ≠ m → g n = []) :
    (l.flatMap fun n => f n ++ g n) = l.flatMap f ++ l.flatMap g := by
  induction l with
  | nil => rfl
  | cons n l ih =>
    obtain ⟨hn, hl'⟩ := List.nodup_cons.1 hl
    have ih' := ih hl' (fun a ha => hf a (List.mem_cons_of_mem n ha))
      (fun a ha => hg a (List.mem_cons_of_mem n ha))
    rw [List.flatMap_cons, List.flatMap_cons, List.flatMap_cons, ih']
    by_cases h : n = m
    · have hrest : ∀ a ∈ l, f a = [] := by
        intro a ha
        exact hf a (List.mem_cons_of_mem n ha) fun he => hn (by rwa [h, ← he])
      rw [List.flatMap_eq_nil_iff.2 hrest]
      simp
    · rw [hf n List.mem_cons_self h, hg n List.mem_cons_self h]
      rfl

/-- **The tokens under a key in an extended history**, in order. -/
theorem tokensOf_pairs_append (keyMaxLen : ℕ) {tokens new : List ℤ} (h : -1 ∉ tokens ++ new)
    (k : List ℤ) :
    tokensOf k (pairs keyMaxLen (tokens ++ new) (tokens ++ new).length) =
      tokensOf k (pairs keyMaxLen tokens tokens.length) ++
        tokensOf k (pairs keyMaxLen (tokens ++ new) new.length) := by
  have hold : -1 ∉ tokens := fun hm => h (List.mem_append_left new hm)
  unfold pairs
  simp only [pairsOf_append, tokensOf_flatMap, tokensOf_append]
  have hne : ∀ n, n ≠ (keyTokens k).length - 1 → n + 1 ≠ (keyTokens k).length := by
    intro n hn
    omega
  refine @flatMap_append_of_single ℤ _ List.nodup_range _ _ ((keyTokens k).length - 1) ?_ ?_
  · intro n _ hn
    exact tokensOf_pairsOf hold _ (hne n hn)
  · intro n _ hn
    exact tokensOf_pairsOf h _ (hne n hn)

/-! ### Rounds -/

/-- The table of a generation and the history. -/
structure Table where
  data : Cache
  history : List ℤ

/-- How a round ends: the loop goes on, `draftVerify` meets a stop token, or the token after the
accepted drafts is one. -/
inductive Ending
  | more
  | stopped (token : ℤ)
  | last (token : ℤ)

/-- A round: the drafts that it accepts, and its end. -/
structure Round where
  accepted : List ℤ
  ending : Ending

/-- The tokens that a round appends to the history. -/
def Round.appended (r : Round) : List ℤ :=
  match r.ending with
  | .more => r.accepted
  | .stopped token => r.accepted ++ [token]
  | .last token => r.accepted ++ [token]

/-- The table of a prompt, made by `LookaheadGeneration::generate`. -/
def Table.start (rule : NgramSelectRule) (keyMaxLen : ℕ) (prompt : List ℤ) : Table where
  data := rule.emptyCache.update keyMaxLen prompt prompt.length
  history := prompt

/-- A round with `ngram_update` on: the update, unless the round was stopped, and then the
history. -/
def Table.round (keyMaxLen : ℕ) (s : Table) (r : Round) : Table where
  data :=
    match r.ending with
    | .stopped _ => s.data
    | _ => s.data.update keyMaxLen s.history r.accepted.length
  history := s.history ++ r.appended

/-- The table is the one that an update over the whole history makes. -/
def Table.Rebuilt (rule : NgramSelectRule) (keyMaxLen : ℕ) (s : Table) : Prop :=
  Same s.data (rule.emptyCache.update keyMaxLen s.history s.history.length)

/-- The pairs a round enters into the table. -/
def Table.entered (keyMaxLen : ℕ) (s : Table) (r : Round) : List (List ℤ × ℤ) :=
  match r.ending with
  | .stopped _ => []
  | _ => pairs keyMaxLen s.history r.accepted.length

/-- The condition on a round: it enters the pairs of the tokens that it appends, in any order for
counts, in one order under each key for lists, where no token is `-1`. -/
def Enters (rule : NgramSelectRule) (keyMaxLen : ℕ) (s : Table) (r : Round) : Prop :=
  let new := pairs keyMaxLen (s.history ++ r.appended) r.appended.length
  match rule with
  | .freqxLen => (s.entered keyMaxLen r).Perm new
  | .fcfs => -1 ∉ s.history ++ r.appended ∧
      ∀ k, tokensOf k (s.entered keyMaxLen r) = tokensOf k new

/-- The rounds that meet the condition. -/
def machine (rule : NgramSelectRule) (keyMaxLen : ℕ) : Machine Table Round where
  Allowed := Enters rule keyMaxLen
  step := Table.round keyMaxLen

theorem round_data (keyMaxLen : ℕ) (s : Table) (r : Round) :
    (s.round keyMaxLen r).data = s.data.addAll (s.entered keyMaxLen r) := by
  unfold Table.round Table.entered
  cases r.ending with
  | stopped token => rfl
  | more => exact update_eq_addAll ..
  | last token => exact update_eq_addAll ..

/-- **The step lemma.** -/
theorem Table.Rebuilt.round {rule : NgramSelectRule} {keyMaxLen : ℕ} {s : Table}
    (h : s.Rebuilt rule keyMaxLen) {r : Round} (hr : Enters rule keyMaxLen s r) :
    (s.round keyMaxLen r).Rebuilt rule keyMaxLen := by
  unfold Rebuilt at h ⊢
  rw [round_data]
  rw [update_eq_addAll] at h ⊢
  have hhist : (s.round keyMaxLen r).history = s.history ++ r.appended := rfl
  rw [hhist]
  cases rule with
  | freqxLen =>
    obtain ⟨old, hold, hcount⟩ := countOf_addAll (pairs keyMaxLen s.history s.history.length) []
    obtain ⟨new, hnew, hcount'⟩ := countOf_addAll
      (pairs keyMaxLen (s.history ++ r.appended) (s.history ++ r.appended).length) []
    have hrule : NgramSelectRule.freqxLen.emptyCache = .freqxLen [] := rfl
    rw [hrule, hold] at h
    rw [hrule, hnew]
    cases hdata : s.data with
    | fcfs data =>
      rw [hdata] at h
      exact h.elim
    | freqxLen data =>
      rw [hdata] at h
      obtain ⟨next, hnext, hcountn⟩ := countOf_addAll (s.entered keyMaxLen r) data
      rw [hnext]
      intro k t
      have hperm : (s.entered keyMaxLen r).Perm
        (pairs keyMaxLen (s.history ++ r.appended) r.appended.length) := hr
      rw [hcountn, hcount', h k t, hcount, (pairs_append ..).count_eq, List.count_append,
        hperm.count_eq, Nat.add_assoc]
  | fcfs =>
    obtain ⟨old, hold, hlist⟩ := listOf_addAll (pairs keyMaxLen s.history s.history.length) []
    obtain ⟨new, hnew, hlist'⟩ := listOf_addAll
      (pairs keyMaxLen (s.history ++ r.appended) (s.history ++ r.appended).length) []
    have hrule : NgramSelectRule.fcfs.emptyCache = .fcfs [] := rfl
    rw [hrule, hold] at h
    rw [hrule, hnew]
    cases hdata : s.data with
    | freqxLen data =>
      rw [hdata] at h
      exact h.elim
    | fcfs data =>
      rw [hdata] at h
      obtain ⟨next, hnext, hlistn⟩ := listOf_addAll (s.entered keyMaxLen r) data
      rw [hnext]
      intro k
      rw [hlistn, hlist', h k, hlist, tokensOf_pairs_append keyMaxLen hr.1, hr.2 k,
        List.append_assoc]

theorem start_rebuilt (rule : NgramSelectRule) (keyMaxLen : ℕ) (prompt : List ℤ) :
    (Table.start rule keyMaxLen prompt).Rebuilt rule keyMaxLen := by
  unfold Table.Rebuilt Table.start
  cases rule with
  | freqxLen =>
    have hrule : NgramSelectRule.freqxLen.emptyCache = .freqxLen [] := rfl
    obtain ⟨data, hdata, -⟩ := countOf_addAll (pairs keyMaxLen prompt prompt.length) []
    rw [update_eq_addAll, hrule, hdata]
    exact fun _ _ => rfl
  | fcfs =>
    have hrule : NgramSelectRule.fcfs.emptyCache = .fcfs [] := rfl
    obtain ⟨data, hdata, -⟩ := listOf_addAll (pairs keyMaxLen prompt prompt.length) []
    rw [update_eq_addAll, hrule, hdata]
    exact fun _ => rfl

/-- A round of the loop of `LookaheadGeneration::generate` that does not end it, on the table and on
the history. -/
theorem lookaheadLoop_round {α : Type*} [LinearOrder α] [Inhabited α] (M : CausalModel α)
    (allLogits : Bool) (isStop : ℤ → Bool) (cfg : LookaheadConfig) (maxToken fuel len : ℕ)
    (data : Cache) (s : Session α) (hupdate : cfg.updateNgram = true) (hlen : len < maxToken) :
    let drafts := s.drafts cfg data
    let fed := (s.updateContext 0 1).forwardVec M allLogits drafts
    ∀ i t, Session.draftVerify isStop fed.outputs drafts = (i, t, false) → isStop t = false →
      i ≤ drafts.length →
      let next := Table.round cfg.ngramKeyMaxLen ⟨data, s.historyTokens⟩ ⟨drafts.take i, .more⟩
      s.lookaheadLoop M allLogits isStop cfg maxToken (fuel + 1) len data =
        (fed.accept drafts i t).lookaheadLoop M allLogits isStop cfg maxToken fuel (len + i)
          next.data ∧
      (fed.accept drafts i t).historyTokens = next.history := by
  intro drafts fed i t hverify hstop hi next
  have htake : (drafts.take i).length = i := by
    rw [List.length_take]
    omega
  have hdata : next.data = data.update cfg.ngramKeyMaxLen s.historyTokens i := by
    show data.update cfg.ngramKeyMaxLen s.historyTokens (drafts.take i).length = _
    rw [htake]
  refine ⟨?_, rfl⟩
  rw [Session.lookaheadLoop, if_pos hlen]
  dsimp only
  rw [hverify]
  simp only [hstop, hupdate, hdata, Bool.not_false, Bool.and_self, Bool.or_self, if_true,
    Bool.false_eq_true, if_false]
  rfl

/-! ### The places of a key -/

/-- The places that the constructor of `ngram_key` writes in an update: the first `keySize` ones, at
each position. -/
def updateSlots (keyMaxLen tokenNum newCount : ℕ) : List ℕ :=
  (List.range keyMaxLen).flatMap fun k =>
    (updatePositions (k + 1) tokenNum newCount).flatMap fun _ => List.range (k + 1)

/-- The places that `ngram_cache_search` writes with `draftNum` drafts: the two loops go from
`ngram_start_idx`, or from 0 where that is negative, over `ngram_key_size` tokens. -/
def searchSlots (keyMaxLen tokenNum draftNum : ℕ) : List ℕ :=
  (List.range keyMaxLen).flatMap fun k =>
    let start : ℤ := tokenNum - (k + 1 : ℕ) + draftNum
    (List.range (k + 1)).filter fun j => 0 ≤ start + j

theorem updateSlots_lt {keyMaxLen tokenNum newCount slot : ℕ}
    (h : slot ∈ updateSlots keyMaxLen tokenNum newCount) : slot < keyMaxLen := by
  obtain ⟨k, hk, hslot⟩ := List.mem_flatMap.1 h
  obtain ⟨-, -, hslot⟩ := List.mem_flatMap.1 hslot
  have hk' := List.mem_range.1 hk
  have hslot' := List.mem_range.1 hslot
  omega

theorem searchSlots_lt {keyMaxLen tokenNum draftNum slot : ℕ}
    (h : slot ∈ searchSlots keyMaxLen tokenNum draftNum) : slot < keyMaxLen := by
  obtain ⟨k, hk, hslot⟩ := List.mem_flatMap.1 h
  have hk' := List.mem_range.1 hk
  have hslot' := List.mem_range.1 (List.mem_of_mem_filter hslot)
  omega

/-- **In every run whose rounds meet the condition, with keys of at most 8 tokens, the table after
each round is the one that an update over the whole history makes, and no key is written outside its
places.** -/
theorem table_rebuilt (rule : NgramSelectRule) (keyMaxLen : ℕ) (hkey : keyMaxLen ≤ keyMax)
    (prompt : List ℤ) (rounds : List Round) (t : Table)
    (h : Run (machine rule keyMaxLen) (.start rule keyMaxLen prompt) rounds t) :
    t.Rebuilt rule keyMaxLen ∧
      (∀ newCount, ∀ slot ∈ updateSlots keyMaxLen t.history.length newCount, slot < keyMax) ∧
      ∀ draftNum, ∀ slot ∈ searchSlots keyMaxLen t.history.length draftNum, slot < keyMax := by
  refine ⟨?_, fun n slot hs => ?_, fun n slot hs => ?_⟩
  · exact h.invariant (fun s r hs hr => hs.round hr) (start_rebuilt rule keyMaxLen prompt)
  · exact (updateSlots_lt hs).trans_le hkey
  · exact (searchSlots_lt hs).trans_le hkey

/-- A prompt of one token repeated, and a round that accepts it again. -/
theorem table_rebuilt_repeat :
    ∃ t, Run (machine .freqxLen 2) (.start .freqxLen 2 [7, 7, 7, 7]) [⟨[7], .more⟩] t ∧
      t.Rebuilt .freqxLen 2 := by
  have hallowed : Enters .freqxLen 2 (.start .freqxLen 2 [7, 7, 7, 7]) ⟨[7], .more⟩ := by
    show List.Perm _ _
    decide
  have hrun : Run (machine .freqxLen 2) (.start .freqxLen 2 [7, 7, 7, 7]) [⟨[7], .more⟩] _ :=
    .cons hallowed (.nil _)
  exact ⟨_, hrun, (table_rebuilt .freqxLen 2 (by decide) _ _ _ hrun).1⟩

/-- The prompt 1, 2 and a round that accepts 3: the pair of 1 and 2 is counted again, the pair of 2
and 3 is not. -/
theorem accepted_tokens_missed :
    ¬ ∀ (rule : NgramSelectRule) (keyMaxLen : ℕ) (prompt : List ℤ) (rounds : List Round),
      (rounds.foldl (Table.round keyMaxLen) (.start rule keyMaxLen prompt)).Rebuilt rule
        keyMaxLen := by
  intro h
  have hsame := h .freqxLen 1 [1, 2] [⟨[3], .more⟩]
  exact absurd (hsame (key [2]) 3) (by decide)

end Mnn.Ngram
