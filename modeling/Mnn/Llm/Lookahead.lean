import Mnn.Llm.Generation
import Mnn.Llm.Ngram

/-!
# Lookahead decoding

`LookaheadGeneration::generate`
(`transformers/llm/engine/src/speculative_decoding/lookahead.cpp`): each round searches drafts in
the n-gram table, feeds the current token and the drafts in one forward, keeps the drafts that the
model itself would have chosen, marks the entries of the others for removal, and carries the token
chosen after them over to the next round.

* `LookaheadConfig`, `lookaheadFrom`, `lookaheadGenerate`: the loop over a given table, and with the
  table the sources build from the history and the lookup file;
* `Follows`: what the sessions before and after a generation have in common in both strategies;
* `conversation`: the states that turns of either strategy lead to;
* `lookahead_agrees_ar`: the two strategies append the same answer.

A negative token limit is replaced by `Llm::generate`, so the limit is a natural number.
-/

namespace Mnn

open Ngram (MatchStrictLevel)

/-- `NgramSelectRule`. -/
inductive NgramSelectRule
  | freqxLen
  | fcfs
  deriving DecidableEq

/-- The members of `LookaheadGeneration`, the draft length and the tokenizer of its `Llm`, and the
iteration order of the hash maps. -/
structure LookaheadConfig where
  ngramKeyMaxLen : ℕ
  ngramKeyMaxLen_le : ngramKeyMaxLen ≤ Ngram.keyMax
  strictLevel : MatchStrictLevel
  selectRule : NgramSelectRule
  updateNgram : Bool
  draftLength : ℕ
  tokenizerDecode : ℤ → String
  order : List (ℤ × ℕ) → List (ℤ × ℕ)

/-- Texts after which a match is confusing. -/
def confuse (decodeStr : String) : Bool :=
  decodeStr ∈ [",", ".", ":", "、", ";", "，", "。", "：", "；"]

/-- An empty table of the rule. -/
def NgramSelectRule.emptyCache : NgramSelectRule → Ngram.Cache
  | .freqxLen => .freqxLen []
  | .fcfs => .fcfs []

/-- The tokens up to the first stop token, which is the last one kept. -/
def upToStop (isStop : ℤ → Bool) : List ℤ → List ℤ
  | [] => []
  | t :: l => if isStop t then [t] else t :: upToStop isStop l

/-- What follows a stop token does not matter. -/
theorem upToStop_append {isStop : ℤ → Bool} {l : List ℤ} (h : ∃ u ∈ l, isStop u = true)
    (l' : List ℤ) : upToStop isStop (l ++ l') = upToStop isStop l := by
  induction l with
  | nil => obtain ⟨u, hu, -⟩ := h; exact absurd hu List.not_mem_nil
  | cons t l ih =>
    rw [List.cons_append, upToStop, upToStop]
    split_ifs with hstop
    · rfl
    · obtain ⟨u, hu, hustop⟩ := h
      rcases List.mem_cons.1 hu with rfl | hu
      · exact absurd hustop hstop
      · rw [ih ⟨u, hu, hustop⟩]

namespace Session

variable {α : Type*}

theorem live_eq {s : Session α} (h : s.kvMeta.remove = 0) : s.live = s.cache := by
  rw [live, h, Nat.sub_zero, List.take_length]

variable [LinearOrder α] [Inhabited α]
variable (M : CausalModel α) (allLogits : Bool) (isStop : ℤ → Bool)

section Loop

variable (cfg : LookaheadConfig) (maxToken : ℕ)

/-- The drafts of a round: the current token and what the table proposes after it. -/
def drafts (data : Ngram.Cache) (s : Session α) : List ℤ :=
  let level := if confuse (cfg.tokenizerDecode s.currentToken) then .high else cfg.strictLevel
  Ngram.search cfg.order data cfg.ngramKeyMaxLen s.historyTokens s.currentToken
    (cfg.draftLength + 1) level

/-- The rest of a round after `draftVerify` accepted `i` of the drafts and chose `t`. -/
def accept (s : Session α) (drafts : List ℤ) (i : ℕ) (t : ℤ) : Session α :=
  ((({ s with currentToken := t }).setRemove (drafts.length - i)).updateContext i
    (i - 1)).pushTokens (drafts.take i)

/-- The loop of `LookaheadGeneration::generate` with `len` tokens accepted so far.  Each round
accepts a token, so `maxToken` rounds of fuel are enough. -/
def lookaheadLoop : ℕ → ℕ → Ngram.Cache → Session α → Session α
  | 0, _, _, s => s
  | fuel + 1, len, data, s =>
    if len < maxToken then
      let drafts := s.drafts cfg data
      let s := (s.updateContext 0 1).forwardVec M allLogits drafts
      let (i, t, stop) := draftVerify isStop s.outputs drafts
      let data := if !stop && cfg.updateNgram
        then data.update cfg.ngramKeyMaxLen s.historyTokens i else data
      let s := s.accept drafts i t
      if stop || isStop t then (s.pushTokens [t]).updateContext 0 1
      else lookaheadLoop fuel (len + i) data s
    else s

/-- `LookaheadGeneration::generate` from a given table. -/
def lookaheadFrom (data : Ngram.Cache) (s : Session α) : Session α :=
  let s := if s.currentToken = -1 then { s with currentToken := sample s.outputs 0 0 } else s
  lookaheadLoop M allLogits isStop cfg maxToken maxToken 0 data s

/-- `LookaheadGeneration::generate`: the table is made from the history and from the tokens of the
lookup file, which are none when there is no such file. -/
def lookaheadGenerate (userIds : List ℤ) (s : Session α) : Session α :=
  let data := cfg.selectRule.emptyCache.update cfg.ngramKeyMaxLen s.historyTokens
    s.historyTokens.length
  lookaheadFrom M allLogits isStop cfg maxToken
    (data.update cfg.ngramKeyMaxLen userIds userIds.length) s

end Loop

/-! ### What a generation does -/

/-- From `s`, whose next token is `t`, a generation led to `r`: it fed the tokens `fed`, whose
entries alone stay in the cache, and appended them and `tail`, which is empty or one stop token.
All are the greedy continuation. -/
structure Follows (s : Session α) (t : ℤ) (r : Session α) (fed tail : List ℤ) : Prop where
  consistent : r.Consistent
  live : r.live = s.live ++ fed
  outputTokens : r.outputTokens = s.outputTokens ++ fed ++ tail
  allSeqLen : r.allSeqLen = s.allSeqLen + fed.length
  greedy : fed ++ tail = M.greedy s.live t (fed ++ tail).length
  tail : tail = [] ∨ ∃ u, isStop u = true ∧ tail = [u]

variable {M isStop}

/-- A generation that ends where it began. -/
theorem Follows.refl {s : Session α} (h : s.Consistent) (t : ℤ) : Follows M isStop s t s [] [] :=
  ⟨h, by rw [List.append_nil], by simp, rfl, rfl, .inl rfl⟩

/-- A generation that appends a stop token without feeding it. -/
theorem Follows.stop {s : Session α} (h : s.Consistent) {t : ℤ} (ht : isStop t = true)
    (current : ℤ) :
    Follows M isStop s t
      ((({ s with currentToken := current }).pushTokens [t]).updateContext 0 1) [] [t] :=
  ⟨⟨h.previous, h.reserve⟩, (List.append_nil _).symm, by rw [List.append_nil]; rfl, rfl, rfl,
    .inr ⟨t, ht, rfl⟩⟩

/-- After the first tokens `fed`, the generation goes on from the state they lead to. -/
theorem Follows.cons {s r₁ r : Session α} {t t₁ : ℤ} {fed₁ fed tail : List ℤ}
    (h₁ : Follows M isStop s t r₁ fed₁ []) (hne : fed₁ ≠ []) (hnext : t₁ = M.next r₁.live)
    (h : Follows M isStop r₁ t₁ r fed tail) :
    Follows M isStop s t r (fed₁ ++ fed) tail where
  consistent := h.consistent
  live := by rw [h.live, h₁.live, List.append_assoc]
  outputTokens := by
    rw [h.outputTokens, h₁.outputTokens]
    simp only [List.append_nil, List.append_assoc]
  allSeqLen := by rw [h.allSeqLen, h₁.allSeqLen, List.length_append, Nat.add_assoc]
  greedy := by
    obtain ⟨m, hm⟩ : ∃ m, fed₁.length = m + 1 :=
      Nat.exists_eq_succ_of_ne_zero (mt List.length_eq_zero_iff.1 hne)
    have hfed₁ : fed₁ = M.greedy s.live t (m + 1) := by simpa [hm] using h₁.greedy
    have hrest := h.greedy
    rw [hnext, h₁.live] at hrest
    rw [List.append_assoc, List.length_append, hm, M.greedy_add, ← hfed₁, ← hrest]
  tail := h.tail

/-- The answer is decided by the greedy sequence, once enough of it is there. -/
theorem Follows.upToStop_take {s r : Session α} {t : ℤ} {fed tail : List ℤ}
    (h : Follows M isStop s t r fed tail) {n : ℕ} (hn : n ≤ fed.length ∨ tail ≠ []) :
    upToStop isStop ((fed ++ tail).take n) = upToStop isStop (M.greedy s.live t n) := by
  rcases Nat.lt_or_ge (fed ++ tail).length n with hlt | hge
  · have hne : tail ≠ [] := by
      rintro rfl
      rw [List.append_nil] at hlt
      exact hn.elim (fun hle => absurd hlt (by omega)) (fun hne => hne rfl)
    obtain ⟨u, hu, rfl⟩ := h.tail.resolve_left hne
    have hmem : ∃ v ∈ fed ++ [u], isStop v = true := ⟨u, by simp, hu⟩
    obtain ⟨rest, hrest⟩ := M.greedy_prefix s.live t hlt.le
    rw [← h.greedy] at hrest
    rw [List.take_of_length_le hlt.le, ← hrest, upToStop_append hmem rest]
  · have hcut := List.prefix_iff_eq_take.1 (M.greedy_prefix s.live t hge)
    rw [M.length_greedy] at hcut
    rw [hcut, ← h.greedy]

/-! ### Autoregressive generation -/

variable (isStop)

/-- One token, and the forward that feeds it. -/
theorem follows_ar_step {s : Session α} (h : s.Consistent) (hremove : s.kvMeta.remove = 0) (t : ℤ) :
    let r := (((({ s.pushTokens [t] with currentToken := t }).updateContext 0 1).setRemove
      0).forwardVec M allLogits [t]).updateContext 1 0
    Follows M isStop s t r [t] [] ∧ r.kvMeta.remove = 0 ∧ sample r.outputs 0 0 = M.next r.live := by
  intro r
  set s₁ : Session α :=
    (({ s.pushTokens [t] with currentToken := t }).updateContext 0 1).setRemove 0 with hs₁
  have h₁ : s₁.Consistent := ⟨h.previous, h.reserve⟩
  have hlive₁ : s₁.live = s.live := by rw [live_eq hremove]; exact live_eq rfl
  have hlive : r.live = s.live ++ [t] := by
    have hremove' : r.kvMeta.remove = 0 := rfl
    rw [live_eq hremove', ← hlive₁]
    exact forwardVec_cache M h₁ allLogits [t]
  have hout : r.outputs = M.logits false s.live [t] := by
    rw [← hlive₁]
    exact forwardVec_outputs M h₁ allLogits [t] (Nat.succ_pos _)
  have hconsistent := forwardVec_consistent M h₁ allLogits [t]
  exact ⟨⟨⟨hconsistent.previous, rfl⟩, hlive, (List.append_nil _).symm, rfl, rfl, .inl rfl⟩, rfl,
    by rw [hout, M.sample_last, hlive]⟩

/-- Autoregressive generation of `n` tokens follows the model's own choice after the prefill. -/
theorem arGenerate_follows {s : Session α} (h : s.Consistent) (hremove : s.kvMeta.remove = 0)
    (n : ℕ) :
    ∃ fed tail, Follows M isStop s (sample s.outputs 0 0) (s.arGenerate M allLogits isStop n)
      fed tail ∧ (n ≤ fed.length ∨ tail ≠ []) := by
  induction n generalizing s with
  | zero => exact ⟨[], [], .refl h _, .inl le_rfl⟩
  | succ n ih =>
    rw [arGenerate]
    split_ifs with hstop
    · exact ⟨[], [sample s.outputs 0 0], .stop h hstop _, .inr (List.cons_ne_nil _ _)⟩
    · obtain ⟨h₁, hremove₁, hnext⟩ :=
        follows_ar_step allLogits isStop h hremove (sample s.outputs 0 0)
      obtain ⟨fed, tail, hfollows, hn⟩ := ih h₁.consistent hremove₁
      exact ⟨_, tail, h₁.cons (List.cons_ne_nil _ _) hnext hfollows,
        hn.imp (fun hle => by simpa using hle) id⟩

/-! ### The lookahead loop -/

variable (cfg : LookaheadConfig) (maxToken : ℕ)

omit [LinearOrder α] [Inhabited α] in
theorem drafts_eq (data : Ngram.Cache) (s : Session α) :
    ∃ new, s.drafts cfg data = s.currentToken :: new := by
  obtain ⟨new, hnew, -⟩ := Ngram.search_eq cfg.order data cfg.ngramKeyMaxLen s.historyTokens
    s.currentToken (cfg.draftLength + 1)
    (if confuse (cfg.tokenizerDecode s.currentToken) then .high else cfg.strictLevel)
  exact ⟨new, hnew⟩

/-- One round: the accepted drafts are fed, the others are marked for removal. -/
theorem follows_round {s : Session α} (h : s.Consistent) (new : List ℤ) {i : ℕ} {t : ℤ}
    {stop : Bool} {r : Session α}
    (hr : r = (s.updateContext 0 1).forwardVec M allLogits (s.currentToken :: new))
    (hverify : draftVerify isStop r.outputs (s.currentToken :: new) = (i, t, stop)) :
    Follows M isStop s s.currentToken (r.accept (s.currentToken :: new) i t)
        ((s.currentToken :: new).take i) [] ∧
      1 ≤ i ∧ ((s.currentToken :: new).take i).length = i ∧
      t = M.next (r.accept (s.currentToken :: new) i t).live ∧ (stop = true → isStop t = true) := by
  set drafts := s.currentToken :: new with hdrafts
  have h₁ : (s.updateContext 0 1).Consistent := ⟨h.previous, h.reserve⟩
  have hout : r.outputs = M.logits (decide (drafts.length ≠ 1)) s.live drafts := by
    rw [hr]
    exact forwardVec_outputs M h₁ allLogits drafts (Nat.succ_pos _)
  have hcache : r.cache = s.live ++ drafts := by
    rw [hr]
    exact forwardVec_cache M h₁ allLogits drafts
  have hconsistent : r.Consistent := by
    rw [hr]
    exact forwardVec_consistent M h₁ allLogits drafts
  rw [hout] at hverify
  obtain ⟨hi, hle, hgreedy, hnext, hstop⟩ := draftVerify_spec M isStop s.live _ new hverify
  have hlen : (drafts.take i).length = i := List.length_take_of_le hle
  have hlive : (r.accept drafts i t).live = s.live ++ drafts.take i := by
    have htake : (s.live ++ drafts).length - (drafts.length - i) = s.live.length + i := by
      have : i ≤ drafts.length := hle
      rw [List.length_append]
      omega
    calc (r.accept drafts i t).live = r.cache.take (r.cache.length - (drafts.length - i)) := rfl
      _ = s.live ++ drafts.take i := by rw [hcache, htake, List.take_length_add_append]
  refine ⟨⟨⟨hconsistent.previous, hconsistent.reserve⟩, hlive, ?_, ?_, ?_, .inl rfl⟩, hi, hlen,
    ?_, hstop⟩
  · rw [hr, List.append_nil]
    rfl
  · rw [hr, hlen]
    rfl
  · rw [List.append_nil, hlen]
    exact hgreedy
  · rw [hlive, hgreedy]
    exact hnext

/-- The loop follows the carried token, and has enough fuel to reach the limit or a stop token. -/
theorem lookaheadLoop_follows (fuel len : ℕ) (data : Ngram.Cache) {s : Session α}
    (h : s.Consistent) (hfuel : maxToken ≤ len + fuel) :
    ∃ fed tail, Follows M isStop s s.currentToken
      (lookaheadLoop M allLogits isStop cfg maxToken fuel len data s) fed tail ∧
      (maxToken ≤ len + fed.length ∨ tail ≠ []) := by
  induction fuel generalizing len data s with
  | zero => exact ⟨[], [], .refl h _, .inl hfuel⟩
  | succ fuel ih =>
    rw [lookaheadLoop]
    split_ifs with hlen
    · obtain ⟨new, hnew⟩ := drafts_eq cfg data s
      rw [hnew]
      simp only
      generalize hr : (s.updateContext 0 1).forwardVec M allLogits (s.currentToken :: new) = r
      rcases hverify : draftVerify isStop r.outputs (s.currentToken :: new) with ⟨i, t, stop⟩
      obtain ⟨hround, hi, hfed, hnext, hstop⟩ := follows_round allLogits isStop h new hr.symm hverify
      have hne : (s.currentToken :: new).take i ≠ [] := List.ne_nil_of_length_pos (by omega)
      simp only
      generalize (if (!stop && cfg.updateNgram) = true then _ else data) = data'
      split_ifs with hend
      · have ht : isStop t = true := by
          rcases Bool.or_eq_true_iff.1 hend with hs | ht
          exacts [hstop hs, ht]
        exact ⟨_, _, hround.cons hne hnext (.stop hround.consistent ht _),
          .inr (List.cons_ne_nil _ _)⟩
      · obtain ⟨fed, tail, hrest, hn⟩ := ih (len + i) data' hround.consistent (by omega)
        refine ⟨_, tail, hround.cons hne hnext hrest, hn.imp (fun hle => ?_) id⟩
        rw [List.length_append, hfed]
        omega
    · exact ⟨[], [], .refl h _, .inl (by omega)⟩

/-- From a prefill, lookahead decoding follows the token sampled from the prefill's output. -/
theorem lookaheadFrom_follows (data : Ngram.Cache) {s : Session α} (h : s.Consistent)
    (hcurrent : s.currentToken = -1) :
    ∃ fed tail, Follows M isStop s (sample s.outputs 0 0)
      (lookaheadFrom M allLogits isStop cfg maxToken data s) fed tail ∧
      (maxToken ≤ fed.length ∨ tail ≠ []) := by
  obtain ⟨fed, tail, hfollows, hn⟩ := lookaheadLoop_follows allLogits isStop cfg
    maxToken maxToken 0 data (s := { s with currentToken := sample s.outputs 0 0 })
    ⟨h.previous, h.reserve⟩ (Nat.zero_add _).ge
  rw [lookaheadFrom, if_pos hcurrent]
  exact ⟨fed, tail, ⟨hfollows.consistent, hfollows.live, hfollows.outputTokens,
    hfollows.allSeqLen, hfollows.greedy, hfollows.tail⟩, by rwa [Nat.zero_add] at hn⟩

/-! ### Conversations -/

variable (M)

/-- `Llm::generate_init`. -/
def generateInit (reuseKv : Bool) (s : Session α) : Session α :=
  let s := { s with genSeqLen := 0, currentToken := -1, outputTokens := [] }
  if reuseKv then s
  else { s.setRemove s.kvMeta.previous with allSeqLen := 0, historyTokens := [] }

/-- The prefill of `Llm::generate` on a list of tokens. -/
def prefill (s : Session α) (prompt : List ℤ) : Session α :=
  ({ s with historyTokens := s.historyTokens ++ prompt }.forwardVec M allLogits prompt).updateContext
    prompt.length 0

/-- The strategies a turn may be answered with. -/
inductive Strategy
  | ar
  | lookahead (cfg : LookaheadConfig) (userIds : List ℤ)

/-- One `response`: its prompt, token limit and strategy, and the setting `reuse_kv`. -/
structure Turn where
  reuseKv : Bool
  prompt : List ℤ
  maxToken : ℕ
  strategy : Strategy

/-- The state in which a turn's generation starts. -/
def Turn.start (turn : Turn) (s : Session α) : Session α :=
  (s.generateInit turn.reuseKv).prefill M allLogits turn.prompt

def Turn.respond (turn : Turn) (s : Session α) : Session α :=
  match turn.strategy with
  | .ar => (turn.start M allLogits s).arGenerate M allLogits isStop turn.maxToken
  | .lookahead cfg userIds =>
    lookaheadGenerate M allLogits isStop cfg turn.maxToken userIds (turn.start M allLogits s)

/-- The session after some turns. -/
def conversation (turns : List Turn) : Session α :=
  turns.foldl (fun s turn => turn.respond M allLogits isStop s) { outputs := ⟨0, []⟩ }

/-- What a prefill leaves: a consistent cache, nothing to remove and no token carried over. -/
structure Prefilled (s : Session α) : Prop extends s.Consistent where
  remove : s.kvMeta.remove = 0
  currentToken : s.currentToken = -1
  outputTokens : s.outputTokens = []

omit [LinearOrder α] [Inhabited α] in
theorem Turn.start_prefilled (turn : Turn) {s : Session α} (h : s.Consistent) :
    (turn.start M allLogits s).Prefilled := by
  have hinit : (s.generateInit turn.reuseKv).Consistent ∧
      (s.generateInit turn.reuseKv).currentToken = -1 ∧
      (s.generateInit turn.reuseKv).outputTokens = [] := by
    rw [generateInit]
    split_ifs
    exacts [⟨⟨h.previous, h.reserve⟩, rfl, rfl⟩, ⟨⟨h.previous, h.reserve⟩, rfl, rfl⟩]
  obtain ⟨hconsistent, hcurrent, houtput⟩ := hinit
  have hforward := forwardVec_consistent M (s := { s.generateInit turn.reuseKv with
    historyTokens := (s.generateInit turn.reuseKv).historyTokens ++ turn.prompt })
    ⟨hconsistent.previous, hconsistent.reserve⟩ allLogits turn.prompt
  exact ⟨⟨hforward.previous, hforward.reserve⟩, rfl, hcurrent, houtput⟩

theorem Turn.respond_consistent (turn : Turn) {s : Session α} (h : s.Consistent) :
    (turn.respond M allLogits isStop s).Consistent := by
  have hstart := turn.start_prefilled M allLogits h
  rw [Turn.respond]
  split
  · obtain ⟨_, _, hfollows, -⟩ := arGenerate_follows allLogits isStop
      hstart.toConsistent hstart.remove turn.maxToken
    exact hfollows.consistent
  · obtain ⟨_, _, hfollows, -⟩ := lookaheadFrom_follows allLogits isStop _ turn.maxToken _
      hstart.toConsistent hstart.currentToken
    exact hfollows.consistent

theorem conversation_consistent (turns : List Turn) :
    (conversation M allLogits isStop turns).Consistent := by
  have key : ∀ (l : List Turn) (s : Session α), s.Consistent →
      (l.foldl (fun s turn => turn.respond M allLogits isStop s) s).Consistent := by
    intro l
    induction l with
    | nil => exact fun s h => h
    | cons turn l ih => exact fun s h => ih _ (turn.respond_consistent M allLogits isStop h)
  exact key turns _ ⟨rfl, rfl⟩

/-- After a generation from `s` to `r`, the output is some tokens that were fed, followed by nothing
or by one stop token, and whatever is fed next is cached behind exactly the entries of `s` and of
those tokens, as many as the host counts. -/
def HoldsFed (s r : Session α) : Prop :=
  ∃ fed tail, r.outputTokens = s.outputTokens ++ fed ++ tail ∧
    (tail = [] ∨ ∃ u, isStop u = true ∧ tail = [u]) ∧
    r.allSeqLen = s.allSeqLen + fed.length ∧
    ∀ tokens, (r.forwardVec M allLogits tokens).cache = s.cache ++ fed ++ tokens ∧
      (r.forwardVec M allLogits tokens).kvMeta.previous = (s.cache ++ fed ++ tokens).length

variable {M isStop} in
theorem Follows.holdsFed {s r : Session α} {t : ℤ} {fed tail : List ℤ}
    (h : Follows M isStop s t r fed tail) (hremove : s.kvMeta.remove = 0) :
    HoldsFed M allLogits isStop s r := by
  refine ⟨fed, tail, h.outputTokens, h.tail, h.allSeqLen, fun tokens => ?_⟩
  have hcache : (r.forwardVec M allLogits tokens).cache = s.cache ++ fed ++ tokens := by
    rw [forwardVec_cache M h.consistent, h.live, live_eq hremove]
  exact ⟨hcache, by rw [(forwardVec_consistent M h.consistent allLogits tokens).previous, hcache]⟩

/-- **Lookahead decoding gives the answer of autoregressive decoding.**  After any turns and the
prefill of the next one, for every content of the table (in particular the one the sources build),
the two outputs agree up to the token limit and the first stop token, and both caches hold what was
fed and accepted. -/
theorem lookahead_agrees_ar (turns : List Turn) (turn : Turn) (cfg : LookaheadConfig) :
    let s := turn.start M allLogits (conversation M allLogits isStop turns)
    let a := s.arGenerate M allLogits isStop turn.maxToken
    HoldsFed M allLogits isStop s a ∧
      (∀ data, let l := lookaheadFrom M allLogits isStop cfg turn.maxToken data s
        upToStop isStop (l.outputTokens.take turn.maxToken) =
            upToStop isStop (a.outputTokens.take turn.maxToken) ∧
          HoldsFed M allLogits isStop s l) ∧
      ∀ userIds, let l := lookaheadGenerate M allLogits isStop cfg turn.maxToken userIds s
        upToStop isStop (l.outputTokens.take turn.maxToken) =
            upToStop isStop (a.outputTokens.take turn.maxToken) ∧
          HoldsFed M allLogits isStop s l := by
  intro s a
  have h : s.Prefilled :=
    turn.start_prefilled M allLogits (conversation_consistent M allLogits isStop turns)
  obtain ⟨fed, tail, hfollows, hn⟩ :=
    arGenerate_follows allLogits isStop h.toConsistent h.remove turn.maxToken
  have key : ∀ data, let l := lookaheadFrom M allLogits isStop cfg turn.maxToken data s
      upToStop isStop (l.outputTokens.take turn.maxToken) =
          upToStop isStop (a.outputTokens.take turn.maxToken) ∧
        HoldsFed M allLogits isStop s l := by
    intro data l
    obtain ⟨fed', tail', hfollows', hn'⟩ := lookaheadFrom_follows allLogits isStop cfg
      turn.maxToken data h.toConsistent h.currentToken
    refine ⟨?_, hfollows'.holdsFed allLogits h.remove⟩
    rw [hfollows'.outputTokens, hfollows.outputTokens, h.outputTokens, List.nil_append,
      List.nil_append, hfollows'.upToStop_take hn', hfollows.upToStop_take hn]
  exact ⟨hfollows.holdsFed allLogits h.remove, key, fun userIds => key _⟩

end Session
end Mnn
