import Mnn.Core.KVMeta
import Mnn.Lib.Loops

/-!
# Sessions, greedy sampling and the generation strategies' common part

The state on which `ArGeneration::generate` and `LookaheadGeneration::generate` work
(`transformers/llm/engine/src/speculative_decoding/generate.cpp`, `llm.cpp`), over a causal model:
the logits at a position are a function of the tokens up to it.

* `CausalModel`, `Logits`, `argmaxSelect`, `sample`: the model's rows of scores, and the greedy
  choice from them with the offset convention of `Llm::sample`;
* `Session`, `forwardVec`, `updateContext`: the language model's state.  The cache is the list of
  the tokens whose keys and values it holds;
* `arGenerate`, `draftVerify`;
* `greedy`: the reference sequence, each token being the model's choice after all before it.

The model belongs to a speculative set-up (`mInSpec`), as the factory creates the lookahead strategy
in no other.
-/

namespace Mnn

variable {α : Type*}

/-- A model whose scores at a position depend only on the tokens up to it. -/
structure CausalModel (α : Type*) where
  size : ℕ
  size_pos : 0 < size
  row : List ℤ → List α
  row_length : ∀ context, (row context).length = size

/-- A tensor of scores: the length of its last dimension and its elements. -/
structure Logits (α : Type*) where
  lastDim : ℕ
  data : List α

/-! ### The model's output -/

namespace CausalModel

variable (M : CausalModel α)

/-- The rows for `tokens` fed after the tokens of `cache`. -/
def rows (cache tokens : List ℤ) : List (List α) :=
  (List.range tokens.length).map fun i => M.row (cache ++ tokens.take (i + 1))

/-- The output of a forward: all rows, or the last one. -/
def logits (all : Bool) (cache tokens : List ℤ) : Logits α where
  lastDim := M.size
  data := if all then (M.rows cache tokens).flatten else M.row (cache ++ tokens)

theorem rows_length (cache tokens : List ℤ) : (M.rows cache tokens).length = tokens.length := by
  simp [rows]

theorem flatten_length (cache tokens : List ℤ) :
    (M.rows cache tokens).flatten.length = tokens.length * M.size := by
  rw [List.length_flatten]
  have hrow : ∀ n ∈ (M.rows cache tokens).map List.length, n = M.size := by
    simp only [rows, List.map_map, List.mem_map, Function.comp_apply, M.row_length]
    rintro n ⟨-, -, rfl⟩
    rfl
  rw [List.eq_replicate_of_mem hrow, List.sum_replicate, smul_eq_mul, List.length_map,
    M.rows_length]

end CausalModel

/-! ### Sessions -/

/-- The cache after `CPUAttention::onExecute`, as the tokens whose entries it holds. -/
def attentionCache (m : KVMeta) (cache tokens : List ℤ) : List ℤ :=
  if m.previous = m.remove then tokens
  else
    let start := cache.length - m.remove
    cache.take start ++ m.reserve.flatMap (fun r => (cache.drop (start + r.1)).take r.2) ++ tokens

/-- The state a generation strategy works on. -/
structure Session (α : Type*) where
  kvMeta : KVMeta := {}
  cache : List ℤ := []
  genSeqLen : ℕ := 0
  allSeqLen : ℕ := 0
  currentToken : ℤ := -1
  historyTokens : List ℤ := []
  outputTokens : List ℤ := []
  outputs : Logits α

namespace Session

variable (M : CausalModel α)

/-- `Llm::updateContext`. -/
def updateContext (s : Session α) (seqLen genLen : ℕ) : Session α :=
  { s with allSeqLen := s.allSeqLen + seqLen, genSeqLen := s.genSeqLen + genLen }

/-- `mMeta->remove = n`. -/
def setRemove (s : Session α) (n : ℕ) : Session α :=
  { s with kvMeta := { s.kvMeta with remove := n } }

/-- Appending to `history_tokens` and `output_tokens`. -/
def pushTokens (s : Session α) (tokens : List ℤ) : Session α :=
  { s with historyTokens := s.historyTokens ++ tokens, outputTokens := s.outputTokens ++ tokens }

/-- `Llm::forwardVec`: `allLogits` is the setting of that name; a decoding forward of more than one
token returns all rows. -/
def forwardVec (allLogits : Bool) (s : Session α) (tokens : List ℤ) : Session α :=
  let m := { s.kvMeta with add := tokens.length }
  let inDecode : Bool := decide (s.genSeqLen > 0)
  let isAllLogits := if inDecode && decide (tokens.length = 1) then false else allLogits || inDecode
  let kept := attentionCache m s.cache []
  { s with
    kvMeta := m.sync
    cache := attentionCache m s.cache tokens
    outputs := M.logits isAllLogits kept tokens }

/-- The entries of the cache that the next forward keeps. -/
def live (s : Session α) : List ℤ := s.cache.take (s.cache.length - s.kvMeta.remove)

/-- The host's length is the cache's, and no reserved range is pending. -/
structure Consistent (s : Session α) : Prop where
  previous : s.kvMeta.previous = s.cache.length
  reserve : s.kvMeta.reserve = []

theorem Consistent.attentionCache {s : Session α} (h : s.Consistent) (n : ℕ) (tokens : List ℤ) :
    attentionCache { s.kvMeta with add := n } s.cache tokens = s.live ++ tokens := by
  simp only [Mnn.attentionCache, h.reserve, List.flatMap_nil, List.append_nil, h.previous, live]
  split_ifs with hall
  · rw [← hall, Nat.sub_self, List.take_zero, List.nil_append]
  · rfl

/-- A forward drops what was marked and appends its tokens. -/
theorem forwardVec_cache {s : Session α} (h : s.Consistent) (allLogits : Bool)
    (tokens : List ℤ) : (s.forwardVec M allLogits tokens).cache = s.live ++ tokens :=
  h.attentionCache _ tokens

theorem forwardVec_outputs {s : Session α} (h : s.Consistent) (allLogits : Bool)
    (tokens : List ℤ) (hgen : 0 < s.genSeqLen) :
    (s.forwardVec M allLogits tokens).outputs =
      M.logits (decide (tokens.length ≠ 1)) s.live tokens := by
  have hkept := h.attentionCache tokens.length []
  simp only [List.append_nil] at hkept
  simp only [forwardVec, hkept, gt_iff_lt, hgen, decide_true, Bool.true_and, Bool.or_true]
  by_cases h1 : tokens.length = 1 <;> simp [h1]

theorem forwardVec_consistent {s : Session α} (h : s.Consistent) (allLogits : Bool)
    (tokens : List ℤ) : (s.forwardVec M allLogits tokens).Consistent where
  previous := by
    rw [forwardVec_cache M h]
    simp only [forwardVec, KVMeta.sync_previous, KVMeta.reserveSize, h.reserve, h.previous, live,
      List.map_nil, List.sum_nil, List.length_append, List.length_take]
    omega
  reserve := rfl

end Session

/-! ### Greedy sampling -/

section Greedy

variable [LinearOrder α] [Inhabited α]

/-- `argmaxSelect` (`sampler.cpp`): the first largest score of the first `size`. -/
def argmaxSelect (scores : List α) (size : ℕ) : ℤ :=
  ((List.range size).foldl (fun (best : α × ℕ) i =>
    if scores.getD i default > best.1 then (scores.getD i default, i) else best)
    (scores.getD 0 default, 0)).2

/-- `Llm::sample` with the greedy sampler.  An offset of `0` samples the tensor itself. -/
def sample (logits : Logits α) (offset size : ℕ) : ℤ :=
  if offset ≠ 0 ∧ size ≠ 0 then argmaxSelect ((logits.data.drop offset).take size) size
  else argmaxSelect logits.data logits.lastDim

/-- The greedy sampler reads the leading row only. -/
theorem argmaxSelect_take (scores : List α) (size : ℕ) (h : 0 < size) :
    argmaxSelect (scores.take size) size = argmaxSelect scores size := by
  have hget : ∀ i < size, (scores.take size).getD i default = scores.getD i default := by
    intro i hi
    simp only [List.getD_eq_getElem?_getD, List.getElem?_take_of_lt hi]
  have key : ∀ (l : List ℕ) (b : α × ℕ), (∀ i ∈ l, i < size) →
      l.foldl (fun (best : α × ℕ) i => if (scores.take size).getD i default > best.1 then
        ((scores.take size).getD i default, i) else best) b =
      l.foldl (fun (best : α × ℕ) i => if scores.getD i default > best.1 then
        (scores.getD i default, i) else best) b := by
    intro l
    induction l with
    | nil => intro b _; rfl
    | cons i l ih =>
      intro b hl
      rw [List.foldl_cons, List.foldl_cons, hget i (hl i List.mem_cons_self),
        ih _ fun j hj => hl j (List.mem_cons_of_mem i hj)]
  unfold argmaxSelect
  rw [hget 0 h, key _ _ fun i hi => List.mem_range.1 hi]

namespace CausalModel

variable (M : CausalModel α)

/-- The greedy continuation of a context. -/
def next (context : List ℤ) : ℤ := argmaxSelect (M.row context) M.size

/-- Sampling at the offset of row `i` of the full output gives the model's choice after the `i + 1`
first tokens, whether or not the offset is zero. -/
theorem sample_row (cache tokens : List ℤ) {i : ℕ} (hi : i < tokens.length) :
    sample (M.logits true cache tokens) (i * M.size) M.size =
      M.next (cache ++ tokens.take (i + 1)) := by
  have hslice : ((M.rows cache tokens).flatten.drop (i * M.size)).take M.size =
      M.row (cache ++ tokens.take (i + 1)) := by
    have hi' : i < (M.rows cache tokens).length := by rwa [rows_length]
    have hrows : ∀ r ∈ M.rows cache tokens, r.length = M.size := by
      intro r hr
      obtain ⟨j, -, rfl⟩ := List.mem_map.1 hr
      exact M.row_length _
    rw [Lib.flatten_drop_take hrows hi']
    simp [rows]
  unfold sample next
  split_ifs with h0
  · simp only [logits, if_true]
    rw [hslice]
  · have hi0 : i = 0 := by
      by_contra hne
      exact h0 ⟨Nat.mul_ne_zero hne M.size_pos.ne', M.size_pos.ne'⟩
    subst hi0
    rw [Nat.zero_mul, List.drop_zero] at hslice
    simp only [logits, if_true]
    rw [← argmaxSelect_take _ _ M.size_pos, hslice]

theorem sample_last (cache tokens : List ℤ) (size : ℕ) :
    sample (M.logits false cache tokens) 0 size = M.next (cache ++ tokens) := by
  simp [sample, logits, next]

/-- The reference: `n` tokens from `t` on, each the greedy continuation of everything before it. -/
def greedy (context : List ℤ) (t : ℤ) : ℕ → List ℤ
  | 0 => []
  | n + 1 => t :: greedy (context ++ [t]) (M.next (context ++ [t])) n

theorem greedy_add (context : List ℤ) (t : ℤ) (m n : ℕ) :
    M.greedy context t (m + 1 + n) = M.greedy context t (m + 1) ++
      M.greedy (context ++ M.greedy context t (m + 1))
        (M.next (context ++ M.greedy context t (m + 1))) n := by
  induction m generalizing context t with
  | zero => simp [greedy, Nat.add_comm 1 n]
  | succ m ih =>
    have hlong : M.greedy context t (m + 1 + 1 + n) =
        t :: M.greedy (context ++ [t]) (M.next (context ++ [t])) (m + 1 + n) := by
      rw [show m + 1 + 1 + n = m + 1 + n + 1 by omega, greedy]
    have hshort : M.greedy context t (m + 1 + 1) =
        t :: M.greedy (context ++ [t]) (M.next (context ++ [t])) (m + 1) := rfl
    rw [hlong, hshort, ih]
    simp only [List.cons_append, List.append_assoc, List.nil_append]

@[simp] theorem length_greedy (context : List ℤ) (t : ℤ) (n : ℕ) :
    (M.greedy context t n).length = n := by
  induction n generalizing context t with
  | zero => rfl
  | succ n ih => rw [greedy, List.length_cons, ih]

theorem greedy_prefix (context : List ℤ) (t : ℤ) {m n : ℕ} (h : m ≤ n) :
    M.greedy context t m <+: M.greedy context t n := by
  cases m with
  | zero => exact List.nil_prefix
  | succ m =>
    obtain ⟨d, rfl⟩ := Nat.exists_eq_add_of_le h
    rw [greedy_add]
    exact List.prefix_append _ _

end CausalModel

namespace Session

variable (M : CausalModel α)

/-! ### Autoregressive generation -/

/-- `ArGeneration::generate` for `n` more tokens. -/
def arGenerate (allLogits : Bool) (isStop : ℤ → Bool) : ℕ → Session α → Session α
  | 0, s => s
  | n + 1, s =>
    let t := sample s.outputs 0 0
    let s := { s.pushTokens [t] with currentToken := t }
    let s := s.updateContext 0 1
    if isStop t then s
    else
      arGenerate allLogits isStop n
        (((s.setRemove 0).forwardVec M allLogits [t]).updateContext 1 0)

/-! ### Draft verification -/

/-- The loop of `Generation::draftVerify` at draft `i`, with the drafts from there on.  The result
is the number of accepted tokens, the new current token and the stop flag. -/
def verifyFrom (isStop : ℤ → Bool) (logits : Logits α) (size : ℕ) (i : ℕ) :
    List ℤ → ℕ × ℤ × Bool
  | [] => (i, sample logits (logits.data.length - logits.lastDim) logits.lastDim, false)
  | d :: rest =>
    let predict :=
      sample logits (logits.data.length - (size - i + 1) * logits.lastDim) logits.lastDim
    if isStop predict then (i, predict, true)
    else if predict ≠ d then (i, predict, false)
    else verifyFrom isStop logits size (i + 1) rest

/-- `Generation::draftVerify`. -/
def draftVerify (isStop : ℤ → Bool) (logits : Logits α) (drafts : List ℤ) : ℕ × ℤ × Bool :=
  verifyFrom isStop logits drafts.length 1 (drafts.drop 1)

/-- The output of a decoding forward, sampled at row `i`. -/
theorem sample_output (context drafts : List ℤ) {i : ℕ} (hi : i < drafts.length) :
    sample (M.logits (decide (drafts.length ≠ 1)) context drafts)
        ((M.logits (decide (drafts.length ≠ 1)) context drafts).data.length -
          (drafts.length - i) * M.size) M.size =
      M.next (context ++ drafts.take (i + 1)) := by
  by_cases h1 : drafts.length = 1
  · have hi0 : i = 0 := by omega
    subst hi0
    have hdata : (M.logits false context drafts).data.length = M.size := by
      simp [CausalModel.logits, M.row_length]
    have htake : drafts.take (0 + 1) = drafts := List.take_of_length_le (by omega)
    rw [decide_eq_false (by simpa using h1), hdata, h1, Nat.sub_zero, Nat.one_mul, Nat.sub_self,
      M.sample_last, htake]
  · have hdata : (M.logits true context drafts).data.length = drafts.length * M.size := by
      simp [CausalModel.logits, M.flatten_length]
    have hoff : drafts.length * M.size - (drafts.length - i) * M.size = i * M.size := by
      rw [← Nat.sub_mul, Nat.sub_sub_self hi.le]
    rw [decide_eq_true h1, hdata, hoff, M.sample_row context drafts hi]

/-- The accepted drafts followed by the new current token are the greedy continuation, and the stop
flag is raised only for a stop token. -/
theorem verifyFrom_spec (isStop : ℤ → Bool) (context drafts : List ℤ) (i : ℕ) (rest : List ℤ)
    (hi : 1 ≤ i) (hdrafts : drafts.drop i = rest) (hle : i ≤ drafts.length)
    {j : ℕ} {t : ℤ} {stop : Bool}
    (h : verifyFrom isStop (M.logits (decide (drafts.length ≠ 1)) context drafts)
      drafts.length i rest = (j, t, stop)) :
    i ≤ j ∧ j ≤ drafts.length ∧ t = M.next (context ++ drafts.take j) ∧
      (stop = true → isStop t = true) ∧
      ∀ k, i ≤ k → k < j → drafts[k]? = some (M.next (context ++ drafts.take k)) := by
  induction rest generalizing i with
  | nil =>
    have hlen : i = drafts.length := by
      have := List.drop_eq_nil_iff.1 hdrafts
      omega
    simp only [verifyFrom, Prod.mk.injEq] at h
    obtain ⟨rfl, rfl, rfl⟩ := h
    refine ⟨le_rfl, hle, ?_, by simp, fun k h1 h2 => absurd h1 (by omega)⟩
    have hs := sample_output M context drafts (i := drafts.length - 1) (by omega)
    rw [show drafts.length - (drafts.length - 1) = 1 by omega, Nat.one_mul,
      show drafts.length - 1 + 1 = drafts.length by omega] at hs
    rw [hlen]
    exact hs
  | cons d rest ih =>
    have hlt : i < drafts.length := by
      by_contra hge
      rw [List.drop_eq_nil_of_le (by omega)] at hdrafts
      exact nomatch hdrafts
    have hd : drafts[i]? = some d := by
      rw [← List.head?_drop, hdrafts]
      rfl
    have hs := sample_output M context drafts (i := i - 1) (by omega)
    rw [show drafts.length - (i - 1) = drafts.length - i + 1 by omega,
      show i - 1 + 1 = i by omega] at hs
    rw [verifyFrom] at h
    simp only [show (M.logits (decide (drafts.length ≠ 1)) context drafts).lastDim = M.size from rfl,
      hs] at h
    split_ifs at h with hstop hne
    · cases h
      exact ⟨le_rfl, hle, rfl, fun _ => hstop, fun k h1 h2 => absurd h1 (by omega)⟩
    · cases h
      exact ⟨le_rfl, hle, rfl, by simp, fun k h1 h2 => absurd h1 (by omega)⟩
    · have hnext : drafts.drop (i + 1) = rest := by
        rw [← List.drop_drop, hdrafts]
        rfl
      obtain ⟨h1, h2, h3, h4, h5⟩ := ih (i + 1) (by omega) hnext hlt h
      refine ⟨by omega, h2, h3, h4, fun k hk1 hk2 => ?_⟩
      rcases Nat.eq_or_lt_of_le hk1 with rfl | hk1
      · rw [hd, not_not.1 hne]
      · exact h5 k hk1 hk2

/-- A list each of whose tokens but the first is the continuation of those before it is greedy. -/
theorem take_eq_greedy (context : List ℤ) (t : ℤ) (new : List ℤ) (j : ℕ)
    (hj : j ≤ (t :: new).length)
    (h : ∀ k, 1 ≤ k → k < j →
      (t :: new)[k]? = some (M.next (context ++ (t :: new).take k))) :
    (t :: new).take j = M.greedy context t j := by
  induction j generalizing context t new with
  | zero => rfl
  | succ j ih =>
    rw [List.take_succ_cons, CausalModel.greedy]
    cases j with
    | zero => rfl
    | succ j =>
      have hnew := h 1 le_rfl (by omega)
      cases new with
      | nil => simp at hj
      | cons u new =>
        simp only [List.getElem?_cons_succ, List.getElem?_cons_zero, Option.some.injEq,
          List.take_succ_cons, List.take_zero] at hnew
        rw [hnew]
        refine congrArg _ (ih (context ++ [t]) _ new (by simpa using hj) fun k hk1 hk2 => ?_)
        have := h (k + 1) (by omega) (by omega)
        simpa [hnew] using this

/-- `draftVerify` on the output of a forward of `t :: new` after `context`. -/
theorem draftVerify_spec (isStop : ℤ → Bool) (context : List ℤ) (t : ℤ) (new : List ℤ)
    {j : ℕ} {t' : ℤ} {stop : Bool}
    (h : draftVerify isStop (M.logits (decide ((t :: new).length ≠ 1)) context (t :: new))
      (t :: new) = (j, t', stop)) :
    1 ≤ j ∧ j ≤ (t :: new).length ∧ (t :: new).take j = M.greedy context t j ∧
      t' = M.next (context ++ M.greedy context t j) ∧ (stop = true → isStop t' = true) := by
  obtain ⟨h1, h2, h3, h4, h5⟩ := verifyFrom_spec M isStop context (t :: new) 1 _ le_rfl rfl
    (by simp) h
  have hgreedy := take_eq_greedy M context t new j h2 h5
  exact ⟨h1, h2, hgreedy, hgreedy ▸ h3, h4⟩

end Session

end Greedy

end Mnn
