import Mathlib.Tactic

/-!
# N-gram tables of the lookahead decoder

`transformers/llm/engine/src/speculative_decoding/ngram.hpp`: tables from keys of at most
`MNN_NGRAM_KEY_MAX` tokens to the tokens seen after them, either with counts (`FreqxLen_RULE`) or in
order of appearance (`FCFS_RULE`), their update from a token list, and the search that extends the
current token to a list of drafts.

A table is a list of pairs.  `std::unordered_map` promises no order: `order` is the order in which the
walk over a value meets its entries, and the theorems are about any.  The concentration test compares
exact fractions where the source rounds one of them to `float`.

`search_eq`: whatever the table holds, the drafts begin with the current token and are either that
token alone or exactly as many as asked for.
-/

namespace Mnn
namespace Ngram

/-- `MNN_NGRAM_KEY_MAX`. -/
def keyMax : ℕ := 8

inductive MatchStrictLevel
  | low
  | medium
  | high
  deriving DecidableEq

/-- `min_draft_percent_balance`. -/
def minDraftPercentBalance : List ℕ := [60, 50, 50, 40, 40, 40, 40, 40]

/-- `min_draft_percent_strict`. -/
def minDraftPercentStrict : List ℕ := [90, 80, 70, 60, 50, 50, 50, 50]

/-- `ngram_key`: unused positions hold `-1`. -/
def key (tokens : List ℤ) : List ℤ := tokens ++ List.replicate (keyMax - tokens.length) (-1)

/-- `ngram_cache<ngram_value>`. -/
abbrev CountCache := List (List ℤ × List (ℤ × ℕ))

/-- `ngram_cache<ngram_ordered_value>`: the first token of each key apart from the later ones, as
no key is entered without a token. -/
abbrev OrderedCache := List (List ℤ × ℤ × List ℤ)

/-- The table of the selected rule. -/
inductive Cache
  | freqxLen (data : CountCache)
  | fcfs (data : OrderedCache)

/-! ### Updating -/

/-- `ngram_add<ngram_value>` inside one value. -/
def addCount (token : ℤ) : List (ℤ × ℕ) → List (ℤ × ℕ)
  | [] => [(token, 1)]
  | (t, n) :: l => if t = token then (t, n + 1) :: l else (t, n) :: addCount token l

def addCounted (ngram : List ℤ) (token : ℤ) : CountCache → CountCache
  | [] => [(ngram, [(token, 1)])]
  | (k, v) :: l => if k = ngram then (k, addCount token v) :: l else (k, v) :: addCounted ngram token l

def addOrdered (ngram : List ℤ) (token : ℤ) : OrderedCache → OrderedCache
  | [] => [(ngram, token, [])]
  | (k, t, v) :: l =>
    if k = ngram then (k, t, v ++ [token]) :: l else (k, t, v) :: addOrdered ngram token l

/-- `ngram_add`. -/
def Cache.add (ngram : List ℤ) (token : ℤ) : Cache → Cache
  | .freqxLen data => .freqxLen (addCounted ngram token data)
  | .fcfs data => .fcfs (addOrdered ngram token data)

/-- The positions whose tokens `ngram_cache_update` enters for one key size. -/
def updatePositions (keySize tokenNum newCount : ℕ) : List ℕ :=
  let posStart := max (tokenNum - newCount) keySize
  (List.range (tokenNum - posStart)).map (posStart + ·)

/-- `ngram_cache_update` with `ngram_key_min = 1`. -/
def Cache.update (keyMaxLen : ℕ) (tokens : List ℤ) (newCount : ℕ) (data : Cache) : Cache :=
  (List.range keyMaxLen).foldl (fun data k =>
    (updatePositions (k + 1) tokens.length newCount).foldl (fun data i =>
      data.add (key ((tokens.drop (i - (k + 1))).take (k + 1))) (tokens.getD i 0)) data) data

/-! ### Searching -/

/-- The key of the last `keySize` tokens of the history followed by the drafts; positions before the
start of the history stay unset. -/
def searchKey (tokens drafts : List ℤ) (keySize : ℕ) : List ℤ :=
  let start : ℤ := tokens.length - keySize + drafts.length
  key ((List.range keySize).map fun k =>
    if start + k < 0 then -1 else (tokens ++ drafts).getD (start + k).toNat 0)

/-- The tallies of the walk over one value: the draft, the best score over all keys so far, and for
this key the total and the largest count. -/
structure Tally where
  tokenDraft : ℤ
  maxScore : ℕ
  totalCount : ℕ
  maxCount : ℕ

def Tally.step (keySize : ℕ) (t : Tally) (entry : ℤ × ℕ) : Tally :=
  let t := { t with totalCount := t.totalCount + entry.2 }
  if entry.2 * keySize > t.maxScore then
    { t with tokenDraft := entry.1, maxScore := entry.2 * keySize, maxCount := entry.2 }
  else t

/-- The concentration test: the draft is dropped when its share is below the level's percentage. -/
def tooThin (level : MatchStrictLevel) (keySize : ℕ) (t : Tally) : Bool :=
  match level with
  | .low => false
  | .medium =>
    t.maxCount ≠ 0 && 100 * t.maxCount < minDraftPercentBalance.getD (keySize - 1) 0 * t.totalCount
  | .high =>
    t.maxCount ≠ 0 && 100 * t.maxCount < minDraftPercentStrict.getD (keySize - 1) 0 * t.totalCount

/-- The loop over key sizes, from `keySize` down, in the counting table. -/
def draftCounted (order : List (ℤ × ℕ) → List (ℤ × ℕ)) (data : CountCache)
    (tokens drafts : List ℤ) (level : MatchStrictLevel) : ℕ → ℤ → ℕ → ℤ
  | 0, tokenDraft, _ => tokenDraft
  | k + 1, tokenDraft, maxScore =>
    match data.lookup (searchKey tokens drafts (k + 1)) with
    | none => draftCounted order data tokens drafts level k tokenDraft maxScore
    | some value =>
      let t := (order value).foldl (Tally.step (k + 1)) ⟨tokenDraft, maxScore, 0, 0⟩
      draftCounted order data tokens drafts level k
        (if tooThin level (k + 1) t then -1 else t.tokenDraft) t.maxScore

/-- The loop over key sizes in the ordered table, left at the first key found. -/
def draftOrdered (data : OrderedCache) (tokens drafts : List ℤ) : ℕ → ℤ
  | 0 => -1
  | k + 1 =>
    match data.lookup (searchKey tokens drafts (k + 1)) with
    | none => draftOrdered data tokens drafts k
    | some value => value.1

def Cache.draft (order : List (ℤ × ℕ) → List (ℤ × ℕ)) (keyMaxLen : ℕ) (tokens drafts : List ℤ)
    (level : MatchStrictLevel) : Cache → ℤ
  | .freqxLen data => draftCounted order data tokens drafts level keyMaxLen (-1) 0
  | .fcfs data => draftOrdered data tokens drafts keyMaxLen

section Search

variable (order : List (ℤ × ℕ) → List (ℤ × ℕ)) (data : Cache) (keyMaxLen : ℕ) (tokens : List ℤ)

/-- The outer loop of `ngram_cache_search`, with at most `room` drafts to add. -/
def extend : ℕ → List ℤ → MatchStrictLevel → List ℤ
  | 0, drafts, _ => drafts
  | room + 1, drafts, level =>
    let level := if drafts.length > 1 then .low else level
    let tokenDraft := data.draft order keyMaxLen tokens drafts level
    if tokenDraft = -1 then drafts
    else extend room (drafts ++ [tokenDraft]) level

/-- `ngram_cache_search` on the single current token. -/
def search (current : ℤ) (maxDraftSize : ℕ) (level : MatchStrictLevel) : List ℤ :=
  let drafts := extend order data keyMaxLen tokens (maxDraftSize - 1) [current] level
  if drafts.length > 1 then drafts ++ List.replicate (maxDraftSize - drafts.length) 0 else drafts

theorem extend_eq (room : ℕ) (drafts : List ℤ) (level : MatchStrictLevel) :
    ∃ new, extend order data keyMaxLen tokens room drafts level = drafts ++ new ∧
      new.length ≤ room := by
  induction room generalizing drafts level with
  | zero => exact ⟨[], by simp [extend], le_rfl⟩
  | succ room ih =>
    simp only [extend]
    generalize (if drafts.length > 1 then MatchStrictLevel.low else level) = level'
    split_ifs with hnone
    · exact ⟨[], by simp, Nat.zero_le _⟩
    · obtain ⟨new, hnew, hlen⟩ :=
        ih (drafts ++ [data.draft order keyMaxLen tokens drafts level']) level'
      exact ⟨_ :: new, by rw [hnew, List.append_assoc, List.singleton_append],
        Nat.succ_le_succ hlen⟩

/-- The drafts are the current token followed by nothing, or by tokens that fill the group up. -/
theorem search_eq (current : ℤ) (maxDraftSize : ℕ) (level : MatchStrictLevel) :
    ∃ new, search order data keyMaxLen tokens current maxDraftSize level = current :: new ∧
      (new = [] ∨ new.length + 1 = maxDraftSize) := by
  obtain ⟨new, hnew, hlen⟩ :=
    extend_eq order data keyMaxLen tokens (maxDraftSize - 1) [current] level
  rw [List.singleton_append] at hnew
  simp only [search, hnew, List.length_cons]
  split_ifs with hone
  · refine ⟨new ++ List.replicate (maxDraftSize - (new.length + 1)) 0, by simp, .inr ?_⟩
    simp only [List.length_append, List.length_replicate]
    omega
  · exact ⟨new, rfl, .inl (List.length_eq_zero_iff.1 (by omega))⟩

end Search

end Ngram
end Mnn
