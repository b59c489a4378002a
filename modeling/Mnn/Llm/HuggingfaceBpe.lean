import Mnn.Lib.GreedyMerge

/-!
# Byte pairs of the Huggingface tokenizer

`HuggingfaceTokenizer::bpe` (`transformers/llm/engine/src/tokenizer.cpp`): the pairs of adjacent
tokens stay in one array, and a pair that was merged is marked and drops out.

* `getPairs`, `left`, `right`, `toMerge`, `merge`, `bpe`: the code;
* `Chain`: the tokens that the pairs still stand for; `Holds.merge`: a merge joins two of them;
* `bpe_eq`: **the code joins the adjacent pair of least rank until there is none**.
-/

namespace Mnn.HuggingfaceBpe

open Lib.GreedyMerge

variable {α : Type*}

/-- `BPERanks`. -/
abbrev BPERanks (α : Type*) := List α × List α → Option ℤ

def intMax : ℤ := 2 ^ 31 - 1

/-- Ranks are distinct, and line numbers below a count that is an `int`. -/
structure MergeTable (α : Type*) where
  rank : BPERanks α
  distinct : ∀ p q r, rank p = some r → rank q = some r → p = q
  lt : ∀ p r, rank p = some r → r < intMax

/-! ### The code -/

/-- `get_pairs`. -/
def getPairs (word : List α) : List (List α × List α) :=
  (word.zip word.tail).map fun p => ([p.1], [p.2])

/-- The variables of `bpe`. -/
structure State (α : Type*) where
  pairs : List (List α × List α)
  merged : Finset ℕ

/-- `_left`: the last pair before `i` that is not merged, if there is one. -/
def left (merged : Finset ℕ) : ℕ → Option ℕ
  | 0 => none
  | i + 1 => if i ∉ merged then some i else left merged i

/-- `_right`: the first pair behind `i` that is not merged, or `cap`. -/
def right (i cap : ℕ) (merged : Finset ℕ) : ℕ :=
  ((List.range' (i + 1) (cap - (i + 1))).find? (· ∉ merged)).getD cap

def score (ranks : BPERanks α) (s : State α) (i : ℕ) : ℤ :=
  (ranks (s.pairs.getD i ([], []))).getD intMax

/-- One pair of the search, with `min_score` and `to_merge`. -/
def look (ranks : BPERanks α) (s : State α) (p : ℤ × Option ℕ) (i : ℕ) : ℤ × Option ℕ :=
  if i ∉ s.merged then
    if score ranks s i < p.1 then (score ranks s i, some i) else p
  else p

/-- `to_merge`. -/
def toMerge (ranks : BPERanks α) (s : State α) : Option ℕ :=
  ((List.range s.pairs.length).foldl (look ranks s) (intMax, none)).2

/-- `pairs[l].second = merge_into`, if there is a pair on the left. -/
def setSecond (pairs : List (List α × List α)) (l : Option ℕ) (mergeInto : List α) :
    List (List α × List α) :=
  match l with
  | some l => pairs.modify l fun p => (p.1, mergeInto)
  | none => pairs

/-- `pairs[r].first = merge_into`, if there is a pair on the right. -/
def setFirst (pairs : List (List α × List α)) (r : ℕ) (mergeInto : List α) :
    List (List α × List α) :=
  if r < pairs.length then pairs.modify r fun p => (mergeInto, p.2) else pairs

/-- The merge of one pair. -/
def merge (s : State α) (i : ℕ) : State α :=
  let merged := insert i s.merged
  let pair := s.pairs.getD i ([], [])
  let mergeInto := pair.1 ++ pair.2
  { pairs := setFirst (setSecond s.pairs (left merged i) mergeInto) (right i s.pairs.length merged)
      mergeInto
    merged }

/-- The loop, for at most `fuel` merges. -/
def loop (ranks : BPERanks α) : ℕ → State α → Option (State α)
  | 0, _ => none
  | fuel + 1, s =>
    match toMerge ranks s with
    | none => some s
    | some i => loop ranks fuel (merge s i)

/-- The tokens at the end. -/
def output (token : List α) (s : State α) : List (List α) :=
  if s.merged.card = s.pairs.length then [token]
  else (List.range s.pairs.length).flatMap fun i =>
    if i ∉ s.merged then
      (if (left s.merged i).isNone then [(s.pairs.getD i ([], [])).1] else []) ++
        [(s.pairs.getD i ([], [])).2]
    else []

/-- `HuggingfaceTokenizer::bpe`; at most `fuel` rounds of the loop. -/
def bpe (ranks : BPERanks α) (fuel : ℕ) (token : List α) : Option (List (List α)) :=
  (loop ranks fuel { pairs := getPairs token, merged := ∅ }).map (output token)

/-! ### The search -/

/-- The keys of the reference are the ranks of adjacent tokens. -/
def pairRank (ranks : BPERanks α) (a b : List α) : Option ℤ := ranks (a, b)

/-- The search finds the first of the least scores below the bound, or nothing. -/
theorem foldl_look (ranks : BPERanks α) (s : State α) (l : List ℕ) (p : ℤ × Option ℕ) :
    (l.foldl (look ranks s) p = p ∧ ∀ j ∈ l, j ∉ s.merged → p.1 ≤ score ranks s j) ∨
      ∃ l₁ i l₂, l = l₁ ++ i :: l₂ ∧ i ∉ s.merged ∧
        l.foldl (look ranks s) p = (score ranks s i, some i) ∧ score ranks s i < p.1 ∧
        (∀ j ∈ l₁, j ∉ s.merged → score ranks s i < score ranks s j) ∧
        ∀ j ∈ l₂, j ∉ s.merged → score ranks s i ≤ score ranks s j := by
  induction l generalizing p with
  | nil => exact .inl ⟨rfl, fun j hj => absurd hj List.not_mem_nil⟩
  | cons x l ih =>
    rw [List.foldl_cons]
    by_cases hx : x ∉ s.merged ∧ score ranks s x < p.1
    · rw [look, if_pos hx.1, if_pos hx.2]
      refine .inr ?_
      rcases ih (score ranks s x, some x) with ⟨heq, hall⟩ | ⟨l₁, i, l₂, rfl, hi, heq, hlt, h₁, h₂⟩
      · exact ⟨[], x, l, rfl, hx.1, heq, hx.2, fun j hj => absurd hj List.not_mem_nil, hall⟩
      · refine ⟨x :: l₁, i, l₂, rfl, hi, heq, hlt.trans hx.2, ?_, h₂⟩
        exact List.forall_mem_cons.2 ⟨fun _ => hlt, h₁⟩
    · have hlook : look ranks s p x = p := by
        unfold look
        split_ifs with h₁ h₂
        · rfl
        · exact absurd ⟨h₁, h₂⟩ hx
        · rfl
      have hle : x ∉ s.merged → p.1 ≤ score ranks s x := fun h => not_lt.1 fun hlt => hx ⟨h, hlt⟩
      rw [hlook]
      rcases ih p with ⟨heq, hall⟩ | ⟨l₁, i, l₂, rfl, hi, heq, hlt, h₁, h₂⟩
      · exact .inl ⟨heq, List.forall_mem_cons.2 ⟨hle, hall⟩⟩
      · refine .inr ⟨x :: l₁, i, l₂, rfl, hi, heq, hlt, ?_, h₂⟩
        exact List.forall_mem_cons.2 ⟨fun h => hlt.trans_le (hle h), h₁⟩

/-! ### What the pairs stand for -/

/-- The pairs at the indices of the first list are the adjacent tokens of the second. -/
inductive Chain (pairs : List (List α × List α)) : List ℕ → List (List α) → Prop
  | nil (t : List α) : Chain pairs [] [t]
  | cons {i : ℕ} {indices : List ℕ} {t t' : List α} {tokens : List (List α)}
      (h : pairs[i]? = some (t, t')) (hrest : Chain pairs indices (t' :: tokens)) :
      Chain pairs (i :: indices) (t :: t' :: tokens)

namespace Chain

variable {pairs pairs' : List (List α × List α)} {u v : List ℕ} {tokens l r : List (List α)}
  {a m : List α}

theorem keys (ranks : BPERanks α) (h : Chain pairs u tokens) :
    keys (pairRank ranks) tokens = u.filterMap fun i => ranks (pairs.getD i ([], [])) := by
  induction h with
  | nil => rfl
  | @cons i u t t' tokens h hrest ih =>
    have hget : pairs.getD i ([], []) = (t, t') := by
      rw [List.getD_eq_getElem?_getD, h, Option.getD_some]
    rw [keys_cons_cons, ih, List.filterMap_cons, hget, pairRank]
    cases ranks (t, t') <;> rfl

theorem ne_nil (h : Chain pairs u tokens) : tokens ≠ [] := by
  cases h <;> exact List.cons_ne_nil _ _

theorem congr (h : Chain pairs u tokens) (heq : ∀ i ∈ u, pairs[i]? = pairs'[i]?) :
    Chain pairs' u tokens := by
  induction h with
  | nil t => exact .nil t
  | cons h _ ih =>
    rw [List.forall_mem_cons] at heq
    exact .cons (heq.1 ▸ h) (ih heq.2)

theorem append (h : Chain pairs u (l ++ [m])) (h' : Chain pairs v (m :: r)) :
    Chain pairs (u ++ v) (l ++ m :: r) := by
  induction u generalizing l with
  | nil =>
    cases l with
    | nil => exact h'
    | cons c l => cases l <;> cases h
  | cons i u ih =>
    cases l with
    | nil => cases h
    | cons c l =>
      cases l with
      | nil =>
        cases h with
        | cons h hrest => exact .cons h (ih (l := []) hrest)
      | cons d l =>
        cases h with
        | cons h hrest => exact .cons h (ih (l := d :: l) hrest)

theorem split {i : ℕ} (h : Chain pairs (u ++ i :: v) tokens) :
    ∃ l a b r, tokens = l ++ a :: b :: r ∧ pairs[i]? = some (a, b) ∧ Chain pairs u (l ++ [a]) ∧
      Chain pairs v (b :: r) := by
  induction u generalizing tokens with
  | nil =>
    cases h with
    | @cons _ _ t t' tokens h hrest => exact ⟨[], t, t', tokens, rfl, h, .nil t, hrest⟩
  | cons j u ih =>
    cases h with
    | @cons _ _ t t' tokens h hrest =>
      obtain ⟨l, a, b, r, heq, hi, hu, hv⟩ := ih hrest
      refine ⟨t :: l, a, b, r, by rw [heq, List.cons_append], hi, ?_, hv⟩
      cases l with
      | nil =>
        obtain ⟨rfl, -⟩ := List.cons.inj heq
        exact .cons h hu
      | cons c l =>
        obtain ⟨rfl, -⟩ := List.cons.inj heq
        exact .cons h hu

/-- The last token changes with the last pair. -/
theorem modify_last {j : ℕ} (h : Chain pairs (u ++ [j]) (l ++ [a])) (hj : j ∉ u) :
    Chain (pairs.modify j fun p => (p.1, m)) (u ++ [j]) (l ++ [m]) := by
  obtain ⟨l', x, y, r, heq, hget, hu, hr⟩ := h.split
  cases hr with
  | nil =>
    obtain ⟨rfl, -⟩ : l = l' ++ [x] ∧ [a] = [y] := by
      refine List.append_inj' (heq.trans ?_) rfl
      rw [List.append_assoc, List.singleton_append]
    have hlast : (pairs.modify j fun p => (p.1, m))[j]? = some (x, m) := by
      rw [List.getElem?_modify_eq, hget]
      rfl
    have hrest : Chain (pairs.modify j fun p => (p.1, m)) u (l' ++ [x]) := hu.congr fun i hi => by
      rw [List.getElem?_modify_ne _ _ fun hij : j = i => hj (hij ▸ hi)]
    have := hrest.append (.cons hlast (.nil m))
    rwa [List.append_assoc]

/-- The first token changes with the first pair. -/
theorem modify_head {j : ℕ} (h : Chain pairs (j :: u) (a :: r)) (hj : j ∉ u) :
    Chain (pairs.modify j fun p => (m, p.2)) (j :: u) (m :: r) := by
  cases h with
  | @cons _ _ _ t' tokens h hrest =>
    refine .cons (t := m) ?_ (hrest.congr fun i hi => ?_)
    · rw [List.getElem?_modify_eq, h]
      rfl
    · rw [List.getElem?_modify_ne _ _ fun hij : j = i => hj (hij ▸ hi)]

end Chain

/-! ### The pairs that are not merged -/

/-- The pairs from `start` on, before `n`, that are not merged. -/
def unmerged (merged : Finset ℕ) (start n : ℕ) : List ℕ :=
  (List.range' start (n - start)).filter (· ∉ merged)

theorem range'_split {i n : ℕ} (hi : i < n) :
    List.range' 0 n = List.range' 0 i ++ i :: List.range' (i + 1) (n - (i + 1)) := by
  obtain ⟨k, rfl⟩ := Nat.exists_eq_add_of_lt hi
  have hk : i + k + 1 - (i + 1) = k := by omega
  have happend := List.range'_append_1 (s := 0) (m := i) (n := k + 1)
  rw [Nat.zero_add] at happend
  rw [hk, ← List.range'_succ, Nat.add_assoc]
  exact happend.symm

/-- There is one way to split a range at an index. -/
theorem range_eq_append {n j : ℕ} {l₁ l₂ : List ℕ} (h : List.range n = l₁ ++ j :: l₂) :
    l₁ = List.range' 0 j ∧ l₂ = List.range' (j + 1) (n - (j + 1)) := by
  have hlen : l₁.length < n := by
    have := congrArg List.length h
    rw [List.length_range, List.length_append, List.length_cons] at this
    omega
  have hj : l₁.length = j := by
    have := congrArg (fun l => l[l₁.length]?) h
    simpa [hlen] using this
  have hsplit := range'_split (hj ▸ hlen)
  rw [← List.range_eq_range', h] at hsplit
  obtain ⟨h₁, h₂⟩ := List.append_inj hsplit (by rw [hj, List.length_range'])
  exact ⟨h₁, (List.cons.inj h₂).2⟩

variable {merged : Finset ℕ} {i n : ℕ}

theorem unmerged_split (hi : i < n) (hmerged : i ∉ merged) :
    unmerged merged 0 n = unmerged merged 0 i ++ i :: unmerged merged (i + 1) n := by
  simp [unmerged, range'_split hi, hmerged]

theorem unmerged_insert_before : unmerged (insert i merged) 0 i = unmerged merged 0 i := by
  refine List.filter_congr fun j hj => ?_
  have := List.mem_range'_1.1 hj
  simp only [Finset.mem_insert, show j ≠ i by omega, false_or]

theorem unmerged_insert_behind :
    unmerged (insert i merged) (i + 1) n = unmerged merged (i + 1) n := by
  refine List.filter_congr fun j hj => ?_
  have := List.mem_range'_1.1 hj
  simp only [Finset.mem_insert, show j ≠ i by omega, false_or]

/-- A pair that is merged drops out. -/
theorem unmerged_insert (hi : i < n) :
    unmerged (insert i merged) 0 n = unmerged merged 0 i ++ unmerged merged (i + 1) n := by
  have hbefore : unmerged (insert i merged) 0 i = unmerged merged 0 i := unmerged_insert_before
  have hbehind : unmerged (insert i merged) (i + 1) n = unmerged merged (i + 1) n :=
    unmerged_insert_behind
  rw [← hbefore, ← hbehind]
  simp [unmerged, range'_split hi]

theorem left_eq (merged : Finset ℕ) (i : ℕ) : left merged i = (unmerged merged 0 i).getLast? := by
  induction i with
  | zero => rfl
  | succ i ih =>
    have hempty : unmerged merged (i + 1) (i + 1) = [] := by simp [unmerged]
    rw [left]
    by_cases hi : i ∉ merged
    · rw [if_pos hi, unmerged_split (Nat.lt_succ_self i) hi, hempty, List.getLast?_append]
      rfl
    · have hsame : unmerged merged 0 (i + 1) = unmerged merged 0 i := by
        simp [unmerged, range'_split (Nat.lt_succ_self i), not_not.1 hi]
      rw [if_neg hi, hsame, ih]

theorem right_eq (i n : ℕ) (merged : Finset ℕ) :
    right i n merged = ((unmerged merged (i + 1) n).head?).getD n := by
  rw [right, unmerged, List.head?_filter]

theorem mem_unmerged {start j : ℕ} :
    j ∈ unmerged merged start n ↔ (start ≤ j ∧ j < n) ∧ j ∉ merged := by
  have hrange : start ≤ j ∧ j < start + (n - start) ↔ start ≤ j ∧ j < n := by omega
  simp only [unmerged, List.mem_filter, List.mem_range'_1, decide_eq_true_eq, hrange]

theorem nodup_unmerged (merged : Finset ℕ) (start n : ℕ) : (unmerged merged start n).Nodup :=
  List.Nodup.filter _ List.nodup_range'

/-! ### One merge -/

/-- What the state stands for. -/
structure Holds (s : State α) (tokens : List (List α)) : Prop where
  chain : Chain s.pairs (unmerged s.merged 0 s.pairs.length) tokens
  inside : s.merged ⊆ Finset.range s.pairs.length

variable {s : State α} {tokens : List (List α)}

@[simp] theorem length_setSecond (pairs : List (List α × List α)) (l : Option ℕ) (m : List α) :
    (setSecond pairs l m).length = pairs.length := by
  cases l with
  | none => rfl
  | some l => exact List.length_modify ..

@[simp] theorem length_setFirst (pairs : List (List α × List α)) (r : ℕ) (m : List α) :
    (setFirst pairs r m).length = pairs.length := by
  unfold setFirst
  split_ifs
  · exact List.length_modify ..
  · rfl

@[simp] theorem length_merge (s : State α) (i : ℕ) : (merge s i).pairs.length = s.pairs.length := by
  simp [merge]

theorem getElem?_setSecond {pairs : List (List α × List α)} {l : Option ℕ} {m : List α} {j : ℕ}
    (hj : l ≠ some j) : (setSecond pairs l m)[j]? = pairs[j]? := by
  cases l with
  | none => rfl
  | some l => exact List.getElem?_modify_ne _ _ fun hlj => hj (congrArg some hlj)

theorem getElem?_setFirst {pairs : List (List α × List α)} {r : ℕ} {m : List α} {j : ℕ}
    (hj : r ≠ j) : (setFirst pairs r m)[j]? = pairs[j]? := by
  unfold setFirst
  split_ifs
  · exact List.getElem?_modify_ne _ _ hj
  · rfl

/-- The pair on the left gets the joined token. -/
theorem Chain.setSecond {pairs : List (List α × List α)} {u : List ℕ} {l : List (List α)}
    {a m : List α} (h : Chain pairs u (l ++ [a])) (hu : u.Nodup) :
    Chain (setSecond pairs u.getLast? m) u (l ++ [m]) := by
  rcases List.eq_nil_or_concat' u with rfl | ⟨u, j, rfl⟩
  · have hl : l = [] := by
      cases l with
      | nil => rfl
      | cons c l => cases l <;> cases h
    rw [hl]
    exact .nil m
  · rw [List.getLast?_concat]
    exact h.modify_last fun hj => (List.nodup_append.1 hu).2.2 j hj j List.mem_cons_self rfl

/-- The pair on the right gets the joined token. -/
theorem Chain.setFirst {pairs : List (List α × List α)} {u : List ℕ} {r : List (List α)}
    {a m : List α} (h : Chain pairs u (a :: r)) (hu : u.Nodup) :
    Chain (setFirst pairs (u.head?.getD pairs.length) m) u (m :: r) := by
  cases u with
  | nil =>
    cases h
    exact .nil m
  | cons j u =>
    have hj : j < pairs.length := by
      cases h with
      | cons h _ => exact (List.getElem?_eq_some_iff.1 h).1
    rw [List.head?_cons, Option.getD_some, HuggingfaceBpe.setFirst, if_pos hj]
    exact h.modify_head (List.nodup_cons.1 hu).1

/-- The tokens of a pair are joined. -/
theorem Holds.merge (h : Holds s tokens) {i : ℕ} (hi : i < s.pairs.length) (hmerged : i ∉ s.merged) :
    ∃ l a b r, tokens = l ++ a :: b :: r ∧ s.pairs[i]? = some (a, b) ∧
      Chain s.pairs (unmerged s.merged 0 i) (l ++ [a]) ∧
      Chain s.pairs (unmerged s.merged (i + 1) s.pairs.length) (b :: r) ∧
      Holds (merge s i) (l ++ (a ++ b) :: r) := by
  have hchain := h.chain
  rw [unmerged_split hi hmerged] at hchain
  obtain ⟨l, a, b, r, rfl, hget, hu, hv⟩ := hchain.split
  refine ⟨l, a, b, r, rfl, hget, hu, hv, ?_, ?_⟩
  · have hpair : s.pairs.getD i ([], []) = (a, b) := by
      rw [List.getD_eq_getElem?_getD, hget, Option.getD_some]
    rw [length_merge]
    simp only [HuggingfaceBpe.merge, hpair]
    rw [unmerged_insert hi, left_eq, right_eq, unmerged_insert_before, unmerged_insert_behind]
    set u := unmerged s.merged 0 i with hudef
    set v := unmerged s.merged (i + 1) s.pairs.length with hvdef
    -- the pair on the left is before `i`, the one on the right behind it
    have hleft : ∀ j ∈ v, u.getLast? ≠ some j := by
      intro j hj hlast
      have h₁ := mem_unmerged.1 hj
      have h₂ := mem_unmerged.1 (List.mem_of_getLast? hlast)
      omega
    have hright : ∀ j ∈ u, v.head?.getD s.pairs.length ≠ j := by
      intro j hj heq
      have h₁ := mem_unmerged.1 hj
      cases hhead : v.head? with
      | none =>
        rw [hhead, Option.getD_none] at heq
        omega
      | some k =>
        rw [hhead, Option.getD_some] at heq
        have h₂ := mem_unmerged.1 (List.mem_of_mem_head? hhead)
        omega
    refine Chain.append ?_ ?_
    · refine (hu.setSecond (nodup_unmerged ..)).congr fun j hj => ?_
      exact (getElem?_setFirst (hright j hj)).symm
    · have hv' : Chain (HuggingfaceBpe.setSecond s.pairs u.getLast? (a ++ b)) v (b :: r) :=
        hv.congr fun j hj => (getElem?_setSecond (hleft j hj)).symm
      have := hv'.setFirst (m := a ++ b) (nodup_unmerged ..)
      rwa [length_setSecond] at this
  · rw [length_merge]
    exact Finset.insert_subset (Finset.mem_range.2 hi) h.inside

/-! ### The loop -/

section Loop

variable (table : MergeTable α)

theorem score_eq {k : ℤ} {i : ℕ} (h : table.rank (s.pairs.getD i ([], [])) = some k) :
    score table.rank s i = k := by
  rw [score, h, Option.getD_some]

/-- Without a choice no adjacent pair is in the table. -/
theorem Holds.keys_eq_nil (h : Holds s tokens) (hnone : toMerge table.rank s = none) :
    keys (pairRank table.rank) tokens = [] := by
  rcases foldl_look table.rank s (List.range s.pairs.length) (intMax, none) with
    ⟨-, hall⟩ | ⟨l₁, i, l₂, -, -, heq, -, -, -⟩
  · rw [h.chain.keys, List.filterMap_eq_nil_iff]
    intro i hi
    obtain ⟨⟨-, hlt⟩, hmerged⟩ := mem_unmerged.1 hi
    have hle := hall i (List.mem_range.2 hlt) hmerged
    cases hrank : table.rank (s.pairs.getD i ([], [])) with
    | none => rfl
    | some k =>
      rw [score_eq table hrank] at hle
      exact absurd (table.lt _ _ hrank) (not_lt.2 hle)
  · rw [toMerge, heq] at hnone
    cases hnone

/-- The choice is the best pair, and the merge joins it. -/
theorem Holds.step (h : Holds s tokens) {i : ℕ} (hsome : toMerge table.rank s = some i) :
    ∃ l a b r k, tokens = l ++ a :: b :: r ∧ IsBest (pairRank table.rank) l a b r k ∧
      Holds (HuggingfaceBpe.merge s i) (l ++ (a ++ b) :: r) := by
  rcases foldl_look table.rank s (List.range s.pairs.length) (intMax, none) with
    ⟨heq, -⟩ | ⟨l₁, j, l₂, hrange, hj, heq, hlt, h₁, h₂⟩
  · rw [toMerge, heq] at hsome
    cases hsome
  · rw [toMerge, heq] at hsome
    obtain rfl := Option.some.inj hsome
    have hlen : j < s.pairs.length := by
      rw [← List.mem_range, hrange]
      exact List.mem_append_right _ List.mem_cons_self
    obtain ⟨rfl, rfl⟩ := range_eq_append hrange
    obtain ⟨l, a, b, r, rfl, hget, hu, hv, hmerge⟩ := h.merge hlen hj
    have hpair : s.pairs.getD j ([], []) = (a, b) := by
      rw [List.getD_eq_getElem?_getD, hget, Option.getD_some]
    cases hrank : table.rank (a, b) with
    | none =>
      rw [score, hpair, hrank] at hlt
      exact absurd hlt (lt_irrefl _)
    | some k =>
      have hscore := score_eq table (hpair.symm ▸ hrank)
      refine ⟨l, a, b, r, k, rfl, ⟨hrank, ?_, ?_⟩, hmerge⟩
      · rw [hu.keys]
        intro k' hk'
        obtain ⟨x, hx, hxk⟩ := List.mem_filterMap.1 hk'
        obtain ⟨⟨-, hxlt⟩, hxmerged⟩ := mem_unmerged.1 hx
        have := h₁ x (by rw [List.mem_range'_1]; omega) hxmerged
        rwa [hscore, score_eq table hxk] at this
      · rw [hv.keys]
        intro k' hk'
        obtain ⟨x, hx, hxk⟩ := List.mem_filterMap.1 hk'
        obtain ⟨⟨hxle, hxlt⟩, hxmerged⟩ := mem_unmerged.1 hx
        have := h₂ x (by rw [List.mem_range'_1]; omega) hxmerged
        rwa [hscore, score_eq table hxk] at this

/-- **The loop.**  It ends with the result of the procedure. -/
theorem Holds.loop (h : Holds s tokens) {fuel : ℕ} (hfuel : tokens.length ≤ fuel) :
    ∃ s' out, loop table.rank fuel s = some s' ∧ Merges (pairRank table.rank) tokens out ∧
      Holds s' out := by
  induction fuel generalizing s tokens with
  | zero => exact absurd (List.length_eq_zero_iff.1 (Nat.le_zero.1 hfuel)) h.chain.ne_nil
  | succ fuel ih =>
    cases hchoice : toMerge table.rank s with
    | none =>
      exact ⟨s, tokens, by rw [HuggingfaceBpe.loop, hchoice], .stop (h.keys_eq_nil table hchoice), h⟩
    | some i =>
      obtain ⟨l, a, b, r, k, rfl, hbest, hmerge⟩ := h.step table hchoice
      obtain ⟨s', out, hloop, hmerges, hholds⟩ := ih hmerge (by simp at hfuel ⊢; omega)
      exact ⟨s', out, by rw [HuggingfaceBpe.loop, hchoice]; exact hloop, .step hbest hmerges, hholds⟩

end Loop

/-! ### The start and the tokens at the end -/

theorem chain_zip (tokens : List (List α)) (pre : List (List α × List α)) (t : List α) :
    Chain (pre ++ (t :: tokens).zip tokens) (List.range' pre.length tokens.length) (t :: tokens) := by
  induction tokens generalizing pre t with
  | nil => exact .nil t
  | cons t' tokens ih =>
    rw [List.zip_cons_cons, List.length_cons, List.range'_succ]
    refine .cons (by simp) ?_
    have := ih (pre ++ [(t, t')]) t'
    rwa [List.append_assoc, List.length_append] at this

/-- At the start every character is a token. -/
theorem holds_start (c : α) (word : List α) :
    Holds { pairs := getPairs (c :: word), merged := ∅ } ((c :: word).map fun c => [c]) := by
  have hpairs : getPairs (c :: word) =
      ((c :: word).map fun c => [c]).zip (word.map fun c => [c]) := by
    rw [getPairs, List.tail_cons, List.zip_map]
    rfl
  have hchain := chain_zip (word.map fun c => [c]) [] [c]
  rw [List.nil_append, List.length_nil, List.length_map] at hchain
  refine ⟨?_, Finset.empty_subset _⟩
  have hlen : (getPairs (c :: word)).length = word.length := by
    simp [getPairs]
  rw [hlen, unmerged, Nat.sub_zero, List.filter_eq_self.2 (by simp), hpairs]
  exact hchain

theorem Chain.map_snd {pairs : List (List α × List α)} {u : List ℕ} {t : List α}
    {tokens : List (List α)} (h : Chain pairs u (t :: tokens)) :
    u.map (fun i => (pairs.getD i ([], [])).2) = tokens := by
  induction u generalizing t tokens with
  | nil =>
    cases h
    rfl
  | cons i u ih =>
    cases h with
    | cons h hrest =>
      rw [List.map_cons, ih hrest, List.getD_eq_getElem?_getD, h, Option.getD_some]

theorem flatMap_unmerged (s : State α) (f : ℕ → List (List α)) :
    ((List.range s.pairs.length).flatMap fun i => if i ∉ s.merged then f i else []) =
      (unmerged s.merged 0 s.pairs.length).flatMap f := by
  rw [unmerged, Nat.sub_zero, ← List.range_eq_range']
  induction List.range s.pairs.length with
  | nil => rfl
  | cons i l ih =>
    rw [List.flatMap_cons, ih]
    by_cases hi : i ∉ s.merged
    · rw [List.filter_cons_of_pos (by simpa using hi), List.flatMap_cons, if_pos hi]
    · rw [List.filter_cons_of_neg (by simpa using hi), if_neg hi, List.nil_append]

/-- The tokens are written out. -/
theorem Holds.output (h : Holds s tokens) : output tokens.flatten s = tokens := by
  have hchain := h.chain
  rw [HuggingfaceBpe.output]
  split_ifs with hcard
  · have hall : s.merged = Finset.range s.pairs.length :=
      Finset.eq_of_subset_of_card_le h.inside (by rw [Finset.card_range, hcard])
    have hnil : unmerged s.merged 0 s.pairs.length = [] := by
      rw [List.eq_nil_iff_forall_not_mem]
      intro i hi
      obtain ⟨⟨-, hlt⟩, hmerged⟩ := mem_unmerged.1 hi
      exact hmerged (hall ▸ Finset.mem_range.2 hlt)
    rw [hnil] at hchain
    cases hchain
    simp
  · rw [flatMap_unmerged]
    cases hu : unmerged s.merged 0 s.pairs.length with
    | nil =>
      refine absurd ?_ hcard
      have : s.merged = Finset.range s.pairs.length := by
        refine Finset.Subset.antisymm h.inside fun i hi => ?_
        by_contra hmerged
        have hmem := mem_unmerged.2 ⟨⟨Nat.zero_le i, Finset.mem_range.1 hi⟩, hmerged⟩
        rw [hu] at hmem
        exact List.not_mem_nil hmem
      rw [this, Finset.card_range]
    | cons i v =>
      have hi := mem_unmerged.1 (hu ▸ List.mem_cons_self : i ∈ unmerged s.merged 0 s.pairs.length)
      have hsplit := unmerged_split hi.1.2 hi.2
      rw [hu] at hsplit hchain
      have hfirst : unmerged s.merged 0 i = [] := by
        rw [List.eq_nil_iff_forall_not_mem]
        intro j hj
        have hnodup := nodup_unmerged s.merged 0 s.pairs.length
        cases hbefore : unmerged s.merged 0 i with
        | nil => exact List.not_mem_nil (hbefore ▸ hj)
        | cons x w =>
          rw [hbefore] at hsplit
          obtain ⟨rfl, -⟩ := List.cons.inj hsplit
          have := mem_unmerged.1 (hbefore ▸ List.mem_cons_self : i ∈ unmerged s.merged 0 i)
          omega
      rw [hfirst] at hsplit
      obtain ⟨-, rfl⟩ := List.cons.inj hsplit
      have hleft : left s.merged i = none := by rw [left_eq, hfirst, List.getLast?_nil]
      have hrest : ∀ j ∈ unmerged s.merged (i + 1) s.pairs.length, left s.merged j ≠ none := by
        intro j hj hnone
        obtain ⟨⟨hij, -⟩, -⟩ := mem_unmerged.1 hj
        rw [left_eq, List.getLast?_eq_none_iff] at hnone
        have := mem_unmerged.2 ⟨⟨Nat.zero_le i, hij⟩, hi.2⟩
        rw [hnone] at this
        exact List.not_mem_nil this
      cases hchain with
      | @cons _ _ t t' tokens hget hchain =>
        have htail : (unmerged s.merged (i + 1) s.pairs.length).flatMap (fun j =>
            (if (left s.merged j).isNone then [(s.pairs.getD j ([], [])).1] else []) ++
              [(s.pairs.getD j ([], [])).2]) = tokens := by
          rw [← hchain.map_snd, List.map_eq_flatMap]
          refine List.flatMap_congr fun j hj => ?_
          rw [if_neg fun hnone => hrest j hj (Option.isNone_iff_eq_none.1 hnone), List.nil_append]
        rw [List.flatMap_cons, htail, hleft, List.getD_eq_getElem?_getD, hget]
        rfl

/-! ### The tokens of a word -/

theorem loop_more {ranks : BPERanks α} {fuel : ℕ} {s s' : State α}
    (h : HuggingfaceBpe.loop ranks fuel s = some s') (more : ℕ) :
    HuggingfaceBpe.loop ranks (fuel + more) s = some s' := by
  induction fuel generalizing s with
  | zero => cases h
  | succ fuel ih =>
    rw [Nat.succ_add]
    unfold HuggingfaceBpe.loop at h ⊢
    cases hchoice : toMerge ranks s with
    | none =>
      rw [hchoice] at h
      exact h
    | some i =>
      rw [hchoice] at h
      exact ih h

/-- The empty word has no pair and is its own token. -/
theorem bpe_nil (ranks : BPERanks α) (fuel : ℕ) : bpe ranks (fuel + 1) [] = some [[]] := rfl

theorem flatten_singletons (word : List α) : (word.map fun c => [c]).flatten = word := by
  induction word with
  | nil => rfl
  | cons c word ih => rw [List.map_cons, List.flatten_cons, ih, List.singleton_append]

end Mnn.HuggingfaceBpe
