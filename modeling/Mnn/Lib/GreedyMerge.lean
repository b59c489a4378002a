import Mathlib.Data.List.Basic
import Mathlib.Order.Basic
import Mathlib.Tactic

/-!
# Merging adjacent tokens greedily

Tokens are strings; two adjacent ones may have a key.  The procedure joins the pair of least key, the
leftmost of several, until no adjacent pair has one.

* `keys`, `IsBest`: the keys of adjacent pairs, and the pair that is joined next;
* `Merges`: the procedure; `Merges.unique`: **it has one result**;
* `Merges.flatten`: joining tokens changes no character.
-/

namespace Lib.GreedyMerge

variable {α K : Type*} (key : List α → List α → Option K)

/-- The keys of adjacent pairs, from the left. -/
def keys (tokens : List (List α)) : List K :=
  (tokens.zip tokens.tail).filterMap fun p => key p.1 p.2

@[simp] theorem keys_nil : keys key [] = [] := rfl
@[simp] theorem keys_singleton (a : List α) : keys key [a] = [] := rfl
@[simp] theorem keys_cons_cons (a b : List α) (r : List (List α)) :
    keys key (a :: b :: r) = (key a b).toList ++ keys key (b :: r) := by
  cases h : key a b <;> simp [keys, h]

theorem keys_append (l : List (List α)) (a b : List α) (r : List (List α)) :
    keys key (l ++ a :: b :: r) = keys key (l ++ [a]) ++ (key a b).toList ++ keys key (b :: r) := by
  induction l with
  | nil => simp
  | cons c l ih =>
    cases l with
    | nil => simp
    | cons d l =>
      simp only [List.cons_append] at ih ⊢
      rw [keys_cons_cons, keys_cons_cons, ih]
      simp only [List.append_assoc]

variable {key} in
theorem exists_of_mem_keys {tokens : List (List α)} {k : K} (h : k ∈ keys key tokens) :
    ∃ l a b r, tokens = l ++ a :: b :: r ∧ key a b = some k := by
  induction tokens with
  | nil => cases h
  | cons a tokens ih =>
    cases tokens with
    | nil => cases h
    | cons b r =>
      rw [keys_cons_cons, List.mem_append] at h
      rcases h with h | h
      · exact ⟨[], a, b, r, rfl, Option.mem_toList.1 h⟩
      · obtain ⟨l, x, y, r', heq, hkey⟩ := ih h
        exact ⟨a :: l, x, y, r', by rw [heq, List.cons_append], hkey⟩

variable [LinearOrder K]

/-- The pair of `a` and `b` between `l` and `r` is joined next. -/
structure IsBest (l : List (List α)) (a b : List α) (r : List (List α)) (k : K) : Prop where
  pair : key a b = some k
  left : ∀ k' ∈ keys key (l ++ [a]), k < k'
  right : ∀ k' ∈ keys key (b :: r), k ≤ k'

/-- The procedure, from some tokens to its result. -/
inductive Merges : List (List α) → List (List α) → Prop
  | stop {tokens : List (List α)} (h : keys key tokens = []) : Merges tokens tokens
  | step {l r out : List (List α)} {a b : List α} {k : K} (h : IsBest key l a b r k)
      (hrest : Merges (l ++ (a ++ b) :: r) out) : Merges (l ++ a :: b :: r) out

variable {key}

theorem IsBest.keys_ne_nil {l r : List (List α)} {a b : List α} {k : K} (h : IsBest key l a b r k) :
    keys key (l ++ a :: b :: r) ≠ [] := by
  rw [keys_append, h.pair]
  simp

/-- Of two best pairs neither is to the left of the other. -/
theorem IsBest.length_le {l l' r r' : List (List α)} {a b a' b' : List α} {k k' : K}
    (h : IsBest key l a b r k) (h' : IsBest key l' a' b' r' k')
    (heq : l ++ a :: b :: r = l' ++ a' :: b' :: r') : l'.length ≤ l.length := by
  by_contra hlt
  rw [not_le] at hlt
  -- the first pair is in what precedes the second one, and the other way round
  obtain ⟨m, hm⟩ : ∃ m, l' = l ++ a :: m := by
    obtain ⟨n, hn⟩ := Nat.exists_eq_add_of_lt hlt
    have htake := congrArg (List.take l'.length) heq
    rw [List.take_left, hn, Nat.add_assoc, List.take_length_add_append, List.take_succ_cons] at htake
    exact ⟨_, htake.symm⟩
  subst hm
  rw [List.append_assoc, List.append_cancel_left_eq, List.cons_append, List.cons.injEq] at heq
  obtain ⟨-, heq⟩ := heq
  have hleft : k' < k := by
    refine h'.left k ?_
    cases m with
    | nil =>
      obtain ⟨rfl, -⟩ := List.cons.inj heq
      rw [List.append_assoc, List.singleton_append, keys_append, h.pair]
      simp
    | cons c m =>
      obtain ⟨rfl, -⟩ := List.cons.inj heq
      rw [List.append_assoc, List.cons_append, List.cons_append, keys_append, h.pair]
      simp
  have hright : k ≤ k' := by
    refine h.right k' ?_
    rw [heq, keys_append, h'.pair]
    simp
  exact absurd hleft (not_lt.2 hright)

theorem IsBest.unique {l l' r r' : List (List α)} {a b a' b' : List α} {k k' : K}
    (h : IsBest key l a b r k) (h' : IsBest key l' a' b' r' k')
    (heq : l ++ a :: b :: r = l' ++ a' :: b' :: r') : l = l' ∧ a = a' ∧ b = b' ∧ r = r' := by
  have hlen := le_antisymm (h'.length_le h heq.symm) (h.length_le h' heq)
  obtain ⟨rfl, htail⟩ := List.append_inj heq hlen
  rw [List.cons.injEq, List.cons.injEq] at htail
  exact ⟨rfl, htail⟩

/-- **The procedure has at most one result.** -/
theorem Merges.unique {tokens out out' : List (List α)} (h : Merges key tokens out)
    (h' : Merges key tokens out') : out = out' := by
  induction h with
  | stop hnone =>
    cases h' with
    | stop => rfl
    | step hbest => exact absurd hnone hbest.keys_ne_nil
  | @step l r out a b k hbest hrest ih =>
    generalize htokens : l ++ a :: b :: r = start at h'
    cases h' with
    | stop hnone => exact absurd (htokens ▸ hnone) hbest.keys_ne_nil
    | step hbest' hrest' =>
      obtain ⟨rfl, rfl, rfl, rfl⟩ := hbest.unique hbest' htokens
      exact ih hrest'

/-- Joining tokens changes no character. -/
theorem Merges.flatten {tokens out : List (List α)} (h : Merges key tokens out) :
    out.flatten = tokens.flatten := by
  induction h with
  | stop => rfl
  | step _ _ ih => rw [ih]; simp

/-- What holds of a token whatever is joined to it holds of the result. -/
theorem Merges.forall_mem {P : List α → Prop} (hP : ∀ a b, P a → P (a ++ b))
    {tokens out : List (List α)} (h : Merges key tokens out) (ht : ∀ t ∈ tokens, P t) :
    ∀ t ∈ out, P t := by
  induction h with
  | stop => exact ht
  | @step l r out a b k _ _ ih =>
    refine ih fun t hmem => ?_
    rcases List.mem_append.1 hmem with hl | hr
    · exact ht t (List.mem_append_left _ hl)
    · rcases List.mem_cons.1 hr with rfl | hr
      · exact hP a b (ht a (List.mem_append_right l List.mem_cons_self))
      · exact ht t (List.mem_append_right l (List.mem_cons_of_mem a (List.mem_cons_of_mem b hr)))

end Lib.GreedyMerge
