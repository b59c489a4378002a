import Mathlib.Tactic

/-!
# Replacing a pattern in a list

* `find pat t`: where the first occurrence begins; `replaceAll pat x t`: every occurrence, from the
  left, replaced by `x`;
* `eq_of_find`, `replaceAll_of_find`: a list and its replacement around the first occurrence;
* `exists_last`: both around the last occurrence;
* `find_replaceAll`: **no occurrence is left**;
* `replaceAll_append`: the replacement part by part, when no occurrence lies across.
-/

namespace Lib.Replace

variable {α : Type*} [DecidableEq α] (pat : List α) (x : α)

def find : List α → Option ℕ
  | [] => none
  | b :: t => if pat <+: b :: t then some 0 else (find t).map (· + 1)

/-- An empty pattern has no occurrence. -/
def replaceAll : List α → List α
  | [] => []
  | b :: t =>
    if pat ≠ [] ∧ pat <+: b :: t then x :: replaceAll (t.drop (pat.length - 1))
    else b :: replaceAll t
  termination_by t => t.length
  decreasing_by
    · rw [List.length_drop, List.length_cons]
      omega
    · exact Nat.lt_succ_self _

variable {pat x} {t u w : List α} {b : α} {k : ℕ}

theorem replaceAll_nil : replaceAll pat x [] = [] := by rw [replaceAll]

theorem replaceAll_cons_of_not (h : ¬ pat <+: b :: t) :
    replaceAll pat x (b :: t) = b :: replaceAll pat x t := by
  rw [replaceAll, if_neg fun h' => h h'.2]

theorem replaceAll_pat (hne : pat ≠ []) (t : List α) :
    replaceAll pat x (pat ++ t) = x :: replaceAll pat x t := by
  cases pat with
  | nil => exact absurd rfl hne
  | cons c q =>
    rw [List.cons_append, replaceAll, if_pos ⟨hne, List.prefix_append (c :: q) t⟩,
      List.length_cons, Nat.add_sub_cancel, List.drop_left]

theorem find_cons_of_not (h : ¬ pat <+: b :: t) : find pat (b :: t) = (find pat t).map (· + 1) :=
  if_neg h

theorem find_pat (hne : pat ≠ []) (t : List α) : find pat (pat ++ t) = some 0 := by
  cases pat with
  | nil => exact absurd rfl hne
  | cons c q => exact if_pos (List.prefix_append (c :: q) t)

/-- An occurrence is found, or one before it. -/
theorem find_append_pat_ne_none (hne : pat ≠ []) (u w : List α) :
    find pat (u ++ (pat ++ w)) ≠ none := by
  induction u with
  | nil =>
    rw [List.nil_append, find_pat hne]
    exact Option.some_ne_none 0
  | cons b u ih =>
    rw [List.cons_append, find]
    split_ifs
    · exact Option.some_ne_none 0
    · exact mt Option.map_eq_none_iff.1 ih

theorem add_length_le_of_find (h : find pat t = some k) : k + pat.length ≤ t.length := by
  induction t generalizing k with
  | nil => cases h
  | cons b t ih =>
    rw [find] at h
    split_ifs at h with hprefix
    · obtain rfl := Option.some.inj h
      rw [Nat.zero_add]
      exact hprefix.length_le
    · obtain ⟨k, hk, rfl⟩ := Option.map_eq_some_iff.1 h
      rw [List.length_cons, Nat.add_right_comm]
      exact Nat.succ_le_succ (ih hk)

/-- The list around the first occurrence. -/
theorem eq_of_find (h : find pat t = some k) :
    t = t.take k ++ (pat ++ t.drop (k + pat.length)) := by
  induction t generalizing k with
  | nil => cases h
  | cons b t ih =>
    rw [find] at h
    split_ifs at h with hprefix
    · obtain rfl := Option.some.inj h
      rw [List.take_zero, List.nil_append, Nat.zero_add]
      exact (List.prefix_iff_eq_append.1 hprefix).symm
    · obtain ⟨k, hk, rfl⟩ := Option.map_eq_some_iff.1 h
      rw [List.take_succ_cons, Nat.add_right_comm, List.drop_succ_cons, List.cons_append, ← ih hk]

/-- Its replacement. -/
theorem replaceAll_of_find (hne : pat ≠ []) (h : find pat t = some k) :
    replaceAll pat x t = t.take k ++ x :: replaceAll pat x (t.drop (k + pat.length)) := by
  induction t generalizing k with
  | nil => cases h
  | cons b t ih =>
    by_cases hprefix : pat <+: b :: t
    · rw [find, if_pos hprefix] at h
      obtain rfl := Option.some.inj h
      conv_lhs => rw [← List.prefix_iff_eq_append.1 hprefix]
      rw [replaceAll_pat hne, Nat.zero_add, List.take_zero, List.nil_append]
    · rw [find_cons_of_not hprefix] at h
      obtain ⟨k, hk, rfl⟩ := Option.map_eq_some_iff.1 h
      rw [replaceAll_cons_of_not hprefix, ih hk, List.take_succ_cons, Nat.add_right_comm,
        List.drop_succ_cons, List.cons_append]

theorem replaceAll_of_none (h : find pat t = none) : replaceAll pat x t = t := by
  induction t with
  | nil => exact replaceAll_nil
  | cons b t ih =>
    by_cases hprefix : pat <+: b :: t
    · rw [find, if_pos hprefix] at h
      cases h
    · rw [find_cons_of_not hprefix, Option.map_eq_none_iff] at h
      rw [replaceAll_cons_of_not hprefix, ih h]

/-- **Around the last occurrence.** -/
theorem exists_last (hne : pat ≠ []) (h : find pat t ≠ none) :
    ∃ u v w, t = u ++ (pat ++ w) ∧ replaceAll pat x t = v ++ x :: w := by
  induction hn : t.length using Nat.strong_induction_on generalizing t with
  | _ n ih =>
    obtain ⟨k, hk⟩ := Option.ne_none_iff_exists'.1 h
    have ht := eq_of_find hk
    have hr := replaceAll_of_find (x := x) hne hk
    generalize t.drop (k + pat.length) = rest at ht hr
    by_cases hrest : find pat rest = none
    · exact ⟨_, _, _, ht, by rw [hr, replaceAll_of_none hrest]⟩
    · have hlt : rest.length < n := by
        have hpos := List.length_pos_iff.2 hne
        have hlen := congrArg List.length ht
        simp only [List.length_append] at hlen
        omega
      obtain ⟨u, v, w, hu, hv⟩ := ih _ hlt hrest rfl
      refine ⟨t.take k ++ (pat ++ u), t.take k ++ x :: v, w, ?_, ?_⟩
      · rw [hu] at ht
        conv_lhs => rw [ht]
        simp only [List.append_assoc]
      · rw [hr, hv, List.append_assoc, List.cons_append]

/-- What begins the replacement begins the list, without the new element. -/
theorem prefix_of_prefix_replaceAll (h : u <+: replaceAll pat x t) (hx : x ∉ u) : u <+: t := by
  induction u generalizing t with
  | nil => exact List.nil_prefix
  | cons c u ih =>
    cases t with
    | nil =>
      rw [replaceAll_nil] at h
      exact h
    | cons b t =>
      rw [replaceAll] at h
      split_ifs at h
      · obtain ⟨rfl, -⟩ := List.cons_prefix_cons.1 h
        exact absurd List.mem_cons_self hx
      · obtain ⟨rfl, hrest⟩ := List.cons_prefix_cons.1 h
        exact List.cons_prefix_cons.2 ⟨rfl, ih hrest fun hmem => hx (List.mem_cons_of_mem c hmem)⟩

/-- **No occurrence is left.** -/
theorem find_replaceAll (hne : pat ≠ []) (hx : x ∉ pat) (t : List α) :
    find pat (replaceAll pat x t) = none := by
  fun_induction replaceAll pat x t with
  | case1 => rfl
  | case2 b t h ih =>
    rw [find_cons_of_not, ih, Option.map_none]
    intro hprefix
    cases pat with
    | nil => exact hne rfl
    | cons c q =>
      obtain ⟨rfl, -⟩ := List.cons_prefix_cons.1 hprefix
      exact hx List.mem_cons_self
  | case3 b t h ih =>
    rw [find_cons_of_not, ih, Option.map_none]
    intro hprefix
    cases pat with
    | nil => exact hne rfl
    | cons c q =>
      obtain ⟨rfl, hq⟩ := List.cons_prefix_cons.1 hprefix
      have hq' := prefix_of_prefix_replaceAll hq fun hmem => hx (List.mem_cons_of_mem c hmem)
      exact h ⟨hne, List.cons_prefix_cons.2 ⟨rfl, hq'⟩⟩

/-- **Part by part.** -/
theorem replaceAll_append (u w : List α)
    (h : ∀ p q, p ≠ [] → q ≠ [] → pat = p ++ q → p <:+ u → ¬ q <+: w) :
    replaceAll pat x (u ++ w) = replaceAll pat x u ++ replaceAll pat x w := by
  fun_induction replaceAll pat x u with
  | case1 => rfl
  | case2 b t hpat ih =>
    obtain ⟨hne, hprefix⟩ := hpat
    have hle : pat.length - 1 ≤ t.length := by
      have hlen := hprefix.length_le
      rw [List.length_cons] at hlen
      omega
    rw [List.cons_append, replaceAll, if_pos ⟨hne, hprefix.trans (List.prefix_append (b :: t) w)⟩,
      List.drop_append_of_le_length hle, ih fun p q hp hq heq hsuffix =>
        h p q hp hq heq ((hsuffix.trans (List.drop_suffix _ t)).trans (List.suffix_cons b t)),
      List.cons_append]
  | case3 b t hpat ih =>
    have hnot : ¬ (pat ≠ [] ∧ pat <+: b :: (t ++ w)) := by
      rintro ⟨hne, hprefix⟩
      rcases List.prefix_or_prefix_of_prefix hprefix (List.prefix_append (b :: t) w) with
        hshort | ⟨q, rfl⟩
      · exact hpat ⟨hne, hshort⟩
      · refine h (b :: t) q (List.cons_ne_nil b t) ?_ rfl List.suffix_rfl
          ((List.prefix_append_right_inj (b :: t)).1 hprefix)
        rintro rfl
        exact hpat ⟨hne, by rw [List.append_nil]⟩
    rw [List.cons_append, replaceAll, if_neg hnot, ih fun p q hp hq heq hsuffix =>
      h p q hp hq heq (hsuffix.trans (List.suffix_cons b t)), List.cons_append]

end Lib.Replace
