import Mathlib.Tactic
import Mathlib.Data.List.Infix

/-!
# Longest prefixes and greedy segmentation

For a set `V` of words over any alphabet, `IsLongestPrefix V s e` says that `e` is the longest word
of `V` that begins `s`, and `Boundary V s r` that cutting `s` greedily into such words arrives at
the suffix `r`.

* a longest prefix is unique, and exists as soon as some word of `V` begins `s`;
* `boundary_iff` unfolds `Boundary` at its first cut, which is how a greedy loop meets it.
-/

namespace Lib

variable {α : Type*}

/-- `e` is the longest word of `V` that begins `s`. -/
def IsLongestPrefix (V : Set (List α)) (s e : List α) : Prop :=
  e ∈ V ∧ e <+: s ∧ ∀ e' ∈ V, e' <+: s → e'.length ≤ e.length

theorem IsLongestPrefix.unique {V : Set (List α)} {s e f : List α} (he : IsLongestPrefix V s e)
    (hf : IsLongestPrefix V s f) : e = f := by
  have hlen : e.length = f.length :=
    le_antisymm (hf.2.2 e he.1 he.2.1) (he.2.2 f hf.1 hf.2.1)
  exact (List.prefix_of_prefix_length_le he.2.1 hf.2.1 hlen.le).eq_of_length hlen

theorem exists_isLongestPrefix {V : Set (List α)} {s : List α} (h : ∃ e ∈ V, e <+: s) :
    ∃ e, IsLongestPrefix V s e := by
  classical
  obtain ⟨e₀, he₀, hp₀⟩ := h
  let P : ℕ → Prop := fun n => ∃ e ∈ V, e <+: s ∧ e.length = n
  have hP : ∃ n ≤ s.length, P n := ⟨e₀.length, hp₀.length_le, e₀, he₀, hp₀, rfl⟩
  obtain ⟨n, hn, hPn⟩ := hP
  obtain ⟨e, he, hp, hlen⟩ := Nat.findGreatest_spec (P := P) hn hPn
  refine ⟨e, he, hp, fun e' he' hp' => ?_⟩
  rw [hlen]
  exact Nat.le_findGreatest hp'.length_le ⟨e', he', hp', rfl⟩

/-- The suffixes of `s` at which the greedy segmentation of `s` into words of `V` starts a search. -/
inductive Boundary (V : Set (List α)) (s : List α) : List α → Prop
  | start : Boundary V s s
  | next {r e : List α} : Boundary V s r → r ≠ [] → IsLongestPrefix V r e →
      Boundary V s (r.drop e.length)

theorem Boundary.trans {V : Set (List α)} {s t r : List α} (hst : Boundary V s t)
    (htr : Boundary V t r) : Boundary V s r := by
  induction htr with
  | start => exact hst
  | next _ hne he ih => exact ih.next hne he

/-- The first cut of a greedy segmentation. -/
theorem boundary_iff {V : Set (List α)} {s r : List α} :
    Boundary V s r ↔
      r = s ∨ s ≠ [] ∧ ∃ e, IsLongestPrefix V s e ∧ Boundary V (s.drop e.length) r := by
  constructor
  · intro h
    induction h with
    | start => exact .inl rfl
    | next hr hne he ih =>
      rcases ih with rfl | ⟨hs, f, hf, hb⟩
      · exact .inr ⟨hne, _, he, .start⟩
      · exact .inr ⟨hs, f, hf, hb.next hne he⟩
  · rintro (rfl | ⟨hs, e, he, hb⟩)
    · exact .start
    · exact (Boundary.start.next hs he).trans hb

theorem Boundary.isSuffix {V : Set (List α)} {s r : List α} (h : Boundary V s r) : r <:+ s := by
  induction h with
  | start => exact List.suffix_refl _
  | next _ _ _ ih => exact (List.drop_suffix _ _).trans ih

end Lib
