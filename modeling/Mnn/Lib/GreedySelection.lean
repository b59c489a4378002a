import Mathlib.Data.Multiset.AddSub
import Mathlib.Data.List.Nodup
import Mathlib.Order.Defs.Unbundled
import Mathlib.Tactic

/-!
# Greedy selection

Candidates are taken best first: one is selected when fewer than `limit` were selected before it and
it conflicts with none of them.

* `IsSelection`: the list of the selected, best first;
* `Selecting`: the candidates of `rest` are still to be looked at; `Selecting.reject` and
  `Selecting.take` look at the best of them, `Selecting.isSelection` ends.
-/

namespace Lib

section Selection

variable {α : Type} (before : α → α → Prop) [DecidableRel before] (conflict : α → α → Prop)
variable (cand : α → Prop) (limit : ℤ)

/-- What lets `a` be selected when the selected are `l`. -/
def Admits (l : List α) (a : α) : Prop :=
  (l.countP (before · a) : ℤ) < limit ∧ ∀ b ∈ l, before b a → ¬ conflict a b

/-- `l` are the greedily selected candidates, best first. -/
structure IsSelection (l : List α) : Prop where
  sorted : l.Pairwise before
  mem_iff : ∀ a, a ∈ l ↔ cand a ∧ Admits before conflict limit l a

/-- `l` are the selected ones of the candidates outside `rest`, and those of `rest` come after. -/
structure Selecting (rest : Multiset α) (l : List α) : Prop where
  sorted : l.Pairwise before
  rest_cand : ∀ a ∈ rest, cand a
  before_rest : ∀ b, cand b → b ∉ rest → ∀ a ∈ rest, before b a
  mem_iff : ∀ a, a ∈ l ↔ (cand a ∧ a ∉ rest) ∧ Admits before conflict limit l a

variable {before conflict cand limit}

namespace IsSelection

variable {l l' : List α}

/-- A bound that more than the number of better selected ones adds nothing. -/
theorem of_min {n : ℤ} (h : IsSelection before conflict cand (min limit n) l)
    (hcount : ∀ a, cand a → (l.countP (before · a) : ℤ) < n) :
    IsSelection before conflict cand limit l := by
  refine ⟨h.sorted, fun a => ?_⟩
  rw [h.mem_iff a]
  simp only [Admits, lt_min_iff]
  constructor
  · rintro ⟨ha, ⟨hlt, -⟩, hfree⟩
    exact ⟨ha, hlt, hfree⟩
  · rintro ⟨ha, hlt, hfree⟩
    exact ⟨ha, ⟨hlt, hcount a ha⟩, hfree⟩

/-- Without candidates no bound matters. -/
theorem of_not_cand {n : ℤ} (h : IsSelection before conflict cand n l) (hnone : ∀ a, ¬ cand a) :
    IsSelection before conflict cand limit l :=
  ⟨h.sorted, fun a =>
    iff_of_false (fun ha => hnone a ((h.mem_iff a).1 ha).1) fun ha => hnone a ha.1⟩

theorem eq_nil (h : IsSelection before conflict cand limit l) (hlimit : limit ≤ 0) : l = [] := by
  refine List.eq_nil_iff_forall_not_mem.2 fun a ha => ?_
  have hcount := ((h.mem_iff a).1 ha).2.1
  omega

/-- Where something can be selected, something is. -/
theorem ne_nil (h : IsSelection before conflict cand limit l) (hlimit : 0 < limit) {a : α}
    (ha : cand a) : l ≠ [] := by
  rintro rfl
  have hmem := (h.mem_iff a).2 ⟨ha, by simpa [Admits] using hlimit⟩
  exact absurd hmem List.not_mem_nil

variable [IsStrictOrder α before]

theorem nodup (h : IsSelection before conflict cand limit l) : l.Nodup :=
  h.sorted.imp fun hab => by
    rintro rfl
    exact irrefl_of before _ hab

end IsSelection

/-! ### One candidate after another -/

namespace Selecting

variable {rest : Multiset α} {l : List α} {a : α}

theorem start (hrest : ∀ a, a ∈ rest ↔ cand a) : Selecting before conflict cand limit rest [] where
  sorted := .nil
  rest_cand := fun a => (hrest a).1
  before_rest := fun b hb hout => absurd ((hrest b).2 hb) hout
  mem_iff := fun a => by
    rw [hrest a]
    exact iff_of_false List.not_mem_nil fun h => h.1.2 h.1.1

/-- Nothing is left, or no more is wanted. -/
theorem isSelection (h : Selecting before conflict cand limit rest l)
    (hend : rest = 0 ∨ limit ≤ l.length) : IsSelection before conflict cand limit l := by
  refine ⟨h.sorted, fun a => ?_⟩
  rw [h.mem_iff a]
  by_cases ha : a ∈ rest
  · have hfull : limit ≤ l.length := hend.resolve_left fun h0 => by simp [h0] at ha
    refine iff_of_false (fun h' => h'.1.2 ha) fun h' => ?_
    have hall : l.countP (before · a) = l.length := by
      refine List.countP_eq_length.2 fun b hb => decide_eq_true ?_
      obtain ⟨⟨hcand, hout⟩, -⟩ := (h.mem_iff b).1 hb
      exact h.before_rest b hcand hout a ha
    have hlt := h'.2.1
    omega
  · simp only [ha, not_false_eq_true, and_true]

/-- The looked-at ones are before the rest, without the best of these too. -/
theorem before_of_cons (h : Selecting before conflict cand limit (a ::ₘ rest) l)
    (hbest : ∀ b ∈ rest, before a b) {b : α} (hb : cand b) (hout : b ∉ rest) :
    ∀ c ∈ rest, before b c := by
  intro c hc
  by_cases hba : b = a
  · exact hba ▸ hbest c hc
  · refine h.before_rest b hb ?_ c (Multiset.mem_cons_of_mem hc)
    rw [Multiset.mem_cons, not_or]
    exact ⟨hba, hout⟩

/-- A candidate with a conflict is passed over. -/
theorem reject (h : Selecting before conflict cand limit (a ::ₘ rest) l)
    (hbest : ∀ b ∈ rest, before a b) (hconflict : ∃ b ∈ l, conflict a b) :
    Selecting before conflict cand limit rest l where
  sorted := h.sorted
  rest_cand := fun b hb => h.rest_cand b (Multiset.mem_cons_of_mem hb)
  before_rest := fun b hb hout => h.before_of_cons hbest hb hout
  mem_iff := fun x => by
    rw [h.mem_iff x, Multiset.mem_cons, not_or]
    by_cases hxa : x = a
    · subst hxa
      obtain ⟨b, hb, hconf⟩ := hconflict
      obtain ⟨⟨hcand, hout⟩, -⟩ := (h.mem_iff b).1 hb
      have hbx : before b x := h.before_rest b hcand hout x (Multiset.mem_cons_self x rest)
      exact iff_of_false (fun h' => h'.1.2.1 rfl) fun h' => h'.2.2 b hb hbx hconf
    · simp only [hxa, not_false_eq_true, true_and]

variable [IsStrictOrder α before]

theorem not_before_of_cons (h : Selecting before conflict cand limit (a ::ₘ rest) l) {x : α}
    (hx : cand x) (hxa : x ≠ a) (hout : x ∉ rest) : ¬ before a x := by
  refine asymm_of before (h.before_rest x hx ?_ a (Multiset.mem_cons_self a rest))
  rw [Multiset.mem_cons, not_or]
  exact ⟨hxa, hout⟩

/-- A candidate with no conflict is selected. -/
theorem take (h : Selecting before conflict cand limit (a ::ₘ rest) l)
    (hbest : ∀ b ∈ rest, before a b) (hroom : (l.length : ℤ) < limit)
    (hfree : ∀ b ∈ l, ¬ conflict a b) :
    Selecting before conflict cand limit rest (l ++ [a]) where
  sorted := by
    refine List.pairwise_append.2 ⟨h.sorted, List.pairwise_singleton _ _, fun b hb c hc => ?_⟩
    obtain rfl := List.mem_singleton.1 hc
    obtain ⟨⟨hcand, hout⟩, -⟩ := (h.mem_iff b).1 hb
    exact h.before_rest b hcand hout c (Multiset.mem_cons_self c rest)
  rest_cand := fun b hb => h.rest_cand b (Multiset.mem_cons_of_mem hb)
  before_rest := fun b hb hout => h.before_of_cons hbest hb hout
  mem_iff := fun x => by
    have ha : cand a := h.rest_cand a (Multiset.mem_cons_self a rest)
    have hself : ¬ before a a := irrefl_of before a
    by_cases hxa : x = a
    · subst hxa
      have hout : x ∉ rest := fun hx => hself (hbest x hx)
      refine iff_of_true (List.mem_append_right l (List.mem_singleton_self x)) ⟨⟨ha, hout⟩, ?_, ?_⟩
      · have hle := List.countP_le_length (p := (before · x)) (l := l)
        rw [List.countP_append, List.countP_singleton, if_neg (by simpa using hself)]
        omega
      · intro b hb hbx
        rcases List.mem_append.1 hb with hb | hb
        · exact hfree b hb
        · obtain rfl := List.mem_singleton.1 hb
          exact absurd hbx hself
    · -- the new one is not before any that was looked at
      have hold : x ∈ l ++ [a] ↔ x ∈ l := by simp [hxa]
      rw [hold, h.mem_iff x, Multiset.mem_cons, not_or]
      simp only [hxa, not_false_eq_true, true_and]
      refine and_congr_right fun ⟨hx, hout⟩ => ?_
      have hax : ¬ before a x := h.not_before_of_cons hx hxa hout
      rw [Admits, Admits, List.countP_append, List.countP_singleton,
        if_neg (by simpa using hax), Nat.add_zero]
      refine and_congr_right fun _ => ?_
      rw [List.forall_mem_append]
      simp [hax]

end Selecting

end Selection

end Lib
