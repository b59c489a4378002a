import Mathlib.Data.List.Basic

/-!
# Runs of a state machine

* `Machine σ α`: which actions a state admits and where each leads;
* `Run M s as t`: the actions `as`, each admitted where it is taken, lead from `s` to `t`;
* `Run.invariant`: what every admitted step preserves, every run preserves;
* `Run.append_iff`: a run passes through the state between its two halves;
* `Run.eq_foldl`, `decidableRun`: runs can be computed;
* `loop`, `Along`: a loop for at most some number of passes, and what holds wherever it passes;
* `loop_isSome`, `loop_invariant`: **the rules of loops**: a measure, and an invariant.
-/

namespace Lib

variable {σ α : Type*}

/-- A deterministic state machine: the actions a state admits, and the state each leads to. -/
structure Machine (σ α : Type*) where
  Allowed : σ → α → Prop
  step : σ → α → σ

/-- `as` leads from the first state to the second, every action being admitted. -/
inductive Run (M : Machine σ α) : σ → List α → σ → Prop
  | nil (s : σ) : Run M s [] s
  | cons {s t : σ} {a : α} {as : List α} (ha : M.Allowed s a) (has : Run M (M.step s a) as t) :
      Run M s (a :: as) t

variable {M : Machine σ α} {s t : σ} {as bs : List α}

/-- **The invariant rule.** -/
theorem Run.invariant {I : σ → Prop} (hI : ∀ s a, I s → M.Allowed s a → I (M.step s a))
    (h : Run M s as t) (hs : I s) : I t := by
  induction h with
  | nil => exact hs
  | cons ha _ ih => exact ih (hI _ _ hs ha)

theorem Run.append_iff : Run M s (as ++ bs) t ↔ ∃ m, Run M s as m ∧ Run M m bs t := by
  induction as generalizing s with
  | nil =>
    constructor
    · intro h
      exact ⟨s, .nil s, h⟩
    · rintro ⟨m, hm, h⟩
      cases hm
      exact h
  | cons a as ih =>
    constructor
    · intro h
      cases h with
      | cons ha has =>
        obtain ⟨m, hm, ht⟩ := ih.1 has
        exact ⟨m, .cons ha hm, ht⟩
    · rintro ⟨m, hm, ht⟩
      cases hm with
      | cons ha has => exact .cons ha (ih.2 ⟨m, has, ht⟩)

/-- The actions determine where a run leads. -/
theorem Run.eq_foldl (h : Run M s as t) : t = as.foldl M.step s := by
  induction h with
  | nil => rfl
  | cons _ _ ih => exact ih

theorem run_cons_iff {a : α} : Run M s (a :: as) t ↔ M.Allowed s a ∧ Run M (M.step s a) as t :=
  ⟨fun h => by cases h with | cons ha has => exact ⟨ha, has⟩, fun h => .cons h.1 h.2⟩

instance decidableRun [∀ s a, Decidable (M.Allowed s a)] :
    ∀ (as : List α) (s : σ), Decidable (Run M s as (as.foldl M.step s))
  | [], s => isTrue (.nil s)
  | a :: as, s =>
    have := decidableRun as (M.step s a)
    decidable_of_iff (M.Allowed s a ∧ Run M (M.step s a) as (as.foldl M.step (M.step s a)))
      run_cons_iff.symm

section Loop

variable (done : σ → Bool) (step : σ → σ)

/-- The loop, for at most `fuel` passes. -/
def loop : ℕ → σ → Option σ
  | 0, s => if done s then some s else none
  | fuel + 1, s => if done s then some s else loop fuel (step s)

/-- `P` holds wherever the loop passes. -/
def Along (P : σ → Prop) : ℕ → σ → Prop
  | 0, _ => True
  | fuel + 1, s => done s = false → P s ∧ Along P fuel (step s)

instance decidableAlong (P : σ → Prop) [DecidablePred P] :
    ∀ fuel s, Decidable (Along done step P fuel s)
  | 0, _ => isTrue trivial
  | fuel + 1, s =>
    have := decidableAlong P fuel (step s)
    inferInstanceAs (Decidable (done s = false → P s ∧ Along done step P fuel (step s)))

variable {done step}

/-- A measure that falls bounds the number of passes. -/
theorem loop_isSome (μ : σ → ℕ) (hμ : ∀ s, done s = false → μ (step s) < μ s) {fuel : ℕ} {s : σ}
    (hfuel : μ s ≤ fuel) : ∃ t, loop done step fuel s = some t := by
  induction fuel generalizing s with
  | zero =>
    cases hdone : done s with
    | true => exact ⟨s, by rw [loop, hdone, if_pos rfl]⟩
    | false => exact absurd (hμ s hdone) (by omega)
  | succ fuel ih =>
    cases hdone : done s with
    | true => exact ⟨s, by rw [loop, hdone, if_pos rfl]⟩
    | false =>
      have hlt := hμ s hdone
      obtain ⟨t, ht⟩ := ih (s := step s) (by omega)
      exact ⟨t, by rw [loop, hdone, if_neg Bool.false_ne_true, ht]⟩

/-- The invariant rule of a loop. -/
theorem loop_invariant {I P : σ → Prop} (hI : ∀ s, I s → done s = false → P s → I (step s))
    {fuel : ℕ} {s t : σ} (hs : I s) (hP : Along done step P fuel s)
    (h : loop done step fuel s = some t) : I t ∧ done t = true := by
  induction fuel generalizing s with
  | zero =>
    rw [loop] at h
    cases hdone : done s with
    | true =>
      rw [hdone, if_pos rfl] at h
      exact Option.some.inj h ▸ ⟨hs, hdone⟩
    | false =>
      rw [hdone, if_neg Bool.false_ne_true] at h
      cases h
  | succ fuel ih =>
    rw [loop] at h
    cases hdone : done s with
    | true =>
      rw [hdone, if_pos rfl] at h
      exact Option.some.inj h ▸ ⟨hs, hdone⟩
    | false =>
      rw [hdone, if_neg Bool.false_ne_true] at h
      obtain ⟨hPs, hP⟩ := hP hdone
      exact ih (hI s hs hdone hPs) hP h

end Loop

end Lib
