import Mathlib.Algebra.Order.Group.Nat
import Mathlib.Data.Finset.Card
import Mathlib.Data.Finset.Range

/-!
# Loops that run until nothing changes

A round visits items one after the other; a visit may change the state, and says whether it did.
Rounds are repeated until one of them changes nothing.

* `sweep`, `saturate`: the loops, the second with a bound for the number of its rounds;
* `sweep_inv`, `saturate_inv`: what every visit preserves;
* `sweep_of_unchanged`: a round that changes nothing was one of visits that change nothing;
* `pending`, `pending_lt`: such a number, where a visit marks an item for good;
* `saturate_spec`: **a number that falls with every change bounds the rounds, and at the end no
  visit changes anything**.
-/

namespace Lib.Saturate

variable {σ ι : Type*} (visit : σ → ι → σ × Bool)

/-- The items in turn; whether any visit changed the state. -/
def sweep : List ι → σ → σ × Bool
  | [], s => (s, false)
  | i :: items, s =>
    let (s, changed) := visit s i
    let (s, changed') := sweep items s
    (s, changed || changed')

/-- Rounds until nothing changes, `none` when there are not enough. -/
def saturate (items : List ι) : ℕ → σ → Option σ
  | 0, _ => none
  | fuel + 1, s =>
    let (s, changed) := sweep visit items s
    if changed then saturate items fuel s else some s

variable {visit} {items : List ι}

theorem sweep_cons (i : ι) (s : σ) :
    sweep visit (i :: items) s = ((sweep visit items (visit s i).1).1,
      ((visit s i).2 || (sweep visit items (visit s i).1).2)) := rfl

theorem sweep_inv {P : σ → Prop} (h : ∀ s, ∀ i ∈ items, P s → P (visit s i).1) {s : σ} (hs : P s) :
    P (sweep visit items s).1 := by
  induction items generalizing s with
  | nil => exact hs
  | cons i items ih =>
    rw [sweep_cons]
    exact ih (fun s j hj => h s j (List.mem_cons_of_mem i hj)) (h s i List.mem_cons_self hs)

/-- A visit that says so leaves the state alone. -/
def Honest (visit : σ → ι → σ × Bool) (items : List ι) : Prop :=
  ∀ s, ∀ i ∈ items, (visit s i).2 = false → (visit s i).1 = s

theorem sweep_of_unchanged (hvisit : Honest visit items) {s : σ}
    (h : (sweep visit items s).2 = false) :
    (sweep visit items s).1 = s ∧ ∀ i ∈ items, visit s i = (s, false) := by
  induction items with
  | nil => exact ⟨rfl, fun i hi => absurd hi List.not_mem_nil⟩
  | cons i items ih =>
    rw [sweep_cons, Bool.or_eq_false_iff] at h
    have hs := hvisit s i List.mem_cons_self h.1
    rw [hs] at h
    obtain ⟨hsweep, hitems⟩ := ih (fun s j hj => hvisit s j (List.mem_cons_of_mem i hj)) h.2
    refine ⟨by rw [sweep_cons, hs]; exact hsweep, fun j hj => ?_⟩
    rcases List.mem_cons.1 hj with rfl | hj
    · exact Prod.ext hs h.1
    · exact hitems j hj

/-- What the number does in a round: it falls when something changes, and never grows. -/
theorem sweep_measure (hvisit : Honest visit items) {P : σ → Prop} {μ : σ → ℕ}
    (hP : ∀ s, ∀ i ∈ items, P s → P (visit s i).1)
    (hμ : ∀ s, ∀ i ∈ items, P s → (visit s i).2 = true → μ (visit s i).1 < μ s) {s : σ} (hs : P s) :
    μ (sweep visit items s).1 ≤ μ s ∧
      ((sweep visit items s).2 = true → μ (sweep visit items s).1 < μ s) := by
  induction items generalizing s with
  | nil => exact ⟨le_rfl, fun h => absurd h Bool.false_ne_true⟩
  | cons i items ih =>
    obtain ⟨hle, hlt⟩ := ih (fun s j hj => hvisit s j (List.mem_cons_of_mem i hj))
      (fun s j hj => hP s j (List.mem_cons_of_mem i hj))
      (fun s j hj => hμ s j (List.mem_cons_of_mem i hj)) (hP s i List.mem_cons_self hs)
    rw [sweep_cons]
    cases hchanged : (visit s i).2 with
    | false =>
      rw [hvisit s i List.mem_cons_self hchanged] at hle hlt ⊢
      exact ⟨hle, fun h => hlt h⟩
    | true =>
      have hfall := hle.trans_lt (hμ s i List.mem_cons_self hs hchanged)
      exact ⟨hfall.le, fun _ => hfall⟩

/-- **Saturation.** -/
theorem saturate_spec (hvisit : Honest visit items) (P : σ → Prop) (μ : σ → ℕ)
    (hP : ∀ s, ∀ i ∈ items, P s → P (visit s i).1)
    (hμ : ∀ s, ∀ i ∈ items, P s → (visit s i).2 = true → μ (visit s i).1 < μ s) {fuel : ℕ} {s : σ}
    (hs : P s) (hfuel : μ s < fuel) :
    ∃ s', saturate visit items fuel s = some s' ∧ P s' ∧
      ∀ i ∈ items, visit s' i = (s', false) := by
  induction fuel generalizing s with
  | zero => exact absurd hfuel (Nat.not_lt_zero _)
  | succ fuel ih =>
    have hsweep := sweep_inv hP hs
    obtain ⟨-, hlt⟩ := sweep_measure hvisit hP hμ hs
    rw [saturate]
    by_cases hchanged : (sweep visit items s).2 = true
    · obtain ⟨s', hsat, hs', hdone⟩ := ih hsweep (by have := hlt hchanged; omega)
      exact ⟨s', (if_pos hchanged).trans hsat, hs', hdone⟩
    · obtain ⟨hsame, hdone⟩ := sweep_of_unchanged hvisit (Bool.eq_false_iff.2 hchanged)
      refine ⟨_, if_neg hchanged, hsweep, ?_⟩
      show ∀ i ∈ items, visit (sweep visit items s).1 i = ((sweep visit items s).1, false)
      rw [hsame]
      exact hdone

/-! ### Marks -/

/-- How many of the first `n` numbers are not marked. -/
def pending (n : ℕ) (marked : ℕ → Prop) [DecidablePred marked] : ℕ :=
  ((Finset.range n).filter fun k => ¬ marked k).card

theorem pending_le (n : ℕ) (marked : ℕ → Prop) [DecidablePred marked] : pending n marked ≤ n :=
  (Finset.card_filter_le _ _).trans_eq (Finset.card_range n)

theorem pending_lt {n k : ℕ} {marked marked' : ℕ → Prop} [DecidablePred marked]
    [DecidablePred marked'] (hk : k < n) (h : ∀ j, marked j → marked' j) (hold : ¬ marked k)
    (hnew : marked' k) : pending n marked' < pending n marked := by
  refine Finset.card_lt_card (Finset.ssubset_iff_of_subset ?_ |>.2 ⟨k, ?_, ?_⟩)
  · exact Finset.monotone_filter_right _ fun j _ hj hmarked => hj (h j hmarked)
  · exact Finset.mem_filter.2 ⟨Finset.mem_range.2 hk, hold⟩
  · exact fun hmem => (Finset.mem_filter.1 hmem).2 hnew

end Lib.Saturate
