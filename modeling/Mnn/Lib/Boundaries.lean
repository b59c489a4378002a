import Mathlib.Data.List.GetD
import Mathlib.Data.Nat.Find
import Mathlib.Tactic

/-!
# Boundaries

A range is cut into pieces by writing down, one after another, where each piece ends.

* `Cut n pos dst cur`: the ends of the first `pos` pieces, of which the last is `cur`;
* `Cut.write`: one more end, which is not before the last one;
* `existsUnique_piece`: **ends that do not fall and reach `n` cut `[0, n)` into pieces**: every
  point lies in one.
-/

namespace Lib

/-- Pieces that end without falling: a point before the last end lies in one of them. -/
theorem existsUnique_piece {f : ℕ → ℕ} {k x : ℕ} (hmono : ∀ i < k, f i ≤ f (i + 1))
    (hfirst : f 0 ≤ x) (hlast : x < f k) : ∃! t, t < k ∧ f t ≤ x ∧ x < f (t + 1) := by
  have hle : ∀ {i j : ℕ}, i ≤ j → j ≤ k → f i ≤ f j := by
    intro i j hij
    induction j, hij using Nat.le_induction with
    | base => exact fun _ => le_rfl
    | succ j _ ih => exact fun hj => (ih (Nat.le_of_succ_le hj)).trans (hmono j hj)
  -- the piece with the first end behind the point
  have hex : ∃ i, x < f i := ⟨k, hlast⟩
  obtain ⟨t, ht⟩ : ∃ t, Nat.find hex = t + 1 :=
    Nat.exists_eq_succ_of_ne_zero fun h0 => hfirst.not_gt (h0 ▸ Nat.find_spec hex)
  have htk : t < k := by
    have := Nat.find_min' hex hlast
    omega
  refine ⟨t, ⟨htk, ?_, ht ▸ Nat.find_spec hex⟩, ?_⟩
  · exact not_lt.1 (Nat.find_min hex (ht ▸ Nat.lt_succ_self t))
  · rintro u ⟨huk, hu, hu'⟩
    rcases lt_trichotomy u t with hlt | heq | hgt
    · exact absurd hu' (Nat.find_min hex (ht ▸ Nat.succ_lt_succ hlt))
    · exact heq
    · have hback : f (t + 1) ≤ f u := hle hgt huk.le
      exact absurd (ht ▸ Nat.find_spec hex) (hback.trans hu).not_gt

/-- The ends of the first `pos` pieces, each with its number; the last is `cur`. -/
structure Cut (n pos : ℕ) (dst : List (ℕ × ℕ)) (cur : ℕ) : Prop where
  positions : dst.map Prod.fst = List.range pos
  sorted : (0 :: dst.map Prod.snd).Pairwise (· ≤ ·)
  last : (0 :: dst.map Prod.snd).getLast? = some cur
  cur_le : cur ≤ n

namespace Cut

variable {n pos cur : ℕ} {dst : List (ℕ × ℕ)}

theorem nil (n : ℕ) : Cut n 0 [] 0 := ⟨rfl, List.pairwise_singleton .., rfl, Nat.zero_le n⟩

theorem le_cur (h : Cut n pos dst cur) {b : ℕ} (hb : b ∈ 0 :: dst.map Prod.snd) : b ≤ cur := by
  obtain ⟨l, hl⟩ := List.getLast?_eq_some_iff.1 h.last
  have hsorted := hl ▸ h.sorted
  rw [hl] at hb
  rcases List.mem_append.1 hb with hb | hb
  · exact (List.pairwise_append.1 hsorted).2.2 b hb cur (List.mem_singleton_self cur)
  · exact (List.mem_singleton.1 hb).le

theorem length_eq (h : Cut n pos dst cur) : dst.length = pos := by
  rw [← List.length_map Prod.fst, h.positions, List.length_range]

/-- One more end. -/
theorem write (h : Cut n pos dst cur) {next : ℕ} (hcur : cur ≤ next) (hnext : next ≤ n) :
    Cut n (pos + 1) (dst ++ [(pos, next)]) next := by
  refine ⟨?_, ?_, ?_, hnext⟩
  · rw [List.map_append, h.positions, List.range_succ]
    rfl
  · rw [List.map_append, ← List.cons_append]
    refine List.pairwise_append.2 ⟨h.sorted, List.pairwise_singleton .., fun b hb e he => ?_⟩
    obtain rfl := List.mem_singleton.1 he
    exact (h.le_cur hb).trans hcur
  · rw [List.map_append, ← List.cons_append]
    exact List.getLast?_concat

theorem getD_last (h : Cut n pos dst cur) : (0 :: dst.map Prod.snd).getD pos 0 = cur := by
  have hget := h.last
  rw [List.getLast?_eq_getElem?, List.length_cons, List.length_map, h.length_eq,
    Nat.add_sub_cancel] at hget
  rw [List.getD_eq_getElem?_getD, hget]
  rfl

/-- Ends that reach `n`. -/
theorem existsUnique (h : Cut n pos dst n) {x : ℕ} (hx : x < n) :
    ∃! t, t < pos ∧ (0 :: dst.map Prod.snd).getD t 0 ≤ x ∧
      x < (0 :: dst.map Prod.snd).getD (t + 1) 0 := by
  have hlen : (0 :: dst.map Prod.snd).length = pos + 1 := by
    rw [List.length_cons, List.length_map, h.length_eq]
  refine existsUnique_piece (f := fun t => (0 :: dst.map Prod.snd).getD t 0) ?_ (Nat.zero_le x) ?_
  · intro i hi
    have h₁ : i < (0 :: dst.map Prod.snd).length := by omega
    have h₂ : i + 1 < (0 :: dst.map Prod.snd).length := by omega
    rw [List.getD_eq_getElem _ 0 h₁, List.getD_eq_getElem _ 0 h₂]
    exact List.pairwise_iff_getElem.1 h.sorted i (i + 1) h₁ h₂ (Nat.lt_succ_self i)
  · rwa [h.getD_last]

end Cut

end Lib
