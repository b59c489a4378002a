import Mathlib.Tactic

/-!
# Strided boxes

A list of axes describes a box of elements that has addresses in two spaces.

* `Axis`, `Index`, `distance`: the axes, the elements, and their distance from the first one;
* `Embeds`: the elements of one box are, with the same distances, elements of another;
* `embeds_perm`, `embeds_split`, `embeds_filter`: axes may be reordered, split in two, and left out
  where their extent is one;
* `digit`: the digit of a number at one of several strides, the larger strides taken off first.
-/

namespace Lib

/-- An axis of a box: its strides in the two spaces, and its extent. -/
structure Axis where
  near : ℤ
  far : ℤ
  extent : ℤ
  deriving DecidableEq

/-- The elements of a box. -/
def Index (axes : List Axis) (i : List ℤ) : Prop :=
  List.Forall₂ (fun ax k => 0 ≤ k ∧ k < ax.extent) axes i

/-- How far an element is from the first one, with the strides `stride`. -/
def distance (stride : Axis → ℤ) : List Axis → List ℤ → ℤ
  | ax :: axes, k :: i => k * stride ax + distance stride axes i
  | _, _ => 0

/-- The elements of `l` are elements of `l'`, with the same distances. -/
def Embeds (l l' : List Axis) : Prop :=
  ∃ f : List ℤ → List ℤ, ∀ i, Index l i → Index l' (f i) ∧
    distance Axis.near l' (f i) = distance Axis.near l i ∧
    distance Axis.far l' (f i) = distance Axis.far l i ∧ ∀ j, Index l j → f i = f j → i = j

@[simp] theorem index_nil {i : List ℤ} : Index [] i ↔ i = [] := List.forall₂_nil_left_iff

theorem index_cons {ax : Axis} {axes : List Axis} {i : List ℤ} :
    Index (ax :: axes) i ↔ ∃ k i', (0 ≤ k ∧ k < ax.extent) ∧ Index axes i' ∧ i = k :: i' := by
  rw [Index, List.forall₂_cons_left_iff]
  rfl

namespace Embeds

theorem refl (l : List Axis) : Embeds l l :=
  ⟨id, fun _ hi => ⟨hi, rfl, rfl, fun _ _ h => h⟩⟩

theorem trans {l l' l'' : List Axis} (h : Embeds l l') (h' : Embeds l' l'') : Embeds l l'' := by
  obtain ⟨f, hf⟩ := h
  obtain ⟨g, hg⟩ := h'
  refine ⟨g ∘ f, fun i hi => ?_⟩
  obtain ⟨hfi, hnear, hfar, hinj⟩ := hf i hi
  obtain ⟨hgi, hnear', hfar', hinj'⟩ := hg (f i) hfi
  exact ⟨hgi, hnear'.trans hnear, hfar'.trans hfar,
    fun j hj heq => hinj j hj (hinj' (f j) (hf j hj).1 heq)⟩

theorem cons (ax : Axis) {l l' : List Axis} (h : Embeds l l') : Embeds (ax :: l) (ax :: l') := by
  obtain ⟨f, hf⟩ := h
  refine ⟨fun i => i.headD 0 :: f i.tail, fun i hi => ?_⟩
  obtain ⟨k, t, hk, ht, rfl⟩ := index_cons.1 hi
  obtain ⟨hft, hnear, hfar, hinj⟩ := hf t ht
  refine ⟨index_cons.2 ⟨k, f t, hk, hft, rfl⟩, ?_, ?_, fun j hj heq => ?_⟩
  · exact congrArg (k * ax.near + ·) hnear
  · exact congrArg (k * ax.far + ·) hfar
  · obtain ⟨k', t', -, ht', rfl⟩ := index_cons.1 hj
    obtain ⟨rfl, heq⟩ := List.cons.inj heq
    exact congrArg (k :: ·) (hinj t' ht' heq)

theorem append_left (pre : List Axis) {l l' : List Axis} (h : Embeds l l') :
    Embeds (pre ++ l) (pre ++ l') := by
  induction pre with
  | nil => exact h
  | cons ax pre ih => exact ih.cons ax

theorem swap (ax ax' : Axis) (l : List Axis) : Embeds (ax :: ax' :: l) (ax' :: ax :: l) := by
  refine ⟨fun i => i.tail.headD 0 :: i.headD 0 :: i.tail.tail, fun i hi => ?_⟩
  obtain ⟨k, t, hk, ht, rfl⟩ := index_cons.1 hi
  obtain ⟨m, u, hm, hu, rfl⟩ := index_cons.1 ht
  refine ⟨index_cons.2 ⟨m, k :: u, hm, index_cons.2 ⟨k, u, hk, hu, rfl⟩, rfl⟩, ?_, ?_,
    fun j hj heq => ?_⟩
  · exact add_left_comm ..
  · exact add_left_comm ..
  · obtain ⟨k', t', -, ht', rfl⟩ := index_cons.1 hj
    obtain ⟨m', u', -, -, rfl⟩ := index_cons.1 ht'
    simp only [List.tail_cons, List.headD_cons, List.cons.injEq] at heq
    obtain ⟨rfl, rfl, rfl⟩ := heq
    rfl

end Embeds

theorem embeds_perm {l l' : List Axis} (h : l.Perm l') : Embeds l l' := by
  induction h with
  | nil => exact .refl []
  | cons ax _ ih => exact ih.cons ax
  | swap ax ax' l => exact .swap ax' ax l
  | trans _ _ ih ih' => exact ih.trans ih'

section Split

variable (near far outer : ℤ) {inner : ℤ} (hinner : 0 < inner) (axes : List Axis)

include hinner

/-- An outer axis with longer strides and an inner one make one axis. -/
theorem embeds_merge :
    Embeds (⟨inner * near, inner * far, outer⟩ :: ⟨near, far, inner⟩ :: axes)
      (⟨near, far, outer * inner⟩ :: axes) := by
  refine ⟨fun i => (i.headD 0 * inner + i.tail.headD 0) :: i.tail.tail, fun i hi => ?_⟩
  obtain ⟨k, t, hk, ht, rfl⟩ := index_cons.1 hi
  obtain ⟨m, u, hm, hu, rfl⟩ := index_cons.1 ht
  have hk' : k + 1 ≤ outer := hk.2
  have hm' : m < inner := hm.2
  refine ⟨index_cons.2 ⟨k * inner + m, u, ⟨?_, ?_⟩, hu, rfl⟩, ?_, ?_, fun j hj heq => ?_⟩
  · exact add_nonneg (mul_nonneg hk.1 hinner.le) hm.1
  · calc k * inner + m < (k + 1) * inner := by linarith
      _ ≤ outer * inner := mul_le_mul_of_nonneg_right hk' hinner.le
  · simp only [distance, List.headD_cons, List.tail_cons]
    ring
  · simp only [distance, List.headD_cons, List.tail_cons]
    ring
  · obtain ⟨k', t', -, ht', rfl⟩ := index_cons.1 hj
    obtain ⟨m', u', hn, -, rfl⟩ := index_cons.1 ht'
    simp only [List.headD_cons, List.tail_cons, List.cons.injEq] at heq
    obtain ⟨heq, rfl⟩ := heq
    have hk : k = k' := by
      have hquot := congrArg (· / inner) heq
      simp only [Int.mul_add_ediv_right _ _ hinner.ne', Int.ediv_eq_zero_of_lt hm.1 hm.2,
        Int.ediv_eq_zero_of_lt hn.1 hn.2, add_zero] at hquot
      exact hquot
    subst hk
    rw [add_left_cancel heq]

/-- One axis makes an outer axis with longer strides and an inner one. -/
theorem embeds_split :
    Embeds (⟨near, far, outer * inner⟩ :: axes)
      (⟨inner * near, inner * far, outer⟩ :: ⟨near, far, inner⟩ :: axes) := by
  refine ⟨fun i => i.headD 0 / inner :: i.headD 0 % inner :: i.tail, fun i hi => ?_⟩
  obtain ⟨k, t, hk, ht, rfl⟩ := index_cons.1 hi
  have hdiv := Int.mul_ediv_add_emod k inner
  refine ⟨index_cons.2 ⟨k / inner, _, ⟨Int.ediv_nonneg hk.1 hinner.le,
    Int.ediv_lt_of_lt_mul hinner hk.2⟩, index_cons.2 ⟨k % inner, t, ⟨Int.emod_nonneg k hinner.ne',
    Int.emod_lt_of_pos k hinner⟩, ht, rfl⟩, rfl⟩, ?_, ?_, fun j hj heq => ?_⟩
  · simp only [distance, List.headD_cons, List.tail_cons]
    linear_combination near * hdiv
  · simp only [distance, List.headD_cons, List.tail_cons]
    linear_combination far * hdiv
  · obtain ⟨k', t', -, -, rfl⟩ := index_cons.1 hj
    simp only [List.headD_cons, List.tail_cons, List.cons.injEq] at heq
    obtain ⟨hquot, hrem, rfl⟩ := heq
    rw [← hdiv, hquot, hrem, Int.mul_ediv_add_emod]

end Split

/-- Axes of extent one may be left out, or put in. -/
theorem embeds_unit {ax : Axis} (h : ax.extent = 1) (l : List Axis) :
    Embeds (ax :: l) l ∧ Embeds l (ax :: l) := by
  constructor
  · refine ⟨List.tail, fun i hi => ?_⟩
    obtain ⟨k, t, hk, ht, rfl⟩ := index_cons.1 hi
    obtain rfl : k = 0 := by omega
    refine ⟨ht, by simp [distance], by simp [distance], fun j hj heq => ?_⟩
    obtain ⟨k', t', hk', ht', rfl⟩ := index_cons.1 hj
    obtain rfl : k' = 0 := by omega
    exact congrArg _ heq
  · exact ⟨(0 :: ·), fun i hi => ⟨index_cons.2 ⟨0, i, by omega, hi, rfl⟩, by simp [distance],
      by simp [distance], fun j _ heq => (List.cons.inj heq).2⟩⟩

theorem embeds_filter {axes : List Axis} (h : ∀ ax ∈ axes, 1 ≤ ax.extent) :
    Embeds (axes.filter fun ax => ax.extent > 1) axes ∧
      Embeds axes (axes.filter fun ax => ax.extent > 1) := by
  induction axes with
  | nil => exact ⟨.refl [], .refl []⟩
  | cons ax axes ih =>
    obtain ⟨ih, ih'⟩ := ih fun ax hax => h ax (List.mem_cons_of_mem _ hax)
    by_cases hax : ax.extent > 1
    · rw [List.filter_cons_of_pos (by simpa using hax)]
      exact ⟨ih.cons ax, ih'.cons ax⟩
    · have hone : ax.extent = 1 := le_antisymm (not_lt.1 hax) (h ax List.mem_cons_self)
      obtain ⟨hout, hin⟩ := embeds_unit hone axes
      rw [List.filter_cons_of_neg (by simpa using hax)]
      exact ⟨ih.trans hin, hout.trans ih'⟩

/-- The digit of `x` at stride `s`, after those at the larger ones of `strides`. -/
def digit (strides : List ℤ) (s x : ℤ) : ℤ :=
  (((strides.filter (s < ·)).insertionSort (· ≥ ·)).foldl Int.tmod x).tdiv s

end Lib
