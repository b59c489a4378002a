import Mathlib.Data.List.Sort
import Mnn.Lib.Reduce

/-!
# Splitting a reduction

`OpCommonUtils::computeReduceDims` (`source/core/OpCommonUtils.cpp`): a reduction over several axes
as reductions over one axis each.

* `axisesOf`, `wrapAxis`, `groupAxises`, `insideOutside`, `computeReduceDims`: the code;
* `reducedAxes`, `mark`, `marks`: what is to be reduced, and the shapes on the way;
* `cover_groupAxises`: the groups are made up of the axes;
* `insideOutside_spec`: the numbers fit, and the reductions compose;
* `computeReduceDims_spec`: **one after the other they are the reduction over the listed axes**.

The products are natural numbers; none is larger than the number of elements of a tensor without an
empty axis.
-/

namespace Mnn.ReduceDims

open Lib Reduce Broadcast

/-! ### The code -/

/-- The axes: those in the second input, if there is one, or those of the parameter. -/
def axisesOf (input1 dim : Option (List ℤ)) : List ℤ := input1.getD (dim.getD [])

/-- A negative axis counts from the end; `none` where it is still negative. -/
def wrapAxis (dimensions : ℕ) (axis : ℤ) : Option ℕ :=
  let axis := if axis < 0 then dimensions + axis else axis
  if axis < 0 then none else some axis.toNat

/-- The variables of the loop that merges adjacent axes. -/
structure Merging where
  groups : List (ℕ × ℕ) := []
  start : ℕ
  length : ℕ := 1
  lastAxis : ℕ

def mergeStep (m : Merging) (axis : ℕ) : Merging :=
  if axis = m.lastAxis + 1 then { m with length := m.length + 1, lastAxis := axis }
  else { groups := m.groups ++ [(m.start, m.length)], start := axis, lastAxis := axis }

/-- The groups of axes that are next to each other, each with its first axis and its length. -/
def groupAxises : List ℕ → List (ℕ × ℕ)
  | [] => []
  | axis :: axises =>
    let m := axises.foldl mergeStep { start := axis, lastAxis := axis }
    m.groups ++ [(m.start, m.length)]

/-- The lengths with ones for those of a group. -/
def setOnes (lengths : List ℕ) (start length : ℕ) : List ℕ :=
  lengths.mapIdx fun j n => if start ≤ j ∧ j < start + length then 1 else n

/-- The loop over the groups. -/
def insideOutside : List (ℕ × ℕ) → List ℕ → List (ℕ × ℕ × ℕ)
  | [], _ => []
  | (start, length) :: groups, lengths =>
    if lengths.length ≤ start then []
    else
      let outsideSize := (lengths.take start).prod
      let axisSize := ((lengths.drop start).take length).prod
      let insideSize := (lengths.drop (start + length)).prod
      let rest := insideOutside groups (setOnes lengths start length)
      if axisSize = 1 then rest else (outsideSize, axisSize, insideSize) :: rest

/-- `OpCommonUtils::computeReduceDims`. -/
def computeReduceDims (shape : List ℕ) (input1 dim : Option (List ℤ)) : List (ℕ × ℕ × ℕ) :=
  let axises := axisesOf input1 dim
  let totalSize := shape.prod
  if axises.isEmpty then [(1, totalSize, 1)]
  else
    match axises.mapM (wrapAxis shape.length) with
    | none => [(1, totalSize, 1)]
    | some axises =>
      let result := insideOutside (groupAxises (axises.insertionSort (· ≤ ·))) shape
      if result.isEmpty then [(1, 1, totalSize)] else result

example : computeReduceDims [2, 3, 1, 4] none (some [-1, 0, 1, 1]) = [(1, 6, 4), (1, 4, 1)] := by
  decide

/-! ### What is to be reduced -/

/-- The axes that are listed, or all when none is. -/
def reducedAxes (dimensions : ℕ) (axises : List ℤ) : Finset ℕ :=
  if axises = [] then Finset.range dimensions
  else (axises.map fun a : ℤ => (if a < 0 then dimensions + a else a).toNat).toFinset

/-- A shape with ones for some axes. -/
def mark (shape : List ℕ) (done : Finset ℕ) : List ℕ :=
  shape.mapIdx fun k n => if k ∈ done then 1 else n

/-- The axes of a shape when more of them become ones. -/
def marks (shape : List ℕ) (before after : Finset ℕ) : List (ℕ × ℕ) :=
  shape.mapIdx fun k n => (if k ∈ after then 1 else n, if k ∈ before then 1 else n)

/-- The axes in some groups. -/
def cover (groups : List (ℕ × ℕ)) : Finset ℕ :=
  groups.foldr (fun g s => Finset.Ico g.1 (g.1 + g.2) ∪ s) ∅

/-- Every reduction fits the tensor at its step, and the last one gives `size` elements. -/
def Fits : ℕ → List (ℕ × ℕ × ℕ) → ℕ → Prop
  | n, [], size => n = size
  | n, d :: dims, size => d.1 * d.2.1 * d.2.2 = n ∧ Fits (d.1 * d.2.2) dims size

variable {shape l : List ℕ} {done before after : Finset ℕ} {j : ℕ}

theorem map_mapIdx {α β γ : Type*} (l : List α) (f : ℕ → α → β) (g : β → γ) :
    (l.mapIdx f).map g = l.mapIdx fun k a => g (f k a) := by
  refine List.ext_getElem? fun k => ?_
  rw [List.getElem?_map, List.getElem?_mapIdx, List.getElem?_mapIdx, Option.map_map]
  rfl

theorem getElem?_mark (shape : List ℕ) (done : Finset ℕ) (k : ℕ) :
    (mark shape done)[k]? = shape[k]?.map fun n => if k ∈ done then 1 else n :=
  List.getElem?_mapIdx

@[simp] theorem length_mark (shape : List ℕ) (done : Finset ℕ) :
    (mark shape done).length = shape.length := List.length_mapIdx

theorem mark_empty (shape : List ℕ) : mark shape ∅ = shape := by
  refine List.ext_getElem? fun k => ?_
  rw [getElem?_mark]
  simp

theorem smallSize_marks (shape : List ℕ) (before after : Finset ℕ) :
    smallSize (marks shape before after) = (mark shape after).prod := by
  rw [smallSize, marks, mark, map_mapIdx]

theorem largeSize_marks (shape : List ℕ) (before after : Finset ℕ) :
    largeSize (marks shape before after) = (mark shape before).prod := by
  rw [largeSize, marks, mark, map_mapIdx]

theorem setOnes_mark (shape : List ℕ) (done : Finset ℕ) (start length : ℕ) :
    setOnes (mark shape done) start length =
      mark shape (done ∪ Finset.Ico start (start + length)) := by
  refine List.ext_getElem? fun k => ?_
  rw [setOnes, List.getElem?_mapIdx, getElem?_mark, getElem?_mark, Option.map_map]
  refine congrArg (Option.map · _) (funext fun n => ?_)
  simp only [Function.comp_apply, Finset.mem_union, Finset.mem_Ico]
  split_ifs <;> tauto

theorem mapIdx_group (c : List ℕ) (start length : ℕ) :
    (c.mapIdx fun k n => (if start ≤ k ∧ k < start + length then 1 else n, n)) =
      kept (c.take start) ++
        (gone ((c.drop start).take length) ++ kept (c.drop (start + length))) := by
  induction c generalizing start length with
  | nil => simp [kept, gone]
  | cons n c ih =>
    rw [List.mapIdx_cons]
    cases start with
    | succ start =>
      have hrest := ih start length
      simp only [Nat.add_right_comm start 1, List.take_succ_cons, List.drop_succ_cons,
        Nat.add_le_add_iff_right, Nat.add_lt_add_iff_right, hrest, kept]
      rfl
    | zero =>
      cases length with
      | zero =>
        have hrest := ih 0 0
        simp only [Nat.add_zero, Nat.not_lt_zero, and_false, if_false, List.take_zero,
          List.drop_zero] at hrest ⊢
        rw [hrest]
        rfl
      | succ length =>
        have hrest := ih 0 length
        simp only [Nat.zero_add, Nat.zero_le, true_and, List.take_zero, List.drop_zero,
          List.take_succ_cons, List.drop_succ_cons, Nat.add_lt_add_iff_right] at hrest ⊢
        rw [hrest, if_pos (Nat.succ_pos length)]
        rfl

/-- The axes of a group are next to each other. -/
theorem marks_group (shape : List ℕ) (done : Finset ℕ) (start length : ℕ) :
    marks shape done (done ∪ Finset.Ico start (start + length)) =
      kept ((mark shape done).take start) ++
        (gone (((mark shape done).drop start).take length) ++
          kept ((mark shape done).drop (start + length))) := by
  rw [← mapIdx_group]
  refine List.ext_getElem? fun k => ?_
  rw [marks, List.getElem?_mapIdx, List.getElem?_mapIdx, getElem?_mark, Option.map_map]
  refine congrArg (Option.map · _) (funext fun n => ?_)
  simp only [Function.comp_apply, Finset.mem_union, Finset.mem_Ico]
  split_ifs <;> tauto

variable {V : Type*} (R : Reduction V)

theorem kept_marks (h : before ⊆ after) : Kept (marks shape before after) := by
  intro p hp
  obtain ⟨k, hk, rfl⟩ := List.mem_mapIdx.1 hp
  by_cases hafter : k ∈ after
  · exact .inl (if_pos hafter)
  · exact .inr (by simp only [hafter, mt (@h k) hafter, if_false])

/-- What a reduction reads are elements of the tensor. -/
theorem over_congr (h : before ⊆ after) {x y : ℕ → V} (hj : j < (mark shape after).prod)
    (hxy : ∀ n < (mark shape before).prod, x n = y n) :
    R.over (marks shape before after) x j = R.over (marks shape before after) y j := by
  unfold Reduction.over
  refine congrArg R.reduce (Multiset.map_congr rfl fun n hn => hxy n ?_)
  rw [← largeSize_marks shape before after]
  exact lt_of_mem_fiber (kept_marks h) (by rwa [smallSize_marks]) hn

/-- Reductions over more and more axes. -/
theorem over_marks {middle : Finset ℕ} (h : before ⊆ middle) (h' : middle ⊆ after) (x : ℕ → V)
    (hj : j < (mark shape after).prod) :
    R.over (marks shape middle after) (R.over (marks shape before middle) x) j =
      R.over (marks shape before after) x j := by
  -- the three shapes, axis by axis
  obtain ⟨trips, hmap, htrips⟩ : ∃ trips : List (ℕ × ℕ × ℕ),
      (∀ f : ℕ × ℕ × ℕ → ℕ × ℕ, trips.map f = shape.mapIdx fun k n =>
        f (if k ∈ after then 1 else n, if k ∈ middle then 1 else n, if k ∈ before then 1 else n)) ∧
      ∀ t ∈ trips, (t.1 = 1 ∨ t.1 = t.2.1) ∧ (t.2.1 = 1 ∨ t.2.1 = t.2.2) := by
    refine ⟨_, fun f => map_mapIdx shape _ f, fun t ht => ?_⟩
    obtain ⟨k, hk, rfl⟩ := List.mem_mapIdx.1 ht
    have hb : k ∈ before → k ∈ middle := @h k
    have hm : k ∈ middle → k ∈ after := @h' k
    dsimp only
    split_ifs <;> tauto
  rw [← smallSize_marks shape middle] at hj
  have hover := R.over_over htrips (by rwa [hmap]) x
  rw [hmap, hmap, hmap] at hover
  exact hover

/-! ### The groups -/

@[simp] theorem cover_nil : cover [] = ∅ := rfl
@[simp] theorem cover_cons (g : ℕ × ℕ) (groups : List (ℕ × ℕ)) :
    cover (g :: groups) = Finset.Ico g.1 (g.1 + g.2) ∪ cover groups := rfl

theorem cover_append (gs gs' : List (ℕ × ℕ)) : cover (gs ++ gs') = cover gs ∪ cover gs' := by
  induction gs with
  | nil => simp
  | cons g gs ih => simp [ih, Finset.union_assoc]

/-- The axes that a state of the loop has seen. -/
def Merging.seen (m : Merging) : Finset ℕ := cover (m.groups ++ [(m.start, m.length)])

theorem mergeStep_spec {m : Merging} (h : m.start + m.length = m.lastAxis + 1) (hpos : 0 < m.length)
    (axis : ℕ) :
    (mergeStep m axis).start + (mergeStep m axis).length = (mergeStep m axis).lastAxis + 1 ∧
      0 < (mergeStep m axis).length ∧ (mergeStep m axis).seen = insert axis m.seen := by
  unfold mergeStep Merging.seen
  split_ifs with hnext
  · refine ⟨by dsimp only; omega, Nat.succ_pos _, ?_⟩
    rw [cover_append, cover_append, ← Finset.union_insert]
    refine congrArg (cover m.groups ∪ ·) ?_
    ext k
    simp only [cover_cons, cover_nil, Finset.union_empty, Finset.mem_Ico, Finset.mem_insert]
    omega
  · refine ⟨rfl, Nat.one_pos, ?_⟩
    rw [cover_append]
    ext k
    simp only [cover_cons, cover_nil, Finset.union_empty, Finset.mem_union, Finset.mem_Ico,
      Finset.mem_insert]
    rw [or_comm]
    refine or_congr_left ?_
    omega

/-- **The groups are made up of the axes.** -/
theorem cover_groupAxises (axises : List ℕ) : cover (groupAxises axises) = axises.toFinset := by
  have hloop : ∀ (l : List ℕ) (m : Merging), m.start + m.length = m.lastAxis + 1 → 0 < m.length →
      (l.foldl mergeStep m).seen = l.toFinset ∪ m.seen := by
    intro l
    induction l with
    | nil => exact fun m _ _ => (Finset.empty_union _).symm
    | cons a l ih =>
      intro m hm hpos
      obtain ⟨hm', hpos', hseen⟩ := mergeStep_spec hm hpos a
      rw [List.foldl_cons, ih _ hm' hpos', hseen, List.toFinset_cons, Finset.union_insert,
        Finset.insert_union]
  cases axises with
  | nil => rfl
  | cons a l =>
    have hl := hloop l { start := a, lastAxis := a } rfl Nat.one_pos
    have hstart : Merging.seen { start := a, lastAxis := a } = {a} := by
      ext k
      simp only [Merging.seen, List.nil_append, cover_cons, cover_nil, Finset.union_empty,
        Finset.mem_Ico, Finset.mem_singleton]
      omega
    rw [hstart, Finset.union_comm] at hl
    rw [List.toFinset_cons, Finset.insert_eq, ← hl]
    rfl

theorem fst_mem_of_mem_groupAxises {axises : List ℕ} {g : ℕ × ℕ} (hg : g ∈ groupAxises axises) :
    g.1 ∈ axises := by
  have hloop : ∀ (l : List ℕ) (m : Merging),
      (∀ g ∈ m.groups ++ [(m.start, m.length)], g.1 ∈ axises) → (∀ a ∈ l, a ∈ axises) →
        ∀ g ∈ (l.foldl mergeStep m).groups ++
          [((l.foldl mergeStep m).start, (l.foldl mergeStep m).length)], g.1 ∈ axises := by
    intro l
    induction l with
    | nil => exact fun m hm _ => hm
    | cons a l ih =>
      intro m hm hl
      obtain ⟨ha, hl⟩ := List.forall_mem_cons.1 hl
      refine ih _ ?_ hl
      unfold mergeStep
      split_ifs
      · intro g hg
        rcases List.mem_append.1 hg with hg | hg
        · exact hm g (List.mem_append_left _ hg)
        · obtain rfl := List.mem_singleton.1 hg
          exact hm (m.start, m.length) (List.mem_append_right _ List.mem_cons_self)
      · intro g hg
        rcases List.mem_append.1 hg with hg | hg
        · exact hm g hg
        · obtain rfl := List.mem_singleton.1 hg
          exact ha
  cases axises with
  | nil => cases hg
  | cons a l =>
    refine hloop l { start := a, lastAxis := a } ?_ (fun b hb => List.mem_cons_of_mem a hb) g hg
    intro g hg
    obtain rfl := List.mem_singleton.1 hg
    exact List.mem_cons_self

/-! ### One reduction after the other -/

/-- The reductions, in order. -/
def Reduction.run (dims : List (ℕ × ℕ × ℕ)) (x : ℕ → V) : ℕ → V :=
  dims.foldl (fun x d => R.axis d x) x

theorem over_kept (x : ℕ → V) {l : List ℕ} (hj : j < l.prod) : R.over (kept l) x j = x j := by
  rw [Reduction.over, fiber_kept hj, Multiset.map_singleton, R.singleton]

theorem marks_of_eq (h : mark shape after = mark shape before) :
    marks shape before after = kept (mark shape before) := by
  refine List.ext_getElem? fun k => ?_
  have hk := congrArg (·[k]?) h
  simp only [getElem?_mark] at hk
  rw [marks, List.getElem?_mapIdx, kept, List.getElem?_map, getElem?_mark]
  cases hn : shape[k]? with
  | none => rfl
  | some n =>
    rw [hn] at hk
    simp only [Option.map_some, Option.some.inj hk]

/-- A group whose lengths are one stays as it is. -/
theorem mark_of_prod_eq_one {start length : ℕ}
    (h : (((mark shape done).drop start).take length).prod = 1) :
    mark shape (done ∪ Finset.Ico start (start + length)) = mark shape done := by
  have hones : ∀ n ∈ ((mark shape done).drop start).take length, n = 1 :=
    fun n hn => Nat.dvd_one.1 (h ▸ List.dvd_prod hn)
  refine List.ext_getElem? fun k => ?_
  rw [getElem?_mark, getElem?_mark]
  cases hk : shape[k]? with
  | none => rfl
  | some n =>
    simp only [Option.map_some, Finset.mem_union, Finset.mem_Ico]
    by_cases hmem : start ≤ k ∧ k < start + length
    · have hget : (((mark shape done).drop start).take length)[k - start]? =
          some (if k ∈ done then 1 else n) := by
        rw [List.getElem?_take_of_lt (by omega), List.getElem?_drop, Nat.add_sub_cancel' hmem.1,
          getElem?_mark, hk, Option.map_some]
      rw [if_pos (.inr hmem), hones _ (List.mem_of_getElem? hget)]
    · simp only [hmem, or_false]

/-- **The loop over the groups** splits the reduction over their axes. -/
theorem insideOutside_spec (shape : List ℕ) (groups : List (ℕ × ℕ)) (done : Finset ℕ)
    (h : ∀ g ∈ groups, g.1 < shape.length) :
    Fits (mark shape done).prod (insideOutside groups (mark shape done))
        (mark shape (done ∪ cover groups)).prod ∧
      ∀ x, ∀ j < (mark shape (done ∪ cover groups)).prod,
        Reduction.run R (insideOutside groups (mark shape done)) x j =
          R.over (marks shape done (done ∪ cover groups)) x j := by
  induction groups generalizing done with
  | nil =>
    rw [cover_nil, Finset.union_empty, marks_of_eq rfl]
    exact ⟨rfl, fun x j hj => (over_kept R x hj).symm⟩
  | cons g groups ih =>
    obtain ⟨start, length⟩ := g
    obtain ⟨hstart, hgroups⟩ := List.forall_mem_cons.1 h
    obtain ⟨hfits, hrun⟩ := ih (done ∪ Finset.Ico start (start + length)) hgroups
    rw [cover_cons, ← Finset.union_assoc]
    generalize hnext : done ∪ Finset.Ico start (start + length) = next at hfits hrun ⊢
    have hsub : done ⊆ next := hnext ▸ Finset.subset_union_left
    have hgroup := marks_group shape done start length
    rw [hnext] at hgroup
    have hsmall := smallSize_marks shape done next
    have hlarge := largeSize_marks shape done next
    rw [hgroup] at hsmall hlarge
    simp only [smallSize_append, smallSize_kept, smallSize_gone, Nat.one_mul] at hsmall
    simp only [largeSize_append, largeSize_kept, largeSize_gone] at hlarge
    have hset : setOnes (mark shape done) start length = mark shape next := by
      rw [setOnes_mark, hnext]
    rw [insideOutside, if_neg (by rw [length_mark]; exact Nat.not_le.2 hstart), hset]
    -- what the other groups do with a tensor that is reduced over this one
    have hthen : ∀ x y, (∀ j < (mark shape next).prod, y j = R.over (marks shape done next) x j) →
        ∀ j < (mark shape (next ∪ cover groups)).prod,
          Reduction.run R (insideOutside groups (mark shape next)) y j =
            R.over (marks shape done (next ∪ cover groups)) x j := by
      intro x y hy j hj
      rw [hrun y j hj, over_congr R Finset.subset_union_left hj hy,
        over_marks R hsub Finset.subset_union_left x hj]
    dsimp only
    split_ifs with hone
    · have hmark : mark shape next = mark shape done := hnext ▸ mark_of_prod_eq_one hone
      refine ⟨by rw [← hmark]; exact hfits, fun x j hj => hthen x x (fun j hj => ?_) j hj⟩
      rw [marks_of_eq hmark, over_kept R x (hmark ▸ hj)]
    · refine ⟨⟨?_, ?_⟩, fun x j hj => hthen x _ (fun j hj => ?_) j hj⟩
      · rw [← hlarge, Nat.mul_assoc]
      · rw [hsmall]
        exact hfits
      · rw [hgroup, over_group R _ _ _ x (hsmall ▸ hj)]

theorem marks_all (shape : List ℕ) :
    marks shape ∅ (Finset.range shape.length) = kept [] ++ (gone shape ++ kept []) := by
  refine List.ext_getElem? fun k => ?_
  rw [marks, List.getElem?_mapIdx]
  show _ = (gone shape ++ [])[k]?
  rw [List.append_nil, gone, List.getElem?_map]
  cases hk : shape[k]? with
  | none => rfl
  | some n =>
    have hlt := (List.getElem?_eq_some_iff.1 hk).1
    simp [hlt]

theorem mapM_wrapAxis {dimensions : ℕ} {axises : List ℤ}
    (h : ∀ a ∈ axises, -(dimensions : ℤ) ≤ a ∧ a < dimensions) :
    axises.mapM (wrapAxis dimensions) =
      some (axises.map fun a : ℤ => (if a < 0 then dimensions + a else a).toNat) := by
  refine mapM_eq_some fun a ha => ?_
  have hbounds := h a ha
  rw [wrapAxis]
  split_ifs <;> first | rfl | omega

/-- The reduction over the listed axes is split: at every step the numbers fit the tensor, and one
after the other the reductions give the elements of the reduction over the axes. -/
def Splits (shape : List ℕ) (axises : List ℤ) (dims : List (ℕ × ℕ × ℕ)) (x : ℕ → V) : Prop :=
  let after := reducedAxes shape.length axises
  Fits shape.prod dims (mark shape after).prod ∧
    ∀ j < (mark shape after).prod, Reduction.run R dims x j = R.over (marks shape ∅ after) x j

/-- **Main theorem.**  For axes in range, `computeReduceDims` splits the reduction over them. -/
theorem computeReduceDims_spec (shape : List ℕ) (input1 dim : Option (List ℤ))
    (h : ∀ a ∈ axisesOf input1 dim, -(shape.length : ℤ) ≤ a ∧ a < shape.length) (x : ℕ → V) :
    Splits R shape (axisesOf input1 dim) (computeReduceDims shape input1 dim) x := by
  unfold computeReduceDims
  generalize axisesOf input1 dim = axises at h
  by_cases hempty : axises = []
  · subst hempty
    have hsize := smallSize_marks shape ∅ (Finset.range shape.length)
    rw [marks_all] at hsize
    simp only [smallSize_append, smallSize_kept, smallSize_gone, List.prod_nil,
      Nat.one_mul] at hsize
    simp only [Splits, reducedAxes, if_true, List.isEmpty_nil, ← hsize, marks_all]
    refine ⟨⟨by rw [Nat.one_mul, Nat.mul_one], rfl⟩, fun j hj => ?_⟩
    exact (over_group R [] shape [] x hj).symm
  · have hnot : axises.isEmpty = false := by rwa [List.isEmpty_eq_false_iff]
    simp only [hnot, Bool.false_eq_true, if_false, mapM_wrapAxis h]
    generalize hwrapped : axises.map _ = wrapped
    have hafter : reducedAxes shape.length axises = wrapped.toFinset := by
      rw [reducedAxes, if_neg hempty, hwrapped]
    have hcover : cover (groupAxises (wrapped.insertionSort (· ≤ ·))) = wrapped.toFinset := by
      rw [cover_groupAxises]
      exact List.toFinset_eq_of_perm _ _ (List.perm_insertionSort _ wrapped)
    obtain ⟨hfits, hrun⟩ := insideOutside_spec R shape
      (groupAxises (wrapped.insertionSort (· ≤ ·))) ∅ fun g hg => by
        have hmem := (List.perm_insertionSort _ wrapped).mem_iff.1 (fst_mem_of_mem_groupAxises hg)
        rw [← hwrapped, List.mem_map] at hmem
        obtain ⟨a, ha, heq⟩ := hmem
        have hbounds := h a ha
        rw [← heq]
        split_ifs <;> omega
    rw [mark_empty, hcover, Finset.empty_union] at hfits hrun
    rw [Splits, hafter]
    cases hresult : insideOutside (groupAxises (wrapped.insertionSort (· ≤ ·))) shape with
    | nil =>
      rw [hresult] at hfits hrun
      have hsize : shape.prod = (mark shape wrapped.toFinset).prod := hfits
      refine ⟨⟨by rw [Nat.one_mul, Nat.one_mul], by rw [Nat.one_mul]; exact hsize⟩, fun j hj => ?_⟩
      rw [← hrun x j hj]
      have hj' : j < shape.prod := hsize ▸ hj
      have hone := over_group R [] [] shape x (by rwa [List.prod_nil, Nat.one_mul])
      exact hone.symm.trans (over_kept R x hj')
    | cons d dims =>
      rw [hresult] at hfits hrun
      exact ⟨hfits, hrun x⟩

theorem computeReduceDims_sum :
    Splits (Reduction.sum ℕ) [2, 3, 1, 4] [-1, 0, 1, 1]
      (computeReduceDims [2, 3, 1, 4] none (some [-1, 0, 1, 1])) id :=
  computeReduceDims_spec (Reduction.sum ℕ) [2, 3, 1, 4] none (some [-1, 0, 1, 1]) (by decide) id

end Mnn.ReduceDims
