import Mathlib.Algebra.BigOperators.Group.Multiset.Basic
import Mathlib.Algebra.Field.Basic
import Mathlib.Algebra.CharZero.Defs
import Mnn.Lib.Broadcast
import Mnn.Lib.Loops

/-!
# Reductions over axes

A tensor is reduced over some of its axes, which keep the length one.  The elements that are brought
together are those that lie over one element of the smaller tensor, in the sense of broadcasting.

* `Reduction`: what brings some values together; `Reduction.sum`;
* `fiber`: the elements over one of the smaller tensor; `Reduction.over`: a reduction over axes;
* `fiber_bind`, `Reduction.over_over`: **one reduction after the other is the reduction over the
  axes of both**;
* `Reduction.axis`, `over_group`: a reduction over axes next to each other, as one over the middle
  one of three axes.
-/

namespace Lib.Reduce

open Broadcast

/-- A reduction of values, whatever their order; groups of one size may be reduced first. -/
structure Reduction (V : Type*) where
  reduce : Multiset V → V
  singleton : ∀ v, reduce {v} = v
  join : ∀ (s : Multiset (Multiset V)) (n : ℕ), (∀ t ∈ s, t.card = n) →
    reduce s.join = reduce (s.map reduce)

namespace Reduction

def sum (V : Type*) [AddCommMonoid V] : Reduction V where
  reduce := Multiset.sum
  singleton := Multiset.sum_singleton
  join _ _ _ := Multiset.sum_join

end Reduction

/-! ### Elements over one element -/

/-- The elements that lie over element `j` of the smaller tensor. -/
def fiber : List (ℕ × ℕ) → ℕ → Multiset ℕ
  | [], _ => {0}
  | (a, b) :: dims, j =>
    (if a = 1 then Multiset.range b else {j / smallSize dims}).bind fun q =>
      (fiber dims (j % smallSize dims)).map fun n => q * largeSize dims + n

variable {V : Type*} (R : Reduction V) {dims : List (ℕ × ℕ)} {j n : ℕ}

/-- The reduction over the axes that have length one in the smaller tensor. -/
def Reduction.over (dims : List (ℕ × ℕ)) (x : ℕ → V) (j : ℕ) : V := R.reduce ((fiber dims j).map x)

/-- An axis is reduced or kept. -/
def Kept (dims : List (ℕ × ℕ)) : Prop := ∀ p ∈ dims, p.1 = 1 ∨ p.1 = p.2

theorem mem_fiber_cons {p : ℕ × ℕ} :
    n ∈ fiber (p :: dims) j ↔ ∃ q m, (if p.1 = 1 then q < p.2 else q = j / smallSize dims) ∧
      m ∈ fiber dims (j % smallSize dims) ∧ q * largeSize dims + m = n := by
  rw [fiber, Multiset.mem_bind]
  simp only [Multiset.mem_map]
  constructor
  · rintro ⟨q, hq, m, hm, rfl⟩
    refine ⟨q, m, ?_, hm, rfl⟩
    split_ifs at hq ⊢
    · exact Multiset.mem_range.1 hq
    · exact Multiset.mem_singleton.1 hq
  · rintro ⟨q, m, hq, hm, rfl⟩
    refine ⟨q, ?_, m, hm, rfl⟩
    split_ifs at hq ⊢
    · exact Multiset.mem_range.2 hq
    · exact Multiset.mem_singleton.2 hq

theorem lt_of_mem_fiber (hdims : Kept dims) (hj : j < smallSize dims) (hn : n ∈ fiber dims j) :
    n < largeSize dims := by
  induction dims generalizing j n with
  | nil => exact Multiset.mem_singleton.1 hn ▸ Nat.one_pos
  | cons p dims ih =>
    obtain ⟨hp, hdims⟩ := List.forall_mem_cons.1 hdims
    rw [smallSize_cons] at hj
    have hsmall : 0 < smallSize dims := Nat.pos_of_mul_pos_left (Nat.zero_lt_of_lt hj)
    obtain ⟨q, m, hq, hm, rfl⟩ := mem_fiber_cons.1 hn
    have hlt := ih hdims (Nat.mod_lt j hsmall) hm
    have hq' : q < p.2 := by
      split_ifs at hq with hone
      · exact hq
      · rw [hq, ← hp.resolve_left hone]
        exact (Nat.div_lt_iff_lt_mul hsmall).2 hj
    rw [largeSize_cons]
    calc q * largeSize dims + m < q * largeSize dims + largeSize dims := Nat.add_lt_add_left hlt _
      _ = (q + 1) * largeSize dims := (Nat.succ_mul _ _).symm
      _ ≤ p.2 * largeSize dims := Nat.mul_le_mul_right _ hq'

/-- There are as many over every element. -/
theorem card_fiber (dims : List (ℕ × ℕ)) (j : ℕ) :
    (fiber dims j).card = (dims.map fun p => if p.1 = 1 then p.2 else 1).prod := by
  induction dims generalizing j with
  | nil => rfl
  | cons p dims ih =>
    rw [fiber, Multiset.card_bind, List.map_cons, List.prod_cons, ← ih (j % smallSize dims)]
    simp only [Function.comp_def, Multiset.card_map, Multiset.map_const', Multiset.sum_replicate,
      smul_eq_mul]
    split_ifs
    · rw [Multiset.card_range]
    · rw [Multiset.card_singleton]

/-- **What lies over an element** lies over the elements of a tensor in between. -/
theorem fiber_bind {trips : List (ℕ × ℕ × ℕ)}
    (h : ∀ t ∈ trips, (t.1 = 1 ∨ t.1 = t.2.1) ∧ (t.2.1 = 1 ∨ t.2.1 = t.2.2))
    (hj : j < smallSize (trips.map fun t => (t.1, t.2.1))) :
    fiber (trips.map fun t => (t.1, t.2.2)) j =
      (fiber (trips.map fun t => (t.1, t.2.1)) j).bind
        (fiber (trips.map fun t => (t.2.1, t.2.2))) := by
  induction trips generalizing j with
  | nil => rfl
  | cons t trips ih =>
    obtain ⟨c, b, a⟩ := t
    obtain ⟨⟨hc, hb⟩, htrips⟩ := List.forall_mem_cons.1 h
    simp only [List.map_cons, fiber, smallSize_cons, Multiset.bind_assoc] at hj hc hb ⊢
    have hpos : 0 < smallSize (trips.map fun t => (t.1, t.2.1)) :=
      Nat.pos_of_mul_pos_left (Nat.zero_lt_of_lt hj)
    have hsmall : smallSize (trips.map fun t => (t.1, t.2.2)) =
        smallSize (trips.map fun t => (t.1, t.2.1)) := by
      simp only [smallSize, List.map_map, Function.comp_def]
    have hlarge : largeSize (trips.map fun t => (t.1, t.2.2)) =
        largeSize (trips.map fun t => (t.2.1, t.2.2)) := by
      simp only [largeSize, List.map_map, Function.comp_def]
    have hmiddle : largeSize (trips.map fun t => (t.1, t.2.1)) =
        smallSize (trips.map fun t => (t.2.1, t.2.2)) := by
      simp only [smallSize, largeSize, List.map_map, Function.comp_def]
    have hkept : Kept (trips.map fun t => (t.1, t.2.1)) := fun p hp => by
      obtain ⟨t, ht, rfl⟩ := List.mem_map.1 hp
      exact (htrips t ht).1
    rw [hsmall, hlarge, hmiddle, ih htrips (Nat.mod_lt j hpos)]
    generalize trips.map (fun t => (t.1, t.2.1)) = inner at *
    generalize trips.map (fun t => (t.2.1, t.2.2)) = outer at *
    -- the digits over a digit lie over those in between
    have hdigits : (if c = 1 then Multiset.range a else {j / smallSize inner}) =
        (if c = 1 then Multiset.range b else {j / smallSize inner}).bind fun q =>
          if b = 1 then Multiset.range a else {q} := by
      by_cases hone : b = 1
      · have hc' : c = 1 := hc.elim id (·.trans hone)
        simp only [hc', hone, if_true]
        exact (Multiset.singleton_bind 0 fun _ => Multiset.range a).symm
      · obtain rfl := hb.resolve_left hone
        simp only [hone, if_false]
        rw [Multiset.bind_singleton, Multiset.map_id']
    rw [hdigits, Multiset.bind_assoc]
    refine Multiset.bind_congr fun q _ => ?_
    have houter : ∀ m ∈ fiber inner (j % smallSize inner),
        (q * smallSize outer + m) / smallSize outer = q ∧
          (q * smallSize outer + m) % smallSize outer = m := fun m hm => by
      have hlt := lt_of_mem_fiber hkept (Nat.mod_lt j hpos) hm
      rw [hmiddle] at hlt
      have hpos' := Nat.zero_lt_of_lt hlt
      refine ⟨?_, ?_⟩
      · rw [Nat.mul_comm, Nat.mul_add_div hpos', Nat.div_eq_of_lt hlt, Nat.add_zero]
      · rw [Nat.mul_add_mod_of_lt hlt]
    calc _ = (if b = 1 then Multiset.range a else {q}).bind fun q' =>
          (fiber inner (j % smallSize inner)).bind fun m =>
            (fiber outer m).map fun n => q' * largeSize outer + n := by
          refine Multiset.bind_congr fun q' _ => ?_
          rw [Multiset.map_bind]
      _ = (fiber inner (j % smallSize inner)).bind fun m =>
          (if b = 1 then Multiset.range a else {q}).bind fun q' =>
            (fiber outer m).map fun n => q' * largeSize outer + n := Multiset.bind_bind _ _
      _ = _ := by
          rw [Multiset.bind_map]
          refine Multiset.bind_congr fun m hm => ?_
          rw [(houter m hm).1, (houter m hm).2]

/-- **One reduction after the other.** -/
theorem Reduction.over_over {trips : List (ℕ × ℕ × ℕ)}
    (h : ∀ t ∈ trips, (t.1 = 1 ∨ t.1 = t.2.1) ∧ (t.2.1 = 1 ∨ t.2.1 = t.2.2))
    (hj : j < smallSize (trips.map fun t => (t.1, t.2.1))) (x : ℕ → V) :
    R.over (trips.map fun t => (t.1, t.2.1)) (R.over (trips.map fun t => (t.2.1, t.2.2)) x) j =
      R.over (trips.map fun t => (t.1, t.2.2)) x j := by
  unfold Reduction.over
  rw [fiber_bind h hj, Multiset.map_bind]
  generalize fiber (trips.map fun t => (t.1, t.2.1)) j = inner
  have hjoin := R.join
    (inner.map fun i => (fiber (trips.map fun t => (t.2.1, t.2.2)) i).map x) _ fun t ht => by
      obtain ⟨i, -, rfl⟩ := Multiset.mem_map.1 ht
      rw [Multiset.card_map]
      exact card_fiber _ i
  rw [Multiset.map_map] at hjoin
  exact hjoin.symm

/-! ### Axes next to each other -/

/-- The middle one of three axes is reduced. -/
def Reduction.axis (dims : ℕ × ℕ × ℕ) (x : ℕ → V) (j : ℕ) : V :=
  R.reduce ((Multiset.range dims.2.1).map fun k =>
    x ((j / dims.2.2 * dims.2.1 + k) * dims.2.2 + j % dims.2.2))

/-- Axes that are kept. -/
def kept (l : List ℕ) : List (ℕ × ℕ) := l.map fun n => (n, n)

/-- Axes that are reduced. -/
def gone (l : List ℕ) : List (ℕ × ℕ) := l.map fun n => (1, n)

@[simp] theorem smallSize_kept (l : List ℕ) : smallSize (kept l) = l.prod := by
  rw [smallSize, kept, List.map_map]
  exact congrArg List.prod l.map_id

@[simp] theorem largeSize_kept (l : List ℕ) : largeSize (kept l) = l.prod := by
  rw [largeSize, kept, List.map_map]
  exact congrArg List.prod l.map_id

@[simp] theorem smallSize_append (d d' : List (ℕ × ℕ)) :
    smallSize (d ++ d') = smallSize d * smallSize d' := by
  rw [smallSize, List.map_append, List.prod_append, smallSize, smallSize]

@[simp] theorem largeSize_append (d d' : List (ℕ × ℕ)) :
    largeSize (d ++ d') = largeSize d * largeSize d' := by
  rw [largeSize, List.map_append, List.prod_append, largeSize, largeSize]

@[simp] theorem smallSize_gone (l : List ℕ) : smallSize (gone l) = 1 := by
  rw [smallSize, gone, List.map_map]
  exact List.prod_eq_one fun n hn => by
    obtain ⟨m, -, rfl⟩ := List.mem_map.1 hn
    rfl

@[simp] theorem largeSize_gone (l : List ℕ) : largeSize (gone l) = l.prod := by
  rw [largeSize, gone, List.map_map]
  exact congrArg List.prod l.map_id

/-- Over an element lies that element, where nothing is reduced. -/
theorem fiber_kept_append {l : List ℕ} (hj : j < l.prod * smallSize dims) :
    fiber (kept l ++ dims) j =
      (fiber dims (j % smallSize dims)).map fun n => j / smallSize dims * largeSize dims + n := by
  induction l generalizing j with
  | nil =>
    rw [List.prod_nil, Nat.one_mul] at hj
    rw [Nat.mod_eq_of_lt hj, Nat.div_eq_of_lt hj]
    simp [kept]
  | cons n l ih =>
    rw [List.prod_cons, Nat.mul_assoc] at hj
    have hpos := Nat.pos_of_mul_pos_left (Nat.zero_lt_of_lt hj)
    have hsize : smallSize (kept l ++ dims) = l.prod * smallSize dims := by simp
    have hdigit : (if n = 1 then Multiset.range n else {j / (l.prod * smallSize dims)}) =
        {j / (l.prod * smallSize dims)} := by
      split_ifs with hone
      · subst hone
        rw [Nat.one_mul] at hj
        rw [Nat.div_eq_of_lt hj]
        rfl
      · rfl
    show fiber ((n, n) :: (kept l ++ dims)) j = _
    rw [fiber, hsize, hdigit, Multiset.singleton_bind, ih (Nat.mod_lt j hpos), Multiset.map_map,
      Nat.mod_mul_left_mod]
    refine Multiset.map_congr rfl fun m _ => ?_
    have hdigits : j / (l.prod * smallSize dims) * l.prod +
        j % (l.prod * smallSize dims) / smallSize dims = j / smallSize dims := by
      rw [Nat.mod_mul_left_div_self, Nat.mul_comm l.prod, ← Nat.div_div_eq_div_mul]
      exact Nat.div_add_mod' _ _
    simp only [Function.comp_apply, largeSize_append, largeSize_kept]
    rw [← hdigits]
    ring

theorem fiber_kept {l : List ℕ} (hj : j < l.prod) : fiber (kept l) j = {j} := by
  have h : fiber (kept l ++ []) j = _ := fiber_kept_append (by simpa using hj)
  rw [List.append_nil] at h
  rw [h]
  simp [fiber]

/-- All digits of the axes that are reduced lie over an element. -/
theorem fiber_gone_append (l : List ℕ) (hj : j < smallSize dims) :
    fiber (gone l ++ dims) j = (Multiset.range l.prod).bind fun k =>
      (fiber dims j).map fun n => k * largeSize dims + n := by
  induction l with
  | nil =>
    rw [List.prod_nil]
    show fiber dims j = ({0} : Multiset ℕ).bind _
    simp
  | cons n l ih =>
    have hsize : smallSize (gone l ++ dims) = smallSize dims := by simp
    show fiber ((1, n) :: (gone l ++ dims)) j = _
    rw [fiber, if_pos rfl, hsize, Nat.mod_eq_of_lt hj, ih, List.prod_cons, bind_range_mul]
    refine Multiset.bind_congr fun q _ => ?_
    rw [Multiset.map_bind]
    refine Multiset.bind_congr fun k _ => ?_
    rw [Multiset.map_map, largeSize_append, largeSize_gone]
    refine Multiset.map_congr rfl fun m _ => ?_
    rw [Function.comp_apply]
    ring

/-- **Axes next to each other** are one axis. -/
theorem over_group (l g r : List ℕ) (x : ℕ → V) (hj : j < l.prod * r.prod) :
    R.over (kept l ++ (gone g ++ kept r)) x j = R.axis (l.prod, g.prod, r.prod) x j := by
  have hpos := Nat.pos_of_mul_pos_left (Nat.zero_lt_of_lt hj)
  have hmod := Nat.mod_lt j hpos
  have hsize : smallSize (gone g ++ kept r) = r.prod := by simp
  have hfiber : fiber (kept l ++ (gone g ++ kept r)) j = (Multiset.range g.prod).map fun k =>
      (j / r.prod * g.prod + k) * r.prod + j % r.prod := by
    rw [fiber_kept_append (by rwa [hsize]), hsize, fiber_gone_append g (by rwa [smallSize_kept]),
      fiber_kept hmod, Multiset.map_bind]
    simp only [Multiset.map_singleton, Multiset.bind_singleton, largeSize_append, largeSize_gone,
      largeSize_kept]
    refine Multiset.map_congr rfl fun k _ => ?_
    ring
  rw [Reduction.over, Reduction.axis, hfiber, Multiset.map_map]
  rfl

end Lib.Reduce
