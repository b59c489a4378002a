import Mathlib.Algebra.Order.Group.Multiset
import Mnn.Lib.Loops

/-!
# Nests of counting loops

Every loop of a nest moves two addresses by a step of its own.  What counts is which pairs of
addresses the innermost statement sees, and how often, but not in which order.

* `Loop`, `nest`: a loop, and the pairs of addresses of a nest;
* `nest_perm`, `nest_unit`, `nest_merge`, `nest_append`: **loops may change places, be left out when
  they make one pass, be merged into one, and be taken apart in two nests**;
* `coords`, `nest_eq_coords`: the pairs by the counters of the loops;
* `steps`, `map_address_coords`: steps with which an address takes every value once;
* `dense`, `nest_dense_unit`, `nest_dense_merge`: loops whose second address has such steps.
-/

namespace Lib.LoopNest

/-- A loop: the number of its passes, and its steps in the two spaces. -/
structure Loop where
  extent : ℕ
  near : ℤ
  far : ℤ
  deriving DecidableEq

/-- The pairs of addresses that a nest of loops visits. -/
def nest : List Loop → Multiset (ℤ × ℤ)
  | [] => {(0, 0)}
  | a :: l => (Multiset.range a.extent).bind fun k => (nest l).map fun p =>
      ((k * a.near, k * a.far) : ℤ × ℤ) + p

@[simp] theorem nest_nil : nest [] = {(0, 0)} := rfl

theorem nest_cons (a : Loop) (l : List Loop) :
    nest (a :: l) = (Multiset.range a.extent).bind fun k => (nest l).map fun p =>
      ((k * a.near, k * a.far) : ℤ × ℤ) + p := rfl

theorem nest_swap (a b : Loop) (l : List Loop) : nest (a :: b :: l) = nest (b :: a :: l) := by
  simp only [nest_cons, Multiset.map_bind, Multiset.map_map, Function.comp_def]
  rw [Multiset.bind_bind]
  refine Multiset.bind_congr fun j _ => Multiset.bind_congr fun k _ => ?_
  exact Multiset.map_congr rfl fun p _ => add_left_comm ..

/-- Loops may change places. -/
theorem nest_perm {l l' : List Loop} (h : l.Perm l') : nest l = nest l' := by
  induction h with
  | nil => rfl
  | cons a _ ih => rw [nest_cons, nest_cons, ih]
  | swap a b l => exact nest_swap b a l
  | trans _ _ ih ih' => exact ih.trans ih'

/-- A loop with one pass may be left out. -/
theorem nest_unit {a : Loop} (h : a.extent = 1) (l : List Loop) : nest (a :: l) = nest l := by
  rw [nest_cons, h]
  show ({0} : Multiset ℕ).bind _ = _
  rw [Multiset.singleton_bind]
  simp only [Nat.cast_zero, zero_mul]
  exact (Multiset.map_congr rfl fun p _ => zero_add p).trans (Multiset.map_id' _)

/-- A loop and one inside of it whose steps are that many times shorter are one. -/
theorem nest_merge (m n : ℕ) (near far : ℤ) (l : List Loop) :
    nest (⟨m, n * near, n * far⟩ :: ⟨n, near, far⟩ :: l) = nest (⟨m * n, near, far⟩ :: l) := by
  simp only [nest_cons, bind_range_mul, Multiset.map_bind, Multiset.map_map, Function.comp_def]
  refine Multiset.bind_congr fun q _ => Multiset.bind_congr fun k _ => ?_
  refine Multiset.map_congr rfl fun p _ => ?_
  rw [← add_assoc]
  congr 1
  refine Prod.ext ?_ ?_
  · simp only [Prod.mk_add_mk]
    push_cast
    ring
  · simp only [Prod.mk_add_mk]
    push_cast
    ring

/-- A nest is a nest inside of another. -/
theorem nest_append (l l' : List Loop) :
    nest (l ++ l') = (nest l).bind fun p => (nest l').map (p + ·) := by
  induction l with
  | nil =>
    rw [List.nil_append, nest_nil, Multiset.singleton_bind]
    exact ((Multiset.map_congr rfl fun p _ => zero_add p).trans (Multiset.map_id' _)).symm
  | cons a l ih =>
    simp only [List.cons_append, nest_cons, ih, Multiset.map_bind, Multiset.map_map,
      Multiset.bind_assoc, Multiset.bind_map, Function.comp_def, add_assoc]

theorem card_nest (l : List Loop) : (nest l).card = (l.map Loop.extent).prod := by
  induction l with
  | nil => rfl
  | cons a l ih =>
    rw [nest_cons, Multiset.card_bind, List.map_cons, List.prod_cons]
    simp only [Function.comp_def, Multiset.card_map, ih, Multiset.map_const', Multiset.card_range,
      Multiset.sum_replicate, smul_eq_mul]

/-! ### Counters -/

/-- The values of the counters of a nest. -/
def coords : List ℕ → Multiset (List ℕ)
  | [] => {[]}
  | n :: l => (Multiset.range n).bind fun k => (coords l).map (k :: ·)

theorem mem_coords {l i : List ℕ} : i ∈ coords l ↔ List.Forall₂ (· < ·) i l := by
  induction l generalizing i with
  | nil => simp [coords]
  | cons n l ih =>
    simp only [coords, Multiset.mem_bind, Multiset.mem_map, Multiset.mem_range, ih,
      List.forall₂_cons_right_iff]
    constructor
    · rintro ⟨k, hk, j, hj, rfl⟩
      exact ⟨k, j, hk, hj, rfl⟩
    · rintro ⟨k, j, hk, hj, rfl⟩
      exact ⟨k, hk, j, hj, rfl⟩

/-- The address at some counters. -/
def address (steps : List ℤ) (i : List ℕ) : ℤ :=
  (List.zipWith (fun (k : ℕ) (s : ℤ) => k * s) i steps).sum

@[simp] theorem address_nil (steps : List ℤ) : address steps [] = 0 := by
  rw [address, List.zipWith_nil_left, List.sum_nil]

@[simp] theorem address_cons (s : ℤ) (steps : List ℤ) (k : ℕ) (i : List ℕ) :
    address (s :: steps) (k :: i) = k * s + address steps i := by
  rw [address, List.zipWith_cons_cons, List.sum_cons, address]

theorem nest_eq_coords (l : List Loop) :
    nest l = (coords (l.map Loop.extent)).map fun i =>
      (address (l.map Loop.near) i, address (l.map Loop.far) i) := by
  induction l with
  | nil => simp [coords]
  | cons a l ih =>
    simp only [nest_cons, ih, List.map_cons, coords, Multiset.map_bind, Multiset.map_map,
      Function.comp_def, address_cons, Prod.mk_add_mk]

/-- The numbers below a product are the values of its counters. -/
theorem coords_eq_map {decode : List ℕ → ℕ → List ℕ} (hnil : ∀ m, decode [] m = [])
    (hcons : ∀ n l k m, m < l.prod → decode (n :: l) (k * l.prod + m) = k :: decode l m)
    (l : List ℕ) : (Multiset.range l.prod).map (decode l) = coords l := by
  induction l with
  | nil =>
    show ({decode [] 0} : Multiset (List ℕ)) = {[]}
    rw [hnil]
  | cons n l ih =>
    rw [List.prod_cons, ← Multiset.bind_singleton, bind_range_mul, coords]
    refine Multiset.bind_congr fun k _ => ?_
    rw [Multiset.bind_singleton, ← ih, Multiset.map_map]
    exact Multiset.map_congr rfl fun m hm => hcons n l k m (Multiset.mem_range.1 hm)

/-! ### Dense steps -/

/-- The steps of a tensor whose last axis is the fastest. -/
def steps : List ℕ → List ℤ
  | [] => []
  | _ :: l => (l.prod : ℤ) :: steps l

/-- **Every address once.** -/
theorem map_address_coords (l : List ℕ) :
    (coords l).map (address (steps l)) = (Multiset.range l.prod).map fun n : ℕ => (n : ℤ) := by
  induction l with
  | nil => rfl
  | cons n l ih =>
    rw [List.prod_cons, ← Multiset.bind_singleton (Multiset.range _), bind_range_mul, coords,
      Multiset.map_bind]
    refine Multiset.bind_congr fun k _ => ?_
    have hrest := congrArg (Multiset.map ((k * l.prod : ℤ) + ·)) ih
    rw [Multiset.map_map, Multiset.map_map] at hrest
    rw [Multiset.map_map, Multiset.bind_singleton]
    refine (Multiset.map_congr rfl fun i _ => ?_).trans (hrest.trans ?_)
    · rw [Function.comp_apply, steps, address_cons, Function.comp_apply]
    · refine Multiset.map_congr rfl fun m _ => ?_
      rw [Function.comp_apply]
      push_cast
      rfl

/-- The loops of axes, given by extent and first step, whose second steps are dense. -/
def dense : List (ℕ × ℤ) → List Loop
  | [] => []
  | p :: l => ⟨p.1, p.2, (l.map Prod.fst).prod⟩ :: dense l

theorem nest_dense_unit (front back : List (ℕ × ℤ)) (near : ℤ) :
    nest (dense (front ++ (1, near) :: back)) = nest (dense (front ++ back)) := by
  induction front with
  | nil => exact nest_unit rfl _
  | cons p front ih => simp only [List.cons_append, dense, nest_cons, ih, List.map_append,
      List.map_cons, List.prod_append, List.prod_cons, one_mul]

theorem nest_dense_merge (front back : List (ℕ × ℤ)) (m n : ℕ) (near : ℤ) :
    nest (dense (front ++ (m, n * near) :: (n, near) :: back)) =
      nest (dense (front ++ (m * n, near) :: back)) := by
  induction front with
  | nil =>
    simp only [List.nil_append, dense, List.map_cons, List.prod_cons]
    push_cast
    exact nest_merge m n near _ _
  | cons p front ih => simp only [List.cons_append, dense, nest_cons, ih, List.map_append,
      List.map_cons, List.prod_append, List.prod_cons, mul_assoc]

theorem dense_extent (l : List (ℕ × ℤ)) : (dense l).map Loop.extent = l.map Prod.fst := by
  induction l with
  | nil => rfl
  | cons p l ih => rw [dense, List.map_cons, ih, List.map_cons]

theorem dense_near (l : List (ℕ × ℤ)) : (dense l).map Loop.near = l.map Prod.snd := by
  induction l with
  | nil => rfl
  | cons p l ih => rw [dense, List.map_cons, ih, List.map_cons]

theorem dense_far (l : List (ℕ × ℤ)) : (dense l).map Loop.far = steps (l.map Prod.fst) := by
  induction l with
  | nil => rfl
  | cons p l ih => rw [dense, List.map_cons, ih, List.map_cons, steps]

end Lib.LoopNest
