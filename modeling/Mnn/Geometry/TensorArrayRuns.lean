import Mnn.Geometry.TensorArrayConcat

/-!
# Sequences of operations on tensor arrays

* `inv_run`: the invariant after a run;
* `run_represents`: **a tensor array stands for the list that the operations describe**, as long as
  each operation meets its condition;
* `scatter_lost`: without it, `TensorArrayScatter` keeps the old value of the element it writes, and
  loses another one.
-/

namespace Mnn.TensorArray

variable {V : Type*} [Zero V]

/-! ### The condition can be computed -/

omit [Zero V] in
theorem forall_written_iff {elems : Elems V} {P : ℕ → Elem V → Prop} :
    (∀ p ∈ elems.zipIdx, ∀ e ∈ p.1, P p.2 e) ↔ ∀ i e, elems.Written i e → P i e := by
  constructor
  · intro h i e hi
    exact h (some e, i) (List.mk_mem_zipIdx_iff_getElem?.2 hi) e rfl
  · rintro h ⟨o, i⟩ hp e rfl
    exact h i e (List.mk_mem_zipIdx_iff_getElem?.1 hp)

instance decidableForallWritten (elems : Elems V) (P : ℕ → Elem V → Prop)
    [∀ i e, Decidable (P i e)] : Decidable (∀ i e, elems.Written i e → P i e) :=
  decidable_of_iff (∀ p ∈ elems.zipIdx, ∀ e ∈ p.1, P p.2 e) forall_written_iff

instance decidableProper (s : State V) : ∀ a, Decidable (Proper s a)
  | .write _ _ _ => inferInstanceAs (Decidable (_ ∧ _))
  | .insert _ _ _ => inferInstanceAs (Decidable (_ ∧ _))
  | .erase _ => inferInstanceAs (Decidable (_ ∧ _))
  | .scatter _ _ => inferInstanceAs (Decidable (_ ∧ _))
  | .split _ _ _ _ => inferInstanceAs (Decidable (_ ∧ _))

theorem forall_append_cons_iff {α : Type*} {l : List α} {P : List α → α → List α → Prop} :
    (∀ k : Fin l.length, P (l.take k) (l.get k) (l.drop (k + 1))) ↔
      ∀ pre x post, l = pre ++ x :: post → P pre x post := by
  constructor
  · rintro h pre x post rfl
    simpa using h ⟨pre.length, by simp⟩
  · intro h k
    exact h _ _ _ (by rw [List.get_eq_getElem, List.cons_getElem_drop_succ, List.take_append_drop])

instance decidableForallSplit {α : Type*} (l : List α) (P : List α → α → List α → Prop)
    [∀ pre x post, Decidable (P pre x post)] :
    Decidable (∀ pre x post, l = pre ++ x :: post → P pre x post) :=
  decidable_of_iff _ forall_append_cons_iff

instance decidableKept (s : State V) : ∀ a, Decidable (Kept s a)
  | .write _ _ _ => inferInstanceAs (Decidable (_ ∧ _))
  | .insert _ _ _ => inferInstanceAs (Decidable (_ ∧ _))
  | .erase _ => inferInstanceAs (Decidable (_ → _))
  | .scatter _ _ => inferInstanceAs (Decidable (_ ∧ _))
  | .split _ _ _ _ => inferInstanceAs (Decidable (_ ∧ _))

instance : ∀ (s : State V) a, Decidable (machine.Allowed s a) :=
  fun s a => inferInstanceAs (Decidable (Proper s a ∧ Kept s a))

/-! ### Runs -/

section Runs

variable {s : State V}

theorem inv_step {a : Action V} (h : Inv s) (ha : machine.Allowed s a) :
    Inv (machine.step s a) := by
  obtain ⟨hproper, hkept⟩ := ha
  cases a with
  | write handle index value => exact h.write hproper hkept
  | insert handle position value => exact h.insert hproper hkept
  | erase position => exact h.erase hproper hkept
  | scatter indices value => exact h.scatter hproper hkept
  | split axis keepdims lengths value => exact Inv.split hproper hkept

variable {dynamic_size identical_element_shapes : Bool} {element_shape : List ℤ} {size : ℕ}
  {as : List (Action V)}

theorem inv_run (h : Lib.Run machine
    (start dynamic_size identical_element_shapes element_shape size) as s) : Inv s :=
  h.invariant (fun _ _ hs ha => inv_step hs ha) (start_inv _ _ _ _)

/-- **Main theorem.** A tensor array stands for the list that the operations describe. -/
theorem run_represents (h : Lib.Run machine
    (start dynamic_size identical_element_shapes element_shape size) as s) : Represents s where
  arraySize := (inv_run h).arraySize
  elemShape := fun _ _ hi => (inv_run h).readShape_eq hi
  flat := fun _ hes => ⟨(inv_run h).flat_eq hes, (inv_run h).flatLength_eq hes⟩
  read := fun _ _ hi => (inv_run h).read_is hi
  gather := fun _ _ _ _ _ hread hkept => (inv_run h).gather_is hread hkept
  concat := fun _ _ _ _ hne hes hfits hshape => (inv_run h).concat_is hne hes hfits hshape

end Runs

/-! ### Runs on fixed arrays -/

/-- A tensor with one dimension. -/
def vector (data : List ℤ) : Elem ℤ where
  shape := [data.length]
  data := data
  length_eq := by rw [List.prod_singleton]

/-- Elements of several lengths, written, inserted and removed. -/
def edits : List (Action ℤ) :=
  [.write (createAttr true false [] 0) 0 (vector [5]),
    .write (writeAttr (createAttr true false [] 0) 0 [1]) 1 (vector [7, 8]),
    .insert (writeAttr (writeAttr (createAttr true false [] 0) 0 [1]) 1 [2]) (-2) (vector [1, 2, 3]),
    .erase 1]

theorem edits_represents : Represents (edits.foldl machine.step (start true false [] 0)) := by
  have hrun : Lib.Run machine (start true false [] 0) edits
      (edits.foldl machine.step (start true false [] 0)) := by decide
  exact run_represents hrun

/-- The same operations, without the condition. -/
def operations : Lib.Machine (State ℤ) (Action ℤ) where
  Allowed := Proper
  step := machine.step

instance : ∀ s a, Decidable (operations.Allowed s a) := decidableProper

/-- Two elements, and a scatter of one value to the second of them. -/
def scatterSecond : List (Action ℤ) :=
  [.write (createAttr false true [1] 2) 0 (vector [5]),
    .write (createAttr false true [1] 2) 1 (vector [7]),
    .scatter [1] ⟨[1, 1], [9], rfl⟩]

theorem scatter_lost : ∃ s, Lib.Run operations (start false true [1] 2) scatterSecond s ∧
    s.elems.map (Option.map Elem.data) = [some [5], some [9]] ∧
    (read s.array 0).content 0 = 0 ∧ (read s.array 1).content 0 = 7 ∧ ¬ Represents s := by
  refine ⟨scatterSecond.foldl operations.step (start false true [1] 2), by decide, by decide,
    by decide, by decide, fun h => ?_⟩
  have hread := (h.read 1 ⟨[1], [9], rfl⟩ rfl).2 0 9 rfl
  exact absurd hread (by decide)

end Mnn.TensorArray
