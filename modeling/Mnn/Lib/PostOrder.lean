import Mathlib.Data.List.Basic
import Mathlib.Data.List.Nodup
import Mathlib.Logic.Relation
import Mathlib.Tactic

/-!
# Orders by a stack

A stack of nodes that is worked off from its top: a finished node is dropped, a node with an
unfinished successor gets it on top of it, another node is finished.  On a graph without infinite
descents this ends, whatever is on the stack, and the nodes are finished after their successors.

* `finish`: the loop;
* `exists_finish`: it ends; `finish_mono`: more steps change nothing;
* `Closed`: every node after its successors; `Finishes`, `finish_spec`: what the result is.
-/

namespace Lib.PostOrder

variable {ε : Type*} [DecidableEq ε] (next : ε → List ε)

/-- The loop on a stack, with the nodes finished so far. -/
def finish : ℕ → List ε → List ε → Option (List ε)
  | _, [], done => some done
  | 0, _ :: _, _ => none
  | fuel + 1, x :: stack, done =>
    if x ∈ done then finish fuel stack done
    else
      match (next x).find? fun y => y ∉ done with
      | some y => finish fuel (y :: x :: stack) done
      | none => finish fuel stack (done ++ [x])

variable {next} {x : ε} {stack done order : List ε} {m n : ℕ}

@[simp] theorem finish_nil (n : ℕ) (done : List ε) : finish next n [] done = some done := by
  cases n <;> rfl

theorem finish_of_mem (hx : x ∈ done) :
    finish next (n + 1) (x :: stack) done = finish next n stack done := by
  rw [finish, if_pos hx]

theorem finish_of_successor {y : ε} (hx : x ∉ done)
    (hy : (next x).find? (fun y => y ∉ done) = some y) :
    finish next (n + 1) (x :: stack) done = finish next n (y :: x :: stack) done := by
  rw [finish, if_neg hx, hy]

theorem finish_of_done (hx : x ∉ done) (hnext : ∀ y ∈ next x, y ∈ done) :
    finish next (n + 1) (x :: stack) done = finish next n stack (done ++ [x]) := by
  have hnone : (next x).find? (fun y => y ∉ done) = none := by
    simpa [List.find?_eq_none] using hnext
  rw [finish, if_neg hx, hnone]

/-- A node on the stack is finished, has an unfinished successor or has none. -/
theorem cases_top (next : ε → List ε) (x : ε) (done : List ε) :
    x ∈ done ∨ x ∉ done ∧ ((∃ y ∈ next x, y ∉ done ∧
      (next x).find? (fun y => y ∉ done) = some y) ∨ ∀ y ∈ next x, y ∈ done) := by
  by_cases hx : x ∈ done
  · exact .inl hx
  refine .inr ⟨hx, ?_⟩
  cases hfind : (next x).find? (fun y => y ∉ done) with
  | some y =>
    exact .inl ⟨y, List.mem_of_find?_eq_some hfind, by simpa using List.find?_some hfind, rfl⟩
  | none => exact .inr (by simpa [List.find?_eq_none] using hfind)

theorem finish_mono (h : finish next n stack done = some order) (hle : n ≤ m) :
    finish next m stack done = some order := by
  induction n generalizing m stack done with
  | zero =>
    cases stack with
    | nil => rwa [finish_nil] at h ⊢
    | cons x stack => cases h
  | succ n ih =>
    obtain ⟨m, rfl⟩ : ∃ k, m = k + 1 := ⟨m - 1, by omega⟩
    have hle : n ≤ m := by omega
    cases stack with
    | nil => rwa [finish_nil] at h ⊢
    | cons x stack =>
      rcases cases_top next x done with hx | ⟨hx, ⟨y, -, -, hy⟩ | hnext⟩
      · rw [finish_of_mem hx] at h ⊢
        exact ih h hle
      · rw [finish_of_successor hx hy] at h ⊢
        exact ih h hle
      · rw [finish_of_done hx hnext] at h ⊢
        exact ih h hle

/-! ### Termination -/

/-- Among the successors of `x`, fewer are unfinished once one of them is finished. -/
theorem card_lt {later : List ε} {y : ε} (hy : y ∈ next x) (hydone : y ∉ done) (hsub : done ⊆ later)
    (hlater : y ∈ later) :
    ((next x).toFinset \ later.toFinset).card < ((next x).toFinset \ done.toFinset).card := by
  refine Finset.card_lt_card (Finset.ssubset_iff_of_subset ?_ |>.2 ⟨y, ?_, ?_⟩)
  · exact Finset.sdiff_subset_sdiff subset_rfl fun z hz =>
      List.mem_toFinset.2 (hsub (List.mem_toFinset.1 hz))
  · exact Finset.mem_sdiff.2 ⟨List.mem_toFinset.2 hy, fun h => hydone (List.mem_toFinset.1 h)⟩
  · exact fun h => (Finset.mem_sdiff.1 h).2 (List.mem_toFinset.2 hlater)

/-- A node on top is finished after some steps, and the rest of the stack is as before. -/
theorem exists_finish_top (hwf : Acc (fun y x => y ∈ next x) x) (done : List ε) :
    ∃ k later, done ⊆ later ∧ x ∈ later ∧
      ∀ n stack, finish next (n + k) (x :: stack) done = finish next n stack later := by
  induction hwf generalizing done with
  | intro x _ ih =>
    induction hcard : ((next x).toFinset \ done.toFinset).card using Nat.strong_induction_on
      generalizing done with
    | _ c ihc =>
      rcases cases_top next x done with hx | ⟨hx, ⟨y, hynext, hydone, hy⟩ | hnext⟩
      · exact ⟨1, done, List.Subset.refl _, hx, fun n stack => finish_of_mem hx⟩
      · -- the successor on top is finished, then `x` is on top again
        obtain ⟨k₁, done₁, hsub₁, hmem₁, hrun₁⟩ := ih y hynext done
        obtain ⟨k₂, done₂, hsub₂, hmem₂, hrun₂⟩ :=
          ihc _ (hcard ▸ card_lt hynext hydone hsub₁ hmem₁) done₁ rfl
        refine ⟨k₂ + k₁ + 1, done₂, List.Subset.trans hsub₁ hsub₂, hmem₂, fun n stack => ?_⟩
        rw [← Nat.add_assoc, finish_of_successor hx hy, ← Nat.add_assoc, hrun₁, hrun₂]
      · exact ⟨1, done ++ [x], List.subset_append_left .., List.mem_append_right _
          List.mem_cons_self, fun n stack => finish_of_done hx hnext⟩

/-- **The loop ends.** -/
theorem exists_finish (hwf : WellFounded fun y x => y ∈ next x) (stack done : List ε) :
    ∃ n order, finish next n stack done = some order := by
  induction stack generalizing done with
  | nil => exact ⟨0, done, rfl⟩
  | cons x stack ih =>
    obtain ⟨k, later, -, -, hrun⟩ := exists_finish_top (hwf.apply x) done
    obtain ⟨n, order, horder⟩ := ih later
    exact ⟨n + k, order, (hrun n stack).trans horder⟩

/-! ### The order -/

variable (next) in
/-- Every node of the list comes after all its successors. -/
def Closed (order : List ε) : Prop :=
  ∀ pre x post, order = pre ++ x :: post → ∀ y ∈ next x, y ∈ pre

omit [DecidableEq ε] in
theorem Closed.concat (h : Closed next done) (hnext : ∀ y ∈ next x, y ∈ done) :
    Closed next (done ++ [x]) := by
  intro pre z post heq y hy
  rcases List.append_eq_append_iff.1 heq with ⟨l, rfl, hl⟩ | ⟨l, rfl, hl⟩
  · cases l with
    | nil =>
      obtain ⟨rfl, -⟩ := List.cons.inj hl
      rw [List.append_nil]
      exact hnext y hy
    | cons w l => exact absurd (congrArg List.length hl) (by simp)
  · cases l with
    | nil =>
      obtain ⟨rfl, -⟩ := List.cons.inj hl
      rw [List.append_nil] at hnext
      exact hnext y hy
    | cons w l =>
      obtain ⟨rfl, rfl⟩ := List.cons.inj hl
      exact h pre z l rfl y hy

omit [DecidableEq ε] in
/-- Then it has all that its nodes lead to. -/
theorem Closed.mem_of_reachable (h : Closed next order) {z : ε} (hx : x ∈ order)
    (hreach : Relation.ReflTransGen (fun x y => y ∈ next x) x z) : z ∈ order := by
  induction hreach with
  | refl => exact hx
  | tail _ hstep ih =>
    obtain ⟨pre, post, heq⟩ := List.append_of_mem ih
    rw [heq]
    exact List.mem_append_left _ (h pre _ post heq _ hstep)

variable (next) in
/-- What is finished from a stack: each node once, after its successors, and nothing but what was
finished before and what the stack leads to. -/
structure Finishes (stack done order : List ε) : Prop where
  initial : done <+: order
  covers : stack ⊆ order
  nodup : done.Nodup → order.Nodup
  closed : Closed next done → Closed next order
  reachable : ∀ z ∈ order, z ∈ done ∨
    ∃ s ∈ stack, Relation.ReflTransGen (fun x y => y ∈ next x) s z

theorem finish_spec (h : finish next n stack done = some order) :
    Finishes next stack done order := by
  induction n generalizing stack done with
  | zero =>
    cases stack with
    | nil =>
      obtain rfl := Option.some.inj h
      exact ⟨List.prefix_rfl, List.nil_subset _, id, id, fun z hz => .inl hz⟩
    | cons x stack => cases h
  | succ n ih =>
    cases stack with
    | nil =>
      obtain rfl := Option.some.inj h
      exact ⟨List.prefix_rfl, List.nil_subset _, id, id, fun z hz => .inl hz⟩
    | cons x stack =>
      rcases cases_top next x done with hx | ⟨hx, ⟨y, hynext, -, hy⟩ | hnext⟩
      · rw [finish_of_mem hx] at h
        have hrest := ih h
        refine ⟨hrest.initial, List.cons_subset.2 ⟨hrest.initial.subset hx, hrest.covers⟩,
          hrest.nodup, hrest.closed, fun z hz => (hrest.reachable z hz).imp_right ?_⟩
        exact fun ⟨s, hs, hreach⟩ => ⟨s, List.mem_cons_of_mem x hs, hreach⟩
      · rw [finish_of_successor hx hy] at h
        have hrest := ih h
        refine ⟨hrest.initial, (List.cons_subset.1 hrest.covers).2, hrest.nodup, hrest.closed,
          fun z hz => (hrest.reachable z hz).imp_right ?_⟩
        rintro ⟨s, hs, hreach⟩
        rcases List.mem_cons.1 hs with rfl | hs
        · exact ⟨x, List.mem_cons_self, .head hynext hreach⟩
        · exact ⟨s, hs, hreach⟩
      · rw [finish_of_done hx hnext] at h
        have hrest := ih h
        refine ⟨(List.prefix_append ..).trans hrest.initial, List.cons_subset.2
            ⟨hrest.initial.subset (List.mem_append_right _ List.mem_cons_self), hrest.covers⟩,
          fun hnodup => hrest.nodup (List.nodup_append.2 ⟨hnodup, List.nodup_singleton x, ?_⟩),
          fun hclosed => hrest.closed (hclosed.concat hnext), fun z hz => ?_⟩
        · rintro a ha b hb rfl
          exact hx (List.mem_singleton.1 hb ▸ ha)
        · rcases hrest.reachable z hz with hdone | ⟨s, hs, hreach⟩
          · rcases List.mem_append.1 hdone with hdone | hdone
            · exact .inl hdone
            · exact .inr ⟨x, List.mem_cons_self, List.mem_singleton.1 hdone ▸ .refl⟩
          · exact .inr ⟨s, List.mem_cons_of_mem x hs, hreach⟩

end Lib.PostOrder
