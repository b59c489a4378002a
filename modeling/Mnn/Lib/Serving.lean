import Mathlib.Logic.Function.Basic
import Mathlib.Data.List.Basic
import Mathlib.Data.List.Nodup

/-!
# Allocators that serve named slots

* `Allocator`: what an allocator promises, its blocks in use being a list without repetitions whose
  members are apart;
* `Event`, `Serves`: a list of requests made for slots and the way in which an allocator serves it;
* `Memory`: a state of an allocator with the blocks of the slots;
* `Serves.holds`, `Holds.apart`: **whatever is asked for, slots that have blocks at one moment have
  blocks that are apart**;
* `Serves.isSome`: which slots have blocks does not depend on the allocator.
-/

namespace Lib

/-- An allocator: its states with the blocks in use, how it may serve a request, and when two blocks
are apart.  The flag of a request asks for fresh memory. -/
structure Allocator where
  State : Type
  Block : Type
  Inv : State → List Block → Prop
  acquire : State → ℕ → Bool → Block → State → Prop
  release : State → Block → State → Prop
  Apart : State → Block → Block → Prop
  nodup : ∀ {s H}, Inv s H → H.Nodup
  perm : ∀ {s H H'}, Inv s H → H.Perm H' → Inv s H'
  acquire_inv : ∀ {s H size fresh b s'}, Inv s H → acquire s size fresh b s' → Inv s' (b :: H)
  release_inv : ∀ {s H b s'}, Inv s (b :: H) → release s b s' → Inv s' H
  apart : ∀ {s H b c}, Inv s H → b ∈ H → c ∈ H → b ≠ c → Apart s b c

/-- The requests: a block for a slot, or the block of a slot given back. -/
inductive Event (σ : Type*)
  | acquire (slot : σ) (size : ℕ) (fresh : Bool)
  | release (slot : σ)
  deriving DecidableEq

variable {σ : Type*} {A : Allocator}

/-- The blocks of the slots are in use, and no two slots have one block. -/
structure Holds (A : Allocator) (s : A.State) (mem : σ → Option A.Block) : Prop where
  exists_inv : ∃ H, A.Inv s H ∧ ∀ x b, mem x = some b → b ∈ H
  inj : ∀ x y b, mem x = some b → mem y = some b → x = y

theorem Holds.apart {s : A.State} {mem : σ → Option A.Block} (h : Holds A s mem) {x y : σ}
    {b c : A.Block} (hx : mem x = some b) (hy : mem y = some c) (hne : x ≠ y) : A.Apart s b c := by
  obtain ⟨H, hI, hmem⟩ := h.exists_inv
  refine A.apart hI (hmem x b hx) (hmem y c hy) fun hbc => hne (h.inj x y b hx ?_)
  rw [hy, hbc]

variable [DecidableEq σ]

/-- How a list of requests is served.  A slot that has no block gives none back. -/
inductive Serves (A : Allocator) : A.State → (σ → Option A.Block) → List (Event σ) →
    A.State → (σ → Option A.Block) → Prop
  | nil (s : A.State) (mem : σ → Option A.Block) : Serves A s mem [] s mem
  | acquire {s s₁ t : A.State} {mem mem' : σ → Option A.Block} {x : σ} {size : ℕ} {fresh : Bool}
      {b : A.Block} {l : List (Event σ)} (hb : A.acquire s size fresh b s₁)
      (hl : Serves A s₁ (Function.update mem x (some b)) l t mem') :
      Serves A s mem (.acquire x size fresh :: l) t mem'
  | release {s s₁ t : A.State} {mem mem' : σ → Option A.Block} {x : σ} {b : A.Block}
      {l : List (Event σ)} (hx : mem x = some b) (hb : A.release s b s₁)
      (hl : Serves A s₁ (Function.update mem x none) l t mem') :
      Serves A s mem (.release x :: l) t mem'
  | idle {s t : A.State} {mem mem' : σ → Option A.Block} {x : σ} {l : List (Event σ)}
      (hx : mem x = none) (hl : Serves A s mem l t mem') : Serves A s mem (.release x :: l) t mem'

theorem Holds.acquire {s s' : A.State} {mem : σ → Option A.Block} (h : Holds A s mem) {size : ℕ}
    {fresh : Bool} {b : A.Block} (hb : A.acquire s size fresh b s') (x : σ) :
    Holds A s' (Function.update mem x (some b)) := by
  obtain ⟨H, hI, hmem⟩ := h.exists_inv
  have hI' := A.acquire_inv hI hb
  have hnew : b ∉ H := (List.nodup_cons.1 (A.nodup hI')).1
  refine ⟨⟨b :: H, hI', fun y c hy => ?_⟩, fun y z c hy hz => ?_⟩
  · by_cases hyx : y = x
    · rw [hyx, Function.update_self] at hy
      obtain rfl := Option.some.inj hy
      exact List.mem_cons_self
    · rw [Function.update_of_ne hyx] at hy
      exact List.mem_cons_of_mem b (hmem y c hy)
  · by_cases hyx : y = x <;> by_cases hzx : z = x
    · rw [hyx, hzx]
    · -- the new block was not in use
      rw [hyx, Function.update_self] at hy
      rw [Function.update_of_ne hzx] at hz
      obtain rfl := Option.some.inj hy
      exact absurd (hmem z b hz) hnew
    · rw [hzx, Function.update_self] at hz
      rw [Function.update_of_ne hyx] at hy
      obtain rfl := Option.some.inj hz
      exact absurd (hmem y b hy) hnew
    · rw [Function.update_of_ne hyx] at hy
      rw [Function.update_of_ne hzx] at hz
      exact h.inj y z c hy hz

theorem Holds.release {s s' : A.State} {mem : σ → Option A.Block} (h : Holds A s mem) {x : σ}
    {b : A.Block} (hx : mem x = some b) (hb : A.release s b s') :
    Holds A s' (Function.update mem x none) := by
  obtain ⟨H, hI, hmem⟩ := h.exists_inv
  obtain ⟨H₁, H₂, rfl⟩ := List.append_of_mem (hmem x b hx)
  have hI' := A.release_inv (A.perm hI List.perm_middle) hb
  have hne : ∀ y c, Function.update mem x none y = some c → y ≠ x ∧ mem y = some c := by
    intro y c hy
    by_cases hyx : y = x
    · rw [hyx, Function.update_self] at hy
      exact nomatch hy
    · rw [Function.update_of_ne hyx] at hy
      exact ⟨hyx, hy⟩
  refine ⟨⟨H₁ ++ H₂, hI', fun y c hy => ?_⟩, fun y z c hy hz => ?_⟩
  · obtain ⟨hyx, hy⟩ := hne y c hy
    have hc := hmem y c hy
    have hcb : c ≠ b := fun hcb => hyx (h.inj y x b (hcb ▸ hy) hx)
    simp only [List.mem_append, List.mem_cons] at hc ⊢
    tauto
  · exact h.inj y z c (hne y c hy).2 (hne z c hz).2

/-- **The run lemma.** -/
theorem Serves.holds {s t : A.State} {mem mem' : σ → Option A.Block} {l : List (Event σ)}
    (h : Serves A s mem l t mem') (hs : Holds A s mem) : Holds A t mem' := by
  induction h with
  | nil => exact hs
  | acquire hb _ ih => exact ih (hs.acquire hb _)
  | release hx hb _ ih => exact ih (hs.release hx hb)
  | idle _ _ ih => exact ih hs

/-- Which slots have a block after a list of requests. -/
def occupied (has : σ → Bool) : List (Event σ) → σ → Bool
  | [] => has
  | .acquire x _ _ :: l => occupied (Function.update has x true) l
  | .release x :: l => occupied (Function.update has x false) l

theorem occupied_append (has : σ → Bool) (l m : List (Event σ)) :
    occupied has (l ++ m) = occupied (occupied has l) m := by
  induction l generalizing has with
  | nil => rfl
  | cons e l ih => cases e <;> exact ih _

theorem isSome_update {β : Type*} (mem : σ → Option β) (x : σ) (o : Option β) :
    (fun y => (Function.update mem x o y).isSome) =
      Function.update (fun y => (mem y).isSome) x o.isSome := by
  funext y
  by_cases h : y = x
  · rw [h, Function.update_self, Function.update_self]
  · rw [Function.update_of_ne h, Function.update_of_ne h]

/-- The occupied slots are those that the requests say. -/
theorem Serves.isSome {s t : A.State} {mem mem' : σ → Option A.Block} {l : List (Event σ)}
    (h : Serves A s mem l t mem') :
    (fun x => (mem' x).isSome) = occupied (fun x => (mem x).isSome) l := by
  induction h with
  | nil => rfl
  | acquire _ _ ih => rw [ih, isSome_update]; rfl
  | release _ _ _ ih => rw [ih, isSome_update]; rfl
  | @idle s t mem mem' x l hx _ ih =>
    have hsame : Function.update (fun y => (mem y).isSome) x false = fun y => (mem y).isSome := by
      refine Function.update_eq_self_iff.2 ?_
      rw [hx]
      rfl
    rw [ih, occupied, hsame]

/-- A state of an allocator with the blocks of the slots. -/
structure Memory (A : Allocator) (σ : Type*) [DecidableEq σ] where
  state : A.State
  block : σ → Option A.Block
  holds : Holds A state block

end Lib
