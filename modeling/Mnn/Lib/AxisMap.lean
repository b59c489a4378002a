import Mathlib.Data.Option.NAry
import Mnn.Lib.Broadcast

/-!
# Tensors mapped axis by axis

On every axis some positions of a larger tensor stand for a position of a smaller one, and an
element stands for another one when it does so on every axis.

* `Axis`, `index`, `sourceAt`: the axes, and the element of the smaller tensor by number and by
  coordinates; `index_largeAt` connects the two;
* `Same`: two lists of axes with the same elements; `Same.merge`, `Same.one`: **axes that are copied
  as they are may be fused, and left out where their length is one**.
-/

namespace Lib.AxisMap

open Lib.Broadcast (smallSize largeSize smallSize_cons largeSize_cons Coords largeAt largeAt_lt
  exists_coords)

/-- An axis: its two lengths, and where the positions of the longer one come from. -/
structure Axis where
  small : ℕ
  large : ℕ
  pos : ℕ → Option ℕ

/-- An axis that is copied as it is. -/
def Axis.plain (n : ℕ) : Axis := ⟨n, n, some⟩

/-- The lengths of the axes. -/
def dims (axes : List Axis) : List (ℕ × ℕ) := axes.map fun a => (a.small, a.large)

@[simp] theorem dims_nil : dims [] = [] := rfl
@[simp] theorem dims_cons (a : Axis) (axes : List Axis) :
    dims (a :: axes) = (a.small, a.large) :: dims axes := rfl

/-- A position on the first axis and an element of the others. -/
def join (axes : List Axis) (x s : Option ℕ) : Option ℕ :=
  Option.map₂ (fun x s => x * smallSize (dims axes) + s) x s

/-- The element that number `o` of the larger tensor stands for. -/
def index : List Axis → ℕ → Option ℕ
  | [], _ => some 0
  | a :: axes, o =>
    join axes (a.pos (o / largeSize (dims axes))) (index axes (o % largeSize (dims axes)))

/-- The same at coordinates of the larger tensor. -/
def sourceAt : List Axis → List ℕ → Option ℕ
  | a :: axes, k :: i => join axes (a.pos k) (sourceAt axes i)
  | _, _ => some 0

theorem index_largeAt {axes : List Axis} {i : List ℕ} (h : Coords (dims axes) i) :
    index axes (largeAt (dims axes) i) = sourceAt axes i := by
  induction axes generalizing i with
  | nil =>
    cases h
    rfl
  | cons a axes ih =>
    obtain ⟨k, i, hk, htail, rfl⟩ := List.forall₂_cons_left_iff.1 h
    have hlt : largeAt (dims axes) i < largeSize (dims axes) := largeAt_lt htail
    have hpos : 0 < largeSize (dims axes) := Nat.zero_lt_of_lt hlt
    have hdiv :
        (k * largeSize (dims axes) + largeAt (dims axes) i) / largeSize (dims axes) = k := by
      rw [Nat.mul_comm, Nat.mul_add_div hpos, Nat.div_eq_of_lt hlt, Nat.add_zero]
    have hmod : (k * largeSize (dims axes) + largeAt (dims axes) i) % largeSize (dims axes) =
        largeAt (dims axes) i := by
      rw [Nat.mul_comm, Nat.mul_add_mod, Nat.mod_eq_of_lt hlt]
    rw [dims_cons, largeAt, index, hdiv, hmod, ih htail, sourceAt]

/-- What holds of all elements, by coordinates and by number. -/
theorem forall_coords {axes : List Axis} {P : ℕ → Option ℕ → Prop} :
    (∀ i, Coords (dims axes) i → P (largeAt (dims axes) i) (sourceAt axes i)) ↔
      ∀ o < largeSize (dims axes), P o (index axes o) := by
  constructor
  · intro h o ho
    obtain ⟨i, hi, rfl⟩ := exists_coords ho
    rw [index_largeAt hi]
    exact h i hi
  · intro h i hi
    rw [← index_largeAt hi]
    exact h _ (largeAt_lt hi)

/-! ### Transforming the axes -/

/-- Lists of axes with the same sizes and elements. -/
structure Same (axes axes' : List Axis) : Prop where
  small : smallSize (dims axes) = smallSize (dims axes')
  large : largeSize (dims axes) = largeSize (dims axes')
  index : ∀ o < largeSize (dims axes), index axes o = index axes' o

namespace Same

variable {axes axes' axes'' : List Axis}

theorem refl (axes : List Axis) : Same axes axes := ⟨rfl, rfl, fun _ _ => rfl⟩

theorem symm (h : Same axes axes') : Same axes' axes :=
  ⟨h.small.symm, h.large.symm, fun o ho => (h.index o (h.large ▸ ho)).symm⟩

theorem trans (h : Same axes axes') (h' : Same axes' axes'') : Same axes axes'' where
  small := h.small.trans h'.small
  large := h.large.trans h'.large
  index o ho := (h.index o ho).trans (h'.index o (h.large ▸ ho))

/-- Only the positions of an axis count. -/
theorem cons {a a' : Axis} (hsmall : a.small = a'.small) (hlarge : a.large = a'.large)
    (hpos : ∀ k < a.large, a.pos k = a'.pos k) (h : Same axes axes') :
    Same (a :: axes) (a' :: axes') where
  small := by rw [dims_cons, dims_cons, smallSize_cons, smallSize_cons, h.small, hsmall]
  large := by rw [dims_cons, dims_cons, largeSize_cons, largeSize_cons, h.large, hlarge]
  index o ho := by
    rw [dims_cons, largeSize_cons] at ho
    have hsize : 0 < largeSize (dims axes) := Nat.pos_of_mul_pos_left (Nat.zero_lt_of_lt ho)
    have hmod := h.index (o % largeSize (dims axes)) (Nat.mod_lt o hsize)
    have hhead := hpos (o / largeSize (dims axes)) ((Nat.div_lt_iff_lt_mul hsize).2 ho)
    simp only [AxisMap.index, join]
    rw [hhead, hmod, h.small, h.large]

theorem cons_self (a : Axis) (h : Same axes axes') : Same (a :: axes) (a :: axes') :=
  h.cons rfl rfl fun _ _ => rfl

theorem forall_coords_iff (h : Same axes axes') {P : ℕ → Option ℕ → Prop} :
    (∀ i, Coords (dims axes) i → P (largeAt (dims axes) i) (sourceAt axes i)) ↔
      ∀ i, Coords (dims axes') i → P (largeAt (dims axes') i) (sourceAt axes' i) := by
  rw [forall_coords, forall_coords, ← h.large]
  exact forall_congr' fun o => forall_congr' fun ho => by rw [h.index o ho]

/-- Two axes that are copied as they are make one. -/
theorem merge (m n : ℕ) (axes : List Axis) :
    Same (.plain m :: .plain n :: axes) (.plain (m * n) :: axes) where
  small := by simp [Axis.plain, Nat.mul_assoc]
  large := by simp [Axis.plain, Nat.mul_assoc]
  index o ho := by
    have hsplit : o / largeSize (dims axes) =
        o / (n * largeSize (dims axes)) * n +
          o % (n * largeSize (dims axes)) / largeSize (dims axes) := by
      rw [Nat.mod_mul_left_div_self, Nat.mul_comm n, ← Nat.div_div_eq_div_mul, Nat.mul_comm]
      exact (Nat.div_add_mod _ _).symm
    simp only [AxisMap.index, join, Axis.plain, dims_cons, largeSize_cons, smallSize_cons]
    rw [Nat.mod_mul_left_mod, hsplit]
    cases AxisMap.index axes (o % largeSize (dims axes)) with
    | none => rfl
    | some s =>
      simp only [Option.map₂_some_some, Option.some.injEq]
      ring

/-- An axis of length one may be left out. -/
theorem one (axes : List Axis) : Same (.plain 1 :: axes) axes where
  small := by simp [Axis.plain]
  large := by simp [Axis.plain]
  index o ho := by
    rw [dims_cons, largeSize_cons, Axis.plain, Nat.one_mul] at ho
    simp only [AxisMap.index, join, Axis.plain]
    rw [Nat.div_eq_of_lt ho, Nat.mod_eq_of_lt ho]
    cases AxisMap.index axes o with
    | none => rfl
    | some s => rw [Option.map₂_some_some, Nat.zero_mul, Nat.zero_add]

end Same

end Lib.AxisMap
