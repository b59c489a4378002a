import Mnn.Geometry.Pad

/-!
# The coordinates of a padded tensor

* `padPos`, `padded`: the position of the input that a mode defines for a position of the output,
  and the padded tensor;
* `fusedAxes`, `same_seperate`: the axes that the code works with; fusing changes no element;
* `sourceAt_eq`, `sourceAt_eq_none`: the elements of the padded tensor, from the positions on the
  axes;
* `exists_centers`, `exists_pads`: which elements the two families of regions copy, and
  `centers_copies`, `pads_copies`: what they copy to one element of the output.
-/

namespace Mnn.Pad

open Recompute Lib

/-! ### The padded tensor -/

/-- The position of the input at the position `j` of the output, if it has one. -/
def padPos (mode : PadValueMode) (inputDim : ℕ) (offset : ℤ) (j : ℕ) : Option ℕ :=
  let p := j - offset
  if 0 ≤ p ∧ p < inputDim then some p.toNat
  else
    match mode with
    | .constant => none
    | .reflect => some (if p < 0 then -p else 2 * (inputDim - 1) - p).toNat
    | .symmetric => some (if p < 0 then -p - 1 else 2 * inputDim - 1 - p).toNat
    | .edge => some (if p < 0 then 0 else inputDim - 1)

theorem padPos_center (mode : PadValueMode) {inputDim : ℕ} {offset : ℤ} {j : ℕ}
    (h : 0 ≤ j - offset ∧ j - offset < inputDim) :
    padPos mode inputDim offset j = some (j - offset).toNat := by
  unfold padPos
  exact if_pos h

/-- A padded axis. -/
def Axis.padded (mode : PadValueMode) (a : Axis) : AxisMap.Axis :=
  ⟨a.inputDim, a.outputDim, padPos mode a.inputDim a.offset⟩

/-- The element at coordinates of the padded tensor: one of the input `x`, or the constant `c`. -/
def padded {V : Type*} (mode : PadValueMode) (axes : List Axis) (x : ℤ → V) (c : V) (i : List ℕ) :
    V :=
  (AxisMap.sourceAt (axes.map (Axis.padded mode)) i).elim c fun s => x s

example : (List.range 7).map (padPos .reflect 3 2) = [2, 1, 0, 1, 2, 1, 0].map some := by decide
example : (List.range 7).map (padPos .symmetric 3 2) = [1, 0, 0, 1, 2, 2, 1].map some := by decide

/-- An axis is padded on one of its sides. -/
def Axis.Padded (a : Axis) : Prop := a.offset ≠ 0 ∨ a.rightOffset ≠ 0

instance (a : Axis) : Decidable a.Padded := inferInstanceAs (Decidable (_ ∨ _))

/-! ### Fused dimensions -/

section Fits

variable {mode : PadValueMode} {a : Axis} (h : a.Fits mode)

include h

theorem Axis.Fits.padded_iff : a.Padded ↔ a.inputDim ≠ a.outputDim := by
  have hoff := h.offset
  have hright := h.rightOffset
  have hout := h.outputDim
  rw [Axis.Padded]
  omega

/-- An axis that is not padded is copied as it is. -/
theorem Axis.Fits.padPos_eq (hnot : ¬ a.Padded) {j : ℕ} (hj : j < a.outputDim) :
    padPos mode a.inputDim a.offset j = some j := by
  have heq := h.padded_iff.not.1 hnot
  rw [Axis.Padded] at hnot
  have hzero : a.offset = 0 := by omega
  rw [padPos_center mode (by omega), hzero, sub_zero, Int.toNat_natCast]

/-- Where the code reads, in the center or in a mode without a constant. -/
theorem Axis.Fits.exists_padPos {b : Strided} (hb : b.toAxis = a) {j : ℕ} (hj : j < a.outputDim)
    (hcase : mode ≠ .constant ∨ a.Center j) :
    ∃ x < a.inputDim, padPos mode a.inputDim a.offset j = some x ∧ partPos mode b j = x := by
  subst hb
  have hoff := h.offset
  have hright := h.rightOffset
  have hout := h.outputDim
  have hin := h.inputDim
  by_cases hcenter : b.Center j
  · rw [partPos, if_pos hcenter]
    rw [Axis.Center] at hcenter
    exact ⟨(j - b.offset).toNat, by omega, padPos_center mode (by omega), by omega⟩
  · have hmode := hcase.resolve_right hcenter
    rw [partPos, if_neg hcenter]
    rw [Axis.Center] at hcenter
    have hnot : ¬ (0 ≤ j - b.offset ∧ j - b.offset < b.inputDim) := by omega
    cases mode with
    | constant => exact absurd rfl hmode
    | reflect =>
      obtain ⟨hl, hr⟩ := h.reflect rfl
      refine ⟨_, ?_, if_neg hnot, ?_⟩
      · split_ifs <;> omega
      · simp only [left, right, extraSub, reduceCtorEq, if_true, if_false]
        split_ifs <;> omega
    | symmetric =>
      obtain ⟨hl, hr⟩ := h.symmetric rfl
      refine ⟨_, ?_, if_neg hnot, ?_⟩
      · split_ifs <;> omega
      · simp only [left, right, extraSub, reduceCtorEq, if_false]
        split_ifs <;> omega
    | edge =>
      refine ⟨_, ?_, if_neg hnot, ?_⟩
      · split_ifs <;> omega
      · simp only [left, right, extraSub, reduceCtorEq, if_true, if_false]
        split_ifs <;> omega

end Fits

theorem fits_plain (mode : PadValueMode) {n : ℕ} (hn : 0 < n) :
    Axis.Fits mode { inputDim := n, outputDim := n } :=
  ⟨hn, le_rfl, le_rfl, by simp, fun _ => ⟨by simp; omega, by simp; omega⟩,
    fun _ => ⟨by simp, by simp⟩⟩

/-- An axis that is not padded may stand for a plain one. -/
theorem same_plain {mode : PadValueMode} {a : Axis} (h : a.Fits mode) (hnot : ¬ a.Padded)
    {axes axes' : List AxisMap.Axis} (hsame : AxisMap.Same axes axes') :
    AxisMap.Same (a.padded mode :: axes) (.plain a.inputDim :: axes') :=
  hsame.cons rfl (not_not.1 (h.padded_iff.not.1 hnot)).symm fun _ hk => h.padPos_eq hnot hk

/-- The axes that the code works with. -/
def fusedAxes (current : ℕ) (axes : List Axis) : List Axis :=
  (seperate current current (axes.map Axis.swap)).map Axis.swap

theorem fusedAxes_nil (current : ℕ) :
    fusedAxes current [] = if current ≠ 1 then [⟨current, current, 0, 0⟩] else [] := by
  simp only [fusedAxes, List.map_nil, seperate, or_self]
  split_ifs
  · rfl
  · rfl

section Fuse

variable {mode : PadValueMode} {a : Axis} (h : a.Fits mode) (current : ℕ) (axes : List Axis)

include h

theorem fusedAxes_padded (hpad : a.Padded) : fusedAxes current (a :: axes) =
    (if 1 < current then [⟨current, current, 0, 0⟩] else []) ++ a :: fusedAxes 1 axes := by
  have hne : a.swap.outputDim ≠ a.swap.inputDim := h.padded_iff.1 hpad
  rw [fusedAxes, List.map_cons, seperate, if_pos hne, List.map_append, List.map_cons]
  split_ifs
  · rfl
  · rfl

theorem fusedAxes_of_not (hnot : ¬ a.Padded) :
    fusedAxes current (a :: axes) = fusedAxes (current * a.inputDim) axes := by
  have heq : a.inputDim = a.outputDim := not_not.1 (h.padded_iff.not.1 hnot)
  have hswap : ¬ a.swap.outputDim ≠ a.swap.inputDim := not_not.2 heq
  rw [fusedAxes, List.map_cons, seperate, if_neg hswap, Axis.swap, heq]
  rfl

end Fuse

/-- The fused axes fit as well. -/
theorem fits_fusedAxes {mode : PadValueMode} {axes : List Axis} (h : ∀ a ∈ axes, a.Fits mode)
    {current : ℕ} (hcurrent : 0 < current) : ∀ a ∈ fusedAxes current axes, a.Fits mode := by
  induction axes generalizing current with
  | nil =>
    rw [fusedAxes_nil]
    split_ifs
    · exact List.forall_mem_singleton.2 (fits_plain mode hcurrent)
    · exact fun a ha => absurd ha List.not_mem_nil
  | cons a axes ih =>
    obtain ⟨ha, haxes⟩ := List.forall_mem_cons.1 h
    by_cases hpad : a.Padded
    · rw [fusedAxes_padded ha _ _ hpad, List.forall_mem_append, List.forall_mem_cons]
      refine ⟨?_, ha, ih haxes Nat.one_pos⟩
      split_ifs
      · exact List.forall_mem_singleton.2 (fits_plain mode hcurrent)
      · exact fun a ha => absurd ha List.not_mem_nil
    · rw [fusedAxes_of_not ha _ _ hpad]
      exact ih haxes (Nat.mul_pos hcurrent ha.inputDim)

/-- The product of the dimensions so far stands before the others. -/
theorem same_seperate {mode : PadValueMode} {axes : List Axis} (h : ∀ a ∈ axes, a.Fits mode)
    {current : ℕ} (hcurrent : 0 < current) :
    AxisMap.Same (.plain current :: axes.map (Axis.padded mode))
      ((fusedAxes current axes).map (Axis.padded mode)) := by
  have hplain : ∀ {axes axes' : List AxisMap.Axis} {n : ℕ}, 0 < n → AxisMap.Same axes axes' →
      AxisMap.Same (.plain n :: axes) (Axis.padded mode ⟨n, n, 0, 0⟩ :: axes') :=
    fun hn hsame => (same_plain (fits_plain mode hn) (by simp [Axis.Padded]) hsame.symm).symm
  induction axes generalizing current with
  | nil =>
    rw [fusedAxes_nil]
    by_cases hone : current = 1
    · subst hone
      exact .one []
    · rw [if_pos hone]
      exact hplain hcurrent (.refl [])
  | cons a axes ih =>
    obtain ⟨ha, haxes⟩ := List.forall_mem_cons.1 h
    by_cases hpad : a.Padded
    · rw [fusedAxes_padded ha _ _ hpad, List.map_append, List.map_cons]
      have hrest : AxisMap.Same (a.padded mode :: axes.map (Axis.padded mode))
          (a.padded mode :: (fusedAxes 1 axes).map (Axis.padded mode)) :=
        ((AxisMap.Same.one _).symm.trans (ih haxes Nat.one_pos)).cons_self _
      by_cases hone : 1 < current
      · rw [if_pos hone]
        exact hplain hcurrent hrest
      · obtain rfl : current = 1 := by omega
        exact (AxisMap.Same.one _).trans hrest
    · rw [fusedAxes_of_not ha _ _ hpad]
      exact (((same_plain ha hpad (.refl _)).cons_self _).trans (.merge current a.inputDim _)).trans
        (ih haxes (Nat.mul_pos hcurrent ha.inputDim))

/-! ### Coordinates -/

section Coordinates

variable (mode : PadValueMode) (l : List Axis) (js : List ℕ)

theorem strided_cons (a : Axis) : strided (a :: l) =
    ⟨a, (l.map Axis.inputDim).prod, (l.map Axis.outputDim).prod⟩ :: strided l := rfl

theorem dims_padded : AxisMap.dims (l.map (Axis.padded mode)) =
    l.map fun a => (a.inputDim, a.outputDim) := by
  rw [AxisMap.dims, List.map_map]
  rfl

theorem smallSize_padded : Broadcast.smallSize (AxisMap.dims (l.map (Axis.padded mode))) =
    (l.map Axis.inputDim).prod := by
  rw [Broadcast.smallSize, dims_padded, List.map_map]
  rfl

theorem largeSize_padded : Broadcast.largeSize (AxisMap.dims (l.map (Axis.padded mode))) =
    (l.map Axis.outputDim).prod := by
  rw [Broadcast.largeSize, dims_padded, List.map_map]
  rfl

theorem inside_strided : Inside (strided l) js ↔
    Broadcast.Coords (AxisMap.dims (l.map (Axis.padded mode))) js := by
  induction l generalizing js with
  | nil => exact Iff.rfl.trans (List.forall₂_nil_left_iff.trans List.forall₂_nil_left_iff.symm)
  | cons a l ih =>
    rw [strided_cons, Inside, List.forall₂_cons_left_iff, Broadcast.Coords, List.map_cons,
      AxisMap.dims_cons, List.forall₂_cons_left_iff]
    exact exists_congr fun j => exists_congr fun js =>
      and_congr_right fun _ => and_congr_left fun _ => ih js

theorem dstAt_strided : dstAt (strided l) js =
    Broadcast.largeAt (AxisMap.dims (l.map (Axis.padded mode))) js := by
  induction l generalizing js with
  | nil => cases js <;> rfl
  | cons a l ih =>
    cases js with
    | nil => rfl
    | cons j js =>
      have hrest := ih js
      rw [dstAt] at hrest
      rw [strided_cons, dstAt, sumAt_cons, hrest, List.map_cons, AxisMap.dims_cons,
        Broadcast.largeAt, largeSize_padded]
      push_cast
      rfl

end Coordinates

theorem dstAt_injective {l : List Axis} {js js' : List ℕ} (h : Inside (strided l) js)
    (h' : Inside (strided l) js') (heq : dstAt (strided l) js = dstAt (strided l) js') :
    js = js' := by
  rw [inside_strided .edge] at h h'
  rw [dstAt_strided .edge, dstAt_strided .edge, Nat.cast_inj] at heq
  rw [← unravelIndexHelper_largeAt h, heq, unravelIndexHelper_largeAt h']

section Source

variable {mode : PadValueMode} {l : List Axis} {js : List ℕ}

/-- The element of the input, from its positions. -/
theorem sourceAt_eq {f : Strided → ℕ → ℤ}
    (h : List.Forall₂ (fun a j => ∃ x < a.inputDim,
      padPos mode a.inputDim a.offset j = some x ∧ f a j = x) (strided l) js) :
    ∃ s : ℕ, AxisMap.sourceAt (l.map (Axis.padded mode)) js = some s ∧
      s < (l.map Axis.inputDim).prod ∧
      sumAt (fun a j => f a j * a.inputStride) (strided l) js = s := by
  induction l generalizing js with
  | nil =>
    cases h
    exact ⟨0, rfl, Nat.one_pos, rfl⟩
  | cons a l ih =>
    rw [strided_cons] at h ⊢
    obtain ⟨j, js, ⟨x, hx, hpos, hf⟩, hrest, rfl⟩ := List.forall₂_cons_left_iff.1 h
    obtain ⟨s, hs, hlt, hsum⟩ := ih hrest
    have hmap : AxisMap.sourceAt ((a :: l).map (Axis.padded mode)) (j :: js) =
        some (x * (l.map Axis.inputDim).prod + s) := by
      rw [List.map_cons, AxisMap.sourceAt, hs, ← smallSize_padded mode]
      exact congrArg (fun y => AxisMap.join _ y (some s)) hpos
    refine ⟨_, hmap, ?_, ?_⟩
    · rw [List.map_cons, List.prod_cons]
      calc x * (l.map Axis.inputDim).prod + s
          < x * (l.map Axis.inputDim).prod + (l.map Axis.inputDim).prod := by omega
        _ = (x + 1) * (l.map Axis.inputDim).prod := by ring
        _ ≤ a.inputDim * (l.map Axis.inputDim).prod := Nat.mul_le_mul_right _ hx
    · rw [sumAt_cons, hf, hsum]
      push_cast
      rfl

/-- Outside of the center, a constant is filled in. -/
theorem sourceAt_eq_none (hinside : Inside (strided l) js)
    (hnot : ¬ Central (strided l) js) :
    AxisMap.sourceAt (l.map (Axis.padded .constant)) js = none := by
  induction l generalizing js with
  | nil =>
    cases hinside
    exact absurd .nil hnot
  | cons a l ih =>
    rw [strided_cons] at hinside hnot
    obtain ⟨j, js, -, hrest, rfl⟩ := List.forall₂_cons_left_iff.1 hinside
    rw [Central, List.forall₂_cons, not_and_or] at hnot
    rw [List.map_cons, AxisMap.sourceAt, AxisMap.join, Option.map₂_eq_none_iff]
    rcases hnot with hhead | htail
    · have : ¬ (0 ≤ j - a.offset ∧ j - a.offset < a.inputDim) := by
        have : ¬ a.Center j := hhead
        rw [Axis.Center] at this
        omega
      exact .inl (if_neg this)
    · exact .inr (ih hrest htail)

end Source

/-! ### Copies to an element -/

section Split

variable {axes : List Strided} {R : Strided → ℕ → Prop}

/-- Coordinates on the first axes and on the last ones. -/
theorem exists_split {P : List ℕ → List ℕ → Prop} :
    (∃ i j, List.Forall₂ R (outerAxes axes) i ∧ List.Forall₂ R (innerAxes axes) j ∧ P i j) ↔
      ∃ js, List.Forall₂ R axes js ∧ P (js.take (axes.length - 3)) (js.drop (axes.length - 3)) := by
  constructor
  · rintro ⟨i, j, hi, hj, hP⟩
    have hlen : axes.length - 3 = i.length := by
      rw [← hi.length_eq, outerAxes, List.length_take]
      omega
    refine ⟨i ++ j, ?_, ?_⟩
    · rw [← List.take_append_drop (axes.length - 3) axes]
      exact List.rel_append hi hj
    · rwa [hlen, List.take_left, List.drop_left]
  · rintro ⟨js, hjs, hP⟩
    exact ⟨_, _, List.forall₂_take _ hjs, List.forall₂_drop _ hjs, hP⟩

theorem sumAt_split (f : Strided → ℕ → ℤ) {js : List ℕ} (h : axes.length = js.length) :
    sumAt f axes js = sumAt f (outerAxes axes) (js.take (axes.length - 3)) +
      sumAt f (innerAxes axes) (js.drop (axes.length - 3)) := by
  rw [← sumAt_append f, outerAxes, innerAxes, List.take_append_drop, List.take_append_drop]
  rw [outerAxes, List.length_take, List.length_take, h]

end Split

section Copies

variable {mode : PadValueMode} {l : List Axis} (h : ∀ a ∈ l, a.Fits mode)

/-- The last three coordinates. -/
def innerCords (l : List Axis) (js : List ℕ) : List ℕ := js.drop ((strided l).length - 3)

/-- Where the regions around the center read the element with these coordinates. -/
def padSource (mode : PadValueMode) (l : List Axis) (js : List ℕ) : ℤ :=
  if mode = .constant then 0 else
    sumAt (fun a cord => inputPos mode a cord * a.inputStride) (outerAxes (strided l))
        (js.take ((strided l).length - 3)) +
      sumAt (fun a j => partPos mode a j * a.inputStride) (innerAxes (strided l)) (innerCords l js)

include h

theorem fits_strided : ∀ a ∈ strided l, a.Fits mode := by
  induction l with
  | nil => exact fun a ha => absurd ha List.not_mem_nil
  | cons a l ih =>
    obtain ⟨ha, hl⟩ := List.forall_mem_cons.1 h
    rw [strided_cons]
    exact List.forall_mem_cons.2 ⟨ha, ih hl⟩

omit h in
theorem inside_of_central {axes : List Strided} (hfits : ∀ a ∈ axes, a.Fits mode) {js : List ℕ}
    (hjs : Central axes js) : Inside axes js := by
  induction hjs with
  | nil => exact .nil
  | @cons a j axes js hj _ ih =>
    obtain ⟨ha, haxes⟩ := List.forall_mem_cons.1 hfits
    have hout := ha.outputDim
    have hright := ha.rightOffset
    obtain ⟨-, hlt⟩ := hj
    exact .cons (by omega) (ih haxes)

/-- The regions of the center. -/
theorem exists_centers {r : Ref} {s o : ℤ} :
    (∃ reg ∈ (offsetRegions r ((strided l).map Strided.swap)).map revert, reg.Copies s o) ↔
      ∃ js, Central (strided l) js ∧ o = dstAt (strided l) js ∧
        s = sumAt (fun a j => (j - a.offset) * a.inputStride) (strided l) js := by
  rw [exists_offsetRegions (fits_strided h)]
  refine exists_split.trans (exists_congr fun js => and_congr_right fun hjs => ?_)
  rw [dstAt, ← sumAt_split _ hjs.length_eq, ← sumAt_split _ hjs.length_eq]

/-- The regions around the center. -/
theorem exists_pads {r : Ref} {s o : ℤ} :
    (∃ reg ∈ padRegions mode r (strided l), reg.Copies s o) ↔
      ∃ js, Inside (strided l) js ∧ ¬ Central (innerAxes (strided l)) (innerCords l js) ∧
        o = dstAt (strided l) js ∧ s = padSource mode l js := by
  rw [exists_padRegions (fits_strided h)]
  refine exists_split.trans (exists_congr fun js => and_congr_right fun hjs => ?_)
  rw [dstAt, ← sumAt_split _ hjs.length_eq]
  rfl

theorem centers_copies {r : Ref} {s : ℤ} {js : List ℕ} (hjs : Inside (strided l) js) :
    (∃ reg ∈ (offsetRegions r ((strided l).map Strided.swap)).map revert,
        reg.Copies s (dstAt (strided l) js)) ↔
      Central (strided l) js ∧
        s = sumAt (fun a j => (j - a.offset) * a.inputStride) (strided l) js := by
  rw [exists_centers h]
  constructor
  · rintro ⟨js', hcentral, hdst, hsrc⟩
    obtain rfl := dstAt_injective hjs (inside_of_central (fits_strided h) hcentral) hdst
    exact ⟨hcentral, hsrc⟩
  · exact fun ⟨hcentral, hsrc⟩ => ⟨js, hcentral, rfl, hsrc⟩

theorem pads_copies {r : Ref} {s : ℤ} {js : List ℕ} (hjs : Inside (strided l) js) :
    (∃ reg ∈ padRegions mode r (strided l), reg.Copies s (dstAt (strided l) js)) ↔
      ¬ Central (innerAxes (strided l)) (innerCords l js) ∧ s = padSource mode l js := by
  rw [exists_pads h]
  constructor
  · rintro ⟨js', hinside, hcentral, hdst, hsrc⟩
    obtain rfl := dstAt_injective hjs hinside hdst
    exact ⟨hcentral, hsrc⟩
  · exact fun ⟨hcentral, hsrc⟩ => ⟨js, hjs, hcentral, rfl, hsrc⟩

end Copies

end Mnn.Pad
