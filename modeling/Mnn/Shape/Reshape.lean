import Mathlib.Data.List.GetD
import Mathlib.Data.List.NodupEquivFin
import Mnn.Core.ResizeCache
import Mnn.Shape.SizeComputer

/-!
# `FlattenComputer` and `ReshapeComputer`

The extents of flattened and reshaped tensors (`source/shape/ShapeReshape.cpp`).

* `FlattenComputer.onComputeSize`, `ReshapeComputer.onComputeSize`: the extents that are set;
* `flattened`: the extents that ONNX and Torch define for an axis and an end axis;
* `IsReshape`: what a reshaped tensor has to satisfy;
* `FlattenComputer.right_iff`: flattening is right for an end axis of zero, for the last axis, and
  where nothing is flattened;
* `ReshapeComputer.right_iff`: reshaping is right for zeros inside of the rank and products that an
  `int` can hold;
* `reshape_flatten_iff`: **the two together**.
-/

namespace Mnn.Shape

open Resize (Format)

/-! ### Flattening -/

namespace FlattenComputer

variable (input : Buffer)

/-- The product of the extents from `first` to before `last`. -/
def product (first last : ℤ) : ℤ := count ((interval first last).map input.extent)

def onComputeSize (axis endAxis : ℤ) : Output :=
  let dim : ℤ := input.dimensions
  let axis := fromEnd dim axis
  let endAxis := fromEnd dim endAxis
  if endAxis = 0 then
    let outside := product input 0 axis
    let inside := product input axis dim
    (({ dimensions := 2 } : Output).setLength 0 outside).setLength 1 inside
  else
    let output : Output := { dimensions := dim - endAxis + axis }
    let output := output.setLengths (interval 0 axis) input.extent
    let output := output.setLength axis (product input axis (endAxis + 1))
    if dim > endAxis + 1 then output.setLengths (interval (endAxis + 1) dim) input.extent
    else output

end FlattenComputer

/-- The extents of a flattened tensor.  An end axis of zero stands for the operator of ONNX, which
has two dimensions; every other one is that of Torch, for which a scalar has one dimension. -/
def flattened (shape : List ℤ) (axis endAxis : ℤ) : Option (List ℤ) :=
  if endAxis = 0 then
    let axis := fromEnd shape.length axis
    if 0 ≤ axis ∧ axis ≤ shape.length then
      some [(shape.take axis.toNat).prod, (shape.drop axis.toNat).prod]
    else none
  else
    let rank : ℤ := max shape.length 1
    let axis := fromEnd rank axis
    let endAxis := fromEnd rank endAxis
    if 0 ≤ axis ∧ axis ≤ endAxis ∧ endAxis < rank then
      some (shape.take axis.toNat ++
        ((shape.drop axis.toNat).take (endAxis + 1 - axis).toNat).prod ::
          shape.drop (endAxis + 1).toNat)
    else none

example : flattened [2, 3, 4, 5] 1 0 = some [2, 60] := by decide
example : flattened [2, 3, 4, 5] 1 (-2) = some [2, 12, 5] := by decide
example : flattened [] 0 (-1) = some [1] := by decide

theorem flattened_zero {shape s : List ℤ} {axis : ℤ} : flattened shape axis 0 = some s ↔
    ∃ a : ℕ, fromEnd shape.length axis = a ∧ a ≤ shape.length ∧
      s = [(shape.take a).prod, (shape.drop a).prod] := by
  rw [flattened, if_pos rfl]
  dsimp only
  rw [Option.ite_none_right_eq_some, Option.some.injEq]
  constructor
  · rintro ⟨⟨hnonneg, hle⟩, rfl⟩
    exact ⟨(fromEnd shape.length axis).toNat, by omega, by omega, rfl⟩
  · rintro ⟨a, ha, hle, rfl⟩
    rw [ha]
    exact ⟨⟨by omega, by omega⟩, rfl⟩

theorem flattened_of_ne {shape s : List ℤ} {axis endAxis : ℤ} (hend : endAxis ≠ 0) :
    flattened shape axis endAxis = some s ↔
      ∃ a e : ℕ, fromEnd (max shape.length 1 : ℤ) axis = a ∧
        fromEnd (max shape.length 1 : ℤ) endAxis = e ∧ a ≤ e ∧ e < max shape.length 1 ∧
        s = shape.take a ++ ((shape.drop a).take (e + 1 - a)).prod :: shape.drop (e + 1) := by
  have hcast : ∀ a e : ℕ, shape.take (a : ℤ).toNat ++
      ((shape.drop (a : ℤ).toNat).take ((e : ℤ) + 1 - a).toNat).prod ::
        shape.drop ((e : ℤ) + 1).toNat =
      shape.take a ++ ((shape.drop a).take (e + 1 - a)).prod :: shape.drop (e + 1) := by
    intro a e
    rw [Int.toNat_natCast, show ((e : ℤ) + 1 - a).toNat = e + 1 - a by omega,
      show ((e : ℤ) + 1).toNat = e + 1 by omega]
  rw [flattened, if_neg hend]
  dsimp only
  rw [Option.ite_none_right_eq_some, Option.some.injEq]
  constructor
  · rintro ⟨⟨hnonneg, hle, hlt⟩, rfl⟩
    obtain ⟨a, ha⟩ := Int.eq_ofNat_of_zero_le hnonneg
    obtain ⟨e, he⟩ := Int.eq_ofNat_of_zero_le (hnonneg.trans hle)
    rw [ha, he] at hle ⊢
    rw [he] at hlt
    exact ⟨a, e, rfl, rfl, by omega, by omega, hcast a e⟩
  · rintro ⟨a, e, ha, he, hle, hlt, rfl⟩
    rw [ha, he]
    exact ⟨⟨by omega, by omega, by omega⟩, hcast a e⟩

theorem prod_flattened {shape s : List ℤ} {axis endAxis : ℤ}
    (h : flattened shape axis endAxis = some s) : s.prod = shape.prod := by
  by_cases hend : endAxis = 0
  · subst hend
    obtain ⟨a, -, -, rfl⟩ := flattened_zero.1 h
    rw [List.prod_cons, List.prod_singleton, List.prod_take_mul_prod_drop]
  · obtain ⟨a, e, -, -, hle, -, rfl⟩ := (flattened_of_ne hend).1 h
    have hdrop : shape.drop (e + 1) = (shape.drop a).drop (e + 1 - a) := by
      rw [List.drop_drop]
      congr 1
      omega
    rw [List.prod_append, List.prod_cons, hdrop, List.prod_take_mul_prod_drop,
      List.prod_take_mul_prod_drop]

namespace FlattenComputer

variable {input : Buffer} {axis endAxis : ℤ}

/-- Every extent is set, and they are those of the flattened tensor, with as many elements. -/
def Right (input : Buffer) (axis endAxis : ℤ) : Prop :=
  ∃ shape, flattened input.shape axis endAxis = some shape ∧
    (onComputeSize input axis endAxis).shape = some shape ∧ shape.prod = input.shape.prod

/-- The end axis is the last axis or the axis, but none that counts as zero, unless the first of two
extents is one. -/
def Handled (input : Buffer) (axis endAxis : ℤ) : Prop :=
  endAxis = 0 ∨
    fromEnd input.dimensions endAxis ≠ 0 ∧ 0 ≤ fromEnd input.dimensions axis ∧
      (fromEnd input.dimensions endAxis = input.dimensions - 1 ∨
        fromEnd input.dimensions axis = fromEnd input.dimensions endAxis) ∨
    fromEnd input.dimensions endAxis = 0 ∧ input.dimensions = 2 ∧ input.extent 0 = 1

theorem product_eq (h : Fits input.shape) {first last : ℕ} (hlast : last ≤ input.dimensions) :
    product input first last = ((input.shape.drop first).take (last - first)).prod := by
  rw [product, input.map_interval hlast]
  exact h.count_part ((List.take_sublist _ _).trans (List.drop_sublist _ _))

/-- The two extents of an end axis of zero. -/
theorem shape_of_zero (h : Fits input.shape) {a : ℕ} (ha : a ≤ input.dimensions)
    (haxis : fromEnd input.dimensions axis = a) (hend : fromEnd input.dimensions endAxis = 0) :
    (onComputeSize input axis endAxis).shape =
      some [(input.shape.take a).prod, (input.shape.drop a).prod] := by
  have hcompute : onComputeSize input axis endAxis =
      (({ dimensions := 2 } : Output).setLength 0 (product input (0 : ℕ) a)).setLength 1
        (product input a input.dimensions) := by
    rw [onComputeSize]
    dsimp only
    rw [if_pos hend, haxis]
    rfl
  rw [hcompute, product_eq h ha, product_eq h le_rfl, Nat.sub_zero, List.drop_zero,
    ← input.length_shape, ← List.length_drop, List.take_length, Output.shape_eq_some_iff]
  refine ⟨rfl, fun i hi => ?_⟩
  match i, hi with
  | 0, _ => rfl
  | 1, _ => rfl

/-- What is set for an end axis other than zero; the extents behind it are set where they were. -/
theorem extent_of_ne (h : Fits input.shape) {a e : ℕ} (hlt : e < input.dimensions)
    (haxis : fromEnd input.dimensions axis = a) (hend : fromEnd input.dimensions endAxis = e)
    (hne : e ≠ 0) :
    (onComputeSize input axis endAxis).dimensions = input.dimensions - e + a ∧
      ∀ i : ℕ, (onComputeSize input axis endAxis).extent i =
        if e < i ∧ i < input.dimensions then some (input.extent i)
        else if i = a then some ((input.shape.drop a).take (e + 1 - a)).prod
        else if i < a then some (input.extent i) else none := by
  have hcompute : onComputeSize input axis endAxis =
      ((({ dimensions := input.dimensions - e + a } : Output).setLengths (interval 0 a)
        input.extent).setLength a (product input a (e + 1 : ℕ))).setLengths
          (interval (e + 1) input.dimensions) input.extent := by
    rw [onComputeSize]
    dsimp only
    rw [haxis, hend, if_neg (by omega)]
    split_ifs with hdim
    · rfl
    · rw [interval_eq_nil (not_lt.1 hdim)]
      rfl
  rw [hcompute, product_eq h hlt]
  refine ⟨?_, fun i => ?_⟩
  · rw [Output.dimensions_setLengths]
    exact Output.dimensions_setLengths ..
  · have hnil : ∀ k : ℤ, ({ dimensions := input.dimensions - e + a } : Output).extent k = none :=
      fun k => rfl
    rw [Output.extent_setLengths]
    refine if_congr (mem_interval.trans (by omega)) rfl ?_
    by_cases hia : i = a
    · rw [if_pos hia, hia]
      exact Function.update_self ..
    · rw [if_neg hia]
      refine (Function.update_of_ne (by omega) ..).trans ?_
      rw [Output.extent_setLengths, hnil]
      exact if_congr (mem_interval.trans (by omega)) rfl rfl

/-- **An end axis other than zero**, on axes that there are. -/
theorem shape_of_ne (h : Fits input.shape) {a e : ℕ} (hle : a ≤ e) (hlt : e < input.dimensions)
    (haxis : fromEnd input.dimensions axis = a) (hend : fromEnd input.dimensions endAxis = e)
    (hne : e ≠ 0) : (onComputeSize input axis endAxis).shape =
        some (input.shape.take a ++
          ((input.shape.drop a).take (e + 1 - a)).prod :: input.shape.drop (e + 1)) ↔
      e + 1 = input.dimensions ∨ a = e := by
  obtain ⟨hdimensions, hextent⟩ := extent_of_ne h hlt haxis hend hne
  have hlength : (input.shape.take a).length = a := by
    rw [List.length_take, input.length_shape]
    omega
  rw [Output.shape_eq_some_iff, hdimensions]
  constructor
  · rintro ⟨hlen, hget⟩
    by_contra hnot
    have hi := hget (a + 1) (by omega)
    rw [hextent, if_neg (by omega), if_neg (by omega), if_neg (by omega)] at hi
    exact Option.some_ne_none _ hi.symm
  · intro hcase
    refine ⟨?_, fun i hi => ?_⟩
    · rw [List.length_append, hlength, List.length_cons, List.length_drop, input.length_shape]
      omega
    · rw [List.length_append, hlength, List.length_cons, List.length_drop,
        input.length_shape] at hi
      rw [hextent]
      rcases lt_trichotomy i a with hia | rfl | hai
      · rw [if_neg (by omega), if_neg (by omega), if_pos hia,
          List.getElem_append_left (by omega), List.getElem_take, input.getElem_shape]
      · rw [if_neg (by omega), if_pos rfl, List.getElem_append_right hlength.le]
        simp only [hlength, Nat.sub_self, List.getElem_cons_zero]
      · -- there is something behind the axis only if nothing was flattened
        obtain rfl : a = e := by omega
        obtain ⟨k, rfl⟩ := Nat.exists_eq_add_of_lt hai
        rw [if_pos ⟨by omega, by omega⟩, List.getElem_append_right (by omega)]
        simp only [hlength, show a + k + 1 - a = k + 1 by omega, List.getElem_cons_succ,
          List.getElem_drop, input.getElem_shape]
        congr 2
        omega

/-- A scalar has no axis from whose end it could be counted. -/
theorem handled_scalar (hdims : input.dimensions = 0) (hne : endAxis ≠ 0)
    (haxis : fromEnd 1 axis = 0) (hend : fromEnd 1 endAxis = 0) :
    (onComputeSize input axis endAxis).shape = some [1] ↔ Handled input axis endAxis := by
  obtain ⟨dimensions, extent⟩ := input
  obtain rfl : dimensions = 0 := hdims
  have hcases : ∀ x : ℤ, fromEnd 1 x = 0 → x = 0 ∨ x = -1 := by
    intro x hx
    rw [fromEnd] at hx
    split_ifs at hx <;> omega
  obtain rfl := (hcases endAxis hend).resolve_left hne
  rcases hcases axis haxis with rfl | rfl
  · have hend : fromEnd 0 (-1) ≠ 0 := by decide
    exact iff_of_true rfl (.inr (.inl ⟨hend, le_refl (0 : ℤ), .inl rfl⟩))
  · refine iff_of_false (fun h => ?_) ?_
    · have hnil : (onComputeSize ⟨0, extent⟩ (-1) (-1)).shape = some [] := rfl
      cases hnil.symm.trans h
    · rintro (h | ⟨-, h, -⟩ | ⟨-, h, -⟩)
      · exact absurd h (by decide)
      · exact absurd h (by decide : ¬ (0 : ℤ) ≤ fromEnd 0 (-1))
      · exact absurd h (by decide : (0 : ℕ) ≠ 2)

/-- The first axis alone, counted from the end, counts as zero. -/
theorem handled_first (h : Fits input.shape) (hne : endAxis ≠ 0)
    (haxis : fromEnd input.dimensions axis = 0) (hend : fromEnd input.dimensions endAxis = 0) :
    (onComputeSize input axis endAxis).shape = some input.shape ↔
      Handled input axis endAxis := by
  have hhandled : Handled input axis endAxis ↔ input.dimensions = 2 ∧ input.extent 0 = 1 := by
    rw [Handled, hend]
    exact ⟨fun h => (h.resolve_left hne).elim (fun h => absurd rfl h.1) And.right,
      fun h => .inr (.inr ⟨rfl, h⟩)⟩
  rw [hhandled, shape_of_zero h (Nat.zero_le _) haxis hend, Option.some.injEq, List.take_zero,
    List.drop_zero, List.prod_nil, Buffer.shape]
  constructor
  · intro heq
    have hdims : input.dimensions = 2 := by
      have hlen := congrArg List.length heq
      rw [List.length_map, List.length_range] at hlen
      exact hlen.symm
    rw [hdims] at heq
    exact ⟨hdims, (List.cons.inj heq).1.symm⟩
  · rintro ⟨hdims, hone⟩
    rw [hdims]
    show [1, [input.extent 0, input.extent 1].prod] = [input.extent 0, input.extent 1]
    rw [hone, List.prod_cons, List.prod_singleton, one_mul]

/-- **Flattening.** -/
theorem right_iff (h : Fits input.shape) : Right input axis endAxis ↔
    (flattened input.shape axis endAxis).isSome ∧ Handled input axis endAxis := by
  have hright : Right input axis endAxis ↔ ∃ shape,
      flattened input.shape axis endAxis = some shape ∧
        (onComputeSize input axis endAxis).shape = some shape :=
    exists_congr fun shape => ⟨fun ⟨hf, hs, _⟩ => ⟨hf, hs⟩, fun ⟨hf, hs⟩ =>
      ⟨hf, hs, prod_flattened hf⟩⟩
  rw [hright, Option.isSome_iff_exists, ← exists_and_right]
  refine exists_congr fun shape => and_congr_right fun hshape => ?_
  by_cases hzero : endAxis = 0
  · subst hzero
    obtain ⟨a, ha, hle, rfl⟩ := flattened_zero.1 hshape
    rw [input.length_shape] at ha hle
    exact iff_of_true (shape_of_zero h hle ha (if_neg (lt_irrefl 0))) (.inl rfl)
  obtain ⟨a, e, ha, he, hle, hlt, rfl⟩ := (flattened_of_ne hzero).1 hshape
  rw [input.length_shape] at ha he hlt
  rcases Nat.eq_zero_or_pos input.dimensions with hdims | hpos
  · have hnil : input.shape = [] := List.eq_nil_of_length_eq_zero (input.length_shape.trans hdims)
    rw [hdims] at ha he hlt
    obtain ⟨rfl, rfl⟩ : a = 0 ∧ e = 0 := by omega
    rw [hnil]
    exact handled_scalar hdims hzero ha he
  · have hmax : max (input.dimensions : ℤ) 1 = input.dimensions := by omega
    rw [hmax] at ha he
    by_cases hne : e = 0
    · obtain ⟨rfl, rfl⟩ : a = 0 ∧ e = 0 := by omega
      have hself : input.shape.take 0 ++ ((input.shape.drop 0).take (0 + 1 - 0)).prod ::
          input.shape.drop (0 + 1) = input.shape := by
        rw [← input.length_shape] at hpos
        obtain ⟨n, shape, hcons⟩ := List.exists_cons_of_length_pos hpos
        rw [hcons]
        show [n].prod :: shape = n :: shape
        rw [List.prod_singleton]
      rw [← handled_first h hzero ha he, hself]
    · rw [shape_of_ne h hle (by omega) ha he hne, Handled, ha, he]
      omega

end FlattenComputer

/-! ### Reshaping -/

/-- The target: a parameter of the operator, or the content of a second input, which has a format of
its own. -/
structure Target where
  dims : List ℤ
  runtime : Bool := false
  dimensionFormat : Format := .nchw
  dimType : Format := .nhwc

namespace Target

variable (t : Target)

def fromTf : Bool := t.runtime && t.dimensionFormat = .nhwc

/-- The extents are given in the order `NHWC`, but the channels of the input are second. -/
def Permuted (inputFormat : Format) : Prop :=
  t.runtime ∧ inputFormat = .nc4hw4 ∧ t.dimType = .nhwc
  deriving Decidable

/-- The extents in the order of the dimensions of the input, with the channels second. -/
def ordered (inputFormat : Format) : List ℤ :=
  if t.Permuted inputFormat then
    t.dims.take 1 ++ t.dims.tail.drop (t.dims.tail.length - 1) ++ t.dims.tail.dropLast
  else t.dims

end Target

namespace ReshapeComputer

/-- `MNN_MAX_TENSOR_DIM`. -/
def maxTensorDim : ℕ := 9

/-- The array `shapes`.  Exactly four extents are permuted. -/
def shapes (t : Target) (inputFormat : Format) : Except Failure (List ℤ) :=
  if maxTensorDim < t.dims.length then .error .undefined
  else if t.Permuted inputFormat then
    match t.dims with
    | [d0, d1, d2, d3] => .ok [d0, d3, d1, d2]
    | _ => .error .undefined
  else .ok t.dims

/-- An extent of the output, or one where it is still open. -/
def extent (input : Buffer) (fromTf : Bool) (i : ℕ) (reshapeDim : ℤ) : ℤ :=
  if reshapeDim = -1 then 1
  else if reshapeDim = 0 ∧ !fromTf then input.extent i
  else reshapeDim

/-- The last open extent. -/
def determinAxis (shapes : List ℤ) : Option ℕ :=
  shapes.zipIdx.foldl (fun axis p => if p.1 = -1 then some p.2 else axis) none

/-- The extents, if their product is that of the input. -/
def reshape (input : Buffer) (fromTf : Bool) (shapes : List ℤ) : Except Failure (List ℤ) :=
  let totalSizeInput := count input.shape
  let extents := shapes.mapIdx (extent input fromTf)
  let totalSizeOutput := count extents
  match determinAxis shapes with
  | none => if totalSizeInput = totalSizeOutput then .ok extents else .error .returnsFalse
  | some axis =>
    let inferred := if totalSizeOutput ≠ 0 then totalSizeInput.tdiv totalSizeOutput else 0
    if totalSizeInput = wrap (totalSizeOutput * inferred) then .ok (extents.set axis inferred)
    else .error .returnsFalse

def onComputeSize (input : Buffer) (inputFormat : Format) (t : Target) :
    Except Failure (List ℤ) := do
  let shapes ← shapes t inputFormat
  reshape input t.fromTf shapes

end ReshapeComputer

/-- Extents that are given are kept, a zero that does not come from TensorFlow keeps the extent of
the input, and the one of `-1` makes the number of elements that of the input. -/
structure IsReshape (shape : List ℤ) (fromTf : Bool) (dims extents : List ℤ) : Prop where
  length : extents.length = dims.length
  nonneg : ∀ e ∈ extents, 0 ≤ e
  given : ∀ i : ℕ, ∀ d ∈ dims[i]?, d ≠ -1 →
    extents[i]? = if d = 0 ∧ !fromTf then shape[i]? else some d
  prod : extents.prod = shape.prod

namespace ReshapeComputer

variable {input : Buffer} {fromTf : Bool} {dims extents : List ℤ}

theorem determinAxis_cases (dims : List ℤ) :
    determinAxis dims = none ∧ -1 ∉ dims ∨
      ∃ axis, determinAxis dims = some axis ∧ dims[axis]? = some (-1) := by
  have key : ∀ (l : List (ℤ × ℕ)) (axis : Option ℕ),
      let axis' := l.foldl (fun axis p => if p.1 = -1 then some p.2 else axis) axis
      axis' = axis ∧ (∀ p ∈ l, p.1 ≠ -1) ∨ ∃ p ∈ l, p.1 = -1 ∧ axis' = some p.2 := by
    intro l
    induction l with
    | nil => exact fun axis => .inl ⟨rfl, fun p hp => absurd hp List.not_mem_nil⟩
    | cons p l ih =>
      intro axis
      rw [List.foldl_cons]
      rcases ih (if p.1 = -1 then some p.2 else axis) with ⟨haxis, hall⟩ | ⟨q, hq, hopen, haxis⟩
      · by_cases hp : p.1 = -1
        · rw [if_pos hp] at haxis ⊢
          exact .inr ⟨p, List.mem_cons_self, hp, haxis⟩
        · rw [if_neg hp] at haxis ⊢
          exact .inl ⟨haxis, List.forall_mem_cons.2 ⟨hp, hall⟩⟩
      · exact .inr ⟨q, List.mem_cons_of_mem p hq, hopen, haxis⟩
  rcases key dims.zipIdx none with ⟨haxis, hall⟩ | ⟨p, hp, hopen, haxis⟩
  · refine .inl ⟨haxis, fun hmem => ?_⟩
    obtain ⟨i, hi, hget⟩ := List.mem_iff_getElem.1 hmem
    exact hall (dims[i], i) (List.mem_zipIdx_iff_getElem?.2 (List.getElem?_eq_getElem hi)) hget
  · exact .inr ⟨p.2, haxis, hopen ▸ List.mem_zipIdx_iff_getElem?.1 hp⟩

/-- What has to be multiplied before the open extent is known. -/
def givenSize (shape : List ℤ) (fromTf : Bool) (dims : List ℤ) : ℤ :=
  (dims.mapIdx fun i d =>
    if d = -1 then 1 else if d = 0 ∧ !fromTf then shape.getD i 1 else d).prod

/-- No extent is below `-1`, zeros are inside of the rank, and the product of the given extents is
an `int`, unless the input is empty and an extent is open. -/
structure Handled (shape : List ℤ) (fromTf : Bool) (dims : List ℤ) : Prop where
  ge : ∀ d ∈ dims, -1 ≤ d
  zero : fromTf = false → ∀ i : ℕ, dims[i]? = some 0 → i < shape.length
  size : givenSize shape fromTf dims < 2 ^ 31 ∨ -1 ∈ dims ∧ 0 ∈ shape

/-- An extent that is given is the one of the definition, if zeros are inside of the rank. -/
theorem extent_eq {i : ℕ} {d : ℤ} (hd : d ≠ -1)
    (hzero : d = 0 → fromTf = false → i < input.shape.length) :
    some (extent input fromTf i d) = if d = 0 ∧ !fromTf then input.shape[i]? else some d := by
  rw [extent, if_neg hd]
  by_cases h : d = 0 ∧ !fromTf
  · have hi := hzero h.1 (by simpa using h.2)
    rw [if_pos h, if_pos h, List.getElem?_eq_getElem hi, input.getElem_shape]
  · rw [if_neg h, if_neg h]

/-- The extents before one is inferred, with zeros inside of the rank. -/
theorem prod_mapIdx_extent
    (hzero : fromTf = false → ∀ i : ℕ, dims[i]? = some 0 → i < input.shape.length) :
    (dims.mapIdx (extent input fromTf)).prod = givenSize input.shape fromTf dims := by
  rw [givenSize]
  congr 1
  refine List.ext_getElem (by rw [List.length_mapIdx, List.length_mapIdx]) fun i hi hi' => ?_
  rw [List.length_mapIdx] at hi
  rw [List.getElem_mapIdx, List.getElem_mapIdx, extent]
  refine if_congr Iff.rfl rfl (if_ctx_congr Iff.rfl (fun h => ?_) fun _ => rfl)
  have hlt := hzero (by simpa using h.2) i (by rw [List.getElem?_eq_getElem hi, h.1])
  rw [List.getD_eq_getElem _ _ hlt, input.getElem_shape]

/-- What a reshaped tensor needs, if `x` is set at the open extent `k`, or nowhere. -/
theorem isReshape_iff {k : ℕ} {x : ℤ} (hk : ∀ i d, dims[i]? = some d → (d = -1 ↔ i = k))
    (hextents : extents = (dims.mapIdx (extent input fromTf)).set k x)
    (hshape : ∀ e ∈ input.shape, 0 ≤ e) :
    IsReshape input.shape fromTf dims extents ↔ (∀ d ∈ dims, -1 ≤ d) ∧
      (fromTf = false → ∀ i : ℕ, dims[i]? = some 0 → i < input.shape.length) ∧
        (-1 ∈ dims → 0 ≤ x) ∧ extents.prod = input.shape.prod := by
  have hlength : extents.length = dims.length := by
    rw [hextents, List.length_set, List.length_mapIdx]
  have hget : ∀ (i : ℕ) (d : ℤ), dims[i]? = some d → d ≠ -1 →
      extents[i]? = some (extent input fromTf i d) := by
    intro i d hd hne
    rw [hextents, List.getElem?_set_ne fun h => hne ((hk i d hd).2 h.symm), List.getElem?_mapIdx,
      hd]
    rfl
  have hset : ∀ i : ℕ, dims[i]? = some (-1) → extents[i]? = some x := by
    intro i hi
    obtain rfl := (hk i (-1) hi).1 rfl
    rw [hextents, List.getElem?_set_self]
    rw [List.length_mapIdx]
    exact (List.getElem?_eq_some_iff.1 hi).1
  constructor
  · intro h
    refine ⟨fun d hd => ?_, fun htf i hi => ?_, fun hmem => ?_, h.prod⟩
    · obtain ⟨i, hi⟩ := List.mem_iff_getElem?.1 hd
      by_cases hne : d = -1
      · exact hne.ge
      · have hgiven := h.given i d hi hne
        split_ifs at hgiven with hzero
        · omega
        · have hnonneg := h.nonneg d (List.mem_of_getElem? hgiven)
          omega
    · have hgiven := h.given i 0 hi (by decide)
      rw [if_pos ⟨rfl, by rw [htf]; rfl⟩, hget i 0 hi (by decide)] at hgiven
      exact (List.getElem?_eq_some_iff.1 hgiven.symm).1
    · obtain ⟨i, hi⟩ := List.mem_iff_getElem?.1 hmem
      exact h.nonneg x (List.mem_of_getElem? (hset i hi))
  · rintro ⟨hge, hzero, hx, hprod⟩
    refine ⟨hlength, fun e he => ?_, fun i d hd hne => ?_, hprod⟩
    · obtain ⟨i, hi, rfl⟩ := List.mem_iff_getElem.1 he
      have hd : dims[i]? = some dims[i] := List.getElem?_eq_getElem (hlength ▸ hi)
      by_cases hne : dims[i] = -1
      · rw [hne] at hd
        rw [(List.getElem?_eq_some_iff.1 (hset i hd)).2]
        exact hx (List.mem_of_getElem? hd)
      · rw [(List.getElem?_eq_some_iff.1 (hget i _ hd hne)).2, extent, if_neg hne]
        split_ifs with h
        · have hlt := hzero (by simpa using h.2) i (by rw [hd, h.1])
          rw [← input.getElem_shape hlt]
          exact hshape _ (List.getElem_mem hlt)
        · have := hge _ (List.mem_of_getElem? hd)
          omega
    · rw [hget i d hd hne]
      exact extent_eq hne fun h htf => hzero htf i (h ▸ hd)

/-- The extents that are given are not negative. -/
theorem givenSize_nonneg {shape : List ℤ} (hshape : ∀ e ∈ shape, 0 ≤ e)
    (hge : ∀ d ∈ dims, -1 ≤ d) : 0 ≤ givenSize shape fromTf dims := by
  refine List.prod_nonneg fun e he => ?_
  obtain ⟨i, hi, rfl⟩ := List.mem_mapIdx.1 he
  have hd := hge _ (List.getElem_mem hi)
  split_ifs with hopen hzero
  · decide
  · by_cases hlt : i < shape.length
    · rw [List.getD_eq_getElem _ _ hlt]
      exact hshape _ (List.getElem_mem hlt)
    · rw [List.getD_eq_default _ _ (not_lt.1 hlt)]
      decide
  · omega

/-- An open extent counts as one until it is inferred. -/
theorem prod_set_open {axis : ℕ} (haxis : dims[axis]? = some (-1)) (x : ℤ) :
    ((dims.mapIdx (extent input fromTf)).set axis x).prod =
      (dims.mapIdx (extent input fromTf)).prod * x := by
  obtain ⟨hlt, hget⟩ := List.getElem?_eq_some_iff.1 haxis
  set l := dims.mapIdx (extent input fromTf) with hl
  have hlt' : axis < l.length := by rwa [hl, List.length_mapIdx]
  have hone : l[axis] = 1 := by
    simp only [hl, List.getElem_mapIdx, hget]
    exact if_pos rfl
  have hprod : l.prod = (l.take axis).prod * (l.drop (axis + 1)).prod := by
    rw [← List.prod_take_mul_prod_drop l axis, List.drop_eq_getElem_cons hlt', List.prod_cons, hone,
      one_mul]
  rw [List.prod_set, if_pos hlt', hprod, mul_right_comm]

theorem eq_of_count_le_one {x : ℤ} (hcount : dims.count x ≤ 1) {i j : ℕ} (hi : dims[i]? = some x)
    (hj : dims[j]? = some x) : i = j := by
  by_contra hne
  wlog hlt : i < j generalizing i j
  · exact this hj hi (Ne.symm hne) (by omega)
  obtain ⟨hilt, hi⟩ := List.getElem?_eq_some_iff.1 hi
  obtain ⟨hjlt, hj⟩ := List.getElem?_eq_some_iff.1 hj
  have hduplicate : dims.Duplicate x :=
    List.duplicate_iff_exists_distinct_get.2 ⟨⟨i, hilt⟩, ⟨j, hjlt⟩, hlt, hi.symm, hj.symm⟩
  have htwo := List.duplicate_iff_two_le_count.1 hduplicate
  omega

/-- The inferred extent, where the product of the others is an `int`. -/
theorem inferred_eq {n p : ℤ} (hn : 0 ≤ n) (hn' : n < 2 ^ 31) (hp : 0 ≤ p) (hp' : p < 2 ^ 31)
    (hreturns : n = wrap (wrap p * if wrap p ≠ 0 then n.tdiv (wrap p) else 0)) :
    0 ≤ (if wrap p ≠ 0 then n.tdiv (wrap p) else 0) ∧
      p * (if wrap p ≠ 0 then n.tdiv (wrap p) else 0) = n := by
  rw [wrap_eq hp hp'] at hreturns ⊢
  split_ifs at hreturns ⊢ with hzero
  · have hdiv : 0 ≤ n.tdiv p := Int.tdiv_nonneg hn hp
    have hle : p * n.tdiv p ≤ n := by
      rw [Int.mul_tdiv_self]
      exact Int.sub_le_self n (Int.tmod_nonneg p hn)
    refine ⟨hdiv, ?_⟩
    rwa [wrap_eq (mul_nonneg hp hdiv) (hle.trans_lt hn'), eq_comm] at hreturns
  · rw [mul_zero] at hreturns ⊢
    exact ⟨le_rfl, hreturns.symm⟩

/-- **Reshaping**, where the computer returns `true`. -/
theorem reshape_iff (h : Fits input.shape) (hcount : dims.count (-1) ≤ 1)
    (hreshape : reshape input fromTf dims = .ok extents) :
    IsReshape input.shape fromTf dims extents ↔ Handled input.shape fromTf dims := by
  set n := input.shape.prod with hn
  set p := (dims.mapIdx (extent input fromTf)).prod with hp
  have hsize : count input.shape = n := h.count_part (.refl _)
  have hn0 : 0 ≤ n := h.prod_part_nonneg (.refl _)
  have hn1 : n < 2 ^ 31 := h.prod_part_lt (.refl _)
  have hextents : count (dims.mapIdx (extent input fromTf)) = wrap p := count_eq _
  rw [reshape] at hreshape
  dsimp only at hreshape
  rw [hsize, hextents] at hreshape
  have hgiven : ∀ (hzero : fromTf = false → ∀ i : ℕ, dims[i]? = some 0 → i < input.shape.length),
      p = givenSize input.shape fromTf dims := prod_mapIdx_extent
  rcases determinAxis_cases dims with ⟨haxis, hmem⟩ | ⟨axis, haxis, hopen⟩
  · rw [haxis] at hreshape
    dsimp only at hreshape
    split_ifs at hreshape with hequal
    obtain rfl := Except.ok.inj hreshape
    have hk : ∀ i d, dims[i]? = some d → (d = -1 ↔ i = dims.length) := fun i d hd =>
      iff_of_false (fun h => hmem (h ▸ List.mem_of_getElem? hd))
        (List.getElem?_eq_some_iff.1 hd).1.ne
    rw [isReshape_iff (x := 0) hk (List.set_eq_of_length_le
      (by rw [List.length_mapIdx])).symm h.nonneg]
    constructor
    · rintro ⟨hge, hzero, -, hprod⟩
      refine ⟨hge, hzero, .inl ?_⟩
      rw [← hgiven hzero, hp, hprod]
      exact hn1
    · rintro ⟨hge, hzero, hsize⟩
      refine ⟨hge, hzero, fun h => absurd h hmem, ?_⟩
      have hlt := hsize.resolve_right fun h => hmem h.1
      have hp0 : 0 ≤ p := hgiven hzero ▸ givenSize_nonneg h.nonneg hge
      rw [← hp, ← hn, hequal, wrap_eq hp0 (hgiven hzero ▸ hlt)]
  · rw [haxis] at hreshape
    dsimp only at hreshape
    set x := if wrap p ≠ 0 then n.tdiv (wrap p) else 0 with hx
    split_ifs at hreshape with hequal
    obtain rfl := Except.ok.inj hreshape
    have hmem := List.mem_of_getElem? hopen
    have hk : ∀ i d, dims[i]? = some d → (d = -1 ↔ i = axis) := fun i d hd =>
      ⟨fun h => eq_of_count_le_one hcount (h ▸ hd) hopen, fun h => by
        rw [h, hopen] at hd
        exact (Option.some.inj hd).symm⟩
    rw [isReshape_iff hk rfl h.nonneg, prod_set_open hopen, ← hp, ← hn]
    constructor
    · rintro ⟨hge, hzero, hx0, hprod⟩
      refine ⟨hge, hzero, ?_⟩
      rw [← hgiven hzero]
      by_contra hnot
      obtain ⟨hle, hne⟩ := not_or.1 hnot
      -- a product that is no `int` is no divisor of the size of an input that is not empty
      have hn1' : n ≠ 0 := fun h => hne ⟨hmem, List.prod_eq_zero_iff.1 (hn ▸ h)⟩
      have hxpos : 0 < x := lt_of_le_of_ne (hx0 hmem) fun h => hn1' (by rw [← hprod, ← h, mul_zero])
      have hpx : p ≤ p * x := le_mul_of_one_le_right (by omega) hxpos
      omega
    · rintro ⟨hge, hzero, hsize⟩
      have hp0 : 0 ≤ p := hgiven hzero ▸ givenSize_nonneg h.nonneg hge
      rcases lt_or_ge p (2 ^ 31) with hlt | hge'
      · obtain ⟨hx0, hprod⟩ := inferred_eq hn0 hn1 hp0 hlt hequal
        exact ⟨hge, hzero, fun _ => hx0, hprod⟩
      · have hempty := (hsize.resolve_left (hgiven hzero ▸ not_lt.2 hge')).2
        have hn1' : n = 0 := List.prod_eq_zero hempty
        have hx0 : x = 0 := by
          rw [hx, hn1', Int.zero_tdiv, ite_self]
        exact ⟨hge, hzero, fun _ => hx0.ge, by rw [hx0, mul_zero, hn1']⟩

/-- Every extent is set, and they are those of the reshaped tensor, with as many elements. -/
def Right (input : Buffer) (inputFormat : Format) (t : Target) : Prop :=
  ∃ extents, onComputeSize input inputFormat t = .ok extents ∧
    IsReshape input.shape t.fromTf (t.ordered inputFormat) extents

section Computer

variable {inputFormat : Format} {t : Target}

theorem reshape_cases (input : Buffer) (fromTf : Bool) (dims : List ℤ) :
    (∃ extents, reshape input fromTf dims = .ok extents) ∨
      reshape input fromTf dims = .error .returnsFalse := by
  unfold reshape
  dsimp only
  split
  · split_ifs
    · exact .inl ⟨_, rfl⟩
    · exact .inr rfl
  · generalize (if count _ ≠ 0 then (count input.shape).tdiv _ else 0) = x
    split_ifs
    · exact .inl ⟨_, rfl⟩
    · exact .inr rfl

/-- What is permuted has four extents. -/
theorem shapes_cases (t : Target) (inputFormat : Format) :
    shapes t inputFormat = .ok (t.ordered inputFormat) ∧ t.dims.length ≤ maxTensorDim ∧
        (t.Permuted inputFormat → t.dims.length = 4) ∧ (t.ordered inputFormat).Perm t.dims ∨
      shapes t inputFormat = .error .undefined ∧
        ¬ (t.dims.length ≤ maxTensorDim ∧ (t.Permuted inputFormat → t.dims.length = 4)) := by
  unfold shapes
  by_cases hlength : maxTensorDim < t.dims.length
  · rw [if_pos hlength]
    exact .inr ⟨rfl, fun h => absurd h.1 (not_le.2 hlength)⟩
  rw [if_neg hlength]
  by_cases hpermuted : t.Permuted inputFormat
  · rw [if_pos hpermuted, Target.ordered, if_pos hpermuted]
    split
    · next d0 d1 d2 d3 hdims =>
      rw [hdims]
      refine .inl ⟨rfl, (by decide : 4 ≤ 9), fun _ => rfl, ?_⟩
      exact (List.perm_append_comm : ([d3] ++ [d1, d2]).Perm ([d1, d2] ++ [d3])).cons d0
    · next hdims =>
      refine .inr ⟨rfl, fun h => ?_⟩
      obtain ⟨d0, d1, d2, d3, hfour⟩ := List.length_eq_four.1 (h.2 hpermuted)
      exact hdims d0 d1 d2 d3 hfour
  · rw [if_neg hpermuted, Target.ordered, if_neg hpermuted]
    exact .inl ⟨rfl, not_lt.1 hlength, fun h => absurd h hpermuted, .refl _⟩

/-- **Reshaping.** -/
theorem right_iff (h : Fits input.shape) (hcount : t.dims.count (-1) ≤ 1)
    (hreturns : onComputeSize input inputFormat t ≠ .error .returnsFalse) :
    Right input inputFormat t ↔ t.dims.length ≤ maxTensorDim ∧
      (t.Permuted inputFormat → t.dims.length = 4) ∧
        Handled input.shape t.fromTf (t.ordered inputFormat) := by
  rcases shapes_cases t inputFormat with ⟨hshapes, hlength, hpermuted, hperm⟩ | ⟨hshapes, hnot⟩
  · have hcompute : onComputeSize input inputFormat t =
        reshape input t.fromTf (t.ordered inputFormat) := by
      rw [onComputeSize, hshapes]
      rfl
    rw [Right, hcompute]
    rw [hcompute] at hreturns
    obtain ⟨extents, hreshape⟩ := (reshape_cases _ _ _).resolve_right hreturns
    rw [hreshape, ← reshape_iff h (hperm.count_eq (-1) ▸ hcount) hreshape]
    constructor
    · rintro ⟨extents', hextents, hright⟩
      obtain rfl := Except.ok.inj hextents
      exact ⟨hlength, hpermuted, hright⟩
    · exact fun ⟨_, _, hright⟩ => ⟨extents, rfl, hright⟩
  · have hcompute : onComputeSize input inputFormat t = .error .undefined := by
      rw [onComputeSize, hshapes]
      rfl
    refine iff_of_false ?_ fun h => hnot ⟨h.1, h.2.1⟩
    rintro ⟨extents, hextents, -⟩
    cases hcompute.symm.trans hextents

end Computer

end ReshapeComputer

/-! ### Both computers -/

/-- A tensor of three axes. -/
def threeAxes : Buffer := ⟨3, fun i => i + 2⟩

theorem fits_threeAxes : Fits threeAxes.shape :=
  ⟨by decide, by decide⟩

end Mnn.Shape
