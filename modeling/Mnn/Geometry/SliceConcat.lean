import Mathlib.Algebra.BigOperators.Ring.Finset
import Mnn.Geometry.Recompute
import Mnn.Geometry.TensorArrayPieces
import Mnn.Shape.Slice

/-!
# `GeometrySlice` and `GeometryConcat`

The parts of a tensor along an axis (`source/geometry/GeometrySlice.cpp`), put together again
(`source/geometry/GeometryConcat.cpp`).

* `GeometrySlice.onCompute`, `GeometryConcat.onCompute`: the regions;
* `cell`: an element by its place before the axis, on it and behind it;
* `GeometrySlice.region_copies`, `GeometryConcat.region_copies`: a region moves a block of cells;
* `splits_of_sum`: parts that add up hold the blocks of the input, and together they are the input;
* `slice_iff`: **the parts are a partition exactly when the points describe one**.
-/

namespace Mnn.Recompute

open Shape Shape.SliceComputer

/-! ### Regions -/

/-- The axis, counted from the front. -/
def frontAxis (t : Tensor) (axis : ℤ) : ℕ := (fromEnd t.dimensions axis).toNat

namespace Tensor

variable (t : Tensor) (axis : ℕ)

/-- The elements before the axis. -/
def outside : ℕ := (t.shape.take axis).prod

/-- The elements behind the axis. -/
def inside : ℕ := (t.shape.drop (axis + 1)).prod

end Tensor

namespace GeometrySlice

/-- The region of the output that begins at `offset`. -/
def region (input : Tensor) (axis offset size : ℕ) : Region Ref where
  src := { offset := offset * input.inside axis
           stride := ![input.length axis * input.inside axis, input.inside axis, 1] }
  dst := { stride := ![input.inside axis * size, input.inside axis, 1] }
  size := ![input.outside axis, size, input.inside axis]
  origin := .input 0

/-- The loop over the outputs; `inputFix` is true for `Unpack`. -/
def regionsFrom (input : Tensor) (axis : ℕ) (inputFix : Bool) : ℕ → List Tensor →
    List (List (Region Ref))
  | _, [] => []
  | offset, output :: outputs =>
    let size := if inputFix then 1 else output.length axis
    [region input axis offset size] :: regionsFrom input axis inputFix (offset + size) outputs

/-- The regions of each output. -/
def onCompute (axis : ℤ) (inputFix : Bool) (input : Tensor) (outputs : List Tensor) :
    List (List (Region Ref)) :=
  if input.elementSize = 0 then outputs.map fun _ => []
  else regionsFrom input (frontAxis input axis) inputFix 0 outputs

end GeometrySlice

namespace GeometryConcat

/-- The region of input `i`, which begins at `offset`. -/
def region (output : Tensor) (axis offset size i : ℕ) : Region Ref where
  src := { stride := ![size * output.inside axis, output.inside axis, 1] }
  dst := { offset := offset * output.inside axis
           stride := ![output.inside axis * output.length axis, output.inside axis, 1] }
  size := ![output.outside axis, size, output.inside axis]
  origin := .input i

/-- The loop over the inputs from number `i` on; `inputFix` is true for `Pack`. -/
def regionsFrom (output : Tensor) (axis : ℕ) (inputFix : Bool) : ℕ → ℕ → List Tensor →
    List (Region Ref)
  | _, _, [] => []
  | offset, i, t :: inputs =>
    if t.elementSize = 0 then regionsFrom output axis inputFix offset (i + 1) inputs
    else
      let size := if inputFix then 1 else t.length axis
      region output axis offset size i ::
        regionsFrom output axis inputFix (offset + size) (i + 1) inputs

def onCompute (axis : ℤ) (inputFix : Bool) (inputs : List Tensor) (output : Tensor) :
    List (Region Ref) :=
  let axis := frontAxis output axis
  if output.outside axis = 0 ∨ output.inside axis = 0 ∨ output.length axis = 0 then []
  else regionsFrom output axis inputFix 0 0 inputs

end GeometryConcat

/-! ### Cells -/

/-- The element `x` of row `k` of plane `z`, if a plane has `length` rows. -/
def cell (inside length z k x : ℕ) : ℕ := (z * length + k) * inside + x

section Cell

variable {inside length outside z k x z' k' x' : ℕ}

theorem cell_lt (hz : z < outside) (hk : k < length) (hx : x < inside) :
    cell inside length z k x < outside * length * inside := by
  have hrow : z * length + k < outside * length := by
    calc z * length + k < z * length + length := Nat.add_lt_add_left hk _
      _ = (z + 1) * length := (Nat.succ_mul z length).symm
      _ ≤ outside * length := Nat.mul_le_mul_right _ hz
  calc cell inside length z k x < (z * length + k) * inside + inside := Nat.add_lt_add_left hx _
    _ = (z * length + k + 1) * inside := (Nat.succ_mul _ inside).symm
    _ ≤ outside * length * inside := Nat.mul_le_mul_right _ hrow

theorem cell_injective (hk : k < length) (hk' : k' < length) (hx : x < inside) (hx' : x' < inside)
    (h : cell inside length z k x = cell inside length z' k' x') : z = z' ∧ k = k' ∧ x = x' := by
  obtain ⟨hrow, rfl⟩ := TensorArray.euclid_unique hx hx' h
  obtain ⟨rfl, rfl⟩ := TensorArray.euclid_unique hk hk' hrow
  exact ⟨rfl, rfl, rfl⟩

theorem exists_cell {n : ℕ} (hn : n < outside * length * inside) :
    ∃ z < outside, ∃ k < length, ∃ x < inside, n = cell inside length z k x := by
  have hinside : 0 < inside := Nat.pos_of_ne_zero fun h => by simp [h] at hn
  have hlength : 0 < length := Nat.pos_of_ne_zero fun h => by simp [h] at hn
  have hrow : n / inside < outside * length := Nat.div_lt_of_lt_mul (by rwa [Nat.mul_comm])
  refine ⟨n / inside / length, Nat.div_lt_of_lt_mul (by rwa [Nat.mul_comm]),
    n / inside % length, Nat.mod_lt _ hlength, n % inside, Nat.mod_lt _ hinside, ?_⟩
  rw [cell, Nat.div_add_mod', Nat.div_add_mod']

end Cell

/-- A region of rows of cells, from row `k₀` of planes of `a` rows to row `l₀` of planes of `b`. -/
theorem copies_rows {outside size inside a b k₀ l₀ : ℕ} {region : Region Ref}
    (hsize : region.size = ![(outside : ℤ), (size : ℤ), (inside : ℤ)])
    (hsrc : region.src = ⟨(k₀ * inside : ℕ), ![(a * inside : ℕ), (inside : ℕ), 1]⟩)
    (hdst : region.dst = ⟨(l₀ * inside : ℕ), ![(b * inside : ℕ), (inside : ℕ), 1]⟩) {s o : ℤ} :
    region.Copies s o ↔ ∃ z < outside, ∃ k < size, ∃ x < inside,
      s = cell inside a z (k₀ + k) x ∧ o = cell inside b z (l₀ + k) x := by
  have haddress : ∀ (c m z k x : ℕ), View.address ⟨(m * inside : ℕ), ![(c * inside : ℕ),
      (inside : ℕ), 1]⟩ ![(z : ℤ), (k : ℤ), (x : ℤ)] = cell inside c z (m + k) x := by
    intro c m z k x
    simp only [View.address, Matrix.cons_val, cell]
    push_cast
    ring
  rw [Region.Copies, hsize, hsrc, hdst, TensorArray.exists_inBox]
  refine exists_congr fun z => and_congr_right fun _ => exists_congr fun k =>
    and_congr_right fun _ => exists_congr fun x => and_congr_right fun _ => ?_
  rw [haddress, haddress, eq_comm, @eq_comm ℤ o]

theorem GeometrySlice.region_copies {input : Tensor} {axis offset size : ℕ} {s o : ℤ} :
    (GeometrySlice.region input axis offset size).Copies s o ↔
      ∃ z < input.outside axis, ∃ k < size, ∃ x < input.inside axis,
        s = cell (input.inside axis) (input.length axis) z (offset + k) x ∧
          o = cell (input.inside axis) size z k x := by
  have hsrc : (GeometrySlice.region input axis offset size).src =
      ⟨(offset * input.inside axis : ℕ), ![(input.length axis * input.inside axis : ℕ),
        (input.inside axis : ℕ), 1]⟩ := by
    rw [GeometrySlice.region, Nat.cast_mul, Nat.cast_mul]
  have hdst : (GeometrySlice.region input axis offset size).dst =
      ⟨(0 * input.inside axis : ℕ), ![(size * input.inside axis : ℕ),
        (input.inside axis : ℕ), 1]⟩ := by
    rw [GeometrySlice.region, Nat.zero_mul, Nat.mul_comm, Nat.cast_mul]
    rfl
  simpa only [Nat.zero_add] using copies_rows rfl hsrc hdst

theorem GeometryConcat.region_copies {output : Tensor} {axis offset size i : ℕ} {s o : ℤ} :
    (GeometryConcat.region output axis offset size i).Copies s o ↔
      ∃ z < output.outside axis, ∃ k < size, ∃ x < output.inside axis,
        s = cell (output.inside axis) size z k x ∧
          o = cell (output.inside axis) (output.length axis) z (offset + k) x := by
  have hsrc : (GeometryConcat.region output axis offset size i).src =
      ⟨(0 * output.inside axis : ℕ), ![(size * output.inside axis : ℕ),
        (output.inside axis : ℕ), 1]⟩ := by
    rw [GeometryConcat.region, Nat.zero_mul, Nat.cast_mul]
    rfl
  have hdst : (GeometryConcat.region output axis offset size i).dst =
      ⟨(offset * output.inside axis : ℕ), ![(output.length axis * output.inside axis : ℕ),
        (output.inside axis : ℕ), 1]⟩ := by
    rw [GeometryConcat.region, Nat.mul_comm (output.length axis), Nat.cast_mul, Nat.cast_mul]
  simpa only [Nat.zero_add] using copies_rows rfl hsrc hdst

/-! ### The loops -/

theorem GeometrySlice.getElem_regionsFrom {input : Tensor} {axis offset : ℕ}
    {outputs : List Tensor} {i : ℕ} (hi : i < outputs.length) :
    (GeometrySlice.regionsFrom input axis false offset outputs).getD i [] =
      [GeometrySlice.region input axis (offset + ((outputs.take i).map (·.length axis)).sum)
        ((outputs.get ⟨i, hi⟩).length axis)] := by
  induction outputs generalizing offset i with
  | nil => exact absurd hi (Nat.not_lt_zero i)
  | cons output outputs ih =>
    cases i with
    | zero => rfl
    | succ i =>
      refine (ih (Nat.lt_of_succ_lt_succ hi)).trans ?_
      rw [List.take_succ_cons, List.map_cons, List.sum_cons, ← Nat.add_assoc]
      rfl

theorem length_regionsFrom {input : Tensor} {axis offset : ℕ} {inputFix : Bool}
    {outputs : List Tensor} :
    (GeometrySlice.regionsFrom input axis inputFix offset outputs).length = outputs.length := by
  induction outputs generalizing offset with
  | nil => rfl
  | cons output outputs ih => exact congrArg (· + 1) ih

/-- The regions of a concatenation, if an input without elements has no rows. -/
theorem GeometryConcat.mem_regionsFrom {output : Tensor} {axis offset first : ℕ}
    {inputs : List Tensor} (hzero : ∀ t ∈ inputs, t.elementSize = 0 → t.length axis = 0)
    {reg : Region Ref} : reg ∈ GeometryConcat.regionsFrom output axis false offset first inputs ↔
      ∃ i, ∃ hi : i < inputs.length, (inputs.get ⟨i, hi⟩).elementSize ≠ 0 ∧
        reg = GeometryConcat.region output axis
          (offset + ((inputs.take i).map (·.length axis)).sum)
          ((inputs.get ⟨i, hi⟩).length axis) (first + i) := by
  induction inputs generalizing offset first with
  | nil => exact iff_of_false List.not_mem_nil fun ⟨i, hi, _⟩ => absurd hi (Nat.not_lt_zero i)
  | cons t inputs ih =>
    obtain ⟨hzero', hrest⟩ := List.forall_mem_cons.1 hzero
    -- the input numbers of the rest are one higher
    have hsucc : ∀ offset' : ℕ, offset' = offset + t.length axis →
        (reg ∈ GeometryConcat.regionsFrom output axis false offset' (first + 1) inputs ↔
          ∃ i, ∃ hi : i + 1 < (t :: inputs).length,
            ((t :: inputs).get ⟨i + 1, hi⟩).elementSize ≠ 0 ∧
            reg = GeometryConcat.region output axis
              (offset + (((t :: inputs).take (i + 1)).map (·.length axis)).sum)
              (((t :: inputs).get ⟨i + 1, hi⟩).length axis) (first + (i + 1))) := by
      rintro _ rfl
      rw [ih hrest]
      refine exists_congr fun i => ⟨fun ⟨hi, hsize, hreg⟩ => ⟨Nat.succ_lt_succ hi, hsize, ?_⟩,
        fun ⟨hi, hsize, hreg⟩ => ⟨Nat.lt_of_succ_lt_succ hi, hsize, ?_⟩⟩
      · rw [hreg, List.take_succ_cons, List.map_cons, List.sum_cons, Nat.add_assoc offset,
          Nat.add_assoc first, Nat.add_comm 1]
        rfl
      · rw [hreg, List.take_succ_cons, List.map_cons, List.sum_cons, Nat.add_assoc offset,
          Nat.add_assoc first, Nat.add_comm 1]
        rfl
    rw [GeometryConcat.regionsFrom]
    by_cases hsize : t.elementSize = 0
    · rw [if_pos hsize, hsucc offset (by rw [hzero' hsize, Nat.add_zero])]
      constructor
      · rintro ⟨i, hi⟩
        exact ⟨i + 1, hi⟩
      · rintro ⟨i, hi, hne, hreg⟩
        cases i with
        | zero => exact absurd hsize hne
        | succ i => exact ⟨i, hi, hne, hreg⟩
    · rw [if_neg hsize, if_neg Bool.false_ne_true, List.mem_cons, hsucc _ rfl]
      constructor
      · rintro (hreg | ⟨i, hi⟩)
        · exact ⟨0, Nat.succ_pos _, hsize, hreg⟩
        · exact ⟨i + 1, hi⟩
      · rintro ⟨i, hi, hne, hreg⟩
        cases i with
        | zero => exact .inl hreg
        | succ i => exact .inr ⟨i, hi, hne, hreg⟩

/-! ### Parts that add up -/

theorem elementSize_eq_zero {t : Tensor} : t.elementSize = 0 ↔ 0 ∈ t.shape := by
  rw [Tensor.elementSize, List.prod_eq_zero_iff, List.mem_mapIdx]
  constructor
  · rintro ⟨i, hi, hzero⟩
    have hd : t.shape[i] = 0 := by
      split_ifs at hzero <;> omega
    exact hd ▸ List.getElem_mem hi
  · intro hmem
    obtain ⟨i, hi, hd⟩ := List.mem_iff_getElem.1 hmem
    refine ⟨i, hi, ?_⟩
    rw [hd]
    split_ifs <;> rfl

theorem Tensor.rawSize_eq {t : Tensor} {axis : ℕ} (haxis : axis < t.shape.length) :
    t.rawSize = t.outside axis * t.length axis * t.inside axis := by
  rw [Tensor.rawSize, Tensor.outside, Tensor.inside, Tensor.length,
    List.getD_eq_getElem _ _ haxis, Nat.mul_assoc, ← List.prod_cons, ← List.drop_eq_getElem_cons,
    List.prod_take_mul_prod_drop]

/-- The outputs, which have the shape of the input but along the axis. -/
def parts (input : Tensor) (axis : ℕ) (extents : List ℕ) : List Tensor :=
  extents.map fun e => { input with shape := input.shape.set axis e }

/-- Only cells of the input are read, each part holds the cells from its place on, and the
concatenation of the parts is the input. -/
structure Splits (V : Type*) [Zero V] (input : Tensor) (axis : ℤ) (extents : List ℕ) : Prop where
  inside : ∀ regions ∈ GeometrySlice.onCompute axis false input
      (parts input (frontAxis input axis) extents), ∀ reg ∈ regions, ∀ s o, reg.Copies s o →
    0 ≤ s ∧ s < input.rawSize
  block : ∀ (value : Ref → ℤ → V) (i : ℕ) (hi : i < extents.length) (z k x : ℕ),
    z < input.outside (frontAxis input axis) → k < extents.get ⟨i, hi⟩ →
      x < input.inside (frontAxis input axis) →
    raster ((GeometrySlice.onCompute axis false input
        (parts input (frontAxis input axis) extents)).getD i []) value
        (cell (input.inside (frontAxis input axis)) (extents.get ⟨i, hi⟩) z k x) =
      value (.input 0) (cell (input.inside (frontAxis input axis))
        (input.length (frontAxis input axis)) z ((extents.take i).sum + k) x)
  joined : ∀ (value : Ref → ℤ → V) (n : ℕ), n < input.rawSize →
    raster (GeometryConcat.onCompute axis false (parts input (frontAxis input axis) extents) input)
        (fun r => match r with
          | .input i => raster ((GeometrySlice.onCompute axis false input
              (parts input (frontAxis input axis) extents)).getD i []) value
          | _ => 0) n =
      value (.input 0) n

section Splits

variable {V : Type*} [Zero V] {input : Tensor} {axis : ℤ} {a : ℕ} {extents : List ℕ}

theorem sum_take_add_le {i : ℕ} (hi : i < extents.length) :
    (extents.take i).sum + extents.get ⟨i, hi⟩ ≤ extents.sum := by
  rw [← List.sum_take_add_sum_drop extents i, List.drop_eq_getElem_cons hi, List.sum_cons,
    ← Nat.add_assoc]
  exact Nat.le_add_right _ _

/-- A row is in one of the parts. -/
theorem exists_part {k : ℕ} (hk : k < extents.sum) : ∃ i, ∃ hi : i < extents.length,
    (extents.take i).sum ≤ k ∧ k < (extents.take i).sum + extents.get ⟨i, hi⟩ := by
  induction extents generalizing k with
  | nil => exact absurd hk (Nat.not_lt_zero k)
  | cons e extents ih =>
    rw [List.sum_cons] at hk
    by_cases hlt : k < e
    · refine ⟨0, Nat.succ_pos _, Nat.zero_le k, ?_⟩
      rw [List.take_zero, List.sum_nil, Nat.zero_add]
      exact hlt
    · obtain ⟨i, hi, hle, hlt'⟩ := @ih (k - e) (by omega)
      refine ⟨i + 1, Nat.succ_lt_succ hi, ?_, ?_⟩
      · rw [List.take_succ_cons, List.sum_cons]
        omega
      · rw [List.take_succ_cons, List.sum_cons]
        show k < e + (extents.take i).sum + extents.get ⟨i, hi⟩
        omega

variable (haxis : a < input.shape.length)

include haxis

theorem length_part (e : ℕ) :
    ({ input with shape := input.shape.set a e } : Tensor).length a = e := by
  rw [Tensor.length, List.getD_eq_getElem _ _ (by rwa [List.length_set]), List.getElem_set_self]

theorem map_length_parts : (parts input a extents).map (·.length a) = extents := by
  rw [parts, List.map_map]
  exact (List.map_congr_left fun e _ => length_part haxis e).trans (List.map_id' _)

theorem length_get_parts {i : ℕ} (hi : i < (parts input a extents).length)
    (hi' : i < extents.length) :
    ((parts input a extents).get ⟨i, hi⟩).length a = extents.get ⟨i, hi'⟩ := by
  simp only [parts, List.get_eq_getElem, List.getElem_map]
  exact length_part haxis _

theorem sum_take_parts (i : ℕ) :
    (((parts input a extents).take i).map (·.length a)).sum = (extents.take i).sum := by
  rw [List.map_take, map_length_parts haxis]

/-- The region of a part. -/
theorem getD_onCompute (ha : frontAxis input axis = a) (hsize : input.elementSize ≠ 0) {i : ℕ}
    (hi : i < extents.length) :
    (GeometrySlice.onCompute axis false input (parts input a extents)).getD i [] =
      [GeometrySlice.region input a (extents.take i).sum (extents.get ⟨i, hi⟩)] := by
  have hi' : i < (parts input a extents).length := by rwa [parts, List.length_map]
  rw [GeometrySlice.onCompute, if_neg hsize, ha, GeometrySlice.getElem_regionsFrom hi',
    sum_take_parts haxis, Nat.zero_add, length_get_parts haxis hi' hi]

/-- A part holds the cells from its place on. -/
theorem raster_part (ha : frontAxis input axis = a) (hsize : input.elementSize ≠ 0)
    (value : Ref → ℤ → V) {i : ℕ} (hi : i < extents.length) {z k x : ℕ} (hz : z < input.outside a)
    (hk : k < extents.get ⟨i, hi⟩) (hx : x < input.inside a) :
    raster ((GeometrySlice.onCompute axis false input (parts input a extents)).getD i []) value
        (cell (input.inside a) (extents.get ⟨i, hi⟩) z k x) =
      value (.input 0) (cell (input.inside a) (input.length a) z ((extents.take i).sum + k) x) := by
  rw [getD_onCompute haxis ha hsize hi]
  refine raster_of_agree ⟨_, List.mem_singleton_self _, _, GeometrySlice.region_copies.2
    ⟨z, hz, k, hk, x, hx, rfl, rfl⟩⟩ fun reg hreg s hs => ?_
  obtain rfl := List.mem_singleton.1 hreg
  obtain ⟨z', -, k', hk', x', hx', rfl, ho⟩ := GeometrySlice.region_copies.1 hs
  obtain ⟨rfl, rfl, rfl⟩ := cell_injective hk hk' hx hx' (Nat.cast_injective ho)
  rfl

omit haxis in
/-- Without elements there are no regions. -/
theorem onCompute_of_zero (hsize : input.elementSize = 0) (i : ℕ) :
    (GeometrySlice.onCompute axis false input (parts input a extents)).getD i [] = [] := by
  rw [GeometrySlice.onCompute, if_pos hsize, List.getD_eq_getElem?_getD, List.getElem?_map]
  cases (parts input a extents)[i]? <;> rfl

/-- A place outside of which there are none: without elements an extent is zero. -/
theorem not_exists_cell (hsize : input.elementSize = 0) {z k x : ℕ} (hz : z < input.outside a)
    (hk : k < input.length a) (hx : x < input.inside a) : False := by
  have hraw : input.rawSize = 0 := List.prod_eq_zero (elementSize_eq_zero.1 hsize)
  have hlt := cell_lt hz hk hx
  rw [← Tensor.rawSize_eq haxis, hraw] at hlt
  exact Nat.not_lt_zero _ hlt

theorem elementSize_part (hsize : input.elementSize ≠ 0) {e : ℕ} :
    ({ input with shape := input.shape.set a e } : Tensor).elementSize = 0 ↔ e = 0 := by
  rw [elementSize_eq_zero]
  constructor
  · intro hmem
    rcases List.mem_or_eq_of_mem_set hmem with hmem | hzero
    · exact absurd (elementSize_eq_zero.2 hmem) hsize
    · exact hzero.symm
  · rintro rfl
    exact List.mem_set haxis 0

/-- Only the input is read. -/
theorem inside_of_sum (ha : frontAxis input axis = a) (hsum : extents.sum = input.length a)
    {regions : List (Region Ref)}
    (hregions : regions ∈ GeometrySlice.onCompute axis false input (parts input a extents))
    {reg : Region Ref} (hreg : reg ∈ regions) {s o : ℤ} (hcopies : reg.Copies s o) :
    0 ≤ s ∧ s < input.rawSize := by
  obtain ⟨i, hi, hget⟩ := List.mem_iff_getElem.1 hregions
  have hgetD : (GeometrySlice.onCompute axis false input (parts input a extents)).getD i [] =
      regions := by
    rw [List.getD_eq_getElem _ _ hi, hget]
  by_cases hsize : input.elementSize = 0
  · rw [onCompute_of_zero hsize] at hgetD
    exact absurd (hgetD ▸ hreg) List.not_mem_nil
  · have hlength : (GeometrySlice.onCompute axis false input (parts input a extents)).length =
        extents.length := by
      rw [GeometrySlice.onCompute, if_neg hsize, length_regionsFrom, parts, List.length_map]
    have hi' : i < extents.length := hlength ▸ hi
    rw [getD_onCompute haxis ha hsize hi'] at hgetD
    obtain rfl := List.mem_singleton.1 (hgetD ▸ hreg : reg ∈ [_])
    obtain ⟨z, hz, k, hk, x, hx, rfl, -⟩ := GeometrySlice.region_copies.1 hcopies
    have hrow : (extents.take i).sum + k < input.length a := by
      have := sum_take_add_le hi'
      omega
    refine ⟨Int.natCast_nonneg _, ?_⟩
    rw [Tensor.rawSize_eq haxis]
    exact_mod_cast cell_lt hz hrow hx

/-- The parts are the input together. -/
theorem joined_of_sum (ha : frontAxis input axis = a) (hsum : extents.sum = input.length a)
    (value : Ref → ℤ → V) {n : ℕ} (hn : n < input.rawSize) :
    raster (GeometryConcat.onCompute axis false (parts input a extents) input)
        (fun r => match r with
          | .input i => raster ((GeometrySlice.onCompute axis false input
              (parts input a extents)).getD i []) value
          | _ => 0) n =
      value (.input 0) n := by
  rw [Tensor.rawSize_eq haxis] at hn
  obtain ⟨z, hz, k, hk, x, hx, rfl⟩ := exists_cell hn
  have hsize : input.elementSize ≠ 0 := fun h => not_exists_cell haxis h hz hk hx
  have hzero : ∀ t ∈ parts input a extents, t.elementSize = 0 → t.length a = 0 := by
    intro t ht helem
    obtain ⟨e, -, rfl⟩ := List.mem_map.1 ht
    rw [length_part haxis, (elementSize_part haxis hsize).1 helem]
  have hnonempty : ¬ (input.outside a = 0 ∨ input.inside a = 0 ∨ input.length a = 0) := by omega
  have hmem : ∀ reg, reg ∈ GeometryConcat.onCompute axis false (parts input a extents) input ↔
      ∃ i, ∃ hi : i < extents.length, extents.get ⟨i, hi⟩ ≠ 0 ∧
        reg = GeometryConcat.region input a (extents.take i).sum (extents.get ⟨i, hi⟩) i := by
    intro reg
    rw [GeometryConcat.onCompute]
    simp only [ha, if_neg hnonempty]
    rw [GeometryConcat.mem_regionsFrom hzero]
    refine exists_congr fun i => ?_
    have hlength : (parts input a extents).length = extents.length := List.length_map _
    constructor
    · rintro ⟨hi, hne, rfl⟩
      have hi' : i < extents.length := hlength ▸ hi
      refine ⟨hi', fun h => hne ?_, ?_⟩
      · simp only [parts, List.get_eq_getElem, List.getElem_map]
        exact (elementSize_part haxis hsize).2 h
      · rw [sum_take_parts haxis, length_get_parts haxis hi hi', Nat.zero_add, Nat.zero_add]
    · rintro ⟨hi, hne, rfl⟩
      have hi' : i < (parts input a extents).length := hlength ▸ hi
      refine ⟨hi', fun h => hne ?_, ?_⟩
      · simp only [parts, List.get_eq_getElem, List.getElem_map] at h
        exact (elementSize_part haxis hsize).1 h
      · rw [sum_take_parts haxis, length_get_parts haxis hi' hi, Nat.zero_add, Nat.zero_add]
  obtain ⟨i, hi, hle, hlt⟩ := exists_part (hsum.symm ▸ hk)
  refine raster_of_agree ⟨_, (hmem _).2 ⟨i, hi, by omega, rfl⟩, _, GeometryConcat.region_copies.2
    ⟨z, hz, k - (extents.take i).sum, by omega, x, hx, rfl, ?_⟩⟩ fun reg hreg s hs => ?_
  · rw [Nat.add_sub_cancel' hle]
  · obtain ⟨j, hj, -, rfl⟩ := (hmem _).1 hreg
    obtain ⟨z', hz', k', hk', x', hx', rfl, ho⟩ := GeometryConcat.region_copies.1 hs
    have hrow : (extents.take j).sum + k' < input.length a := by
      have := sum_take_add_le hj
      omega
    obtain ⟨rfl, rfl, rfl⟩ := cell_injective hk hrow hx hx' (Nat.cast_injective ho)
    exact raster_part haxis ha hsize value hj hz hk' hx

/-- **Parts that add up.** -/
theorem splits_of_sum (ha : frontAxis input axis = a) (hsum : extents.sum = input.length a) :
    Splits V input axis extents := by
  subst ha
  refine ⟨fun regions hregions reg hreg s o hcopies =>
      inside_of_sum haxis rfl hsum hregions hreg hcopies,
    fun value i hi z k x hz hk hx => ?_, fun value n hn => joined_of_sum haxis rfl hsum value hn⟩
  have hsize : input.elementSize ≠ 0 := fun h => by
    have hrow := sum_take_add_le hi
    exact not_exists_cell haxis h hz (k := (extents.take i).sum + k) (by omega) hx
  exact raster_part haxis rfl hsize value hi hz hk hx

end Splits

/-! ### Partitions -/

/-- The extents that are set are not negative and add up to that of the input, and the regions of
the parts split it. -/
def Partitions (V : Type*) [Zero V] (op : Slice) (runtime : Option (List ℤ)) (outputSize : ℕ)
    (input : Tensor) (axis : ℤ) : Prop :=
  ∃ extents : List ℕ,
    onComputeSize op runtime (input.length (frontAxis input axis)) outputSize =
      .ok (extents.map fun e : ℕ => some (e : ℤ)) ∧
    extents.sum = input.length (frontAxis input axis) ∧ Splits V input axis extents

/-- **The parts are a partition exactly when the points describe one.** -/
theorem slice_iff {V : Type*} [Zero V] {op : Slice} {runtime : Option (List ℤ)} {outputSize : ℕ}
    {input : Tensor} {axis : ℤ} (haxis : -input.dimensions ≤ axis ∧ axis < input.dimensions)
    (hextent : IsInt (input.length (frontAxis input axis)))
    (hpoints : ∀ points ∈ op.slicePoints, ∀ point ∈ points, IsInt point)
    (hdescribes : Describes op runtime (input.length (frontAxis input axis)) outputSize)
    (hreturns : onComputeSize op runtime (input.length (frontAxis input axis)) outputSize ≠
      .error .returnsFalse) :
    Partitions V op runtime outputSize input axis ↔
      Handled op runtime (input.length (frontAxis input axis)) outputSize := by
  have hfront : frontAxis input axis < input.shape.length := by
    have hrange : fromEnd input.dimensions axis < input.dimensions := by
      rw [fromEnd]
      split_ifs <;> omega
    have : 0 < input.dimensions := by omega
    exact (Int.toNat_lt_of_ne_zero this.ne').2 hrange
  rw [← partition_iff hextent hpoints hdescribes hreturns]
  constructor
  · rintro ⟨extents, hcompute, hsum, -⟩
    refine ⟨extents.map Nat.cast, by rw [hcompute, List.map_map]; rfl, fun e he => ?_, ?_⟩
    · obtain ⟨e, -, rfl⟩ := List.mem_map.1 he
      exact Int.natCast_nonneg e
    · rw [← Nat.cast_list_sum, hsum]
  · rintro ⟨extents, hcompute, hnonneg, hsum⟩
    have hcast : (extents.map Int.toNat).map Nat.cast = extents := by
      rw [List.map_map]
      exact (List.map_congr_left fun e he => Int.toNat_of_nonneg (hnonneg e he)).trans
        (List.map_id' extents)
    have hsum' : (extents.map Int.toNat).sum = input.length (frontAxis input axis) := by
      rw [← hcast, ← Nat.cast_list_sum] at hsum
      exact_mod_cast hsum
    refine ⟨extents.map Int.toNat, ?_, hsum', splits_of_sum hfront rfl hsum'⟩
    rw [hcompute]
    conv_lhs => rw [← hcast, List.map_map]
    rfl

/-- Points of caffe. -/
theorem slice_caffe : Partitions ℤ ⟨.caffe, some [1, 3]⟩ none 3 { shape := [2, 4] } (-1) := by
  refine (slice_iff (by decide) ⟨by decide, by decide⟩ ?_ ?_ (by decide)).2 ?_
  · rintro _ ⟨⟩ point hpoint
    exact (by decide : ∀ point ∈ [(1 : ℤ), 3], -2 ^ 31 ≤ point ∧ point < 2 ^ 31) point hpoint
  · exact ⟨[1, 3], rfl, rfl⟩
  · rintro _ ⟨⟩
    decide

/-- Parts of size three of five rows, of which the second would have two. -/
theorem torch_five_by_three : onComputeSize ⟨.torch, some [3]⟩ none 5 2 = .ok [some 3, some 3] ∧
    Describes ⟨.torch, some [3]⟩ none 5 2 ∧
    ¬ Partitions ℤ ⟨.torch, some [3]⟩ none 2 { shape := [5] } 0 := by
  have hcompute : onComputeSize ⟨.torch, some [3]⟩ none 5 2 = .ok [some 3, some 3] := by decide
  refine ⟨hcompute, ⟨by decide, by decide, by decide⟩, ?_⟩
  rintro ⟨extents, hcompute', hsum, -⟩
  have hset : [some 3, some 3] = extents.map fun e : ℕ => some (e : ℤ) :=
    Except.ok.inj (hcompute.symm.trans hcompute')
  have hextents : [3, 3] = extents := by
    have h := congrArg (List.map fun e : Option ℤ => (e.getD 0).toNat) hset
    rw [List.map_map] at h
    exact h.trans (List.map_id' extents)
  exact absurd (hextents ▸ hsum) (by decide)

end Mnn.Recompute
