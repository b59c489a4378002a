import Mnn.Geometry.PadCoords

/-!
# What the regions of a padding leave

* `regions`, `onCompute_eq`: the regions in terms of the fused axes;
* `raster_central`, `raster_outside`, `raster_skipped`: the elements of the output, by their
  coordinates;
* `PadsLast`, `padsLast_iff`: no dimension is padded before the last three fused ones;
* `raster_eq_padded`, `exists_skipped`: where the output is the padded tensor;
* `onCompute_exact_iff`: **the output is the padded tensor exactly when nothing but zeros is filled
  in or no dimension before the last three fused ones is padded**.
-/

namespace Mnn.Pad

open Recompute Lib

/-! ### The content of the output -/

section Content

variable {V : Type*} [Zero V]

/-- The number that is filled in: without a third input it is zero. -/
def fillValue (value : Option (PadValue V)) : V := (value.map PadValue.host).getD 0

/-- The contents of the inputs; of the third one only the first element is known. -/
def contents (x : ℤ → V) (value : Option (PadValue V)) : Ref → ℤ → V
  | .input 2, _ => fillValue value
  | _, s => x s

/-- The tensor that the regions around the center read. -/
def padInput (mode : PadValueMode) : Ref := if mode = .constant then .input 2 else .input 0

/-- Are there regions around the center? -/
def emits [DecidableEq V] (mode : PadValueMode) (value : Option (PadValue V)) : Bool :=
  mode ≠ .constant || value.any fun v => !v.zero

/-- All regions, given the fused axes. -/
def regions [DecidableEq V] (mode : PadValueMode) (l : List Axis) (value : Option (PadValue V)) :
    List (Region Ref) :=
  (offsetRegions (.input 0) ((strided l).map Strided.swap)).map revert ++
    if emits mode value then padRegions mode (padInput mode) (strided l) else []

theorem swap_fusedAxes (current : ℕ) (axes : List Axis) :
    (fusedAxes current axes).map Axis.swap =
      seperate current current (axes.map Axis.swap) := by
  rw [fusedAxes, List.map_map]
  exact List.map_id _

theorem onCompute_eq [DecidableEq V] (mode : Option PadValueMode) {input : Tensor}
    (paddings output : Tensor) (value : Option (PadValue V)) (hpos : ∀ d ∈ input.shape, 0 < d) :
    onCompute mode input paddings output value =
      regions (mode.getD .constant) (fusedAxes 1 (padAxes input paddings output)) value := by
  have hany : ¬ (input.shape.any (· == 0)) = true := by
    rw [List.any_eq_true]
    rintro ⟨d, hd, hzero⟩
    exact (hpos d hd).ne' (beq_iff_eq.1 hzero)
  rw [onCompute, if_neg hany, regions, ← strided_swap, swap_fusedAxes]
  generalize mode.getD .constant = m
  cases m with
  | constant =>
    cases value with
    | none => exact (List.append_nil _).symm
    | some v =>
      cases hv : v.zero with
      | true =>
        simp only [emits, Option.any_some, hv, if_true]
        exact (List.append_nil _).symm
      | false =>
        simp only [emits, Option.any_some, hv]
        rfl
  | reflect => rfl
  | symmetric => rfl
  | edge => rfl

theorem origin_centers {r : Ref} {axes : List Strided} {reg : Region Ref}
    (hreg : reg ∈ (offsetRegions r axes).map revert) : reg.origin = r := by
  obtain ⟨reg', hreg', rfl⟩ := List.mem_map.1 hreg
  obtain ⟨c, -, rfl⟩ := List.mem_map.1 hreg'
  rfl

theorem origin_pads {mode : PadValueMode} {r : Ref} {axes : List Strided} {reg : Region Ref}
    (hreg : reg ∈ padRegions mode r axes) : reg.origin = r := by
  obtain ⟨pos, -, hreg⟩ := List.mem_flatMap.1 hreg
  obtain ⟨index, -, rfl⟩ := List.mem_map.1 hreg
  dsimp only
  split_ifs
  · rfl
  · rfl

variable [DecidableEq V] {mode : PadValueMode} {l : List Axis} (h : ∀ a ∈ l, a.Fits mode)
  (x : ℤ → V) (value : Option (PadValue V)) {js : List ℕ} (hjs : Inside (strided l) js)

include h hjs

theorem raster_central (hcentral : Central (strided l) js) :
    raster (regions mode l value) (contents x value) (dstAt (strided l) js) =
      x (sumAt (fun a j => (j - a.offset) * a.inputStride) (strided l) js) := by
  obtain ⟨reg, hreg, hcopy⟩ := (centers_copies h (r := .input 0) hjs).2 ⟨hcentral, rfl⟩
  refine raster_of_agree ⟨reg, List.mem_append_left _ hreg, _, hcopy⟩ fun reg' hreg' s hs => ?_
  rcases List.mem_append.1 hreg' with hmem | hmem
  · rw [origin_centers hmem, ((centers_copies h hjs).1 ⟨reg', hmem, hs⟩).2]
    rfl
  · split_ifs at hmem
    · exact absurd (List.forall₂_drop _ hcentral) ((pads_copies h hjs).1 ⟨reg', hmem, hs⟩).1
    · exact absurd hmem List.not_mem_nil

/-- Outside of the center of the last axes, one of the regions around the center counts. -/
theorem raster_outside (hnot : ¬ Central (innerAxes (strided l)) (innerCords l js)) :
    raster (regions mode l value) (contents x value) (dstAt (strided l) js) =
      if emits mode value then contents x value (padInput mode) (padSource mode l js) else 0 := by
  have hcenters : ∀ reg ∈ (offsetRegions (.input 0) ((strided l).map Strided.swap)).map revert,
      ∀ s, ¬ reg.Copies s (dstAt (strided l) js) := fun reg hreg s hs =>
    hnot (List.forall₂_drop _ ((centers_copies h hjs).1 ⟨reg, hreg, hs⟩).1)
  by_cases hemits : emits mode value = true
  · rw [regions, if_pos hemits, if_pos hemits]
    obtain ⟨reg, hreg, hcopy⟩ := (pads_copies h (r := padInput mode) hjs).2 ⟨hnot, rfl⟩
    refine raster_of_agree ⟨reg, List.mem_append_right _ hreg, _, hcopy⟩ fun reg' hreg' s hs => ?_
    rcases List.mem_append.1 hreg' with hmem | hmem
    · exact absurd hs (hcenters reg' hmem s)
    · rw [origin_pads hmem, ((pads_copies h hjs).1 ⟨reg', hmem, hs⟩).2]
  · rw [regions, if_neg hemits, if_neg hemits, List.append_nil]
    exact foldl_copy_of_not_copies _ _ _ hcenters

/-- Nothing is copied where only a coordinate before the last three is outside of the center. -/
theorem raster_skipped (hcentral : ¬ Central (strided l) js)
    (hinner : Central (innerAxes (strided l)) (innerCords l js)) :
    raster (regions mode l value) (contents x value) (dstAt (strided l) js) = 0 := by
  refine foldl_copy_of_not_copies _ _ _ fun reg hreg s hs => ?_
  rcases List.mem_append.1 hreg with hmem | hmem
  · exact hcentral ((centers_copies h hjs).1 ⟨reg, hmem, hs⟩).1
  · split_ifs at hmem
    · exact ((pads_copies h hjs).1 ⟨reg, hmem, hs⟩).1 hinner
    · exact absurd hmem List.not_mem_nil

end Content

/-! ### Padded dimensions before the last three -/

/-- The number of axes when neighbours that are not padded are taken together, and left out if their
lengths are one; the first of them may be counted already. -/
def groups (counted : Bool) : List Axis → ℕ
  | [] => 0
  | a :: axes =>
    if a.Padded then 1 + groups false axes
    else if counted = true ∨ a.inputDim = 1 then groups counted axes
    else 1 + groups true axes

/-- At most two axes, taken together, come after one that is padded. -/
def PadsLast : List Axis → Prop
  | [] => True
  | a :: axes => (a.Padded → groups false axes ≤ 2) ∧ PadsLast axes

instance decidablePadsLast : (axes : List Axis) → Decidable (PadsLast axes)
  | [] => inferInstanceAs (Decidable True)
  | _ :: axes =>
    let _ := decidablePadsLast axes
    inferInstanceAs (Decidable (_ ∧ _))

theorem length_fusedAxes {mode : PadValueMode} {axes : List Axis} (h : ∀ a ∈ axes, a.Fits mode)
    {current : ℕ} (hcurrent : 0 < current) : (fusedAxes current axes).length =
      (if current = 1 then 0 else 1) + groups (decide (current ≠ 1)) axes := by
  induction axes generalizing current with
  | nil =>
    rw [fusedAxes_nil, groups]
    by_cases hone : current = 1
    · rw [if_pos hone, if_neg (not_not.2 hone)]
      rfl
    · rw [if_neg hone, if_pos hone]
      rfl
  | cons a axes ih =>
    obtain ⟨ha, haxes⟩ := List.forall_mem_cons.1 h
    by_cases hpad : a.Padded
    · rw [fusedAxes_padded ha _ _ hpad, groups, if_pos hpad, List.length_append, List.length_cons,
        ih haxes Nat.one_pos]
      by_cases hone : current = 1
      · subst hone
        simp [Nat.add_comm]
      · rw [if_pos (by omega), if_neg hone]
        simp [Nat.add_comm]
    · rw [fusedAxes_of_not ha _ _ hpad, groups, if_neg hpad,
        ih haxes (Nat.mul_pos hcurrent ha.inputDim)]
      by_cases hone : current = 1
      · subst hone
        by_cases hdim : a.inputDim = 1
        · simp [hdim]
        · simp [hdim]
      · have hmul : current * a.inputDim ≠ 1 := fun heq => hone (Nat.dvd_one.1 (Dvd.intro _ heq))
        simp [hone, hmul]

/-- The axes before the last three. -/
theorem forall_take_cons {P : Axis → Prop} (a : Axis) (l : List Axis) :
    (∀ b ∈ (a :: l).take ((a :: l).length - 3), P b) ↔
      (2 < l.length → P a) ∧ ∀ b ∈ l.take (l.length - 3), P b := by
  rw [List.length_cons]
  by_cases hlen : 2 < l.length
  · obtain ⟨n, hn⟩ : ∃ n, l.length + 1 - 3 = n + 1 ∧ l.length - 3 = n := ⟨l.length - 3, by omega⟩
    rw [hn.1, hn.2, List.take_succ_cons, List.forall_mem_cons]
    exact and_congr_left fun _ => ⟨fun h _ => h, fun h => h hlen⟩
  · have hzero : l.length + 1 - 3 = 0 := by omega
    have hzero' : l.length - 3 = 0 := by omega
    rw [hzero, hzero', List.take_zero, List.take_zero]
    exact ⟨fun h => ⟨fun hlt => absurd hlt hlen, h⟩, And.right⟩

theorem padsLast_iff {mode : PadValueMode} {axes : List Axis} (h : ∀ a ∈ axes, a.Fits mode)
    {current : ℕ} (hcurrent : 0 < current) :
    (∀ a ∈ (fusedAxes current axes).take ((fusedAxes current axes).length - 3), ¬ a.Padded) ↔
      PadsLast axes := by
  have hplain : ∀ n, ¬ Axis.Padded ⟨n, n, 0, 0⟩ := fun n => by simp [Axis.Padded]
  induction axes generalizing current with
  | nil =>
    rw [fusedAxes_nil]
    refine iff_of_true (fun a ha => ?_) trivial
    have hmem := List.mem_of_mem_take ha
    split_ifs at hmem
    · rw [List.mem_singleton.1 hmem]
      exact hplain current
    · exact absurd hmem List.not_mem_nil
  | cons a axes ih =>
    obtain ⟨ha, haxes⟩ := List.forall_mem_cons.1 h
    by_cases hpad : a.Padded
    · have hrest := ih haxes Nat.one_pos
      have htail : (∀ b ∈ (a :: fusedAxes 1 axes).take ((a :: fusedAxes 1 axes).length - 3),
          ¬ b.Padded) ↔ PadsLast (a :: axes) := by
        refine (forall_take_cons a _).trans (and_congr ?_ hrest)
        rw [length_fusedAxes haxes Nat.one_pos]
        simp only [if_true, Nat.zero_add, ne_eq, not_true_eq_false, decide_false, hpad,
          forall_const, imp_false, not_lt]
      rw [fusedAxes_padded ha _ _ hpad]
      split_ifs
      · rw [List.singleton_append, forall_take_cons, htail]
        exact ⟨And.right, fun hlast => ⟨fun _ => hplain current, hlast⟩⟩
      · exact htail
    · have hrest := ih haxes (Nat.mul_pos hcurrent ha.inputDim)
      rw [fusedAxes_of_not ha _ _ hpad]
      exact hrest.trans ⟨fun hlast => ⟨fun hpos => absurd hpos hpad, hlast⟩, And.right⟩

/-! ### The padded tensor and the output -/

section Compare

variable {V : Type*} {mode : PadValueMode} {l : List Axis}

variable (mode) in
theorem padded_central (x : ℤ → V) (c : V) {js : List ℕ} (hcentral : Central (strided l) js) :
    padded mode l x c js = x (sumAt (fun a j => (j - a.offset) * a.inputStride) (strided l) js) ∧
      0 ≤ sumAt (fun a j => (j - a.offset) * a.inputStride) (strided l) js ∧
      sumAt (fun a j => (j - a.offset) * a.inputStride) (strided l) js <
        (l.map Axis.inputDim).prod := by
  have hpos : List.Forall₂ (fun a j => ∃ y < a.inputDim,
      padPos mode a.inputDim a.offset j = some y ∧ (j : ℤ) - a.offset = y) (strided l) js := by
    refine hcentral.imp fun a j hj => ?_
    rw [Axis.Center] at hj
    exact ⟨(j - a.offset).toNat, by omega, padPos_center mode (by omega), by omega⟩
  obtain ⟨s, hs, hlt, hsum⟩ := sourceAt_eq hpos
  rw [padded, hs, hsum]
  exact ⟨rfl, Int.natCast_nonneg s, Int.ofNat_lt.2 hlt⟩

/-- A mode without a constant reads an element of the input. -/
theorem exists_padded (h : ∀ a ∈ l, a.Fits mode) (hmode : mode ≠ .constant) (x : ℤ → V) (c : V)
    {js : List ℕ} (hjs : Inside (strided l) js) :
    padded mode l x c js =
        x (sumAt (fun a j => partPos mode a j * a.inputStride) (strided l) js) ∧
      0 ≤ sumAt (fun a j => partPos mode a j * a.inputStride) (strided l) js ∧
      sumAt (fun a j => partPos mode a j * a.inputStride) (strided l) js <
        (l.map Axis.inputDim).prod := by
  have key : ∀ {axes : List Strided} {js : List ℕ}, (∀ a ∈ axes, a.Fits mode) → Inside axes js →
      List.Forall₂ (fun a j => ∃ y < a.inputDim,
        padPos mode a.inputDim a.offset j = some y ∧ partPos mode a j = y) axes js := by
    intro axes js hfits hjs
    induction hjs with
    | nil => exact .nil
    | @cons a j axes js hj _ ih =>
      obtain ⟨ha, haxes⟩ := List.forall_mem_cons.1 hfits
      exact .cons (ha.exists_padPos rfl hj (.inl hmode)) (ih haxes)
  obtain ⟨s, hs, hlt, hsum⟩ := sourceAt_eq (key (fits_strided h) hjs)
  rw [padded, hs, hsum]
  exact ⟨rfl, Int.natCast_nonneg s, Int.ofNat_lt.2 hlt⟩

variable [Zero V] [DecidableEq V] (h : ∀ a ∈ l, a.Fits mode)

include h

omit [Zero V] [DecidableEq V] in
/-- On axes that are not padded every position is in the center, and is read as it is. -/
theorem outer_of_not (hlast : ∀ a ∈ outerAxes (strided l), ¬ a.Padded) {js : List ℕ}
    (hjs : Inside (strided l) js) :
    Central (outerAxes (strided l)) (js.take ((strided l).length - 3)) ∧
      (mode ≠ .constant → padSource mode l js =
        sumAt (fun a j => partPos mode a j * a.inputStride) (strided l) js) := by
  have key : ∀ {axes : List Strided} {i : List ℕ}, (∀ a ∈ axes, a.Fits mode) →
      (∀ a ∈ axes, ¬ a.Padded) → Inside axes i → Central axes i ∧
        sumAt (fun a cord => inputPos mode a cord * a.inputStride) axes i =
          sumAt (fun a j => partPos mode a j * a.inputStride) axes i := by
    intro axes i hfits hnot hi
    induction hi with
    | nil => exact ⟨.nil, rfl⟩
    | @cons a j axes i hj _ ih =>
      obtain ⟨ha, haxes⟩ := List.forall_mem_cons.1 hfits
      obtain ⟨hnota, hnotaxes⟩ := List.forall_mem_cons.1 hnot
      obtain ⟨hcentral, hsum⟩ := ih haxes hnotaxes
      have heq := ha.padded_iff.not.1 hnota
      rw [Axis.Padded] at hnota
      have hcenter : a.Center j := by
        rw [Axis.Center]
        omega
      have hin : inputPos mode a j = partPos mode a j := by
        rw [partPos, if_pos hcenter]
        simp only [inputPos]
        rw [if_neg (by omega), if_neg (by omega)]
      exact ⟨.cons hcenter hcentral, by rw [sumAt_cons, sumAt_cons, hin, hsum]⟩
  obtain ⟨hcentral, hsum⟩ := key (fits_outerAxes (fits_strided h)) hlast
    (List.forall₂_take _ hjs)
  refine ⟨hcentral, fun hmode => ?_⟩
  rw [padSource, if_neg hmode, hsum, sumAt_split _ hjs.length_eq]
  rfl

/-- **The content.** Zeros may be filled in anywhere, and the elements that are missing otherwise
are those outside of the center of an axis before the last three. -/
theorem raster_eq_padded (x : ℤ → V) (value : Option (PadValue V))
    (hcase : (mode = .constant ∧ fillValue value = 0) ∨
      ∀ a ∈ outerAxes (strided l), ¬ a.Padded) {js : List ℕ} (hjs : Inside (strided l) js) :
    raster (regions mode l value) (contents x value) (dstAt (strided l) js) =
      padded mode l x (fillValue value) js := by
  by_cases hcentral : Central (strided l) js
  · rw [raster_central h x value hjs hcentral, (padded_central mode x _ hcentral).1]
  have hconst : ∀ hmode : mode = .constant, padded mode l x (fillValue value) js =
      fillValue value := by
    rintro rfl
    rw [padded, sourceAt_eq_none hjs hcentral]
    rfl
  by_cases hinner : Central (innerAxes (strided l)) (innerCords l js)
  · rw [raster_skipped h x value hjs hcentral hinner]
    rcases hcase with ⟨hmode, hzero⟩ | hlast
    · rw [hconst hmode, hzero]
    · refine absurd ?_ hcentral
      rw [Central, ← List.take_append_drop ((strided l).length - 3) (strided l),
        ← List.take_append_drop ((strided l).length - 3) js]
      exact List.rel_append (outer_of_not h hlast hjs).1 hinner
  rw [raster_outside h x value hjs hinner]
  by_cases hmode : mode = .constant
  · rw [hconst hmode]
    by_cases hemits : emits mode value = true
    · rw [if_pos hemits, padInput, if_pos hmode]
      rfl
    · rw [if_neg hemits]
      cases value with
      | none => rfl
      | some v =>
        rw [hmode] at hemits
        have hzero : v.zero = true := by
          simpa [emits] using hemits
        rw [PadValue.zero, Bool.and_eq_true] at hzero
        have hhost : v.host = 0 := by
          obtain ⟨-, hzero⟩ := hzero
          split at hzero
          · exact beq_iff_eq.1 (Bool.and_eq_true_iff.1 hzero).2
          · exact beq_iff_eq.1 (Bool.and_eq_true_iff.1 hzero).2
          · exact beq_iff_eq.1 hzero
          · exact absurd hzero Bool.false_ne_true
        exact hhost.symm
  · have hemits : emits mode value = true := by simp [emits, hmode]
    have hlast := hcase.resolve_left fun hc => hmode hc.1
    rw [if_pos hemits, padInput, if_neg hmode, (outer_of_not h hlast hjs).2 hmode,
      (exists_padded h hmode x _ hjs).1]
    rfl

omit [Zero V] [DecidableEq V] in
/-- The elements that are missing. -/
theorem exists_skipped (hpad : ∃ a ∈ outerAxes (strided l), a.Padded) :
    ∃ js, Inside (strided l) js ∧ ¬ Central (strided l) js ∧
      Central (innerAxes (strided l)) (innerCords l js) := by
  -- a position in the padding of every padded axis
  let outside : Strided → ℕ := fun a => if 0 < a.offset then 0 else a.inputDim
  have houter : ∀ {axes : List Strided}, (∀ a ∈ axes, a.Fits mode) →
      ∃ i, Inside axes i ∧ ((∃ a ∈ axes, a.Padded) → ¬ Central axes i) := by
    intro axes hfits
    induction axes with
    | nil => exact ⟨[], .nil, fun ⟨a, ha, _⟩ => absurd ha List.not_mem_nil⟩
    | cons a axes ih =>
      obtain ⟨ha, haxes⟩ := List.forall_mem_cons.1 hfits
      obtain ⟨i, hi, hnot⟩ := ih haxes
      have hoff := ha.offset
      have hright := ha.rightOffset
      have hout := ha.outputDim
      have hin := ha.inputDim
      by_cases hp : a.Padded
      · rw [Axis.Padded] at hp
        have hcenter : ¬ a.Center (outside a) := by
          simp only [Axis.Center, outside]
          split_ifs <;> omega
        refine ⟨outside a :: i, .cons ?_ hi, fun _ hcentral => hcenter ?_⟩
        · simp only [outside]
          split_ifs <;> omega
        · exact (List.forall₂_cons.1 hcentral).1
      · refine ⟨0 :: i, .cons (by omega) hi, fun hex hcentral => hnot ?_ ?_⟩
        · obtain ⟨b, hb, hpb⟩ := hex
          rcases List.mem_cons.1 hb with rfl | hb
          · exact absurd hpb hp
          · exact ⟨b, hb, hpb⟩
        · exact (List.forall₂_cons.1 hcentral).2
  have hinner : ∀ {axes : List Strided}, (∀ a ∈ axes, a.Fits mode) → ∃ j, Central axes j := by
    intro axes hfits
    induction axes with
    | nil => exact ⟨[], .nil⟩
    | cons a axes ih =>
      obtain ⟨ha, haxes⟩ := List.forall_mem_cons.1 hfits
      obtain ⟨j, hj⟩ := ih haxes
      have hoff := ha.offset
      have hin := ha.inputDim
      exact ⟨a.offset.toNat :: j, .cons ⟨by omega, by omega⟩ hj⟩
  obtain ⟨i, hi, hnot⟩ := houter (fits_outerAxes (fits_strided h))
  obtain ⟨j, hj⟩ := hinner (fits_innerAxes (fits_strided h))
  have hsplit := (exists_split (R := fun a j => j < a.outputDim) (P := fun i j =>
    ¬ Central (outerAxes (strided l)) i ∧ Central (innerAxes (strided l)) j)).1 ⟨i, j, hi,
      inside_of_central (fits_innerAxes (fits_strided h)) hj, hnot hpad, hj⟩
  obtain ⟨js, hjs, hout, hin⟩ := hsplit
  exact ⟨js, hjs, fun hcentral => hout (List.forall₂_take _ hcentral), hin⟩

end Compare

/-! ### The operator -/

section Operator

variable {V : Type*}

/-- What the two halves of the operator are given: extents that are not empty, and pads within the
limits of the mode. -/
structure Accepts (mode : PadValueMode) (input paddings output : Tensor)
    (value : Option (PadValue V)) : Prop where
  output : onComputeSize (if value.isSome then 3 else 2) input paddings = some output
  positive : ∀ d ∈ input.shape, 0 < d
  nonneg : ∀ n < 2 * input.dimensions, 0 ≤ paddings.host.getD n 0
  reflect : mode = .reflect → ∀ n < 2 * input.dimensions,
    paddings.host.getD n 0 ≤ input.length (n / 2) - 1
  symmetric : mode = .symmetric → ∀ n < 2 * input.dimensions,
    paddings.host.getD n 0 ≤ input.length (n / 2)

/-- The regions leave the padded tensor, and read nothing outside of the inputs. -/
def Exact [Zero V] [DecidableEq V] (mode : Option PadValueMode) (input paddings output : Tensor)
    (value : Option (PadValue V)) (x : ℤ → V) : Prop :=
  let regions := onCompute mode input paddings output value
  (∀ i, List.Forall₂ (· < ·) i output.shape →
    raster regions (contents x value) (dot i (computeStride output.shape)) =
      padded (mode.getD .constant) (padAxes input paddings output) x (fillValue value) i) ∧
  ∀ r ∈ regions, ∀ s o, r.Copies s o →
    r.origin = .input 0 ∧ 0 ≤ s ∧ s < input.rawSize ∨
      r.origin = .input 2 ∧ value.isSome = true ∧ s = 0

section Axes

variable {mode : PadValueMode} {input paddings output : Tensor} {value : Option (PadValue V)}
  (h : Accepts mode input paddings output value)

include h

theorem Accepts.shape : output.shape = (List.range input.dimensions).map fun i =>
    (input.length i + paddings.host.getD (2 * i) 0 + paddings.host.getD (2 * i + 1) 0).toNat := by
  have hsize := h.output
  unfold onComputeSize at hsize
  split_ifs at hsize
  all_goals exact (Option.some.inj hsize).symm ▸ rfl

theorem Accepts.length {i : ℕ} (hi : i < input.dimensions) : output.length i =
    (input.length i + paddings.host.getD (2 * i) 0 + paddings.host.getD (2 * i + 1) 0).toNat := by
  rw [Tensor.length, h.shape, List.getD_eq_getElem _ _ (by simpa using hi), List.getElem_map,
    List.getElem_range]

theorem Accepts.fits : ∀ a ∈ padAxes input paddings output, a.Fits mode := by
  intro a ha
  obtain ⟨i, hi, rfl⟩ := List.mem_map.1 ha
  rw [List.mem_range] at hi
  have hl := h.nonneg (2 * i) (by omega)
  have hr := h.nonneg (2 * i + 1) (by omega)
  have hdiv : (2 * i + 1) / 2 = i := by omega
  have hdiv' : 2 * i / 2 = i := by omega
  refine ⟨?_, hl, hr, ?_, fun hmode => ?_, fun hmode => ?_⟩
  · refine h.positive _ ?_
    rw [Tensor.length, List.getD_eq_getElem _ _ hi]
    exact List.getElem_mem hi
  · simp only [h.length hi]
    omega
  · have hbound := h.reflect hmode
    have hlb := hbound (2 * i) (by omega)
    have hrb := hbound (2 * i + 1) (by omega)
    rw [hdiv'] at hlb
    rw [hdiv] at hrb
    exact ⟨hlb, hrb⟩
  · have hbound := h.symmetric hmode
    have hlb := hbound (2 * i) (by omega)
    have hrb := hbound (2 * i + 1) (by omega)
    rw [hdiv'] at hlb
    rw [hdiv] at hrb
    exact ⟨hlb, hrb⟩

theorem Accepts.map_outputDim :
    (padAxes input paddings output).map Axis.outputDim = output.shape := by
  have hdims : output.dimensions = input.dimensions := by
    rw [Tensor.dimensions, h.shape, List.length_map, List.length_range]
  rw [padAxes, List.map_map, ← hdims]
  exact Permute.map_length_range output

omit h in
theorem map_inputDim : (padAxes input paddings output).map Axis.inputDim = input.shape := by
  rw [padAxes, List.map_map]
  exact Permute.map_length_range input

/-- The output may be looked at by the coordinates of the fused axes. -/
theorem Accepts.forall_coords {P : ℤ → Option ℕ → Prop} :
    (∀ i, List.Forall₂ (· < ·) i output.shape → P (dot i (computeStride output.shape))
        (AxisMap.sourceAt ((padAxes input paddings output).map (Axis.padded mode)) i)) ↔
      let l := fusedAxes 1 (padAxes input paddings output)
      ∀ js, Inside (strided l) js → P (dstAt (strided l) js)
        (AxisMap.sourceAt (l.map (Axis.padded mode)) js) := by
  set axes := padAxes input paddings output with haxes
  have hsame := (AxisMap.Same.one _).symm.trans (same_seperate h.fits Nat.one_pos)
  have hsnd : (AxisMap.dims (axes.map (Axis.padded mode))).map Prod.snd = output.shape := by
    rw [dims_padded, List.map_map, ← h.map_outputDim]
    rfl
  have hcoords : ∀ i, List.Forall₂ (· < ·) i output.shape ↔
      Broadcast.Coords (AxisMap.dims (axes.map (Axis.padded mode))) i := by
    intro i
    rw [← hsnd, List.forall₂_map_right_iff]
    exact ⟨List.Forall₂.flip, List.Forall₂.flip⟩
  have key := hsame.forall_coords_iff (P := fun o s => P o s)
  dsimp only
  simp only [inside_strided mode, dstAt_strided mode]
  rw [← key]
  refine forall_congr' fun i => ?_
  rw [hcoords]
  refine forall_congr' fun hi => ?_
  rw [← dot_outputStrides hi, outputStrides, hsnd]

end Axes

theorem forall_outerAxes {P : Axis → Prop} {l : List Axis} :
    (∀ a ∈ outerAxes (strided l), P a.toAxis) ↔ ∀ a ∈ l.take (l.length - 3), P a := by
  have hmap : ∀ l : List Axis, (strided l).map Strided.toAxis = l := by
    intro l
    induction l with
    | nil => rfl
    | cons a l ih => rw [strided_cons, List.map_cons, ih]
  have hlen : (strided l).length = l.length := by
    have := congrArg List.length (hmap l)
    rwa [List.length_map] at this
  have htake : (outerAxes (strided l)).map Strided.toAxis = l.take (l.length - 3) := by
    rw [outerAxes, hlen, List.map_take, hmap]
  rw [← htake, List.forall_mem_map]

variable [Zero V] [DecidableEq V] {input paddings output : Tensor} {value : Option (PadValue V)}

/-- What the regions read, wherever they write. -/
theorem reads_regions {mode : PadValueMode} (h : Accepts mode input paddings output value)
    (hcase : mode = .constant ∨ PadsLast (padAxes input paddings output)) {r : Region Ref}
    (hr : r ∈ regions mode (fusedAxes 1 (padAxes input paddings output)) value) {s o : ℤ}
    (hs : r.Copies s o) :
    r.origin = .input 0 ∧ 0 ≤ s ∧ s < input.rawSize ∨
      r.origin = .input 2 ∧ value.isSome = true ∧ s = 0 := by
  set l := fusedAxes 1 (padAxes input paddings output) with hl
  have hfits : ∀ a ∈ l, a.Fits mode := fits_fusedAxes h.fits Nat.one_pos
  have hraw : (l.map Axis.inputDim).prod = input.rawSize := by
    have hsame := (AxisMap.Same.one _).symm.trans (same_seperate h.fits Nat.one_pos)
    rw [← smallSize_padded mode, ← hsame.small, smallSize_padded, map_inputDim, Tensor.rawSize]
  rcases List.mem_append.1 hr with hmem | hmem
  · obtain ⟨js, hcentral, -, rfl⟩ := (exists_centers hfits).1 ⟨r, hmem, hs⟩
    rw [← hraw]
    exact .inl ⟨origin_centers hmem, (padded_central mode (fun _ => (0 : ℤ)) 0 hcentral).2⟩
  · by_cases hemits : emits mode value = true
    · rw [if_pos hemits] at hmem
      obtain ⟨js, hjs, -, -, rfl⟩ := (exists_pads hfits).1 ⟨r, hmem, hs⟩
      rw [origin_pads hmem, padInput]
      by_cases hmode : mode = .constant
      · have hsome : value.isSome = true := by
          cases value with
          | none => simp [emits, hmode] at hemits
          | some v => rfl
        rw [if_pos hmode, padSource, if_pos hmode]
        exact .inr ⟨rfl, hsome, rfl⟩
      · have hlast := (padsLast_iff h.fits Nat.one_pos).2 (hcase.resolve_left hmode)
        rw [if_neg hmode, (outer_of_not hfits (forall_outerAxes.2 hlast) hjs).2 hmode, ← hraw]
        exact .inl ⟨rfl, (exists_padded hfits hmode (fun _ => (0 : ℤ)) 0 hjs).2⟩
    · rw [if_neg hemits] at hmem
      exact absurd hmem List.not_mem_nil

/-- **Padding.** The output is the padded tensor for every content of the input, and nothing is read
outside of it, exactly when zeros are filled in or no dimension before the last three is padded,
where neighbours that are not padded count as one. -/
theorem onCompute_exact_iff [Nontrivial V] {mode : Option PadValueMode}
    (h : Accepts (mode.getD .constant) input paddings output value) :
    (∀ x, Exact mode input paddings output value x) ↔
      mode.getD .constant = .constant ∧ fillValue value = 0 ∨
        PadsLast (padAxes input paddings output) := by
  generalize hm : mode.getD .constant = m at h
  set l := fusedAxes 1 (padAxes input paddings output) with hl
  have hfits : ∀ a ∈ l, a.Fits m := fits_fusedAxes h.fits Nat.one_pos
  have hregions : onCompute mode input paddings output value = regions m l value := by
    rw [onCompute_eq mode paddings output value h.positive, hm]
  have hlast : PadsLast (padAxes input paddings output) ↔
      ∀ a ∈ outerAxes (strided l), ¬ a.Padded :=
    (padsLast_iff h.fits Nat.one_pos).symm.trans forall_outerAxes.symm
  have hcontent : ∀ x, (∀ i, List.Forall₂ (· < ·) i output.shape →
      raster (onCompute mode input paddings output value) (contents x value)
          (dot i (computeStride output.shape)) =
        padded m (padAxes input paddings output) x (fillValue value) i) ↔
      ∀ js, Inside (strided l) js →
        raster (regions m l value) (contents x value) (dstAt (strided l) js) =
          padded m l x (fillValue value) js := by
    intro x
    rw [hregions]
    exact h.forall_coords (P := fun o s => raster (regions m l value) (contents x value) o =
      s.elim (fillValue value) fun s => x s)
  constructor
  · intro hexact
    by_contra hnot
    rw [not_or, hlast] at hnot
    obtain ⟨hzero, hpad⟩ := hnot
    push Not at hpad
    obtain ⟨js, hjs, hcentral, hinner⟩ := exists_skipped hfits hpad
    have hskip : ∀ x, padded m l x (fillValue value) js = 0 := fun x => by
      have hx := (hexact x).1
      rw [hm] at hx
      rw [← (hcontent x).1 hx js hjs, raster_skipped hfits x value hjs hcentral hinner]
    by_cases hmode : m = .constant
    · have hfill := hskip 0
      subst hmode
      rw [padded, sourceAt_eq_none hjs hcentral] at hfill
      exact hzero ⟨rfl, hfill⟩
    · obtain ⟨v, hv⟩ := exists_ne (0 : V)
      have hread := hskip fun _ => v
      rw [(exists_padded hfits hmode _ _ hjs).1] at hread
      exact hv hread
  · intro hcase x
    refine ⟨?_, fun r hr s o hs => ?_⟩
    · rw [hm]
      exact (hcontent x).2 fun js hjs =>
        raster_eq_padded hfits x value (hcase.imp_right hlast.1) hjs
    · rw [hregions] at hr
      exact reads_regions h (hcase.imp_left And.left) hr hs

/-- Reflection in the last three of four dimensions, the first two of which are taken together. -/
theorem onCompute_exact_reflect :
    let input : Tensor := { shape := [2, 1, 2, 3] }
    let paddings : Tensor := { shape := [8], host := [0, 0, 0, 0, 1, 1, 2, 0] }
    let output : Tensor := { shape := [2, 1, 4, 5] }
    ∀ x : ℤ → ℤ, Exact (some .reflect) input paddings output none x := by
  intro input paddings output
  refine (onCompute_exact_iff ⟨?_, by decide, by decide, fun _ => by decide, fun hmode => ?_⟩).2
    (.inr (by decide))
  · rfl
  · exact absurd hmode (by decide)

/-- Four padded dimensions filled with ones: an element that only the first of them pads stays
zero. -/
theorem onCompute_not_exact :
    let input : Tensor := { shape := [1, 1, 1, 1] }
    let paddings : Tensor := { shape := [8], host := [1, 0, 1, 0, 1, 0, 1, 0] }
    let output : Tensor := { shape := [2, 2, 2, 2] }
    let value : Option (PadValue ℤ) := some ⟨false, 0, ⟨2, 32⟩, 1⟩
    Accepts .constant input paddings output value ∧
      ¬ Exact none input paddings output value fun _ => 1 := by
  intro input paddings output value
  refine ⟨⟨rfl, by decide, by decide, fun hmode => absurd hmode (by decide),
    fun hmode => absurd hmode (by decide)⟩, fun hexact => ?_⟩
  have h := hexact.1 [0, 1, 1, 1] (by decide)
  revert h
  decide

end Operator

end Mnn.Pad
