import Mnn.Geometry.Permute
import Mnn.Lib.AxisMap

/-!
# `GeometryPad::onCompute`

The regions of a padded tensor (`source/geometry/GeometryCrop.cpp`) and its shape
(`source/shape/ShapePadding.cpp`).

* `seperate`, `strided`: dimensions that are equal in both tensors are fused;
* `computeOffsetRegion`: the part that both tensors have in common, with one region for each element
  of the axes before the last three;
* `part`, `padRegions`: the center, left and right part of each of the last three axes, and the
  regions of all their combinations but the first;
* `onComputeSize`, `onCompute`: the two halves of the operator;
* `Covers`, `sidesRegion_copies`: what a region copies, axis by axis.

The output of the padding has at least the size of the input, while `computeOffsetRegion` is written
for an output inside of the input: the two tensors change places, and the regions are reverted.
-/

namespace Mnn.Pad

open Recompute Lib.LoopNest

/-- `PadValueMode`. -/
inductive PadValueMode
  | constant
  | reflect
  | symmetric
  | edge
  deriving DecidableEq, Repr

/-! ### Dimensions -/

/-- A dimension of the input and the output, or several fused ones, with its offsets. -/
structure Axis where
  inputDim : ℕ
  outputDim : ℕ
  offset : ℤ := 0
  rightOffset : ℤ := 0
  deriving DecidableEq, Repr

/-- The two tensors change places. -/
def Axis.swap (a : Axis) : Axis := { a with inputDim := a.outputDim, outputDim := a.inputDim }

/-- The loop that fills `seperateInputDims`, `seperateOutputDims` and `seperateOffsets`. -/
def seperate (currentInput currentOutput : ℕ) : List Axis → List Axis
  | [] =>
    if currentOutput ≠ 1 ∨ currentInput ≠ 1 then
      [{ inputDim := currentInput, outputDim := currentOutput }]
    else []
  | a :: axes =>
    if a.outputDim ≠ a.inputDim then
      (if 1 < currentInput then [{ inputDim := currentInput, outputDim := currentOutput }]
        else []) ++ a :: seperate 1 1 axes
    else seperate (currentInput * a.inputDim) (currentOutput * a.outputDim) axes

/-- An axis with its strides. -/
structure Strided extends Axis where
  inputStride : ℕ
  outputStride : ℕ

def strided (axes : List Axis) : List Strided :=
  List.zipWith (fun a s => ⟨a, s.1, s.2⟩) axes
    ((computeStride (axes.map Axis.inputDim)).zip (computeStride (axes.map Axis.outputDim)))

/-! ### Regions -/

/-- What one of the last three axes contributes to a region. -/
structure Side where
  src : ℤ := 0
  dst : ℤ := 0
  size : ℤ := 1
  srcStride : ℤ := 1
  dstStride : ℤ := 1

/-- An axis of a region; the first ones may be missing. -/
def sideAt (sides : List Side) (k : Fin 3) : Side :=
  if sides.length + k < 3 then {} else sides.getD (sides.length + k - 3) {}

/-- The region whose basic offsets are `src` and `dst`. -/
def sidesRegion (r : Ref) (src dst : ℤ) (sides : List Side) : Region Ref :=
  { src := { offset := src + (sides.map Side.src).sum
             stride := fun k => (sideAt sides k).srcStride }
    dst := { offset := dst + (sides.map Side.dst).sum
             stride := fun k => (sideAt sides k).dstStride }
    size := fun k => (sideAt sides k).size
    origin := r }

/-- Is there an element of the input at these coordinates of the output? -/
def valid (outer : List Strided) (cords : List ℕ) : Bool :=
  (outer.zip cords).all fun (a, cord) =>
    0 ≤ a.offset + cord && cord - a.rightOffset < a.outputDim

/-- One of the last three axes in `computeOffsetRegion`. -/
def Strided.side (a : Strided) : Side :=
  { src := if 0 ≤ a.offset then a.offset * a.inputStride else 0
    dst := if 0 ≤ a.offset then 0 else -a.offset * a.outputStride
    size := a.outputDim + (if 0 ≤ a.offset then 0 else a.offset) +
      (if a.rightOffset < 0 then a.rightOffset else 0)
    srcStride := a.inputStride
    dstStride := a.outputStride }

/-- The sum of a number for each axis and its coordinate. -/
def sumAt (f : Strided → ℕ → ℤ) (axes : List Strided) (cords : List ℕ) : ℤ :=
  (List.zipWith f axes cords).sum

/-- `computeOffsetRegion`, given the axes that it separates. -/
def offsetRegions (real : Ref) (axes : List Strided) : List (Region Ref) :=
  let remainDimSize := axes.length - 3
  let outer := axes.take remainDimSize
  let shape := outer.map fun a => a.outputDim
  let cords := (List.range shape.prod).map (unravelIndexHelper (computeStride shape))
  (cords.filter (valid outer)).map fun cords =>
    sidesRegion real (sumAt (fun a cord => (cord + a.offset) * a.inputStride) outer cords)
      (sumAt (fun a cord => cord * a.outputStride) outer cords)
      ((axes.drop remainDimSize).map Strided.side)

def computeOffsetRegion (real : Ref) (axes : List Axis) : List (Region Ref) :=
  offsetRegions real (strided (seperate 1 1 axes))

/-- Revert region. -/
def revert (r : Region Ref) : Region Ref := { r with src := r.dst, dst := r.src }

/-! ### Padding -/

section Part

variable (mode : PadValueMode) (a : Strided)

/-- For reflect and mirror. -/
def extraSub : ℤ := if mode = .reflect then 1 else 0

/-- `rightPads`. -/
def Strided.rightPad : ℤ := a.outputDim - a.inputDim - a.offset

/-- Compute cords for input. -/
def inputPos (cord : ℕ) : ℤ :=
  let inputPos := cord - a.offset
  let inputPos :=
    if a.inputDim ≤ inputPos then
      -- last -> last - extraSub - 1
      (a.inputDim - inputPos) + a.inputDim - extraSub mode - 1
    else inputPos
  -- -1 -> 0 + extraSub
  if inputPos < 0 then -inputPos + 1 + extraSub mode else inputPos

/-- A part of an axis: where it begins in the output and in the input, its size, and the step in the
input. -/
structure Part where
  dst : ℤ
  src : ℤ
  size : ℤ
  step : ℤ

/-- `SET_SIZE`. -/
def setSize (size : ℤ) : ℤ :=
  if mode = .reflect ∨ mode = .symmetric then min size (a.inputDim - extraSub mode) else size

def center : Part := ⟨a.offset, 0, a.inputDim, 1⟩

def left : Part :=
  { dst := 0
    src := if mode = .edge then 0 else a.offset - 1 + extraSub mode
    size := setSize mode a a.offset
    step := if mode = .edge then 0 else -1 }

def right : Part :=
  { dst := a.offset + a.inputDim
    src := a.inputDim - 1 - extraSub mode
    size := setSize mode a a.rightPad
    step := if mode = .edge then 0 else -1 }

/-- `padRegion`: 0: center, 1: left, 2: right. -/
def padRegion : ℕ := 1 + (if 0 < a.offset then 1 else 0) + if 0 < a.rightPad then 1 else 0

/-- The part with number `padCord`. -/
def part (padCord : ℕ) : Part :=
  match padCord with
  | 0 => center a
  -- offset = 0 means right part, offset > 0 means left part
  | 1 => if 0 < a.offset then left mode a else right mode a
  | _ => right mode a

/-- A part of one of the last three axes. -/
def Part.side (p : Part) : Side :=
  { src := p.src * a.inputStride
    dst := p.dst * a.outputStride
    size := p.size
    srcStride := p.step * a.inputStride
    dstStride := a.outputStride }

end Part

/-- The parts with these numbers, as the axes of a region. -/
def partSides (mode : PadValueMode) (inner : List Strided) (padCord : List ℕ) : List Side :=
  List.zipWith (fun a m => (part mode a m).side a) inner padCord

/-- With the stride zero, all of the region is filled with the element at zero. -/
def fill (r : Region Ref) : Region Ref := { r with src := { offset := 0, stride := fun _ => 0 } }

/-- The regions around the center. -/
def padRegions (mode : PadValueMode) (padInput : Ref) (axes : List Strided) : List (Region Ref) :=
  let remainDimSize := axes.length - 3
  let outer := axes.take remainDimSize
  let inner := axes.drop remainDimSize
  let shape := outer.map fun a => a.outputDim
  let counts := inner.map padRegion
  (List.range shape.prod).flatMap fun pos =>
    let cords := unravelIndexHelper (computeStride shape) pos
    (List.range' 1 (counts.prod - 1)).map fun index =>
      let padCord := unravelIndexHelper (computeStride counts) index
      let region := sidesRegion padInput
        (sumAt (fun a cord => inputPos mode a cord * a.inputStride) outer cords)
        (sumAt (fun a cord => cord * a.outputStride) outer cords)
        (partSides mode inner padCord)
      if mode = .constant then fill region else region

/-! ### The operator -/

/-- The third input: what the code reads of it, and its first element. -/
structure PadValue (V : Type*) where
  isMutable : Bool
  deviceId : ℕ
  type : Resize.DataType
  host : V

/-- Check zero: integers of 8 and 32 bits, and floating-point numbers. -/
def PadValue.zero {V : Type*} [Zero V] [DecidableEq V] (v : PadValue V) : Bool :=
  !v.isMutable && v.deviceId == 0 &&
    match v.type.code with
    | 0 | 1 => (v.type.bits == 8 || v.type.bits == 32) && v.host == 0
    | 2 => v.host == 0
    | _ => false

/-- `PaddingComputer::onComputeSize`, given the number of inputs: the shape of the output. -/
def onComputeSize (inputs : ℕ) (input paddings : Tensor) : Option Tensor :=
  if inputs ≠ 2 ∧ inputs ≠ 3 then none
  else if paddings.elementSize < input.dimensions * 2 then none
  else
    some {
      shape := (List.range input.dimensions).map fun i =>
        (input.length i + paddings.host.getD (2 * i) 0 + paddings.host.getD (2 * i + 1) 0).toNat
      type := input.type
      dimensionFormat := input.dimensionFormat }

/-- The dimensions of the input and the output, with `pads` and `padRights`. -/
def padAxes (input paddings output : Tensor) : List Axis :=
  (List.range input.dimensions).map fun i =>
    { inputDim := input.length i
      outputDim := output.length i
      offset := paddings.host.getD (2 * i) 0
      rightOffset := paddings.host.getD (2 * i + 1) 0 }

/-- `GeometryPad::onCompute`: the regions of the output. -/
def onCompute {V : Type*} [Zero V] [DecidableEq V] (mode : Option PadValueMode)
    (input paddings output : Tensor) (value : Option (PadValue V)) : List (Region Ref) :=
  if input.shape.any (· == 0) then []
  else
    let swapped := (padAxes input paddings output).map Axis.swap
    let regions := (computeOffsetRegion (.input 0) swapped).map revert
    let axes := strided ((seperate 1 1 swapped).map Axis.swap)
    match mode.getD .constant with
    | .constant =>
      match value with
      | none => regions
      | some v => if v.zero then regions else regions ++ padRegions .constant (.input 2) axes
    | mode => regions ++ padRegions mode (.input 0) axes

/-! ### Copied addresses -/

/-- The distances that a region with these axes copies between. -/
def Covers : List Side → ℤ → ℤ → Prop
  | [], s, o => s = 0 ∧ o = 0
  | p :: sides, s, o => ∃ k s' o', (0 ≤ k ∧ k < p.size) ∧ Covers sides s' o' ∧
      s = p.src + k * p.srcStride + s' ∧ o = p.dst + k * p.dstStride + o'

theorem covers_default {sides : List Side} {s o : ℤ} :
    Covers ({} :: sides) s o ↔ Covers sides s o := by
  constructor
  · rintro ⟨k, s', o', hk, h, rfl, rfl⟩
    obtain rfl : k = 0 := by
      have : k < 1 := hk.2
      omega
    simpa using h
  · exact fun h => ⟨0, s, o, ⟨le_rfl, Int.one_pos⟩, h, by simp, by simp⟩

/-- A missing axis is one with a single element. -/
theorem sidesRegion_default (r : Ref) (src dst : ℤ) {sides : List Side} (h : sides.length < 3) :
    sidesRegion r src dst ({} :: sides) = sidesRegion r src dst sides := by
  have hside : sideAt ({} :: sides) = sideAt sides := by
    funext k
    match sides, h with
    | [], _ => fin_cases k <;> rfl
    | [a], _ => fin_cases k <;> rfl
    | [a, b], _ => fin_cases k <;> rfl
  rw [sidesRegion, sidesRegion, hside, List.map_cons, List.map_cons, List.sum_cons, List.sum_cons,
    zero_add, zero_add]

theorem sidesRegion_copies (r : Ref) (src dst : ℤ) {sides : List Side} (h : sides.length ≤ 3)
    {s o : ℤ} : (sidesRegion r src dst sides).Copies s o ↔ Covers sides (s - src) (o - dst) := by
  have hthree : ∀ a b c : Side, (sidesRegion r src dst [a, b, c]).Copies s o ↔
      Covers [a, b, c] (s - src) (o - dst) := by
    intro a b c
    constructor
    · rintro ⟨i, hi, rfl, rfl⟩
      refine ⟨i 0, _, _, hi 0, ⟨i 1, _, _, hi 1, ⟨i 2, _, _, hi 2, ⟨rfl, rfl⟩, rfl, rfl⟩, rfl, rfl⟩,
        ?_, ?_⟩
      · simp [View.address, sidesRegion, sideAt]
        ring
      · simp [View.address, sidesRegion, sideAt]
        ring
    · rintro ⟨x, _, _, hx, ⟨y, _, _, hy, ⟨z, _, _, hz, ⟨rfl, rfl⟩, rfl, rfl⟩, rfl, rfl⟩, hs, ho⟩
      refine ⟨![x, y, z], fun k => ?_, ?_, ?_⟩
      · fin_cases k
        · exact hx
        · exact hy
        · exact hz
      · simp [View.address, sidesRegion, sideAt]
        linarith
      · simp [View.address, sidesRegion, sideAt]
        linarith
  match sides, h with
  | [a, b, c], _ => exact hthree a b c
  | [a, b], h =>
    rw [← sidesRegion_default r src dst (by simp), hthree, covers_default]
  | [a], h =>
    rw [← sidesRegion_default r src dst (by simp), ← sidesRegion_default r src dst (by simp),
      hthree, covers_default, covers_default]
  | [], h =>
    rw [← sidesRegion_default r src dst (by simp), ← sidesRegion_default r src dst (by simp),
      ← sidesRegion_default r src dst (by simp), hthree, covers_default, covers_default,
      covers_default]

/-! ### Parts of an axis -/

/-- An axis that is padded by no more than the mode allows. -/
structure Axis.Fits (mode : PadValueMode) (a : Axis) : Prop where
  inputDim : 0 < a.inputDim
  offset : 0 ≤ a.offset
  rightOffset : 0 ≤ a.rightOffset
  outputDim : (a.outputDim : ℤ) = a.inputDim + a.offset + a.rightOffset
  reflect : mode = .reflect → a.offset ≤ a.inputDim - 1 ∧ a.rightOffset ≤ a.inputDim - 1
  symmetric : mode = .symmetric → a.offset ≤ a.inputDim ∧ a.rightOffset ≤ a.inputDim

/-- The position lies in the center. -/
def Axis.Center (a : Axis) (j : ℕ) : Prop := a.offset ≤ j ∧ j < a.offset + a.inputDim

instance (a : Axis) (j : ℕ) : Decidable (a.Center j) := inferInstanceAs (Decidable (_ ∧ _))

/-- Where the parts read the element at a position of an axis. -/
def partPos (mode : PadValueMode) (a : Strided) (j : ℕ) : ℤ :=
  if a.Center j then j - a.offset
  else if j < a.offset then (left mode a).src + j * (left mode a).step
  else (right mode a).src + (j - (a.offset + a.inputDim)) * (right mode a).step

section Parts

variable {mode : PadValueMode} {a : Strided} (h : a.Fits mode)

include h

theorem setSize_of_fits : setSize mode a a.offset = a.offset ∧
    setSize mode a a.rightPad = a.rightOffset := by
  have hout := h.outputDim
  have hreflect := h.reflect
  have hsymmetric := h.symmetric
  have hright : a.rightPad = a.rightOffset := by
    rw [Strided.rightPad]
    omega
  rw [hright]
  cases mode with
  | constant => exact ⟨rfl, rfl⟩
  | edge => exact ⟨rfl, rfl⟩
  | reflect =>
    obtain ⟨hl, hr⟩ := hreflect rfl
    exact ⟨min_eq_left hl, min_eq_left hr⟩
  | symmetric =>
    obtain ⟨hl, hr⟩ := hsymmetric rfl
    exact ⟨min_eq_left (hl.trans (sub_zero _).ge), min_eq_left (hr.trans (sub_zero _).ge)⟩

/-- The three parts, by their numbers. -/
theorem part_cases {m : ℕ} (hm : m < padRegion a) :
    m = 0 ∧ part mode a m = center a ∨
      m ≠ 0 ∧ 0 < a.offset ∧ part mode a m = left mode a ∨
      m ≠ 0 ∧ 0 < a.rightOffset ∧ part mode a m = right mode a := by
  have hout := h.outputDim
  have hpad : a.rightPad = a.rightOffset := by
    rw [Strided.rightPad]
    omega
  rw [padRegion, hpad] at hm
  match m with
  | 0 => exact .inl ⟨rfl, rfl⟩
  | 1 =>
    by_cases hl : 0 < a.offset
    · exact .inr (.inl ⟨one_ne_zero, hl, if_pos hl⟩)
    · refine .inr (.inr ⟨one_ne_zero, ?_, if_neg hl⟩)
      by_contra hr
      rw [if_neg hl, if_neg hr] at hm
      exact lt_irrefl _ hm
  | m + 2 =>
    refine .inr (.inr ⟨Nat.succ_ne_zero _, ?_, rfl⟩)
    by_contra hr
    rw [if_neg hr] at hm
    split_ifs at hm <;> omega

/-- The elements of a part. -/
theorem part_covers {m : ℕ} (hm : m < padRegion a) {k : ℤ} (hk : 0 ≤ k)
    (hsize : k < (part mode a m).size) :
    ∃ j : ℕ, (j : ℤ) = (part mode a m).dst + k ∧ j < a.outputDim ∧
      partPos mode a j = (part mode a m).src + k * (part mode a m).step ∧
      (m = 0 ↔ a.Center j) := by
  have hin := h.inputDim
  have hoff := h.offset
  have hright := h.rightOffset
  have hout := h.outputDim
  obtain ⟨hl, hr⟩ := setSize_of_fits h
  obtain ⟨rfl, hp⟩ | ⟨hm0, hpos, hp⟩ | ⟨hm0, hpos, hp⟩ := part_cases h hm
  · rw [hp] at hsize ⊢
    simp only [center] at hsize ⊢
    have hcenter : a.Center (a.offset + k).toNat := by
      rw [Axis.Center]
      omega
    refine ⟨(a.offset + k).toNat, by omega, by omega, ?_, iff_of_true trivial hcenter⟩
    rw [partPos, if_pos hcenter]
    omega
  · rw [hp] at hsize ⊢
    simp only [left, hl] at hsize ⊢
    have hcenter : ¬ a.Center k.toNat := by
      rw [Axis.Center]
      omega
    refine ⟨k.toNat, by omega, by omega, ?_, iff_of_false hm0 hcenter⟩
    rw [partPos, if_neg hcenter, if_pos (by omega), Int.toNat_of_nonneg hk]
    rfl
  · rw [hp] at hsize ⊢
    simp only [right, hr] at hsize ⊢
    have hcenter : ¬ a.Center (a.offset + a.inputDim + k).toNat := by
      rw [Axis.Center]
      omega
    refine ⟨(a.offset + a.inputDim + k).toNat, by omega, by omega, ?_, iff_of_false hm0 hcenter⟩
    have hsub : a.offset + a.inputDim + k - (a.offset + a.inputDim) = k := by omega
    rw [partPos, if_neg hcenter, if_neg (by omega), Int.toNat_of_nonneg (by omega), hsub]
    rfl

/-- Every position belongs to a part. -/
theorem exists_part {j : ℕ} (hj : j < a.outputDim) :
    ∃ m < padRegion a, ∃ k, (0 ≤ k ∧ k < (part mode a m).size) ∧
      (j : ℤ) = (part mode a m).dst + k := by
  have hoff := h.offset
  have hout := h.outputDim
  have hpad : a.rightPad = a.rightOffset := by
    rw [Strided.rightPad]
    omega
  obtain ⟨hl, hr⟩ := setSize_of_fits h
  by_cases hcenter : a.Center j
  · obtain ⟨h1, h2⟩ := hcenter
    refine ⟨0, by rw [padRegion]; omega, j - a.offset, ?_, ?_⟩
    · simp only [part, center]
      omega
    · simp only [part, center]
      omega
  rw [Axis.Center] at hcenter
  by_cases hleft : (j : ℤ) < a.offset
  · have hpos : 0 < a.offset := by omega
    refine ⟨1, by rw [padRegion, if_pos hpos]; omega, j, ?_, ?_⟩
    · simp only [part, if_pos hpos, left, hl]
      omega
    · simp only [part, if_pos hpos, left]
      omega
  · have hpos : 0 < a.rightPad := by omega
    have hlast : ∃ m < padRegion a, part mode a m = right mode a := by
      rw [padRegion, if_pos hpos]
      by_cases hoffset : 0 < a.offset
      · exact ⟨2, by rw [if_pos hoffset]; omega, rfl⟩
      · exact ⟨1, by rw [if_neg hoffset]; omega, if_neg hoffset⟩
    obtain ⟨m, hm, hp⟩ := hlast
    refine ⟨m, hm, j - (a.offset + a.inputDim), ?_, ?_⟩
    · rw [hp]
      simp only [right, hr]
      omega
    · rw [hp]
      simp only [right]
      omega

end Parts

/-! ### Parts of the last axes -/

theorem sumAt_cons (f : Strided → ℕ → ℤ) (a : Strided) (axes : List Strided) (j : ℕ)
    (cords : List ℕ) : sumAt f (a :: axes) (j :: cords) = f a j + sumAt f axes cords :=
  List.sum_cons

theorem sumAt_append (f : Strided → ℕ → ℤ) {outer inner : List Strided} {i j : List ℕ}
    (h : outer.length = i.length) :
    sumAt f (outer ++ inner) (i ++ j) = sumAt f outer i + sumAt f inner j := by
  rw [sumAt, List.zipWith_append h, List.sum_append, sumAt, sumAt]

/-- The address in the output. -/
def dstAt : List Strided → List ℕ → ℤ := sumAt fun a cord => cord * a.outputStride

/-- The positions are inside of the output. -/
def Inside : List Strided → List ℕ → Prop := List.Forall₂ fun a j => j < a.outputDim

/-- The positions are in the center of every axis. -/
def Central : List Strided → List ℕ → Prop := List.Forall₂ fun a j => a.Center j

section Inner

variable {mode : PadValueMode} {inner : List Strided} (h : ∀ a ∈ inner, a.Fits mode)

include h

theorem covers_partSides {ms : List ℕ} (hms : List.Forall₂ (fun a m => m < padRegion a) inner ms)
    {s o : ℤ} (hc : Covers (partSides mode inner ms) s o) :
    ∃ js, Inside inner js ∧ s = sumAt (fun a j => partPos mode a j * a.inputStride) inner js ∧
      o = dstAt inner js ∧ ((∀ m ∈ ms, m = 0) ↔ Central inner js) := by
  induction hms generalizing s o with
  | nil =>
    obtain ⟨rfl, rfl⟩ := hc
    exact ⟨[], .nil, rfl, rfl, iff_of_true (fun m hm => absurd hm List.not_mem_nil) .nil⟩
  | @cons a m inner ms hm _ ih =>
    obtain ⟨ha, hinner⟩ := List.forall_mem_cons.1 h
    obtain ⟨k, s', o', ⟨hk, hsize⟩, hc', rfl, rfl⟩ := hc
    obtain ⟨js, hjs, rfl, rfl, hiff⟩ := ih hinner hc'
    obtain ⟨j, hj, hjlt, hpos, hzero⟩ := part_covers ha hm hk hsize
    refine ⟨j :: js, .cons hjlt hjs, ?_, ?_, ?_⟩
    · rw [sumAt_cons, hpos]
      simp only [Part.side]
      ring
    · rw [dstAt, sumAt_cons, hj]
      simp only [Part.side]
      ring
    · rw [List.forall_mem_cons, Central, List.forall₂_cons, hzero, hiff, Central]

theorem exists_partSides {js : List ℕ} (hjs : Inside inner js) :
    ∃ ms, List.Forall₂ (fun a m => m < padRegion a) inner ms ∧
      Covers (partSides mode inner ms)
        (sumAt (fun a j => partPos mode a j * a.inputStride) inner js) (dstAt inner js) ∧
      ((∀ m ∈ ms, m = 0) ↔ Central inner js) := by
  induction hjs with
  | nil =>
    exact ⟨[], .nil, ⟨rfl, rfl⟩, iff_of_true (fun m hm => absurd hm List.not_mem_nil) .nil⟩
  | @cons a j inner js hj _ ih =>
    obtain ⟨ha, hinner⟩ := List.forall_mem_cons.1 h
    obtain ⟨ms, hms, hc, hiff⟩ := ih hinner
    obtain ⟨m, hm, k, ⟨hk, hsize⟩, hjk⟩ := exists_part ha hj
    obtain ⟨j', hj', -, hpos, hzero⟩ := part_covers ha hm hk hsize
    obtain rfl : j' = j := Nat.cast_injective (hj'.trans hjk.symm)
    refine ⟨m :: ms, .cons hm hms, ⟨k, _, _, ⟨hk, hsize⟩, hc, ?_, ?_⟩, ?_⟩
    · rw [sumAt_cons, hpos]
      simp only [Part.side]
      ring
    · rw [dstAt, sumAt_cons, hj']
      simp only [Part.side]
      ring
    · rw [List.forall_mem_cons, Central, List.forall₂_cons, hzero, hiff, Central]

end Inner

/-! ### Loops over the regions -/

theorem forall₂_lt_map {axes : List Strided} (f : Strided → ℕ) {ms : List ℕ} :
    List.Forall₂ (fun a m => m < f a) axes ms ↔ List.Forall₂ (· < ·) ms (axes.map f) := by
  rw [List.forall₂_map_right_iff]
  exact ⟨List.Forall₂.flip, List.Forall₂.flip⟩

/-- The coordinates are those of the numbers below the size. -/
theorem exists_unravel {shape i : List ℕ} : List.Forall₂ (· < ·) i shape ↔
    ∃ n < shape.prod, unravelIndexHelper (computeStride shape) n = i := by
  rw [← mem_coords, ← Permute.map_unravelIndexHelper]
  simp only [Multiset.mem_map, Multiset.mem_range]

/-- Only the first combination has only zeros. -/
theorem unravel_eq_zero {shape : List ℕ} {n : ℕ} (hn : n < shape.prod) :
    (∀ k ∈ unravelIndexHelper (computeStride shape) n, k = 0) ↔ n = 0 := by
  induction shape generalizing n with
  | nil => exact iff_of_true (fun k hk => absurd hk List.not_mem_nil) (Nat.lt_one_iff.1 hn)
  | cons m shape ih =>
    rw [List.prod_cons] at hn
    have hpos : 0 < shape.prod := Nat.pos_of_mul_pos_left (Nat.zero_lt_of_lt hn)
    rw [computeStride, unravelIndexHelper, List.forall_mem_cons, ih (Nat.mod_lt n hpos),
      Nat.div_eq_zero_iff_lt hpos]
    constructor
    · rintro ⟨hlt, hmod⟩
      rwa [Nat.mod_eq_of_lt hlt] at hmod
    · rintro rfl
      exact ⟨hpos, Nat.zero_mod _⟩

theorem fill_copies {r : Region Ref} {s o : ℤ} :
    (fill r).Copies s o ↔ s = 0 ∧ ∃ s', r.Copies s' o := by
  have haddress : ∀ i, (fill r).src.address i = 0 := fun i => by simp [fill, View.address]
  constructor
  · rintro ⟨i, hi, rfl, ho⟩
    exact ⟨haddress i, _, i, hi, rfl, ho⟩
  · rintro ⟨rfl, _, i, hi, -, ho⟩
    exact ⟨i, hi, haddress i, ho⟩

section Families

variable {mode : PadValueMode} {axes : List Strided} (h : ∀ a ∈ axes, a.Fits mode)

/-- The axes before the last three. -/
def outerAxes (axes : List Strided) : List Strided := axes.take (axes.length - 3)

/-- The last three axes. -/
def innerAxes (axes : List Strided) : List Strided := axes.drop (axes.length - 3)

theorem length_innerAxes (axes : List Strided) : (innerAxes axes).length ≤ 3 := by
  rw [innerAxes, List.length_drop]
  omega

include h

theorem fits_innerAxes : ∀ a ∈ innerAxes axes, a.Fits mode :=
  fun a ha => h a (List.mem_of_mem_drop ha)

theorem fits_outerAxes : ∀ a ∈ outerAxes axes, a.Fits mode :=
  fun a ha => h a (List.mem_of_mem_take ha)

/-- The regions around the center. -/
theorem exists_padRegions {r : Ref} {s o : ℤ} :
    (∃ reg ∈ padRegions mode r axes, reg.Copies s o) ↔
      ∃ i j, Inside (outerAxes axes) i ∧ Inside (innerAxes axes) j ∧
        ¬ Central (innerAxes axes) j ∧ o = dstAt (outerAxes axes) i + dstAt (innerAxes axes) j ∧
        s = if mode = .constant then 0 else
          sumAt (fun a cord => inputPos mode a cord * a.inputStride) (outerAxes axes) i +
            sumAt (fun a j => partPos mode a j * a.inputStride) (innerAxes axes) j := by
  set outer := outerAxes axes with houter
  set inner := innerAxes axes with hinner
  have hfits : ∀ a ∈ inner, a.Fits mode := fits_innerAxes h
  have hlen : ∀ ms, (partSides mode inner ms).length ≤ 3 := fun ms =>
    (by rw [partSides, List.length_zipWith]; exact min_le_left _ _ :
      (partSides mode inner ms).length ≤ inner.length).trans (length_innerAxes axes)
  -- a region is given by the coordinates on the outer axes and the numbers of the parts
  have hmem : ∀ P : Region Ref → Prop, (∃ reg ∈ padRegions mode r axes, P reg) ↔
      ∃ i, Inside outer i ∧ ∃ ms, List.Forall₂ (fun a m => m < padRegion a) inner ms ∧
        ¬ (∀ m ∈ ms, m = 0) ∧
        let region := sidesRegion r
          (sumAt (fun a cord => inputPos mode a cord * a.inputStride) outer i) (dstAt outer i)
          (partSides mode inner ms)
        P (if mode = .constant then fill region else region) := by
    intro P
    simp only [padRegions, List.mem_flatMap, List.mem_map, List.mem_range, List.mem_range'_1]
    constructor
    · rintro ⟨_, ⟨n, hn, m, ⟨hm, hm'⟩, rfl⟩, hP⟩
      have hlt : m < (inner.map padRegion).prod := by
        rw [hinner, innerAxes]
        omega
      refine ⟨_, (forall₂_lt_map _).2 (exists_unravel.2 ⟨n, hn, rfl⟩), _,
        (forall₂_lt_map _).2 (exists_unravel.2 ⟨m, hlt, rfl⟩), ?_, hP⟩
      rw [unravel_eq_zero hlt]
      omega
    · rintro ⟨i, hi, ms, hms, hzero, hP⟩
      obtain ⟨n, hn, rfl⟩ := exists_unravel.1 ((forall₂_lt_map _).1 hi)
      obtain ⟨m, hm, rfl⟩ := exists_unravel.1 ((forall₂_lt_map _).1 hms)
      rw [unravel_eq_zero hm] at hzero
      refine ⟨_, ⟨n, hn, m, ⟨by omega, ?_⟩, rfl⟩, hP⟩
      rw [hinner, innerAxes] at hm
      omega
  have hif : ∀ region : Region Ref,
      (if mode = .constant then fill region else region).Copies s o ↔
        ∃ s', region.Copies s' o ∧ s = if mode = .constant then 0 else s' := by
    intro region
    split_ifs
    · rw [fill_copies]
      exact ⟨fun ⟨hs, s', hc⟩ => ⟨s', hc, hs⟩, fun ⟨s', hc, hs⟩ => ⟨hs, s', hc⟩⟩
    · exact ⟨fun hc => ⟨s, hc, rfl⟩, fun ⟨s', hc, hs⟩ => hs ▸ hc⟩
  rw [hmem]
  constructor
  · rintro ⟨i, hi, ms, hms, hzero, hc⟩
    obtain ⟨s', hcopy, rfl⟩ := (hif _).1 hc
    obtain ⟨j, hj, hs, ho, hiff⟩ :=
      covers_partSides hfits hms ((sidesRegion_copies _ _ _ (hlen ms)).1 hcopy)
    refine ⟨i, j, hi, hj, fun hcentral => hzero (hiff.2 hcentral), by linarith, ?_⟩
    rw [← hs, add_sub_cancel]
  · rintro ⟨i, j, hi, hj, hcentral, rfl, rfl⟩
    obtain ⟨ms, hms, hc, hiff⟩ := exists_partSides hfits hj
    refine ⟨i, hi, ms, hms, fun hzero => hcentral (hiff.1 hzero), (hif _).2 ⟨_, ?_, rfl⟩⟩
    rw [sidesRegion_copies _ _ _ (hlen ms), add_sub_cancel_left, add_sub_cancel_left]
    exact hc

omit h in
/-- With the tensors in their own places. -/
def Strided.swap (a : Strided) : Strided := ⟨a.toAxis.swap, a.outputStride, a.inputStride⟩

omit h in
theorem strided_swap (l : List Axis) :
    strided (l.map Axis.swap) = (strided l).map Strided.swap := by
  have hstrides : ∀ l : List Axis, ∀ s t : List ℕ,
      List.zipWith (fun a (s : ℕ × ℕ) => Strided.mk a s.1 s.2) (l.map Axis.swap) (s.zip t) =
        (List.zipWith (fun a (s : ℕ × ℕ) => Strided.mk a s.1 s.2) l (t.zip s)).map
          Strided.swap := by
    intro l s t
    induction l generalizing s t with
    | nil => rfl
    | cons a l ih =>
      cases s with
      | nil => cases t <;> rfl
      | cons x s =>
        cases t with
        | nil => rfl
        | cons y t => exact congrArg (_ :: ·) (ih s t)
  rw [strided, hstrides, List.map_map, List.map_map]
  rfl

/-- The coordinates of the center in the input and in the output. -/
theorem exists_central {src dst : ℤ} :
    (∃ c, List.Forall₂ (fun a k => k < a.inputDim) axes c ∧
      src = sumAt (fun a k => k * a.inputStride) axes c ∧
      dst = sumAt (fun a k => (k + a.offset) * a.outputStride) axes c) ↔
      ∃ i, Central axes i ∧ src = sumAt (fun a j => (j - a.offset) * a.inputStride) axes i ∧
        dst = dstAt axes i := by
  constructor
  · rintro ⟨c, hc, rfl, rfl⟩
    induction hc with
    | nil => exact ⟨[], .nil, rfl, rfl⟩
    | @cons a k axes c hk _ ih =>
      obtain ⟨ha, haxes⟩ := List.forall_mem_cons.1 h
      obtain ⟨i, hi, hs, ho⟩ := ih haxes
      have hoff := ha.offset
      have hj : ((k + a.offset).toNat : ℤ) = k + a.offset := by omega
      refine ⟨(k + a.offset).toNat :: i, .cons ⟨by omega, by omega⟩ hi, ?_, ?_⟩
      · rw [sumAt_cons, sumAt_cons, hj, hs, add_sub_cancel_right]
      · rw [dstAt, sumAt_cons, sumAt_cons, hj, ho, dstAt]
  · rintro ⟨i, hi, rfl, rfl⟩
    induction hi with
    | nil => exact ⟨[], .nil, rfl, rfl⟩
    | @cons a j axes i hj _ ih =>
      obtain ⟨ha, haxes⟩ := List.forall_mem_cons.1 h
      obtain ⟨c, hc, hs, ho⟩ := ih haxes
      obtain ⟨h1, h2⟩ := hj
      have hk : ((j - a.offset).toNat : ℤ) = j - a.offset := by omega
      refine ⟨(j - a.offset).toNat :: c, .cons (by omega) hc, ?_, ?_⟩
      · rw [sumAt_cons, sumAt_cons, hk, hs]
      · rw [dstAt, sumAt_cons, sumAt_cons, hk, ← ho, dstAt, sub_add_cancel]

omit h in
theorem covers_map_center {s o : ℤ} : Covers (axes.map fun a => (center a).side a) s o ↔
    ∃ c, List.Forall₂ (fun a k => k < a.inputDim) axes c ∧
      s = sumAt (fun a k => k * a.inputStride) axes c ∧
      o = sumAt (fun a k => (k + a.offset) * a.outputStride) axes c := by
  induction axes generalizing s o with
  | nil =>
    constructor
    · rintro ⟨rfl, rfl⟩
      exact ⟨[], .nil, rfl, rfl⟩
    · rintro ⟨c, hc, rfl, rfl⟩
      cases hc
      exact ⟨rfl, rfl⟩
  | cons a axes ih =>
    have hsrc : ∀ (k : ℕ) (c : List ℕ), sumAt (fun a k => k * a.inputStride) (a :: axes) (k :: c) =
        ((center a).side a).src + k * ((center a).side a).srcStride +
          sumAt (fun a k => k * a.inputStride) axes c := by
      intro k c
      rw [sumAt_cons]
      simp only [Part.side, center]
      ring
    have hdst : ∀ (k : ℕ) (c : List ℕ),
        sumAt (fun a k => (k + a.offset) * a.outputStride) (a :: axes) (k :: c) =
          ((center a).side a).dst + k * ((center a).side a).dstStride +
            sumAt (fun a k => (k + a.offset) * a.outputStride) axes c := by
      intro k c
      rw [sumAt_cons]
      simp only [Part.side, center]
      ring
    constructor
    · rintro ⟨k, _, _, ⟨hk, hlt⟩, hrest, rfl, rfl⟩
      lift k to ℕ using hk
      obtain ⟨c, hc, rfl, rfl⟩ := ih.1 hrest
      exact ⟨k :: c, .cons (Int.ofNat_lt.1 hlt) hc, (hsrc k c).symm, (hdst k c).symm⟩
    · rintro ⟨kc, hkc, rfl, rfl⟩
      obtain ⟨k, c, hk, hc, rfl⟩ := List.forall₂_cons_left_iff.1 hkc
      exact ⟨k, _, _, ⟨Int.natCast_nonneg k, Int.ofNat_lt.2 hk⟩, ih.2 ⟨c, hc, rfl, rfl⟩, hsrc k c,
        hdst k c⟩

/-- The center of every axis. -/
theorem covers_center {s o : ℤ} : Covers (axes.map fun a => (center a).side a) s o ↔
    ∃ j, Central axes j ∧ s = sumAt (fun a j => (j - a.offset) * a.inputStride) axes j ∧
      o = dstAt axes j :=
  covers_map_center.trans (exists_central h)

omit h in
/-- The side of a reverted region. -/
def Side.flip (p : Side) : Side := ⟨p.dst, p.src, p.size, p.dstStride, p.srcStride⟩

omit h in
theorem revert_sidesRegion (r : Ref) (src dst : ℤ) (sides : List Side) :
    revert (sidesRegion r src dst sides) = sidesRegion r dst src (sides.map Side.flip) := by
  have hside : ∀ k, sideAt (sides.map Side.flip) k = (sideAt sides k).flip := by
    intro k
    rw [sideAt, sideAt, List.length_map]
    split_ifs
    · rfl
    · exact List.getD_map sides {} Side.flip
  simp only [revert, sidesRegion, hside, List.map_map]
  rfl

omit h in
theorem flip_side_swap {a : Strided} (ha : a.Fits mode) : a.swap.side.flip = (center a).side a := by
  have hoff : 0 ≤ a.swap.offset := ha.offset
  have hright : ¬ a.swap.rightOffset < 0 := not_lt.2 ha.rightOffset
  rw [Strided.side, if_pos hoff, if_pos hoff, if_pos hoff, if_neg hright]
  simp [Side.flip, Part.side, center, Strided.swap, Axis.swap]

omit h in
theorem valid_swap {outer : List Strided} (hfits : ∀ a ∈ outer, a.Fits mode) {c : List ℕ}
    (hc : List.Forall₂ (fun a k => k < a.inputDim) outer c) :
    valid (outer.map Strided.swap) c = true := by
  induction hc with
  | nil => rfl
  | @cons a k outer c hk _ ih =>
    obtain ⟨ha, houter⟩ := List.forall_mem_cons.1 hfits
    have hoff := ha.offset
    have hright := ha.rightOffset
    have hhead : (decide (0 ≤ a.offset + k) && decide (k - a.rightOffset < a.inputDim)) = true := by
      rw [Bool.and_eq_true, decide_eq_true_eq, decide_eq_true_eq]
      omega
    exact Bool.and_eq_true_iff.2 ⟨hhead, ih houter⟩

/-- The regions of the center, in the words of the padding. -/
theorem revert_offsetRegions (r : Ref) :
    (offsetRegions r (axes.map Strided.swap)).map revert =
      let shape := (outerAxes axes).map fun a => a.inputDim
      ((List.range shape.prod).map (unravelIndexHelper (computeStride shape))).map fun c =>
        sidesRegion r (sumAt (fun a k => k * a.inputStride) (outerAxes axes) c)
          (sumAt (fun a k => (k + a.offset) * a.outputStride) (outerAxes axes) c)
          ((innerAxes axes).map fun a => (center a).side a) := by
  have hshape : ((outerAxes axes).map Strided.swap).map (fun a => a.outputDim) =
      (outerAxes axes).map fun a => a.inputDim := by
    rw [List.map_map]
    rfl
  have hsides : (((innerAxes axes).map Strided.swap).map Strided.side).map Side.flip =
      (innerAxes axes).map fun a => (center a).side a := by
    rw [List.map_map, List.map_map]
    exact List.map_congr_left fun a ha => flip_side_swap (fits_innerAxes h a ha)
  have hvalid : ∀ c ∈ (List.range ((outerAxes axes).map fun a => a.inputDim).prod).map
      (unravelIndexHelper (computeStride ((outerAxes axes).map fun a => a.inputDim))),
      valid ((outerAxes axes).map Strided.swap) c = true := by
    intro c hc
    obtain ⟨n, hn, rfl⟩ := List.mem_map.1 hc
    exact valid_swap (fits_outerAxes h)
      ((forall₂_lt_map _).2 (exists_unravel.2 ⟨n, List.mem_range.1 hn, rfl⟩))
  have houter : (axes.map Strided.swap).take ((axes.map Strided.swap).length - 3) =
      (outerAxes axes).map Strided.swap := by
    rw [List.length_map, outerAxes, List.map_take]
  have hinner : (axes.map Strided.swap).drop ((axes.map Strided.swap).length - 3) =
      (innerAxes axes).map Strided.swap := by
    rw [List.length_map, innerAxes, List.map_drop]
  rw [offsetRegions, houter, hinner, hshape, List.filter_eq_self.2 hvalid, List.map_map]
  refine List.map_congr_left fun c _ => ?_
  rw [Function.comp_apply, revert_sidesRegion, hsides, sumAt, sumAt, List.zipWith_map_left,
    List.zipWith_map_left]
  rfl

/-- The regions of the center. -/
theorem exists_offsetRegions {r : Ref} {s o : ℤ} :
    (∃ reg ∈ (offsetRegions r (axes.map Strided.swap)).map revert, reg.Copies s o) ↔
      ∃ i j, Central (outerAxes axes) i ∧ Central (innerAxes axes) j ∧
        o = dstAt (outerAxes axes) i + dstAt (innerAxes axes) j ∧
        s = sumAt (fun a j => (j - a.offset) * a.inputStride) (outerAxes axes) i +
          sumAt (fun a j => (j - a.offset) * a.inputStride) (innerAxes axes) j := by
  have hmem : ∀ P : Region Ref → Prop,
      (∃ reg ∈ (offsetRegions r (axes.map Strided.swap)).map revert, P reg) ↔
        ∃ c, List.Forall₂ (fun a k => k < a.inputDim) (outerAxes axes) c ∧
          P (sidesRegion r (sumAt (fun a k => k * a.inputStride) (outerAxes axes) c)
            (sumAt (fun a k => (k + a.offset) * a.outputStride) (outerAxes axes) c)
            ((innerAxes axes).map fun a => (center a).side a)) := by
    intro P
    rw [revert_offsetRegions h]
    simp only [List.mem_map, List.mem_range, forall₂_lt_map, exists_unravel]
    constructor
    · rintro ⟨_, ⟨c, hc, rfl⟩, hP⟩
      exact ⟨c, hc, hP⟩
    · rintro ⟨c, hc, hP⟩
      exact ⟨_, ⟨c, hc, rfl⟩, hP⟩
  have hlen : ((innerAxes axes).map fun a => (center a).side a).length ≤ 3 := by
    rw [List.length_map]
    exact length_innerAxes axes
  simp only [hmem, sidesRegion_copies _ _ _ hlen, covers_center (fits_innerAxes h)]
  constructor
  · rintro ⟨c, hc, j, hj, hs, ho⟩
    obtain ⟨i, hi, hsrc, hdst⟩ := (exists_central (fits_outerAxes h)).1 ⟨c, hc, rfl, rfl⟩
    exact ⟨i, j, hi, hj, by linarith, by linarith⟩
  · rintro ⟨i, j, hi, hj, rfl, rfl⟩
    obtain ⟨c, hc, hsrc, hdst⟩ := (exists_central (fits_outerAxes h)).2 ⟨i, hi, rfl, rfl⟩
    exact ⟨c, hc, j, hj, by linarith, by linarith⟩

end Families

end Mnn.Pad
