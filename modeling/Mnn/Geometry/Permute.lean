import Mathlib.Data.List.ModifyLast
import Mnn.Geometry.BroadcastTo
import Mnn.Lib.LoopNest

/-!
# `GeometryComputer::ComputePermuteRegion`

The regions of a permuted tensor (`source/geometry/GeometryComputer.cpp`).

* `Fusing`: axes that stay neighbours are fused, and axes of length one are left out;
* `Moving`: the three longest axes change places with the last three;
* `permuteRegions`, `computePermuteRegion`: the last three axes are those of the regions, and there
  is one region for each element of the others;
* `writes`, `writes_computePermuteRegion`: the copied addresses are those of the nest of loops over
  the permuted axes, since no step changes what a nest visits;
* `computePermuteRegion_transpose`: **every element is written once, with the one at the permuted
  index**.
-/

namespace Mnn.Permute

open Recompute Lib.LoopNest

/-! ### Fused axes -/

/-- `newshape`, or the reversal of the axes when there is none. -/
def permutation (dims : ℕ) (newshape : Option (List ℕ)) : List ℕ :=
  newshape.getD ((List.range dims).map fun i => dims - i - 1)

/-- The arrays that the loop over the axes fills; the stride of the last axis is still missing. -/
structure Fusing where
  inputShape : List ℕ := []
  inputStrides : List ℕ := []
  preAxis : ℤ := -2

namespace Fusing

variable (input : Tensor) (f : Fusing)

/-- Compute last stride. -/
def close : List ℕ :=
  if 0 ≤ f.preAxis then f.inputStrides ++ [(input.shape.drop (f.preAxis + 1).toNat).prod]
  else f.inputStrides

/-- One pass of the loop. -/
def visit (axis : ℕ) : Fusing :=
  let len := input.length axis
  if len = 1 then f
  else if axis - f.preAxis = 1 then
    -- Fuse dimension if possible
    { f with inputShape := f.inputShape.modifyLast (· * len), preAxis := axis }
  else
    { inputShape := f.inputShape ++ [len], inputStrides := f.close input, preAxis := axis }

end Fusing

/-- An axis of the loops: its length, and its strides in the input and in the output. -/
structure Axis where
  shape : ℕ := 1
  inputStride : ℕ := 0
  outputStride : ℕ := 0
  deriving DecidableEq, Repr

/-- The three arrays after the loop. -/
def fusedAxes (input : Tensor) (perm : List ℕ) : List Axis :=
  let f := perm.foldl (Fusing.visit input) {}
  List.zipWith (fun p outputStride => ⟨p.1, p.2, outputStride⟩)
    (f.inputShape.zip (f.close input)) (computeStride f.inputShape)

/-! ### Long axes last -/

/-- `std::swap` of the entries of all three arrays. -/
def swap (axes : List Axis) (i j : ℕ) : List Axis :=
  (axes.set i (axes.getD j {})).set j (axes.getD i {})

/-- Find Max Three Number. -/
def maxThree (axes : List Axis) : ℤ × ℤ × ℤ :=
  axes.tail.foldl (fun (max1, max2, max3) a =>
    if max1 < a.shape then (a.shape, max1, max2)
    else if max2 < a.shape then (max1, a.shape, max2)
    else if max3 < a.shape then (max1, max2, a.shape)
    else (max1, max2, max3)) ((axes.headD {}).shape, -1, -1)

/-- The state of the loop that moves the axes. -/
structure Moving where
  axes : List Axis
  max1 : ℤ
  max2 : ℤ
  max3 : ℤ
  lastIndex : ℕ

namespace Moving

/-- The axis `i` goes to the last place that is still free. -/
def place (m : Moving) (i : ℕ) : Moving :=
  { m with
    axes := if i ≠ m.lastIndex then swap m.axes i m.lastIndex else m.axes
    lastIndex := m.lastIndex - 1 }

/-- One pass of the loop. -/
def step (m : Moving) (i : ℕ) : Moving :=
  let len : ℤ := (m.axes.getD i {}).shape
  if len = m.max1 then { m.place i with max1 := -1 }
  else if len = m.max2 then { m.place i with max2 := -1 }
  else if len = m.max3 then { m.place i with max3 := -1 }
  else m

/-- Move Max Three Number to Last Location. -/
def run (size : ℕ) : ℕ → Moving → Moving
  | 0, m => m
  | i + 1, m =>
    let m := m.step i
    if m.lastIndex < size - 3 then m else m.run size i

end Moving

/-- `isReorderShape`. -/
def isReorderShape (axes : List Axis) : Bool :=
  4 < axes.length || axes.length = 4 && ((axes.tail.map Axis.shape).sum < (axes.headD {}).shape)

/-- The axes in the order of the loops. -/
def reorder (axes : List Axis) : List Axis :=
  if isReorderShape axes then
    let (max1, max2, max3) := maxThree axes
    (Moving.run axes.length axes.length ⟨axes, max1, max2, max3, axes.length - 1⟩).axes
  else axes

/-! ### Regions -/

/-- `outside`, `axis` and `inside`: the last three axes, of which some may be missing. -/
def lastAxis (axes : List Axis) (k : Fin 3) : Axis :=
  if axes.length + k < 3 then {} else axes.getD (axes.length + k - 3) {}

def permuteRegions (r : Ref) (axes : List Axis) : List (Region Ref) :=
  let remain := axes.take (axes.length - 3)
  (List.range (remain.map Axis.shape).prod).map fun indice =>
    let coordinates := unravelIndexHelper (computeStride (remain.map Axis.shape)) indice
    { src := { offset := dot coordinates (remain.map Axis.inputStride)
               stride := fun k => (lastAxis axes k).inputStride }
      dst := { offset := dot coordinates (remain.map Axis.outputStride)
               stride := fun k => (lastAxis axes k).outputStride }
      size := fun k => (lastAxis axes k).shape
      origin := r }

/-- `GeometryComputer::ComputePermuteRegion` of the tensor `input` at `r`. -/
def computePermuteRegion (input : Tensor) (r : Ref) (newshape : Option (List ℕ)) :
    List (Region Ref) :=
  let axes := fusedAxes input (permutation input.dimensions newshape)
  if axes = [] then [input.makeFullSlice r] else permuteRegions r (reorder axes)

/-! ### Copied addresses -/

/-- The pairs of addresses that the regions copy, with repetitions. -/
def writes (regions : List (Region Ref)) : Multiset (ℤ × ℤ) :=
  (regions : Multiset (Region Ref)).bind fun r =>
    (boxIndices r.size).map fun i => (r.src.address i, r.dst.address i)

theorem mem_writes {regions : List (Region Ref)} {s o : ℤ} :
    (s, o) ∈ writes regions ↔ ∃ r ∈ regions, r.Copies s o := by
  simp only [writes, Multiset.mem_bind, Multiset.mem_coe, Region.copies_iff_mem]

/-- Where no address is written twice, each of them gets the element that is copied to it. -/
theorem raster_of_writes {V : Type*} [Zero V] {regions : List (Region Ref)} {r : Ref}
    (value : Ref → ℤ → V) (hnodup : ((writes regions).map Prod.snd).Nodup)
    (horigin : ∀ reg ∈ regions, reg.origin = r) {s o : ℤ} (hmem : (s, o) ∈ writes regions) :
    raster regions value o = value r s := by
  obtain ⟨reg, hreg, hcopies⟩ := mem_writes.1 hmem
  refine raster_of_agree ⟨reg, hreg, s, hcopies⟩ fun reg' hreg' s' hs' => ?_
  have heq := Multiset.inj_on_of_nodup_map hnodup _ (mem_writes.2 ⟨reg', hreg', hs'⟩) _ hmem rfl
  rw [horigin reg' hreg', (Prod.mk.inj heq).1]

/-- A region is a nest of three loops. -/
theorem region_eq_nest (r : Region Ref) :
    (((boxIndices r.size).map fun i => (r.src.address i, r.dst.address i) : List (ℤ × ℤ)) :
      Multiset (ℤ × ℤ)) =
      (nest [⟨(r.size 0).toNat, r.src.stride 0, r.dst.stride 0⟩,
        ⟨(r.size 1).toNat, r.src.stride 1, r.dst.stride 1⟩,
        ⟨(r.size 2).toNat, r.src.stride 2, r.dst.stride 2⟩]).map
          ((r.src.offset, r.dst.offset) + ·) := by
  simp only [nest_eq_coords, coords, boxIndices, List.map_cons, List.map_nil, ← Multiset.map_coe,
    ← Multiset.coe_bind, Multiset.map_bind, Multiset.map_map, Multiset.coe_range,
    Multiset.map_singleton, Multiset.bind_singleton, Function.comp_def]
  refine Multiset.bind_congr fun z _ => Multiset.bind_congr fun y _ => ?_
  refine Multiset.map_congr rfl fun x _ => ?_
  simp only [View.address, address_cons, address_nil, Prod.mk_add_mk, Matrix.cons_val]
  refine Prod.ext ?_ ?_ <;> ring

/-! ### Steps of the fusing loop -/

/-- An axis of the input, with its stride. -/
def axis (input : Tensor) (a : ℕ) : ℕ × ℤ := (input.length a, (input.shape.drop (a + 1)).prod)

namespace Fusing

variable {input : Tensor} {f : Fusing}

/-- The axes collected so far. -/
def loops (input : Tensor) (f : Fusing) : List (ℕ × ℤ) :=
  f.inputShape.zip ((f.close input).map fun n : ℕ => (n : ℤ))

/-- One stride is missing, but for the first pass. -/
def Open (f : Fusing) : Prop :=
  f = {} ∨ ∃ (shapes strides : List ℕ) (m p : ℕ), shapes.length = strides.length ∧
    f = ⟨shapes ++ [m], strides, p⟩

theorem close_open (shapes strides : List ℕ) (m p : ℕ) :
    close input ⟨shapes ++ [m], strides, p⟩ = strides ++ [(input.shape.drop (p + 1)).prod] := by
  rw [close, if_pos (Int.natCast_nonneg p)]
  rfl

theorem loops_open {shapes strides : List ℕ} (h : shapes.length = strides.length) (m p : ℕ) :
    loops input ⟨shapes ++ [m], strides, p⟩ =
      shapes.zip (strides.map fun n : ℕ => (n : ℤ)) ++
        [(m, (((input.shape.drop (p + 1)).prod : ℕ) : ℤ))] := by
  rw [loops, close_open, List.map_append, List.zip_append (by rw [List.length_map, h])]
  rfl

theorem Open.length_close (h : f.Open) : (f.close input).length = f.inputShape.length := by
  rcases h with rfl | ⟨shapes, strides, m, p, hlen, rfl⟩
  · rfl
  · rw [close_open, List.length_append, List.length_append, hlen]
    rfl

/-- A new axis is opened. -/
theorem loops_new (h : f.Open) (a : ℕ) :
    loops input ⟨f.inputShape ++ [input.length a], f.close input, a⟩ =
      f.loops input ++ [axis input a] :=
  loops_open h.length_close.symm _ a

theorem visit_one {a : ℕ} (hone : input.length a = 1) : f.visit input a = f := if_pos hone

theorem visit_new {a : ℕ} (hone : input.length a ≠ 1) (hnext : (a : ℤ) - f.preAxis ≠ 1) :
    f.visit input a = ⟨f.inputShape ++ [input.length a], f.close input, a⟩ :=
  (if_neg hone).trans (if_neg hnext)

theorem visit_next {a : ℕ} (hone : input.length a ≠ 1) (hnext : (a : ℤ) - f.preAxis = 1)
    (h : f.Open) : ∃ (shapes strides : List ℕ) (m p : ℕ), shapes.length = strides.length ∧
      f = ⟨shapes ++ [m], strides, p⟩ ∧ a = p + 1 ∧
        f.visit input a = ⟨shapes ++ [m * input.length a], strides, a⟩ := by
  rcases h with rfl | ⟨shapes, strides, m, p, hlen, rfl⟩
  · have : (a : ℤ) - -2 = 1 := hnext
    omega
  · have hp : (a : ℤ) - p = 1 := hnext
    refine ⟨shapes, strides, m, p, hlen, rfl, by omega,
      ((if_neg hone).trans (if_pos hnext)).trans ?_⟩
    rw [List.modifyLast_concat]

theorem Open.visit (h : f.Open) (a : ℕ) : (f.visit input a).Open := by
  by_cases hone : input.length a = 1
  · rwa [visit_one hone]
  by_cases hnext : (a : ℤ) - f.preAxis = 1
  · obtain ⟨shapes, strides, m, p, hlen, -, -, hvisit⟩ := visit_next hone hnext h
    exact .inr ⟨shapes, strides, _, a, hlen, hvisit⟩
  · exact .inr ⟨_, _, _, a, h.length_close.symm, visit_new hone hnext⟩

/-- A pass does not change what the loops visit. -/
theorem nest_visit (h : f.Open) (a : ℕ) (rest : List (ℕ × ℤ)) :
    nest (dense ((f.visit input a).loops input ++ rest)) =
      nest (dense (f.loops input ++ axis input a :: rest)) := by
  by_cases hone : input.length a = 1
  · rw [visit_one hone, axis, hone, nest_dense_unit]
  by_cases hnext : (a : ℤ) - f.preAxis = 1
  · obtain ⟨shapes, strides, m, p, hlen, rfl, rfl, hvisit⟩ := visit_next hone hnext h
    have hlt : p + 1 < input.shape.length := by
      by_contra hge
      exact hone (List.getD_eq_default _ _ (not_lt.1 hge))
    have hstride : (((input.shape.drop (p + 1)).prod : ℕ) : ℤ) =
        input.length (p + 1) * ((input.shape.drop (p + 1 + 1)).prod : ℕ) := by
      rw [List.drop_eq_getElem_cons hlt, List.prod_cons, Tensor.length,
        List.getD_eq_getElem _ _ hlt]
      push_cast
      rfl
    rw [hvisit, loops_open hlen, loops_open hlen, List.append_assoc, List.append_assoc, hstride]
    exact (nest_dense_merge _ rest m _ _).symm
  · rw [visit_new hone hnext, loops_new h, List.append_assoc]
    rfl

/-- The loop over the axes. -/
theorem nest_foldl (perm : List ℕ) (h : f.Open) :
    (perm.foldl (Fusing.visit input) f).Open ∧
      nest (dense ((perm.foldl (Fusing.visit input) f).loops input)) =
        nest (dense (f.loops input ++ perm.map (axis input))) := by
  induction perm generalizing f with
  | nil => exact ⟨h, by rw [List.map_nil, List.append_nil, List.foldl_nil]⟩
  | cons a perm ih =>
    obtain ⟨hopen, hnest⟩ := ih (h.visit a)
    exact ⟨hopen, hnest.trans (nest_visit h a _)⟩

end Fusing

/-! ### Order of the axes -/

/-- An axis as a loop. -/
def Axis.loop (a : Axis) : Loop := ⟨a.shape, a.inputStride, a.outputStride⟩

theorem map_loop_zipWith (shapes strides : List ℕ) (h : strides.length = shapes.length) :
    (List.zipWith (fun p outputStride => Axis.mk p.1 p.2 outputStride) (shapes.zip strides)
      (computeStride shapes)).map Axis.loop =
      dense (shapes.zip (strides.map fun n : ℕ => (n : ℤ))) := by
  induction shapes generalizing strides with
  | nil => rfl
  | cons m shapes ih =>
    obtain ⟨s, strides, rfl⟩ := List.exists_cons_of_length_eq_add_one h
    have hlen : strides.length = shapes.length := Nat.succ_injective h
    have hfst : (shapes.zip (strides.map fun n : ℕ => (n : ℤ))).map Prod.fst = shapes :=
      List.map_fst_zip (by rw [List.length_map, hlen])
    rw [computeStride, List.zip_cons_cons, List.zipWith_cons_cons, List.map_cons, ih strides hlen,
      List.map_cons, List.zip_cons_cons, dense, hfst]
    rfl

/-- The fused axes visit what the axes of the input visit. -/
theorem nest_fusedAxes (input : Tensor) (perm : List ℕ) :
    nest ((fusedAxes input perm).map Axis.loop) = nest (dense (perm.map (axis input))) := by
  obtain ⟨hopen, hnest⟩ := @Fusing.nest_foldl input {} perm (.inl rfl)
  rw [fusedAxes, map_loop_zipWith _ _ hopen.length_close]
  exact hnest

theorem swap_perm {axes : List Axis} {i j : ℕ} (hi : i < axes.length) (hj : j < axes.length) :
    (swap axes i j).Perm axes := by
  rw [swap, List.getD_eq_getElem _ _ hi, List.getD_eq_getElem _ _ hj]
  exact List.set_set_perm hi hj

namespace Moving

theorem place_perm {m : Moving} {i : ℕ} (hi : i < m.axes.length)
    (hlast : m.lastIndex < m.axes.length) : (m.place i).axes.Perm m.axes := by
  by_cases h : i = m.lastIndex
  · rw [place, if_neg (not_not.2 h)]
  · rw [place, if_pos h]
    exact swap_perm hi hlast

/-- A pass leaves the axes alone or exchanges two of them. -/
theorem step_cases (m : Moving) (i : ℕ) :
    (m.step i).axes = m.axes ∧ (m.step i).lastIndex = m.lastIndex ∨
      (m.step i).axes = (m.place i).axes ∧ (m.step i).lastIndex = m.lastIndex - 1 := by
  unfold step
  dsimp only
  split_ifs
  · exact .inr ⟨rfl, rfl⟩
  · exact .inr ⟨rfl, rfl⟩
  · exact .inr ⟨rfl, rfl⟩
  · exact .inl ⟨rfl, rfl⟩

theorem run_perm (size i : ℕ) {m : Moving} (hi : i ≤ m.axes.length)
    (hlast : m.lastIndex < m.axes.length) : (m.run size i).axes.Perm m.axes := by
  induction i generalizing m with
  | zero => exact .refl _
  | succ i ih =>
    have hstep : (m.step i).axes.Perm m.axes ∧ (m.step i).lastIndex ≤ m.lastIndex := by
      obtain ⟨haxes, hindex⟩ | ⟨haxes, hindex⟩ := m.step_cases i
      · exact ⟨.of_eq haxes, hindex.le⟩
      · exact ⟨haxes ▸ place_perm hi hlast, by omega⟩
    obtain ⟨hperm, hle⟩ := hstep
    have hlen := hperm.length_eq
    rw [run]
    split_ifs
    · exact hperm
    · exact (ih (by omega) (by omega)).trans hperm

end Moving

/-- Only the order of the axes changes. -/
theorem reorder_perm (axes : List Axis) : (reorder axes).Perm axes := by
  rw [reorder]
  split_ifs with h
  · have hpos : 0 < axes.length := by
      simp only [isReorderShape, Bool.or_eq_true, Bool.and_eq_true, decide_eq_true_eq] at h
      omega
    exact Moving.run_perm _ _ le_rfl (Nat.sub_lt hpos Nat.one_pos)
  · exact .refl axes

/-! ### Regions of a list of axes -/

theorem address_map_cast (strides : List ℕ) (i : List ℕ) :
    address (strides.map fun n : ℕ => (n : ℤ)) i = dot i strides := by
  induction strides generalizing i with
  | nil => cases i <;> rfl
  | cons s strides ih =>
    cases i with
    | nil => rfl
    | cons k i =>
      rw [List.map_cons, address_cons, ih, dot_cons]
      push_cast
      rfl

/-- The coordinates of the outer loop. -/
theorem map_unravelIndexHelper (shape : List ℕ) :
    (Multiset.range shape.prod).map (unravelIndexHelper (computeStride shape)) = coords shape := by
  refine @coords_eq_map (fun l => unravelIndexHelper (computeStride l)) (fun m => rfl)
    (fun n l k m hm => ?_) shape
  rw [computeStride, unravelIndexHelper, Nat.mul_comm k, Nat.mul_add_div (by omega),
    Nat.mul_add_mod, Nat.div_eq_of_lt hm, Nat.mod_eq_of_lt hm, Nat.add_zero]

theorem lastAxis_append (front : List Axis) (a b c : Axis) (k : Fin 3) :
    lastAxis (front ++ [a, b, c]) k = [a, b, c].getD k {} := by
  have hlen : (front ++ [a, b, c]).length = front.length + 3 := by
    rw [List.length_append]
    rfl
  rw [lastAxis, if_neg (by omega), hlen, Nat.add_right_comm, Nat.add_sub_cancel,
    List.getD_append_right _ _ _ _ (Nat.le_add_right _ _), Nat.add_sub_cancel_left]

/-- The axes of a region are the last ones. -/
theorem nest_lastAxis {front last : List Axis} (h : last.length ≤ 3)
    (hfront : front ≠ [] → last.length = 3) :
    nest [(lastAxis (front ++ last) 0).loop, (lastAxis (front ++ last) 1).loop,
      (lastAxis (front ++ last) 2).loop] = nest (last.map Axis.loop) := by
  have hnil : last.length < 3 → front = [] := fun hlt => by_contra fun h => hlt.ne (hfront h)
  match last, h with
  | [a, b, c], _ =>
    rw [lastAxis_append, lastAxis_append, lastAxis_append]
    rfl
  | [a, b], _ =>
    rw [hnil (Nat.lt_succ_self 2)]
    exact nest_unit rfl _
  | [a], _ =>
    rw [hnil (Nat.lt_of_sub_pos Nat.two_pos)]
    exact (nest_unit rfl _).trans (nest_unit rfl _)
  | [], _ =>
    rw [hnil (Nat.zero_lt_succ 2)]
    exact (nest_unit rfl _).trans ((nest_unit rfl _).trans (nest_unit rfl _))

/-- The regions of a list of axes visit what the loops over them visit. -/
theorem writes_permuteRegions (r : Ref) (axes : List Axis) :
    writes (permuteRegions r axes) = nest (axes.map Axis.loop) := by
  obtain ⟨front, last, hfront, haxes, hlast, hlen⟩ : ∃ front last,
      front = axes.take (axes.length - 3) ∧ axes = front ++ last ∧ last.length ≤ 3 ∧
        (front ≠ [] → last.length = 3) := by
    refine ⟨_, _, rfl, (List.take_append_drop (axes.length - 3) axes).symm, ?_, fun hne => ?_⟩
    · rw [List.length_drop]
      omega
    · have hpos := List.length_pos_iff.2 hne
      rw [List.length_take] at hpos
      rw [List.length_drop]
      omega
  have hloop : ∀ k, ((lastAxis axes k).loop) =
      ⟨((lastAxis axes k).shape : ℤ).toNat, (lastAxis axes k).inputStride,
        (lastAxis axes k).outputStride⟩ := fun k => by rw [Int.toNat_natCast]; rfl
  have hinner := nest_lastAxis hlast hlen
  rw [← haxes, hloop, hloop, hloop] at hinner
  simp only [writes, region_eq_nest]
  simp only [permuteRegions, ← hfront, ← Multiset.map_coe, Multiset.coe_range, Multiset.bind_map,
    hinner]
  conv_rhs => rw [haxes, List.map_append, nest_append, nest_eq_coords, Multiset.bind_map]
  rw [List.map_map, List.map_map, List.map_map]
  have hshape : Loop.extent ∘ Axis.loop = Axis.shape := rfl
  rw [hshape, ← map_unravelIndexHelper, Multiset.bind_map]
  refine Multiset.bind_congr fun n _ => Multiset.map_congr rfl fun p _ => ?_
  have hnear : front.map (Loop.near ∘ Axis.loop) =
      (front.map Axis.inputStride).map fun n : ℕ => (n : ℤ) := by
    rw [List.map_map]
    rfl
  have hfar : front.map (Loop.far ∘ Axis.loop) =
      (front.map Axis.outputStride).map fun n : ℕ => (n : ℤ) := by
    rw [List.map_map]
    rfl
  rw [hnear, hfar, address_map_cast, address_map_cast]

/-- The pairs of addresses of a transposition. -/
theorem writes_computePermuteRegion (input : Tensor) (r : Ref) {newshape : Option (List ℕ)}
    (h : ((permutation input.dimensions newshape).map input.length).prod = input.rawSize) :
    writes (computePermuteRegion input r newshape) =
      nest (dense ((permutation input.dimensions newshape).map (axis input))) := by
  rw [← nest_fusedAxes]
  by_cases hnil : fusedAxes input (permutation input.dimensions newshape) = []
  · have hcard :=
      card_nest ((fusedAxes input (permutation input.dimensions newshape)).map Axis.loop)
    rw [nest_fusedAxes, card_nest, dense_extent, List.map_map] at hcard
    have hone : input.rawSize = 1 := by
      rw [← h]
      exact hcard.trans (by rw [hnil]; rfl)
    rw [computePermuteRegion, if_pos hnil, hnil, List.map_nil, writes, Multiset.coe_singleton,
      Multiset.singleton_bind, region_eq_nest]
    simp only [Tensor.makeFullSlice, hone, Matrix.cons_val]
    rw [nest_unit rfl, nest_unit rfl, nest_unit rfl]
    rfl
  · rw [computePermuteRegion, if_neg hnil, writes_permuteRegions]
    exact nest_perm ((reorder_perm _).map _)

/-! ### Transposition -/

/-- The index of the input at an index of the output: axis `perm[k]` of the input is axis `k`. -/
def permutedIndex (perm i : List ℕ) : List ℕ :=
  (List.range perm.length).map fun a => i.getD (perm.idxOf a) 0

example : permutedIndex [2, 0, 1] [5, 6, 7] = [6, 7, 5] := by decide

theorem map_length_range (input : Tensor) :
    (List.range input.dimensions).map input.length = input.shape := by
  refine List.ext_getElem ?_ fun k _ hk => ?_
  · rw [List.length_map, List.length_range, Tensor.dimensions]
  · rw [List.getElem_map, List.getElem_range, Tensor.length, List.getD_eq_getElem _ _ hk]

theorem computeStride_eq (shape : List ℕ) :
    computeStride shape = (List.range shape.length).map fun a => (shape.drop (a + 1)).prod := by
  induction shape with
  | nil => rfl
  | cons n shape ih =>
    rw [computeStride, ih, List.length_cons, List.range_succ_eq_map, List.map_cons, List.map_map]
    rfl

theorem steps_eq (shape : List ℕ) :
    steps shape = (computeStride shape).map fun n : ℕ => (n : ℤ) := by
  induction shape with
  | nil => rfl
  | cons n shape ih =>
    rw [steps, ih, computeStride, List.map_cons]

/-- The entries of a list, by the entries of a permutation. -/
theorem zipWith_map_perm {perm i : List ℕ} (hnodup : perm.Nodup) (hlen : i.length = perm.length)
    (g : ℕ → ℕ) : List.zipWith (· * ·) i (perm.map g) =
      perm.map fun a => i.getD (perm.idxOf a) 0 * g a := by
  refine List.ext_getElem ?_ fun k _ hk => ?_
  · rw [List.length_zipWith, List.length_map, List.length_map, hlen, min_self]
  · rw [List.length_map] at hk
    rw [List.getElem_zipWith, List.getElem_map, List.getElem_map, hnodup.idxOf_getElem,
      List.getD_eq_getElem _ _ (hlen ▸ hk)]

/-- The address that the loops over the permuted axes reach is that of the permuted index. -/
theorem dot_permutedIndex {input : Tensor} {perm i : List ℕ}
    (hperm : perm.Perm (List.range input.dimensions)) (hlen : i.length = perm.length) :
    dot (permutedIndex perm i) (computeStride input.shape) =
      dot i (perm.map fun a => (input.shape.drop (a + 1)).prod) := by
  have hnodup : perm.Nodup := hperm.nodup_iff.2 List.nodup_range
  have hdims : perm.length = input.shape.length := by
    rw [hperm.length_eq, List.length_range, Tensor.dimensions]
  rw [dot, dot, zipWith_map_perm hnodup hlen, permutedIndex, computeStride_eq, hdims,
    List.zipWith_map, List.zipWith_self]
  exact ((hperm.map _).sum_eq).symm

section Transpose

variable (input : Tensor) (r : Ref) {newshape : Option (List ℕ)}
  (hperm : ∀ l ∈ newshape, l.Perm (List.range input.dimensions))

theorem origin_of_mem {reg : Region Ref} (h : reg ∈ computePermuteRegion input r newshape) :
    reg.origin = r := by
  unfold computePermuteRegion at h
  by_cases hnil : fusedAxes input (permutation input.dimensions newshape) = []
  · rw [if_pos hnil, List.mem_singleton] at h
    rw [h]
    rfl
  · rw [if_neg hnil] at h
    obtain ⟨n, -, rfl⟩ := List.mem_map.1 h
    rfl

include hperm

theorem permutation_perm :
    (permutation input.dimensions newshape).Perm (List.range input.dimensions) := by
  cases newshape with
  | none =>
    have : (permutation input.dimensions none) = (List.range input.dimensions).reverse := by
      rw [List.range_eq_range', List.reverse_range']
      refine List.map_congr_left fun i hi => ?_
      rw [List.mem_range] at hi
      omega
    rw [this]
    exact List.reverse_perm _
  | some l => exact hperm l rfl

/-- The copied addresses, by the indices of the output. -/
theorem writes_eq_coords :
    let perm := permutation input.dimensions newshape
    writes (computePermuteRegion input r newshape) = (coords (perm.map input.length)).map fun i =>
      ((dot (permutedIndex perm i) (computeStride input.shape) : ℤ),
        (dot i (computeStride (perm.map input.length)) : ℤ)) := by
  intro perm
  have hp : perm.Perm (List.range input.dimensions) := permutation_perm input hperm
  have hsize : (perm.map input.length).prod = input.rawSize := by
    rw [(hp.map input.length).prod_eq, map_length_range, Tensor.rawSize]
  have hfst : (perm.map (axis input)).map Prod.fst = perm.map input.length := List.map_map
  have hsnd : (perm.map (axis input)).map Prod.snd =
      (perm.map fun a => (input.shape.drop (a + 1)).prod).map fun n : ℕ => (n : ℤ) := by
    rw [List.map_map, List.map_map]
    rfl
  rw [writes_computePermuteRegion input r hsize, nest_eq_coords, dense_extent, dense_near,
    dense_far, hfst, hsnd, steps_eq]
  refine Multiset.map_congr rfl fun i hi => ?_
  have hlen : i.length = perm.length :=
    (mem_coords.1 hi).length_eq.trans (List.length_map _)
  rw [address_map_cast, address_map_cast, dot_permutedIndex hp hlen]

/-- **Transposition.** Each address of the output is written once and no other one is, and the
element at an index of the output is that of the input at the permuted index. -/
theorem computePermuteRegion_transpose {V : Type*} [Zero V] (value : Ref → ℤ → V) :
    let perm := permutation input.dimensions newshape
    let shape := perm.map input.length
    let regions := computePermuteRegion input r newshape
    (writes regions).map Prod.snd = (Multiset.range shape.prod).map (fun n : ℕ => (n : ℤ)) ∧
      ∀ i, List.Forall₂ (· < ·) i shape →
        raster regions value (dot i (computeStride shape)) =
          value r (dot (permutedIndex perm i) (computeStride input.shape)) := by
  intro perm shape regions
  have hwrites := writes_eq_coords input r hperm
  have hout : ∀ i : List ℕ, address (steps shape) i = (dot i (computeStride shape) : ℤ) := by
    intro i
    rw [steps_eq, address_map_cast]
  have hsnd : (writes regions).map Prod.snd =
      (Multiset.range shape.prod).map fun n : ℕ => (n : ℤ) := by
    rw [hwrites, Multiset.map_map, ← map_address_coords]
    exact Multiset.map_congr rfl fun i _ => (hout i).symm
  refine ⟨hsnd, fun i hi => ?_⟩
  have hmem : ((dot (permutedIndex perm i) (computeStride input.shape) : ℤ),
      (dot i (computeStride shape) : ℤ)) ∈ writes regions := by
    rw [hwrites]
    exact Multiset.mem_map_of_mem _ (mem_coords.2 hi)
  refine raster_of_writes value ?_ (fun reg => origin_of_mem input r) hmem
  rw [hsnd]
  exact (Multiset.nodup_range _).map Nat.cast_injective

omit hperm in
/-- A tensor with five axes, two of which stay neighbours and one of which has length one. -/
theorem computePermuteRegion_transpose_five :
    let input : Tensor := { shape := [2, 3, 1, 2, 3] }
    let regions := computePermuteRegion input (.input 0) (some [3, 4, 2, 1, 0])
    raster regions (fun _ s => s + 1) 29 = (35 : ℤ) := by
  intro input regions
  have hperm : ∀ l ∈ some [3, 4, 2, 1, 0], l.Perm (List.range input.dimensions) := by
    intro l hl
    obtain rfl : [3, 4, 2, 1, 0] = l := Option.some.inj hl
    decide
  have h := (computePermuteRegion_transpose input (.input 0) hperm fun _ s => s + 1).2
    [1, 1, 0, 2, 1] (by decide)
  exact h

end Transpose

end Mnn.Permute
