import Mnn.Geometry.TensorArray
import Mathlib.Data.List.GetD

/-!
# The invariant of tensor arrays

* `shapeAt`, `offset`: the shape that the attributes record for an element, and where it starts;
  `getElemSize_eq`: what `getElemSize` computes of recorded elements;
* `Inv`: every written element is recorded, and lies at its place in the flat tensor;
* `Inv.flat`, `Inv.read`, `Inv.gather`: what follows for the flat tensor and for the operators that
  return elements.
-/

namespace Mnn.TensorArray

/-! ### Places -/

/-- The recorded shape of element `i`. -/
def shapeAt (attr : Attr) (i : ℕ) : List ℕ :=
  if attr.isIdenticalShape = false ∧ i < attr.elemShape.length then attr.elemShape.getD i []
  else attr.elemShape.headD []

/-- Where element `i` starts. -/
def offset (attr : Attr) (i : ℕ) : ℕ := ((List.range i).map fun j => (shapeAt attr j).prod).sum

/-- Element `i` has a shape in the attributes. -/
def Recorded (attr : Attr) (i : ℕ) : Prop :=
  if attr.isIdenticalShape = true then attr.elemShape ≠ [] else i < attr.elemShape.length

theorem recorded_of_ne_nil {attr : Attr} (hid : attr.isIdenticalShape = true)
    (h : attr.elemShape ≠ []) (i : ℕ) : Recorded attr i := by
  rwa [Recorded, if_pos hid]

theorem recorded_of_lt {attr : Attr} (hid : attr.isIdenticalShape = false) {i : ℕ}
    (h : i < attr.elemShape.length) : Recorded attr i := by
  rwa [Recorded, hid, if_neg Bool.false_ne_true]

theorem readShape_natCast (attr : Attr) (i : ℕ) : readShape attr i = shapeAt attr i := by
  rw [readShape, shapeAt]
  simp only [Int.natCast_nonneg, true_and, Nat.cast_lt, Int.toNat_natCast]

@[simp] theorem offset_zero (attr : Attr) : offset attr 0 = 0 := rfl

theorem offset_succ (attr : Attr) (i : ℕ) :
    offset attr (i + 1) = offset attr i + (shapeAt attr i).prod := by
  rw [offset, List.range_succ, List.map_append, List.sum_append, List.map_singleton,
    List.sum_singleton]
  rfl

theorem offset_mono (attr : Attr) {i j : ℕ} (h : i ≤ j) : offset attr i ≤ offset attr j := by
  induction j, h using Nat.le_induction with
  | base => exact le_rfl
  | succ j _ ih =>
    rw [offset_succ]
    omega

/-- An element ends before the next one starts. -/
theorem end_le_offset (attr : Attr) {i j : ℕ} (h : i < j) :
    offset attr i + (shapeAt attr i).prod ≤ offset attr j := by
  rw [← offset_succ]
  exact offset_mono attr h

theorem offset_congr {attr attr' : Attr} {i : ℕ}
    (h : ∀ j < i, (shapeAt attr' j).prod = (shapeAt attr j).prod) :
    offset attr' i = offset attr i := by
  rw [offset, offset]
  refine congrArg List.sum (List.map_congr_left fun j hj => ?_)
  exact h j (List.mem_range.1 hj)

theorem shapeAt_of_identical {attr : Attr} (h : attr.isIdenticalShape = true) (i : ℕ) :
    shapeAt attr i = attr.elemShape.headD [] := by
  rw [shapeAt, if_neg]
  rw [h]
  exact fun h => Bool.noConfusion h.1

theorem shapeAt_of_lt {attr : Attr} (h : attr.isIdenticalShape = false) {i : ℕ}
    (hi : i < attr.elemShape.length) : shapeAt attr i = attr.elemShape.getD i [] := by
  rw [shapeAt, if_pos ⟨h, hi⟩]

theorem offset_of_identical {attr : Attr} (h : attr.isIdenticalShape = true) (i : ℕ) :
    offset attr i = i * (attr.elemShape.headD []).prod := by
  induction i with
  | zero => rw [offset_zero, Nat.zero_mul]
  | succ i ih => rw [offset_succ, ih, shapeAt_of_identical h, Nat.succ_mul]

theorem offset_eq_sum_take {attr : Attr} (h : attr.isIdenticalShape = false) {i : ℕ}
    (hi : i ≤ attr.elemShape.length) :
    offset attr i = ((attr.elemShape.take i).map List.prod).sum := by
  induction i with
  | zero => rfl
  | succ i ih =>
    rw [offset_succ, ih (by omega), shapeAt_of_lt h hi, List.take_add_one, List.map_append,
      List.sum_append, List.getD_eq_getElem _ _ hi, List.getElem?_eq_getElem hi]
    simp

theorem getElemSize_eq {attr : Attr} {i : ℕ} (h : Recorded attr i) :
    getElemSize attr i = ((offset attr i : ℤ), ((shapeAt attr i).prod : ℤ)) := by
  have hneg : ¬ (i : ℤ) < 0 := by omega
  rw [getElemSize]
  simp only [if_neg hneg, Int.natCast_nonneg, true_and, Nat.cast_lt, Int.toNat_natCast]
  cases hid : attr.isIdenticalShape with
  | true =>
    rw [if_neg fun h => Bool.noConfusion h.1, offset_of_identical hid, shapeAt_of_identical hid]
    rw [Recorded, if_pos hid] at h
    cases hshape : attr.elemShape with
    | nil => exact absurd hshape h
    | cons shape shapes =>
      simp only [List.headD_cons]
      push_cast
      rfl
  | false =>
    rw [Recorded, hid, if_neg Bool.false_ne_true] at h
    rw [if_pos ⟨rfl, h⟩, offset_eq_sum_take hid h.le, shapeAt_of_lt hid h]

/-! ### Copies -/

theorem blit_copies {origin : Source} {src dst size s o : ℤ} :
    (blit origin src dst size).Copies s o ↔ dst ≤ o ∧ o < dst + size ∧ s = src + (o - dst) := by
  constructor
  · rintro ⟨i, hi, rfl, rfl⟩
    have h0 := hi 0
    have h1 := hi 1
    have h2 := hi 2
    simp only [blit, View.address, Matrix.cons_val_zero, Matrix.cons_val_one, Matrix.cons_val] at *
    omega
  · rintro ⟨hle, hlt, rfl⟩
    refine ⟨![o - dst, 0, 0], fun k => ?_, ?_, ?_⟩
    · fin_cases k
      · simp [blit]
        omega
      · simp [blit]
      · simp [blit]
    · simp [blit, View.address]
    · simp [blit, View.address]

theorem keep_false (src dst size : ℤ) : keep false src dst size = blit .flow src dst size := by
  simp only [keep, blit, Bool.false_eq_true, if_false]
  congr
  funext k
  fin_cases k <;> rfl

theorem keep_copies {firstWrite : Bool} {src dst size s o : ℤ}
    (h : (keep firstWrite src dst size).Copies s o) : dst ≤ o ∧ o < dst + size := by
  obtain ⟨i, hi, -, rfl⟩ := h
  have h0 := hi 0
  have h1 := hi 1
  have h2 := hi 2
  simp only [keep, View.address, Matrix.cons_val_zero, Matrix.cons_val_one, Matrix.cons_val] at *
  omega

/-! ### The invariant -/

variable {V : Type*} [Zero V]

theorem Elem.content_of_getElem? {e : Elem V} {k : ℕ} {x : V} (h : e.data[k]? = some x) :
    e.content k = x := by
  rw [Elem.content, Int.toNat_natCast, List.getD_eq_getElem?_getD, h]
  rfl

omit [Zero V] in
theorem Elem.lt_of_getElem? {e : Elem V} {k : ℕ} {x : V} (h : e.data[k]? = some x) :
    k < e.shape.prod := by
  rw [← e.length_eq]
  exact (List.getElem?_eq_some_iff.1 h).1

/-- Every written element is recorded, and lies at its place. -/
structure Inv (s : State V) : Prop where
  arraySize : s.array.attr.arraySize = s.elems.length
  uniform : s.array.attr.isIdenticalShape = true → s.array.attr.elemShape.length ≤ 1
  bounded : s.array.attr.elemShape.length ≤ max 1 s.elems.length
  recorded : ∀ i e, s.elems.Written i e → Recorded s.array.attr i
  shape : ∀ i e, s.elems.Written i e → shapeAt s.array.attr i = e.shape
  content : ∀ i e, s.elems.Written i e → ∀ k < e.shape.prod,
    s.array.content ((offset s.array.attr i + k : ℕ)) = e.content k

omit [Zero V] in
theorem Elems.Written.lt {elems : Elems V} {i : ℕ} {e : Elem V} (h : elems.Written i e) :
    i < elems.length := (List.getElem?_eq_some_iff.1 h).1

omit [Zero V] in
theorem written_of_map {elems : Elems V} {es : List (Elem V)} (h : elems = es.map some) {i : ℕ}
    {e : Elem V} (he : es[i]? = some e) : elems.Written i e := by
  rw [Elems.Written, h, List.getElem?_map, he]
  rfl

theorem start_inv (dynamic_size identical_element_shapes : Bool) (element_shape : List ℤ)
    (size : ℕ) :
    Inv (start (V := V) dynamic_size identical_element_shapes element_shape size) := by
  have hnone : ∀ i (e : Elem V), ¬ Elems.Written (List.replicate size none) i e := by
    intro i e h
    rw [Elems.Written, List.getElem?_replicate] at h
    split at h <;> cases h
  have hlen : (createAttr dynamic_size identical_element_shapes element_shape size).elemShape.length
      ≤ 1 := by
    rw [createAttr]
    split <;> simp
  exact ⟨by simp [start, create, createAttr], fun _ => hlen,
    hlen.trans (le_max_left _ _), fun i e h => absurd h (hnone i e),
    fun i e h => absurd h (hnone i e), fun i e h => absurd h (hnone i e)⟩

namespace Inv

variable {s : State V} (h : Inv s)

include h

theorem getElemSize_eq {i : ℕ} {e : Elem V} (hi : s.elems.Written i e) :
    getElemSize s.array.attr i = ((offset s.array.attr i : ℤ), (e.shape.prod : ℤ)) := by
  rw [TensorArray.getElemSize_eq (h.recorded i e hi), h.shape i e hi]

theorem readShape_eq {i : ℕ} {e : Elem V} (hi : s.elems.Written i e) :
    readShape s.array.attr i = e.shape := by
  rw [readShape_natCast, h.shape i e hi]

/-- A copy of an element. -/
theorem blit_eq {i : ℕ} {e : Elem V} (hi : s.elems.Written i e) {k : ℕ} {x : V}
    (hx : e.data[k]? = some x) :
    s.array.content (offset s.array.attr i + k) = x := by
  have hcontent := h.content i e hi k (Elem.lt_of_getElem? hx)
  rw [Elem.content_of_getElem? hx] at hcontent
  exact_mod_cast hcontent

theorem read_is {i : ℕ} {e : Elem V} (hi : s.elems.Written i e) :
    (read s.array i).Is e.shape e.data := by
  refine ⟨h.readShape_eq hi, fun k x hx => ?_⟩
  have hk := Elem.lt_of_getElem? hx
  rw [TensorArray.read, h.getElemSize_eq hi]
  refine raster_of_agree ⟨_, List.mem_singleton_self _, _, blit_copies.2 ⟨?_, ?_, rfl⟩⟩ ?_
  · omega
  · omega
  · intro r hr t ht
    rw [List.mem_singleton.1 hr] at ht ⊢
    obtain ⟨-, -, rfl⟩ := blit_copies.1 ht
    rw [sub_zero]
    exact h.blit_eq hi hx

end Inv

/-! ### Concatenations -/

omit [Zero V] in
/-- A concatenation is where its parts are. -/
theorem content_flatMap (content : ℤ → V) (start : ℕ) (es : List (Elem V))
    (h : ∀ i e, es[i]? = some e → ∀ k x, e.data[k]? = some x →
      content ((start + ((es.take i).map fun e => e.shape.prod).sum + k : ℕ)) = x) :
    ∀ k x, (es.flatMap Elem.data)[k]? = some x → content ((start + k : ℕ)) = x := by
  induction es generalizing start with
  | nil => exact fun k x hx => by cases hx
  | cons e es ih =>
    intro k x hx
    rw [List.flatMap_cons] at hx
    by_cases hk : k < e.data.length
    · rw [List.getElem?_append_left hk] at hx
      simpa using h 0 e rfl k x hx
    · rw [List.getElem?_append_right (by omega), e.length_eq] at hx
      rw [e.length_eq] at hk
      have hrest := ih (start + e.shape.prod) (fun i e' he' k x hx => ?_) _ x hx
      · rwa [show start + e.shape.prod + (k - e.shape.prod) = start + k by omega] at hrest
      · have := h (i + 1) e' he' k x hx
        rw [List.take_succ_cons, List.map_cons, List.sum_cons] at this
        rwa [show start + e.shape.prod + ((es.take i).map fun e => e.shape.prod).sum + k =
          start + (e.shape.prod + ((es.take i).map fun e => e.shape.prod).sum) + k by omega]

omit [Zero V] in
theorem length_flatMap_data (es : List (Elem V)) :
    (es.flatMap Elem.data).length = (es.map fun e => e.shape.prod).sum := by
  rw [List.length_flatMap]
  exact congrArg List.sum (List.map_congr_left fun e _ => e.length_eq)

omit [Zero V] in
/-- The recorded shapes of a list of written elements. -/
theorem offset_eq_of_shapes {attr : Attr} {es : List (Elem V)}
    (h : ∀ i e, es[i]? = some e → shapeAt attr i = e.shape) {i : ℕ} (hi : i ≤ es.length) :
    offset attr i = ((es.take i).map fun e => e.shape.prod).sum := by
  induction i with
  | zero => rfl
  | succ i ih =>
    have hlt : i < es.length := hi
    rw [offset_succ, ih (by omega), h i es[i] (List.getElem?_eq_getElem hlt), List.take_add_one,
      List.map_append, List.sum_append, List.getElem?_eq_getElem hlt]
    simp

namespace Inv

variable {s : State V} (h : Inv s) {es : List (Elem V)} (hes : s.elems = es.map some)

include h hes

theorem offset_eq {i : ℕ} (hi : i ≤ es.length) :
    offset s.array.attr i = ((es.take i).map fun e => e.shape.prod).sum :=
  offset_eq_of_shapes (fun i e he => h.shape i e (written_of_map hes he)) hi

/-- The flat tensor is the concatenation of the elements. -/
theorem flat_eq : (List.range (es.flatMap Elem.data).length).map (fun k : ℕ => s.array.content k) =
    es.flatMap Elem.data := by
  have hcontent := content_flatMap s.array.content 0 es fun i e he k x hx => ?_
  · refine List.ext_getElem (by rw [List.length_map, List.length_range]) fun k hk hk' => ?_
    rw [List.getElem_map, List.getElem_range]
    have := hcontent k _ (List.getElem?_eq_getElem hk')
    rwa [Nat.zero_add] at this
  · have hi : i ≤ es.length := (List.getElem?_eq_some_iff.1 he).1.le
    rw [Nat.zero_add, ← h.offset_eq hes hi]
    exact_mod_cast h.blit_eq (written_of_map hes he) hx

/-- The number of elements is that of the recorded shapes, when each element has its own. -/
theorem length_elemShape (hid : s.array.attr.isIdenticalShape = false) (hne : es ≠ []) :
    s.array.attr.elemShape.length = es.length := by
  have hlen : s.elems.length = es.length := by rw [hes, List.length_map]
  have hpos : 0 < es.length := List.length_pos_iff.2 hne
  have hbounded := h.bounded
  have hlast := h.recorded (es.length - 1) _
    (written_of_map hes (List.getElem?_eq_getElem (Nat.sub_lt hpos Nat.one_pos)))
  rw [Recorded, hid, if_neg Bool.false_ne_true] at hlast
  omega

/-- The one recorded shape, when the elements share it. -/
theorem elemShape_eq (hid : s.array.attr.isIdenticalShape = true) (hne : es ≠ []) :
    ∃ shape : List ℕ, s.array.attr.elemShape = [shape] ∧ ∀ e ∈ es, e.shape = shape := by
  have hshape : ∀ (i : ℕ) (e : Elem V), es[i]? = some e →
      e.shape = s.array.attr.elemShape.headD [] := by
    intro i e he
    rw [← h.shape i e (written_of_map hes he), shapeAt_of_identical hid]
  have hrec := h.recorded 0 _ (written_of_map hes (List.getElem?_eq_getElem
    (List.length_pos_iff.2 hne)))
  rw [Recorded, if_pos hid] at hrec
  have huniform := h.uniform hid
  cases hattr : s.array.attr.elemShape with
  | nil => exact absurd hattr hrec
  | cons shape shapes =>
    rw [hattr, List.length_cons] at huniform
    have hnil : shapes = [] := List.length_eq_zero_iff.1 (by omega)
    refine ⟨shape, by rw [hnil], fun e he => ?_⟩
    obtain ⟨i, hi⟩ := List.mem_iff_getElem?.1 he
    rw [hshape i e hi, hattr, List.headD_cons]

theorem flatLength_eq (hne : (es.flatMap Elem.data).length ≠ 0) :
    flatLength s.array.attr = (es.flatMap Elem.data).length := by
  have hes' : es ≠ [] := by
    rintro rfl
    exact hne rfl
  have hsize : s.array.attr.arraySize = es.length := by
    rw [h.arraySize, hes, List.length_map]
  have htotal : offset s.array.attr es.length = (es.flatMap Elem.data).length := by
    rw [h.offset_eq hes le_rfl, List.take_length, length_flatMap_data]
  rw [← htotal] at hne ⊢
  cases hid : s.array.attr.isIdenticalShape with
  | true =>
    obtain ⟨shape, hattr, -⟩ := h.elemShape_eq hes hid hes'
    rw [offset_of_identical hid, hattr, List.headD_cons] at hne ⊢
    rw [flatLength, hattr, hsize]
    simp only [List.map_singleton, List.sum_singleton, List.length_singleton, true_and]
    have hpos : 0 < es.length := List.length_pos_iff.2 hes'
    by_cases hone : 1 < es.length
    · rw [if_pos hone, Nat.mul_comm]
    · have hlen : es.length = 1 := by omega
      rw [hlen, Nat.one_mul] at hne ⊢
      rw [if_neg (by omega), if_neg hne]
  | false =>
    have hlen := h.length_elemShape hes hid hes'
    rw [offset_eq_sum_take hid hlen.ge, ← hlen, List.take_length] at hne ⊢
    rw [flatLength, hsize, if_neg (by omega), if_neg hne]

end Inv

/-! ### Gather -/

/-- The regions of a gather, from `dstOffset` on. -/
def gatherFrom (attr : Attr) : ℤ → List ℕ → List (Region Source)
  | _, [] => []
  | dstOffset, index :: indices =>
    blit .flow (getElemSize attr index).1 dstOffset (getElemSize attr index).2 ::
      gatherFrom attr (dstOffset + (getElemSize attr index).2) indices

theorem regionsGather_eq (attr : Attr) (indices : List ℕ) :
    regionsGather attr indices = gatherFrom attr 0 indices := by
  have key : ∀ (indices : List ℕ) (p : List (Region Source) × ℤ), (indices.foldl
      (fun (p : List (Region Source) × ℤ) (index : ℕ) =>
        (p.1 ++ [blit .flow (getElemSize attr index).1 p.2 (getElemSize attr index).2],
          p.2 + (getElemSize attr index).2)) p).1 = p.1 ++ gatherFrom attr p.2 indices := by
    intro indices
    induction indices with
    | nil => exact fun p => (List.append_nil _).symm
    | cons index indices ih =>
      intro p
      rw [List.foldl_cons, ih, gatherFrom, List.append_assoc]
      rfl
  exact key indices ([], 0)

namespace Inv

variable {s : State V} (h : Inv s)

include h

theorem gatherFrom_ge {indices : List ℕ} {es : List (Elem V)} {dstOffset : ℤ}
    (hread : indices.map (fun i => s.elems[i]?) = es.map (some ∘ some)) :
    ∀ r ∈ gatherFrom s.array.attr dstOffset indices, ∀ t o, r.Copies t o → dstOffset ≤ o := by
  induction indices generalizing es dstOffset with
  | nil => exact fun r hr => absurd hr List.not_mem_nil
  | cons index indices ih =>
    cases es with
    | nil => cases hread
    | cons e es =>
      obtain ⟨hi, hread⟩ := List.cons_eq_cons.1 hread
      have hsize := h.getElemSize_eq (i := index) (e := e) hi
      intro r hr t o ht
      rcases List.mem_cons.1 hr with rfl | hr
      · exact (blit_copies.1 ht).1
      · have := ih hread r hr t o ht
        rw [hsize] at this
        simp only at this
        omega

/-- One region for each index, one behind the other. -/
theorem gatherFrom_copies {indices : List ℕ} {es : List (Elem V)} (dstOffset : ℤ)
    (hread : indices.map (fun i => s.elems[i]?) = es.map (some ∘ some)) {k : ℕ} {x : V}
    (hx : (es.flatMap Elem.data)[k]? = some x) :
    (∃ r ∈ gatherFrom s.array.attr dstOffset indices, ∃ t, r.Copies t (dstOffset + k)) ∧
      ∀ r ∈ gatherFrom s.array.attr dstOffset indices, ∀ t, r.Copies t (dstOffset + k) →
        sources s.array.content 0 r.origin t = x := by
  induction indices generalizing es dstOffset k with
  | nil =>
    cases es with
    | nil => cases hx
    | cons e es => cases hread
  | cons index indices ih =>
    cases es with
    | nil => cases hread
    | cons e es =>
      obtain ⟨hi, hread⟩ := List.cons_eq_cons.1 hread
      have hsize := h.getElemSize_eq (i := index) (e := e) hi
      rw [List.flatMap_cons] at hx
      rw [gatherFrom, hsize]
      simp only
      by_cases hk : k < e.data.length
      · rw [List.getElem?_append_left hk] at hx
        rw [e.length_eq] at hk
        refine ⟨⟨_, List.mem_cons_self, _, blit_copies.2 ⟨by omega, by omega, rfl⟩⟩, ?_⟩
        intro r hr t ht
        rcases List.mem_cons.1 hr with rfl | hr
        · obtain ⟨-, -, rfl⟩ := blit_copies.1 ht
          rw [add_sub_cancel_left]
          exact h.blit_eq hi hx
        · have := h.gatherFrom_ge hread r hr t _ ht
          omega
      · rw [List.getElem?_append_right (by omega), e.length_eq] at hx
        rw [e.length_eq] at hk
        obtain ⟨⟨r, hr, t, ht⟩, hall⟩ := ih (dstOffset + e.shape.prod) hread hx
        have hplace : dstOffset + (e.shape.prod : ℤ) + ((k - e.shape.prod : ℕ) : ℤ) =
            dstOffset + k := by omega
        rw [hplace] at ht hall
        refine ⟨⟨r, List.mem_cons_of_mem _ hr, t, ht⟩, fun r' hr' t' ht' => ?_⟩
        rcases List.mem_cons.1 hr' with rfl | hr'
        · have := (blit_copies.1 ht').2.1
          omega
        · exact hall r' hr' t' ht'

omit [Zero V] h in
theorem gatherShape_eq {element_shape : List ℤ} {count : ℕ} {shape : List ℕ}
    (hkept : GatherKept s.array.attr element_shape shape) :
    gatherShape s.array.attr element_shape count = count :: shape := by
  obtain ⟨hlen, hdim⟩ := hkept
  rw [gatherShape]
  cases hempty : element_shape.isEmpty with
  | true =>
    rw [List.isEmpty_iff.1 hempty, List.length_nil] at hlen
    rw [if_pos rfl, List.length_eq_zero_iff.1 hlen.symm]
  | false =>
    rw [if_neg Bool.false_ne_true]
    refine congrArg (List.cons count) (List.ext_getElem? fun i => ?_)
    rw [List.getElem?_mapIdx]
    cases hi : element_shape[i]? with
    | none =>
      have : shape.length ≤ i := hlen ▸ List.getElem?_eq_none_iff.1 hi
      rw [List.getElem?_eq_none this]
      rfl
    | some dimValue =>
      have hlt : i < shape.length := hlen ▸ (List.getElem?_eq_some_iff.1 hi).1
      rw [Option.map_some, hdim i dimValue hi, List.getD_eq_getElem _ _ hlt,
        List.getElem?_eq_getElem hlt]

theorem gather_is {element_shape : List ℤ} {indices : List ℕ} {es : List (Elem V)}
    {shape : List ℕ} (hread : indices.map (fun i => s.elems[i]?) = es.map (some ∘ some))
    (hkept : GatherKept s.array.attr element_shape shape) :
    (gather s.array element_shape indices).Is (indices.length :: shape) (es.flatMap Elem.data) := by
  refine ⟨gatherShape_eq hkept, fun k x hx => ?_⟩
  obtain ⟨hex, hall⟩ := h.gatherFrom_copies 0 hread hx
  rw [gather, regionsGather_eq]
  rw [zero_add] at hex hall
  exact raster_of_agree hex hall

end Inv

end Mnn.TensorArray
