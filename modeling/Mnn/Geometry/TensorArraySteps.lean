import Mnn.Geometry.TensorArrayInv

/-!
# Operations on tensor arrays

Each operation keeps the invariant, under its condition.

* `regionsWrite_value`, `regionsWrite_left`, `regionsWrite_right`: the flat tensor after
  `GeometryTensorArrayWrite`, in both modes;
* `Inv.write`, `Inv.insert`, `Inv.erase`, `Inv.scatter`: the steps.
-/

namespace Mnn.TensorArray

variable {V : Type*} [Zero V]

/-! ### The regions of a write -/

theorem regionSize_of_pos {outAttr : Attr} {index : ℤ} (h : 0 < index) :
    regionSize outAttr index ≠ 1 := by
  rw [regionSize, if_pos h]
  omega

theorem regionSize_of_lt {outAttr : Attr} {index : ℤ} (h : index < (outAttr.arraySize : ℤ) - 1) :
    regionSize outAttr index ≠ 1 := by
  rw [regionSize, if_pos h]
  omega

section RegionsWrite

variable {ins : Bool} {attr outAttr handle : Attr} {index off size : ℕ} {flow value : ℤ → V}
  (hsize : getElemSize outAttr index = ((off : ℤ), (size : ℤ))) (hpos : size ≠ 0)

include hsize hpos

/-- A region of a write is that of the value, or left of it, or right of it. -/
theorem mem_regionsWrite {r : Region Source}
    (hr : r ∈ regionsWrite ins attr outAttr handle index) :
    r = blit .value 0 off size ∨ r = keep (isFirstWrite attr) 0 0 off ∨
      r = keep (isFirstWrite attr) ((off : ℤ) + size - if ins then (size : ℤ) else 0) (off + size)
        (handleEnd handle attr.arraySize - ((off : ℤ) + size - if ins then (size : ℤ) else 0)) := by
  rw [regionsWrite, hsize] at hr
  simp only at hr
  rw [if_neg (by exact_mod_cast hpos)] at hr
  split at hr
  · exact .inl (List.mem_singleton.1 hr)
  · rcases List.mem_append.1 hr with hr | hr
    · rcases List.mem_append.1 hr with hr | hr
      · exact .inl (List.mem_singleton.1 hr)
      · exact .inr (.inl (List.mem_singleton.1 (List.mem_ite_nil_right.1 hr).2))
    · exact .inr (.inr (List.mem_singleton.1 (List.mem_ite_nil_right.1 hr).2))

theorem value_mem_regionsWrite :
    blit .value 0 off size ∈ regionsWrite ins attr outAttr handle index := by
  rw [regionsWrite, hsize]
  simp only
  rw [if_neg (by exact_mod_cast hpos)]
  split
  · exact List.mem_singleton_self _
  · exact List.mem_append_left _ (List.mem_append_left _ (List.mem_singleton_self _))

theorem left_mem_regionsWrite (hindex : 0 < index) (hoff : 0 < off) :
    keep (isFirstWrite attr) 0 0 off ∈ regionsWrite ins attr outAttr handle index := by
  rw [regionsWrite, hsize]
  simp only
  rw [if_neg (by exact_mod_cast hpos), if_neg (regionSize_of_pos (by exact_mod_cast hindex)),
    if_pos ⟨by exact_mod_cast hindex, by exact_mod_cast hoff⟩]
  exact List.mem_append_left _ (List.mem_append_right _ (List.mem_singleton_self _))

theorem right_mem_regionsWrite (hindex : (index : ℤ) < (outAttr.arraySize : ℤ) - 1)
    (hold : (0 : ℤ) < (attr.arraySize : ℤ) - index - if ins then 0 else 1)
    (hend : (0 : ℤ) < handleEnd handle attr.arraySize -
      ((off : ℤ) + size - if ins then (size : ℤ) else 0)) :
    keep (isFirstWrite attr) ((off : ℤ) + size - if ins then (size : ℤ) else 0) (off + size)
        (handleEnd handle attr.arraySize - ((off : ℤ) + size - if ins then (size : ℤ) else 0)) ∈
      regionsWrite ins attr outAttr handle index := by
  rw [regionsWrite, hsize]
  simp only
  rw [if_neg (by exact_mod_cast hpos), if_neg (regionSize_of_lt hindex)]
  exact List.mem_append_right _ (List.mem_ite_nil_right.2 ⟨⟨hold, hend⟩, List.mem_singleton_self _⟩)

/-- The written element. -/
theorem regionsWrite_value {k : ℕ} (hk : k < size) :
    raster (regionsWrite ins attr outAttr handle index) (sources flow value) ((off + k : ℕ)) =
      value k := by
  refine raster_of_agree ⟨_, value_mem_regionsWrite hsize hpos, _,
    blit_copies.2 ⟨by omega, by omega, rfl⟩⟩ fun r hr t ht => ?_
  rcases mem_regionsWrite hsize hpos hr with rfl | rfl | rfl
  · obtain ⟨-, -, rfl⟩ := blit_copies.1 ht
    change value _ = value _
    congr 1
    omega
  · have := keep_copies ht
    omega
  · have := keep_copies ht
    omega

/-- What is left of it. -/
theorem regionsWrite_left (hfirst : isFirstWrite attr = false) (hindex : 0 < index) {k : ℕ}
    (hk : k < off) :
    raster (regionsWrite ins attr outAttr handle index) (sources flow value) (k : ℕ) = flow k := by
  have hmem : keep (isFirstWrite attr) 0 0 off ∈ regionsWrite ins attr outAttr handle index :=
    left_mem_regionsWrite hsize hpos hindex (Nat.pos_of_ne_zero (by omega))
  rw [hfirst, keep_false] at hmem
  refine raster_of_agree ⟨_, hmem, _, blit_copies.2 ⟨by omega, by omega, rfl⟩⟩ fun r hr t ht => ?_
  rcases mem_regionsWrite hsize hpos hr with rfl | rfl | rfl
  · have := blit_copies.1 ht
    omega
  · rw [hfirst, keep_false] at ht ⊢
    obtain ⟨-, -, rfl⟩ := blit_copies.1 ht
    change flow _ = flow _
    congr 1
    omega
  · have := keep_copies ht
    omega

/-- What is right of it. -/
theorem regionsWrite_right (hfirst : isFirstWrite attr = false)
    (hindex : (index : ℤ) < (outAttr.arraySize : ℤ) - 1)
    (hold : (0 : ℤ) < (attr.arraySize : ℤ) - index - if ins then 0 else 1) {q : ℕ}
    (hq : (off + if ins then 0 else size) ≤ q) (hend : (q : ℤ) < handleEnd handle attr.arraySize) :
    raster (regionsWrite ins attr outAttr handle index) (sources flow value)
      ((q + if ins then size else 0 : ℕ)) = flow q := by
  have hq' : (off : ℤ) + size - (if ins then (size : ℤ) else 0) ≤ q := by
    cases ins
    · simp only [Bool.false_eq_true, if_false] at hq ⊢
      omega
    · simp only [if_true] at hq ⊢
      omega
  have hplace : ((q + if ins then size else 0 : ℕ) : ℤ) - (off + size) =
      q - ((off : ℤ) + size - if ins then (size : ℤ) else 0) := by
    cases ins
    · simp only [Bool.false_eq_true, if_false]
      omega
    · simp only [if_true]
      omega
  have hmem := right_mem_regionsWrite hsize hpos hindex hold
    (sub_pos.2 (lt_of_le_of_lt hq' hend))
  rw [hfirst, keep_false] at hmem
  refine raster_of_agree ⟨_, hmem, _, blit_copies.2 ⟨by omega, by omega, rfl⟩⟩ fun r hr t ht => ?_
  rcases mem_regionsWrite hsize hpos hr with rfl | rfl | rfl
  · have := blit_copies.1 ht
    omega
  · have := keep_copies ht
    omega
  · rw [hfirst, keep_false] at ht ⊢
    obtain ⟨-, -, rfl⟩ := blit_copies.1 ht
    change flow _ = flow _
    congr 1
    omega

end RegionsWrite

/-! ### Write -/

omit [Zero V] in
theorem length_put (elems : Elems V) (index : ℕ) (value : Elem V) :
    (elems.put index value).length = max elems.length (index + 1) := by
  rw [Elems.put, List.length_set, List.length_append, List.length_replicate]
  omega

omit [Zero V] in
theorem written_put {elems : Elems V} {index i : ℕ} {value e : Elem V} :
    (elems.put index value).Written i e ↔
      (i = index ∧ e = value) ∨ (i ≠ index ∧ elems.Written i e) := by
  have hlen : index < (elems ++
      List.replicate (index + 1 - elems.length) (none : Option (Elem V))).length := by
    rw [List.length_append, List.length_replicate]
    omega
  rw [Elems.Written, Elems.put, List.getElem?_set]
  by_cases hi : index = i
  · rw [if_pos hi, if_pos hlen, Option.some.injEq, Option.some.injEq]
    constructor
    · exact fun h => .inl ⟨hi.symm, h.symm⟩
    · rintro (⟨-, rfl⟩ | ⟨hne, -⟩)
      · rfl
      · exact absurd hi.symm hne
  · rw [if_neg hi, List.getElem?_append]
    constructor
    · intro h
      refine .inr ⟨Ne.symm hi, ?_⟩
      split at h
      · exact h
      · rw [List.getElem?_replicate] at h
        split at h <;> cases h
    · rintro (⟨heq, -⟩ | ⟨-, h⟩)
      · exact absurd heq.symm hi
      · rw [if_pos h.lt]
        exact h

section WriteAttr

variable {attr : Attr} {index : ℕ} {writeShape : List ℕ}

theorem writeAttr_identical (index : ℕ) (writeShape : List ℕ)
    (hid : attr.isIdenticalShape = true) (hlen : attr.elemShape.length ≤ 1) :
    (writeAttr attr index writeShape).elemShape = [writeShape] := by
  rw [writeAttr]
  simp only [hid, if_true]
  cases hshape : attr.elemShape with
  | nil => rfl
  | cons shape shapes =>
    rw [hshape, List.length_cons] at hlen
    rw [List.length_eq_zero_iff.1 (by omega : shapes.length = 0)]

theorem length_writeAttr (hid : attr.isIdenticalShape = false) :
    (writeAttr attr index writeShape).elemShape.length = max attr.elemShape.length (index + 1) := by
  rw [writeAttr]
  simp only [hid, Bool.false_eq_true, if_false, List.length_set, List.length_append,
    List.length_replicate]
  omega

theorem shapeAt_writeAttr (hid : attr.isIdenticalShape = false) :
    shapeAt (writeAttr attr index writeShape) index = writeShape := by
  rw [shapeAt_of_lt (by exact hid) (by rw [length_writeAttr hid]; omega), writeAttr]
  simp only [hid, Bool.false_eq_true, if_false]
  rw [List.getD_eq_getElem?_getD, List.getElem?_set_self]
  · rfl
  · rw [List.length_append, List.length_replicate]
    omega

theorem shapeAt_writeAttr_of_ne (hid : attr.isIdenticalShape = false) {i : ℕ} (hi : i ≠ index)
    (hlt : i < attr.elemShape.length) :
    shapeAt (writeAttr attr index writeShape) i = shapeAt attr i := by
  rw [shapeAt_of_lt (by exact hid) (by rw [length_writeAttr hid]; omega), shapeAt_of_lt hid hlt,
    writeAttr]
  simp only [hid, Bool.false_eq_true, if_false]
  rw [List.getD_eq_getElem?_getD, List.getElem?_set_ne (Ne.symm hi), List.getElem?_append_left hlt,
    List.getD_eq_getElem?_getD]

end WriteAttr

namespace Inv

variable {s : State V} (h : Inv s)

include h

theorem isFirstWrite_eq {i : ℕ} {e : Elem V} (hi : s.elems.Written i e) :
    isFirstWrite s.array.attr = false := by
  have hrec := h.recorded i e hi
  rw [isFirstWrite]
  cases hattr : s.array.attr.elemShape with
  | cons shape shapes => rfl
  | nil =>
    rw [Recorded, hattr] at hrec
    split at hrec
    · exact absurd rfl hrec
    · exact absurd hrec (Nat.not_lt_zero _)

theorem elemEnd_eq {i : ℕ} {e : Elem V} (hi : s.elems.Written i e) :
    elemEnd s.array.attr i = offset s.array.attr i + e.shape.prod := by
  rw [elemEnd, h.getElemSize_eq hi]

/-- The written element is recorded. -/
theorem write_recorded (index : ℕ) (value : Elem V) :
    Recorded (writeAttr s.array.attr index value.shape) index ∧
    shapeAt (writeAttr s.array.attr index value.shape) index = value.shape := by
  cases hid : s.array.attr.isIdenticalShape with
  | true =>
    have hshape := writeAttr_identical index value.shape hid (h.uniform hid)
    refine ⟨recorded_of_ne_nil (by exact hid) ?_ index, ?_⟩
    · rw [hshape]
      exact List.cons_ne_nil _ _
    · rw [shapeAt_of_identical (by exact hid), hshape]
      rfl
  | false =>
    refine ⟨recorded_of_lt (by exact hid) ?_, shapeAt_writeAttr hid⟩
    rw [length_writeAttr hid]
    omega

variable {handle : Attr} {index : ℕ} {value : Elem V}

/-- The other elements are recorded as before. -/
theorem write_others (hproper : Proper s (.write handle index value))
    (hkept : Kept s (.write handle index value)) {i : ℕ} {e : Elem V}
    (hi : s.elems.Written i e) (hne : i ≠ index) :
    Recorded (writeAttr s.array.attr index value.shape) i ∧
      shapeAt (writeAttr s.array.attr index value.shape) i = e.shape ∧
      offset (writeAttr s.array.attr index value.shape) i = offset s.array.attr i := by
  have hshape := h.shape i e hi
  have hrec := h.recorded i e hi
  cases hid : s.array.attr.isIdenticalShape with
  | true =>
    have hattr := writeAttr_identical index value.shape hid (h.uniform hid)
    have hsame : e.shape = value.shape := hproper.2 hid i e hi
    have hall : ∀ j, shapeAt (writeAttr s.array.attr index value.shape) j =
        shapeAt s.array.attr j := by
      intro j
      rw [shapeAt_of_identical (by exact hid), hattr, List.headD_cons, ← hsame, ← hshape,
        shapeAt_of_identical hid, shapeAt_of_identical hid]
    refine ⟨recorded_of_ne_nil (by exact hid) ?_ i, (hall i).trans hshape,
      offset_congr fun j _ => by rw [hall j]⟩
    rw [hattr]
    exact List.cons_ne_nil _ _
  | false =>
    rw [Recorded, hid, if_neg Bool.false_ne_true] at hrec
    refine ⟨recorded_of_lt (by exact hid) ?_, (shapeAt_writeAttr_of_ne hid hne hrec).trans hshape,
      offset_congr fun j hj => ?_⟩
    · rw [length_writeAttr hid]
      omega
    · by_cases hji : j = index
      · -- an element before a written one keeps its size
        subst hji
        rw [shapeAt_writeAttr hid]
        have hsize := (hkept.2 i e hi hj).1
        rw [TensorArray.getElemSize_eq (recorded_of_lt hid (by omega))] at hsize
        exact (Int.natCast_inj.1 hsize).symm
      · rw [shapeAt_writeAttr_of_ne hid hji (by omega)]

/-- The regions leave the new element at its place, and the others at theirs. -/
theorem write_content (hproper : Proper s (.write handle index value))
    (hkept : Kept s (.write handle index value)) {i : ℕ} {e : Elem V}
    (hi : (s.elems.put index value).Written i e) {k : ℕ} (hk : k < e.shape.prod) :
    raster (regionsWrite false s.array.attr (writeAttr s.array.attr index value.shape) handle
      index) (sources s.array.content value.content)
        ((offset (writeAttr s.array.attr index value.shape) i + k : ℕ)) = e.content k := by
  obtain ⟨hrec, hshape⟩ := h.write_recorded index value
  have hsize := TensorArray.getElemSize_eq hrec
  rw [hshape] at hsize
  rcases written_put.1 hi with ⟨rfl, rfl⟩ | ⟨hne, hi⟩
  · exact regionsWrite_value hsize (by omega) hk
  · obtain ⟨-, hshape', hoff⟩ := h.write_others hproper hkept hi hne
    have hpos : value.shape.prod ≠ 0 := by
      intro hzero
      have := hkept.1 hzero i e hi hne
      omega
    have hfirst := h.isFirstWrite_eq hi
    rw [← h.content i e hi k hk]
    rcases Nat.lt_or_gt_of_ne hne with hlt | hgt
    · have hend := end_le_offset (writeAttr s.array.attr index value.shape) hlt
      rw [hshape'] at hend
      rw [hoff] at hend ⊢
      exact regionsWrite_left hsize hpos hfirst (by omega) (by omega)
    · have hstart := end_le_offset (writeAttr s.array.attr index value.shape) hgt
      rw [hshape] at hstart
      rw [hoff] at hstart ⊢
      have hend := (hkept.2 i e hi hgt).2
      rw [h.elemEnd_eq hi, ← h.arraySize] at hend
      have hlt := hi.lt
      have harray := h.arraySize
      have hold : (writeAttr s.array.attr index value.shape).arraySize = s.array.attr.arraySize :=
        if_neg (by omega)
      refine regionsWrite_right hsize hpos hfirst (q := offset s.array.attr i + k) ?_ ?_ ?_ ?_
      · omega
      · simp only [Bool.false_eq_true, if_false]
        omega
      · simp only [Bool.false_eq_true, if_false]
        omega
      · omega

theorem write (hproper : Proper s (.write handle index value))
    (hkept : Kept s (.write handle index value)) :
    Inv (machine.step s (.write handle index value)) := by
  obtain ⟨hrec, hshape⟩ := h.write_recorded index value
  refine ⟨?_, fun hid => ?_, ?_, fun i e hi => ?_, fun i e hi => ?_, fun i e hi k hk => ?_⟩
  · have harray := h.arraySize
    have hin := hproper.1
    change (writeAttr s.array.attr index value.shape).arraySize = (s.elems.put index value).length
    rw [length_put, writeAttr]
    simp only
    split
    · omega
    · next hnot =>
      rcases hin with hlt | hdyn
      · omega
      · have : ¬ s.array.attr.arraySize ≤ index := fun hle => hnot ⟨hdyn, hle⟩
        omega
  · have hid' : s.array.attr.isIdenticalShape = true := hid
    exact (congrArg List.length (writeAttr_identical index value.shape hid' (h.uniform hid'))).le
  · have hbounded := h.bounded
    change (writeAttr s.array.attr index value.shape).elemShape.length ≤
      max 1 (s.elems.put index value).length
    rw [length_put]
    cases hid : s.array.attr.isIdenticalShape with
    | true =>
      rw [writeAttr_identical index value.shape hid (h.uniform hid), List.length_singleton]
      omega
    | false =>
      rw [length_writeAttr hid]
      omega
  · rcases written_put.1 hi with ⟨rfl, rfl⟩ | ⟨hne, hi⟩
    · exact hrec
    · exact (h.write_others hproper hkept hi hne).1
  · rcases written_put.1 hi with ⟨rfl, rfl⟩ | ⟨hne, hi⟩
    · exact hshape
    · exact (h.write_others hproper hkept hi hne).2.1
  · exact h.write_content hproper hkept hi hk

end Inv

/-! ### Insert -/

/-- The offsets, when a shape is put between the others. -/
theorem offset_shift {attr attr' : Attr} {index : ℕ}
    (hbefore : ∀ j < index, (shapeAt attr' j).prod = (shapeAt attr j).prod) {i : ℕ} (hi : index ≤ i)
    (hafter : ∀ j, index ≤ j → j < i →
      (shapeAt attr' (j + 1)).prod = (shapeAt attr j).prod) :
    offset attr' (i + 1) = offset attr i + (shapeAt attr' index).prod := by
  induction i, hi using Nat.le_induction with
  | base => rw [offset_succ, offset_congr hbefore]
  | succ i hi ih =>
    rw [offset_succ, ih fun j hj hji => hafter j hj (by omega), offset_succ,
      hafter i hi (Nat.lt_succ_self i)]
    omega

omit [Zero V] in
theorem written_insertIdx {elems : Elems V} {index i : ℕ} {value e : Elem V}
    (h : Elems.Written (elems.insertIdx index (some value)) i e) :
    (i < index ∧ elems.Written i e) ∨ (i = index ∧ e = value) ∨
      (∃ j, i = j + 1 ∧ index ≤ j ∧ elems.Written j e) := by
  rw [Elems.Written, List.getElem?_insertIdx] at h
  split at h
  · next hlt => exact .inl ⟨hlt, h⟩
  · split at h
    · next hlt heq =>
      split at h
      · exact .inr (.inl ⟨heq, (Option.some.inj (Option.some.inj h)).symm⟩)
      · cases h
    · next hlt hne => exact .inr (.inr ⟨i - 1, by omega, by omega, h⟩)

section InsertAttr

variable {attr : Attr} {position : ℤ} {insertShape : List ℕ} {index : ℕ}

theorem insertAttr_elemShape (insertShape : List ℕ) (hindex : (fromEnd attr position).toNat = index)
    (hid : attr.isIdenticalShape = true → attr.elemShape = []) :
    (insertAttr attr position insertShape).elemShape = attr.elemShape.insertIdx index insertShape := by
  rw [insertAttr, hindex]
  simp only
  rw [if_neg fun h => h.2 (hid h.1)]

variable (hindex : (fromEnd attr position).toNat = index) (hle : index ≤ attr.elemShape.length)
  (hid : attr.isIdenticalShape = false)

include hindex hle hid

theorem length_insertAttr :
    (insertAttr attr position insertShape).elemShape.length = attr.elemShape.length + 1 := by
  rw [insertAttr_elemShape _ hindex (by rw [hid]; exact nofun), List.length_insertIdx_of_le_length hle]

theorem shapeAt_insertAttr :
    shapeAt (insertAttr attr position insertShape) index = insertShape := by
  rw [shapeAt_of_lt (by exact hid) (by rw [length_insertAttr hindex hle hid]; omega),
    insertAttr_elemShape _ hindex (by rw [hid]; exact nofun), List.getD_eq_getElem?_getD,
    List.getElem?_insertIdx_self, if_pos hle]
  rfl

theorem shapeAt_insertAttr_of_lt {i : ℕ} (hi : i < index) :
    shapeAt (insertAttr attr position insertShape) i = shapeAt attr i := by
  rw [shapeAt_of_lt (by exact hid) (by rw [length_insertAttr hindex hle hid]; omega),
    insertAttr_elemShape _ hindex (by rw [hid]; exact nofun), List.getD_eq_getElem?_getD,
    List.getElem?_insertIdx_of_lt hi, shapeAt_of_lt hid (by omega), List.getD_eq_getElem?_getD]

theorem shapeAt_insertAttr_succ {i : ℕ} (hi : index ≤ i) (hlt : i < attr.elemShape.length) :
    shapeAt (insertAttr attr position insertShape) (i + 1) = shapeAt attr i := by
  rw [shapeAt_of_lt (by exact hid) (by rw [length_insertAttr hindex hle hid]; omega),
    insertAttr_elemShape _ hindex (by rw [hid]; exact nofun), List.getD_eq_getElem?_getD,
    List.getElem?_insertIdx_of_gt (by omega), shapeAt_of_lt hid hlt, List.getD_eq_getElem?_getD]
  rfl

end InsertAttr

theorem Inv.fromEnd_eq {s : State V} (h : Inv s) {position : ℤ}
    (hle : -(s.elems.length : ℤ) ≤ position) :
    fromEnd s.array.attr position = s.elems.fromEnd position := by
  rw [fromEnd, Elems.fromEnd, h.arraySize]
  split <;> omega

namespace Inv

variable {s : State V} (h : Inv s) {handle : Attr} {position : ℤ} {value : Elem V}
  (hproper : Proper s (.insert handle position value))
  (hkept : Kept s (.insert handle position value))

include h hproper hkept

theorem insert_recorded :
    Recorded (insertAttr s.array.attr position value.shape) (s.elems.fromEnd position) ∧
      shapeAt (insertAttr s.array.attr position value.shape) (s.elems.fromEnd position) =
        value.shape := by
  have hindex : (fromEnd s.array.attr position).toNat = s.elems.fromEnd position := by
    rw [h.fromEnd_eq hproper.2.1, Int.toNat_natCast]
  cases hid : s.array.attr.isIdenticalShape with
  | true =>
    by_cases hnil : s.array.attr.elemShape = []
    · have hle : s.elems.fromEnd position = 0 := by
        rcases hkept.2.2 with ⟨-, hne⟩ | ⟨hle, -⟩
        · exact absurd hnil hne
        · rw [hnil, List.length_nil] at hle
          omega
      have hattr := insertAttr_elemShape value.shape hindex fun _ => hnil
      rw [hnil, hle, List.insertIdx_zero] at hattr
      refine ⟨recorded_of_ne_nil (by exact hid) ?_ _, ?_⟩
      · rw [hattr]
        exact List.cons_ne_nil _ _
      · rw [shapeAt_of_identical (by exact hid), hattr]
        rfl
    · have hattr : (insertAttr s.array.attr position value.shape).elemShape =
          s.array.attr.elemShape := if_pos ⟨hid, hnil⟩
      refine ⟨recorded_of_ne_nil (by exact hid) (by rwa [hattr]) _, ?_⟩
      rw [shapeAt_of_identical (by exact hid), hattr]
      have hhead := hproper.2.2.2 hid
      cases hshape : s.array.attr.elemShape with
      | nil => exact absurd hshape hnil
      | cons shape shapes =>
        rw [hshape] at hhead
        exact (hhead shape rfl).symm
  | false =>
    have hle : s.elems.fromEnd position ≤ s.array.attr.elemShape.length := by
      rcases hkept.2.2 with ⟨htrue, -⟩ | ⟨hle, -⟩
      · rw [hid] at htrue
        cases htrue
      · exact hle
    refine ⟨recorded_of_lt (by exact hid) ?_, shapeAt_insertAttr hindex hle hid⟩
    rw [length_insertAttr hindex hle hid]
    omega

/-- The other elements are recorded as before, one place on if they come later. -/
theorem insert_others {i : ℕ} {e : Elem V} (hi : s.elems.Written i e) :
    let attr' := insertAttr s.array.attr position value.shape
    (i < s.elems.fromEnd position → Recorded attr' i ∧ shapeAt attr' i = e.shape ∧
        offset attr' i = offset s.array.attr i) ∧
      (s.elems.fromEnd position ≤ i → Recorded attr' (i + 1) ∧ shapeAt attr' (i + 1) = e.shape ∧
        offset attr' (i + 1) = offset s.array.attr i + value.shape.prod ∧
        offset attr' (s.elems.fromEnd position) =
          offset s.array.attr (s.elems.fromEnd position)) := by
  intro attr'
  have hindex : (fromEnd s.array.attr position).toNat = s.elems.fromEnd position := by
    rw [h.fromEnd_eq hproper.2.1, Int.toNat_natCast]
  have hshape := h.shape i e hi
  have hrec := h.recorded i e hi
  have hnew := (h.insert_recorded hproper hkept).2
  cases hid : s.array.attr.isIdenticalShape with
  | true =>
    rw [Recorded, if_pos hid] at hrec
    have hattr : attr'.elemShape = s.array.attr.elemShape := if_pos ⟨hid, hrec⟩
    have hall : ∀ j j', shapeAt attr' j = shapeAt s.array.attr j' := by
      intro j j'
      rw [shapeAt_of_identical (by exact hid), hattr, shapeAt_of_identical hid]
    have hrec' : ∀ j, Recorded attr' j := recorded_of_ne_nil (by exact hid) (by rwa [hattr])
    refine ⟨fun _ => ⟨hrec' i, (hall i i).trans hshape, offset_congr fun j _ => by rw [hall j j]⟩,
      fun hle => ⟨hrec' _, (hall _ i).trans hshape, ?_, offset_congr fun j _ => by rw [hall j j]⟩⟩
    have hoff : offset attr' (i + 1) = offset s.array.attr i +
        (shapeAt attr' (s.elems.fromEnd position)).prod :=
      offset_shift (fun j _ => by rw [hall j j]) hle fun j _ _ => by rw [hall _ j]
    rw [hoff, hnew]
  | false =>
    rw [Recorded, hid, if_neg Bool.false_ne_true] at hrec
    have hle : s.elems.fromEnd position ≤ s.array.attr.elemShape.length := by
      rcases hkept.2.2 with ⟨htrue, -⟩ | ⟨hle, -⟩
      · rw [hid] at htrue
        cases htrue
      · exact hle
    have hbefore : ∀ j < s.elems.fromEnd position, shapeAt attr' j = shapeAt s.array.attr j :=
      fun j hj => shapeAt_insertAttr_of_lt hindex hle hid hj
    have hlen : attr'.elemShape.length = s.array.attr.elemShape.length + 1 :=
      length_insertAttr hindex hle hid
    refine ⟨fun hlt => ⟨recorded_of_lt (by exact hid) (by omega), (hbefore i hlt).trans hshape,
        offset_congr fun j hj => by rw [hbefore j (by omega)]⟩,
      fun hge => ⟨recorded_of_lt (by exact hid) (by omega), ?_, ?_,
        offset_congr fun j hj => by rw [hbefore j hj]⟩⟩
    · exact (shapeAt_insertAttr_succ hindex hle hid hge hrec).trans hshape
    · have hoff : offset attr' (i + 1) = offset s.array.attr i +
          (shapeAt attr' (s.elems.fromEnd position)).prod :=
        offset_shift (fun j hj => by rw [hbefore j hj]) hge fun j hj hji => by
          rw [shapeAt_insertAttr_succ hindex hle hid hj (by omega)]
      rw [hoff, hnew]

/-- The regions leave the new element at its place, and the others at theirs. -/
theorem insert_content {i : ℕ} {e : Elem V}
    (hi : Elems.Written (s.elems.insertIdx (s.elems.fromEnd position) (some value)) i e) {k : ℕ}
    (hk : k < e.shape.prod) :
    raster (regionsWrite true s.array.attr (insertAttr s.array.attr position value.shape)
      handle (fromEnd s.array.attr position)) (sources s.array.content value.content)
        ((offset (insertAttr s.array.attr position value.shape) i + k : ℕ)) = e.content k := by
  obtain ⟨hrec, hshape⟩ := h.insert_recorded hproper hkept
  have hsize := TensorArray.getElemSize_eq hrec
  rw [hshape] at hsize
  have harray := h.arraySize
  have hend := h.fromEnd_eq hproper.2.1
  rw [hend]
  rcases written_insertIdx hi with ⟨hlt, hi⟩ | ⟨rfl, rfl⟩ | ⟨j, rfl, hge, hi⟩
  · obtain ⟨-, hshape', hoff⟩ := (h.insert_others hproper hkept hi).1 hlt
    have hpos : value.shape.prod ≠ 0 := by
      intro hzero
      have := hkept.1 hzero i e hi
      omega
    have hplace := end_le_offset (insertAttr s.array.attr position value.shape) hlt
    rw [hshape'] at hplace
    rw [hoff] at hplace ⊢
    rw [← h.content i e hi k hk]
    exact regionsWrite_left hsize hpos (h.isFirstWrite_eq hi) (by omega) (by omega)
  · exact regionsWrite_value hsize (by omega) hk
  · obtain ⟨-, hshape', hoff, hoff'⟩ := (h.insert_others hproper hkept hi).2 hge
    have hpos : value.shape.prod ≠ 0 := by
      intro hzero
      have := hkept.1 hzero j e hi
      omega
    have hmono := offset_mono s.array.attr hge
    have hlast := hkept.2.1 j e hi hge
    rw [h.elemEnd_eq hi, ← harray] at hlast
    have hlt := hi.lt
    have hnew : (insertAttr s.array.attr position value.shape).arraySize =
        s.array.attr.arraySize + 1 := rfl
    rw [← h.content j e hi k hk, hoff]
    have hplace : offset s.array.attr j + value.shape.prod + k =
        offset s.array.attr j + k + if true then value.shape.prod else 0 := by
      rw [if_pos rfl]
      omega
    rw [hplace]
    refine @regionsWrite_right V _ true _ _ _ _ _ _ _ _ hsize hpos (h.isFirstWrite_eq hi) ?_ ?_
      _ ?_ ?_
    · omega
    · simp only [if_true]
      omega
    · simp only [if_true]
      omega
    · omega

theorem insert : Inv (machine.step s (.insert handle position value)) := by
  obtain ⟨hrec, hshape⟩ := h.insert_recorded hproper hkept
  have harray := h.arraySize
  have hindex : (fromEnd s.array.attr position).toNat = s.elems.fromEnd position := by
    rw [h.fromEnd_eq hproper.2.1, Int.toNat_natCast]
  have hle : s.elems.fromEnd position ≤ s.elems.length := by
    have h1 := hproper.2.1
    have h2 := hproper.2.2.1
    rw [Elems.fromEnd]
    split <;> omega
  have hbounded := h.bounded
  refine ⟨?_, fun hid => ?_, ?_, fun i e hi => ?_, fun i e hi => ?_, fun i e hi k hk => ?_⟩
  · change s.array.attr.arraySize + 1 = (s.elems.insertIdx _ (some value)).length
    rw [List.length_insertIdx_of_le_length hle, harray]
  · have hid' : s.array.attr.isIdenticalShape = true := hid
    have huniform := h.uniform hid'
    change (insertAttr s.array.attr position value.shape).elemShape.length ≤ 1
    rw [insertAttr]
    simp only
    split
    · exact huniform
    · next hnot =>
      have hnil : s.array.attr.elemShape = [] := by
        by_contra hne
        exact hnot ⟨hid', hne⟩
      rw [hnil]
      exact List.length_insertIdx_le_succ
  · change (insertAttr s.array.attr position value.shape).elemShape.length ≤
      max 1 (s.elems.insertIdx _ (some value)).length
    rw [List.length_insertIdx_of_le_length hle, insertAttr]
    simp only
    split
    · omega
    · next hnot =>
      have hins := List.length_insertIdx_le_succ (l := s.array.attr.elemShape) (x := value.shape)
        (i := (fromEnd s.array.attr position).toNat)
      rcases hkept.2.2 with hid | ⟨-, hlen⟩
      · exact absurd hid hnot
      · omega
  · rcases written_insertIdx hi with ⟨hlt, hi⟩ | ⟨rfl, rfl⟩ | ⟨j, rfl, hge, hi⟩
    · exact ((h.insert_others hproper hkept hi).1 hlt).1
    · exact hrec
    · exact ((h.insert_others hproper hkept hi).2 hge).1
  · rcases written_insertIdx hi with ⟨hlt, hi⟩ | ⟨rfl, rfl⟩ | ⟨j, rfl, hge, hi⟩
    · exact ((h.insert_others hproper hkept hi).1 hlt).2.1
    · exact hshape
    · exact ((h.insert_others hproper hkept hi).2 hge).2.1
  · exact h.insert_content hproper hkept hi hk

end Inv

/-! ### Erase -/

theorem sum_le_flatLength (attr : Attr) : (attr.elemShape.map List.prod).sum ≤ flatLength attr := by
  rw [flatLength]
  split
  · next h => exact Nat.le_mul_of_pos_right _ (by omega)
  · split <;> omega

/-- A written element lies in the flat tensor. -/
theorem Inv.end_le_flatLength {s : State V} (h : Inv s) {i : ℕ} {e : Elem V}
    (hi : s.elems.Written i e) :
    offset s.array.attr i + e.shape.prod ≤ flatLength s.array.attr := by
  have hrec := h.recorded i e hi
  rw [← h.shape i e hi]
  cases hid : s.array.attr.isIdenticalShape with
  | true =>
    rw [Recorded, if_pos hid] at hrec
    have huniform := h.uniform hid
    have hlen : s.array.attr.elemShape.length = 1 := by
      have := List.length_pos_iff.2 hrec
      omega
    obtain ⟨shape, hshape⟩ := List.length_eq_one_iff.1 hlen
    have hsum := sum_le_flatLength s.array.attr
    rw [hshape, List.map_singleton, List.sum_singleton] at hsum
    rw [offset_of_identical hid, shapeAt_of_identical hid, hshape, List.headD_cons, ← Nat.succ_mul]
    have hlt := hi.lt
    by_cases hone : 1 < s.array.attr.arraySize
    · rw [flatLength, if_pos ⟨hlen, hone⟩, hshape, List.map_singleton, List.sum_singleton,
        Nat.mul_comm shape.prod, h.arraySize]
      exact Nat.mul_le_mul_right _ hlt
    · have hzero : i = 0 := by
        rw [h.arraySize] at hone
        omega
      rw [hzero, Nat.one_mul]
      exact hsum
  | false =>
    rw [Recorded, hid, if_neg Bool.false_ne_true] at hrec
    refine (end_le_offset s.array.attr hrec).trans ?_
    rw [offset_eq_sum_take hid le_rfl, List.take_length]
    exact sum_le_flatLength _

section RegionsErase

variable {attr : Attr} {position : ℤ} {off size : ℕ} {flow : ℤ → V}
  (hsize : getElemSize attr (fromEnd attr position) = ((off : ℤ), (size : ℤ)))

include hsize

omit [Zero V] in
theorem mem_regionsErase {r : Region Source} : r ∈ regionsErase attr position ↔
    (0 < fromEnd attr position ∧ r = blit .flow 0 0 off) ∨
      (fromEnd attr position < (attr.arraySize : ℤ) - 1 ∧
        r = blit .flow (off + size) off (flatLength attr - (off + size))) := by
  rw [regionsErase, hsize]
  simp only [List.mem_append, List.mem_ite_nil_right, List.mem_singleton]

/-- What is left of the erased element. -/
theorem regionsErase_left (hindex : 0 < fromEnd attr position) {k : ℕ} (hk : k < off) :
    raster (regionsErase attr position) (sources flow 0) (k : ℕ) = flow k := by
  refine raster_of_agree ⟨_, (mem_regionsErase hsize).2 (.inl ⟨hindex, rfl⟩), _,
    blit_copies.2 ⟨by omega, by omega, rfl⟩⟩ fun r hr t ht => ?_
  rcases (mem_regionsErase hsize).1 hr with ⟨-, rfl⟩ | ⟨-, rfl⟩
  · obtain ⟨-, -, rfl⟩ := blit_copies.1 ht
    change flow _ = flow _
    congr 1
    omega
  · have := (blit_copies.1 ht).1
    omega

/-- What is right of it. -/
theorem regionsErase_right (hindex : fromEnd attr position < (attr.arraySize : ℤ) - 1) {q : ℕ}
    (hq : off ≤ q) (hend : q + size < flatLength attr) :
    raster (regionsErase attr position) (sources flow 0) (q : ℕ) = flow ((q + size : ℕ)) := by
  refine raster_of_agree ⟨_, (mem_regionsErase hsize).2 (.inr ⟨hindex, rfl⟩), _,
    blit_copies.2 ⟨by omega, by omega, rfl⟩⟩ fun r hr t ht => ?_
  rcases (mem_regionsErase hsize).1 hr with ⟨-, rfl⟩ | ⟨-, rfl⟩
  · have := (blit_copies.1 ht).2.1
    omega
  · obtain ⟨-, -, rfl⟩ := blit_copies.1 ht
    change flow _ = flow _
    congr 1
    omega

end RegionsErase

omit [Zero V] in
theorem written_eraseIdx {elems : Elems V} {index i : ℕ} {e : Elem V}
    (h : Elems.Written (elems.eraseIdx index) i e) :
    (i < index ∧ elems.Written i e) ∨ (index ≤ i ∧ elems.Written (i + 1) e) := by
  rw [Elems.Written, List.getElem?_eraseIdx] at h
  split at h
  · next hlt => exact .inl ⟨hlt, h⟩
  · next hge => exact .inr ⟨by omega, h⟩

section EraseAttr

variable {attr : Attr} {position : ℤ} {index : ℕ} (hindex : (fromEnd attr position).toNat = index)
  (hid : attr.isIdenticalShape = false)

include hindex hid

theorem eraseAttr_elemShape :
    (eraseAttr attr position).elemShape = attr.elemShape.eraseIdx index := by
  rw [eraseAttr, hindex]
  simp only
  rw [hid, if_neg Bool.false_ne_true]

variable (hlt : index < attr.elemShape.length)

include hlt

theorem length_eraseAttr :
    (eraseAttr attr position).elemShape.length = attr.elemShape.length - 1 := by
  rw [eraseAttr_elemShape hindex hid, List.length_eraseIdx_of_lt hlt]

theorem shapeAt_eraseAttr_of_lt {i : ℕ} (hi : i < index) :
    shapeAt (eraseAttr attr position) i = shapeAt attr i := by
  rw [shapeAt_of_lt (by exact hid) (by rw [length_eraseAttr hindex hid hlt]; omega),
    eraseAttr_elemShape hindex hid, List.getD_eq_getElem?_getD,
    List.getElem?_eraseIdx_of_lt hi, shapeAt_of_lt hid (by omega), List.getD_eq_getElem?_getD]

theorem shapeAt_eraseAttr_of_ge {i : ℕ} (hi : index ≤ i) (hi' : i + 1 < attr.elemShape.length) :
    shapeAt (eraseAttr attr position) i = shapeAt attr (i + 1) := by
  rw [shapeAt_of_lt (by exact hid) (by rw [length_eraseAttr hindex hid hlt]; omega),
    eraseAttr_elemShape hindex hid, List.getD_eq_getElem?_getD,
    List.getElem?_eraseIdx_of_ge hi, shapeAt_of_lt hid hi', List.getD_eq_getElem?_getD]

end EraseAttr

namespace Inv

variable {s : State V} (h : Inv s) {position : ℤ} (hproper : Proper s (.erase position))
  (hkept : Kept s (.erase position))

include h hproper hkept

/-- Where a written element is afterwards. -/
theorem erase_others {i : ℕ} {e : Elem V} (hi : s.elems.Written i e) :
    let attr' := eraseAttr s.array.attr position
    Recorded s.array.attr (s.elems.fromEnd position) ∧
      (i < s.elems.fromEnd position → Recorded attr' i ∧ shapeAt attr' i = e.shape ∧
        offset attr' i = offset s.array.attr i) ∧
      ∀ j, i = j + 1 → s.elems.fromEnd position ≤ j → Recorded attr' j ∧
        shapeAt attr' j = e.shape ∧ offset s.array.attr i = offset attr' j +
          (shapeAt s.array.attr (s.elems.fromEnd position)).prod ∧
        offset s.array.attr (s.elems.fromEnd position) ≤ offset attr' j := by
  intro attr'
  have hindex : (fromEnd s.array.attr position).toNat = s.elems.fromEnd position := by
    rw [h.fromEnd_eq hproper.2.1, Int.toNat_natCast]
  have hshape := h.shape i e hi
  have hrec := h.recorded i e hi
  -- the array before is the one afterwards with the element put back
  have hplace : ∀ j, s.elems.fromEnd position ≤ j →
      (∀ k < s.elems.fromEnd position, shapeAt s.array.attr k = shapeAt attr' k) →
      (∀ k, s.elems.fromEnd position ≤ k → k < j →
        shapeAt s.array.attr (k + 1) = shapeAt attr' k) →
      offset s.array.attr (j + 1) = offset attr' j +
        (shapeAt s.array.attr (s.elems.fromEnd position)).prod ∧
      offset s.array.attr (s.elems.fromEnd position) ≤ offset attr' j := by
    intro j hj hbefore hafter
    refine ⟨offset_shift (fun k hk => by rw [hbefore k hk]) hj fun k hk hkj => by
      rw [hafter k hk hkj], ?_⟩
    exact (offset_congr fun k hk => by rw [hbefore k hk]).le.trans (offset_mono attr' hj)
  cases hid : s.array.attr.isIdenticalShape with
  | true =>
    rw [Recorded, if_pos hid] at hrec
    have hattr : attr'.elemShape = s.array.attr.elemShape := if_pos hid
    have hall : ∀ j j', shapeAt s.array.attr j = shapeAt attr' j' := by
      intro j j'
      have hshape' : shapeAt attr' j' = attr'.elemShape.headD [] :=
        shapeAt_of_identical (by exact hid) j'
      rw [hshape', hattr, shapeAt_of_identical hid]
    have hrec' : ∀ j, Recorded attr' j := recorded_of_ne_nil (by exact hid) (by rwa [hattr])
    refine ⟨recorded_of_ne_nil hid hrec _, fun _ => ⟨hrec' i, (hall i i).symm.trans hshape,
      offset_congr fun j _ => by rw [hall j j]⟩, ?_⟩
    rintro j rfl hj
    exact ⟨hrec' j, (hall _ j).symm.trans hshape,
      hplace j hj (fun k _ => hall k k) fun k _ _ => hall _ k⟩
  | false =>
    rw [Recorded, hid, if_neg Bool.false_ne_true] at hrec
    have hlt := hkept hid
    have hbefore : ∀ j < s.elems.fromEnd position, shapeAt attr' j = shapeAt s.array.attr j :=
      fun j hj => shapeAt_eraseAttr_of_lt hindex hid hlt hj
    have hlen : attr'.elemShape.length = s.array.attr.elemShape.length - 1 :=
      length_eraseAttr hindex hid hlt
    refine ⟨recorded_of_lt hid hlt, fun hi' => ⟨recorded_of_lt (by exact hid) (by omega),
      (hbefore i hi').trans hshape, offset_congr fun j hj => by rw [hbefore j (by omega)]⟩, ?_⟩
    rintro j rfl hj
    exact ⟨recorded_of_lt (by exact hid) (by omega),
      (shapeAt_eraseAttr_of_ge hindex hid hlt hj hrec).trans hshape,
      hplace j hj (fun k hk => (hbefore k hk).symm) fun k hk hkj =>
        (shapeAt_eraseAttr_of_ge hindex hid hlt hk (by omega)).symm⟩

theorem erase : Inv (machine.step s (.erase position)) := by
  have harray := h.arraySize
  have hend := h.fromEnd_eq hproper.2.1
  have hindex : (fromEnd s.array.attr position).toNat = s.elems.fromEnd position := by
    rw [hend, Int.toNat_natCast]
  have hlt : s.elems.fromEnd position < s.elems.length := by
    have h1 := hproper.2.1
    have h2 := hproper.2.2
    rw [Elems.fromEnd]
    split <;> omega
  have hbounded := h.bounded
  refine ⟨?_, fun hid => ?_, ?_, fun i e hi => ?_, fun i e hi => ?_, fun i e hi k hk => ?_⟩
  · change s.array.attr.arraySize - 1 = (s.elems.eraseIdx _).length
    rw [List.length_eraseIdx_of_lt hlt, harray]
  · have hid' : s.array.attr.isIdenticalShape = true := hid
    have hattr : (eraseAttr s.array.attr position).elemShape = s.array.attr.elemShape := if_pos hid'
    exact (congrArg List.length hattr).trans_le (h.uniform hid')
  · change (eraseAttr s.array.attr position).elemShape.length ≤ max 1 (s.elems.eraseIdx _).length
    rw [List.length_eraseIdx_of_lt hlt]
    cases hid : s.array.attr.isIdenticalShape with
    | true =>
      have hattr : (eraseAttr s.array.attr position).elemShape = s.array.attr.elemShape :=
        if_pos hid
      have := h.uniform hid
      rw [hattr]
      omega
    | false =>
      rw [length_eraseAttr hindex hid (hkept hid)]
      omega
  · rcases written_eraseIdx hi with ⟨hlt, hi⟩ | ⟨hge, hi⟩
    · exact ((h.erase_others hproper hkept hi).2.1 hlt).1
    · exact ((h.erase_others hproper hkept hi).2.2 i rfl hge).1
  · rcases written_eraseIdx hi with ⟨hlt, hi⟩ | ⟨hge, hi⟩
    · exact ((h.erase_others hproper hkept hi).2.1 hlt).2.1
    · exact ((h.erase_others hproper hkept hi).2.2 i rfl hge).2.1
  · change raster (regionsErase s.array.attr position) (sources s.array.content 0)
      ((offset (eraseAttr s.array.attr position) i + k : ℕ)) = _
    rcases written_eraseIdx hi with ⟨hlt', hi⟩ | ⟨hge, hi⟩
    · obtain ⟨hrec, hothers, -⟩ := h.erase_others hproper hkept hi
      have hplace := end_le_offset s.array.attr hlt'
      rw [h.shape i e hi] at hplace
      rw [(hothers hlt').2.2, ← h.content i e hi k hk]
      have hsize := TensorArray.getElemSize_eq hrec
      rw [← hend] at hsize
      exact regionsErase_left hsize (by omega) (by omega)
    · obtain ⟨hrec, -, hothers⟩ := h.erase_others hproper hkept hi
      obtain ⟨-, -, hoff, hstart⟩ := hothers i rfl hge
      have hin := h.end_le_flatLength hi
      have hlast := hi.lt
      have hsize := TensorArray.getElemSize_eq hrec
      rw [← hend] at hsize
      rw [← h.content (i + 1) e hi k hk, hoff]
      have hplace : offset (eraseAttr s.array.attr position) i +
          (shapeAt s.array.attr (s.elems.fromEnd position)).prod + k =
          offset (eraseAttr s.array.attr position) i + k +
            (shapeAt s.array.attr (s.elems.fromEnd position)).prod := by omega
      rw [hplace]
      exact regionsErase_right hsize (by omega) (by omega) (by omega)

end Inv

/-! ### Scatter -/

section ScatterAttr

variable {attr : Attr} {indices : List ℕ}

theorem foldl_scatterOne_flags (attr : Attr) (indices : List ℕ) (oldSize : ℕ) (shape : List ℕ) :
    (indices.foldl (scatterOne oldSize shape) attr).isIdenticalShape = attr.isIdenticalShape ∧
      (indices.foldl (scatterOne oldSize shape) attr).isDynamicSize = attr.isDynamicSize := by
  induction indices generalizing attr with
  | nil => exact ⟨rfl, rfl⟩
  | cons index indices ih => exact ih _

theorem foldl_scatterOne_elemShape (oldSize : ℕ) {shape : List ℕ}
    (hlen : attr.elemShape.length ≤ 1) (hne : indices ≠ []) :
    (indices.foldl (scatterOne oldSize shape) attr).elemShape = [shape] := by
  have hone : ∀ a : Attr, a.elemShape.length ≤ 1 → ∀ index,
      (scatterOne oldSize shape a index).elemShape = [shape] := by
    intro a ha index
    rw [scatterOne]
    cases hshape : a.elemShape with
    | nil => rfl
    | cons first rest =>
      rw [hshape, List.length_cons] at ha
      rw [List.length_eq_zero_iff.1 (by omega : rest.length = 0)]
  induction indices generalizing attr with
  | nil => exact absurd rfl hne
  | cons index indices ih =>
    rw [List.foldl_cons]
    cases indices with
    | nil => exact hone attr hlen index
    | cons index' indices =>
      exact ih (by rw [hone attr hlen index, List.length_singleton]) (List.cons_ne_nil _ _)

/-- The size afterwards: the last index that is out of range is the largest one. -/
theorem foldl_scatterOne_arraySize {oldSize : ℕ} {shape : List ℕ} (hsize : attr.arraySize = oldSize)
    (hin : ∀ index ∈ indices, index < oldSize ∨ attr.isDynamicSize = true)
    (hlast : ∀ pre index post, indices = pre ++ index :: post → oldSize ≤ index →
      (∀ index' ∈ post, index' < oldSize) → ∀ index' ∈ pre, index' ≤ index) :
    (indices.foldl (scatterOne oldSize shape) attr).arraySize =
      indices.foldl (fun n index => max n (index + 1)) oldSize := by
  induction indices using List.reverseRecOn with
  | nil => exact hsize
  | append_singleton indices index ih =>
    have hmax : ∀ (l : List ℕ) (n : ℕ), n ≤ l.foldl (fun n index => max n (index + 1)) n := by
      intro l
      induction l with
      | nil => exact fun n => le_rfl
      | cons a l ih => exact fun n => (le_max_left _ _).trans (ih _)
    have hbound : ∀ (l : List ℕ) (n bound : ℕ), n ≤ bound → (∀ a ∈ l, a < bound) →
        l.foldl (fun n index => max n (index + 1)) n ≤ bound := by
      intro l
      induction l with
      | nil => exact fun n bound h _ => h
      | cons a l ih =>
        intro n bound h hl
        obtain ⟨ha, hl⟩ := List.forall_mem_cons.1 hl
        exact ih _ bound (max_le h ha) hl
    rw [List.foldl_concat, List.foldl_concat]
    have hdyn := (foldl_scatterOne_flags attr indices oldSize shape).2
    by_cases hle : oldSize ≤ index
    · -- the last index grows the array, beyond what the others made of it
      have hall := hlast indices index [] rfl hle (fun _ h => absurd h List.not_mem_nil)
      have hdynamic := (hin index (List.mem_append_right _ (List.mem_singleton_self _))).resolve_left
        (by omega)
      have hsmall := hbound indices oldSize (index + 1) (by omega)
        fun a ha => Nat.lt_succ_of_le (hall a ha)
      rw [scatterOne]
      simp only [hdyn, hdynamic, hle, and_self, if_true]
      omega
    · have hbig := hmax indices oldSize
      have hinit := ih (fun a ha => hin a (List.mem_append_left _ ha))
        fun pre a post heq hge hpost => hlast pre a (post ++ [index]) (by rw [heq]; simp) hge
          fun b hb => (List.mem_append.1 hb).elim (hpost b)
            fun hb => (List.mem_singleton.1 hb).symm ▸ (by omega)
      rw [scatterOne]
      simp only [hle, and_false, if_false]
      rw [hinit]
      omega

end ScatterAttr

theorem isWrite_getD {oldSize : ℕ} {indices : List ℕ} {i : ℕ} (hi : i < oldSize) :
    (isWrite oldSize indices).getD i false = decide (i < indices.length) := by
  have key : ∀ m, ((List.range m).foldl (fun isWrite i => if i < oldSize then isWrite.set i true
      else isWrite) (List.replicate oldSize false)).length = oldSize ∧
      ((List.range m).foldl (fun isWrite i => if i < oldSize then isWrite.set i true
        else isWrite) (List.replicate oldSize false)).getD i false = decide (i < m) := by
    intro m
    induction m with
    | zero => simp
    | succ m ih =>
      obtain ⟨hlen, hget⟩ := ih
      rw [List.range_succ, List.foldl_concat]
      split
      · refine ⟨by rw [List.length_set, hlen], ?_⟩
        rw [List.getD_eq_getElem?_getD] at hget ⊢
        by_cases him : m = i
        · rw [him, List.getElem?_set_self (by rw [← him] at *; omega)]
          simp
        · rw [List.getElem?_set_ne him, hget, decide_eq_decide]
          omega
      · refine ⟨hlen, hget.trans ?_⟩
        rw [decide_eq_decide]
        omega
  exact (key indices.length).2

theorem length_foldl_put (value : Elem V) (indices : List ℕ) (elems : Elems V) :
    (indices.zipIdx.foldl (fun elems p => elems.put p.1 (value.row p.2)) elems).length =
      indices.foldl (fun n index => max n (index + 1)) elems.length := by
  have key : ∀ (indices : List ℕ) (k : ℕ) (elems : Elems V),
      ((indices.zipIdx k).foldl (fun elems p => elems.put p.1 (value.row p.2)) elems).length =
        indices.foldl (fun n index => max n (index + 1)) elems.length := by
    intro indices
    induction indices with
    | nil => exact fun k elems => rfl
    | cons index indices ih =>
      intro k elems
      rw [List.zipIdx_cons, List.foldl_cons, ih, length_put]
      rfl
  exact key indices 0 elems

/-- What is written after a scatter: the last of the values for an index, or what was there. -/
theorem written_foldl_put {value : Elem V} {indices : List ℕ} {elems : Elems V} {i : ℕ} {e : Elem V}
    (h : Elems.Written (indices.zipIdx.foldl (fun elems p => elems.put p.1 (value.row p.2)) elems)
      i e) :
    (∃ pre post, indices = pre ++ i :: post ∧ i ∉ post ∧ e = value.row pre.length) ∨
      (i ∉ indices ∧ elems.Written i e) := by
  induction indices using List.reverseRecOn with
  | nil => exact .inr ⟨List.not_mem_nil, h⟩
  | append_singleton indices index ih =>
    rw [List.zipIdx_append, List.foldl_append, List.zipIdx_singleton, List.foldl_cons,
      List.foldl_nil, written_put, Nat.zero_add] at h
    rcases h with ⟨rfl, rfl⟩ | ⟨hne, h⟩
    · exact .inl ⟨indices, [], rfl, List.not_mem_nil, rfl⟩
    · rcases ih h with ⟨pre, post, rfl, hpost, rfl⟩ | ⟨hnot, h⟩
      · refine .inl ⟨pre, post ++ [index], by simp, ?_, rfl⟩
        rw [List.mem_append, List.mem_singleton, not_or]
        exact ⟨hpost, hne⟩
      · refine .inr ⟨?_, h⟩
        rw [List.mem_append, List.mem_singleton, not_or]
        exact ⟨hnot, hne⟩

theorem row_content {value : Elem V} {p k : ℕ} (hk : k < value.shape.tail.prod) :
    (value.row p).content k = value.content ((p * value.shape.tail.prod + k : ℕ)) := by
  rw [Elem.content, Elem.row]
  simp only [Int.toNat_natCast]
  rw [List.getD_eq_getElem _ _ (by rwa [List.length_map, List.length_range]), List.getElem_map,
    List.getElem_range]
  push_cast
  rfl

/-- Blocks of one size are apart. -/
theorem block_unique {i j size k : ℕ} (hk : k < size)
    (hle : (j : ℤ) * size ≤ ((i * size + k : ℕ) : ℤ))
    (hlt : ((i * size + k : ℕ) : ℤ) < j * size + size) : j = i := by
  have hle' : j * size ≤ i * size + k := by exact_mod_cast hle
  have hlt' : i * size + k < (j + 1) * size := by
    rw [Nat.succ_mul]
    exact_mod_cast hlt
  rcases Nat.lt_trichotomy j i with h | h | h
  · have := Nat.mul_le_mul_right size (Nat.succ_le_of_lt h)
    rw [Nat.succ_eq_add_one] at this
    omega
  · exact h
  · have := Nat.mul_le_mul_right size (Nat.succ_le_of_lt h)
    rw [Nat.succ_mul] at this
    omega

section RegionsScatter

variable {attr outAttr : Attr} {indices : List ℕ} {size : ℕ} {flow value : ℤ → V}
  (hsize : (getElemSize outAttr 0).2 = (size : ℤ))

include hsize

omit [Zero V] in
theorem regionsScatter_eq : regionsScatter attr outAttr indices =
    (indices.mapIdx fun i (index : ℕ) => blit .value (i * size) (index * size) size) ++
      ((List.range attr.arraySize).filter fun i =>
        !(isWrite attr.arraySize indices).getD i false).map fun i : ℕ =>
          keep (isFirstWrite attr) (i * size) (i * size) size := by
  rw [regionsScatter, hsize]

omit [Zero V] hsize in
/-- The indices that are not marked. -/
theorem mem_remains {i : ℕ} : i ∈ ((List.range attr.arraySize).filter fun i =>
    !(isWrite attr.arraySize indices).getD i false) ↔ i < attr.arraySize ∧ indices.length ≤ i := by
  rw [List.mem_filter, List.mem_range]
  refine and_congr_right fun hi => ?_
  rw [isWrite_getD hi, Bool.not_eq_true', decide_eq_false_iff_not, not_lt]

/-- The last value for an index. -/
theorem regionsScatter_value {pre post : List ℕ} {i : ℕ} (hsplit : indices = pre ++ i :: post)
    (hpost : i ∉ post) (hi : i < indices.length ∨ attr.arraySize ≤ i) {k : ℕ} (hk : k < size) :
    raster (regionsScatter attr outAttr indices) (sources flow value) ((i * size + k : ℕ)) =
      value ((pre.length * size + k : ℕ)) := by
  have hregions : regionsScatter attr outAttr indices =
      (pre.mapIdx fun j (index : ℕ) => blit .value (j * size) (index * size) size) ++
        blit .value (pre.length * size) (i * size) size ::
          ((post.mapIdx fun j (index : ℕ) =>
              blit .value ((j + 1 + pre.length : ℕ) * size) (index * size) size) ++
            ((List.range attr.arraySize).filter fun i =>
              !(isWrite attr.arraySize indices).getD i false).map fun i : ℕ =>
                keep (isFirstWrite attr) (i * size) (i * size) size) := by
    rw [regionsScatter_eq hsize]
    nth_rewrite 1 [hsplit]
    rw [List.mapIdx_append, List.mapIdx_cons, List.append_assoc, List.cons_append, Nat.zero_add]
  have hback : ∀ r ∈ (post.mapIdx fun j (index : ℕ) =>
      blit .value ((j + 1 + pre.length : ℕ) * size) (index * size) size) ++
        ((List.range attr.arraySize).filter fun i =>
          !(isWrite attr.arraySize indices).getD i false).map fun i : ℕ =>
            keep (isFirstWrite attr) (i * size) (i * size) size,
      ∀ t, ¬ r.Copies t ((i * size + k : ℕ)) := by
    intro r hr t ht
    rcases List.mem_append.1 hr with hr | hr
    · obtain ⟨j, hj, rfl⟩ := List.mem_mapIdx.1 hr
      obtain ⟨hle, hlt, -⟩ := blit_copies.1 ht
      exact hpost (block_unique hk hle hlt ▸ List.getElem_mem hj)
    · obtain ⟨j, hj, rfl⟩ := List.mem_map.1 hr
      obtain ⟨hlt, hle⟩ := mem_remains.1 hj
      obtain ⟨hle', hlt'⟩ := keep_copies ht
      have := block_unique hk hle' hlt'
      omega
  rw [hregions]
  refine raster_of_last ⟨_, blit_copies.2 ⟨by push_cast; omega, by push_cast; omega, rfl⟩⟩
    (fun t ht => ?_) hback
  obtain ⟨-, -, rfl⟩ := blit_copies.1 ht
  change value _ = value _
  congr 1
  push_cast
  ring

/-- An index that is not written. -/
theorem regionsScatter_flow (hfirst : isFirstWrite attr = false) {i : ℕ} (hnot : i ∉ indices)
    (hlt : i < attr.arraySize) (hi : indices.length ≤ i) {k : ℕ} (hk : k < size) :
    raster (regionsScatter attr outAttr indices) (sources flow value) ((i * size + k : ℕ)) =
      flow ((i * size + k : ℕ)) := by
  have hcopies : (keep false (i * size) (i * size) size).Copies
      (i * size + (((i * size + k : ℕ) : ℤ) - i * size)) ((i * size + k : ℕ)) := by
    rw [keep_false]
    exact blit_copies.2 ⟨by push_cast; omega, by push_cast; omega, rfl⟩
  rw [regionsScatter_eq hsize, hfirst]
  refine raster_of_agree ⟨_, List.mem_append_right _ (List.mem_map.2 ⟨i, mem_remains.2 ⟨hlt, hi⟩,
    rfl⟩), _, hcopies⟩ fun r hr t ht => ?_
  · rcases List.mem_append.1 hr with hr | hr
    · obtain ⟨j, hj, rfl⟩ := List.mem_mapIdx.1 hr
      obtain ⟨hle, hlt', -⟩ := blit_copies.1 ht
      have := block_unique hk hle hlt'
      exact absurd (this ▸ List.getElem_mem hj) hnot
    · obtain ⟨j, -, rfl⟩ := List.mem_map.1 hr
      rw [keep_false] at ht ⊢
      obtain ⟨-, -, rfl⟩ := blit_copies.1 ht
      change flow _ = flow _
      congr 1
      omega

end RegionsScatter

namespace Inv

variable {s : State V} (h : Inv s) {indices : List ℕ} {value : Elem V}
  (hproper : Proper s (.scatter indices value)) (hkept : Kept s (.scatter indices value))

include h hkept

/-- What is written afterwards has the one shape. -/
theorem scatter_recorded {i : ℕ} {e : Elem V}
    (hi : (indices.zipIdx.foldl (fun elems p => elems.put p.1 (value.row p.2)) s.elems).Written i e)
    (hshape : s.array.attr.isIdenticalShape = true → ∀ i e, s.elems.Written i e →
      e.shape = value.shape.tail) :
    (scatterAttr s.array.attr indices value.shape).elemShape = [value.shape.tail] ∧
      e.shape = value.shape.tail := by
  have hid := hkept.1
  rcases written_foldl_put hi with ⟨pre, post, rfl, -, rfl⟩ | ⟨hnot, hi⟩
  · exact ⟨foldl_scatterOne_elemShape _ (h.uniform hid) (by simp), rfl⟩
  · refine ⟨?_, hshape hid i e hi⟩
    by_cases hnil : indices = []
    · have hrec := h.recorded i e hi
      have huniform := h.uniform hid
      rw [Recorded, if_pos hid] at hrec
      have hhead := h.shape i e hi
      rw [shapeAt_of_identical hid, hshape hid i e hi] at hhead
      rw [hnil]
      change s.array.attr.elemShape = _
      cases hattr : s.array.attr.elemShape with
      | nil => exact absurd hattr hrec
      | cons shape shapes =>
        rw [hattr, List.length_cons] at huniform
        rw [hattr, List.headD_cons] at hhead
        rw [List.length_eq_zero_iff.1 (by omega : shapes.length = 0), hhead]
    · exact foldl_scatterOne_elemShape _ (h.uniform hid) hnil

include hproper

/-- The regions leave the scattered elements at their places, and the others at theirs. -/
theorem scatter_content {i : ℕ} {e : Elem V}
    (hi : (indices.zipIdx.foldl (fun elems p => elems.put p.1 (value.row p.2)) s.elems).Written i e)
    {k : ℕ} (hk : k < e.shape.prod) :
    raster (regionsScatter s.array.attr (scatterAttr s.array.attr indices value.shape)
      indices) (sources s.array.content value.content)
        ((offset (scatterAttr s.array.attr indices value.shape) i + k : ℕ)) = e.content k := by
  have harray := h.arraySize
  have hid := hkept.1
  have hid' : (scatterAttr s.array.attr indices value.shape).isIdenticalShape = true :=
    (foldl_scatterOne_flags s.array.attr indices s.array.attr.arraySize
      value.shape.tail).1.trans hid
  obtain ⟨hattr, hshape⟩ := h.scatter_recorded hkept hi hproper.2.2
  rw [hshape] at hk
  obtain ⟨hin, hout⟩ := hkept.2.1 (by omega)
  have hoff : offset (scatterAttr s.array.attr indices value.shape) i =
      i * value.shape.tail.prod := by
    rw [offset_of_identical hid', hattr]
    rfl
  have hsize : (getElemSize (scatterAttr s.array.attr indices value.shape) 0).2 =
      (value.shape.tail.prod : ℤ) := by
    have hrec : Recorded (scatterAttr s.array.attr indices value.shape) 0 :=
      recorded_of_ne_nil hid' (by rw [hattr]; exact List.cons_ne_nil _ _) 0
    have := TensorArray.getElemSize_eq hrec
    rw [Nat.cast_zero] at this
    rw [this, shapeAt_of_identical hid', hattr]
    rfl
  rw [hoff]
  rcases written_foldl_put hi with ⟨pre, post, hsplit, hpost, rfl⟩ | ⟨hnot, hi⟩
  · have hi' : i ∈ indices := by
      rw [hsplit]
      exact List.mem_append_right _ List.mem_cons_self
    rw [row_content hk]
    refine regionsScatter_value hsize hsplit hpost ?_ hk
    rw [harray]
    exact hin i hi'
  · have hold := h.content i e hi k (by rw [hshape]; exact hk)
    have hoff' : offset s.array.attr i = i * value.shape.tail.prod := by
      have hhead := h.shape i e hi
      rw [shapeAt_of_identical hid, hshape] at hhead
      rw [offset_of_identical hid, hhead]
    rw [hoff'] at hold
    rw [← hold]
    refine regionsScatter_flow hsize (h.isFirstWrite_eq hi) hnot ?_ ?_ hk
    · rw [harray]
      exact hi.lt
    · by_contra hlt
      exact hnot (hout i e hi (by omega))

theorem scatter : Inv (machine.step s (.scatter indices value)) := by
  have harray := h.arraySize
  have hbounded := h.bounded
  have hid := hkept.1
  have hflags := foldl_scatterOne_flags s.array.attr indices s.array.attr.arraySize
    value.shape.tail
  have hid' : (scatterAttr s.array.attr indices value.shape).isIdenticalShape = true :=
    hflags.1.trans hid
  have huniform : (scatterAttr s.array.attr indices value.shape).elemShape.length ≤ 1 := by
    by_cases hnil : indices = []
    · rw [hnil]
      exact h.uniform hid
    · exact (congrArg List.length (foldl_scatterOne_elemShape _ (h.uniform hid) hnil)).le
  refine ⟨?_, fun _ => huniform, huniform.trans (le_max_left _ _), fun i e hi => ?_,
    fun i e hi => ?_, fun i e hi k hk => ?_⟩
  · change (scatterAttr s.array.attr indices value.shape).arraySize = (indices.zipIdx.foldl
      (fun elems p => elems.put p.1 (value.row p.2)) s.elems).length
    rw [length_foldl_put, ← harray]
    refine foldl_scatterOne_arraySize rfl (fun index hindex => ?_) ?_
    · rw [harray]
      exact hproper.2.1 index hindex
    · rw [harray]
      exact hkept.2.2
  · obtain ⟨hattr, -⟩ := h.scatter_recorded hkept hi hproper.2.2
    refine recorded_of_ne_nil hid' ?_ i
    rw [hattr]
    exact List.cons_ne_nil _ _
  · obtain ⟨hattr, hshape⟩ := h.scatter_recorded hkept hi hproper.2.2
    change shapeAt (scatterAttr s.array.attr indices value.shape) i = e.shape
    rw [shapeAt_of_identical hid', hattr, hshape]
    rfl
  · exact h.scatter_content hproper hkept hi hk

end Inv

end Mnn.TensorArray
