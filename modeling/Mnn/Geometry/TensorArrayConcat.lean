import Mnn.Geometry.TensorArrayPieces

/-!
# Concatenation of tensor arrays

* `concatPiece_covers`: the regions of a concatenation copy its pieces, also where they are fused;
* `concatShape_identical`, `concatShape_varying`: the shape of the result;
* `Inv.concat_is`: the result is the concatenation.
-/

namespace Mnn.TensorArray

/-! ### Regions -/

section Regions

variable {inside outside axisLen : ℕ}

theorem concatPiece_of_ne_one (h : outside ≠ 1) :
    concatPiece inside outside axisLen = runPiece (concatRun inside outside axisLen) := by
  funext p len
  rw [concatPiece, if_neg fun hfuse => h hfuse.1, runPiece]
  by_cases hlast : p.last = len
  · rw [if_pos hlast, if_pos hlast, ← hlast]
  · rw [if_neg hlast, if_neg hlast, concatRun, Nat.cast_one]

/-- Where nothing lies outside, a piece keeps its place. -/
theorem pieceCopies_one {sum len : ℕ} {p q : ℤ} :
    PieceCopies inside 1 axisLen sum len q p ↔
      q = p ∧ ((inside * sum : ℕ) : ℤ) ≤ q ∧ q < ((inside * (sum + len) : ℕ) : ℤ) := by
  constructor
  · rintro ⟨o, x, ho, hx, rfl, rfl⟩
    obtain rfl : o = 0 := by omega
    rw [Nat.mul_add]
    refine ⟨?_, ?_, ?_⟩
    · rw [Nat.mul_one, Nat.zero_mul, Nat.zero_mul, Nat.add_zero, Nat.zero_add]
    · omega
    · omega
  · rintro ⟨rfl, hle, hlt⟩
    obtain ⟨x, rfl⟩ := Int.le.dest hle
    rw [Nat.mul_add] at hlt
    refine ⟨0, x, Nat.one_pos, by omega, ?_, ?_⟩
    · push_cast
      ring
    · push_cast
      ring

/-- The one region of a concatenation along the first axis. -/
def fusedRegion (inside axisLen first total : ℕ) : Region Source where
  src := stack inside 1 0 first
  dst := plane inside axisLen 0 first
  size := ![1, 1, inside * total]
  origin := .flow

theorem fusedRegion_copies {first total : ℕ} {p q : ℤ} :
    (fusedRegion inside axisLen first total).Copies p q ↔
      q = p ∧ 0 ≤ q ∧ q < ((inside * total : ℕ) : ℤ) := by
  have hsize : (fusedRegion inside axisLen first total).size =
      ![((1 : ℕ) : ℤ), ((1 : ℕ) : ℤ), ((inside * total : ℕ) : ℤ)] := by
    rw [fusedRegion]
    push_cast
    rfl
  rw [Region.Copies, hsize, exists_inBox]
  constructor
  · rintro ⟨j, hj, o, ho, x, hx, rfl, rfl⟩
    obtain rfl : j = 0 := by omega
    obtain rfl : o = 0 := by omega
    change (plane _ _ _ _).address _ = (stack _ _ _ _).address _ ∧
      0 ≤ (plane _ _ _ _).address _ ∧ (plane _ _ _ _).address _ < _
    rw [plane_address, stack_address]
    simp only [Nat.zero_mul, Nat.mul_zero, Nat.zero_add, Nat.add_zero]
    exact ⟨trivial, Int.natCast_nonneg x, Int.ofNat_lt.2 hx⟩
  · rintro ⟨rfl, hle, hlt⟩
    obtain ⟨x, rfl⟩ := Int.eq_ofNat_of_zero_le hle
    refine ⟨0, Nat.one_pos, 0, Nat.one_pos, x, by exact_mod_cast hlt, ?_, ?_⟩
    · change (stack _ _ _ _).address _ = _
      rw [stack_address]
      simp
    · change (plane _ _ _ _).address _ = _
      rw [plane_address]
      simp

theorem update_size_two (a b : ℤ) (m n : ℕ) :
    Function.update ![a, b, ((inside : ℤ) * m)] 2 ((inside : ℤ) * m + inside * n) =
      ![a, b, (inside : ℤ) * ((m + n : ℕ) : ℤ)] := by
  funext k
  fin_cases k
  · rfl
  · rfl
  · simp [Nat.cast_add, mul_add]

/-- Along the first axis, all pieces are fused to one region. -/
theorem concatPiece_fused (first : ℕ) (lens : List ℕ) :
    ((first :: lens).foldl (concatPiece inside 1 axisLen) {}).regions =
      [fusedRegion inside axisLen first (first + lens.sum)] := by
  induction lens using List.reverseRecOn with
  | nil =>
    rw [List.foldl_cons, List.foldl_nil, concatPiece, if_neg fun h => h.2 rfl, if_neg]
    · rfl
    · change ¬ (-1 : ℤ) = first
      omega
  | append_singleton lens len ih =>
    rw [← List.cons_append, List.foldl_append, List.foldl_cons, List.foldl_nil, concatPiece,
      if_pos ⟨rfl, ih ▸ List.cons_ne_nil _ _⟩]
    simp only
    rw [ih, ← List.nil_append [fusedRegion _ _ _ _], growLast_concat, List.nil_append,
      List.sum_append, List.sum_singleton, ← Nat.add_assoc]
    refine congrArg (fun r => [r]) ?_
    rw [fusedRegion]
    simp only [Matrix.cons_val]
    rw [update_size_two]
    rfl

theorem covers_fused (first : ℕ) (lens : List ℕ) :
    Covers (fun sum len p q => PieceCopies inside 1 axisLen sum len q p) lens
      [fusedRegion inside axisLen first lens.sum] := by
  induction lens using List.reverseRecOn with
  | nil =>
    intro p q
    constructor
    · rintro ⟨r, hr, hcopies⟩
      rw [List.mem_singleton.1 hr, fusedRegion_copies, List.sum_nil, Nat.mul_zero] at hcopies
      omega
    · rintro ⟨i, len, hi, -⟩
      cases hi
  | append_singleton lens len ih =>
    refine ih.snoc fun p q => ?_
    simp only [List.mem_singleton, exists_eq_left, fusedRegion_copies, pieceCopies_one,
      List.sum_append, List.sum_singleton, Nat.mul_add]
    omega

/-- The regions of a concatenation copy its pieces. -/
theorem concatPiece_covers (inside outside axisLen : ℕ) (lens : List ℕ) :
    Covers (fun sum len p q => PieceCopies inside outside axisLen sum len q p) lens
        (lens.foldl (concatPiece inside outside axisLen) {}).regions ∧
      ∀ r ∈ (lens.foldl (concatPiece inside outside axisLen) {}).regions, r.origin = .flow := by
  by_cases hone : outside = 1
  · subst hone
    cases lens with
    | nil => exact ⟨covers_nil _, fun _ hr => absurd hr List.not_mem_nil⟩
    | cons first lens =>
      rw [concatPiece_fused, ← List.sum_cons]
      refine ⟨covers_fused first (first :: lens), fun r hr => ?_⟩
      rw [List.mem_singleton.1 hr]
      rfl
  · rw [concatPiece_of_ne_one hone]
    have horigin : ∀ sum len count,
        (concatRun inside outside axisLen sum len count).origin = .flow := fun _ _ _ => rfl
    have hruns : Runs (concatRun inside outside axisLen) .flow
        (fun sum len p q => PieceCopies inside outside axisLen sum len q p) lens
        (lens.foldl (runPiece (concatRun inside outside axisLen)) {}) := by
      refine runs_foldl horigin (fun sum len count => ?_) concatRun_copies lens
      rw [concatRun]
      simp only [Matrix.cons_val_zero]
      rw [update_size_zero]
      rfl
    exact ⟨hruns.covers, hruns.origin⟩

end Regions

/-! ### Shapes -/

section Shapes

variable {axis : ℕ} {first shape : List ℕ}

theorem eq_set_of_fits (h : Fits axis false first shape) :
    shape = first.set axis (shape.getD axis 0) := by
  obtain ⟨hlen, hlt, htake, hdrop⟩ := h
  rw [List.set_eq_take_append_cons_drop, if_pos hlt, ← htake, ← hdrop,
    List.getD_eq_getElem _ _ (hlen ▸ hlt), List.cons_getElem_drop_succ, List.take_append_drop]

theorem fits_set (hlt : axis < first.length) (n : ℕ) : Fits axis false first (first.set axis n) := by
  refine ⟨List.length_set, hlt, ?_, ?_⟩
  · rw [List.take_set_of_le le_rfl]
  · rw [List.drop_set_of_lt (Nat.lt_succ_self axis)]

/-- One step of `TensorArrayConcatComputer`. -/
def concatStep (axis : ℕ) (newAxis : Bool) (out : Option (List ℕ)) (elemShape : List ℕ) :
    Option (List ℕ) :=
  out.bind fun outShape =>
    if outShape.length ≠ elemShape.length then none
    else if newAxis then if outShape = elemShape then some outShape else none
    else if outShape.take axis = elemShape.take axis ∧
        outShape.drop (axis + 1) = elemShape.drop (axis + 1) then
      some (outShape.set axis (outShape.getD axis 0 + elemShape.getD axis 0))
    else none

theorem foldl_concatStep_false {shapes : List (List ℕ)}
    (h : ∀ shape ∈ shapes, Fits axis false first shape) (hlt : axis < first.length) (n : ℕ) :
    shapes.foldl (concatStep axis false) (some (first.set axis n)) =
      some (first.set axis (n + (shapes.map fun shape => shape.getD axis 0).sum)) := by
  induction shapes generalizing n with
  | nil => rfl
  | cons shape shapes ih =>
    obtain ⟨hlen, -, htake, hdrop⟩ := h shape List.mem_cons_self
    have hset := fits_set hlt n
    have hstep : concatStep axis false (some (first.set axis n)) shape =
        some (first.set axis (n + shape.getD axis 0)) := by
      rw [concatStep, Option.bind_some, if_neg (not_not.2 (hset.1.trans hlen.symm)),
        if_neg Bool.false_ne_true, if_pos ⟨hset.2.2.1.trans htake.symm,
          hset.2.2.2.trans hdrop.symm⟩, List.set_set, List.getD_eq_getElem?_getD,
        List.getElem?_set_self hlt]
      rfl
    rw [List.foldl_cons, hstep, ih fun s hs => h s (List.mem_cons_of_mem _ hs), List.map_cons,
      List.sum_cons, Nat.add_assoc]

theorem foldl_concatStep_true {shapes : List (List ℕ)} (h : ∀ shape ∈ shapes, shape = first) :
    shapes.foldl (concatStep axis true) (some first) = some first := by
  induction shapes with
  | nil => rfl
  | cons shape shapes ih =>
    have hstep : concatStep axis true (some first) shape = some first := by
      rw [h shape List.mem_cons_self, concatStep, Option.bind_some, if_neg (not_not.2 rfl),
        if_pos rfl, if_pos rfl]
    rw [List.foldl_cons, hstep, ih fun s hs => h s (List.mem_cons_of_mem _ hs)]

theorem concatShape_eq (attr : Attr) (axis : ℕ) (newAxis : Bool) {shape : List ℕ}
    {shapes : List (List ℕ)} (hattr : attr.elemShape = shape :: shapes)
    (hsize : attr.arraySize ≠ 0) :
    concatShape attr axis newAxis =
      ((if attr.isIdenticalShape then shapes.map fun _ => shape else shapes).foldl
        (concatStep axis newAxis) (some shape)).map fun outShape =>
          if newAxis then outShape.insertIdx axis attr.arraySize else outShape := by
  rw [concatShape, hattr]
  simp only [if_neg hsize]
  rfl

end Shapes

/-! ### The result -/

variable {V : Type*}

section Lens

variable {axis : ℕ} {newAxis : Bool} {first : List ℕ}

theorem prod_of_fits {e : Elem V} (h : Fits axis newAxis first e.shape) :
    e.shape.prod = (first.take axis).prod *
      ((if newAxis then first.drop axis else first.drop (axis + 1)).prod *
        e.lenOn axis newAxis) := by
  cases newAxis with
  | true =>
    rw [h.1, if_pos rfl, Elem.lenOn, if_pos rfl, Nat.mul_one, ← List.prod_append,
      List.take_append_drop]
  | false =>
    have hset := eq_set_of_fits h
    rw [if_neg Bool.false_ne_true, Elem.lenOn, if_neg Bool.false_ne_true]
    nth_rewrite 1 [hset]
    rw [List.prod_set, if_pos h.2.1]
    ring

/-- The lengths of the elements along the axis. -/
abbrev concatLens (axis : ℕ) (newAxis : Bool) (es : List (Elem V)) : List ℕ :=
  es.map fun e => e.lenOn axis newAxis

/-- The shape of a concatenation. -/
def resultShape (axis : ℕ) (newAxis : Bool) (first : List ℕ) (es : List (Elem V)) : List ℕ :=
  if newAxis then first.insertIdx axis es.length else first.set axis (concatLens axis newAxis es).sum

/-- Where an element starts. -/
theorem sum_prod_of_fits {es : List (Elem V)} (h : ∀ e ∈ es, Fits axis newAxis first e.shape)
    (i : ℕ) : ((es.take i).map fun e => e.shape.prod).sum =
      (if newAxis then first.drop axis else first.drop (axis + 1)).prod * (first.take axis).prod *
        ((concatLens axis newAxis es).take i).sum := by
  rw [← List.map_take, ← List.sum_map_mul_left]
  refine congrArg List.sum (List.map_congr_left fun e he => ?_)
  rw [prod_of_fits (h e (List.mem_of_mem_take he))]
  ring

theorem insertIdx_eq_take_append {α : Type*} {l : List α} {i : ℕ} (h : i ≤ l.length) (x : α) :
    l.insertIdx i x = l.take i ++ x :: l.drop i := by
  induction i generalizing l with
  | zero => rfl
  | succ i ih =>
    cases l with
    | nil => exact absurd h (Nat.not_succ_le_zero i)
    | cons a l =>
      rw [List.insertIdx_succ_cons, ih (Nat.le_of_succ_le_succ h)]
      rfl

/-- The shape of a concatenation, around the axis. -/
theorem resultShape_eq {es : List (Elem V)} (hne : es ≠ [])
    (h : ∀ e ∈ es, Fits axis newAxis first e.shape) :
    axis ≤ first.length ∧ resultShape axis newAxis first es =
      first.take axis ++ (concatLens axis newAxis es).sum ::
        (if newAxis then first.drop axis else first.drop (axis + 1)) := by
  obtain ⟨e, he⟩ := List.exists_mem_of_ne_nil es hne
  have hfits := h e he
  cases newAxis with
  | true =>
    have hsum : (concatLens axis true es).sum = es.length := by
      simp [concatLens, Elem.lenOn]
    rw [resultShape, if_pos rfl, if_pos rfl, hsum]
    exact ⟨hfits.2, insertIdx_eq_take_append hfits.2 _⟩
  | false =>
    rw [resultShape, if_neg Bool.false_ne_true, if_neg Bool.false_ne_true]
    refine ⟨hfits.2.1.le, ?_⟩
    rw [List.set_eq_take_append_cons_drop, if_pos hfits.2.1]

end Lens

/-! ### Concatenation -/

theorem axisOf_natCast {axis dimensions : ℕ} (h : axis < dimensions) :
    axisOf (axis : ℤ) dimensions = axis := by
  rw [axisOf, Int.add_emod_right, Int.emod_eq_of_lt (Int.natCast_nonneg axis) (Int.ofNat_lt.2 h),
    Int.toNat_natCast]

theorem getD_append_cons {l : List ℕ} {n : ℕ} (h : l.length = n) (l' : List ℕ) (x : ℕ) :
    (l ++ x :: l').getD n 0 = x := by
  rw [← h, List.getD_eq_getElem?_getD, List.getElem?_append_right le_rfl, Nat.sub_self]
  rfl

namespace Inv

variable [Zero V] {s : State V} (h : Inv s) {axis : ℕ} {newAxis : Bool} {first : List ℕ}
  {es : List (Elem V)} (hne : es ≠ []) (hes : s.elems = es.map some)
  (hfits : ∀ e ∈ es, Fits axis newAxis first e.shape)
  (hshape : newAxis = true ∨ s.array.attr.isIdenticalShape = false ∨ es.length = 1)

include h hes

theorem arraySize_eq : s.array.attr.arraySize = es.length := by
  rw [h.arraySize, hes, List.length_map]

include hne

theorem elemShape_varying (hid : s.array.attr.isIdenticalShape = false) :
    s.array.attr.elemShape = es.map Elem.shape := by
  have hlen := h.length_elemShape hes hid hne
  refine List.ext_getElem (by rw [hlen, List.length_map]) fun i hi hi' => ?_
  rw [List.length_map] at hi'
  have := h.shape i _ (written_of_map hes (List.getElem?_eq_getElem hi'))
  rwa [shapeAt_of_lt hid hi, List.getD_eq_getElem _ _ hi, ← List.getElem_map Elem.shape] at this

theorem concatLen_eq {i : ℕ} {e : Elem V} (he : es[i]? = some e) :
    concatLen s.array.attr axis newAxis i = e.lenOn axis newAxis := by
  rw [concatLen, Elem.lenOn]
  cases hid : s.array.attr.isIdenticalShape with
  | true =>
    obtain ⟨shape, hattr, hall⟩ := h.elemShape_eq hes hid hne
    rw [if_pos rfl, hattr, List.getD_cons_zero, hall e (List.mem_of_getElem? he)]
  | false =>
    have hget : (es.map Elem.shape).getD i [] = e.shape := by
      rw [List.getD_eq_getElem?_getD, List.getElem?_map, he]
      rfl
    rw [if_neg Bool.false_ne_true, h.elemShape_varying hne hes hid, hget]

include hfits

/-- The regions of the concatenation copy the elements. -/
theorem regionsConcat_eq :
    regionsConcat s.array.attr axis newAxis (resultShape axis newAxis first es) =
      ((concatLens axis newAxis es).foldl
        (concatPiece (if newAxis then first.drop axis else first.drop (axis + 1)).prod
          (first.take axis).prod (concatLens axis newAxis es).sum) {}).regions := by
  obtain ⟨hle, heq⟩ := resultShape_eq hne hfits
  have htake : (first.take axis).length = axis := List.length_take_of_le hle
  have hlt : axis < (resultShape axis newAxis first es).length := by
    rw [heq, List.length_append, htake, List.length_cons]
    omega
  have hdrop : (first.take axis ++ (concatLens axis newAxis es).sum ::
      (if newAxis then first.drop axis else first.drop (axis + 1))).drop (axis + 1) =
        if newAxis then first.drop axis else first.drop (axis + 1) := by
    rw [← List.drop_drop, List.drop_left' htake, List.drop_succ_cons, List.drop_zero]
  have hsize : s.array.attr.arraySize = (concatLens axis newAxis es).length := by
    rw [h.arraySize_eq hes, List.length_map]
  have hsum : ∀ inside outside final p len,
      (concatPiece inside outside final p len).sum = p.sum + len := by
    intro inside outside final p len
    rw [concatPiece]
    split
    · rfl
    · split <;> rfl
  have hfold := foldl_range_eq (hsum
      (if newAxis then first.drop axis else first.drop (axis + 1)).prod (first.take axis).prod
      (concatLens axis newAxis es).sum) (fun i _ => concatLen s.array.attr axis newAxis i)
    (concatLens axis newAxis es) fun i len hi => by
      rw [List.getElem?_map, Option.map_eq_some_iff] at hi
      obtain ⟨e, he, rfl⟩ := hi
      exact h.concatLen_eq hne hes he
  rw [regionsConcat, axisOf_natCast hlt, heq, getD_append_cons htake, List.take_left' htake, hdrop,
    hsize, hfold]

include hshape

/-- The shape computer gives the result the shape of the concatenation. -/
theorem concatShape_is :
    concatShape s.array.attr axis newAxis = some (resultShape axis newAxis first es) := by
  have hsize : s.array.attr.arraySize ≠ 0 := by
    rw [h.arraySize_eq hes]
    exact (List.length_pos_iff.2 hne).ne'
  cases es with
  | nil => exact absurd rfl hne
  | cons e es =>
    have hfirst := hfits e List.mem_cons_self
    have hrest : ∀ shape ∈ es.map Elem.shape, Fits axis newAxis first shape := by
      intro shape hmem
      obtain ⟨e', he', rfl⟩ := List.mem_map.1 hmem
      exact hfits e' (List.mem_cons_of_mem e he')
    cases hid : s.array.attr.isIdenticalShape with
    | true =>
      obtain ⟨shape, hattr, hall⟩ := h.elemShape_eq hes hid hne
      rw [concatShape_eq _ _ _ hattr hsize, hid, if_pos rfl, List.map_nil, List.foldl_nil,
        Option.map_some, ← hall e List.mem_cons_self, h.arraySize_eq hes, resultShape]
      cases newAxis with
      | true => rw [if_pos rfl, if_pos rfl, hfirst.1]
      | false =>
        have hone : es = [] := by
          rcases hshape with hnew | hvar | hlen
          · exact absurd hnew Bool.false_ne_true
          · exact absurd (hid.symm.trans hvar) Bool.noConfusion
          · exact List.length_eq_zero_iff.1 (Nat.succ_injective hlen)
        rw [if_neg Bool.false_ne_true, if_neg Bool.false_ne_true, hone]
        exact congrArg some (eq_set_of_fits hfirst)
    | false =>
      rw [concatShape_eq _ _ _ (h.elemShape_varying hne hes hid) hsize, hid,
        if_neg Bool.false_ne_true, h.arraySize_eq hes, resultShape]
      cases newAxis with
      | true =>
        have hsame : ∀ shape ∈ es.map Elem.shape, shape = first :=
          fun shape hmem => (hrest shape hmem).1
        rw [hfirst.1, foldl_concatStep_true hsame, Option.map_some, if_pos rfl, if_pos rfl]
      | false =>
        rw [eq_set_of_fits hfirst, foldl_concatStep_false hrest hfirst.2.1, Option.map_some,
          if_neg Bool.false_ne_true, if_neg Bool.false_ne_true, List.map_map]
        rfl

theorem concat_is : ∃ r, concat s.array axis newAxis = some r ∧ r.IsConcat axis newAxis first es := by
  refine ⟨_, by rw [concat, h.concatShape_is hne hes hfits hshape]; rfl, rfl, ?_⟩
  intro i e he o ho x hx
  have hlen : (concatLens axis newAxis es)[i]? = some (e.lenOn axis newAxis) := by
    rw [List.getElem?_map, he]
    rfl
  obtain ⟨hcovers, horigin⟩ := concatPiece_covers
    (if newAxis then first.drop axis else first.drop (axis + 1)).prod (first.take axis).prod
    (concatLens axis newAxis es).sum (concatLens axis newAxis es)
  change raster (regionsConcat s.array.attr axis newAxis (resultShape axis newAxis first es))
    (sources s.array.content 0) _ = _
  rw [h.regionsConcat_eq hne hes hfits]
  have hprod := prod_of_fits (hfits e (List.mem_of_getElem? he))
  have hstart := h.offset_eq hes (List.getElem?_eq_some_iff.1 he).1.le
  rw [sum_prod_of_fits hfits] at hstart
  have hcontent := h.content i e (written_of_map hes he)
  rw [hprod, hstart] at hcontent
  generalize (if newAxis then first.drop axis else first.drop (axis + 1)).prod = inside at *
  generalize (first.take axis).prod = outside at *
  have hpiece : PieceCopies inside outside (concatLens axis newAxis es).sum
      ((concatLens axis newAxis es).take i).sum (e.lenOn axis newAxis)
      ((o * ((concatLens axis newAxis es).sum * inside) +
        ((concatLens axis newAxis es).take i).sum * inside + x : ℕ))
      ((inside * outside * ((concatLens axis newAxis es).take i).sum +
        (o * (inside * e.lenOn axis newAxis) + x) : ℕ)) := by
    refine ⟨o, x, ho, by rwa [Nat.mul_comm], ?_, rfl⟩
    push_cast
    ring
  refine (hcovers.raster_eq horigin _ hlen hpiece fun j len' p' hj hpiece' => ?_).trans ?_
  · exact plane_unique (pieces_apart hj hlen) (take_sum_add_le hj) (take_sum_add_le hlen) hpiece'
      hpiece
  · rw [Nat.mul_comm _ inside] at hx ⊢
    refine hcontent (o * (inside * e.lenOn axis newAxis) + x) ?_
    have := Nat.mul_le_mul_right (inside * e.lenOn axis newAxis) (Nat.succ_le_of_lt ho)
    rw [Nat.succ_mul] at this
    omega

end Inv

end Mnn.TensorArray
