import Mnn.Geometry.FuseWindow
import Mnn.Geometry.RasterCache

/-!
# When fusing two regions is exact

* `composes_iff`: for regions over common strides, when a window of one is the composition;
* `embeds_onAxes`: the axes that `match` works on give the elements of the regions;
* `FuseCondition`, `fuse_exact_iff`: when the fused region is the composition;
* `fuse_gap_not_exact`: a copy with gaps in the middle tensor, where it is not;
* `fuseWrap_exactOn`: the fuse as flattening uses it.
-/

namespace Mnn

open Lib (Axis Index Embeds distance digit)

namespace FuseRegion

variable {τ : Type*}

/-! ### Windows of aligned regions -/

section Aligned

variable {a b : Region τ} (hstride : a.dst.stride = b.src.stride) {shift : Fin 3 → ℤ}
  (hshift : shift 0 * b.src.stride 0 + shift 1 * b.src.stride 1 + shift 2 * b.src.stride 2 =
    b.src.offset - a.dst.offset)

include hstride hshift

/-- Elements whose indices differ by the digits meet. -/
theorem meets_of_shift (j : Fin 3 → ℤ) :
    a.dst.address (fun k => j k + shift k) = b.src.address j := by
  simp only [View.address, hstride]
  linear_combination hshift

/-- A window of `b` is the composition exactly when no other elements meet and its place in the
origin is right. -/
theorem composes_iff (ha : ∀ i j, InBox a.size i → InBox a.size j →
      a.dst.address i = a.dst.address j → i = j)
    (hb : ∀ i j, InBox b.size i → InBox b.size j → b.dst.address i = b.dst.address j → i = j)
    {c : Region τ} {place : ℤ} (hc : ∀ s o, c.Copies s o ↔ ∃ j, InBox b.size j ∧
      InBox a.size (fun k => j k + shift k) ∧
      View.address { offset := place, stride := a.src.stride } j = s ∧ b.dst.address j = o) :
    Composes a b c ↔
      (∀ i j, InBox a.size i → InBox b.size j → a.dst.address i = b.src.address j →
        i = fun k => j k + shift k) ∧
      ((∃ i j, InBox a.size i ∧ InBox b.size j ∧ a.dst.address i = b.src.address j) →
        place = a.src.address shift) := by
  have hplace : ∀ j, place = a.src.address shift ↔
      View.address { offset := place, stride := a.src.stride } j =
        a.src.address fun k => j k + shift k := by
    intro j
    simp only [View.address]
    constructor <;> intro h <;> linear_combination h
  constructor
  · intro hexact
    have hmeet : ∀ i j, InBox a.size i → InBox b.size j → a.dst.address i = b.src.address j →
        (i = fun k => j k + shift k) ∧ place = a.src.address shift := by
      intro i j hi hj hij
      obtain ⟨j', hj', hshifted, hs, ho⟩ := (hc _ _).1 <| (hexact (a.src.address i)
        (b.dst.address j)).2 ⟨b.src.address j, ⟨i, hi, rfl, hij⟩, j, hj, rfl, rfl⟩
      obtain rfl := hb j' j hj' hj ho
      have hij' := ha i _ hi hshifted (hij.trans (meets_of_shift hstride hshift j').symm)
      exact ⟨hij', (hplace j').2 (hs.trans (congrArg a.src.address hij'))⟩
    exact ⟨fun i j hi hj hij => (hmeet i j hi hj hij).1,
      fun ⟨i, j, hi, hj, hij⟩ => (hmeet i j hi hj hij).2⟩
  · rintro ⟨hcarry, hplaced⟩ s o
    rw [hc]
    constructor
    · rintro ⟨j, hj, hi, rfl, rfl⟩
      have hmeets := meets_of_shift hstride hshift j
      have heq := hplaced ⟨_, j, hi, hj, hmeets⟩
      exact ⟨b.src.address j, ⟨_, hi, ((hplace j).1 heq).symm, hmeets⟩, j, hj, rfl, rfl⟩
    · rintro ⟨m, ⟨i, hi, rfl, hm⟩, j, hj, hm', rfl⟩
      have hmeets := hm.trans hm'.symm
      have heq := hplaced ⟨i, j, hi, hj, hmeets⟩
      obtain rfl := hcarry i j hi hj hmeets
      exact ⟨j, hj, hi, (hplace j).1 heq, rfl⟩

end Aligned

/-! ### The regions over common strides are the same -/

theorem digit_pad {l : List ℤ} (h : l.length ≤ 3) {s : ℤ} (hs : 0 ≤ s) (x : ℤ) :
    digit [pad l 0 0, pad l 0 1, pad l 0 2] s x = digit l s x := by
  match l with
  | [] => simp [digit, pad, hs.not_gt]
  | [_] => simp [digit, pad, List.filter_cons, hs.not_gt]
  | [_, _] => simp [digit, pad, List.filter_cons, hs.not_gt]
  | [_, _, _] => rfl
  | _ :: _ :: _ :: _ :: _ => exact absurd h not_length_le

theorem viewAxes_pad {axes : List Axis} (h : axes.length ≤ 3) (offset offset' : ℤ) :
    viewAxes ⟨offset, pad (axes.map Axis.near) 0⟩ ⟨offset', pad (axes.map Axis.far) 0⟩
      (pad (axes.map Axis.extent) 1) = List.replicate (3 - axes.length) ⟨0, 0, 1⟩ ++ axes := by
  match axes with
  | [] => rfl
  | [_] => rfl
  | [_, _] => rfl
  | [_, _, _] => rfl
  | _ :: _ :: _ :: _ :: _ => exact absurd h not_length_le

theorem embeds_replicate (n : ℕ) (axes : List Axis) :
    Embeds (List.replicate n ⟨0, 0, 1⟩ ++ axes) axes ∧
      Embeds axes (List.replicate n ⟨0, 0, 1⟩ ++ axes) := by
  induction n with
  | zero => exact ⟨.refl axes, .refl axes⟩
  | succ n ih =>
    have hunit : (⟨0, 0, 1⟩ : Axis).extent = 1 := rfl
    obtain ⟨hout, hin⟩ := Lib.embeds_unit hunit (List.replicate n ⟨0, 0, 1⟩ ++ axes)
    exact ⟨hout.trans ih.1, ih.2.trans hin⟩

section Same

variable {near far near' far' : View} {size size' : Fin 3 → ℤ}
  (hnear : near'.offset = near.offset) (hfar : far'.offset = far.offset)

include hnear hfar

theorem exists_of_embeds (h : Embeds (viewAxes near far size) (viewAxes near' far' size')) {x y : ℤ}
    (hxy : ∃ i, InBox size i ∧ near.address i = x ∧ far.address i = y) :
    ∃ i, InBox size' i ∧ near'.address i = x ∧ far'.address i = y := by
  obtain ⟨f, hf⟩ := exists_embedding hnear hfar h
  obtain ⟨i, hi, rfl, rfl⟩ := hxy
  exact ⟨f i, (hf i hi).1, (hf i hi).2.1, (hf i hi).2.2.1⟩

theorem injective_of_embeds (h : Embeds (viewAxes near far size) (viewAxes near' far' size')) :
    ((∀ i j, InBox size' i → InBox size' j → near'.address i = near'.address j → i = j) →
      ∀ i j, InBox size i → InBox size j → near.address i = near.address j → i = j) ∧
    ((∀ i j, InBox size' i → InBox size' j → far'.address i = far'.address j → i = j) →
      ∀ i j, InBox size i → InBox size j → far.address i = far.address j → i = j) := by
  obtain ⟨f, hf⟩ := exists_embedding hnear hfar h
  constructor <;> intro hinj i j hi hj heq
  · obtain ⟨hfi, hnear, -, hij⟩ := hf i hi
    obtain ⟨hfj, hnear', -, -⟩ := hf j hj
    exact hij j hj (hinj _ _ hfi hfj (by rw [hnear, hnear', heq]))
  · obtain ⟨hfi, -, hfar, hij⟩ := hf i hi
    obtain ⟨hfj, -, hfar', -⟩ := hf j hj
    exact hij j hj (hinj _ _ hfi hfj (by rw [hfar, hfar', heq]))

end Same

/-- No address is written from two elements. -/
def WritesOnce (r : Region τ) : Prop :=
  ∀ i j, InBox r.size i → InBox r.size j → r.dst.address i = r.dst.address j → i = j

theorem Expanded.embeds {extra : ℤ} {axes axes' : List Axis} (h : Expanded extra axes axes') :
    Embeds axes axes' ∧ Embeds axes' axes := by
  unfold Expanded at h
  split_ifs at h
  · exact h.1.embeds
  · exact h ▸ ⟨.refl _, .refl _⟩

theorem Expanded.nodup_iff {extra : ℤ} {axes axes' : List Axis} (h : Expanded extra axes axes')
    (hextra : 0 < extra → extra ∉ axes.map Axis.near) :
    (axes'.map Axis.near).Nodup ↔ (axes.map Axis.near).Nodup := by
  unfold Expanded at h
  split_ifs at h with hpos
  · rw [h.1.near_perm.nodup_iff, List.nodup_cons]
    exact and_iff_right (hextra hpos)
  · rw [h]

theorem length_axesOf (near far : View) (size : Fin 3 → ℤ) : (axesOf near far size).length ≤ 3 :=
  List.length_filter_le ..

theorem Expanded.length_le {extra : ℤ} {near far : View} {size : Fin 3 → ℤ} {axes' : List Axis}
    (h : Expanded extra (axesOf near far size) axes') : axes'.length ≤ 3 := by
  unfold Expanded at h
  split_ifs at h
  · obtain ⟨⟨pre, post, _, _, _, _, -, -, heq, rfl⟩, hlen⟩ := h
    rw [heq] at hlen
    simp only [List.length_append, List.length_cons] at hlen ⊢
    omega
  · rw [h]
    exact length_axesOf ..

theorem Expanded.validExtents {extra : ℤ} {near far : View} {size : Fin 3 → ℤ} {axes' : List Axis}
    (h : Expanded extra (axesOf near far size) axes')
    (hextra : 0 < extra → extra ∉ (axesOf near far size).map Axis.near) :
    ValidExtents (axesOf near far size).length axes' := by
  have hext : ∀ ax ∈ axesOf near far size, 1 < ax.extent := fun ax hax =>
    of_decide_eq_true (List.mem_filter.1 hax).2
  unfold Expanded at h
  split_ifs at h with hpos
  · obtain ⟨hlen, hone, hrest⟩ := h.1.extent (hextra hpos) hext
    exact .inr ⟨by omega, hone, hrest⟩
  · exact .inl (h ▸ hext)

/-- Padding the axes that `match` works on, in any order, gives the box of the region. -/
theorem embeds_onAxes {near far : View} {size : Fin 3 → ℤ} (hsize : ∀ k, 0 < size k) {extra : ℤ}
    {axes axes' : List Axis} (h : Expanded extra (axesOf near far size) axes)
    (hperm : axes'.Perm axes) :
    Embeds (viewAxes near far size) (viewAxes ⟨near.offset, pad (axes'.map Axis.near) 0⟩
      ⟨far.offset, pad (axes'.map Axis.far) 0⟩ (pad (axes'.map Axis.extent) 1)) ∧
    Embeds (viewAxes ⟨near.offset, pad (axes'.map Axis.near) 0⟩
      ⟨far.offset, pad (axes'.map Axis.far) 0⟩ (pad (axes'.map Axis.extent) 1))
      (viewAxes near far size) := by
  rw [viewAxes_pad (hperm.length_eq ▸ h.length_le)]
  have hone : ∀ ax ∈ viewAxes near far size, 1 ≤ ax.extent := by
    intro ax hax
    obtain ⟨k, -, rfl⟩ := List.mem_map.1 hax
    exact hsize k
  obtain ⟨hfilter, hfilter'⟩ := Lib.embeds_filter hone
  obtain ⟨hout, hin⟩ := embeds_replicate (3 - axes'.length) axes'
  exact ⟨((hfilter'.trans h.embeds.1).trans (Lib.embeds_perm hperm.symm)).trans hin,
    ((hout.trans (Lib.embeds_perm hperm)).trans h.embeds.2).trans hfilter⟩

/-! ### Distinct strides -/

/-- The region has an extent above one, and the strides of such extents are distinct. -/
def DistinctStrides (v : View) (size : Fin 3 → ℤ) : Prop :=
  (∃ k, 1 < size k) ∧ ∀ k l, 1 < size k → 1 < size l → v.stride k = v.stride l → k = l

theorem nodup_axesOf_iff (near far : View) (size : Fin 3 → ℤ) :
    ((axesOf near far size).map Axis.near).Nodup ↔
      ∀ k l, 1 < size k → 1 < size l → near.stride k = near.stride l → k = l := by
  rw [List.Nodup, List.pairwise_map, axesOf_eq, List.pairwise_filter, viewAxes, List.pairwise_map]
  simp only [decide_eq_true_eq, List.pairwise_cons, List.mem_cons, List.not_mem_nil, or_false,
    forall_eq_or_imp, forall_eq, IsEmpty.forall_iff, implies_true, List.Pairwise.nil, and_true]
  constructor
  · rintro ⟨⟨h₀₁, h₀₂⟩, h₁₂⟩ k l hk hl heq
    fin_cases k <;> fin_cases l <;> first | rfl | skip
    · exact absurd heq (h₀₁ hk hl)
    · exact absurd heq (h₀₂ hk hl)
    · exact absurd heq.symm (h₀₁ hl hk)
    · exact absurd heq (h₁₂ hk hl)
    · exact absurd heq.symm (h₀₂ hl hk)
    · exact absurd heq.symm (h₁₂ hl hk)
  · intro h
    refine ⟨⟨fun hk hl heq => ?_, fun hk hl heq => ?_⟩, fun hk hl heq => ?_⟩
    · exact absurd (h 0 1 hk hl heq) (by decide)
    · exact absurd (h 0 2 hk hl heq) (by decide)
    · exact absurd (h 1 2 hk hl heq) (by decide)

theorem axesOf_ne_nil_iff (near far : View) (size : Fin 3 → ℤ) :
    axesOf near far size ≠ [] ↔ ∃ k, 1 < size k := by
  rw [axesOf_eq, Ne, List.filter_eq_nil_iff]
  simp [viewAxes, Fin.exists_fin_succ]
  omega

/-- Where a region writes no address twice the strides are distinct. -/
theorem WritesOnce.nodup {r : Region τ} (h : WritesOnce r) (hsize : ∀ k, 0 < r.size k) :
    ((axesOf r.dst r.src r.size).map Axis.near).Nodup := by
  rw [nodup_axesOf_iff]
  intro k l hk hl heq
  have hbox : ∀ k, 1 < r.size k → InBox r.size (Pi.single k 1) := by
    intro k hk m
    rcases eq_or_ne m k with rfl | hne
    · simpa using hk
    · simpa [hne] using hsize m
  have haddress : ∀ k, r.dst.address (Pi.single k 1) = r.dst.offset + r.dst.stride k := by
    intro k
    fin_cases k <;> simp [View.address]
  have hsingle := h _ _ (hbox k hk) (hbox l hl) (by rw [haddress, haddress, heq])
  by_contra hne
  have := congrFun hsingle k
  simp [hne] at this

/-! ### The copy of the origin -/

theorem isCopyRegion_iff {r : Region τ} : isCopyRegion r = true ↔
    ∀ k, r.src.stride k = r.dst.stride k ∨ r.size k ≤ 1 := by
  simp [isCopyRegion, Fin.forall_fin_succ]

/-- A copy region moves every address by the same distance. -/
theorem address_of_isCopyRegion {r : Region τ} (h : isCopyRegion r = true) {i : Fin 3 → ℤ}
    (hi : InBox r.size i) :
    r.src.address i = r.dst.address i + (r.src.offset - r.dst.offset) := by
  have hterm : ∀ k, i k * r.src.stride k = i k * r.dst.stride k := by
    intro k
    rcases isCopyRegion_iff.1 h k with heq | hone
    · rw [heq]
    · have := hi k
      obtain hzero : i k = 0 := by omega
      rw [hzero, zero_mul, zero_mul]
  simp only [View.address]
  linear_combination hterm 0 + hterm 1 + hterm 2

theorem srcCopy_exact_iff (null : τ) {a b : Region τ} (hcopy : isCopyRegion a = true)
    (hb : WritesOnce b) :
    (∃ c, applyMatch null .srcCopy a b = some c ∧ Composes a b c) ↔
      ∀ j, InBox b.size j → ∃ i, InBox a.size i ∧ a.dst.address i = b.src.address j := by
  have haddress : ∀ j, View.address { b.src with
      offset := b.src.offset + (a.src.offset - a.dst.offset) } j =
        b.src.address j + (a.src.offset - a.dst.offset) := by
    intro j
    simp only [View.address]
    ring
  constructor
  · rintro ⟨c, hc, hexact⟩ j hj
    obtain rfl := Option.some.inj hc
    obtain ⟨m, ⟨i, hi, -, hm⟩, j', hj', hm', ho⟩ :=
      (hexact _ (b.dst.address j)).1 ⟨j, hj, haddress j, rfl⟩
    obtain rfl := hb j' j hj' hj ho
    exact ⟨i, hi, hm.trans hm'.symm⟩
  · intro h
    refine ⟨_, rfl, fun s o => ?_⟩
    constructor
    · rintro ⟨j, hj, hs, ho⟩
      obtain ⟨i, hi, hij⟩ := h j hj
      refine ⟨b.src.address j, ⟨i, hi, ?_, hij⟩, j, hj, rfl, ho⟩
      rw [address_of_isCopyRegion hcopy hi, hij, ← hs, haddress]
    · rintro ⟨m, ⟨i, hi, hs, rfl⟩, j, hj, hm, ho⟩
      refine ⟨j, hj, ?_, ho⟩
      rw [haddress, hm, ← address_of_isCopyRegion hcopy hi, hs]

/-! ### The condition -/

/-- The two regions over their common strides: an extent is split where the other region has a
stride that it lacks.  Extents below two count as one. -/
def common (a b : Region τ) : Option (Region τ × Region τ) :=
  match expandAxes a b with
  | none => none
  | some (srcAxes, dstAxes) =>
    match reorder srcAxes dstAxes with
    | none => none
    | some new => (new.mapM id).map fun new => (srcOnAxes a new, dstOnAxes b dstAxes)

/-- Elements over common strides meet only if their indices differ by the digits of the offsets, and
the axes of `a` in their own order put the digits at the same place of the origin. -/
def NoCarry (a b a' b' : Region τ) : Prop :=
  (∀ i j, InBox a'.size i → InBox b'.size j → a'.dst.address i = b'.src.address j →
    i = fun k => j k + digitShift a' b' k) ∧
  ((∃ i j, InBox a'.size i ∧ InBox b'.size j ∧ a'.dst.address i = b'.src.address j) →
    offsetCompute a.dst a.src a.size b.src.offset a.dst.offset + a.src.offset =
      a'.src.address (digitShift a' b'))

/-- When the fused region is the composition.  As a copy of the origin: every address that `b` reads
is written by `a`.  Otherwise `b` has an extent above one, the strides of such extents are distinct,
and no digit carries; where an extent is not positive, no indices differ by the digits. -/
def FuseCondition (a b : Region τ) : Prop :=
  if isCopyRegion a = true ∧ copyValid a b = true then
    ∀ j, InBox b.size j → ∃ i, InBox a.size i ∧ a.dst.address i = b.src.address j
  else
    DistinctStrides b.src b.size ∧ ∀ a' b', common a b = some (a', b') →
      if (∀ k, 0 < a.size k) ∧ ∀ k, 0 < b.size k then NoCarry a b a' b'
      else ∀ j, InBox b'.size j → ¬ InBox a'.size fun k => j k + digitShift a' b' k

/-! ### The result of `match` -/

theorem near_pos_of_positiveStrides {r : Region τ} (h : positiveStrides r = true) :
    (∀ ax ∈ axesOf r.dst r.src r.size, 0 < ax.near) ∧
      ∀ ax ∈ axesOf r.src r.dst r.size, 0 < ax.near := by
  have hpos : ∀ k, 1 < r.size k → 0 < r.src.stride k ∧ 0 < r.dst.stride k := by
    intro k hk
    have hk' := List.all_eq_true.1 h k (by fin_cases k <;> simp)
    simp only [decide_eq_true_eq, not_and, not_or, not_le] at hk'
    exact hk' hk
  constructor <;> intro ax hax <;> obtain ⟨hax, hext⟩ := List.mem_filter.1 hax <;>
    obtain ⟨k, -, rfl⟩ := List.mem_map.1 hax
  · exact (hpos k (of_decide_eq_true hext)).2
  · exact (hpos k (of_decide_eq_true hext)).1

/-- What `match` does when it neither returns false nor copies the origin. -/
theorem matchRegion_spec {a b : Region τ} (h : matchRegion a b ≠ .rejected)
    (hcopy : ¬ (isCopyRegion a = true ∧ copyValid a b = true)) :
    (positiveStrides a = true ∧ positiveStrides b = true) ∧
    ∃ srcAxes dstAxes l o, expandAxes a b = some (srcAxes, dstAxes) ∧
      reorder srcAxes dstAxes = some l ∧
      clipOffset (dstAxes.map Axis.near) a.dst.offset b.src.offset = some o ∧
      ((l.mapM id = none ∧ matchRegion a b = .undefined) ∨
        ∃ new, l.mapM id = some new ∧ matchRegion a b = .regionCompute (placeWindow
          (statusOf b dstAxes new o (axesOf b.src b.dst b.size).length
            (offsetCompute a.dst a.src a.size b.src.offset a.dst.offset + a.src.offset)))) := by
  rw [matchRegion] at h ⊢
  by_cases hpos : positiveStrides a = true ∧ positiveStrides b = true
  · rw [if_neg (not_not.2 hpos), if_neg hcopy] at h ⊢
    refine ⟨hpos, ?_⟩
    cases haxes : expandAxes a b with
    | none => simp [haxes] at h
    | some axes =>
      obtain ⟨srcAxes, dstAxes⟩ := axes
      simp only [haxes] at h ⊢
      cases hl : reorder srcAxes dstAxes with
      | none => simp [hl] at h
      | some l =>
        simp only [hl] at h ⊢
        cases ho : clipOffset (dstAxes.map Axis.near) a.dst.offset b.src.offset with
        | none => simp [ho] at h
        | some o =>
          simp only [ho] at h ⊢
          refine ⟨srcAxes, dstAxes, l, o, rfl, hl, ho, ?_⟩
          cases hnew : l.mapM id with
          | none => exact .inl ⟨rfl, rfl⟩
          | some new =>
            refine .inr ⟨new, rfl, ?_⟩
            simp only [hnew, clipDst, clipWindow, ho, Option.map_some, Option.bind_some] at h ⊢
            split_ifs at h ⊢ with hslice
            · exact absurd rfl h
            · rfl
  · exact absurd rfl (by rwa [if_pos hpos] at h)

theorem Expanded.near_pos {extra : ℤ} {axes axes' : List Axis} (h : Expanded extra axes axes')
    (hpos : ∀ ax ∈ axes, 0 < ax.near) : ∀ s ∈ axes'.map Axis.near, 0 < s := by
  have hold : ∀ s ∈ axes.map Axis.near, 0 < s := by
    intro s hs
    obtain ⟨ax, hax, rfl⟩ := List.mem_map.1 hs
    exact hpos ax hax
  unfold Expanded at h
  split_ifs at h with hextra
  · intro s hs
    rcases List.mem_cons.1 (h.1.near_perm.mem_iff.1 hs) with rfl | hs
    · exact hextra
    · exact hold s hs
  · exact h ▸ hold

theorem Expanded.eq_nil_iff {extra : ℤ} {axes axes' : List Axis} (h : Expanded extra axes axes') :
    axes' = [] ↔ axes = [] := by
  unfold Expanded at h
  split_ifs at h
  · obtain ⟨⟨pre, post, _, _, _, _, -, -, rfl, rfl⟩, -⟩ := h
    simp
  · rw [h]

/-- The offsets of the clip are the digit differences of the regions over common strides. -/
theorem shift_spec {a b : Region τ} {dstAxes : List Axis} (new : List Axis) {o : List ℤ}
    (hlen : dstAxes.length ≤ 3) (hnodup : (dstAxes.map Axis.near).Nodup)
    (hpos : ∀ s ∈ dstAxes.map Axis.near, 0 < s)
    (ho : clipOffset (dstAxes.map Axis.near) a.dst.offset b.src.offset = some o) :
    o.length = dstAxes.length ∧
    pad o 0 = digitShift (srcOnAxes a new) (dstOnAxes b dstAxes) ∧
    pad o 0 0 * (dstOnAxes b dstAxes).src.stride 0 +
      pad o 0 1 * (dstOnAxes b dstAxes).src.stride 1 +
      pad o 0 2 * (dstOnAxes b dstAxes).src.stride 2 = b.src.offset - a.dst.offset := by
  have hlen' : (dstAxes.map Axis.near).length ≤ 3 := by rwa [List.length_map]
  obtain ⟨hdigit, hsum⟩ := clipOffset_spec hlen' hnodup ho
  have holen : o.length = (dstAxes.map Axis.near).length := by rw [hdigit, List.length_map]
  refine ⟨holen.trans (List.length_map ..), funext fun k => ?_, ?_⟩
  · have hnonneg : 0 ≤ pad (dstAxes.map Axis.near) 0 k := by
      by_contra hneg
      obtain ⟨s, hs, hneg⟩ :=
        (mem_iff_pad hlen' (fun s => s < 0) (lt_irrefl 0)).2 ⟨k, not_le.1 hneg⟩
      exact absurd (hpos s hs) (by omega)
    have hzero : ∀ x, digit (dstAxes.map Axis.near) 0 x = 0 := fun x => Int.tdiv_zero _
    have h := pad_map (fun s => digit (dstAxes.map Axis.near) s b.src.offset -
      digit (dstAxes.map Axis.near) s a.dst.offset) hlen' 0 k
    simp only [hzero, sub_self] at h
    rw [hdigit, h, digitShift]
    simp only [srcOnAxes, dstOnAxes, digit_pad hlen' hnonneg]
  · have hterm := fun k => pad_zipWith (· * ·) hlen' holen 0 0 k
    rw [sum_eq_pad (by rw [List.length_zipWith]; omega)] at hsum
    simp only [mul_zero] at hterm
    rw [hterm, hterm, hterm] at hsum
    simp only [dstOnAxes]
    linarith

/-- Regions with the same elements over other axes compose alike. -/
theorem composes_congr {a b a' b' c : Region τ} (ha : ∀ s m, a.Copies s m ↔ a'.Copies s m)
    (hb : ∀ m o, b.Copies m o ↔ b'.Copies m o) : Composes a b c ↔ Composes a' b' c := by
  simp only [Composes, ha, hb]

theorem copies_srcOnAxes {a : Region τ} {axes : List Axis}
    (h : Embeds (viewAxes a.dst a.src a.size) (viewAxes (srcOnAxes a axes).dst
      (srcOnAxes a axes).src (srcOnAxes a axes).size) ∧ Embeds (viewAxes (srcOnAxes a axes).dst
      (srcOnAxes a axes).src (srcOnAxes a axes).size) (viewAxes a.dst a.src a.size)) :
    (∀ s m, a.Copies s m ↔ (srcOnAxes a axes).Copies s m) ∧
      (WritesOnce a → WritesOnce (srcOnAxes a axes)) := by
  have hdst : (srcOnAxes a axes).dst.offset = a.dst.offset := rfl
  have hsrc : (srcOnAxes a axes).src.offset = a.src.offset := rfl
  refine ⟨fun s m => ⟨?_, ?_⟩, (injective_of_embeds hdst.symm hsrc.symm h.2).1⟩
  · rintro ⟨i, hi, hs, hm⟩
    obtain ⟨i', hi', hm', hs'⟩ := exists_of_embeds hdst hsrc h.1 ⟨i, hi, hm, hs⟩
    exact ⟨i', hi', hs', hm'⟩
  · rintro ⟨i, hi, hs, hm⟩
    obtain ⟨i', hi', hm', hs'⟩ := exists_of_embeds hdst.symm hsrc.symm h.2 ⟨i, hi, hm, hs⟩
    exact ⟨i', hi', hs', hm'⟩

theorem copies_dstOnAxes {b : Region τ} {axes : List Axis}
    (h : Embeds (viewAxes b.src b.dst b.size) (viewAxes (dstOnAxes b axes).src
      (dstOnAxes b axes).dst (dstOnAxes b axes).size) ∧ Embeds (viewAxes (dstOnAxes b axes).src
      (dstOnAxes b axes).dst (dstOnAxes b axes).size) (viewAxes b.src b.dst b.size)) :
    (∀ m o, b.Copies m o ↔ (dstOnAxes b axes).Copies m o) ∧
      (WritesOnce b → WritesOnce (dstOnAxes b axes)) := by
  have hsrc : (dstOnAxes b axes).src.offset = b.src.offset := rfl
  have hdst : (dstOnAxes b axes).dst.offset = b.dst.offset := rfl
  exact ⟨fun _ _ => ⟨exists_of_embeds hsrc hdst h.1, exists_of_embeds hsrc.symm hdst.symm h.2⟩,
    (injective_of_embeds hsrc.symm hdst.symm h.2).2⟩

/-- The fused region is there and copies the composition when the condition holds, and not
otherwise. -/
theorem exists_composes_iff (null : τ) {a b : Region τ} (ha : WritesOnce a) (hb : WritesOnce b)
    (hmatch : matchRegion a b ≠ .rejected) :
    (∃ c, fuse null a b = some c ∧ Composes a b c) ↔ FuseCondition a b := by
  unfold FuseCondition fuse
  by_cases hcopy : isCopyRegion a = true ∧ copyValid a b = true
  · have hstatus : matchRegion a b = .srcCopy := by
      rw [matchRegion] at hmatch ⊢
      by_cases hpos : positiveStrides a = true ∧ positiveStrides b = true
      · rw [if_neg (not_not.2 hpos), if_pos hcopy]
      · exact absurd (if_pos hpos) hmatch
    rw [if_pos hcopy, hstatus]
    exact srcCopy_exact_iff null hcopy.1 hb
  · rw [if_neg hcopy]
    obtain ⟨⟨hapos, hbpos⟩, srcAxes, dstAxes, l, o, haxes, hl, ho, hstatus⟩ :=
      matchRegion_spec hmatch hcopy
    obtain ⟨srcExtra, dstExtra, hsrc, hdst, hdstExtra, hsrcExtra, hsub⟩ := expandAxes_spec
      (near_pos_of_positiveStrides hapos).1 (near_pos_of_positiveStrides hbpos).2 haxes
    have hslots := exists_reorder_iff hl hsub
    have hdistinct := (hdst.nodup_iff hsrcExtra).trans (nodup_axesOf_iff b.src b.dst b.size)
    rcases hstatus with ⟨hnone, hundefined⟩ | ⟨new, hnew, hcompute⟩
    · -- a slot is read that was not written
      refine iff_of_false ?_ fun hcondition => ?_
      · rintro ⟨c, hc, -⟩
        rw [hundefined] at hc
        exact absurd hc (by simp [applyMatch])
      · obtain ⟨new, hnew⟩ := hslots.2 (hdistinct.2 hcondition.1.2)
        rw [mapM_id_eq_some.2 hnew] at hnone
        exact absurd hnone (by simp)
    · rw [hcompute]
      have hnew' := mapM_id_eq_some.1 hnew
      have hnodup := hslots.1 ⟨new, hnew'⟩
      obtain ⟨hnear, hperm⟩ := reorder_spec (hnew' ▸ hl)
      by_cases hne : dstAxes = []
      · -- no extent of `b` is above one
        have hnil : axesOf b.src b.dst b.size = [] := hdst.eq_nil_iff.1 hne
        refine iff_of_false ?_ fun hcondition =>
          (axesOf_ne_nil_iff b.src b.dst b.size).2 hcondition.1.1 hnil
        rintro ⟨c, hc, -⟩
        subst hne
        unfold placeWindow at hc
        split_ifs at hc <;> exact absurd hc (by simp [applyMatch, statusOf])
      · have hlen := hdst.length_le
        have hnewlen : new.length = dstAxes.length := by
          rw [← List.length_map Axis.near, hnear, List.length_map]
        obtain ⟨holen, hshift, hshiftsum⟩ := shift_spec new hlen hnodup
          (hdst.near_pos (near_pos_of_positiveStrides hbpos).2) ho
        obtain ⟨c, hc, hcopies⟩ := applyMatch_spec null a b
          (offsetCompute a.dst a.src a.size b.src.offset a.dst.offset + a.src.offset) hne hlen
          hnewlen holen (hdst.validExtents hsrcExtra)
        have hcommon : common a b = some (srcOnAxes a new, dstOnAxes b dstAxes) := by
          simp only [common, haxes, hl, hnew, Option.map_some]
        have hstride : (srcOnAxes a new).dst.stride = (dstOnAxes b dstAxes).src.stride :=
          congrArg (pad · 0) hnear
        rw [hshift] at hcopies hshiftsum
        have hexact : (∃ c', applyMatch null (.regionCompute (placeWindow (statusOf b dstAxes new o
            (axesOf b.src b.dst b.size).length (offsetCompute a.dst a.src a.size b.src.offset
              a.dst.offset + a.src.offset)))) a b = some c' ∧ Composes a b c') ↔
            Composes a b c := by
          rw [hc]
          refine ⟨?_, fun h => ⟨c, rfl, h⟩⟩
          rintro ⟨c', hc', h⟩
          exact Option.some.inj hc' ▸ h
        have hdistinct' : DistinctStrides b.src b.size :=
          ⟨(axesOf_ne_nil_iff b.src b.dst b.size).1 fun h => hne (hdst.eq_nil_iff.2 h),
            hdistinct.1 hnodup⟩
        rw [hexact, and_iff_right hdistinct']
        have hall : ∀ {P : Region τ → Region τ → Prop}, (∀ a' b', common a b = some (a', b') →
            P a' b') ↔ P (srcOnAxes a new) (dstOnAxes b dstAxes) := by
          intro P
          rw [hcommon]
          exact ⟨fun h => h _ _ rfl, fun h a' b' heq => by
            obtain ⟨rfl, rfl⟩ := Prod.mk.inj (Option.some.inj heq)
            exact h⟩
        rw [hall]
        by_cases hsize : (∀ k, 0 < a.size k) ∧ ∀ k, 0 < b.size k
        · rw [if_pos hsize]
          have hsrcnodup := (hsrc.nodup_iff hdstExtra).2 (ha.nodup hsize.1)
          obtain ⟨hacopies, haonce⟩ := copies_srcOnAxes
            (embeds_onAxes hsize.1 hsrc (hperm hsrcnodup))
          obtain ⟨hbcopies, hbonce⟩ := copies_dstOnAxes (embeds_onAxes hsize.2 hdst (.refl _))
          rw [composes_congr hacopies hbcopies]
          exact composes_iff hstride hshiftsum (haonce ha) (hbonce hb) hcopies
        · rw [if_neg hsize]
          -- the composition is empty
          have hempty : ∀ s t, ¬ ∃ m, a.Copies s m ∧ b.Copies m t := by
            rintro s t ⟨m, ⟨i, hi, -⟩, j, hj, -⟩
            exact hsize ⟨fun k => (hi k).1.trans_lt (hi k).2, fun k => (hj k).1.trans_lt (hj k).2⟩
          constructor
          · intro h j hj hi
            exact hempty _ _ ((h _ _).1 ((hcopies _ _).2 ⟨j, hj, hi, rfl, rfl⟩))
          · intro h s t
            refine iff_of_false (fun hst => ?_) (hempty s t)
            obtain ⟨j, hj, hi, -⟩ := (hcopies s t).1 hst
            exact h j hj hi

theorem WritesOnce.functional {r : Region τ} (h : WritesOnce r) : r.Functional := by
  rintro s s' o ⟨i, hi, rfl, hio⟩ ⟨j, hj, rfl, hjo⟩
  rw [h i j hi hj (hio.trans hjo.symm)]

/-- The composition gives what the two regions give in turn, over zeros. -/
theorem copy_of_composes {V : Type*} [Zero V] {a b c : Region τ} (ha : WritesOnce a)
    (hb : WritesOnce b) (h : Composes a b c) (content : ℤ → V) :
    b.copy (a.copy content fun _ => 0) (fun _ => 0) = c.copy content fun _ => 0 := by
  have hc : c.Functional := by
    intro s s' o hs hs'
    obtain ⟨m, hm, hmo⟩ := (h s o).1 hs
    obtain ⟨m', hm', hmo'⟩ := (h s' o).1 hs'
    obtain rfl := hb.functional hmo hmo'
    exact ha.functional hm hm'
  funext o
  by_cases hbo : ∃ m, b.Copies m o
  · obtain ⟨m, hm⟩ := hbo
    rw [Region.copy_of_copies hb.functional _ _ hm]
    by_cases ham : ∃ s, a.Copies s m
    · obtain ⟨s, hs⟩ := ham
      rw [Region.copy_of_copies ha.functional _ _ hs,
        Region.copy_of_copies hc _ _ ((h s o).2 ⟨m, hs, hm⟩)]
    · rw [Region.copy_of_not_copies _ _ fun s hs => ham ⟨s, hs⟩,
        Region.copy_of_not_copies _ _ fun s hs => ?_]
      obtain ⟨m', hm', hmo'⟩ := (h s o).1 hs
      obtain rfl := hb.functional hm hmo'
      exact ham ⟨s, hm'⟩
  · rw [Region.copy_of_not_copies _ _ fun m hm => hbo ⟨m, hm⟩,
      Region.copy_of_not_copies _ _ fun s hs => ?_]
    obtain ⟨m, -, hm⟩ := (h s o).1 hs
    exact hbo ⟨m, hm⟩

/-- **When fusing is exact.**  For regions that write no address twice, and that `match` does not
turn down, the fused region is there and copies exactly the composition if and only if
`FuseCondition` holds; it then gives what the two regions give in turn. -/
theorem fuse_exact_iff {V : Type*} [Zero V] (null : τ) {a b : Region τ} (ha : WritesOnce a)
    (hb : WritesOnce b) (hmatch : matchRegion a b ≠ .rejected) :
    ((∃ c, fuse null a b = some c ∧ Composes a b c) ↔ FuseCondition a b) ∧
      (FuseCondition a b → ∃ c, fuse null a b = some c ∧ ∀ content : ℤ → V,
        b.copy (a.copy content fun _ => 0) (fun _ => 0) = c.copy content fun _ => 0) := by
  have hiff := exists_composes_iff null ha hb hmatch
  refine ⟨hiff, fun hcondition => ?_⟩
  obtain ⟨c, hc, hexact⟩ := hiff.2 hcondition
  exact ⟨c, hc, copy_of_composes ha hb hexact⟩

/-! ### Two transpositions, and a copy with gaps -/

/-- The transposition of a matrix with three columns and two rows, and back. -/
def transpose : Region ℕ × Region ℕ :=
  ({ src := { stride := ![1, 1, 3] }, dst := { stride := ![6, 2, 1] }, size := ![1, 3, 2]
     origin := 1 },
    { src := { stride := ![6, 1, 2] }, dst := { stride := ![6, 3, 1] }, size := ![1, 2, 3]
      origin := 2 })

theorem fuse_exact_iff_transpose :
    (∃ c, fuse 0 transpose.1 transpose.2 = some c ∧ Composes transpose.1 transpose.2 c) ↔
      FuseCondition transpose.1 transpose.2 := by
  refine (fuse_exact_iff (V := ℕ) 0 (fun i j hi hj h => ?_) (fun i j hi hj h => ?_)
    (by decide)).1 <;>
  · have hi₀ := hi 0
    have hi₁ := hi 1
    have hi₂ := hi 2
    have hj₀ := hj 0
    have hj₁ := hj 1
    have hj₂ := hj 2
    simp [transpose, View.address] at h hi₀ hi₁ hi₂ hj₀ hj₁ hj₂
    funext k
    fin_cases k <;> simp <;> omega

/-- A copy of every other address, and a copy of the first three. -/
def gap : Region ℕ × Region ℕ :=
  ({ src := { stride := ![1, 1, 2] }, dst := { stride := ![1, 1, 2] }, size := ![1, 1, 4]
     origin := 1 },
    { size := ![1, 1, 3], origin := 2 })

/-- The copy of the origin also takes what the first copy leaves out. -/
theorem fuse_gap_not_exact : ¬ ∀ a b : Region ℕ,
    (0 ≤ a.src.offset ∧ 0 ≤ a.dst.offset ∧ 0 ≤ b.src.offset ∧ 0 ≤ b.dst.offset) →
    (∀ k, 0 ≤ a.size k ∧ 0 ≤ b.size k) → WritesOnce a → WritesOnce b →
    matchRegion a b ≠ .rejected → ∃ c, fuse 0 a b = some c ∧ Composes a b c := by
  intro h
  have hone : ∀ {n : ℤ} {i : Fin 3 → ℤ}, InBox ![1, 1, n] i → i 0 = 0 ∧ i 1 = 0 := by
    intro n i hi
    have hi₀ := hi 0
    have hi₁ := hi 1
    simp at hi₀ hi₁
    omega
  obtain ⟨c, hc, hexact⟩ := h gap.1 gap.2 (by decide) (by decide)
    (fun i j hi hj h => by
      obtain ⟨hi₀, hi₁⟩ := hone hi
      obtain ⟨hj₀, hj₁⟩ := hone hj
      simp [gap, View.address, hi₀, hi₁, hj₀, hj₁] at h
      funext k
      fin_cases k <;> simp [*])
    (fun i j hi hj h => by
      obtain ⟨hi₀, hi₁⟩ := hone hi
      obtain ⟨hj₀, hj₁⟩ := hone hj
      simp [gap, View.address, hi₀, hi₁, hj₀, hj₁] at h
      funext k
      fin_cases k <;> simp [*])
    (by decide)
  obtain rfl : { gap.2 with origin := 1 } = c := Option.some.inj (hc ▸ rfl)
  obtain ⟨m, ⟨i, hi, hs, -⟩, -⟩ := (hexact 1 1).1 ⟨![0, 0, 1], by decide, rfl, rfl⟩
  obtain ⟨hi₀, hi₁⟩ := hone hi
  simp [gap, View.address, hi₀, hi₁] at hs
  omega

/-! ### The fuse as flattening uses it -/

/-- `FuseWrap` with `FuseRegionStatus`. -/
def fuseWrap (null : τ) : FuseWrap τ where
  isMatch a b := matchRegion a b ≠ .rejected
  apply a b := (fuse null a b).getD b

/-- What is not emptied has the origin of the first region. -/
theorem origin_of_fuse {null : τ} {a b c : Region τ} (hmatch : matchRegion a b ≠ .rejected)
    (hc : fuse null a b = some c) (hsize : c.size 0 ≠ 0) : c.origin = a.origin := by
  unfold fuse at hc
  cases hstatus : matchRegion a b with
  | rejected => exact absurd hstatus hmatch
  | undefined =>
    rw [hstatus] at hc
    exact absurd hc (by simp [applyMatch])
  | srcCopy =>
    rw [hstatus] at hc
    obtain rfl := Option.some.inj hc
    rfl
  | regionCompute st =>
    rw [hstatus, applyMatch] at hc
    cases hdst : st.dstSize with
    | nil =>
      rw [hdst] at hc
      exact absurd hc (by simp)
    | cons first rest =>
      simp only [hdst] at hc
      split_ifs at hc with hfirst
      · obtain rfl := Option.some.inj hc
        exact absurd rfl hsize
      · obtain rfl := Option.some.inj hc
        rfl

/-- The fuse is exact on regions where its condition holds. -/
theorem fuseWrap_exactOn (null : τ) {S : Set (Region τ)} (hwrites : ∀ r ∈ S, WritesOnce r)
    (hcondition : ∀ a ∈ S, ∀ b ∈ S, matchRegion a b ≠ .rejected → FuseCondition a b)
    (hmem : ∀ a ∈ S, ∀ b ∈ S, matchRegion a b ≠ .rejected → (fuseWrap null).apply a b ∈ S)
    (hclear : ∀ b ∈ S, b.clearSize ∈ S) : (fuseWrap null).ExactOn S := by
  have hfuse : ∀ a ∈ S, ∀ b ∈ S, matchRegion a b ≠ .rejected →
      fuse null a b = some ((fuseWrap null).apply a b) ∧
        Composes a b ((fuseWrap null).apply a b) := by
    intro a ha b hb hmatch
    obtain ⟨c, hc, hexact⟩ := (exists_composes_iff null (hwrites a ha) (hwrites b hb) hmatch).2
      (hcondition a ha b hb hmatch)
    have happly : (fuseWrap null).apply a b = c := by
      show (fuse null a b).getD b = c
      rw [hc, Option.getD_some]
    exact happly ▸ ⟨hc, hexact⟩
  refine ⟨fun a ha b hb h hsize => ?_, fun a ha b hb h => ?_, fun a ha b hb h => ?_, hclear⟩
  · exact origin_of_fuse (of_decide_eq_true h) (hfuse a ha b hb (of_decide_eq_true h)).1 hsize
  · exact (hfuse a ha b hb (of_decide_eq_true h)).2
  · exact hmem a ha b hb (of_decide_eq_true h)

end FuseRegion

end Mnn
