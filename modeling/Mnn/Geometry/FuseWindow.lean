import Mathlib.Data.List.GetD
import Mnn.Geometry.FuseAxes

/-!
# The window of a fused region

What the second half of `match` and `apply` do, for axes that the two regions have in common.

* `pad`: at most three axes as the three of a region;
* `clipOffset_spec`: the offsets of the clip are the differences of the digits of the two offsets;
* `applyMatch_spec`: the region that `apply` leaves.
-/

namespace Mnn

open Lib (Axis Index Embeds distance digit)

namespace FuseRegion

variable {τ : Type*}

/-! ### Three axes -/

/-- A list of at most three, filled up in front. -/
def pad (l : List ℤ) (d : ℤ) : Fin 3 → ℤ := fun k => (List.replicate (3 - l.length) d ++ l).getD k d

theorem not_length_le {α : Type*} {x y z w : α} {l : List α} :
    ¬ (x :: y :: z :: w :: l).length ≤ 3 := by
  simp only [List.length_cons]
  omega

theorem pad_map (f : ℤ → ℤ) {l : List ℤ} (h : l.length ≤ 3) (d : ℤ) (k : Fin 3) :
    pad (l.map f) (f d) k = f (pad l d k) := by
  match l with
  | [] => fin_cases k <;> rfl
  | [x] => fin_cases k <;> rfl
  | [x, y] => fin_cases k <;> rfl
  | [x, y, z] => fin_cases k <;> rfl
  | _ :: _ :: _ :: _ :: _ => exact absurd h not_length_le

theorem pad_zipWith (f : ℤ → ℤ → ℤ) {l l' : List ℤ} (h : l.length ≤ 3) (hlen : l'.length = l.length)
    (d d' : ℤ) (k : Fin 3) :
    pad (List.zipWith f l l') (f d d') k = f (pad l d k) (pad l' d' k) := by
  match l, l', hlen with
  | [], [], _ => fin_cases k <;> rfl
  | [x], [x'], _ => fin_cases k <;> rfl
  | [x, y], [x', y'], _ => fin_cases k <;> rfl
  | [x, y, z], [x', y', z'], _ => fin_cases k <;> rfl
  | _ :: _ :: _ :: _ :: _, _, _ => exact absurd h not_length_le

theorem sum_eq_pad {l : List ℤ} (h : l.length ≤ 3) :
    l.sum = pad l 0 0 + pad l 0 1 + pad l 0 2 := by
  match l with
  | [] => rfl
  | [x] => simp [pad]
  | [x, y] => simp [pad]
  | [x, y, z] => simp [pad, add_assoc]
  | _ :: _ :: _ :: _ :: _ => exact absurd h not_length_le

theorem mem_iff_pad {l : List ℤ} (h : l.length ≤ 3) {d : ℤ} (p : ℤ → Prop) (hd : ¬ p d) :
    (∃ x ∈ l, p x) ↔ ∃ k, p (pad l d k) := by
  match l with
  | [] => simp [pad, Fin.exists_fin_succ, hd]
  | [x] => simp [pad, Fin.exists_fin_succ, hd]
  | [x, y] => simp [pad, Fin.exists_fin_succ, hd]
  | [x, y, z] => simp [pad, Fin.exists_fin_succ]
  | _ :: _ :: _ :: _ :: _ => exact absurd h not_length_le

theorem sizeLoop_eq {dstMin dstMax : List ℤ} (h : dstMax.length ≤ 3)
    (hlen : dstMin.length = dstMax.length) :
    sizeLoop (3 - dstMax.length) dstMax.length dstMin dstMax =
      pad (List.zipWith (· - ·) dstMax dstMin) 1 := by
  funext k
  match dstMax, dstMin, hlen with
  | [], [], _ => fin_cases k <;> rfl
  | [x], [x'], _ => fin_cases k <;> rfl
  | [x, y], [x', y'], _ => fin_cases k <;> rfl
  | [x, y, z], [x', y', z'], _ => fin_cases k <;> rfl
  | _ :: _ :: _ :: _ :: _, _, _ => exact absurd h not_length_le

theorem strideLoop_eq {valid : ℕ → Bool} {newSrc dstDst : List ℤ} (h : newSrc.length ≤ 3)
    (hlen : dstDst.length = newSrc.length) (hvalid : ∀ i, valid i = decide (i < newSrc.length)) :
    (strideLoop (3 - newSrc.length) valid newSrc dstDst).1 = pad newSrc 0 ∧
      (strideLoop (3 - newSrc.length) valid newSrc dstDst).2.1 = pad dstDst 0 := by
  obtain rfl : valid = fun i => decide (i < newSrc.length) := funext hvalid
  match newSrc, dstDst, hlen with
  | [], [], _ => constructor <;> funext k <;> fin_cases k <;> rfl
  | [x], [x'], _ => constructor <;> funext k <;> fin_cases k <;> rfl
  | [x, y], [x', y'], _ => constructor <;> funext k <;> fin_cases k <;> rfl
  | [x, y, z], [x', y', z'], _ => constructor <;> funext k <;> fin_cases k <;> rfl
  | _ :: _ :: _ :: _ :: _, _, _ => exact absurd h not_length_le

/-! ### The offsets of the clip -/

theorem clipOffset_two {s t : ℤ} (hst : s ≠ t) {srcOffset dstOffset : ℤ} {o : List ℤ}
    (h : clipOffset [s, t] srcOffset dstOffset = some o) :
    o = [s, t].map (fun r => digit [s, t] r dstOffset - digit [s, t] r srcOffset) ∧
      (List.zipWith (· * ·) [s, t] o).sum = dstOffset - srcOffset := by
  have hsum : ∀ x a b : ℤ, (x.tmod a).tmod b = 0 → a * x.tdiv a + b * (x.tmod a).tdiv b = x := by
    intro x a b h
    have ha := Int.mul_tdiv_add_tmod x a
    have hb := Int.mul_tdiv_add_tmod (x.tmod a) b
    linarith
  rcases lt_or_gt_of_ne hst with h₁ | h₁ <;>
  · simp [clipOffset, validIndex, h₁, h₁.not_gt] at h
    obtain ⟨hrem, rfl⟩ := h
    have hs := hsum _ _ _ hrem.1
    have hd := hsum _ _ _ hrem.2
    constructor
    · simp [digit, h₁, h₁.not_gt]
    · simp
      linarith

theorem clipOffset_three {s t u : ℤ} (hst : s ≠ t) (hsu : s ≠ u) (htu : t ≠ u)
    {srcOffset dstOffset : ℤ} {o : List ℤ} (h : clipOffset [s, t, u] srcOffset dstOffset = some o) :
    o = [s, t, u].map (fun r => digit [s, t, u] r dstOffset - digit [s, t, u] r srcOffset) ∧
      (List.zipWith (· * ·) [s, t, u] o).sum = dstOffset - srcOffset := by
  have hsum : ∀ x a b c : ℤ, ((x.tmod a).tmod b).tmod c = 0 →
      a * x.tdiv a + b * (x.tmod a).tdiv b + c * ((x.tmod a).tmod b).tdiv c = x := by
    intro x a b c h
    have ha := Int.mul_tdiv_add_tmod x a
    have hb := Int.mul_tdiv_add_tmod (x.tmod a) b
    have hc := Int.mul_tdiv_add_tmod ((x.tmod a).tmod b) c
    linarith
  -- one case for each order of the three strides, the other two are contradictory
  rcases lt_or_gt_of_ne hst with h₁ | h₁ <;> rcases lt_or_gt_of_ne hsu with h₂ | h₂ <;>
    rcases lt_or_gt_of_ne htu with h₃ | h₃ <;> first | omega | skip
  all_goals
    simp [clipOffset, validIndex, h₁, h₂, h₃, h₁.not_gt, h₂.not_gt, h₃.not_gt] at h
    obtain ⟨hrem, rfl⟩ := h
    have hs := hsum _ _ _ _ hrem.1
    have hd := hsum _ _ _ _ hrem.2
    constructor
    · simp [digit, h₁, h₂, h₃, h₁.not_gt, h₂.not_gt, h₃.not_gt, h₁.le, h₂.le, h₃.le, h₁.not_ge,
        h₂.not_ge, h₃.not_ge]
    · simp
      linarith

/-- The offsets of the clip are the differences of the digits. -/
theorem clipOffset_spec {stride : List ℤ} (hlen : stride.length ≤ 3) (hnodup : stride.Nodup)
    {srcOffset dstOffset : ℤ} {o : List ℤ} (h : clipOffset stride srcOffset dstOffset = some o) :
    o = stride.map (fun s => digit stride s dstOffset - digit stride s srcOffset) ∧
      (List.zipWith (· * ·) stride o).sum = dstOffset - srcOffset := by
  match stride with
  | [] =>
    simp only [clipOffset, if_true] at h
    split_ifs at h with heq
    obtain rfl := Option.some.inj h
    exact ⟨rfl, heq.symm⟩
  | [s] =>
    have hs := Int.mul_tdiv_add_tmod srcOffset s
    have hd := Int.mul_tdiv_add_tmod dstOffset s
    simp [clipOffset, validIndex] at h
    obtain ⟨hrem, rfl⟩ := h
    constructor
    · simp [digit]
    · simp
      linarith
  | [s, t] =>
    refine clipOffset_two ?_ h
    simpa using hnodup
  | [s, t, u] =>
    obtain ⟨⟨hst, hsu⟩, htu⟩ : (s ≠ t ∧ s ≠ u) ∧ t ≠ u := by simpa using hnodup
    exact clipOffset_three hst hsu htu h
  | _ :: _ :: _ :: _ :: _ => exact absurd hlen not_length_le

/-! ### Regions over common strides -/

/-- `srcReg` with other axes, their near side in the middle tensor. -/
def srcOnAxes (srcReg : Region τ) (axes : List Axis) : Region τ :=
  { srcReg with
    dst := { srcReg.dst with stride := pad (axes.map Axis.near) 0 }
    src := { srcReg.src with stride := pad (axes.map Axis.far) 0 }
    size := pad (axes.map Axis.extent) 1 }

/-- `dstReg` with other axes, their near side in the middle tensor. -/
def dstOnAxes (dstReg : Region τ) (axes : List Axis) : Region τ :=
  { dstReg with
    src := { dstReg.src with stride := pad (axes.map Axis.near) 0 }
    dst := { dstReg.dst with stride := pad (axes.map Axis.far) 0 }
    size := pad (axes.map Axis.extent) 1 }

/-- The difference of the digits of the two offsets in the middle tensor. -/
def digitShift (a b : Region τ) (k : Fin 3) : ℤ :=
  digit [b.src.stride 0, b.src.stride 1, b.src.stride 2] (b.src.stride k) b.src.offset -
    digit [b.src.stride 0, b.src.stride 1, b.src.stride 2] (b.src.stride k) a.dst.offset

/-! ### The region that `apply` leaves -/

section Apply

variable {dstAxes new : List Axis} {o : List ℤ} (hlen : dstAxes.length ≤ 3)
  (hnew : new.length = dstAxes.length) (ho : o.length = dstAxes.length)

include hlen hnew ho

theorem pad_clip (k : Fin 3) :
    pad (clipMin o) 0 k = max 0 (-pad o 0 k) ∧
      pad (clipMax (new.map Axis.extent) (dstAxes.map Axis.extent) o) 1 k =
        min (pad (new.map Axis.extent) 1 k - pad o 0 k) (pad (dstAxes.map Axis.extent) 1 k) := by
  constructor
  · have h := pad_map (fun oi => max 0 (-oi)) (ho ▸ hlen) 0 k
    rwa [show max 0 (-0 : ℤ) = 0 by simp] at h
  · have hlen₁ : (new.map Axis.extent).length ≤ 3 := by rwa [List.length_map, hnew]
    have hlen₂ : o.length = (new.map Axis.extent).length := by rw [ho, List.length_map, hnew]
    have hlen₃ : (List.zipWith (· - ·) (new.map Axis.extent) o).length = dstAxes.length := by
      rw [List.length_zipWith, ← hlen₂, min_self, ho]
    have hsub := pad_zipWith (· - ·) hlen₁ hlen₂ 1 0 k
    have h := pad_zipWith (fun s i => min s i) (hlen₃ ▸ hlen)
      ((List.length_map (f := Axis.extent)).trans hlen₃.symm) 1 1 k
    rw [show (1 : ℤ) - 0 = 1 by norm_num] at hsub
    rwa [hsub, show min (1 : ℤ) 1 = 1 by simp] at h

/-- The sum by which `match` moves an offset to the window. -/
theorem sum_window {stride : List ℤ} (hs : stride.length = dstAxes.length) :
    (List.zipWith (fun min s => if min > 0 then min * s else 0) (clipMin o) stride).sum =
      pad (clipMin o) 0 0 * pad stride 0 0 + pad (clipMin o) 0 1 * pad stride 0 1 +
        pad (clipMin o) 0 2 * pad stride 0 2 := by
  have hclip : (clipMin o).length = dstAxes.length := by rw [clipMin, List.length_map, ho]
  have hterm : ∀ k, pad (List.zipWith (fun min s => if min > 0 then min * s else 0) (clipMin o)
      stride) 0 k = pad (clipMin o) 0 k * pad stride 0 k := by
    intro k
    have h := pad_zipWith (fun min s => if min > 0 then min * s else 0) (hclip ▸ hlen)
      (hs.trans hclip.symm) 0 0 k
    simp only [lt_self_iff_false, gt_iff_lt, if_false] at h
    have hnonneg : 0 ≤ pad (clipMin o) 0 k := by
      rw [(pad_clip hlen hnew ho k).1]
      exact le_max_left ..
    rcases hnonneg.eq_or_lt with hzero | hpos
    · simpa [← hzero] using h
    · simpa [hpos] using h
  rw [sum_eq_pad (by rw [List.length_zipWith, hclip, hs, min_self]; exact hlen), hterm, hterm,
    hterm]

/-- A window is empty when it is so along one axis. -/
theorem any_window : (List.zipWith (fun min max => decide (max ≤ min)) (clipMin o)
    (clipMax (new.map Axis.extent) (dstAxes.map Axis.extent) o)).any id = true ↔
      ∃ k, pad (clipMax (new.map Axis.extent) (dstAxes.map Axis.extent) o) 1 k ≤
        pad (clipMin o) 0 k := by
  have hmin : (clipMin o).length = dstAxes.length := by rw [clipMin, List.length_map, ho]
  have hmax : (clipMax (new.map Axis.extent) (dstAxes.map Axis.extent) o).length =
      dstAxes.length := by
    simp [clipMax, ho, hnew]
  generalize clipMin o = dstMin at *
  generalize clipMax (new.map Axis.extent) (dstAxes.map Axis.extent) o = dstMax at *
  rw [← hmin] at hlen hmax
  match dstMin, dstMax, hmax with
  | [], [], _ => simp [pad, Fin.exists_fin_succ]
  | [x], [x'], _ => simp [pad, Fin.exists_fin_succ]
  | [x, y], [x', y'], _ => simp [pad, Fin.exists_fin_succ]
  | [x, y, z], [x', y', z'], _ => simp [pad, Fin.exists_fin_succ]
  | _ :: _ :: _ :: _ :: _, _, _ => exact absurd hlen not_length_le

end Apply

/-- The extents are above one, but for one axis after an expansion. -/
def ValidExtents (sizeNum : ℕ) (axes : List Axis) : Prop :=
  (∀ ax ∈ axes, 1 < ax.extent) ∨ axes.length > sizeNum ∧ (∀ ax ∈ axes, 1 ≤ ax.extent) ∧
    ∃ pre ax post, axes = pre ++ ax :: post ∧ ∀ ax' ∈ pre ++ post, 1 < ax'.extent

theorem ValidExtents.one_le {sizeNum : ℕ} {axes : List Axis} (h : ValidExtents sizeNum axes) :
    ∀ ax ∈ axes, 1 ≤ ax.extent := by
  rcases h with h | ⟨-, h, -⟩
  · exact fun ax hax => (h ax hax).le
  · exact h

theorem ValidExtents.valid {st : RegionCompute} {axes : List Axis}
    (h : ValidExtents st.sizeNum axes) (hst : st.dstSize = axes.map Axis.extent) (i : ℕ) :
    st.valid i = decide (i < axes.length) := by
  rw [Bool.eq_iff_iff, decide_eq_true_eq]
  simp only [RegionCompute.valid, hst, decide_eq_true_eq, List.length_map]
  constructor
  · rintro (h | ⟨-, h⟩)
    · by_contra hi
      rw [List.getD_eq_default _ _ (by rw [List.length_map]; omega)] at h
      omega
    · obtain ⟨hi, -⟩ := List.findIdx?_eq_some_iff_getElem.1 h
      rwa [List.length_map] at hi
  · intro hi
    have hget : (axes.map Axis.extent).getD i 0 = axes[i].extent := by
      rw [List.getD_eq_getElem _ _ (by rwa [List.length_map]), List.getElem_map]
    rw [hget]
    rcases h with h | ⟨hnum, hone, pre, ax, post, rfl, hrest⟩
    · exact .inl (h _ (List.getElem_mem hi))
    · by_cases hax : ax.extent = 1
      · rcases lt_trichotomy i pre.length with hlt | rfl | hgt
        · rw [List.getElem_append_left hlt]
          exact .inl (hrest _ (List.mem_append_left _ (List.getElem_mem hlt)))
        · refine .inr ⟨by simpa using hnum, List.findIdx?_eq_some_iff_getElem.2 ⟨by simp, ?_, ?_⟩⟩
          · simp [hax]
          · intro j hj
            have hpre := hrest pre[j] (List.mem_append_left _ (List.getElem_mem hj))
            simp only [List.getElem_map, List.getElem_append_left hj, decide_eq_true_eq]
            omega
        · refine .inl (hrest _ (List.mem_append_right _ ?_))
          rw [List.getElem_append_right hgt.le]
          obtain ⟨m, hm⟩ := Nat.exists_eq_add_of_lt hgt
          simp only [hm, Nat.add_sub_cancel_left, Nat.add_assoc, List.getElem_cons_succ]
          exact List.getElem_mem _
      · have hax' : 1 < ax.extent := by
          have := hone ax (by simp)
          omega
        have hmem := List.getElem_mem hi
        rcases List.mem_append.1 hmem with hmem | hmem
        · exact .inl (hrest _ (List.mem_append_left _ hmem))
        · rcases List.mem_cons.1 hmem with heq | hmem
          · exact .inl (by rw [heq]; exact hax')
          · exact .inl (hrest _ (List.mem_append_right _ hmem))

theorem applyMatch_of_ne_zero (null : τ) (srcReg dstReg : Region τ) {st : RegionCompute} {first : ℤ}
    {rest : List ℤ} (h : st.dstSize = first :: rest) (hfirst : first ≠ 0) :
    applyMatch null (.regionCompute st) srcReg dstReg = some
      { src :=
          { offset := st.newSrcOffset
            stride := (strideLoop (3 - st.dstSize.length) st.valid st.newSrc st.dstDst).1 }
        dst :=
          { offset := st.newDstOffset
            stride := (strideLoop (3 - st.dstSize.length) st.valid st.newSrc st.dstDst).2.1 }
        size := sizeLoop (3 - st.dstSize.length) st.dstSize.length st.dstMin st.dstMax
        origin := srcReg.origin } := by
  rw [applyMatch, h]
  exact if_neg hfirst

section Apply

variable {dstAxes new : List Axis} {o : List ℤ} {sizeNum : ℕ}

/-- The members before the last loop of `match`. -/
def statusOf (dstReg : Region τ) (dstAxes new : List Axis) (o : List ℤ) (sizeNum : ℕ) (place : ℤ) :
    RegionCompute :=
  { sizeNum
    dstSize := dstAxes.map Axis.extent
    dstDst := dstAxes.map Axis.far
    newSrc := new.map Axis.far
    dstMin := clipMin o
    dstMax := clipMax (new.map Axis.extent) (dstAxes.map Axis.extent) o
    newSrcOffset := place
    newDstOffset := dstReg.dst.offset }

/-- The region of a window that is not empty. -/
def windowRegion (srcReg dstReg : Region τ) (dstAxes new : List Axis) (o : List ℤ) (place : ℤ) :
    Region τ where
  src :=
    { offset := place + (List.zipWith (fun min s => if min > 0 then min * s else 0)
        (clipMin o) (new.map Axis.far)).sum
      stride := pad (new.map Axis.far) 0 }
  dst :=
    { offset := dstReg.dst.offset + (List.zipWith (fun min s => if min > 0 then min * s else 0)
        (clipMin o) (dstAxes.map Axis.far)).sum
      stride := pad (dstAxes.map Axis.far) 0 }
  size := pad (List.zipWith (· - ·) (clipMax (new.map Axis.extent) (dstAxes.map Axis.extent) o)
    (clipMin o)) 1
  origin := srcReg.origin

section Window

variable (hlen : dstAxes.length ≤ 3) (hnew : new.length = dstAxes.length)
  (ho : o.length = dstAxes.length)

include hnew ho

theorem length_clipMax :
    (clipMax (new.map Axis.extent) (dstAxes.map Axis.extent) o).length = dstAxes.length := by
  simp [clipMax, ho, hnew]

include hlen

/-- The loops of `apply` leave the region of the window. -/
theorem applyMatch_window (null : τ) (srcReg dstReg : Region τ) (place : ℤ) (hne : dstAxes ≠ [])
    (hvalid : ValidExtents sizeNum dstAxes)
    (hwindow : ¬ ∃ k, pad (clipMax (new.map Axis.extent) (dstAxes.map Axis.extent) o) 1 k ≤
      pad (clipMin o) 0 k) :
    applyMatch null (.regionCompute (placeWindow (statusOf dstReg dstAxes new o sizeNum place)))
      srcReg dstReg = some (windowRegion srcReg dstReg dstAxes new o place) := by
  have hplace : placeWindow (statusOf dstReg dstAxes new o sizeNum place) = _ :=
    if_neg (mt (any_window hlen hnew ho).1 hwindow)
  obtain ⟨ax, axes, rfl⟩ := List.exists_cons_of_ne_nil hne
  have hfirst : ax.extent ≠ 0 := by
    have := hvalid.one_le ax List.mem_cons_self
    omega
  have hmax := length_clipMax hnew ho
  have hmin : (clipMin o).length = (ax :: axes).length := by rw [clipMin, List.length_map, ho]
  have hnewlen : (new.map Axis.far).length = (ax :: axes).length := by rw [List.length_map, hnew]
  have hsize := sizeLoop_eq (hmax ▸ hlen) (hmin.trans hmax.symm)
  have hvalid' : ∀ i, (placeWindow (statusOf dstReg (ax :: axes) new o sizeNum place)).valid i =
      decide (i < (new.map Axis.far).length) := by
    rw [hplace, hnewlen]
    exact hvalid.valid rfl
  have hfar : ((ax :: axes).map Axis.far).length = (new.map Axis.far).length := by
    rw [hnewlen, List.length_map]
  have hstride := strideLoop_eq (hnewlen ▸ hlen) hfar hvalid'
  rw [hmax] at hsize
  rw [hnewlen] at hstride
  have hdstNum :
      (placeWindow (statusOf dstReg (ax :: axes) new o sizeNum place)).dstSize.length =
        (ax :: axes).length := by
    rw [hplace]
    exact List.length_map ..
  unfold windowRegion
  rw [applyMatch_of_ne_zero null srcReg dstReg (by rw [hplace]; rfl) hfirst, hdstNum, ← hsize,
    ← hstride.1, ← hstride.2, hplace]
  rfl

/-- It has the elements of `dstReg` whose shifted index is one of `srcReg`: its own index counts
from the first of them. -/
theorem windowRegion_copies (srcReg dstReg : Region τ) (place s t : ℤ) :
    (windowRegion srcReg dstReg dstAxes new o place).Copies s t ↔
      ∃ j, InBox (dstOnAxes dstReg dstAxes).size j ∧
        InBox (srcOnAxes srcReg new).size (fun k => j k + pad o 0 k) ∧
        View.address { offset := place, stride := (srcOnAxes srcReg new).src.stride } j = s ∧
        (dstOnAxes dstReg dstAxes).dst.address j = t := by
  have hmax := length_clipMax hnew ho
  have hmin : (clipMin o).length = dstAxes.length := by rw [clipMin, List.length_map, ho]
  have hwidth : ∀ k, pad (List.zipWith (· - ·) (clipMax (new.map Axis.extent)
      (dstAxes.map Axis.extent) o) (clipMin o)) 1 k =
      min (pad (new.map Axis.extent) 1 k - pad o 0 k) (pad (dstAxes.map Axis.extent) 1 k) -
        pad (clipMin o) 0 k := by
    intro k
    rw [← (pad_clip hlen hnew ho k).2]
    have h := pad_zipWith (· - ·) (hmax ▸ hlen) (hmin.trans hmax.symm) 1 0 k
    rwa [show (1 : ℤ) - 0 = 1 by norm_num] at h
  have hmin' := fun k => (pad_clip hlen hnew ho k).1
  simp only [windowRegion]
  rw [sum_window hlen hnew ho (by rw [List.length_map, hnew]),
    sum_window hlen hnew ho (by rw [List.length_map])]
  simp only [Region.Copies, dstOnAxes, srcOnAxes, View.address]
  constructor
  · rintro ⟨i, hi, rfl, rfl⟩
    refine ⟨fun k => i k + pad (clipMin o) 0 k, fun k => ?_, fun k => ?_, by ring, by ring⟩ <;>
    · have hik := hi k
      rw [hwidth] at hik
      have := hmin' k
      simp only
      omega
  · rintro ⟨j, hj, hi, rfl, rfl⟩
    refine ⟨fun k => j k - pad (clipMin o) 0 k, fun k => ?_, by ring, by ring⟩
    have hjk := hj k
    have hik := hi k
    have := hmin' k
    rw [hwidth]
    simp only at hjk hik ⊢
    omega

end Window

/-- **What `apply` leaves**: the elements of `dstReg` whose shifted index is one of `srcReg`. -/
theorem applyMatch_spec (null : τ) (srcReg dstReg : Region τ) (place : ℤ) (hne : dstAxes ≠ [])
    (hlen : dstAxes.length ≤ 3)
    (hnew : new.length = dstAxes.length) (ho : o.length = dstAxes.length)
    (hvalid : ValidExtents sizeNum dstAxes) :
    ∃ c, applyMatch null (.regionCompute (placeWindow
        (statusOf dstReg dstAxes new o sizeNum place))) srcReg dstReg = some c ∧
      ∀ s t, c.Copies s t ↔ ∃ j, InBox (dstOnAxes dstReg dstAxes).size j ∧
        InBox (srcOnAxes srcReg new).size (fun k => j k + pad o 0 k) ∧
        View.address { offset := place, stride := (srcOnAxes srcReg new).src.stride } j = s ∧
        (dstOnAxes dstReg dstAxes).dst.address j = t := by
  by_cases hempty : ∃ k, pad (clipMax (new.map Axis.extent) (dstAxes.map Axis.extent) o) 1 k ≤
      pad (clipMin o) 0 k
  · have hplace : placeWindow (statusOf dstReg dstAxes new o sizeNum place) =
        { statusOf dstReg dstAxes new o sizeNum place with
          dstSize := (dstAxes.map Axis.extent).map fun _ => 0 } :=
      if_pos ((any_window hlen hnew ho).2 hempty)
    refine ⟨{ dstReg with size := setAt dstReg.size 0 0, origin := null }, ?_, fun s t => ?_⟩
    · obtain ⟨ax, axes, rfl⟩ := List.exists_cons_of_ne_nil hne
      rw [hplace]
      rfl
    · refine iff_of_false (Region.not_copies_of_size (k := 0) ?_ s t) ?_
      · simp [setAt]
      · rintro ⟨j, hj, hi, -⟩
        obtain ⟨k, hk⟩ := hempty
        rw [(pad_clip hlen hnew ho k).1, (pad_clip hlen hnew ho k).2] at hk
        have hjk := hj k
        have hik := hi k
        simp only [dstOnAxes, srcOnAxes] at hjk hik
        omega
  · exact ⟨_, applyMatch_window hlen hnew ho null srcReg dstReg place hne hvalid hempty,
      windowRegion_copies hlen hnew ho srcReg dstReg place⟩

end Apply

end FuseRegion

end Mnn
