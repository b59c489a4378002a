import Mathlib.Data.List.ReduceOption
import Mnn.Geometry.FuseRegion

/-!
# The axes of the regions to fuse

What the first half of `match` does with the axes of the two regions.

* `expandStrideSize_spec`: one axis is split, which leaves the box as it is;
* `expandAxes_spec`: afterwards every stride of `dstReg` is one of `srcReg`;
* `reorder_spec`, `exists_reorder_iff`: the axes of `srcReg` in the order of those of `dstReg`;
  every slot is written exactly when the strides of `dstReg` are distinct.
-/

namespace Mnn

open Lib (Axis Index Embeds distance)

namespace FuseRegion

variable {τ : Type*}

/-- All axes of two views of a box. -/
def viewAxes (near far : View) (size : Fin 3 → ℤ) : List Axis :=
  ([0, 1, 2] : List (Fin 3)).map fun i => ⟨near.stride i, far.stride i, size i⟩

theorem axesOf_eq (near far : View) (size : Fin 3 → ℤ) :
    axesOf near far size = (viewAxes near far size).filter fun ax => ax.extent > 1 := rfl

theorem index_viewAxes {near far : View} {size : Fin 3 → ℤ} {l : List ℤ} :
    Index (viewAxes near far size) l ↔ ∃ i, InBox size i ∧ l = [i 0, i 1, i 2] := by
  constructor
  · intro h
    obtain ⟨k₀, l₁, h₀, hl₁, rfl⟩ := Lib.index_cons.1 h
    obtain ⟨k₁, l₂, h₁, hl₂, rfl⟩ := Lib.index_cons.1 hl₁
    obtain ⟨k₂, l₃, h₂, hl₃, rfl⟩ := Lib.index_cons.1 hl₂
    obtain rfl := Lib.index_nil.1 hl₃
    refine ⟨![k₀, k₁, k₂], fun k => ?_, rfl⟩
    fin_cases k
    · exact h₀
    · exact h₁
    · exact h₂
  · rintro ⟨i, hi, rfl⟩
    exact .cons (hi 0) (.cons (hi 1) (.cons (hi 2) .nil))

theorem address_eq_near (near far : View) (size i : Fin 3 → ℤ) : near.address i =
    near.offset + distance Axis.near (viewAxes near far size) [i 0, i 1, i 2] := by
  simp only [View.address, viewAxes, List.map_cons, List.map_nil, distance]
  ring

theorem address_eq_far (near far : View) (size i : Fin 3 → ℤ) : far.address i =
    far.offset + distance Axis.far (viewAxes near far size) [i 0, i 1, i 2] := by
  simp only [View.address, viewAxes, List.map_cons, List.map_nil, distance]
  ring

section Views

variable {near far near' far' : View} {size size' : Fin 3 → ℤ}
  (hnear : near'.offset = near.offset) (hfar : far'.offset = far.offset)
  (h : Embeds (viewAxes near far size) (viewAxes near' far' size'))

include hnear hfar h

/-- The elements of a box, with their addresses, and their images in another one. -/
theorem exists_embedding : ∃ f : (Fin 3 → ℤ) → (Fin 3 → ℤ), ∀ i, InBox size i →
    InBox size' (f i) ∧ near'.address (f i) = near.address i ∧
      far'.address (f i) = far.address i ∧ ∀ j, InBox size j → f i = f j → i = j := by
  obtain ⟨f, hf⟩ := h
  refine ⟨fun i => ![(f [i 0, i 1, i 2]).getD 0 0, (f [i 0, i 1, i 2]).getD 1 0,
    (f [i 0, i 1, i 2]).getD 2 0], fun i hi => ?_⟩
  have hindex : ∀ j, InBox size j → Index (viewAxes near far size) [j 0, j 1, j 2] :=
    fun j hj => index_viewAxes.2 ⟨j, hj, rfl⟩
  obtain ⟨hfi, hdnear, hdfar, hinj⟩ := hf _ (hindex i hi)
  obtain ⟨i', hi', heq⟩ := index_viewAxes.1 hfi
  have hi'eq : ![(f [i 0, i 1, i 2]).getD 0 0, (f [i 0, i 1, i 2]).getD 1 0,
      (f [i 0, i 1, i 2]).getD 2 0] = i' := by
    rw [heq]
    funext k
    fin_cases k <;> rfl
  simp only [hi'eq]
  refine ⟨hi', ?_, ?_, fun j hj hij => ?_⟩
  · rw [address_eq_near near' far' size', address_eq_near near far size, ← heq, hdnear, hnear]
  · rw [address_eq_far near' far' size', address_eq_far near far size, ← heq, hdfar, hfar]
  · obtain ⟨hfj, -⟩ := hf _ (hindex j hj)
    obtain ⟨j', -, heq'⟩ := index_viewAxes.1 hfj
    rw [heq'] at hij
    have hij' : i' = j' := by
      rw [hij]
      funext k
      fin_cases k <;> rfl
    have hlist := hinj _ (hindex j hj) (by rw [heq, heq', hij'])
    simp only [List.cons.injEq, and_true] at hlist
    funext k
    fin_cases k
    · exact hlist.1
    · exact hlist.2.1
    · exact hlist.2.2

end Views

/-! ### Splitting an axis -/

/-- What `expandStrideSize` does: an axis is split so that its outer part has stride `v`. -/
def Splits (v : ℤ) (axes axes' : List Axis) : Prop :=
  ∃ pre post near far outer inner, 0 < inner ∧ inner * near = v ∧
    axes = pre ++ ⟨near, far, outer * inner⟩ :: post ∧
    axes' = pre ++ ⟨inner * near, inner * far, outer⟩ :: ⟨near, far, inner⟩ :: post

theorem expandLoop_spec {v : ℤ} (hv : 0 < v) {axes axes' : List Axis}
    (hpos : ∀ ax ∈ axes, 0 < ax.near) (n : ℕ) (h : expandLoop v axes n = some axes') :
    Splits v axes axes' ∧ axes.length < 3 := by
  induction n with
  | zero => simp [expandLoop] at h
  | succ n ih =>
    rw [expandLoop] at h
    match hget : axes[n]? with
    | none => simp [hget] at h
    | some ax =>
      simp only [hget] at h
      split_ifs at h with hdvd hlen
      · obtain ⟨hn, rfl⟩ := List.getElem?_eq_some_iff.1 hget
        have hnear := hpos _ (List.getElem_mem hn)
        have hv' : axes[n].near * v.tdiv axes[n].near = v := by
          have := Int.mul_tdiv_add_tmod v axes[n].near
          omega
        have hext : v.tdiv axes[n].near * axes[n].extent.tdiv (v.tdiv axes[n].near) =
            axes[n].extent := by
          have := Int.mul_tdiv_add_tmod axes[n].extent (v.tdiv axes[n].near)
          omega
        have hinner : 0 < v.tdiv axes[n].near :=
          (mul_pos_iff_of_pos_left hnear).1 (hv'.symm ▸ hv)
        refine ⟨⟨axes.take n, axes.drop (n + 1), axes[n].near, axes[n].far,
          axes[n].extent.tdiv (v.tdiv axes[n].near), v.tdiv axes[n].near, hinner,
          by rw [mul_comm, hv'], ?_, ?_⟩, hlen⟩
        · rw [mul_comm, hext, List.getElem_cons_drop, List.take_append_drop]
        · rw [mul_comm _ axes[n].near, hv', Option.some.inj h]
      · exact ih h

theorem Splits.embeds {v : ℤ} {axes axes' : List Axis} (h : Splits v axes axes') :
    Embeds axes axes' ∧ Embeds axes' axes := by
  obtain ⟨pre, post, near, far, outer, inner, hinner, -, rfl, rfl⟩ := h
  exact ⟨(Lib.embeds_split near far outer hinner post).append_left pre,
    (Lib.embeds_merge near far outer hinner post).append_left pre⟩

theorem Splits.near_perm {v : ℤ} {axes axes' : List Axis} (h : Splits v axes axes') :
    (axes'.map Axis.near).Perm (v :: axes.map Axis.near) := by
  obtain ⟨pre, post, near, far, outer, inner, -, rfl, rfl, rfl⟩ := h
  simp only [List.map_append, List.map_cons]
  exact List.perm_middle

/-- The strides are distinct and the extents above one but for one axis, which may be the outer part
of the one that was split. -/
theorem Splits.extent {v : ℤ} {axes axes' : List Axis} (h : Splits v axes axes')
    (hv : v ∉ axes.map Axis.near) (hext : ∀ ax ∈ axes, 1 < ax.extent) :
    axes'.length = axes.length + 1 ∧ (∀ ax ∈ axes', 1 ≤ ax.extent) ∧
      ∃ pre ax post, axes' = pre ++ ax :: post ∧ ∀ ax' ∈ pre ++ post, 1 < ax'.extent := by
  obtain ⟨pre, post, near, far, outer, inner, hinner, rfl, rfl, rfl⟩ := h
  have hone : inner ≠ 1 := by
    rintro rfl
    exact hv (by simp)
  have houter : 0 < outer := by
    have hprod : 1 < outer * inner := hext ⟨near, far, outer * inner⟩ (by simp)
    exact pos_of_mul_pos_left (by omega) hinner.le
  have hrest : ∀ ax' ∈ pre ++ ⟨near, far, inner⟩ :: post, 1 < ax'.extent := by
    intro ax' hax'
    rcases List.mem_append.1 hax' with hmem | hmem
    · exact hext ax' (by simp [hmem])
    · rcases List.mem_cons.1 hmem with rfl | hmem
      · show 1 < inner
        omega
      · exact hext ax' (by simp [hmem])
  refine ⟨by simp; omega, fun ax' hax' => ?_, pre, _, _, rfl, hrest⟩
  rcases List.mem_append.1 hax' with hmem | hmem
  · exact (hrest ax' (List.mem_append_left _ hmem)).le
  · rcases List.mem_cons.1 hmem with rfl | hmem
    · show 1 ≤ outer
      omega
    · exact (hrest ax' (List.mem_append_right _ hmem)).le

/-! ### The strides of both -/

theorem strideExtra_spec {x y : List ℤ} {r : ℤ} (h : strideExtra x y = some r) :
    (∀ v ∈ x, 0 < v → v ∈ y ∨ v = r) ∧ (0 < r → r ∈ x ∧ r ∉ y) := by
  have key : ∀ (x : List ℤ) (r₀ : ℤ), x.foldlM (fun r v =>
      if v ∈ y then some r else if r > 0 then none else some v) r₀ = some r →
      (∀ v ∈ x, 0 < v → v ∈ y ∨ v = r) ∧ (0 < r → r = r₀ ∨ r ∈ x ∧ r ∉ y) ∧
        (0 < r₀ → r = r₀) := by
    intro x
    induction x with
    | nil =>
      intro r₀ h
      obtain rfl : r₀ = r := Option.some.inj h
      exact ⟨fun v hv => absurd hv List.not_mem_nil, fun _ => .inl rfl, fun _ => rfl⟩
    | cons w x ih =>
      intro r₀ h
      rw [List.foldlM_cons] at h
      by_cases hw : w ∈ y
      · rw [if_pos hw] at h
        obtain ⟨hall, hfrom, hkeep⟩ := ih r₀ h
        refine ⟨fun v hv hpos => ?_, fun hr => ?_, hkeep⟩
        · rcases List.mem_cons.1 hv with rfl | hv
          · exact .inl hw
          · exact hall v hv hpos
        · exact (hfrom hr).imp_right fun ⟨hmem, hnot⟩ => ⟨List.mem_cons_of_mem w hmem, hnot⟩
      · rw [if_neg hw] at h
        by_cases hr₀ : r₀ > 0
        · rw [if_pos hr₀] at h
          exact absurd h (by simp)
        · rw [if_neg hr₀] at h
          obtain ⟨hall, hfrom, hkeep⟩ := ih w h
          refine ⟨fun v hv hpos => ?_, fun hr => ?_, fun hpos => absurd hpos hr₀⟩
          · rcases List.mem_cons.1 hv with rfl | hv
            · exact .inr (hkeep hpos).symm
            · exact hall v hv hpos
          · rcases hfrom hr with rfl | ⟨hmem, hnot⟩
            · exact .inr ⟨List.mem_cons_self, hw⟩
            · exact .inr ⟨List.mem_cons_of_mem w hmem, hnot⟩
  obtain ⟨hall, hfrom, -⟩ := key x (-1) h
  exact ⟨hall, fun hr => (hfrom hr).resolve_left (by omega)⟩

theorem mem_padStride {axes : List Axis} {v : ℤ} (hv : 0 < v) :
    v ∈ padStride axes ↔ v ∈ axes.map Axis.near := by
  have hne : v ≠ -1 := by omega
  simp [padStride, hne]

/-- The axes after `expandStrideSize`, which is called when `extra` is positive. -/
def Expanded (extra : ℤ) (axes axes' : List Axis) : Prop :=
  if extra > 0 then Splits extra axes axes' ∧ axes.length < 3 else axes' = axes

theorem expandAxes_spec {srcReg dstReg : Region τ} {srcAxes' dstAxes' : List Axis}
    (hsrc : ∀ ax ∈ axesOf srcReg.dst srcReg.src srcReg.size, 0 < ax.near)
    (hdst : ∀ ax ∈ axesOf dstReg.src dstReg.dst dstReg.size, 0 < ax.near)
    (h : expandAxes srcReg dstReg = some (srcAxes', dstAxes')) :
    ∃ srcExtra dstExtra,
      Expanded dstExtra (axesOf srcReg.dst srcReg.src srcReg.size) srcAxes' ∧
      Expanded srcExtra (axesOf dstReg.src dstReg.dst dstReg.size) dstAxes' ∧
      (0 < dstExtra → dstExtra ∉ (axesOf srcReg.dst srcReg.src srcReg.size).map Axis.near) ∧
      (0 < srcExtra → srcExtra ∉ (axesOf dstReg.src dstReg.dst dstReg.size).map Axis.near) ∧
      ∀ v ∈ dstAxes'.map Axis.near, v ∈ srcAxes'.map Axis.near := by
  generalize hs : axesOf srcReg.dst srcReg.src srcReg.size = srcAxes at *
  generalize hd : axesOf dstReg.src dstReg.dst dstReg.size = dstAxes at *
  simp only [expandAxes, hs, hd] at h
  obtain ⟨srcExtra, hsrcExtra, h⟩ := Option.bind_eq_some_iff.1 h
  obtain ⟨dstExtra, hdstExtra, h⟩ := Option.bind_eq_some_iff.1 h
  obtain ⟨srcNew, hsrcNew, h⟩ := Option.bind_eq_some_iff.1 h
  obtain ⟨dstNew, hdstNew, h⟩ := Option.bind_eq_some_iff.1 h
  obtain ⟨rfl, rfl⟩ := Prod.mk.inj (Option.some.inj h)
  obtain ⟨hsrcAll, hsrcFrom⟩ := strideExtra_spec hsrcExtra
  obtain ⟨hdstAll, hdstFrom⟩ := strideExtra_spec hdstExtra
  have hexpanded : ∀ {extra : ℤ} {axes axes' : List Axis}, (∀ ax ∈ axes, 0 < ax.near) →
      expandExtra axes extra = some axes' → Expanded extra axes axes' := by
    intro extra axes axes' hpos h
    unfold Expanded
    unfold expandExtra at h
    split_ifs at h ⊢ with hextra
    · exact expandLoop_spec hextra hpos _ h
    · exact (Option.some.inj h).symm
  have hsrc' := hexpanded hsrc hsrcNew
  have hdst' := hexpanded hdst hdstNew
  refine ⟨srcExtra, dstExtra, hsrc', hdst', fun hpos => ?_, fun hpos => ?_, fun v hv => ?_⟩
  · exact fun hmem => (hdstFrom hpos).2 ((mem_padStride hpos).2 hmem)
  · exact fun hmem => (hsrcFrom hpos).2 ((mem_padStride hpos).2 hmem)
  · -- a stride of `dstReg` is one of `srcReg`, or is the one by which `srcReg` was expanded
    have hsub : ∀ v ∈ srcAxes.map Axis.near, v ∈ srcNew.map Axis.near := by
      intro v hv
      unfold Expanded at hsrc'
      split_ifs at hsrc'
      · exact hsrc'.1.near_perm.mem_iff.2 (List.mem_cons_of_mem _ hv)
      · rwa [hsrc']
    have hold : ∀ v ∈ dstAxes.map Axis.near, v ∈ srcNew.map Axis.near := by
      intro v hv
      obtain ⟨ax, hax, rfl⟩ := List.mem_map.1 hv
      have hpos := hdst ax hax
      rcases hdstAll ax.near ((mem_padStride hpos).2 hv) hpos with hmem | heq
      · exact hsub _ ((mem_padStride hpos).1 hmem)
      · unfold Expanded at hsrc'
        rw [if_pos (heq ▸ hpos)] at hsrc'
        exact hsrc'.1.near_perm.mem_iff.2 (heq ▸ List.mem_cons_self)
    unfold Expanded at hdst'
    split_ifs at hdst' with hextra
    · rcases List.mem_cons.1 (hdst'.1.near_perm.mem_iff.1 hv) with rfl | hv
      · exact hsub _ ((mem_padStride hextra).1 (hsrcFrom hextra).1)
      · exact hold v hv
    · exact hold v (hdst' ▸ hv)

/-! ### Reordering -/

/-- The slot of `reorder` for an axis of `srcReg`. -/
def slot (dst : List Axis) (ax : Axis) : Option ℕ := dst.findIdx? fun d => d.near = ax.near

theorem slot_eq_some_iff {dst : List Axis} {ax : Axis} {j : ℕ} :
    slot dst ax = some j ↔ ∃ h : j < dst.length, dst[j].near = ax.near ∧
      ∀ k (hk : k < j), dst[k].near ≠ ax.near := by
  simp [slot, List.findIdx?_eq_some_iff_getElem]

/-- The loop of `reorder`, from the slots `new` on. -/
def reorderFrom (dst src : List Axis) (new : List (Option Axis)) : Option (List (Option Axis)) :=
  src.foldlM (fun new ax => (slot dst ax).map fun index => new.set index (some ax)) new

theorem reorderFrom_cons {dst src : List Axis} {ax : Axis} {new new' : List (Option Axis)}
    (h : reorderFrom dst (ax :: src) new = some new') :
    ∃ j, slot dst ax = some j ∧ reorderFrom dst src (new.set j (some ax)) = some new' := by
  obtain ⟨new₁, hstep, hrest⟩ := Option.bind_eq_some_iff.1 h
  obtain ⟨j, hj, rfl⟩ := Option.map_eq_some_iff.1 hstep
  exact ⟨j, hj, hrest⟩

/-- A slot holds an axis with its stride. -/
theorem reorderFrom_slot {dst src : List Axis} {new new' : List (Option Axis)}
    (h : reorderFrom dst src new = some new')
    (hnew : ∀ {j ax}, new[j]? = some (some ax) → slot dst ax = some j) {j : ℕ} {ax : Axis}
    (hj : new'[j]? = some (some ax)) : slot dst ax = some j := by
  induction src generalizing new with
  | nil =>
    obtain rfl := Option.some.inj h
    exact hnew hj
  | cons ax' src ih =>
    obtain ⟨k, hk, hrest⟩ := reorderFrom_cons h
    refine ih hrest fun {i ax} hi => ?_
    by_cases hik : k = i
    · subst hik
      have hlen : k < new.length := by
        have := (List.getElem?_eq_some_iff.1 hi).1
        rwa [List.length_set] at this
      rw [List.getElem?_set_self hlen] at hi
      obtain rfl := Option.some.inj (Option.some.inj hi)
      exact hk
    · rw [List.getElem?_set_ne hik] at hi
      exact hnew hi

theorem length_reorderFrom {dst src : List Axis} {new new' : List (Option Axis)}
    (h : reorderFrom dst src new = some new') : new'.length = new.length := by
  induction src generalizing new with
  | nil => rw [Option.some.inj h]
  | cons ax src ih =>
    obtain ⟨k, -, hrest⟩ := reorderFrom_cons h
    rw [ih hrest, List.length_set]

/-- The slot of an axis is written, and stays so. -/
theorem reorderFrom_filled {dst src : List Axis} {new new' : List (Option Axis)}
    (h : reorderFrom dst src new = some new') {j : ℕ} (hlen : j < new.length)
    (hj : (∃ ax ∈ src, slot dst ax = some j) ∨ ∃ ax, new[j]? = some (some ax)) :
    ∃ ax, new'[j]? = some (some ax) := by
  induction src generalizing new with
  | nil =>
    obtain rfl := Option.some.inj h
    rcases hj with ⟨ax, hax, -⟩ | hj
    · exact absurd hax List.not_mem_nil
    · exact hj
  | cons ax' src ih =>
    obtain ⟨k, hk, hrest⟩ := reorderFrom_cons h
    refine ih hrest (by rwa [List.length_set]) ?_
    by_cases hkj : k = j
    · subst hkj
      exact .inr ⟨ax', List.getElem?_set_self hlen⟩
    · rcases hj with ⟨ax, hax, hslot⟩ | hj
      · rcases List.mem_cons.1 hax with rfl | hax
        · exact absurd (Option.some.inj (hk.symm.trans hslot)) hkj
        · exact .inl ⟨ax, hax, hslot⟩
      · exact .inr (by rwa [List.getElem?_set_ne hkj])

theorem reduceOption_set {α : Type*} {l : List (Option α)} {j : ℕ} (h : l[j]? = some none) (a : α) :
    (l.set j (some a)).reduceOption.Perm (a :: l.reduceOption) := by
  induction l generalizing j with
  | nil => simp at h
  | cons x l ih =>
    cases j with
    | zero =>
      obtain rfl : x = none := by simpa using h
      rw [List.set_cons_zero, List.reduceOption_cons_of_some, List.reduceOption_cons_of_none]
    | succ j =>
      rw [List.set_cons_succ]
      have ih := ih (by simpa using h)
      cases x with
      | none => rwa [List.reduceOption_cons_of_none, List.reduceOption_cons_of_none]
      | some b =>
        rw [List.reduceOption_cons_of_some, List.reduceOption_cons_of_some]
        exact (ih.cons b).trans (.swap a b _)

/-- Axes with distinct strides go to distinct slots. -/
theorem reorderFrom_perm {dst src : List Axis} (hsrc : (src.map Axis.near).Nodup)
    {new new' : List (Option Axis)} (h : reorderFrom dst src new = some new')
    (hfree : ∀ ax ∈ src, ∀ j, slot dst ax = some j → new[j]? = some none) :
    new'.reduceOption.Perm (src ++ new.reduceOption) := by
  induction src generalizing new with
  | nil =>
    obtain rfl := Option.some.inj h
    exact .refl _
  | cons ax src ih =>
    obtain ⟨k, hk, hrest⟩ := reorderFrom_cons h
    obtain ⟨hax, hsrc'⟩ := List.nodup_cons.1 hsrc
    have ih := ih hsrc' hrest fun ax' hax' j hj => by
      have hne : k ≠ j := by
        rintro rfl
        obtain ⟨hlen, hnear, -⟩ := slot_eq_some_iff.1 hk
        obtain ⟨_, hnear', -⟩ := slot_eq_some_iff.1 hj
        exact hax (hnear ▸ hnear' ▸ List.mem_map_of_mem hax')
      rw [List.getElem?_set_ne hne]
      exact hfree ax' (List.mem_cons_of_mem ax hax') j hj
    refine ih.trans ?_
    refine ((reduceOption_set (hfree ax List.mem_cons_self k hk) ax).append_left src).trans ?_
    exact List.perm_middle

theorem mapM_id_eq_some {α : Type*} {l : List (Option α)} {l' : List α} :
    l.mapM id = some l' ↔ l = l'.map some := by
  induction l generalizing l' with
  | nil => cases l' <;> simp
  | cons x l ih =>
    rw [List.mapM_cons]
    cases x with
    | none => cases l' <;> simp
    | some a =>
      constructor
      · intro h
        obtain ⟨l'', hl'', heq⟩ := Option.bind_eq_some_iff.1 (show (l.mapM id).bind
          (fun l => some (a :: l)) = some l' from h)
        rw [ih.1 hl'', ← Option.some.inj heq, List.map_cons]
      · intro h
        cases l' with
        | nil => simp at h
        | cons b l' =>
          obtain ⟨hab, hl⟩ := List.cons.inj h
          obtain rfl := Option.some.inj hab
          simp [ih.2 hl]

theorem reduceOption_map_some {α : Type*} (l : List α) : (l.map some).reduceOption = l := by
  induction l with
  | nil => rfl
  | cons a l ih => rw [List.map_cons, List.reduceOption_cons_of_some, ih]

theorem slot_of_reorder {src dst : List Axis} {l : List (Option Axis)}
    (h : reorder src dst = some l) {j : ℕ} {ax : Axis} (hj : l[j]? = some (some ax)) :
    slot dst ax = some j :=
  reorderFrom_slot h (fun {j ax} hnone => by
    rw [List.getElem?_map] at hnone
    obtain ⟨_, -, heq⟩ := Option.map_eq_some_iff.1 hnone
    exact absurd heq (by simp)) hj

/-- The axes of `srcReg` in the order of those of `dstReg`. -/
theorem reorder_spec {src dst new : List Axis} (h : reorder src dst = some (new.map some)) :
    new.map Axis.near = dst.map Axis.near ∧ ((src.map Axis.near).Nodup → new.Perm src) := by
  constructor
  · apply List.ext_getElem?
    intro j
    have hlen : new.length = dst.length := by
      simpa using length_reorderFrom h
    rw [List.getElem?_map, List.getElem?_map]
    rcases lt_or_ge j new.length with hj | hj
    · have hslot : (new.map some)[j]? = some (some new[j]) := by
        rw [List.getElem?_map, List.getElem?_eq_getElem hj]
        rfl
      obtain ⟨hlt, hnear, -⟩ := slot_eq_some_iff.1 (slot_of_reorder h hslot)
      rw [List.getElem?_eq_getElem hj, List.getElem?_eq_getElem hlt, Option.map_some,
        Option.map_some, hnear]
    · rw [List.getElem?_eq_none hj, List.getElem?_eq_none (hlen ▸ hj)]
  · intro hsrc
    have hperm := reorderFrom_perm hsrc h fun ax _ j hj => by
      obtain ⟨hlt, -⟩ := slot_eq_some_iff.1 hj
      rw [List.getElem?_map, List.getElem?_eq_getElem hlt]
      rfl
    have hnone : ((dst.map fun _ => none : List (Option Axis))).reduceOption = [] := by
      rw [List.map_const', List.reduceOption_replicate_none]
    rwa [reduceOption_map_some, hnone, List.append_nil] at hperm

/-- All slots are written exactly when the strides of `dstReg` are distinct. -/
theorem exists_reorder_iff {src dst : List Axis} {l : List (Option Axis)}
    (h : reorder src dst = some l) (hsub : ∀ v ∈ dst.map Axis.near, v ∈ src.map Axis.near) :
    (∃ new : List Axis, l = new.map some) ↔ (dst.map Axis.near).Nodup := by
  have hlen : l.length = dst.length := by
    simpa using length_reorderFrom h
  constructor
  · rintro ⟨new, rfl⟩
    rw [List.length_map] at hlen
    refine List.pairwise_iff_getElem.2 fun i j hi hj hij heq => ?_
    rw [List.length_map] at hi hj
    -- the later of two equal strides is never the first that is found
    have hj' : j < new.length := hlen ▸ hj
    have hslot : (new.map some)[j]? = some (some new[j]) := by
      rw [List.getElem?_map, List.getElem?_eq_getElem hj']
      rfl
    obtain ⟨_, hnear, hfirst⟩ := slot_eq_some_iff.1 (slot_of_reorder h hslot)
    simp only [List.getElem_map] at heq
    exact hfirst i hij (heq.trans hnear)
  · intro hnodup
    have hfilled : ∀ j, j < l.length → ∃ ax, l[j]? = some (some ax) := by
      intro j hj
      have hjdst : j < dst.length := hlen ▸ hj
      obtain ⟨ax, hax, hnear⟩ := List.mem_map.1 (hsub dst[j].near
        (List.mem_map_of_mem (List.getElem_mem hjdst)))
      refine reorderFrom_filled h (by simpa using hjdst) (.inl ⟨ax, hax, slot_eq_some_iff.2
        ⟨hjdst, hnear.symm, fun k hk heq => ?_⟩⟩)
      refine List.pairwise_iff_getElem.1 hnodup k j (by rw [List.length_map]; omega)
        (by rwa [List.length_map]) hk ?_
      rw [List.getElem_map, List.getElem_map, heq, hnear]
    refine ⟨l.reduceOption, ?_⟩
    clear h hlen
    induction l with
    | nil => rfl
    | cons x l ih =>
      obtain ⟨ax, hax⟩ := hfilled 0 (by simp)
      obtain rfl : x = some ax := by simpa using hax
      rw [List.reduceOption_cons_of_some, List.map_cons,
        ← ih fun j hj => hfilled (j + 1) (Nat.succ_lt_succ hj)]

end FuseRegion

end Mnn
