import Mathlib.Logic.Hydra
import Mnn.Geometry.RasterCache

/-!
# Runs of the flattening recursion

* `run_spec`: what a finished call keeps and leaves, by induction on its steps;
* `run_terminates`: on an acyclic graph every call finishes, since a pass puts earlier origins in
  the place of one, and a recursive call is for an earlier tensor;
* `existsUnique_value`: on an acyclic graph the contents determine what all tensors hold;
* `getRasterCacheCreateRecursive_spec`: the three together.
-/

namespace Mnn

namespace Context

variable {τ : Type*} [DecidableEq τ]

/-! ### What a call leaves alone -/

/-- The tensor has become materialised, or was left alone. -/
def Settled (d d' : Describe τ) : Prop :=
  d' = d ∨ d'.rasterCommand = true ∧ d'.memoryVirtual = d.memoryVirtual

/-- A call for `src` changes no tensors but `src` and earlier ones, and settles those. -/
def Frame (lt : τ → τ → Prop) (src : τ) (G G' : Context τ) : Prop :=
  ∀ u, Settled (G.tensors u) (G'.tensors u) ∧ (G'.tensors u ≠ G.tensors u → u = src ∨ lt u src)

omit [DecidableEq τ] in
theorem Settled.trans {d d' d'' : Describe τ} (h : Settled d d') (h' : Settled d' d'') :
    Settled d d'' := by
  rcases h' with rfl | ⟨hr', hm'⟩
  · exact h
  · rcases h with rfl | ⟨-, hm⟩
    · exact .inr ⟨hr', hm'⟩
    · exact .inr ⟨hr', hm'.trans hm⟩

omit [DecidableEq τ] in
theorem Settled.memoryVirtual {d d' : Describe τ} (h : Settled d d') :
    d'.memoryVirtual = d.memoryVirtual := by
  rcases h with rfl | ⟨-, h⟩
  · rfl
  · exact h

omit [DecidableEq τ] in
theorem Frame.refl {lt : τ → τ → Prop} {src : τ} (G : Context τ) : Frame lt src G G :=
  fun _ => ⟨.inl rfl, fun h => absurd rfl h⟩

omit [DecidableEq τ] in
/-- A region that cannot be fused stays so when its origin is settled. -/
theorem not_canFuse_of_settled {mask : FuseMask} {fuse : FuseWrap τ} {G G' : Context τ}
    {r : Region τ} (h : ¬ CanFuse mask fuse G r)
    (hframe : Settled (G.tensors r.origin) (G'.tensors r.origin)) : ¬ CanFuse mask fuse G' r := by
  rintro ⟨hv, hrest⟩
  rcases hframe with hsame | ⟨hraster, -⟩
  · exact h (by unfold CanFuse; rw [← hsame]; exact ⟨hv, hrest⟩)
  · simp [Describe.virtualMemory, hraster] at hv

/-- No region of the tensor can be fused. -/
def Flat (mask : FuseMask) (fuse : FuseWrap τ) (G : Context τ) (src : τ) : Prop :=
  ∀ r ∈ (G.tensors src).regions, ¬ CanFuse mask fuse G r

/-! ### The end of a call -/

theorem createRaster_tensors {G : Context τ} {src : τ} (h : (G.tensors src).virtualMemory = true) :
    (G.createRaster src).tensors =
      Function.update G.tensors src { G.tensors src with rasterCommand := true } := by
  rw [createRaster, if_pos h]
  rfl

/-- The regions of `src` after its loop. -/
def remaining (G : Context τ) (src : τ) (needDelete : Bool) : List (Region τ) :=
  if needDelete then (G.tensors src).regions.filter fun r => !r.isEmpty
  else (G.tensors src).regions

theorem finish_tensors {G : Context τ} {src : τ} (h : (G.tensors src).virtualMemory = true)
    (needDelete : Bool) : (G.finish src needDelete).tensors = Function.update G.tensors src
      { G.tensors src with rasterCommand := true, regions := G.remaining src needDelete } := by
  cases needDelete with
  | false => exact createRaster_tensors h
  | true =>
    have hset : ((G.setRegions src ((G.tensors src).regions.filter fun r => !r.isEmpty)).tensors
        src).virtualMemory = true := by rwa [setRegions_self]
    refine (createRaster_tensors hset).trans ?_
    rw [setRegions_self, setRegions, modify, Function.update_idem]
    rfl

omit [DecidableEq τ] in
theorem remaining_sublist (G : Context τ) (src : τ) (needDelete : Bool) :
    (G.remaining src needDelete).Sublist (G.tensors src).regions := by
  cases needDelete with
  | false => exact List.Sublist.refl _
  | true => exact List.filter_sublist

omit [DecidableEq τ] in
/-- The loop that deletes regions keeps those that copy something. -/
theorem mem_remaining_iff {G : Context τ} {src : τ} (needDelete : Bool) {r : Region τ} {s o : ℤ}
    (h : r.Copies s o) : r ∈ G.remaining src needDelete ↔ r ∈ (G.tensors src).regions := by
  have hsize : ∀ k, r.size k ≠ 0 := fun k hk => Region.not_copies_of_size (k := k) hk.le s o h
  cases needDelete with
  | false => exact Iff.rfl
  | true => simp [remaining, Region.isEmpty, hsize]

section Spec

variable {V : Type*} [Zero V] {lt : τ → τ → Prop} {S : Set (Region τ)} {X : Set τ}
  {mask : FuseMask} {fuse : FuseWrap τ}

/-- What a call for `src` keeps. -/
structure Kept (V : Type*) [Zero V] (lt : τ → τ → Prop) (S : Set (Region τ)) (X : Set τ) (src : τ)
    (G G' : Context τ) : Prop where
  wellFormed : G'.WellFormed lt S X
  frame : Frame lt src G G'
  value : ∀ {content value : τ → ℤ → V}, IsValue content value G → IsValue content value G'

omit [DecidableEq τ] in
theorem Kept.refl {src : τ} {G : Context τ} (h : G.WellFormed lt S X) : Kept V lt S X src G G :=
  ⟨h, .refl G, id⟩

omit [DecidableEq τ] in
/-- A call for an earlier tensor, then the rest of the loop. -/
theorem Kept.trans (htrans : ∀ a b c, lt a b → lt b c → lt a c) {X' : Set τ} {src o : τ}
    (ho : lt o src) {G G₁ G' : Context τ} (h : Kept V lt S X' o G G₁)
    (h' : Kept V lt S X src G₁ G') : Kept V lt S X src G G' := by
  refine ⟨h'.wellFormed, fun u => ⟨(h.frame u).1.trans (h'.frame u).1, fun hne => ?_⟩,
    fun hvalue => h'.value (h.value hvalue)⟩
  by_cases hsame : G₁.tensors u = G.tensors u
  · exact (h'.frame u).2 (hsame ▸ hne)
  · rcases (h.frame u).2 hsame with rfl | hu
    · exact .inr ho
    · exact .inr (htrans _ _ _ hu ho)

/-- A new list of regions, then the rest of the loop. -/
theorem Kept.setRegions {src : τ} {G G' : Context τ} {regions : List (Region τ)}
    (hvalue : ∀ {content value : τ → ℤ → V}, IsValue content value G →
      IsValue content value (G.setRegions src regions))
    (h : Kept V lt S X src (G.setRegions src regions) G')
    (hraster : (G'.tensors src).rasterCommand = true) : Kept V lt S X src G G' := by
  refine ⟨h.wellFormed, fun u => ?_, fun hv => h.value (hvalue hv)⟩
  have hframe := h.frame u
  by_cases hu : u = src
  · subst hu
    refine ⟨.inr ⟨hraster, ?_⟩, fun _ => .inl rfl⟩
    rw [hframe.1.memoryVirtual, setRegions_self]
  · rwa [setRegions_of_ne G hu] at hframe

/-! ### The loop -/

/-- The loop on `src` stands before index `i`: origins come earlier, and the regions before the
index cannot be fused, or are empty and will be deleted. -/
def Walked (lt : τ → τ → Prop) (mask : FuseMask) (fuse : FuseWrap τ) (G : Context τ) (src : τ)
    (i : ℕ) (needDelete : Bool) : Prop :=
  ∀ j r, (G.tensors src).regions[j]? = some r →
    (lt r.origin src ∧ (j < i → ¬ CanFuse mask fuse G r)) ∨
      (j < i ∧ r.size 0 = 0 ∧ needDelete = true)

omit [DecidableEq τ] in
theorem walked_zero {G : Context τ} (hG : G.WellFormed lt S X) {src : τ} (hX : src ∉ X)
    (hm : (G.tensors src).memoryVirtual = true) (needDelete : Bool) :
    Walked lt mask fuse G src 0 needDelete := fun j r hr =>
  .inl ⟨(hG.order src hm r (List.mem_of_getElem? hr)).resolve_right fun h => hX h.1,
    fun hj => absurd hj (Nat.not_lt_zero j)⟩

omit [DecidableEq τ] in
theorem Walked.origin {G : Context τ} {src : τ} {i : ℕ} {input : Region τ} {needDelete : Bool}
    (h : Walked lt mask fuse G src i needDelete)
    (hinput : (G.tensors src).regions[i]? = some input) : lt input.origin src := by
  rcases h i input hinput with ⟨ho, -⟩ | ⟨hi, -⟩
  · exact ho
  · exact absurd hi (lt_irrefl i)

omit [DecidableEq τ] in
/-- The region at the index is done when it cannot be fused. -/
theorem Walked.succ {G : Context τ} {src : τ} {i : ℕ} {input : Region τ} {needDelete : Bool}
    (h : Walked lt mask fuse G src i needDelete)
    (hinput : (G.tensors src).regions[i]? = some input) (hcan : ¬ CanFuse mask fuse G input) :
    Walked lt mask fuse G src (i + 1) needDelete := by
  intro j r hr
  rcases h j r hr with ⟨ho, hdone⟩ | ⟨hj, hempty⟩
  · refine .inl ⟨ho, fun hj => ?_⟩
    rcases Nat.lt_succ_iff_lt_or_eq.1 hj with hj | rfl
    · exact hdone hj
    · obtain rfl : input = r := Option.some.inj (hinput.symm.trans hr)
      exact hcan
  · exact .inr ⟨by omega, hempty⟩

omit [DecidableEq τ] in
/-- A call for an earlier tensor does not touch the list. -/
theorem Walked.settled (hirrefl : ∀ a, ¬ lt a a) (htrans : ∀ a b c, lt a b → lt b c → lt a c)
    {G G' : Context τ} {src o : τ} (ho : lt o src) (hframe : Frame lt o G G') {i : ℕ}
    {needDelete : Bool} (h : Walked lt mask fuse G src i needDelete) :
    G'.tensors src = G.tensors src ∧ Walked lt mask fuse G' src i needDelete := by
  have hsame : G'.tensors src = G.tensors src := by
    by_contra hne
    rcases (hframe src).2 hne with rfl | hlt
    · exact hirrefl _ ho
    · exact hirrefl _ (htrans _ _ _ hlt ho)
  refine ⟨hsame, fun j r hr => ?_⟩
  rw [hsame] at hr
  exact (h j r hr).imp_left fun ⟨hlt, hdone⟩ =>
    ⟨hlt, fun hj => not_canFuse_of_settled (hdone hj) (hframe r.origin).1⟩

/-- A pass that fuses: the new region is visited again, or is empty and will be deleted. -/
theorem Walked.pass (hirrefl : ∀ a, ¬ lt a a) {G : Context τ} {src : τ} {i : ℕ}
    {input new : Region τ} {others : List (Region τ)} {needDelete : Bool}
    (h : Walked lt mask fuse G src i needDelete)
    (hinput : (G.tensors src).regions[i]? = some input)
    (hothers : ∀ r ∈ others, lt r.origin src) {k : ℕ} {needDelete' : Bool}
    (hnew : k = i ∧ lt new.origin src ∨ k = i + 1 ∧ new.size 0 = 0 ∧ needDelete' = true)
    (hdelete : needDelete = true → needDelete' = true) :
    Walked lt mask fuse (G.setRegions src ((G.tensors src).regions.set i new ++ others)) src k
      needDelete' := by
  have hi := (List.getElem?_eq_some_iff.1 hinput).1
  intro j r hr
  rw [setRegions_self] at hr
  rcases lt_or_ge j (G.tensors src).regions.length with hj | hj
  · rw [List.getElem?_append_left (by rwa [List.length_set])] at hr
    rcases eq_or_ne i j with rfl | hij
    · obtain rfl : new = r := Option.some.inj ((List.getElem?_set_self hi).symm.trans hr)
      rcases hnew with ⟨rfl, ho⟩ | ⟨rfl, hempty⟩
      · exact .inl ⟨ho, fun hlt => absurd hlt (lt_irrefl k)⟩
      · exact .inr ⟨Nat.lt_succ_self i, hempty⟩
    · rw [List.getElem?_set_ne hij] at hr
      rcases h j r hr with ⟨ho, hdone⟩ | ⟨hji, hsize, hd⟩
      · refine .inl ⟨ho, fun hjk => not_canFuse_of_settled (hdone (by omega)) (.inl ?_)⟩
        have hne : r.origin ≠ src := fun heq => hirrefl src (heq ▸ ho)
        exact setRegions_of_ne G hne _
      · exact .inr ⟨by omega, hsize, hdelete hd⟩
  · rw [List.getElem?_append_right (by rwa [List.length_set])] at hr
    exact .inl ⟨hothers r (List.mem_of_getElem? hr), fun hjk => by omega⟩

section Pass

variable (hexact : fuse.ExactOn S) (htrans : ∀ a b c, lt a b → lt b c → lt a c)
  {G : Context τ} {src : τ} (hG : G.WellFormed lt S (insert src X))
  (hsrc : (G.tensors src).virtualMemory = true) {i : ℕ} {input new : Region τ}
  {others : List (Region τ)} (hinput : (G.tensors src).regions[i]? = some input)
  (ho : lt input.origin src) (hX : input.origin ∉ insert src X) (hcan : CanFuse mask fuse G input)
  (hnew : ((G.tensors input.origin).regions = [] ∧ new = input.clearSize ∧ others = []) ∨
    ∃ reg more, (G.tensors input.origin).regions = reg :: more ∧ new = fuse.apply reg input ∧
      others = (more.map fun r => fuse.apply r input).filter fun r => r.size 0 ≠ 0)

include hexact htrans hG hsrc hinput ho hX hcan hnew

theorem pass_wellFormed :
    (G.setRegions src ((G.tensors src).regions.set i new ++ others)).WellFormed lt S
      (insert src X) := by
  have hm : (G.tensors src).memoryVirtual = true := (Bool.and_eq_true_iff.1 hsrc).1
  have hvirtual := (Bool.and_eq_true_iff.1 hcan.1).1
  obtain ⟨hneworigin, hnewS, hothers⟩ := pass_origin hexact hG hm hinput hvirtual hcan.2.2.1 hnew hX
  have hall : ∀ r ∈ (G.tensors src).regions.set i new ++ others,
      (lt r.origin src ∨ src ∈ insert src X ∧ r.size 0 = 0) ∧ r ∈ S := by
    intro r hr
    rcases List.mem_append.1 hr with hr | hr
    · rcases List.mem_or_eq_of_mem_set hr with hr | rfl
      · exact ⟨hG.order src hm r hr, hG.mem src hm r hr⟩
      · by_cases hsize : r.size 0 = 0
        · exact ⟨.inr ⟨Set.mem_insert src X, hsize⟩, hnewS⟩
        · exact ⟨.inl (htrans _ _ _ (hneworigin hsize) ho), hnewS⟩
    · exact ⟨.inl (htrans _ _ _ (hothers r hr).1 ho), (hothers r hr).2⟩
  exact hG.setRegions (fun r hr => (hall r hr).1) (fun r hr => (hall r hr).2)
    (pass_leaves (V := ℕ) hexact hG hm hinput hvirtual hcan.2.2.1 hnew).1

omit htrans ho hX in
theorem pass_value {content value : τ → ℤ → V} (h : IsValue content value G) :
    IsValue content value (G.setRegions src ((G.tensors src).regions.set i new ++ others)) := by
  have hm : (G.tensors src).memoryVirtual = true := (Bool.and_eq_true_iff.1 hsrc).1
  have hvirtual := (Bool.and_eq_true_iff.1 hcan.1).1
  have hleaves := pass_leaves (V := V) hexact hG hm hinput hvirtual hcan.2.2.1 hnew
  exact h.setRegions (hG.apart src hm) hleaves.1 (hleaves.2 h)

end Pass

/-! ### The end of the loop -/

section Finish

variable {G : Context τ} {src : τ} (hG : G.WellFormed lt S (insert src X))
  (hsrc : (G.tensors src).virtualMemory = true) {i : ℕ} {needDelete : Bool}
  (hend : (G.tensors src).regions[i]? = none)
  (hwalked : Walked lt mask fuse G src i needDelete)

include hsrc hend hwalked

omit [DecidableEq τ] hsrc in
theorem mem_remaining {r : Region τ} (hr : r ∈ G.remaining src needDelete) :
    lt r.origin src ∧ ¬ CanFuse mask fuse G r := by
  obtain ⟨j, hj⟩ := List.getElem?_of_mem ((G.remaining_sublist src needDelete).subset hr)
  have hji : j < i := by
    have hlen := List.getElem?_eq_none_iff.1 hend
    have := (List.getElem?_eq_some_iff.1 hj).1
    omega
  rcases hwalked j r hj with ⟨ho, hdone⟩ | ⟨-, hsize, rfl⟩
  · exact ⟨ho, hdone hji⟩
  · -- the empty region would have been deleted
    simp [remaining, Region.isEmpty, hsize] at hr

theorem finish_flat (hirrefl : ∀ a, ¬ lt a a) :
    ((G.finish src needDelete).tensors src).rasterCommand = true ∧
      Flat mask fuse (G.finish src needDelete) src := by
  have htensors := finish_tensors hsrc needDelete
  refine ⟨by rw [htensors, Function.update_self], fun r hr => ?_⟩
  rw [htensors, Function.update_self] at hr
  obtain ⟨ho, hcan⟩ := mem_remaining hend hwalked hr
  have hne : r.origin ≠ src := fun heq => hirrefl src (heq ▸ ho)
  exact not_canFuse_of_settled hcan (.inl (by rw [htensors, Function.update_of_ne hne]))

include hG

theorem finish_kept : Kept V lt S X src G (G.finish src needDelete) := by
  have hm : (G.tensors src).memoryVirtual = true := (Bool.and_eq_true_iff.1 hsrc).1
  have hsub := G.remaining_sublist src needDelete
  have hapart := (hG.apart src hm).sublist hsub
  have htensors := finish_tensors hsrc needDelete
  have hself : (G.finish src needDelete).tensors src =
      { G.tensors src with rasterCommand := true, regions := G.remaining src needDelete } := by
    rw [htensors, Function.update_self]
  have hother : ∀ u, u ≠ src → (G.finish src needDelete).tensors u = G.tensors u := fun u hu => by
    rw [htensors, Function.update_of_ne hu]
  refine ⟨⟨fun u hu => ?_, fun u hu => ?_, fun u hu => ?_⟩, fun u => ?_, fun hvalue u => ?_⟩ <;>
    by_cases hus : u = src
  · subst hus
    rw [hself]
    exact fun r hr => .inl (mem_remaining hend hwalked hr).1
  · rw [hother u hus] at hu ⊢
    exact fun r hr => (hG.order u hu r hr).imp_right fun h => ⟨h.1.resolve_left hus, h.2⟩
  · subst hus
    rw [hself]
    exact fun r hr => hG.mem u hm r (hsub.subset hr)
  · rw [hother u hus] at hu ⊢
    exact hG.mem u hu
  · subst hus
    rw [hself]
    exact hapart
  · rw [hother u hus] at hu ⊢
    exact hG.apart u hu
  · subst hus
    rw [hself]
    exact ⟨.inr ⟨rfl, rfl⟩, fun _ => .inl rfl⟩
  · rw [hother u hus]
    exact ⟨.inl rfl, fun h => absurd rfl h⟩
  · subst hus
    have hset := hvalue.setRegions (hG.apart u hm) hapart
      (fun o x => leaves_congr (fun r s o hs => (mem_remaining_iff needDelete hs).symm) _ o x) u
    rw [setRegions_self] at hset
    rw [hself]
    exact hset
  · rw [hother u hus]
    exact hvalue u

end Finish

omit [DecidableEq τ] in
theorem WellFormed.mono {X' : Set τ} (h : X ⊆ X') {G : Context τ} (hG : G.WellFormed lt S X) :
    G.WellFormed lt S X' :=
  ⟨fun t ht r hr => (hG.order t ht r hr).imp_right fun hx => ⟨h hx.1, hx.2⟩, hG.mem, hG.apart⟩

/-- No tensor in progress is `src` or earlier. -/
def Above (lt : τ → τ → Prop) (X : Set τ) (src : τ) : Prop := src ∉ X ∧ ∀ u, lt u src → u ∉ X

omit [DecidableEq τ] in
theorem Above.origin (hirrefl : ∀ a, ¬ lt a a) (htrans : ∀ a b c, lt a b → lt b c → lt a c)
    {src o : τ} (hX : Above lt X src) (ho : lt o src) : Above lt (insert src X) o := by
  have key : ∀ u, lt u src → u ∉ insert src X := by
    rintro u hu (rfl | hmem)
    · exact hirrefl u hu
    · exact hX.2 u hu hmem
  exact ⟨key o ho, fun u hu => key u (htrans _ _ _ hu ho)⟩

/-- **What a finished call keeps and leaves.** -/
theorem run_spec (hexact : fuse.ExactOn S) (hirrefl : ∀ a, ¬ lt a a)
    (htrans : ∀ a b c, lt a b → lt b c → lt a c) (n : ℕ) {G G' : Context τ} (src : τ) {X : Set τ}
    (hX : Above lt X src) :
    (G.WellFormed lt S X → run mask fuse n (.create src) G = some G' → Kept V lt S X src G G' ∧
      ((G.tensors src).virtualMemory = true → (G.tensors src).hasZeroDim = false →
        (G'.tensors src).rasterCommand = true ∧ Flat mask fuse G' src)) ∧
    ∀ i needDelete, G.WellFormed lt S (insert src X) → (G.tensors src).virtualMemory = true →
      Walked lt mask fuse G src i needDelete →
      run mask fuse n (.walk src i needDelete) G = some G' →
      Kept V lt S X src G G' ∧ (G'.tensors src).rasterCommand = true ∧ Flat mask fuse G' src := by
  induction n generalizing G G' src X with
  | zero => exact ⟨fun _ h => by simp [run] at h, fun i needDelete _ _ _ h => by simp [run] at h⟩
  | succ n ih =>
    refine ⟨fun hG h => ?_, fun i needDelete hG hsrc hwalked h => ?_⟩
    · rw [run] at h
      split_ifs at h with henter
      · have hm : (G.tensors src).memoryVirtual = true := (Bool.and_eq_true_iff.1 henter.1).1
        have hwalk := (ih src hX).2 0 false (hG.mono (Set.subset_insert src X)) henter.1
          (walked_zero hG hX.1 hm false) h
        exact ⟨hwalk.1, fun _ _ => hwalk.2⟩
      · obtain rfl := Option.some.inj h
        exact ⟨.refl hG, fun hv hz => absurd ⟨hv, by simp [hz]⟩ henter⟩
    · have hm : (G.tensors src).memoryVirtual = true := (Bool.and_eq_true_iff.1 hsrc).1
      rw [run] at h
      match hinput : (G.tensors src).regions[i]? with
      | none =>
        rw [hinput] at h
        obtain rfl := Option.some.inj h
        exact ⟨finish_kept hG hsrc hinput hwalked, finish_flat hsrc hinput hwalked hirrefl⟩
      | some input =>
        rw [hinput] at h
        have ho := hwalked.origin hinput
        have hXo := hX.origin hirrefl htrans ho
        rcases fuseStep_cases mask fuse G src i input with
          ⟨hcan, hpass⟩ | ⟨hcan, new, others, hpass, hnew⟩
        · simp only [hpass, Bool.or_false, Bool.false_eq_true, if_false] at h
          have hwalked' := hwalked.succ hinput hcan
          split_ifs at h with hsize
          · obtain ⟨G₁, hcreate, hwalk⟩ := Option.bind_eq_some_iff.1 h
            have hkept := ((ih input.origin hXo).1 hG hcreate).1
            obtain ⟨hsame, hwalked₁⟩ := hwalked'.settled hirrefl htrans ho hkept.frame
            have hrest := (ih src hX).2 (i + 1) needDelete hkept.wellFormed (hsame ▸ hsrc) hwalked₁
              hwalk
            exact ⟨hkept.trans htrans ho hrest.1, hrest.2⟩
          · exact (ih src hX).2 (i + 1) needDelete hG hsrc hwalked' h
        · have hwf := pass_wellFormed hexact htrans hG hsrc hinput ho hXo.1 hcan hnew
          obtain ⟨hneworigin, -, hothers⟩ := pass_origin hexact hG hm hinput
            (Bool.and_eq_true_iff.1 hcan.1).1 hcan.2.2.1 hnew hXo.1
          have hothers' := fun r hr => htrans _ _ _ (hothers r hr).1 ho
          have hsrc' : ((G.setRegions src ((G.tensors src).regions.set i new ++ others)).tensors
              src).virtualMemory = true := by rwa [setRegions_self]
          have hrest : Kept V lt S X src
              (G.setRegions src ((G.tensors src).regions.set i new ++ others)) G' ∧
              (G'.tensors src).rasterCommand = true ∧ Flat mask fuse G' src := by
            simp only [hpass] at h
            by_cases hzero : new.size 0 = 0
            · simp only [hzero, ne_eq, not_true_eq_false, decide_false, Bool.false_eq_true,
                if_false, lt_irrefl] at h
              exact (ih src hX).2 (i + 1) _ hwf hsrc' (hwalked.pass hirrefl hinput hothers'
                (.inr ⟨rfl, hzero, by simp⟩) fun hd => by simp [hd]) h
            · simp only [hzero, ne_eq, not_false_eq_true, decide_true, if_true] at h
              exact (ih src hX).2 i _ hwf hsrc' (hwalked.pass hirrefl hinput hothers'
                (.inl ⟨rfl, htrans _ _ _ (hneworigin hzero) ho⟩) fun hd => by simp [hd]) h
          exact ⟨hrest.1.setRegions
            (pass_value hexact hG hsrc hinput hcan hnew) hrest.2.1, hrest.2⟩

/-! ### Termination -/

/-- More steps do not change a result. -/
theorem run_mono {n m : ℕ} (h : n ≤ m) {c : Call τ} {G G' : Context τ}
    (hrun : run mask fuse n c G = some G') : run mask fuse m c G = some G' := by
  induction n generalizing m c G G' with
  | zero => simp [run] at hrun
  | succ n ih =>
    obtain ⟨m, rfl⟩ := Nat.exists_eq_add_of_lt (Nat.lt_of_succ_le h)
    have hnm : n ≤ n + m := Nat.le_add_right n m
    cases c with
    | create src =>
      rw [run] at hrun ⊢
      split_ifs at hrun ⊢ with henter
      · exact ih hnm hrun
      · exact hrun
    | walk src i needDelete =>
      rw [run] at hrun ⊢
      match hinput : (G.tensors src).regions[i]? with
      | none => rwa [hinput] at hrun
      | some input =>
        rw [hinput] at hrun
        simp only at hrun ⊢
        split_ifs at hrun ⊢
        · exact ih hnm hrun
        · obtain ⟨G₁, hcreate, hwalk⟩ := Option.bind_eq_some_iff.1 hrun
          exact Option.bind_eq_some_iff.2 ⟨G₁, ih hnm hcreate, ih hnm hwalk⟩
        · exact ih hnm hrun

/-- The origins that the loop has still to visit. -/
def pending (G : Context τ) (src : τ) (i : ℕ) : Multiset τ :=
  ((G.tensors src).regions.drop i).map Region.origin

omit [DecidableEq τ] in
theorem pending_eq_cons {G : Context τ} {src : τ} {i : ℕ} {input : Region τ}
    (hinput : (G.tensors src).regions[i]? = some input) :
    G.pending src i = input.origin ::ₘ G.pending src (i + 1) := by
  obtain ⟨hi, rfl⟩ := List.getElem?_eq_some_iff.1 hinput
  rw [pending, pending, List.drop_eq_getElem_cons hi, List.map_cons, Multiset.cons_coe]

theorem pending_setRegions {G : Context τ} {src : τ} {i : ℕ} {input : Region τ}
    (new : Region τ) (others : List (Region τ))
    (hinput : (G.tensors src).regions[i]? = some input) :
    (G.setRegions src ((G.tensors src).regions.set i new ++ others)).pending src (i + 1) =
      G.pending src (i + 1) + (others.map Region.origin : Multiset τ) := by
  have hi := (List.getElem?_eq_some_iff.1 hinput).1
  rw [pending, pending, setRegions_self,
    List.drop_append_of_le_length (by rw [List.length_set]; omega),
    List.drop_set_of_lt (by omega), List.map_append, Multiset.coe_add]

omit [DecidableEq τ] in
theorem cutExpand_next {G : Context τ} {src : τ} {i : ℕ} {input : Region τ}
    (hinput : (G.tensors src).regions[i]? = some input) :
    Relation.CutExpand lt (G.pending src (i + 1)) (G.pending src i) :=
  ⟨0, input.origin, by simp, by
    rw [pending_eq_cons hinput, add_zero, add_comm, Multiset.singleton_add]⟩

/-- A pass that goes on to the next region leaves the new ones pending. -/
theorem cutExpand_others {G : Context τ} {src : τ} {i : ℕ} {input new : Region τ}
    {others : List (Region τ)} (hinput : (G.tensors src).regions[i]? = some input)
    (hothers : ∀ r ∈ others, lt r.origin input.origin) : Relation.CutExpand lt
      ((G.setRegions src ((G.tensors src).regions.set i new ++ others)).pending src (i + 1))
      (G.pending src i) := by
  refine ⟨others.map Region.origin, input.origin, fun o ho => ?_, ?_⟩
  · obtain ⟨r, hr, rfl⟩ := List.mem_map.1 ho
    exact hothers r hr
  · rw [pending_setRegions new others hinput, pending_eq_cons hinput, ← Multiset.singleton_add]
    abel

/-- One that stays at its region leaves this one pending too, with its new origin. -/
theorem cutExpand_again {G : Context τ} {src : τ} {i : ℕ} {input new : Region τ}
    {others : List (Region τ)} (hinput : (G.tensors src).regions[i]? = some input)
    (hnew : lt new.origin input.origin) (hothers : ∀ r ∈ others, lt r.origin input.origin) :
    Relation.CutExpand lt
      ((G.setRegions src ((G.tensors src).regions.set i new ++ others)).pending src i)
      (G.pending src i) := by
  have hi := (List.getElem?_eq_some_iff.1 hinput).1
  have hget : ((G.setRegions src ((G.tensors src).regions.set i new ++ others)).tensors
      src).regions[i]? = some new := by
    rw [setRegions_self, List.getElem?_append_left (by rwa [List.length_set]),
      List.getElem?_set_self hi]
  refine ⟨new.origin ::ₘ (others.map Region.origin : Multiset τ), input.origin, fun o ho => ?_, ?_⟩
  · rcases Multiset.mem_cons.1 ho with rfl | ho
    · exact hnew
    · obtain ⟨r, hr, rfl⟩ := List.mem_map.1 ho
      exact hothers r hr
  · rw [pending_eq_cons hget, pending_setRegions new others hinput, pending_eq_cons hinput]
    rw [← Multiset.singleton_add, ← Multiset.singleton_add, ← Multiset.singleton_add]
    abel

/-- The loop on `src` ends when the calls for earlier tensors do: a pass replaces a pending origin
by earlier ones. -/
theorem walk_terminates (hexact : fuse.ExactOn S) (hwf : WellFounded lt)
    (htrans : ∀ a b c, lt a b → lt b c → lt a c) {src : τ} {X : Set τ} (hX : Above lt X src)
    (hcreate : ∀ o, lt o src → ∀ {G : Context τ}, G.WellFormed lt S (insert src X) →
      ∃ n G', run mask fuse n (.create o) G = some G') (p : Multiset τ) {G : Context τ} (i : ℕ)
    (needDelete : Bool) (hp : G.pending src i = p) (hG : G.WellFormed lt S (insert src X))
    (hsrc : (G.tensors src).virtualMemory = true)
    (hwalked : Walked lt mask fuse G src i needDelete) :
    ∃ n G', run mask fuse n (.walk src i needDelete) G = some G' := by
  have hirrefl : ∀ a, ¬ lt a a := fun a ha => hwf.irrefl.irrefl a ha
  induction p using hwf.cutExpand.induction generalizing G i needDelete with
  | _ p ih =>
    subst hp
    have hm : (G.tensors src).memoryVirtual = true := (Bool.and_eq_true_iff.1 hsrc).1
    match hinput : (G.tensors src).regions[i]? with
    | none => exact ⟨1, _, by rw [run, hinput]⟩
    | some input =>
      have ho := hwalked.origin hinput
      have hXo := hX.origin hirrefl htrans ho
      rcases fuseStep_cases mask fuse G src i input with
        ⟨hcan, hpass⟩ | ⟨hcan, new, others, hpass, hnew⟩
      · have hcut : Relation.CutExpand lt (G.pending src (i + 1)) (G.pending src i) :=
          cutExpand_next hinput
        have hwalked' := hwalked.succ hinput hcan
        by_cases hsize : input.size 0 > 0
        · obtain ⟨n, G₁, hrun⟩ := hcreate input.origin ho hG
          have hkept := ((run_spec (V := ℕ) hexact hirrefl htrans n input.origin hXo).1 hG hrun).1
          obtain ⟨hsame, hwalked₁⟩ := hwalked'.settled hirrefl htrans ho hkept.frame
          obtain ⟨m, G', hrest⟩ := ih _ hcut (i + 1) needDelete (by rw [pending, hsame, pending])
            hkept.wellFormed (hsame ▸ hsrc) hwalked₁
          refine ⟨n + m + 1, G', ?_⟩
          rw [run, hinput]
          simp only [hpass, Bool.or_false, Bool.false_eq_true, if_false, hsize, if_true]
          exact Option.bind_eq_some_iff.2
            ⟨G₁, run_mono (Nat.le_add_right n m) hrun, run_mono (Nat.le_add_left m n) hrest⟩
        · obtain ⟨n, G', hrest⟩ := ih _ hcut (i + 1) needDelete rfl hG hsrc hwalked'
          refine ⟨n + 1, G', ?_⟩
          rw [run, hinput]
          simpa only [hpass, Bool.or_false, Bool.false_eq_true, if_false, hsize] using hrest
      · obtain ⟨hneworigin, -, hothers⟩ := pass_origin hexact hG hm hinput
          (Bool.and_eq_true_iff.1 hcan.1).1 hcan.2.2.1 hnew hXo.1
        have hothers' := fun r hr => htrans _ _ _ (hothers r hr).1 ho
        have hwf' := pass_wellFormed hexact htrans hG hsrc hinput ho hXo.1 hcan hnew
        have hsrc' : ((G.setRegions src ((G.tensors src).regions.set i new ++ others)).tensors
            src).virtualMemory = true := by rwa [setRegions_self]
        have hotherslt := fun r hr => (hothers r hr).1
        by_cases hzero : new.size 0 = 0
        · obtain ⟨n, G', hrun⟩ := ih _ (cutExpand_others hinput hotherslt) (i + 1)
            (needDelete || decide (new.size 0 = 0)) rfl hwf' hsrc'
            (hwalked.pass hirrefl hinput hothers' (.inr ⟨rfl, hzero, by simp [hzero]⟩)
              fun hd => by simp [hd])
          refine ⟨n + 1, G', ?_⟩
          rw [run, hinput]
          simpa [hpass, hzero] using hrun
        · obtain ⟨n, G', hrun⟩ := ih _ (cutExpand_again hinput (hneworigin hzero) hotherslt) i
            (needDelete || decide (new.size 0 = 0)) rfl hwf' hsrc'
            (hwalked.pass hirrefl hinput hothers'
              (.inl ⟨rfl, htrans _ _ _ (hneworigin hzero) ho⟩) fun hd => by simp [hd])
          refine ⟨n + 1, G', ?_⟩
          rw [run, hinput]
          simpa [hpass, hzero] using hrun

/-- **The recursion ends.** -/
theorem run_terminates (hexact : fuse.ExactOn S) (hwf : WellFounded lt)
    (htrans : ∀ a b c, lt a b → lt b c → lt a c) (src : τ) {X : Set τ} (hX : Above lt X src)
    {G : Context τ} (hG : G.WellFormed lt S X) :
    ∃ n G', run mask fuse n (.create src) G = some G' := by
  have hirrefl : ∀ a, ¬ lt a a := fun a ha => hwf.irrefl.irrefl a ha
  induction src using hwf.induction generalizing G X with
  | _ src ih =>
    by_cases henter : (G.tensors src).virtualMemory = true ∧ ¬ (G.tensors src).hasZeroDim = true
    · have hm : (G.tensors src).memoryVirtual = true := (Bool.and_eq_true_iff.1 henter.1).1
      obtain ⟨n, G', hrun⟩ : ∃ n G', run mask fuse n (.walk src 0 false) G = some G' :=
        walk_terminates hexact hwf htrans hX
          (fun o ho G hG => ih o ho (hX.origin hirrefl htrans ho) hG) _ 0 false rfl
          (hG.mono (Set.subset_insert src X)) henter.1 (walked_zero hG hX.1 hm false)
      exact ⟨n + 1, G', by rw [run, if_pos henter, hrun]⟩
    · exact ⟨1, G, by rw [run, if_neg henter]⟩

/-! ### Acyclic graphs -/

omit [DecidableEq τ] in
theorem raster_congr {regions : List (Region τ)} {value value' : τ → ℤ → V}
    (h : ∀ r ∈ regions, value r.origin = value' r.origin) :
    raster regions value = raster regions value' := by
  unfold raster
  refine List.foldl_ext _ _ _ fun dst r hr => ?_
  rw [h r hr]

omit [DecidableEq τ] in
/-- The content of the tensors with memory determines what all tensors hold. -/
theorem existsUnique_value (hwf : WellFounded lt) {G : Context τ} (hG : G.WellFormed lt S ∅)
    (content : τ → ℤ → V) : ∃ value, ∀ value', IsValue content value' G ↔ value' = value := by
  classical
  have horder : ∀ t, (G.tensors t).memoryVirtual = true → ∀ r ∈ (G.tensors t).regions,
      lt r.origin t := fun t ht r hr => (hG.order t ht r hr).resolve_right fun h => h.1
  let value : τ → ℤ → V := hwf.fix fun t before =>
    if (G.tensors t).memoryVirtual then
      raster (G.tensors t).regions fun o => if h : lt o t then before o h else 0
    else content t
  have hvalue : IsValue content value G := by
    intro t
    rw [show value t = _ from hwf.fix_eq _ t]
    by_cases hm : (G.tensors t).memoryVirtual = true
    · rw [if_pos hm, if_pos hm]
      exact raster_congr fun r hr => dif_pos (horder t hm r hr)
    · rw [if_neg hm, if_neg hm]
  refine ⟨value, fun value' => ⟨fun h => ?_, fun h => h ▸ hvalue⟩⟩
  funext t
  induction t using hwf.induction with
  | _ t ih =>
    rw [h t, hvalue t]
    by_cases hm : (G.tensors t).memoryVirtual = true
    · rw [if_pos hm, if_pos hm]
      exact raster_congr fun r hr => ih r.origin (horder t hm r hr)
    · rw [if_neg hm, if_neg hm]

/-- Virtual tensor `t` has a region with origin `o`. -/
def Feeds (G : Context τ) (o t : τ) : Prop :=
  (G.tensors t).memoryVirtual = true ∧ ∃ r ∈ (G.tensors t).regions, r.origin = o

omit [DecidableEq τ] in
/-- Among finitely many tensors there are no cycles if none comes before itself. -/
theorem wellFounded_feeds [Finite τ] {G : Context τ}
    (h : ∀ t, ¬ Relation.TransGen G.Feeds t t) : WellFounded G.Feeds :=
  have : Std.Irrefl (Relation.TransGen G.Feeds) := ⟨h⟩
  Subrelation.wf (fun hf => Relation.TransGen.single hf)
    (Finite.wellFounded_of_trans_of_irrefl (Relation.TransGen G.Feeds))

end Spec

/-- Fuses regions of one size where the first writes the view that the second reads. -/
def viewFuse : FuseWrap τ where
  isMatch a b := a.size = b.size ∧ a.dst = b.src
  apply a b := { b with src := a.src, origin := a.origin }

/-- The regions whose source addresses are all different. -/
def readsApart : Set (Region τ) :=
  {r | ∀ i j, InBox r.size i → InBox r.size j → r.src.address i = r.src.address j → i = j}

omit [DecidableEq τ] in
theorem viewFuse_exactOn : viewFuse.ExactOn (readsApart : Set (Region τ)) := by
  refine ⟨fun a _ b _ _ _ => rfl, fun a _ b hb h s o => ?_, fun a ha b hb h => ?_, fun b hb => ?_⟩
  · obtain ⟨hsize, hview⟩ : a.size = b.size ∧ a.dst = b.src := by simpa [viewFuse] using h
    constructor
    · rintro ⟨i, hi, hs, ho⟩
      exact ⟨b.src.address i, ⟨i, hsize ▸ hi, hs, by rw [hview]⟩, i, hi, rfl, ho⟩
    · rintro ⟨m, ⟨i, hi, hs, hm⟩, j, hj, hm', ho⟩
      rw [hview] at hm
      obtain rfl : i = j := hb i j (hsize ▸ hi) hj (hm.trans hm'.symm)
      exact ⟨i, hj, hs, ho⟩
  · obtain ⟨hsize, -⟩ : a.size = b.size ∧ a.dst = b.src := by simpa [viewFuse] using h
    intro i j hi hj heq
    exact ha i j (hsize ▸ hi) (hsize ▸ hj) heq
  · intro i j hi
    exact absurd (hi 0) (by simp)

/-- Tensor `0` has memory, `1` is a copy of `0` and `2` a copy of `1`. -/
def chain : Context (Fin 3) where
  tensors := ![{ shape := [2], memoryVirtual := false },
    { shape := [2], memoryVirtual := true, regions := [{ size := ![1, 1, 2], origin := 0 }] },
    { shape := [2], memoryVirtual := true, regions := [{ size := ![1, 1, 2], origin := 1 }] }]

theorem chain_regions {t : Fin 3} {r : Region (Fin 3)} (h : r ∈ (chain.tensors t).regions) :
    r.origin < t ∧ r.size = ![1, 1, 2] ∧ r.src = {} ∧ r.dst = {} := by
  fin_cases t <;> simp [chain] at h <;> subst h <;> simp

theorem inBox_one_one_two {i : Fin 3 → ℤ} (h : InBox ![1, 1, 2] i) : i = ![0, 0, i 2] := by
  have h₀ := h 0
  have h₁ := h 1
  simp only [Matrix.cons_val_zero, Matrix.cons_val_one] at h₀ h₁
  funext k
  fin_cases k <;> simp <;> omega

end Context

end Mnn
