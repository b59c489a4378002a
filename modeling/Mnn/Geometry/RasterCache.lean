import Mnn.Geometry.Region

/-!
# Flattening nested virtual tensors

`GeometryComputer::Context::getRasterCacheCreateRecursive`
(`source/geometry/GeometryComputer.cpp`): a virtual tensor is a list of regions whose origins may be
virtual themselves.  Where a region can be fused with the regions of its origin it is replaced by
the results; an origin that stays virtual is flattened first and gets a raster command of its own.

* `Describe`, `Context`, `fuseStep`, `run`: the recursion, one pass of the inner loop at a time;
* `IsValue`: what the tensors of a context hold;
* `CanFuse`: the inner loop would take one more pass;
* `pass_leaves`: one pass keeps what the tensors hold.

The pairwise fuse is a parameter.  `ExactOn` is what is assumed of it, on a set of regions that the
fuse does not leave.  Tensors are compared as pointers are, by identity, and dims are integers.
-/

namespace Mnn

/-- What the recursion reads and writes of a tensor: `memoryVirtual` is
`memoryType == MEMORY_VIRTUAL`, `rasterCommand` that the tensor has a raster command. -/
structure Describe (τ : Type*) where
  shape : List ℤ
  memoryVirtual : Bool
  rasterCommand : Bool := false
  regions : List (Region τ) := []

/-- `_hasZeroDim`. -/
def Describe.hasZeroDim {τ : Type*} (t : Describe τ) : Bool := t.shape.any fun d => d ≤ 0

/-- `_virtualMemory`. -/
def Describe.virtualMemory {τ : Type*} (t : Describe τ) : Bool :=
  t.memoryVirtual && !t.rasterCommand

/-- The tensors, and the outputs of the raster commands in the buffer. -/
structure Context (τ : Type*) where
  tensors : τ → Describe τ
  commands : List τ := []

/-- `FuseWrap`: `apply` follows a `match` of the same two regions. -/
structure FuseWrap (τ : Type*) where
  isMatch : Region τ → Region τ → Bool
  apply : Region τ → Region τ → Region τ

/-- `GEOMETRCOMPUTEMASK_FUSEREGION` and `GEOMETRCOMPUTEMASK_FUSEREGION_MULTI`. -/
structure FuseMask where
  supportFuse : Bool
  supportFuseMulti : Bool

/-- `size[0] = 0`. -/
def Region.clearSize {τ : Type*} (r : Region τ) : Region τ :=
  { r with size := Function.update r.size 0 0 }

@[simp] theorem Region.clearSize_size {τ : Type*} (r : Region τ) : r.clearSize.size 0 = 0 := rfl

/-- The filter of the loop that deletes empty regions. -/
def Region.isEmpty {τ : Type*} (r : Region τ) : Bool :=
  r.size 0 = 0 ∨ r.size 1 = 0 ∨ r.size 2 = 0

namespace Context

variable {τ : Type*} [DecidableEq τ] (mask : FuseMask) (fuse : FuseWrap τ)

def modify (G : Context τ) (t : τ) (f : Describe τ → Describe τ) : Context τ :=
  { G with tensors := Function.update G.tensors t (f (G.tensors t)) }

def setRegions (G : Context τ) (t : τ) (regions : List (Region τ)) : Context τ :=
  G.modify t fun d => { d with regions }

/-- `getRasterCacheCreate`. -/
def createRaster (G : Context τ) (src : τ) : Context τ :=
  if (G.tensors src).virtualMemory then
    { G.modify src fun d => { d with rasterCommand := true } with commands := G.commands ++ [src] }
  else G

/-- What one pass of the inner loop leaves: the region at the index, whether the loop goes on, and
whether `needDelete` was set. -/
structure FusePass (τ : Type*) where
  context : Context τ
  input : Region τ
  again : Bool := false
  needDelete : Bool := false

/-- One pass of the inner loop on region `input` of `src`, which stands at `regIndex`. -/
def fuseStep (G : Context τ) (src : τ) (regIndex : ℕ) (input : Region τ) : FusePass τ :=
  let regions := (G.tensors src).regions
  let inputDes := G.tensors input.origin
  if inputDes.virtualMemory && mask.supportFuse then
    match inputDes.regions with
    | [] =>
      { context := G.setRegions src (regions.set regIndex input.clearSize), input := input.clearSize
        needDelete := true }
    | [reg] =>
      if fuse.isMatch reg input then
        let new := fuse.apply reg input
        { context := G.setRegions src (regions.set regIndex new), input := new
          again := new.size 0 ≠ 0, needDelete := new.size 0 = 0 }
      else { context := G, input }
    | reg :: more =>
      if mask.supportFuseMulti && (reg :: more).all fun r => fuse.isMatch r input then
        let new := fuse.apply reg input
        let others := (more.map fun r => fuse.apply r input).filter fun r => r.size 0 ≠ 0
        { context := G.setRegions src (regions.set regIndex new ++ others), input := new
          again := new.size 0 ≠ 0, needDelete := new.size 0 = 0 }
      else { context := G, input }
  else { context := G, input }

/-- The end of the recursion on `src`, after its loop. -/
def finish (G : Context τ) (src : τ) (needDelete : Bool) : Context τ :=
  let G := if needDelete
    then G.setRegions src ((G.tensors src).regions.filter fun r => !r.isEmpty) else G
  G.createRaster src

/-- Where the recursion stands: at its entry, or before the region at `regIndex`. -/
inductive Call (τ : Type*)
  | create (src : τ)
  | walk (src : τ) (regIndex : ℕ) (needDelete : Bool)

/-- `getRasterCacheCreateRecursive`, with a bound on its steps. -/
def run : ℕ → Call τ → Context τ → Option (Context τ)
  | 0, _, _ => none
  | n + 1, .create src, G =>
    if (G.tensors src).virtualMemory ∧ ¬ (G.tensors src).hasZeroDim then run n (.walk src 0 false) G
    else some G
  | n + 1, .walk src regIndex needDelete, G =>
    match (G.tensors src).regions[regIndex]? with
    | none => some (G.finish src needDelete)
    | some input =>
      let pass := fuseStep mask fuse G src regIndex input
      let needDelete := needDelete || pass.needDelete
      if pass.again then run n (.walk src regIndex needDelete) pass.context
      else if pass.input.size 0 > 0 then
        (run n (.create pass.input.origin) pass.context).bind
          (run n (.walk src (regIndex + 1) needDelete))
      else run n (.walk src (regIndex + 1) needDelete) pass.context

/-- The inner loop would take a pass that changes the region. -/
def CanFuse (G : Context τ) (r : Region τ) : Prop :=
  let inputDes := G.tensors r.origin
  inputDes.virtualMemory = true ∧ mask.supportFuse = true ∧
    (∀ a ∈ inputDes.regions, fuse.isMatch a r = true) ∧
    (1 < inputDes.regions.length → mask.supportFuseMulti = true)

@[simp] theorem setRegions_self (G : Context τ) (t : τ) (regions : List (Region τ)) :
    (G.setRegions t regions).tensors t = { G.tensors t with regions } :=
  Function.update_self ..

theorem setRegions_of_ne (G : Context τ) {t u : τ} (h : u ≠ t) (regions : List (Region τ)) :
    (G.setRegions t regions).tensors u = G.tensors u :=
  Function.update_of_ne h ..

/-- What one pass does: nothing where the region cannot be fused, and otherwise the region becomes
`new` and `others` are appended. -/
theorem fuseStep_cases (G : Context τ) (src : τ) (regIndex : ℕ) (input : Region τ) :
    let pass := fuseStep mask fuse G src regIndex input
    let inner := (G.tensors input.origin).regions
    (¬ CanFuse mask fuse G input ∧ pass = { context := G, input }) ∨
    (CanFuse mask fuse G input ∧ ∃ new others,
      pass = { context := G.setRegions src ((G.tensors src).regions.set regIndex new ++ others)
               input := new, again := new.size 0 ≠ 0, needDelete := new.size 0 = 0 } ∧
      ((inner = [] ∧ new = input.clearSize ∧ others = []) ∨
        ∃ reg more, inner = reg :: more ∧ new = fuse.apply reg input ∧
          others = (more.map fun r => fuse.apply r input).filter fun r => r.size 0 ≠ 0)) := by
  intro pass inner
  simp only [pass, inner, fuseStep, CanFuse]
  split_ifs with hvirtual
  · obtain ⟨hv, hfuse⟩ := Bool.and_eq_true_iff.1 hvirtual
    match hinner : (G.tensors input.origin).regions with
    | [] =>
      refine .inr ⟨⟨hv, hfuse, by simp, by simp⟩, input.clearSize, [], ?_, .inl ⟨rfl, rfl, rfl⟩⟩
      simp [Region.clearSize]
    | [reg] =>
      simp only
      split_ifs with hmatch
      · exact .inr ⟨⟨hv, hfuse, by simpa using hmatch, by simp⟩, fuse.apply reg input, [], by simp,
          .inr ⟨reg, [], rfl, rfl, rfl⟩⟩
      · refine .inl ⟨fun hcan => hmatch (hcan.2.2.1 reg List.mem_cons_self), rfl⟩
    | reg :: reg' :: more =>
      simp only
      split_ifs with hall
      · obtain ⟨hmulti, hall⟩ := Bool.and_eq_true_iff.1 hall
        exact .inr ⟨⟨hv, hfuse, List.all_eq_true.1 hall, fun _ => hmulti⟩, fuse.apply reg input, _,
          rfl, .inr ⟨reg, reg' :: more, rfl, rfl, rfl⟩⟩
      · refine .inl ⟨fun hcan => hall ?_, rfl⟩
        exact Bool.and_eq_true_iff.2 ⟨hcan.2.2.2 (by simp), List.all_eq_true.2 hcan.2.2.1⟩
  · refine .inl ⟨fun hcan => hvirtual ?_, rfl⟩
    exact Bool.and_eq_true_iff.2 ⟨hcan.1, hcan.2.1⟩

end Context

/-! ### What the tensors hold -/

section Value

variable {τ V : Type*} [DecidableEq τ] [Zero V]

/-- The fuse is exact on the regions of `S`, and does not leave them.  An empty result may have any
origin. -/
structure FuseWrap.ExactOn (fuse : FuseWrap τ) (S : Set (Region τ)) : Prop where
  origin : ∀ a ∈ S, ∀ b ∈ S, fuse.isMatch a b = true → (fuse.apply a b).size 0 ≠ 0 →
    (fuse.apply a b).origin = a.origin
  composes : ∀ a ∈ S, ∀ b ∈ S, fuse.isMatch a b = true → Composes a b (fuse.apply a b)
  mem : ∀ a ∈ S, ∀ b ∈ S, fuse.isMatch a b = true → fuse.apply a b ∈ S
  clear : ∀ b ∈ S, b.clearSize ∈ S

namespace Context

/-- Origins come before their tensors, except for empty regions of the tensors `X` in progress;
regions are among those of `S`, and the regions of a tensor write apart. -/
structure WellFormed (lt : τ → τ → Prop) (S : Set (Region τ)) (X : Set τ) (G : Context τ) :
    Prop where
  order : ∀ t, (G.tensors t).memoryVirtual = true → ∀ r ∈ (G.tensors t).regions,
    lt r.origin t ∨ t ∈ X ∧ r.size 0 = 0
  mem : ∀ t, (G.tensors t).memoryVirtual = true → ∀ r ∈ (G.tensors t).regions, r ∈ S
  apart : ∀ t, (G.tensors t).memoryVirtual = true → WritesApart (G.tensors t).regions

/-- The tensors hold `value`: those with memory their content, the others what their regions copy
together. -/
def IsValue (content value : τ → ℤ → V) (G : Context τ) : Prop :=
  ∀ t, value t = if (G.tensors t).memoryVirtual then raster (G.tensors t).regions value
    else content t

variable {lt : τ → τ → Prop} {S : Set (Region τ)} {X : Set τ}

theorem WellFormed.setRegions {G : Context τ} (h : G.WellFormed lt S X) {t : τ}
    {regions : List (Region τ)}
    (horder : ∀ r ∈ regions, lt r.origin t ∨ t ∈ X ∧ r.size 0 = 0) (hmem : ∀ r ∈ regions, r ∈ S)
    (hapart : WritesApart regions) : (G.setRegions t regions).WellFormed lt S X := by
  have key : ∀ (u : τ), (G.setRegions t regions).tensors u = G.tensors u ∨
      u = t ∧ ((G.setRegions t regions).tensors u).regions = regions := by
    intro u
    by_cases hu : u = t
    · exact .inr ⟨hu, by rw [hu, setRegions_self]⟩
    · exact .inl (setRegions_of_ne G hu regions)
  have hvirtual : ∀ u, ((G.setRegions t regions).tensors u).memoryVirtual =
      (G.tensors u).memoryVirtual := by
    intro u
    by_cases hu : u = t
    · rw [hu, setRegions_self]
    · rw [setRegions_of_ne G hu]
  refine ⟨fun u hu => ?_, fun u hu => ?_, fun u hu => ?_⟩ <;> rw [hvirtual] at hu <;>
    rcases key u with hsame | ⟨rfl, hnew⟩
  · rw [hsame]; exact h.order u hu
  · rw [hnew]; exact horder
  · rw [hsame]; exact h.mem u hu
  · rw [hnew]; exact hmem
  · rw [hsame]; exact h.apart u hu
  · rw [hnew]; exact hapart

/-- A list that leaves the same in its place does not change what the tensors hold. -/
theorem IsValue.setRegions {content value : τ → ℤ → V} {G : Context τ} (h : IsValue content value G)
    {t : τ} {regions : List (Region τ)} (hw : WritesApart (G.tensors t).regions)
    (hw' : WritesApart regions)
    (hleaves : ∀ o x, Leaves (G.tensors t).regions value o x ↔ Leaves regions value o x) :
    IsValue content value (G.setRegions t regions) := by
  have hraster : raster (G.tensors t).regions value = raster regions value := by
    funext o
    exact ((raster_eq_iff hw value o _).2 ((hleaves o _).2 ((raster_eq_iff hw' value o _).1 rfl)))
  intro u
  by_cases hu : u = t
  · subst hu
    rw [h u, setRegions_self]
    simp only [hraster]
  · rw [h u, setRegions_of_ne G hu]

omit [DecidableEq τ] [Zero V] in
theorem exists_split {l : List (Region τ)} {i : ℕ} {input : Region τ} (h : l[i]? = some input) :
    ∃ pre post, l = pre ++ input :: post ∧ pre.length = i ∧
      ∀ new, l.set i new = pre ++ new :: post := by
  obtain ⟨hi, rfl⟩ := List.getElem?_eq_some_iff.1 h
  refine ⟨l.take i, l.drop (i + 1), ?_, List.length_take_of_le hi.le, fun new => ?_⟩
  · rw [List.getElem_cons_drop, List.take_append_drop]
  · rw [List.set_eq_take_append_cons_drop, if_pos hi]

section Pass

variable {fuse : FuseWrap τ} (hexact : fuse.ExactOn S) {G : Context τ}
  (hG : G.WellFormed lt S X) {src : τ} (hsrc : (G.tensors src).memoryVirtual = true) {i : ℕ}
  {input new : Region τ} {others : List (Region τ)}
  (hinput : (G.tensors src).regions[i]? = some input)
  (hvirtual : (G.tensors input.origin).memoryVirtual = true)
  (hmatch : ∀ a ∈ (G.tensors input.origin).regions, fuse.isMatch a input = true)
  (hnew : ((G.tensors input.origin).regions = [] ∧ new = input.clearSize ∧ others = []) ∨
    ∃ reg more, (G.tensors input.origin).regions = reg :: more ∧ new = fuse.apply reg input ∧
      others = (more.map fun r => fuse.apply r input).filter fun r => r.size 0 ≠ 0)

include hexact hG hsrc hinput hvirtual hmatch hnew

omit [DecidableEq τ] [Zero V] in
/-- Where the regions of a pass come from. -/
theorem pass_origin (hX : input.origin ∉ X) :
    (new.size 0 ≠ 0 → lt new.origin input.origin) ∧ new ∈ S ∧
      ∀ r ∈ others, lt r.origin input.origin ∧ r ∈ S := by
  have hinputS := hG.mem src hsrc input (List.mem_of_getElem? hinput)
  have happly : ∀ a ∈ (G.tensors input.origin).regions, fuse.apply a input ∈ S ∧
      ((fuse.apply a input).size 0 ≠ 0 → lt (fuse.apply a input).origin input.origin) := by
    intro a ha
    have haS := hG.mem _ hvirtual a ha
    refine ⟨hexact.mem a haS input hinputS (hmatch a ha), fun hsize => ?_⟩
    rw [hexact.origin a haS input hinputS (hmatch a ha) hsize]
    exact (hG.order _ hvirtual a ha).resolve_right fun h => hX h.1
  rcases hnew with ⟨-, rfl, rfl⟩ | ⟨reg, more, hinner, rfl, rfl⟩
  · refine ⟨fun h => absurd (Region.clearSize_size input) h, hexact.clear input hinputS, ?_⟩
    exact fun r hr => absurd hr List.not_mem_nil
  · rw [hinner] at happly
    have hreg := happly reg List.mem_cons_self
    refine ⟨hreg.2, hreg.1, fun r hr => ?_⟩
    obtain ⟨hr, hsize⟩ := List.mem_filter.1 hr
    obtain ⟨a, ha, rfl⟩ := List.mem_map.1 hr
    have happly := happly a (List.mem_cons_of_mem reg ha)
    exact ⟨happly.2 (of_decide_eq_true hsize), happly.1⟩

omit [DecidableEq τ] in
/-- **One pass.**  The new list writes apart and leaves what the old one left. -/
theorem pass_leaves :
    WritesApart ((G.tensors src).regions.set i new ++ others) ∧
      ∀ {content value : τ → ℤ → V}, IsValue content value G → ∀ o x,
        Leaves (G.tensors src).regions value o x ↔
          Leaves ((G.tensors src).regions.set i new ++ others) value o x := by
  obtain ⟨pre, post, hsplit, -, hset⟩ := exists_split hinput
  have hinputS := hG.mem src hsrc input (List.mem_of_getElem? hinput)
  have hw := hG.apart src hsrc
  have hinner := hG.apart _ hvirtual
  have hcomposes : ∀ a ∈ (G.tensors input.origin).regions, Composes a input (fuse.apply a input) :=
    fun a ha => hexact.composes a (hG.mem _ hvirtual a ha) input hinputS (hmatch a ha)
  have hsize : ∀ {r : Region τ} {s o}, r.Copies s o → r.size 0 ≠ 0 :=
    fun hs hzero => Region.not_copies_of_size hzero.le _ _ hs
  have horigin : ∀ a ∈ (G.tensors input.origin).regions, ∀ s o, (fuse.apply a input).Copies s o →
      (fuse.apply a input).origin = a.origin := fun a ha _ _ hs =>
    hexact.origin a (hG.mem _ hvirtual a ha) input hinputS (hmatch a ha) (hsize hs)
  have hperm : (pre ++ input :: post).Perm (input :: (pre ++ post)) := List.perm_middle
  have hw' : WritesApart (input :: (pre ++ post)) := (writesApart_perm hperm).1 (hsplit ▸ hw)
  -- the list with all compositions, from which the new one differs by regions without effect
  have hall := writesApart_inline hcomposes hw' hinner
  have hlist : ∀ {content value : τ → ℤ → V}, IsValue content value G → ∀ o x,
      Leaves (G.tensors src).regions value o x ↔ Leaves ((G.tensors input.origin).regions.map
        (fun a => fuse.apply a input) ++ (pre ++ post)) value o x := by
    intro content value hvalue o x
    rw [hsplit, leaves_congr (fun r _ _ _ => hperm.mem_iff) value o x]
    exact leaves_inline hcomposes hw' hinner horigin value (by rw [hvalue, if_pos hvirtual]) o x
  rw [hset]
  rcases hnew with ⟨hnil, rfl, rfl⟩ | ⟨reg, more, hcons, rfl, rfl⟩
  · have hclear : ∀ s o, ¬ input.clearSize.Copies s o :=
      Region.not_copies_of_size (k := 0) (Region.clearSize_size input).le
    rw [hnil, List.map_nil, List.nil_append] at hall
    refine ⟨?_, fun hvalue o x => ?_⟩
    · rw [List.append_nil, writesApart_perm List.perm_middle, writesApart_cons_of_not_copies hclear]
      exact hall
    · rw [hlist hvalue, hnil]
      refine leaves_congr (fun r s o hs => ?_) _ o x
      have hne : r ≠ input.clearSize := fun heq => hclear s o (heq ▸ hs)
      simp [hne]
  · rw [hcons, List.map_cons] at hall
    refine ⟨?_, fun hvalue o x => ?_⟩
    · have hsub : (fuse.apply reg input :: ((more.map fun r => fuse.apply r input).filter
          fun r => r.size 0 ≠ 0) ++ (pre ++ post)).Sublist
          (fuse.apply reg input :: (more.map fun r => fuse.apply r input) ++ (pre ++ post)) :=
        (List.filter_sublist.cons_cons _).append_right _
      refine (writesApart_perm ?_).1 (hall.sublist hsub)
      rw [List.cons_append, List.append_assoc pre, List.cons_append]
      refine (List.Perm.cons _ ?_).trans List.perm_middle.symm
      exact List.perm_append_comm.trans (by rw [List.append_assoc])
    · rw [hlist hvalue, hcons]
      refine leaves_congr (fun r s o hs => ?_) _ o x
      have hne := hsize hs
      simp only [List.map_cons, List.mem_append, List.mem_cons, List.mem_filter, decide_eq_true_eq]
      tauto

end Pass

end Context

end Value

end Mnn
