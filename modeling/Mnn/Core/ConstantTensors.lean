import Mathlib.Data.List.GetD
import Mathlib.Logic.Relation
import Mnn.Lib.Loops
import Mnn.Lib.Saturate

/-!
# `GeometryComputerUtils::buildConstantTensors`

Which operators are computed when the shapes are (`source/geometry/GeometryComputerUtils.cpp`).
Such an operator is marked `CONSTANT`, and so are the tensors whose content is known by then.

* `opNeedContent` (`source/core/OpCommonUtils.cpp`): whether the content of an input is read at all;
* `checkMiddle`: marks forward, from the inputs to the outputs of an operator;
* `checkSize`: the inputs whose content `SizeComputer::needInputContent` asks for;
* `turnConst`: marks backward, until nothing changes;
* `buildConstantTensors_closed`: **the marks are closed**.
-/

namespace Mnn.ConstantTensors

open Lib.Saturate

/-! ### Operators and tensors -/

/-- The types of operators that matter here. -/
inductive OpType
  | const
  | whereOp
  | zerosLike
  | zeroGrad
  | shape
  | rank
  | size
  | priorBox
  | interp
  | crop
  | reshape
  | reduction
  | resize
  | gridSample
  | other (type : ℕ)
  deriving DecidableEq, Repr

/-- An operator; `extra` says that its `main_type` is `OpParameter_Extra`. -/
structure Op where
  type : OpType
  extra : Bool := false
  deriving DecidableEq, Repr

/-- `OpCommonUtils::opNeedContent`, without the operators of `MNN_SUPPORT_RENDER`. -/
def opNeedContent (op : Op) (index : ℕ) : Bool :=
  match op.type with
  | .zerosLike | .zeroGrad | .shape | .rank | .const | .size | .priorBox => false
  | .interp | .crop | .reshape | .reduction | .resize => index ≠ 1
  | .gridSample => index ≠ 2
  | _ => true

/-- `Tensor::InsideDescribe::Usage`. -/
inductive Usage
  | normal
  | input
  | output
  | constant
  | trainable
  deriving DecidableEq, Repr

/-- What is read and written of a tensor; `geometryStage` is a bit of `stageMask`. -/
structure Describe where
  usage : Usage := .normal
  geometryStage : Bool := false
  isMutable : Bool := true
  deriving DecidableEq, Repr

/-- `Schedule::Type`. -/
inductive ScheduleType
  | separate
  | constant
  | notSeparate
  deriving DecidableEq, Repr

/-- `Schedule::OpCacheInfo`, but for what changes; tensors are numbered. -/
structure OpCacheInfo where
  op : Op
  inputs : List ℕ
  outputs : List ℕ
  deriving DecidableEq, Repr

/-- What changes: the type and the content indexes of each operator, and the tensors. -/
structure Marks where
  type : ℕ → ScheduleType := fun _ => .separate
  contentIndexes : ℕ → List ℤ := fun _ => []
  describe : ℕ → Describe := fun _ => {}

namespace Marks

variable (s : Marks)

/-- The tensors become constant. -/
def setConstant (tensors : List ℕ) : Marks :=
  { s with describe := fun t =>
      if t ∈ tensors then { s.describe t with usage := .constant } else s.describe t }

/-- The tensors are read by geometry. -/
def setStage (tensors : List ℕ) : Marks :=
  { s with describe := fun t =>
      if t ∈ tensors then { s.describe t with geometryStage := true } else s.describe t }

/-- The operator `k` is marked. -/
def setType (k : ℕ) : Marks := { s with type := Function.update s.type k .constant }

/-- The tensor has constant usage. -/
def IsConst (t : ℕ) : Prop := (s.describe t).usage = .constant

instance (t : ℕ) : Decidable (s.IsConst t) := inferInstanceAs (Decidable (_ = _))

end Marks

/-! ### Passes -/

/-- Check Middle Const. -/
def checkMiddle (s : Marks) : OpCacheInfo × ℕ → Marks
  | (info, k) =>
    if info.op.type = .const then s
    else if info.inputs.zipIdx.all fun (t, i) => s.IsConst t || !opNeedContent info.op i then
      (s.setConstant info.outputs).setType k
    else s

section CheckSize

variable (needInputContent : Op → ℕ → List ℤ)

/-- One index of `dims`; a negative one is too large when it is compared with the size. -/
def checkContent (info : OpCacheInfo) (k : ℕ) (s : Marks × Option ℕ) (index : ℤ) :
    Marks × Option ℕ :=
  if 0 ≤ index ∧ index < info.inputs.length then
    let t := info.inputs.getD index.toNat 0
    let s' := (s.1.setStage [t]).setConstant [t]
    ({ s' with
        contentIndexes :=
          if (s.1.describe t).isMutable then
            Function.update s.1.contentIndexes k (s.1.contentIndexes k ++ [index])
          else s.1.contentIndexes },
      if s.1.IsConst t then s.2 else some k)
  else s

/-- Check force size compute op. -/
def checkSize (s : Marks × Option ℕ) : OpCacheInfo × ℕ → Marks × Option ℕ
  | (info, k) =>
    if info.op.type = .const then s
    -- For compability old model
    else if info.op.type = .whereOp ∧ ¬ info.op.extra then s
    else (needInputContent info.op info.inputs.length).foldl (checkContent info k) s

/-- An operator with a constant output is computed with all its inputs. -/
def turnConst (s : Marks) : OpCacheInfo × ℕ → Marks × Bool
  | (info, k) =>
    if s.type k = .constant then (s, false)
    else if info.outputs.any fun t => s.IsConst t then
      (((s.setConstant info.outputs).setConstant info.inputs).setType k, true)
    else (s, false)

/-- The last pass. -/
def finish (s : Marks) : OpCacheInfo × ℕ → Marks
  | (info, k) =>
    if s.type k = .constant then (s.setStage info.inputs).setConstant info.outputs else s

/-- `buildConstantTensors`, with a bound for the rounds of its loop: the marks, and `breakIndex`. -/
def buildConstantTensors (fuel : ℕ) (infos : List OpCacheInfo) (s : Marks) :
    Option (Marks × Option ℕ) :=
  let items := infos.zipIdx
  let (s, breakIndex) := items.foldl (checkSize needInputContent) (items.foldl checkMiddle s, none)
  let closed := if breakIndex.isSome then saturate turnConst items fuel s else some s
  closed.map fun s => (items.foldl finish s, breakIndex)

/-! ### What the marks are for -/

variable (infos : List OpCacheInfo)

/-- The shape computation of some operator reads the content of the tensor. -/
def Needed (t : ℕ) : Prop :=
  ∃ info ∈ infos, info.op.type ≠ .const ∧ ¬ (info.op.type = .whereOp ∧ ¬ info.op.extra) ∧
    ∃ index ∈ needInputContent info.op info.inputs.length, ∃ i : ℕ, index = i ∧
      info.inputs[i]? = some t

/-- The operator reads the content of an output of the other one. -/
def DependsOn (p q : OpCacheInfo × ℕ) : Prop :=
  q ∈ infos.zipIdx ∧ ∃ i t, p.1.inputs[i]? = some t ∧ opNeedContent p.1.op i ∧ t ∈ q.1.outputs

/-- The content of the outputs is known: a `Const`, or an operator that is marked. -/
def Known (s : Marks) (p : OpCacheInfo × ℕ) : Prop :=
  p.1.op.type = .const ∨ s.type p.2 = .constant

/-- The state of a new schedule: nothing is marked, and what is constant is the output of a `Const`
or of an operator that needs nothing but constants, if it is an output at all. -/
structure Start (s : Marks) : Prop where
  separate : ∀ k, s.type k = .separate
  constant : ∀ t, s.IsConst t → (∃ p ∈ infos.zipIdx, t ∈ p.1.outputs) →
    ∃ p ∈ infos.zipIdx, t ∈ p.1.outputs ∧ (p.1.op.type = .const ∨
      ∀ i t', p.1.inputs[i]? = some t' → opNeedContent p.1.op i → s.IsConst t')

/-- What a marked operator reads is constant. -/
def ContentConst (s : Marks) : Prop :=
  ∀ p ∈ infos.zipIdx, s.type p.2 = .constant → ∀ i t, p.1.inputs[i]? = some t →
    opNeedContent p.1.op i → s.IsConst t

/-- What is constant is the output of an operator whose outputs are known, if it is an output. -/
def Produced (s : Marks) : Prop :=
  ∀ t, s.IsConst t → (∃ p ∈ infos.zipIdx, t ∈ p.1.outputs) →
    ∃ p ∈ infos.zipIdx, t ∈ p.1.outputs ∧ Known s p

/-- The marks are closed. -/
structure Closed (s : Marks) : Prop where
  content : ContentConst infos s
  produced : Produced infos s
  /-- What the shape computation reads is constant. -/
  needed : ∀ t, Needed needInputContent infos t → s.IsConst t

end CheckSize

/-! ### Marks that grow -/

namespace Marks

variable {s s' : Marks} {t k : ℕ} {l : List ℕ}

theorem isConst_setConstant : (s.setConstant l).IsConst t ↔ t ∈ l ∨ s.IsConst t := by
  unfold IsConst setConstant
  by_cases ht : t ∈ l
  · simp [ht]
  · simp [ht]

theorem isConst_setStage : (s.setStage l).IsConst t ↔ s.IsConst t := by
  unfold IsConst setStage
  by_cases ht : t ∈ l
  · simp [ht]
  · simp [ht]

@[simp] theorem isConst_setType : (s.setType k).IsConst t ↔ s.IsConst t := Iff.rfl

theorem type_setType (j : ℕ) :
    (s.setType k).type j = .constant ↔ j = k ∨ s.type j = .constant := by
  by_cases hj : j = k
  · simp [setType, hj]
  · simp [setType, hj]

/-- No mark is taken back. -/
structure Grows (s s' : Marks) : Prop where
  const : ∀ t, s.IsConst t → s'.IsConst t
  type : ∀ k, s.type k = .constant → s'.type k = .constant

theorem Grows.refl (s : Marks) : Grows s s := ⟨fun _ h => h, fun _ h => h⟩

theorem Grows.trans {s₁ s₂ s₃ : Marks} (h : Grows s₁ s₂) (h' : Grows s₂ s₃) : Grows s₁ s₃ :=
  ⟨fun t ht => h'.const t (h.const t ht), fun k hk => h'.type k (h.type k hk)⟩

theorem grows_setConstant (l : List ℕ) : Grows s (s.setConstant l) :=
  ⟨fun _ ht => isConst_setConstant.2 (.inr ht), fun _ hk => hk⟩

theorem grows_setStage (l : List ℕ) : Grows s (s.setStage l) :=
  ⟨fun _ ht => isConst_setStage.2 ht, fun _ hk => hk⟩

theorem grows_setType (k : ℕ) : Grows s (s.setType k) :=
  ⟨fun _ ht => ht, fun j hj => (type_setType j).2 (.inr hj)⟩

end Marks

open Marks

variable {infos : List OpCacheInfo} {s s' : Marks}

theorem Known.grows {p : OpCacheInfo × ℕ} (hp : Known s p) (h : Grows s s') : Known s' p :=
  hp.imp_right (h.type _)

/-- Marks may grow when every operator that is marked reads constants. -/
theorem ContentConst.grows (hs : ContentConst infos s) (h : Grows s s')
    (hnew : ∀ p ∈ infos.zipIdx, s'.type p.2 = .constant → s.type p.2 = .constant ∨
      ∀ i t, p.1.inputs[i]? = some t → opNeedContent p.1.op i → s'.IsConst t) :
    ContentConst infos s' := by
  intro p hp htype i t ht hneed
  rcases hnew p hp htype with hold | hnew
  · exact h.const t (hs p hp hold i t ht hneed)
  · exact hnew i t ht hneed

/-! ### Forward -/

/-- All that the operator reads is constant. -/
def Ready (s : Marks) (info : OpCacheInfo) : Prop :=
  ∀ i t, info.inputs[i]? = some t → opNeedContent info.op i → s.IsConst t

theorem all_iff_ready (s : Marks) (info : OpCacheInfo) :
    (info.inputs.zipIdx.all fun (t, i) => s.IsConst t || !opNeedContent info.op i) = true ↔
      Ready s info := by
  simp only [List.all_eq_true, Prod.forall, List.mem_zipIdx_iff_getElem?, Bool.or_eq_true,
    decide_eq_true_eq, Bool.not_eq_true', Ready]
  refine ⟨fun h i t ht hneed => (h t i ht).resolve_right (by rw [hneed]; exact Bool.noConfusion),
    fun h t i ht => ?_⟩
  by_cases hneed : opNeedContent info.op i = true
  · exact .inl (h i t ht hneed)
  · exact .inr (Bool.eq_false_iff.2 hneed)

/-- One operator is marked when it is ready. -/
theorem checkMiddle_cases (s : Marks) (p : OpCacheInfo × ℕ) :
    p.1.op.type ≠ .const ∧ Ready s p.1 ∧
        checkMiddle s p = (s.setConstant p.1.outputs).setType p.2 ∨
      (p.1.op.type = .const ∨ ¬ Ready s p.1) ∧ checkMiddle s p = s := by
  obtain ⟨info, k⟩ := p
  rw [checkMiddle]
  by_cases hconst : info.op.type = .const
  · exact .inr ⟨.inl hconst, if_pos hconst⟩
  rw [if_neg hconst]
  by_cases hready : Ready s info
  · exact .inl ⟨hconst, hready, if_pos ((all_iff_ready s info).2 hready)⟩
  · exact .inr ⟨.inr hready, if_neg fun h => hready ((all_iff_ready s info).1 h)⟩

theorem Ready.grows {info : OpCacheInfo} (hs : Ready s info) (h : Grows s s') : Ready s' info :=
  fun i t ht hneed => h.const t (hs i t ht hneed)

theorem grows_checkMiddle (s : Marks) (p : OpCacheInfo × ℕ) : Grows s (checkMiddle s p) := by
  obtain ⟨-, -, h⟩ | ⟨-, h⟩ := checkMiddle_cases s p
  · rw [h]
    exact (grows_setConstant _).trans (grows_setType _)
  · rw [h]
    exact .refl s

theorem ContentConst.checkMiddle (hs : ContentConst infos s) {p : OpCacheInfo × ℕ}
    (hp : p ∈ infos.zipIdx) : ContentConst infos (checkMiddle s p) := by
  refine hs.grows (grows_checkMiddle s p) fun q hq htype => ?_
  obtain ⟨-, hready, h⟩ | ⟨-, h⟩ := checkMiddle_cases s p
  · rw [h, type_setType] at htype
    refine htype.symm.imp_right fun hqp => ?_
    obtain rfl := Lib.eq_of_mem_zipIdx hq hp hqp
    exact hready.grows (grows_checkMiddle s q)
  · rw [h] at htype
    exact .inl htype

/-- What is constant is the output of an operator that is known, or will be after its visit. -/
def ProducedBy (infos : List OpCacheInfo) (rest : List (OpCacheInfo × ℕ)) (s : Marks) : Prop :=
  ∀ t, s.IsConst t → (∃ p ∈ infos.zipIdx, t ∈ p.1.outputs) →
    ∃ p ∈ infos.zipIdx, t ∈ p.1.outputs ∧ (Known s p ∨ p ∈ rest ∧ Ready s p.1)

theorem ProducedBy.checkMiddle {p : OpCacheInfo × ℕ} {rest : List (OpCacheInfo × ℕ)}
    (hs : ProducedBy infos (p :: rest) s) (hp : p ∈ infos.zipIdx) :
    ProducedBy infos rest (checkMiddle s p) := by
  intro t ht hex
  have hgrows := grows_checkMiddle s p
  -- the operator itself is known after its visit when it was ready before
  have hvisited : Ready s p.1 → Known (ConstantTensors.checkMiddle s p) p := by
    intro hready
    obtain ⟨-, -, h⟩ | ⟨hnot, -⟩ := checkMiddle_cases s p
    · rw [h]
      exact .inr ((type_setType _).2 (.inl rfl))
    · exact .inl (hnot.resolve_right (not_not.2 hready))
  by_cases hold : s.IsConst t
  · obtain ⟨q, hq, htq, hknown | ⟨hrest, hready⟩⟩ := hs t hold hex
    · exact ⟨q, hq, htq, .inl (hknown.grows hgrows)⟩
    · rcases List.mem_cons.1 hrest with rfl | hrest
      · exact ⟨q, hq, htq, .inl (hvisited hready)⟩
      · exact ⟨q, hq, htq, .inr ⟨hrest, hready.grows hgrows⟩⟩
  · obtain ⟨-, hready, h⟩ | ⟨-, h⟩ := checkMiddle_cases s p
    · rw [h, isConst_setType, isConst_setConstant] at ht
      exact ⟨p, hp, ht.resolve_right hold, .inl (hvisited hready)⟩
    · exact absurd (h ▸ ht) hold

/-- The first pass. -/
theorem foldl_checkMiddle {rest : List (OpCacheInfo × ℕ)} (hrest : ∀ p ∈ rest, p ∈ infos.zipIdx)
    (hcontent : ContentConst infos s) (hs : ProducedBy infos rest s) :
    ContentConst infos (rest.foldl checkMiddle s) ∧ Produced infos (rest.foldl checkMiddle s) := by
  induction rest generalizing s with
  | nil =>
    refine ⟨hcontent, fun t ht hex => ?_⟩
    obtain ⟨p, hp, htp, hknown | ⟨hnil, -⟩⟩ := hs t ht hex
    · exact ⟨p, hp, htp, hknown⟩
    · exact absurd hnil List.not_mem_nil
  | cons p rest ih =>
    have hp := hrest p List.mem_cons_self
    exact ih (fun q hq => hrest q (List.mem_cons_of_mem p hq)) (hcontent.checkMiddle hp)
      (hs.checkMiddle hp)

theorem Start.foldl_checkMiddle (h : Start infos s) :
    ContentConst infos (infos.zipIdx.foldl checkMiddle s) ∧
      Produced infos (infos.zipIdx.foldl checkMiddle s) := by
  refine ConstantTensors.foldl_checkMiddle (fun p hp => hp) (fun p _ htype => ?_) fun t ht hex => ?_
  · rw [h.separate] at htype
    exact absurd htype (by decide)
  · obtain ⟨p, hp, htp, hconst | hready⟩ := h.constant t ht hex
    · exact ⟨p, hp, htp, .inl (.inl hconst)⟩
    · exact ⟨p, hp, htp, .inr ⟨hp, hready⟩⟩

/-! ### Content for shapes -/

/-- What the second pass does: when it says that nothing was missing, it changed no usage. -/
structure Sized (s s' : Marks × Option ℕ) : Prop where
  grows : Grows s.1 s'.1
  type : s'.1.type = s.1.type
  unchanged : s'.2 = none → s.2 = none ∧ ∀ t, s'.1.IsConst t → s.1.IsConst t

theorem Sized.refl (s : Marks × Option ℕ) : Sized s s := ⟨.refl _, rfl, fun h => ⟨h, fun _ h => h⟩⟩

theorem Sized.trans {s₁ s₂ s₃ : Marks × Option ℕ} (h : Sized s₁ s₂) (h' : Sized s₂ s₃) :
    Sized s₁ s₃ := by
  refine ⟨h.grows.trans h'.grows, h'.type.trans h.type, fun hnone => ?_⟩
  obtain ⟨hnone', hconst'⟩ := h'.unchanged hnone
  obtain ⟨hnone, hconst⟩ := h.unchanged hnone'
  exact ⟨hnone, fun t ht => hconst t (hconst' t ht)⟩

theorem Sized.foldl {ι : Type*} {f : Marks × Option ℕ → ι → Marks × Option ℕ}
    (hf : ∀ s i, Sized s (f s i)) (l : List ι) (s : Marks × Option ℕ) : Sized s (l.foldl f s) := by
  induction l generalizing s with
  | nil => exact .refl s
  | cons i l ih => exact (hf s i).trans (ih _)

/-- What one pass over a list reaches is kept by the rest of it. -/
theorem Sized.foldl_of_mem {ι : Type*} {f : Marks × Option ℕ → ι → Marks × Option ℕ}
    (hf : ∀ s i, Sized s (f s i)) {l : List ι} {i : ι} (hi : i ∈ l) {t : ℕ}
    (ht : ∀ s, (f s i).1.IsConst t) (s : Marks × Option ℕ) : (l.foldl f s).1.IsConst t := by
  obtain ⟨front, back, rfl⟩ := List.append_of_mem hi
  rw [List.foldl_append, List.foldl_cons]
  exact (Sized.foldl hf back _).grows.const t (ht _)

theorem isConst_checkContent {info : OpCacheInfo} {k : ℕ} {s : Marks × Option ℕ} {index : ℤ}
    (h : 0 ≤ index ∧ index < info.inputs.length) (t : ℕ) :
    (checkContent info k s index).1.IsConst t ↔
      t = info.inputs.getD index.toNat 0 ∨ s.1.IsConst t := by
  rw [checkContent, if_pos h]
  show (((s.1.setStage _).setConstant _).IsConst t) ↔ _
  rw [isConst_setConstant, isConst_setStage, List.mem_singleton]

theorem sized_checkContent (info : OpCacheInfo) (k : ℕ) (s : Marks × Option ℕ) (index : ℤ) :
    Sized s (checkContent info k s index) := by
  by_cases h : 0 ≤ index ∧ index < info.inputs.length
  · have htype : (checkContent info k s index).1.type = s.1.type := by
      rw [checkContent, if_pos h]
      rfl
    refine ⟨⟨fun t ht => (isConst_checkContent h t).2 (.inr ht), fun j hj => by rwa [htype]⟩, htype,
      fun hnone => ?_⟩
    have hbreak : (checkContent info k s index).2 =
        if s.1.IsConst (info.inputs.getD index.toNat 0) then s.2 else some k := by
      rw [checkContent, if_pos h]
    rw [hbreak] at hnone
    by_cases hconst : s.1.IsConst (info.inputs.getD index.toNat 0)
    · rw [if_pos hconst] at hnone
      refine ⟨hnone, fun t ht => ?_⟩
      rcases (isConst_checkContent h t).1 ht with rfl | ht
      · exact hconst
      · exact ht
    · rw [if_neg hconst] at hnone
      exact absurd hnone (Option.some_ne_none k)
  · rw [checkContent, if_neg h]
    exact .refl s

section CheckSize

variable {needInputContent : Op → ℕ → List ℤ}

theorem sized_checkSize (s : Marks × Option ℕ) (p : OpCacheInfo × ℕ) :
    Sized s (checkSize needInputContent s p) := by
  obtain ⟨info, k⟩ := p
  rw [checkSize]
  split_ifs
  · exact .refl s
  · exact .refl s
  · exact .foldl (sized_checkContent info k) _ s

/-- After the second pass all content that shapes need is constant. -/
theorem isConst_foldl_checkSize {t : ℕ} (ht : Needed needInputContent infos t)
    (s : Marks × Option ℕ) :
    (infos.zipIdx.foldl (checkSize needInputContent) s).1.IsConst t := by
  obtain ⟨info, hinfo, hconst, hwhere, index, hindex, i, rfl, hi⟩ := ht
  obtain ⟨k, hk, rfl⟩ := List.getElem_of_mem hinfo
  have hmem : (infos[k], k) ∈ infos.zipIdx :=
    List.mem_zipIdx_iff_getElem?.2 (List.getElem?_eq_getElem hk)
  refine Sized.foldl_of_mem sized_checkSize hmem (fun s => ?_) s
  rw [checkSize, if_neg hconst, if_neg hwhere]
  refine Sized.foldl_of_mem (sized_checkContent _ k) hindex (fun s => ?_) s
  obtain ⟨hlt, hget⟩ := List.getElem?_eq_some_iff.1 hi
  refine (isConst_checkContent ⟨Int.natCast_nonneg i, Int.ofNat_lt.2 hlt⟩ t).2 (.inl ?_)
  rw [Int.toNat_natCast, List.getD_eq_getElem _ _ hlt, hget]

end CheckSize

/-! ### Backward -/

/-- An operator is marked when an output is constant. -/
theorem turnConst_cases (s : Marks) (p : OpCacheInfo × ℕ) :
    s.type p.2 ≠ .constant ∧ turnConst s p =
        (((s.setConstant p.1.outputs).setConstant p.1.inputs).setType p.2, true) ∨
      (s.type p.2 = .constant ∨ ∀ t ∈ p.1.outputs, ¬ s.IsConst t) ∧ turnConst s p = (s, false) := by
  obtain ⟨info, k⟩ := p
  rw [turnConst]
  by_cases htype : s.type k = .constant
  · exact .inr ⟨.inl htype, if_pos htype⟩
  rw [if_neg htype]
  by_cases hany : (info.outputs.any fun t => s.IsConst t) = true
  · exact .inl ⟨htype, if_pos hany⟩
  · refine .inr ⟨.inr fun t ht hconst => hany ?_, if_neg hany⟩
    exact List.any_eq_true.2 ⟨t, ht, decide_eq_true hconst⟩

theorem honest_turnConst (items : List (OpCacheInfo × ℕ)) : Honest turnConst items := by
  intro s p _ hfalse
  obtain ⟨-, h⟩ | ⟨-, h⟩ := turnConst_cases s p
  · rw [h] at hfalse
    exact absurd hfalse Bool.noConfusion
  · rw [h]

theorem grows_turnConst (s : Marks) (p : OpCacheInfo × ℕ) : Grows s (turnConst s p).1 := by
  obtain ⟨-, h⟩ | ⟨-, h⟩ := turnConst_cases s p
  · rw [h]
    exact (grows_setConstant _).trans ((grows_setConstant _).trans (grows_setType _))
  · rw [h]
    exact .refl s

theorem ContentConst.turnConst (hs : ContentConst infos s) {p : OpCacheInfo × ℕ}
    (hp : p ∈ infos.zipIdx) : ContentConst infos (turnConst s p).1 := by
  refine hs.grows (grows_turnConst s p) fun q hq htype => ?_
  obtain ⟨-, h⟩ | ⟨-, h⟩ := turnConst_cases s p
  · rw [h] at htype ⊢
    refine ((type_setType _).1 htype).symm.imp_right fun hqp i t ht _ => ?_
    obtain rfl := Lib.eq_of_mem_zipIdx hq hp hqp
    exact isConst_setConstant.2 (.inl (List.mem_of_getElem? ht))
  · rw [h] at htype
    exact .inl htype

/-- The operators that are not marked. -/
def unmarked (infos : List OpCacheInfo) (s : Marks) : ℕ :=
  pending infos.length fun k => s.type k = .constant

theorem unmarked_turnConst {p : OpCacheInfo × ℕ} (hp : p ∈ infos.zipIdx)
    (h : (turnConst s p).2 = true) : unmarked infos (turnConst s p).1 < unmarked infos s := by
  obtain ⟨htype, heq⟩ | ⟨-, heq⟩ := turnConst_cases s p
  · have hlt : p.2 < infos.length :=
      (List.getElem?_eq_some_iff.1 (List.mem_zipIdx_iff_getElem?.1 hp)).1
    refine pending_lt hlt (grows_turnConst s p).type htype ?_
    rw [heq]
    exact (type_setType _).2 (.inl rfl)
  · rw [heq] at h
    exact absurd h Bool.false_ne_true

/-- The loop ends, and then every operator with a constant output is marked. -/
theorem saturate_turnConst {fuel : ℕ} (hfuel : infos.length < fuel)
    (hcontent : ContentConst infos s) :
    ∃ s', saturate turnConst infos.zipIdx fuel s = some s' ∧ ContentConst infos s' ∧
      Grows s s' ∧ Produced infos s' := by
  obtain ⟨s', hsat, ⟨hcontent', hgrows⟩, hdone⟩ :=
    saturate_spec (honest_turnConst infos.zipIdx) (fun s' => ContentConst infos s' ∧ Grows s s')
      (unmarked infos)
      (fun s' p hp h => ⟨h.1.turnConst hp, h.2.trans (grows_turnConst s' p)⟩)
      (fun s' p hp _ h => unmarked_turnConst hp h) ⟨hcontent, .refl s⟩
      ((pending_le _ _).trans_lt hfuel)
  refine ⟨s', hsat, hcontent', hgrows, fun t ht ⟨p, hp, htp⟩ => ⟨p, hp, htp, ?_⟩⟩
  obtain ⟨-, h⟩ | ⟨hor, -⟩ := turnConst_cases s' p
  · rw [hdone p hp] at h
    exact absurd (Prod.mk.inj h).2 Bool.false_ne_true
  · exact .inr (hor.resolve_right fun hnot => hnot t htp ht)

/-! ### The last pass -/

section CheckSize

variable {needInputContent : Op → ℕ → List ℤ}

theorem Closed.finish (hs : Closed needInputContent infos s) {p : OpCacheInfo × ℕ}
    (hp : p ∈ infos.zipIdx) : Closed needInputContent infos (finish s p) := by
  obtain ⟨info, k⟩ := p
  rw [ConstantTensors.finish]
  split_ifs with htype
  · have hgrows : Grows s ((s.setStage info.inputs).setConstant info.outputs) :=
      (grows_setStage _).trans (grows_setConstant _)
    refine ⟨hs.content.grows hgrows fun q _ hq => .inl hq, fun t ht hex => ?_,
      fun t ht => hgrows.const t (hs.needed t ht)⟩
    rw [isConst_setConstant, isConst_setStage] at ht
    rcases ht with ht | ht
    · exact ⟨_, hp, ht, .inr htype⟩
    · exact hs.produced t ht hex
  · exact hs

theorem Closed.foldl_finish (hs : Closed needInputContent infos s)
    {rest : List (OpCacheInfo × ℕ)} (hrest : ∀ p ∈ rest, p ∈ infos.zipIdx) :
    Closed needInputContent infos (rest.foldl ConstantTensors.finish s) := by
  induction rest generalizing s with
  | nil => exact hs
  | cons p rest ih =>
    exact ih (hs.finish (hrest p List.mem_cons_self))
      fun q hq => hrest q (List.mem_cons_of_mem p hq)

variable (needInputContent) in
/-- The passes before the last one. -/
theorem closed_of_passes {fuel : ℕ} (hfuel : infos.length < fuel) (hcontent : ContentConst infos s)
    (hproduced : Produced infos s) :
    ∃ s', (if (infos.zipIdx.foldl (checkSize needInputContent) (s, none)).2.isSome then
        saturate turnConst infos.zipIdx fuel
          (infos.zipIdx.foldl (checkSize needInputContent) (s, none)).1
        else some (infos.zipIdx.foldl (checkSize needInputContent) (s, none)).1) = some s' ∧
      Closed needInputContent infos s' := by
  have hsized : Sized (s, none) (infos.zipIdx.foldl (checkSize needInputContent) (s, none)) :=
    Sized.foldl sized_checkSize _ _
  have hneeded : ∀ t, Needed needInputContent infos t →
      (infos.zipIdx.foldl (checkSize needInputContent) (s, none)).1.IsConst t :=
    fun t ht => isConst_foldl_checkSize ht _
  have hcontent' := hcontent.grows hsized.grows fun p _ htype => .inl (hsized.type ▸ htype)
  cases hbreak : (infos.zipIdx.foldl (checkSize needInputContent) (s, none)).2 with
  | none =>
    refine ⟨_, rfl, hcontent', fun t ht hex => ?_, hneeded⟩
    obtain ⟨p, hp, htp, hknown⟩ := hproduced t ((hsized.unchanged hbreak).2 t ht) hex
    exact ⟨p, hp, htp, hknown.grows hsized.grows⟩
  | some k =>
    obtain ⟨s', hsat, hcontent', hgrows, hproduced'⟩ := saturate_turnConst hfuel hcontent'
    exact ⟨s', hsat, hcontent', hproduced', fun t ht => hgrows.const t (hneeded t ht)⟩

/-- Where every tensor is the output of one operator, all that is needed is known. -/
theorem Closed.known (hs : Closed needInputContent infos s)
    (hone : ∀ p ∈ infos.zipIdx, ∀ q ∈ infos.zipIdx, ∀ t ∈ p.1.outputs, t ∈ q.1.outputs → p = q)
    {p q : OpCacheInfo × ℕ} (hp : p ∈ infos.zipIdx) {t : ℕ} (htp : t ∈ p.1.outputs)
    (ht : Needed needInputContent infos t) (h : Relation.ReflTransGen (DependsOn infos) p q) :
    Known s q := by
  have key : ∀ q ∈ infos.zipIdx, ∀ t ∈ q.1.outputs, s.IsConst t → Known s q := by
    intro q hq t htq ht
    obtain ⟨q', hq', htq', hknown⟩ := hs.produced t ht ⟨q, hq, htq⟩
    rwa [hone q hq q' hq' t htq htq']
  have hmem : ∀ q, Relation.ReflTransGen (DependsOn infos) p q → q ∈ infos.zipIdx ∧ Known s q := by
    intro q h
    induction h with
    | refl => exact ⟨hp, key p hp t htp (hs.needed t ht)⟩
    | @tail q q' _ hstep ih =>
      obtain ⟨hq', i, t', hi, hneed, htq'⟩ := hstep
      refine ⟨hq', key q' hq' t' htq' ?_⟩
      rcases ih.2 with hconst | htype
      · rw [opNeedContent, hconst] at hneed
        exact absurd hneed Bool.false_ne_true
      · exact hs.content q ih.1 htype i t' hi hneed
  exact (hmem q h).2

/-- **Constant marking is closed.** The loop ends; what a marked operator reads is constant, what is
constant comes from an operator whose outputs are known, what shapes need is constant, and, where a
tensor is the output of one operator only, so is all that it depends on. -/
theorem buildConstantTensors_closed (h : Start infos s) {fuel : ℕ} (hfuel : infos.length < fuel) :
    ∃ s' breakIndex, buildConstantTensors needInputContent fuel infos s = some (s', breakIndex) ∧
      Closed needInputContent infos s' ∧
      ((∀ p ∈ infos.zipIdx, ∀ q ∈ infos.zipIdx, ∀ t ∈ p.1.outputs, t ∈ q.1.outputs → p = q) →
        ∀ p ∈ infos.zipIdx, ∀ t ∈ p.1.outputs, Needed needInputContent infos t →
          ∀ q, Relation.ReflTransGen (DependsOn infos) p q → Known s' q) := by
  obtain ⟨hcontent, hproduced⟩ := h.foldl_checkMiddle
  obtain ⟨s', hs', hclosed⟩ := closed_of_passes needInputContent hfuel hcontent hproduced
  have hfinish : Closed needInputContent infos (infos.zipIdx.foldl finish s') :=
    hclosed.foldl_finish fun p hp => hp
  have hbuild : buildConstantTensors needInputContent fuel infos s =
      some (infos.zipIdx.foldl finish s', (infos.zipIdx.foldl (checkSize needInputContent)
        (infos.zipIdx.foldl checkMiddle s, none)).2) :=
    congrArg (Option.map fun s => (infos.zipIdx.foldl finish s, _)) hs'
  exact ⟨_, _, hbuild, hfinish,
    fun hone p hp t htp ht q hq => hfinish.known hone hp htp ht hq⟩

end CheckSize

/-- The shape of a tensor is computed, changed, and used by a `Reshape`. -/
theorem buildConstantTensors_closed_reshape :
    let infos : List OpCacheInfo :=
      [⟨⟨.shape, false⟩, [0], [1]⟩, ⟨⟨.other 0, false⟩, [1, 2], [3]⟩,
        ⟨⟨.reshape, false⟩, [0, 3], [4]⟩]
    let needInputContent : Op → ℕ → List ℤ := fun op _ => if op.type = .reshape then [1] else []
    ∃ s' breakIndex, buildConstantTensors needInputContent 4 infos {} = some (s', breakIndex) ∧
      Closed needInputContent infos s' := by
  intro infos needInputContent
  have hstart : Start infos {} := ⟨fun _ => rfl, fun _ ht => Usage.noConfusion ht⟩
  obtain ⟨s', breakIndex, hbuild, hclosed, -⟩ :=
    @buildConstantTensors_closed infos {} needInputContent hstart 4 (Nat.lt_succ_self 3)
  exact ⟨s', breakIndex, hbuild, hclosed⟩

/-- A `Const` is not marked, nor is an operator whose output another one produces; what was constant
before may be the output of an operator that is not marked. -/
theorem needed_output_unmarked :
    let needInputContent : Op → ℕ → List ℤ := fun op _ => if op.type = .reshape then [1] else []
    let const : OpCacheInfo := ⟨⟨.const, false⟩, [], [0]⟩
    let random : OpCacheInfo := ⟨⟨.other 0, false⟩, [], [0]⟩
    let unary : OpCacheInfo := ⟨⟨.other 1, false⟩, [1], [0]⟩
    let reshape : OpCacheInfo := ⟨⟨.reshape, false⟩, [2, 0], [3]⟩
    let zeroIsConst : Marks := { describe := fun t => if t = 0 then { usage := .constant } else {} }
    let neededIsMarked := fun infos s => ∃ s' breakIndex,
      buildConstantTensors needInputContent 4 infos s = some (s', breakIndex) ∧
        ∀ p ∈ infos.zipIdx, ∀ t ∈ p.1.outputs, Needed needInputContent infos t →
          s'.type p.2 = .constant
    ¬ neededIsMarked [const, reshape] zeroIsConst ∧ ¬ neededIsMarked [random, unary, reshape] {} ∧
      ¬ neededIsMarked [unary, reshape] zeroIsConst := by
  intro needInputContent const random unary reshape zeroIsConst neededIsMarked
  have key : ∀ infos s (p : OpCacheInfo × ℕ), p ∈ infos.zipIdx → 0 ∈ p.1.outputs →
      reshape ∈ infos → ((buildConstantTensors needInputContent 4 infos s).map fun r =>
        r.1.type p.2) = some .separate → ¬ neededIsMarked infos s := by
    rintro infos s p hp h0 hreshape htype ⟨s', breakIndex, hbuild, h⟩
    have hneeded : Needed needInputContent infos 0 :=
      ⟨reshape, hreshape, by decide, by decide, 1, by decide, 1, rfl, rfl⟩
    rw [hbuild] at htype
    exact absurd ((h p hp 0 h0 hneeded).symm.trans (Option.some.inj htype)) (by decide)
  exact ⟨key _ _ (const, 0) (by decide) (by decide) (by decide) (by decide),
    key _ _ (unary, 1) (by decide) (by decide) (by decide) (by decide),
    key _ _ (unary, 0) (by decide) (by decide) (by decide) (by decide)⟩

end Mnn.ConstantTensors
