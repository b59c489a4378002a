import Mathlib.Tactic
import Mnn.Core.DeferSafety
import Mnn.Lib.Serving

/-!
# The memory plan of a pipeline

`Pipeline::_allocForTensor` (`source/core/Pipeline.cpp`) walks the commands in execution order.  It
counts the uses of every tensor, acquires the outputs of a command (and its inputs, when the
pipeline owns them), lets the command plan itself, and then counts its inputs down; an input whose
count reaches zero gives its memory back.  What is left goes to `_recycleDynamicMemory` after the
walk, which is not modelled.

* `TensorInfo`, `Command`, `Plan`, `Walk`: what the walk reads and changes; `planCommand`, `walk`;
* `Counts`: the invariant, each count is the number of inputs still to come;
* `released_last`: a tensor is released by the last command that reads it;
* `Live`, `Live.mem`: a tensor that is live at a command has memory there;
* `deferMemory`: `DeferBufferAllocator` is an allocator that serves the walk;
* `memory_plan_sound`: **releases come after the last use and once, and two tensors that are live at
  one command have memory that is apart**, for any allocator.
-/

namespace Mnn.Pipeline

open Lib

/-- `Tensor::InsideDescribe::Usage`. -/
inductive Usage
  | normal
  | input
  | output
  | constant
  | trainable
  deriving DecidableEq

/-- `Tensor::InsideDescribe::MemoryType`. -/
inductive MemoryType
  | backend
  | host
  | virtual
  | outside
  deriving DecidableEq

/-- `Backend::StorageType`, as far as it is asked for here. -/
inductive StorageType
  | static
  | dynamic
  | dynamicSeparate
  deriving DecidableEq

/-- What the walk reads of a tensor; `handle` is a type code of `halide_type_handle`. -/
structure TensorInfo where
  usage : Usage := .normal
  memoryType : MemoryType := .backend
  handle : Bool := false
  group : ℤ := 0
  size : ℕ := 1

/-- The memory requests: for tensors, and for what a command needs for itself while it plans. -/
inductive Slot
  | tensor (t : ℕ)
  | scratch (i : ℕ)
  deriving DecidableEq

/-- A command: its tensors, its group, and the requests that its `onResize` makes for itself. -/
structure Command where
  workInputs : List ℕ
  workOutputs : List ℕ
  group : ℤ := 0
  onResize : List (Event ℕ) := []

/-- `Schedule::OpCacheInfo`: whether its type is `CONSTANT`, and the commands of its
`executeBuffer`. -/
structure OpCacheInfo where
  constant : Bool := false
  executeBuffer : List Command

/-- The arguments of `_allocForTensor` and what does not change during it. -/
structure Plan where
  tensor : ℕ → TensorInfo
  infos : List OpCacheInfo
  outputStatic : Bool
  allocInput : Bool
  index : ℤ

/-- What the walk changes: `useCount`, whether `mem` is set, and whether a backend is. -/
structure Walk where
  useCount : ℕ → ℤ
  mem : ℕ → Bool
  backend : ℕ → Bool

namespace Plan

variable (P : Plan)

/-- The commands that are walked, in order. -/
def commands : List Command := P.infos.flatMap fun info =>
  if info.constant then [] else info.executeBuffer

/-- `_getTensorStorageType`. -/
def storageType (t : ℕ) : StorageType :=
  if (P.tensor t).usage = .output ∧ P.outputStatic then .static
  else if (P.tensor t).usage = .constant ∨ (P.tensor t).usage = .input ∨
      (P.tensor t).usage = .trainable then .dynamicSeparate
  else .dynamic

/-- `_needRelease`. -/
def needRelease (w : Walk) (t : ℕ) : Bool :=
  if w.useCount t ≠ 0 then false
  else if (P.tensor t).memoryType = .host ∨ (P.tensor t).memoryType = .outside then false
  else if !w.backend t then false
  else if !P.allocInput then (P.tensor t).usage = .normal
  else if (P.tensor t).handle then false
  else if (P.tensor t).usage = .constant ∨ (P.tensor t).usage = .trainable ∨
      (P.tensor t).usage = .output then false
  else true

/-- `_allocTensor`, with the request to the dynamic allocator. -/
def allocTensor (w : Walk) (t : ℕ) : Walk × List (Event Slot) :=
  if (P.tensor t).group ≠ P.index then (w, [])
  else if w.mem t then (w, [])
  else
    ({ w with mem := Function.update w.mem t true, backend := Function.update w.backend t true },
      match P.storageType t with
      | .static => []
      | .dynamic => [.acquire (.tensor t) (P.tensor t).size false]
      | .dynamicSeparate => [.acquire (.tensor t) (P.tensor t).size true])

/-- The first part of `_releaseTensor`. -/
def countDown (w : Walk) (t : ℕ) : Walk :=
  if (P.tensor t).usage ≠ .constant then
    { w with useCount := Function.update w.useCount t (w.useCount t - 1) }
  else w

/-- `_releaseTensor`, with the tensor when its memory was given back. -/
def releaseTensor (w : Walk) (t : ℕ) : Walk × List ℕ :=
  let w := P.countDown w t
  if (P.tensor t).group ≠ P.index then (w, [])
  else if P.needRelease w t then
    ({ w with mem := Function.update w.mem t false }, if w.mem t then [t] else [])
  else (w, [])

/-- A loop over tensors. -/
def allocAll (w : Walk) : List ℕ → Walk × List (Event Slot)
  | [] => (w, [])
  | t :: l =>
    let r := P.allocTensor w t
    let rest := allocAll r.1 l
    (rest.1, r.2 ++ rest.2)

def releaseAll (w : Walk) : List ℕ → Walk × List ℕ
  | [] => (w, [])
  | t :: l =>
    let r := P.releaseTensor w t
    let rest := releaseAll r.1 l
    (rest.1, r.2 ++ rest.2)

/-- The tensors that `_allocForTensor` allocates for a command, in order. -/
def acquired (c : Command) : List ℕ :=
  (if P.allocInput then c.workInputs else []) ++ c.workOutputs

/-- The requests of `onResize`, which is called for the commands of the group only. -/
def scratch (c : Command) : List (Event Slot) :=
  if c.group = P.index then
    c.onResize.map fun
      | .acquire i size fresh => .acquire (.scratch i) size fresh
      | .release i => .release (.scratch i)
  else []

/-- The state in which a command plans itself, and the requests up to there. -/
def planned (w : Walk) (c : Command) : Walk × List (Event Slot) := P.allocAll w (P.acquired c)

/-- One command: the state after it and the tensors it released. -/
def planCommand (w : Walk) (c : Command) : Walk × List ℕ :=
  P.releaseAll (P.planned w c).1 c.workInputs

/-- The requests of one command. -/
def events (w : Walk) (c : Command) : List (Event Slot) :=
  (P.planned w c).2 ++ P.scratch c ++
    (P.planCommand w c).2.map fun t => .release (.tensor t)

/-- The state after a list of commands. -/
def walk (w : Walk) (l : List Command) : Walk := l.foldl (fun w c => (P.planCommand w c).1) w

/-- The requests of a list of commands. -/
def requests (w : Walk) : List Command → List (Event Slot)
  | [] => []
  | c :: l => P.events w c ++ requests (P.planCommand w c).1 l

/-- The tensors that a list of commands releases, in order. -/
def releases (w : Walk) : List Command → List ℕ
  | [] => []
  | c :: l => (P.planCommand w c).2 ++ releases (P.planCommand w c).1 l

/-! ### Counting the uses -/

/-- The inputs of a list of commands. -/
def reads (l : List Command) : List ℕ := l.flatMap Command.workInputs

/-- The loop that sets the counts of all inputs to zero. -/
def clearCounts (count : ℕ → ℤ) (l : List ℕ) : ℕ → ℤ :=
  l.foldl (fun count t =>
    if (P.tensor t).usage ≠ .constant then Function.update count t 0 else count) count

/-- The loop that counts all inputs. -/
def addCounts (count : ℕ → ℤ) (l : List ℕ) : ℕ → ℤ :=
  l.foldl (fun count t =>
    if (P.tensor t).usage ≠ .constant then Function.update count t (count t + 1) else count) count

/-- The state after the counting, at the head of the walk. -/
def start (w : Walk) : Walk :=
  { w with
    useCount := P.addCounts (P.clearCounts w.useCount (reads P.commands)) (reads P.commands) }

/-! ### The release of one tensor -/

/-- The tensor gives its memory back when it is used up. -/
structure Releasable (t : ℕ) : Prop where
  memory : (P.tensor t).memoryType ≠ .host ∧ (P.tensor t).memoryType ≠ .outside
  usage : (P.tensor t).usage ≠ .constant ∧ (P.tensor t).usage ≠ .trainable ∧
    (P.tensor t).usage ≠ .output
  owned : if P.allocInput then (P.tensor t).handle = false else (P.tensor t).usage = .normal

variable {P} {w : Walk} {t u : ℕ} {l rem : List ℕ}

theorem needRelease_iff :
    P.needRelease w t = true ↔ w.useCount t = 0 ∧ w.backend t = true ∧ P.Releasable t := by
  constructor
  · intro h
    unfold needRelease at h
    split_ifs at h with hcount hmem hback halloc hhandle husage
    · have hnormal : (P.tensor t).usage = .normal := by simpa using h
      refine ⟨not_not.1 hcount, by simpa using hback, not_or.1 hmem, by simp [hnormal], ?_⟩
      rw [if_neg (by simpa using halloc)]
      exact hnormal
    · rw [not_or, not_or] at husage
      refine ⟨not_not.1 hcount, by simpa using hback, not_or.1 hmem, husage, ?_⟩
      rw [if_pos (by simpa using halloc)]
      simpa using hhandle
  · rintro ⟨hcount, hback, hmem, husage, howned⟩
    unfold needRelease
    rw [if_neg (not_not.2 hcount), if_neg (not_or.2 hmem), if_neg (by simp [hback])]
    by_cases halloc : P.allocInput = true
    · rw [if_pos halloc] at howned
      rw [if_neg (by simp [halloc]), if_neg (by simp [howned]),
        if_neg (by rw [not_or, not_or]; exact husage)]
    · rw [if_neg halloc] at howned
      rw [if_pos (by simpa using halloc)]
      simp [howned]

/-- **The invariant of the counts**: the inputs still to come. -/
def Counts (P : Plan) (w : Walk) (rem : List ℕ) : Prop :=
  ∀ t, (P.tensor t).usage ≠ .constant → t ∈ rem → w.useCount t = rem.count t

theorem countDown_mem (w : Walk) (t : ℕ) : (P.countDown w t).mem = w.mem := by
  unfold countDown
  split_ifs <;> rfl

theorem countDown_backend (w : Walk) (t : ℕ) : (P.countDown w t).backend = w.backend := by
  unfold countDown
  split_ifs <;> rfl

/-- After the count-down the count is that of the inputs that follow. -/
theorem Counts.countDown (h : Counts P w (t :: rem)) (husage : (P.tensor t).usage ≠ .constant) :
    (P.countDown w t).useCount t = rem.count t := by
  unfold Plan.countDown
  rw [if_pos husage]
  have ht := h t husage List.mem_cons_self
  rw [List.count_cons_self] at ht
  show Function.update w.useCount t (w.useCount t - 1) t = _
  rw [Function.update_self, ht]
  push_cast
  omega

theorem Counts.tail (h : Counts P w (t :: rem)) : Counts P (P.countDown w t) rem := by
  intro u husage hu
  by_cases hut : u = t
  · subst hut
    exact h.countDown husage
  · have hold := h u husage (List.mem_cons_of_mem t hu)
    rw [List.count_cons_of_ne (Ne.symm hut)] at hold
    rw [← hold]
    unfold Plan.countDown
    split_ifs
    · exact Function.update_of_ne hut ..
    · rfl

/-- The two ways `_releaseTensor` ends. -/
theorem releaseTensor_cases (w : Walk) (t : ℕ) :
    (P.releaseTensor w t = (P.countDown w t, []) ∧
      ((P.tensor t).group = P.index → P.needRelease (P.countDown w t) t = false)) ∨
    ((P.tensor t).group = P.index ∧ P.needRelease (P.countDown w t) t = true ∧
      P.releaseTensor w t = ({ P.countDown w t with mem := Function.update w.mem t false },
        if w.mem t then [t] else [])) := by
  by_cases hgroup : (P.tensor t).group = P.index
  · by_cases hneed : P.needRelease (P.countDown w t) t = true
    · refine .inr ⟨hgroup, hneed, ?_⟩
      unfold releaseTensor
      dsimp only
      rw [if_neg (not_not.2 hgroup), if_pos hneed, countDown_mem]
    · refine .inl ⟨?_, fun _ => by simpa using hneed⟩
      unfold releaseTensor
      dsimp only
      rw [if_neg (not_not.2 hgroup), if_neg hneed]
  · exact .inl ⟨if_pos hgroup, fun h => absurd h hgroup⟩

theorem Counts.releaseTensor (h : Counts P w (t :: rem)) :
    Counts P (P.releaseTensor w t).1 rem := by
  rcases releaseTensor_cases w t with ⟨hr, -⟩ | ⟨-, -, hr⟩ <;> rw [hr] <;> exact h.tail

/-- A tensor is released only when no input of it follows. -/
theorem mem_releaseTensor (h : Counts P w (t :: rem)) (hu : u ∈ (P.releaseTensor w t).2) :
    u = t ∧ u ∉ rem ∧ P.Releasable u := by
  rcases releaseTensor_cases w t with ⟨hr, -⟩ | ⟨-, hneed, hr⟩
  · rw [hr] at hu
    exact absurd hu List.not_mem_nil
  · rw [hr] at hu
    have hut : u = t := by
      dsimp only at hu
      split_ifs at hu
      · exact List.mem_singleton.1 hu
      · exact absurd hu List.not_mem_nil
    subst hut
    obtain ⟨hcount, -, hrel⟩ := needRelease_iff.1 hneed
    refine ⟨rfl, fun hmem => ?_, hrel⟩
    rw [h.countDown hrel.usage.1] at hcount
    have hpos := List.count_pos_iff.2 hmem
    omega

theorem releaseTensor_mem (w : Walk) (t u : ℕ) :
    (P.releaseTensor w t).1.mem u = (w.mem u && !decide (u ∈ (P.releaseTensor w t).2)) := by
  rcases releaseTensor_cases w t with ⟨hr, -⟩ | ⟨-, -, hr⟩
  · rw [hr, countDown_mem]
    simp
  · rw [hr]
    dsimp only
    by_cases hut : u = t
    · subst hut
      rw [Function.update_self]
      cases hm : w.mem u <;> simp
    · rw [Function.update_of_ne hut]
      cases hm : w.mem t <;> simp [hut]

theorem releaseTensor_backend (w : Walk) (t : ℕ) :
    (P.releaseTensor w t).1.backend = w.backend := by
  rcases releaseTensor_cases w t with ⟨hr, -⟩ | ⟨-, -, hr⟩ <;> rw [hr] <;>
    exact countDown_backend w t

/-! ### The release of the inputs of a command -/

theorem Counts.releaseAll (h : Counts P w (l ++ rem)) : Counts P (P.releaseAll w l).1 rem := by
  induction l generalizing w with
  | nil => exact h
  | cons t l ih => exact ih h.releaseTensor

theorem mem_releaseAll (h : Counts P w (l ++ rem)) (hu : u ∈ (P.releaseAll w l).2) :
    u ∈ l ∧ u ∉ rem ∧ P.Releasable u := by
  induction l generalizing w with
  | nil => exact absurd hu List.not_mem_nil
  | cons t l ih =>
    rw [List.cons_append] at h
    rcases List.mem_append.1 hu with hu | hu
    · obtain ⟨rfl, hrem, hrel⟩ := mem_releaseTensor h hu
      rw [List.mem_append, not_or] at hrem
      exact ⟨List.mem_cons_self, hrem.2, hrel⟩
    · obtain ⟨hl, hrem, hrel⟩ := ih h.releaseTensor hu
      exact ⟨List.mem_cons_of_mem t hl, hrem, hrel⟩

theorem releaseAll_mem (w : Walk) (l : List ℕ) (u : ℕ) :
    (P.releaseAll w l).1.mem u = (w.mem u && !decide (u ∈ (P.releaseAll w l).2)) := by
  induction l generalizing w with
  | nil => simp [releaseAll]
  | cons t l ih =>
    simp only [releaseAll]
    rw [ih, releaseTensor_mem, Bool.and_assoc]
    congr 1
    by_cases h : u ∈ (P.releaseTensor w t).2 <;> simp [h]

theorem releaseAll_backend (w : Walk) (l : List ℕ) : (P.releaseAll w l).1.backend = w.backend := by
  induction l generalizing w with
  | nil => rfl
  | cons t l ih => exact (ih _).trans (releaseTensor_backend w t)

/-- The last input of a tensor releases it, and once. -/
theorem count_releaseAll (h : Counts P w (l ++ rem)) (hu : u ∈ l) (hrem : u ∉ rem)
    (hgroup : (P.tensor u).group = P.index) (hrel : P.Releasable u) (hmem : w.mem u = true)
    (hback : w.backend u = true) : (P.releaseAll w l).2.count u = 1 := by
  induction l generalizing w with
  | nil => exact absurd hu List.not_mem_nil
  | cons t l ih =>
    rw [List.cons_append] at h
    simp only [releaseAll]
    rw [List.count_append]
    by_cases hul : u ∈ l
    · -- more inputs follow
      have hnot : u ∉ (P.releaseTensor w t).2 := fun hr =>
        (mem_releaseTensor h hr).2.1 (List.mem_append_left rem hul)
      have hmem' : (P.releaseTensor w t).1.mem u = true := by
        rw [releaseTensor_mem, hmem]
        simpa using hnot
      rw [List.count_eq_zero_of_not_mem hnot, Nat.zero_add]
      exact ih h.releaseTensor hul hmem' (by rw [releaseTensor_backend]; exact hback)
    · obtain rfl : u = t := (List.mem_cons.1 hu).resolve_right hul
      have hzero : (P.releaseAll (P.releaseTensor w u).1 l).2.count u = 0 :=
        List.count_eq_zero_of_not_mem fun hr => hul (mem_releaseAll h.releaseTensor hr).1
      rw [hzero, Nat.add_zero]
      have hcount : (P.countDown w u).useCount u = 0 := by
        rw [h.countDown hrel.usage.1, List.count_eq_zero_of_not_mem]
        · rfl
        · rw [List.mem_append, not_or]
          exact ⟨hul, hrem⟩
      have hneed : P.needRelease (P.countDown w u) u = true :=
        needRelease_iff.2 ⟨hcount, by rw [countDown_backend]; exact hback, hrel⟩
      rcases releaseTensor_cases w u with ⟨-, hr⟩ | ⟨-, -, hr⟩
      · exact absurd (hr hgroup) (by simp [hneed])
      · rw [hr, if_pos hmem]
        simp

/-! ### Allocation -/

theorem allocTensor_mem (w : Walk) (t u : ℕ) : (P.allocTensor w t).1.mem u =
    (w.mem u || decide (u = t ∧ (P.tensor t).group = P.index)) := by
  unfold allocTensor
  by_cases hgroup : (P.tensor t).group = P.index
  · rw [if_neg (not_not.2 hgroup)]
    by_cases hmem : w.mem t = true
    · rw [if_pos hmem]
      by_cases hut : u = t
      · simp [hut, hmem]
      · simp [hut]
    · rw [if_neg hmem]
      by_cases hut : u = t
      · simp [hut, hgroup]
      · simp [hut]
  · rw [if_pos hgroup]
    simp [hgroup]

theorem allocTensor_useCount (w : Walk) (t : ℕ) :
    (P.allocTensor w t).1.useCount = w.useCount := by
  unfold allocTensor
  split_ifs <;> rfl

/-- Memory comes with a backend. -/
def Backed (w : Walk) : Prop := ∀ t, w.mem t = true → w.backend t = true

theorem Backed.allocTensor (h : Backed w) (t : ℕ) : Backed (P.allocTensor w t).1 := by
  unfold Plan.allocTensor
  split_ifs
  · exact h
  · exact h
  · intro u hu
    dsimp only at hu ⊢
    by_cases hut : u = t
    · rw [hut, Function.update_self]
    · rw [Function.update_of_ne hut] at hu ⊢
      exact h u hu

theorem allocAll_mem (w : Walk) (l : List ℕ) (u : ℕ) : (P.allocAll w l).1.mem u =
    (w.mem u || decide (u ∈ l ∧ (P.tensor u).group = P.index)) := by
  induction l generalizing w with
  | nil => simp [allocAll]
  | cons t l ih =>
    simp only [allocAll]
    rw [ih, allocTensor_mem, Bool.or_assoc]
    congr 1
    by_cases hut : u = t
    · subst hut
      by_cases hg : (P.tensor u).group = P.index <;> simp [hg]
    · simp [hut]

theorem allocAll_useCount (w : Walk) (l : List ℕ) :
    (P.allocAll w l).1.useCount = w.useCount := by
  induction l generalizing w with
  | nil => rfl
  | cons t l ih => exact (ih _).trans (allocTensor_useCount w t)

theorem Backed.allocAll (h : Backed w) (l : List ℕ) : Backed (P.allocAll w l).1 := by
  induction l generalizing w with
  | nil => exact h
  | cons t l ih => exact ih (h.allocTensor t)

/-! ### One command -/

variable {c : Command} {post : List Command}

theorem Counts.planned (h : Counts P w (c.workInputs ++ rem)) :
    Counts P (P.planned w c).1 (c.workInputs ++ rem) := by
  intro t husage ht
  rw [Plan.planned, allocAll_useCount]
  exact h t husage ht

/-- A tensor that a command releases is one of its inputs and none of a later one. -/
theorem released_last (h : Counts P w (c.workInputs ++ rem)) (ht : t ∈ (P.planCommand w c).2) :
    t ∈ c.workInputs ∧ t ∉ rem ∧ P.Releasable t :=
  mem_releaseAll h.planned ht

theorem planCommand_mem (w : Walk) (c : Command) (t : ℕ) : (P.planCommand w c).1.mem t =
    ((P.planned w c).1.mem t && !decide (t ∈ (P.planCommand w c).2)) :=
  releaseAll_mem _ _ t

theorem Counts.planCommand (h : Counts P w (c.workInputs ++ rem)) :
    Counts P (P.planCommand w c).1 rem := h.planned.releaseAll

theorem Backed.planCommand (h : Backed w) (c : Command) : Backed (P.planCommand w c).1 := by
  intro t ht
  rw [planCommand_mem, Bool.and_eq_true] at ht
  rw [Plan.planCommand, releaseAll_backend]
  exact h.allocAll _ t ht.1

theorem planned_mem (w : Walk) (c : Command) (t : ℕ) : (P.planned w c).1.mem t =
    (w.mem t || decide (t ∈ P.acquired c ∧ (P.tensor t).group = P.index)) :=
  allocAll_mem w _ t

/-! ### A list of commands -/

theorem reads_cons (c : Command) (l : List Command) : reads (c :: l) = c.workInputs ++ reads l :=
  List.flatMap_cons

theorem reads_append (l m : List Command) : reads (l ++ m) = reads l ++ reads m :=
  List.flatMap_append

theorem Counts.walk {l : List Command} (h : Counts P w (reads l ++ rem)) :
    Counts P (P.walk w l) rem := by
  induction l generalizing w with
  | nil => exact h
  | cons c l ih =>
    rw [reads_cons, List.append_assoc] at h
    exact ih h.planCommand

theorem Backed.walk (h : Backed w) (l : List Command) : Backed (P.walk w l) := by
  induction l generalizing w with
  | nil => exact h
  | cons c l ih => exact ih (h.planCommand c)

/-- Memory that was there, or was acquired on the way, stays while an input follows, or for an
output of the model. -/
theorem walk_mem {l : List Command} (h : Counts P w (reads l ++ rem))
    (hgroup : (P.tensor t).group = P.index) (hmade : w.mem t = true ∨ ∃ d ∈ l, t ∈ P.acquired d)
    (hused : t ∈ rem ∨ (P.tensor t).usage = .output) : (P.walk w l).mem t = true := by
  induction l generalizing w with
  | nil =>
    rcases hmade with hmem | ⟨d, hd, -⟩
    · exact hmem
    · exact absurd hd List.not_mem_nil
  | cons c l ih =>
    rw [reads_cons, List.append_assoc] at h
    refine ih h.planCommand ?_
    by_cases hmem : w.mem t = true ∨ t ∈ P.acquired c
    · refine .inl ?_
      have hnot : t ∉ (P.planCommand w c).2 := by
        intro hr
        obtain ⟨-, hlater, hrel⟩ := released_last h hr
        rcases hused with hrem | hout
        · exact hlater (List.mem_append_right _ hrem)
        · exact hrel.usage.2.2 hout
      rw [planCommand_mem, planned_mem]
      rcases hmem with hmem | hacq
      · simp [hmem, hnot]
      · simp [hacq, hgroup, hnot]
    · rw [not_or] at hmem
      refine .inr ?_
      rcases hmade with hmem' | ⟨d, hd, hacq⟩
      · exact absurd hmem' hmem.1
      · rcases List.mem_cons.1 hd with rfl | hd
        · exact absurd hacq hmem.2
        · exact ⟨d, hd, hacq⟩

theorem releases_append (w : Walk) (l m : List Command) :
    P.releases w (l ++ m) = P.releases w l ++ P.releases (P.walk w l) m := by
  induction l generalizing w with
  | nil => rfl
  | cons c l ih =>
    simp only [List.cons_append, releases, walk, List.foldl_cons, ih, List.append_assoc]

/-- No command of a list releases a tensor that is an input afterwards, or that is none of its
inputs. -/
theorem not_mem_releases {l : List Command} (h : Counts P w (reads l ++ rem))
    (ht : t ∈ rem ∨ t ∉ reads l) : t ∉ P.releases w l := by
  induction l generalizing w with
  | nil => exact List.not_mem_nil
  | cons c l ih =>
    rw [reads_cons] at ht
    rw [reads_cons, List.append_assoc] at h
    rw [releases, List.mem_append, not_or]
    constructor
    · intro hr
      obtain ⟨hin, hlater, -⟩ := released_last h hr
      rcases ht with ht | ht
      · exact hlater (List.mem_append_right _ ht)
      · exact ht (List.mem_append_left _ hin)
    · exact ih h.planCommand (ht.imp_right fun hn hm => hn (List.mem_append_right _ hm))

/-! ### The counts at the head of the walk -/

theorem clearCounts_eq (count : ℕ → ℤ) (l : List ℕ) (t : ℕ) : P.clearCounts count l t =
    if (P.tensor t).usage ≠ .constant ∧ t ∈ l then 0 else count t := by
  unfold clearCounts
  induction l generalizing count with
  | nil => simp
  | cons u l ih =>
    rw [List.foldl_cons, ih]
    by_cases hut : t = u
    · subst hut
      by_cases husage : (P.tensor t).usage = .constant <;> simp [husage]
    · by_cases husage : (P.tensor u).usage = .constant <;> simp [husage, hut]

theorem addCounts_eq (count : ℕ → ℤ) (l : List ℕ) (t : ℕ) : P.addCounts count l t =
    if (P.tensor t).usage ≠ .constant then count t + l.count t else count t := by
  unfold addCounts
  induction l generalizing count with
  | nil => simp
  | cons u l ih =>
    rw [List.foldl_cons, ih]
    by_cases hut : t = u
    · subst hut
      by_cases husage : (P.tensor t).usage = .constant
      · simp [husage]
      · simp only [husage, ne_eq, not_false_eq_true, if_true, Function.update_self,
          List.count_cons_self]
        push_cast
        ring
    · rw [List.count_cons_of_ne (Ne.symm hut)]
      by_cases husage : (P.tensor u).usage = .constant <;> simp [husage, hut]

theorem counts_start (w : Walk) : Counts P (P.start w) (reads P.commands) := by
  intro t husage ht
  show P.addCounts _ _ t = _
  rw [addCounts_eq, if_pos husage, clearCounts_eq, if_pos ⟨husage, ht⟩, zero_add]

/-! ### The requests -/

/-- The slots that are occupied are the tensors that have memory of the dynamic allocator. -/
def Sync (P : Plan) (w : Walk) (has : Slot → Bool) : Prop :=
  ∀ t, P.storageType t ≠ .static → has (.tensor t) = w.mem t

variable {has : Slot → Bool}

theorem Sync.allocTensor (h : Sync P w has) (t : ℕ) :
    Sync P (P.allocTensor w t).1 (occupied has (P.allocTensor w t).2) := by
  unfold Plan.allocTensor
  split_ifs
  · exact h
  · exact h
  · intro u hu
    dsimp only
    by_cases hut : u = t
    · subst hut
      rw [Function.update_self]
      cases hs : P.storageType u with
      | static => exact absurd hs hu
      | dynamic => exact Function.update_self ..
      | dynamicSeparate => exact Function.update_self ..
    · have hne : Slot.tensor u ≠ .tensor t := fun he => hut (Slot.tensor.inj he)
      rw [Function.update_of_ne hut, ← h u hu]
      cases P.storageType t with
      | static => rfl
      | dynamic => exact Function.update_of_ne hne ..
      | dynamicSeparate => exact Function.update_of_ne hne ..

theorem Sync.allocAll (h : Sync P w has) (l : List ℕ) :
    Sync P (P.allocAll w l).1 (occupied has (P.allocAll w l).2) := by
  induction l generalizing w has with
  | nil => exact h
  | cons t l ih =>
    simp only [Plan.allocAll]
    rw [occupied_append]
    exact ih (h.allocTensor t)

/-- What a command needs for itself does not touch the tensors. -/
theorem Sync.scratch (h : Sync P w has) (c : Command) :
    Sync P w (occupied has (P.scratch c)) := by
  unfold Plan.scratch
  split_ifs
  · induction c.onResize generalizing has with
    | nil => exact h
    | cons e l ih =>
      cases e with
      | acquire i size fresh =>
        exact ih fun t ht => (Function.update_of_ne (by simp) ..).trans (h t ht)
      | release i => exact ih fun t ht => (Function.update_of_ne (by simp) ..).trans (h t ht)
  · exact h

theorem occupied_releases (has : Slot → Bool) (l : List ℕ) (t : ℕ) :
    occupied has (l.map fun t => .release (.tensor t)) (.tensor t) =
      (has (.tensor t) && !decide (t ∈ l)) := by
  induction l generalizing has with
  | nil => simp [occupied]
  | cons u l ih =>
    rw [List.map_cons, occupied, ih]
    by_cases htu : t = u
    · subst htu
      simp
    · have hne : Slot.tensor t ≠ .tensor u := fun he => htu (Slot.tensor.inj he)
      rw [Function.update_of_ne hne]
      simp [htu]

theorem Sync.events (h : Sync P w has) (c : Command) :
    Sync P (P.planCommand w c).1 (occupied has (P.events w c)) := by
  intro t ht
  have hplanned : Sync P (P.planned w c).1 _ := (h.allocAll (P.acquired c)).scratch c
  unfold Plan.events
  rw [occupied_append, occupied_append, occupied_releases, planCommand_mem]
  congr 1
  exact hplanned t ht

theorem Sync.requests (h : Sync P w has) (l : List Command) :
    Sync P (P.walk w l) (occupied has (P.requests w l)) := by
  induction l generalizing w has with
  | nil => exact h
  | cons c l ih =>
    rw [Plan.requests, occupied_append]
    exact ih (h.events c)

/-! ### Live tensors -/

/-- The state before the walk: the tensors whose slots have blocks have memory; for tensors in
static memory, for the counts and for the backends anything may stand. -/
def init (P : Plan) (block : ℕ → Bool) (useCount : ℕ → ℤ) (static backend : ℕ → Bool) : Walk where
  useCount := useCount
  mem t := if P.storageType t = .static then static t else block t
  backend t := (if P.storageType t = .static then static t else block t) || backend t

/-- A tensor of the group is live at the command `c`: it had memory, or it was written (or read,
where the pipeline owns its inputs), and `c` writes it, `c` or a later command reads it, or it is an
output of the model. -/
structure Live (P : Plan) (w : Walk) (pre : List Command) (c : Command) (post : List Command)
    (t : ℕ) : Prop where
  group : (P.tensor t).group = P.index
  made : w.mem t = true ∨ ∃ d ∈ pre ++ [c], t ∈ P.acquired d
  used : t ∈ c.workOutputs ∨ t ∈ reads (c :: post) ∨ (P.tensor t).usage = .output

/-- **A live tensor has memory.** -/
theorem Live.mem {pre : List Command} (hlive : Live P w pre c post t)
    (h : Counts P w (reads (pre ++ c :: post))) :
    (P.planned (P.walk w pre) c).1.mem t = true := by
  rw [planned_mem]
  by_cases hacq : t ∈ P.acquired c
  · simp [hacq, hlive.group]
  · have hused : t ∈ reads (c :: post) ∨ (P.tensor t).usage = .output := by
      rcases hlive.used with hout | hused
      · exact absurd (List.mem_append_right _ hout) hacq
      · exact hused
    have hmade : w.mem t = true ∨ ∃ d ∈ pre, t ∈ P.acquired d := by
      refine hlive.made.imp_right ?_
      rintro ⟨d, hd, hdt⟩
      rcases List.mem_append.1 hd with hd | hd
      · exact ⟨d, hd, hdt⟩
      · obtain rfl := List.mem_singleton.1 hd
        exact absurd hdt hacq
    rw [reads_append] at h
    rw [walk_mem h hlive.group hmade hused, Bool.true_or]

/-- The last command that reads a tensor releases it, and no other one does. -/
theorem count_releases {pre : List Command} (hlive : Live P w pre c post t)
    (h : Counts P w (reads (pre ++ c :: post))) (hback : Backed w) (hrel : P.Releasable t)
    (hin : t ∈ c.workInputs) (hlast : t ∉ reads post) :
    (P.releases w (pre ++ c :: post)).count t = 1 := by
  have hmem := hlive.mem h
  have hpre : t ∉ P.releases w pre := by
    refine not_mem_releases (reads_append _ _ ▸ h) (.inl ?_)
    rw [reads_cons]
    exact List.mem_append_left _ hin
  have hc : Counts P (P.walk w pre) (c.workInputs ++ reads post) := by
    have hw := (reads_append pre (c :: post) ▸ h : Counts P w _).walk
    rwa [reads_cons] at hw
  have hpost : t ∉ P.releases (P.planCommand (P.walk w pre) c).1 post :=
    not_mem_releases ((List.append_nil (reads post)).symm ▸ hc.planCommand) (.inr hlast)
  have hone : (P.planCommand (P.walk w pre) c).2.count t = 1 :=
    count_releaseAll hc.planned hin hlast hlive.group hrel hmem
      ((hback.walk pre).allocAll _ t hmem)
  rw [releases_append, releases, List.count_append, List.count_append, hone,
    List.count_eq_zero_of_not_mem hpre, List.count_eq_zero_of_not_mem hpost]

end Plan

/-! ### The allocator of the CPU backend -/

/-- `DeferBufferAllocator`: its chunks are apart when they get disjoint ranges, however the run that
frees all chunks goes on. -/
def deferMemory (mAlign : ℕ) (hpos : 0 < mAlign) : Allocator where
  State := Defer.Sys
  Block := Defer.Chunk
  Inv s H := s.live.Perm H ∧ ∃ rs, Defer.SysInv mAlign s rs
  acquire s size fresh b s' := ∃ align,
    b = ⟨(Defer.alloc mAlign s.state size fresh align).1, size⟩ ∧
      s' = Defer.step mAlign s (.alloc size fresh align)
  release s b s' := s' = Defer.step mAlign s (.free b)
  Apart s b c := ∀ ops t, Run (Defer.deferAllocator mAlign) s ops t → t.live = [] →
    t.state.mBarrrier = false → ∀ parent fresh,
      Disjoint (b.range (Defer.compute t.state parent fresh).2.1)
        (c.range (Defer.compute t.state parent fresh).2.1)
  nodup := by
    rintro s H ⟨hperm, rs, hI⟩
    have hheld : s.held.Nodup := hI.owns.nodup.of_map _
    exact hperm.nodup_iff.1 (hheld.sublist (List.sublist_append_left ..))
  perm := by
    rintro s H H' ⟨hperm, hI⟩ hH
    exact ⟨hperm.trans hH, hI⟩
  acquire_inv := by
    rintro s H size fresh b s' ⟨hperm, rs, hI⟩ ⟨align, rfl, rfl⟩
    obtain ⟨rs', hI', -⟩ := Defer.step_inv hI (.alloc size fresh align) trivial
    exact ⟨hperm.cons _, rs', hI'⟩
  release_inv := by
    rintro s H b s' ⟨hperm, rs, hI⟩ rfl
    have hb : b ∈ s.live := hperm.mem_iff.2 List.mem_cons_self
    obtain ⟨rs', hI', -⟩ := Defer.step_inv hI (.free b) hb
    refine ⟨?_, rs', hI'⟩
    have herase := hperm.erase b
    rwa [List.erase_cons_head] at herase
  apart := by
    rintro s H b c ⟨hperm, rs, hI⟩ hb hc hne ops t hrun hlive hbarrier parent fresh
    have hpair := (Defer.held_placed hI hpos hrun hlive hbarrier parent fresh).2
    have hsymm : Std.Symm fun b c : Defer.Chunk =>
        Disjoint (b.range (Defer.compute t.state parent fresh).2.1)
          (c.range (Defer.compute t.state parent fresh).2.1) := ⟨fun _ _ h => h.symm⟩
    have hmem : ∀ d ∈ H, d ∈ s.held := fun d hd => List.mem_append_left _ (hperm.mem_iff.2 hd)
    exact hpair.forall (hmem b hb) (hmem c hc) hne

/-- `DeferBufferAllocator` before anything was allocated. -/
def deferEmpty (mAlign : ℕ) (hpos : 0 < mAlign) : Memory (deferMemory mAlign hpos) Slot where
  state := Defer.Sys.init
  block _ := none
  holds := ⟨⟨[], ⟨.nil, [], Defer.init_inv mAlign⟩, nofun⟩, nofun⟩

/-! ### The main theorem -/

open Plan

/-- **The plan is sound.** At each command: a tensor is released only if the command reads it and no
later one does; a releasable tensor that is live at the last command to read it is released exactly
once in the walk; and however the allocator serves the requests, two tensors that are live at the
command have blocks there, and these are apart. -/
theorem memory_plan_sound (P : Plan) (A : Allocator) (m : Memory A Slot) (useCount : ℕ → ℤ)
    (static backend : ℕ → Bool) (pre post : List Command) (c : Command)
    (hcommands : P.commands = pre ++ c :: post) :
    let w := P.start (P.init (fun t => (m.block (.tensor t)).isSome) useCount static backend)
    (∀ t ∈ (P.planCommand (P.walk w pre) c).2, t ∈ c.workInputs ∧ t ∉ reads post) ∧
    (∀ t, Live P w pre c post t → P.Releasable t → t ∈ c.workInputs → t ∉ reads post →
      (P.releases w P.commands).count t = 1) ∧
    ∀ t u, Live P w pre c post t → Live P w pre c post u → t ≠ u → P.storageType t ≠ .static →
      P.storageType u ≠ .static → ∀ s mem, Serves A m.state m.block
        (P.requests w pre ++ ((P.planned (P.walk w pre) c).2 ++ P.scratch c)) s mem →
      ∃ b b', mem (.tensor t) = some b ∧ mem (.tensor u) = some b' ∧ A.Apart s b b' := by
  intro w
  have hcounts : Counts P w (reads (pre ++ c :: post)) := by
    have h : Counts P w (reads P.commands) := counts_start _
    rwa [hcommands] at h
  have hbacked : Backed w := by
    intro t ht
    exact Bool.or_eq_true_iff.2 (.inl ht)
  have hsync : Sync P w fun x => (m.block x).isSome := by
    intro t ht
    exact (if_neg ht).symm
  refine ⟨fun t ht => ?_, fun t hlive hrel hin hlast => ?_, ?_⟩
  · have hc := (reads_append pre (c :: post) ▸ hcounts : Counts P w _).walk
    rw [reads_cons] at hc
    obtain ⟨hin, hlater, -⟩ := released_last hc ht
    exact ⟨hin, hlater⟩
  · rw [hcommands]
    exact count_releases hlive hcounts hbacked hrel hin hlast
  · intro t u ht hu hne hst hsu s mem hserves
    have hoccupied : Sync P (P.planned (P.walk w pre) c).1 fun x => (mem x).isSome := by
      rw [hserves.isSome, occupied_append, occupied_append]
      exact ((hsync.requests pre).allocAll _).scratch c
    have hsome : ∀ v, Live P w pre c post v → P.storageType v ≠ .static →
        ∃ b, mem (.tensor v) = some b := by
      intro v hv hsv
      refine Option.isSome_iff_exists.1 ?_
      exact (hoccupied v hsv).trans (hv.mem hcounts)
    obtain ⟨b, hb⟩ := hsome t ht hst
    obtain ⟨b', hb'⟩ := hsome u hu hsu
    refine ⟨b, b', hb, hb', (hserves.holds m.holds).apart hb hb' ?_⟩
    exact fun he => hne (Slot.tensor.inj he)

/-- An input, a tensor with the given usage and an output. -/
def chain (usage : Usage) : Plan where
  tensor
    | 0 => { usage := .input }
    | 1 => { usage := usage }
    | _ => { usage := .output }
  infos := [{ executeBuffer := [⟨[0], [1], 0, []⟩, ⟨[1], [2], 0, []⟩] }]
  outputStatic := false
  allocInput := true
  index := 0

/-- The state at the head of the walk when nothing has memory. -/
def chainStart (usage : Usage) : Walk :=
  (chain usage).start ((chain usage).init (fun _ => false) (fun _ => 0) (fun _ => false)
    fun _ => false)

/-- The tensor between the commands is released once, and at the second command it is apart from the
output. -/
theorem memory_plan_sound_chain :
    ((chain .normal).releases (chainStart .normal) (chain .normal).commands).count 1 = 1 ∧
    ∀ (s : Defer.Sys) (mem : Slot → Option Defer.Chunk),
      Serves (deferMemory 64 (by decide)) Defer.Sys.init (fun _ => none)
      ((chain .normal).requests (chainStart .normal) [⟨[0], [1], 0, []⟩] ++
        ([.acquire (.tensor 2) 1 false] ++ [])) s mem →
      ∃ b b', mem (.tensor 1) = some b ∧ mem (.tensor 2) = some b' ∧
        (deferMemory 64 (by decide)).Apart s b b' := by
  obtain ⟨-, hone, hapart⟩ := memory_plan_sound (chain .normal) (deferMemory 64 (by decide))
    (deferEmpty 64 (by decide)) (fun _ => 0) (fun _ => false) (fun _ => false)
    [⟨[0], [1], 0, []⟩] [] ⟨[1], [2], 0, []⟩ rfl
  have hone_live : Live (chain .normal) (chainStart .normal) [⟨[0], [1], 0, []⟩]
      ⟨[1], [2], 0, []⟩ [] 1 := ⟨rfl, .inr ⟨_, List.mem_cons_self, by decide⟩, by decide⟩
  have htwo_live : Live (chain .normal) (chainStart .normal) [⟨[0], [1], 0, []⟩]
      ⟨[1], [2], 0, []⟩ [] 2 := ⟨rfl, .inr ⟨⟨[1], [2], 0, []⟩, by simp, by decide⟩, by decide⟩
  refine ⟨hone 1 hone_live ⟨by decide, by decide, by decide⟩ (by decide) (by decide), ?_⟩
  exact hapart 1 2 hone_live htwo_live (by decide) (by decide) (by decide)

/-- An output of the model that a command reads is acquired dynamically and its count reaches zero,
but it is not released. -/
theorem read_output_kept : (chain .output).storageType 1 = .dynamic ∧
    .acquire (.tensor 1) 1 false ∈
      (chain .output).requests (chainStart .output) (chain .output).commands ∧
    ((chain .output).walk (chainStart .output) (chain .output).commands).useCount 1 = 0 ∧
    ((chain .output).releases (chainStart .output) (chain .output).commands).count 1 ≠ 1 := by
  decide

end Mnn.Pipeline
