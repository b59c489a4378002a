import Mnn.Geometry.BroadCastDims

/-!
# `GeometryTile`

A tensor repeated along its axes (`source/shape/ShapeTile.cpp` and
`source/geometry/GeometryTile.cpp`).

* `Fusing`, `Fusing.visit`: the loop over the axes, whose states carry a product that is still to
  be exported;
* `onCompute`: the regions, or `none` where the loop writes behind its arrays;
* `kinds`, `entryCount`: how many entries the axes need;
* `visit_spec`, `run_spec`: an axis changes neither what the loops visit nor how many entries are
  needed;
* `tile_exact_iff`: **the regions are those of a repeated tensor exactly when the entries fit**.
-/

namespace Mnn.Tile

open Recompute Permute Lib.LoopNest

/-- `MNN_MAX_TENSOR_DIM`. -/
def maxTensorDim : ℕ := 9

/-- `TileComputer::onComputeSize`: the extents of the output. -/
def outputShape (shape multiples : List ℕ) : List ℕ := List.zipWith (· * ·) shape multiples

/-! ### Fused axes -/

/-- What was seen since the last export. -/
inductive Status
  | start
  | multi
  | input
  deriving DecidableEq, Repr

/-- Why the loop ends early. -/
inductive Stop
  | zeroShape
  | behindArrays
  deriving DecidableEq, Repr

/-- The state of the loop over the axes; `entries` are the arrays `size`, `srcStride` and
`dstStride`. -/
structure Fusing where
  entries : List Axis := []
  status : Status := .start
  prevInput : ℕ := 1
  prevMulti : ℕ := 1
  prevIndex : ℕ := 0
  room : entries.length ≤ maxTensorDim := by decide

variable (input output : Tensor) (multiples : List ℕ)

def inputStride (i : ℕ) : ℕ := (computeStride input.shape).getD i 0

def outputStride (i : ℕ) : ℕ := (computeStride (output.shape.take input.dimensions)).getD i 0

namespace Fusing

/-- One more entry, if there is room for it. -/
def push (f : Fusing) (a : Axis) : Except Stop Fusing :=
  if h : f.entries.length < maxTensorDim then
    .ok { f with
      entries := f.entries ++ [a]
      room := by rwa [List.length_append, List.length_singleton] }
  else .error .behindArrays

def exportInput (f : Fusing) : Except Stop Fusing :=
  f.push ⟨f.prevInput, inputStride input f.prevIndex, outputStride input output f.prevIndex⟩

def exportMulti (f : Fusing) : Except Stop Fusing :=
  f.push ⟨f.prevMulti, 0, input.length f.prevIndex * outputStride input output f.prevIndex⟩

/-- Export multi and input. -/
def exportBoth (f : Fusing) (multi input : Axis) : Except Stop Fusing := do
  let f ← f.push multi
  let f ← f.push input
  return { f with status := .start }

/-- One pass of the loop. -/
def visit (f : Fusing) (i : ℕ) : Except Stop Fusing :=
  let il := input.length i
  let ml := multiples.getD i 1
  if il = 0 ∨ ml = 0 then .error .zeroShape
  else if il = 1 ∧ ml = 1 then .ok f
  else if il = 1 ∧ 1 < ml then
    match f.status with
    | .start => .ok { f with prevMulti := 1 * ml, prevIndex := i, status := .multi }
    | .multi => .ok { f with prevMulti := f.prevMulti * ml, prevIndex := i, status := .multi }
    | .input => (f.exportInput input output).map fun f =>
        { f with prevIndex := i, prevMulti := ml, status := .multi }
  else if 1 < il ∧ ml = 1 then
    match f.status with
    | .start => .ok { f with prevInput := 1 * il, prevIndex := i, status := .input }
    | .input => .ok { f with prevInput := f.prevInput * il, prevIndex := i, status := .input }
    | .multi => (f.exportMulti input output).map fun f =>
        { f with prevIndex := i, prevInput := il, status := .input }
  else do
    -- the pending multiple joins this one, since the axes between them have length one
    let ml := if f.status = .multi then ml * f.prevMulti else ml
    let f ← if f.status = .input then f.exportInput input output else .ok f
    f.exportBoth ⟨ml, 0, il * outputStride input output i⟩
      ⟨il, inputStride input i, outputStride input output i⟩

/-- Check remain input length / multi. -/
def close (f : Fusing) : Except Stop Fusing :=
  match f.status with
  | .start => .ok f
  | .multi => f.exportMulti input output
  | .input => f.exportInput input output

end Fusing

/-- The entries after the loop. -/
def fuse : Except Stop (List Axis) := do
  let f ← (List.range input.dimensions).foldlM (Fusing.visit input output multiples) {}
  let f ← f.close input output
  return f.entries

/-- `GeometryTile::onCompute`: the regions, or `none` where an array has too few elements.  Less
than three entries are filled up behind. -/
def onCompute (r : Ref) : Option (List (Region Ref)) :=
  if maxTensorDim < input.dimensions then none
  else
    match fuse input output multiples with
    | .ok entries => some (permuteRegions r (entries ++ List.replicate (3 - entries.length) {}))
    | .error .zeroShape => some []
    | .error .behindArrays => none

/-! ### Number of entries -/

/-- What an axis asks for. -/
inductive Kind
  | multi
  | input
  | both
  deriving DecidableEq, Repr

/-- An axis of extent one that is not repeated asks for nothing. -/
def kind (il ml : ℕ) : List Kind :=
  if il = 1 then if ml = 1 then [] else [.multi]
  else if ml = 1 then [.input] else [.both]

def kinds : List ℕ → List ℕ → List Kind
  | il :: shape, ml :: multiples => kind il ml ++ kinds shape multiples
  | _, _ => []

/-- Two entries for each axis that has both, one for each run of axes of one kind; but a run of
multiples in front of an axis that has both needs none. -/
def entryCount : List Kind → ℕ
  | [] => 0
  | .both :: l => 2 + entryCount l
  | .input :: l => (if l.head? = some .input then 0 else 1) + entryCount l
  | .multi :: l => (if l.head? = some .multi ∨ l.head? = some .both then 0 else 1) + entryCount l

example : entryCount (kinds [1, 1, 2, 3, 4] [2, 3, 2, 1, 1]) = 3 := by decide
example : entryCount (kinds [2, 2, 2, 2, 2] [2, 2, 2, 2, 2]) = 10 := by decide

theorem entryCount_multi_multi (l : List Kind) :
    entryCount (.multi :: .multi :: l) = entryCount (.multi :: l) :=
  Nat.zero_add _

theorem entryCount_multi_input (l : List Kind) :
    entryCount (.multi :: .input :: l) = 1 + entryCount (.input :: l) := rfl

theorem entryCount_multi_both (l : List Kind) :
    entryCount (.multi :: .both :: l) = 2 + entryCount l :=
  Nat.zero_add _

theorem entryCount_input_input (l : List Kind) :
    entryCount (.input :: .input :: l) = entryCount (.input :: l) :=
  Nat.zero_add _

theorem entryCount_input_multi (l : List Kind) :
    entryCount (.input :: .multi :: l) = 1 + entryCount (.multi :: l) := rfl

theorem entryCount_input_both (l : List Kind) :
    entryCount (.input :: .both :: l) = 1 + (2 + entryCount l) := rfl

/-! ### Loops -/

/-- The loops of an axis over its repetitions and over its elements, if the axes behind it have so
many elements in the input and in the output. -/
def axisLoops (il ml inputSize outputSize : ℕ) : List Loop :=
  [⟨ml, 0, (il * outputSize : ℕ)⟩, ⟨il, inputSize, outputSize⟩]

def tileLoops : List ℕ → List ℕ → List Loop
  | il :: shape, ml :: multiples =>
    axisLoops il ml shape.prod (outputShape shape multiples).prod ++ tileLoops shape multiples
  | _, _ => []

namespace Status

/-- The kind of the axes that are not exported yet. -/
def kinds : Status → List Kind
  | .start => []
  | .multi => [.multi]
  | .input => [.input]

end Status

namespace Fusing

/-- The loop that is not exported yet, if the axes that are left have so many elements in the input
and in the output. -/
def pending (f : Fusing) (inputSize outputSize : ℕ) : List Loop :=
  match f.status with
  | .start => []
  | .multi => [⟨f.prevMulti, 0, outputSize⟩]
  | .input => [⟨f.prevInput, inputSize, outputSize⟩]

def loops (f : Fusing) (inputSize outputSize : ℕ) : List Loop :=
  f.entries.map Axis.loop ++ f.pending inputSize outputSize

/-- The steps of the loop that is not exported yet are those of the last axis that joined it. -/
def Ready (f : Fusing) (inputSize outputSize : ℕ) : Prop :=
  match f.status with
  | .start => True
  | .multi => input.length f.prevIndex * outputStride input output f.prevIndex = outputSize
  | .input => inputStride input f.prevIndex = inputSize ∧
      outputStride input output f.prevIndex = outputSize

end Fusing

/-- The state after some axes stands for the loops of `front`, and will have as many entries as
there would be with `n` of them and axes of the kinds `before`; or there were too many. -/
def Covers (inputSize outputSize : ℕ) (front : List Loop) (n : ℕ) (before : List Kind)
    (result : Except Stop Fusing) : Prop :=
  (∃ f, result = .ok f ∧ f.Ready input output inputSize outputSize ∧
      (∀ rest, nest (f.loops inputSize outputSize ++ rest) = nest (front ++ rest)) ∧
      ∀ ks, f.entries.length + entryCount (f.status.kinds ++ ks) = n + entryCount (before ++ ks)) ∨
    result = .error .behindArrays ∧ ∀ ks, maxTensorDim < n + entryCount (before ++ ks)

namespace Fusing

variable {input output : Tensor} {f : Fusing} {inputSize outputSize : ℕ}

theorem push_of_lt {a : Axis} (h : f.entries.length < maxTensorDim) :
    ∃ room, f.push a = .ok { f with entries := f.entries ++ [a], room } :=
  ⟨_, dif_pos h⟩

theorem push_of_not {a : Axis} (h : ¬ f.entries.length < maxTensorDim) :
    f.push a = .error .behindArrays :=
  dif_neg h

theorem exportBoth_spec (f : Fusing) (a b : Axis) :
    (∃ room, f.exportBoth a b =
        .ok { f with entries := f.entries ++ [a] ++ [b], status := .start, room }) ∨
      f.exportBoth a b = .error .behindArrays ∧ maxTensorDim < f.entries.length + 2 := by
  by_cases ha : f.entries.length < maxTensorDim
  · obtain ⟨room, hpush⟩ := push_of_lt (a := a) ha
    simp only [exportBoth, hpush, bind, Except.bind]
    by_cases hb : (f.entries ++ [a]).length < maxTensorDim
    · obtain ⟨room', hpush'⟩ := push_of_lt
        (f := { f with entries := f.entries ++ [a], room }) (a := b) hb
      rw [hpush']
      exact .inl ⟨room', rfl⟩
    · rw [push_of_not hb]
      rw [List.length_append, List.length_singleton] at hb
      exact .inr ⟨rfl, by omega⟩
  · rw [exportBoth, push_of_not ha]
    exact .inr ⟨rfl, by omega⟩

theorem loops_start (h : f.status = .start) :
    f.loops inputSize outputSize = f.entries.map Axis.loop := by
  simp only [loops, pending, h, List.append_nil]

theorem loops_multi (h : f.status = .multi) :
    f.loops inputSize outputSize = f.entries.map Axis.loop ++ [⟨f.prevMulti, 0, outputSize⟩] := by
  simp only [loops, pending, h]

theorem loops_input (h : f.status = .input) :
    f.loops inputSize outputSize =
      f.entries.map Axis.loop ++ [⟨f.prevInput, inputSize, outputSize⟩] := by
  simp only [loops, pending, h]

/-- A pending multiple is exported as it is. -/
theorem exportMulti_spec (hs : f.status = .multi) (h : f.Ready input output inputSize outputSize) :
    (∃ entries room, f.exportMulti input output = .ok { f with entries, room } ∧
        entries.map Axis.loop = f.loops inputSize outputSize ∧
        entries.length = f.entries.length + 1) ∨
      f.exportMulti input output = .error .behindArrays ∧ maxTensorDim ≤ f.entries.length := by
  simp only [Ready, hs] at h
  by_cases hlt : f.entries.length < maxTensorDim
  · obtain ⟨room, hpush⟩ := push_of_lt hlt
    refine .inl ⟨_, room, hpush, ?_, List.length_append⟩
    rw [loops_multi hs, List.map_append, ← h]
    rfl
  · exact .inr ⟨push_of_not hlt, not_lt.1 hlt⟩

/-- A pending extent is exported as it is. -/
theorem exportInput_spec (hs : f.status = .input) (h : f.Ready input output inputSize outputSize) :
    (∃ entries room, f.exportInput input output = .ok { f with entries, room } ∧
        entries.map Axis.loop = f.loops inputSize outputSize ∧
        entries.length = f.entries.length + 1) ∨
      f.exportInput input output = .error .behindArrays ∧ maxTensorDim ≤ f.entries.length := by
  simp only [Ready, hs] at h
  by_cases hlt : f.entries.length < maxTensorDim
  · obtain ⟨room, hpush⟩ := push_of_lt hlt
    refine .inl ⟨_, room, hpush, ?_, List.length_append⟩
    rw [loops_input hs, List.map_append, ← h.1, ← h.2]
    rfl
  · exact .inr ⟨push_of_not hlt, not_lt.1 hlt⟩

/-- What is left is exported. -/
theorem close_spec (h : f.Ready input output inputSize outputSize) :
    (∃ f', f.close input output = .ok f' ∧
        f'.entries.map Axis.loop = f.loops inputSize outputSize ∧
        f'.entries.length = f.entries.length + entryCount f.status.kinds) ∨
      f.close input output = .error .behindArrays ∧
        maxTensorDim < f.entries.length + entryCount f.status.kinds := by
  unfold close
  cases hs : f.status with
  | start => exact .inl ⟨f, rfl, (loops_start hs).symm, rfl⟩
  | multi =>
    rcases exportMulti_spec hs h with ⟨entries, room, hexport, hspec⟩ | ⟨hexport, hle⟩
    · exact .inl ⟨_, hexport, hspec⟩
    · exact .inr ⟨hexport, Nat.lt_succ_of_le hle⟩
  | input =>
    rcases exportInput_spec hs h with ⟨entries, room, hexport, hspec⟩ | ⟨hexport, hle⟩
    · exact .inl ⟨_, hexport, hspec⟩
    · exact .inr ⟨hexport, Nat.lt_succ_of_le hle⟩

end Fusing

/-! ### One axis -/

section Nest

variable (il ml p inputSize outputSize : ℕ) (rest : List Loop)

theorem nest_append_congr (front : List Loop) {l l' : List Loop} (h : nest l = nest l') :
    nest (front ++ l) = nest (front ++ l') := by
  rw [nest_append, nest_append, h]

theorem nest_axisLoops_one : nest (axisLoops 1 ml inputSize outputSize ++ rest) =
    nest (⟨ml, 0, outputSize⟩ :: rest) := by
  rw [axisLoops, Nat.one_mul]
  exact nest_append_congr [_] (nest_unit rfl rest)

theorem nest_axisLoops_plain : nest (axisLoops il 1 inputSize outputSize ++ rest) =
    nest (⟨il, inputSize, outputSize⟩ :: rest) :=
  nest_unit rfl _

/-- A pending multiple joins the one of the next axis. -/
theorem nest_multi_axisLoops :
    nest (⟨p, 0, (il * ml * outputSize : ℕ)⟩ :: (axisLoops il ml inputSize outputSize ++ rest)) =
      nest (⟨p * ml, 0, (il * outputSize : ℕ)⟩ :: ⟨il, inputSize, outputSize⟩ :: rest) := by
  rw [← nest_merge p ml 0 (il * outputSize : ℕ), mul_zero, Nat.mul_comm il ml, Nat.mul_assoc,
    Nat.cast_mul ml]
  rfl

/-- A pending extent joins the one of the next axis. -/
theorem nest_input_axisLoops :
    nest (⟨p, (il * inputSize : ℕ), (il * 1 * outputSize : ℕ)⟩ ::
        (axisLoops il 1 inputSize outputSize ++ rest)) =
      nest (⟨p * il, inputSize, outputSize⟩ :: rest) := by
  rw [← nest_merge p il inputSize outputSize, Nat.mul_one, Nat.cast_mul, Nat.cast_mul]
  exact nest_append_congr [_] (nest_axisLoops_plain il inputSize outputSize rest)

end Nest

/-- A state that stands for the axes before may be replaced by them. -/
theorem covers_trans {input output : Tensor} {f : Fusing} {inputSize outputSize inputSize'
    outputSize' n : ℕ} {front loops : List Loop} {before ks : List Kind}
    {result : Except Stop Fusing}
    (hnest : ∀ rest, nest (f.loops inputSize outputSize ++ rest) = nest (front ++ rest))
    (hcount : ∀ ks, f.entries.length + entryCount (f.status.kinds ++ ks) =
      n + entryCount (before ++ ks))
    (h : Covers input output inputSize' outputSize' (f.loops inputSize outputSize ++ loops)
      f.entries.length (f.status.kinds ++ ks) result) :
    Covers input output inputSize' outputSize' (front ++ loops) n (before ++ ks) result := by
  simp only [Covers, List.append_assoc, hnest, hcount] at h ⊢
  exact h

/-- The two entries of an axis stand for its loops. -/
theorem covers_exportBoth {input output : Tensor} (f : Fusing) {m il inputSize outputSize n : ℕ}
    {front : List Loop} {before : List Kind}
    (hnest : ∀ rest, nest (f.entries.map Axis.loop ++
      (⟨m, 0, (il * outputSize : ℕ)⟩ :: ⟨il, inputSize, outputSize⟩ :: rest)) =
        nest (front ++ rest))
    (hcount : ∀ ks, f.entries.length + 2 + entryCount ks = n + entryCount (before ++ ks)) :
    Covers input output inputSize outputSize front n before
      (f.exportBoth ⟨m, 0, il * outputSize⟩ ⟨il, inputSize, outputSize⟩) := by
  rcases f.exportBoth_spec ⟨m, 0, il * outputSize⟩ ⟨il, inputSize, outputSize⟩ with
    ⟨room, hexport⟩ | ⟨hexport, hle⟩
  · refine .inl ⟨_, hexport, trivial, fun rest => ?_, fun ks => ?_⟩
    · rw [Fusing.loops_start rfl, ← hnest]
      simp only [List.map_append, List.append_assoc]
      rfl
    · rw [← hcount, List.length_append, List.length_append]
      rfl
  · refine .inr ⟨hexport, fun ks => ?_⟩
    rw [← hcount]
    omega

section Visit

variable {input output : Tensor} {multiples : List ℕ} {f : Fusing}
  {i il ml inputSize outputSize : ℕ}
  (hil : input.length i = il) (hml : multiples.getD i 1 = ml)
  (hinput : inputStride input i = inputSize) (houtput : outputStride input output i = outputSize)
  (hready : f.Ready input output (il * inputSize) (il * ml * outputSize))

include hil hml houtput hready

/-- An axis that is repeated and of extent one. -/
theorem visit_multi (hone : il = 1) (hlt : 1 < ml) :
    Covers input output inputSize outputSize
      (f.loops (il * inputSize) (il * ml * outputSize) ++ axisLoops il ml inputSize outputSize)
      f.entries.length (f.status.kinds ++ [.multi]) (f.visit input output multiples i) := by
  have hvisit : f.visit input output multiples i = (match f.status with
    | .start => .ok { f with prevMulti := 1 * ml, prevIndex := i, status := .multi }
    | .multi => .ok { f with prevMulti := f.prevMulti * ml, prevIndex := i, status := .multi }
    | .input => (f.exportInput input output).map fun f =>
        { f with prevIndex := i, prevMulti := ml, status := .multi }) := by
    rw [Fusing.visit, hil, hml]
    dsimp only
    rw [if_neg (by omega), if_neg (by omega), if_pos ⟨hone, hlt⟩]
  have hnext : input.length i * outputStride input output i = outputSize := by
    rw [hil, houtput, hone, Nat.one_mul]
  rw [hvisit]
  subst hone
  cases hs : f.status with
  | start =>
    refine .inl ⟨_, rfl, hnext, fun rest => ?_, fun ks => rfl⟩
    rw [Fusing.loops_start hs, Fusing.loops_multi rfl, List.append_assoc, List.append_assoc]
    refine nest_append_congr _ ?_
    rw [nest_axisLoops_one, Nat.one_mul]
    rfl
  | multi =>
    refine .inl ⟨_, rfl, hnext, fun rest => ?_, fun ks => ?_⟩
    · rw [Fusing.loops_multi hs, Fusing.loops_multi rfl, List.append_assoc, List.append_assoc,
        List.append_assoc]
      refine nest_append_congr _ ((nest_multi_axisLoops ..).trans ?_).symm
      rw [Nat.one_mul]
      exact nest_append_congr [_] (nest_unit rfl rest)
    · exact congrArg (_ + ·) (entryCount_multi_multi ks).symm
  | input =>
    have hcount : ∀ ks, entryCount (Status.input.kinds ++ [.multi] ++ ks) =
        1 + entryCount (.multi :: ks) := entryCount_input_multi
    rcases Fusing.exportInput_spec hs hready with
      ⟨entries, room, hexport, hloops, hlength⟩ | ⟨hexport, hle⟩
    · rw [hexport]
      refine .inl ⟨_, rfl, hnext, fun rest => ?_, fun ks => ?_⟩
      · rw [Fusing.loops_multi rfl, hloops, List.append_assoc, List.append_assoc]
        exact nest_append_congr _ (nest_axisLoops_one ..).symm
      · rw [hcount, hlength, Nat.add_assoc]
        rfl
    · rw [hexport]
      refine .inr ⟨rfl, fun ks => ?_⟩
      rw [hcount]
      omega

/-- An axis that is not repeated. -/
theorem visit_input (hone : ml = 1) (hlt : 1 < il) (hinput : inputStride input i = inputSize) :
    Covers input output inputSize outputSize
      (f.loops (il * inputSize) (il * ml * outputSize) ++ axisLoops il ml inputSize outputSize)
      f.entries.length (f.status.kinds ++ [.input]) (f.visit input output multiples i) := by
  have hvisit : f.visit input output multiples i = (match f.status with
    | .start => .ok { f with prevInput := 1 * il, prevIndex := i, status := .input }
    | .input => .ok { f with prevInput := f.prevInput * il, prevIndex := i, status := .input }
    | .multi => (f.exportMulti input output).map fun f =>
        { f with prevIndex := i, prevInput := il, status := .input }) := by
    rw [Fusing.visit, hil, hml]
    dsimp only
    rw [if_neg (by omega), if_neg (by omega), if_neg (by omega), if_pos ⟨hlt, hone⟩]
  have hnext : inputStride input i = inputSize ∧ outputStride input output i = outputSize :=
    ⟨hinput, houtput⟩
  rw [hvisit]
  subst hone
  cases hs : f.status with
  | start =>
    refine .inl ⟨_, rfl, hnext, fun rest => ?_, fun ks => rfl⟩
    rw [Fusing.loops_start hs, Fusing.loops_input rfl, List.append_assoc, List.append_assoc]
    refine nest_append_congr _ ?_
    rw [nest_axisLoops_plain, Nat.one_mul]
    rfl
  | input =>
    refine .inl ⟨_, rfl, hnext, fun rest => ?_, fun ks => ?_⟩
    · rw [Fusing.loops_input hs, Fusing.loops_input rfl, List.append_assoc, List.append_assoc,
        List.append_assoc]
      exact nest_append_congr _ (nest_input_axisLoops ..).symm
    · exact congrArg (_ + ·) (entryCount_input_input ks).symm
  | multi =>
    have hcount : ∀ ks, entryCount (Status.multi.kinds ++ [.input] ++ ks) =
        1 + entryCount (.input :: ks) := entryCount_multi_input
    rcases Fusing.exportMulti_spec hs hready with
      ⟨entries, room, hexport, hloops, hlength⟩ | ⟨hexport, hle⟩
    · rw [hexport]
      refine .inl ⟨_, rfl, hnext, fun rest => ?_, fun ks => ?_⟩
      · rw [Fusing.loops_input rfl, hloops, List.append_assoc, List.append_assoc]
        exact nest_append_congr _ (nest_axisLoops_plain ..).symm
      · rw [hcount, hlength, Nat.add_assoc]
        rfl
    · rw [hexport]
      refine .inr ⟨rfl, fun ks => ?_⟩
      rw [hcount]
      omega

/-- An axis that is repeated and of an extent of more than one. -/
theorem visit_both (hlt : 1 < il) (hlt' : 1 < ml) (hinput : inputStride input i = inputSize) :
    Covers input output inputSize outputSize
      (f.loops (il * inputSize) (il * ml * outputSize) ++ axisLoops il ml inputSize outputSize)
      f.entries.length (f.status.kinds ++ [.both]) (f.visit input output multiples i) := by
  have hvisit : f.visit input output multiples i = (do
      let f' ← if f.status = .input then f.exportInput input output else .ok f
      f'.exportBoth ⟨if f.status = .multi then ml * f.prevMulti else ml, 0, il * outputSize⟩
        ⟨il, inputSize, outputSize⟩) := by
    rw [Fusing.visit, hil, hml, hinput, houtput]
    dsimp only
    rw [if_neg (by omega), if_neg (by omega), if_neg (by omega), if_neg (by omega)]
  rw [hvisit]
  cases hs : f.status with
  | start =>
    rw [if_neg Status.noConfusion, if_neg Status.noConfusion]
    refine covers_exportBoth f (fun rest => ?_) fun ks => Nat.add_assoc ..
    rw [Fusing.loops_start hs, List.append_assoc]
    rfl
  | multi =>
    rw [if_neg Status.noConfusion, if_pos rfl]
    refine covers_exportBoth f (fun rest => ?_) fun ks => ?_
    · rw [Fusing.loops_multi hs, List.append_assoc, List.append_assoc]
      refine nest_append_congr _ ?_
      rw [Nat.mul_comm ml]
      exact (nest_multi_axisLoops ..).symm
    · rw [Nat.add_assoc]
      exact congrArg (_ + ·) (entryCount_multi_both ks).symm
  | input =>
    rw [if_pos rfl, if_neg Status.noConfusion]
    rcases Fusing.exportInput_spec hs hready with
      ⟨entries, room, hexport, hloops, hlength⟩ | ⟨hexport, hle⟩
    · rw [hexport]
      refine covers_exportBoth { f with entries, room } (fun rest => ?_) fun ks => ?_
      · rw [hloops, List.append_assoc]
        rfl
      · rw [hlength, Nat.add_assoc, Nat.add_assoc]
        rfl
    · rw [hexport]
      refine .inr ⟨rfl, fun ks => ?_⟩
      rw [show Status.input.kinds ++ [.both] ++ ks = .input :: .both :: ks from rfl,
        entryCount_input_both]
      omega

/-- **One axis.** -/
theorem visit_spec (hpos : 0 < il) (hpos' : 0 < ml) (hinput : inputStride input i = inputSize) :
    Covers input output inputSize outputSize
      (f.loops (il * inputSize) (il * ml * outputSize) ++ axisLoops il ml inputSize outputSize)
      f.entries.length (f.status.kinds ++ kind il ml) (f.visit input output multiples i) := by
  by_cases hone : il = 1
  · by_cases hone' : ml = 1
    · have hvisit : f.visit input output multiples i = .ok f := by
        rw [Fusing.visit, hil, hml]
        dsimp only
        rw [if_neg (by omega), if_pos ⟨hone, hone'⟩]
      subst hone hone'
      simp only [Nat.one_mul] at hready ⊢
      refine .inl ⟨f, hvisit, hready, fun rest => ?_, fun ks => ?_⟩
      · rw [List.append_assoc]
        refine nest_append_congr _ ?_
        exact ((nest_axisLoops_one ..).trans (nest_unit rfl rest)).symm
      · rw [kind, if_pos rfl, if_pos rfl, List.append_nil]
    · rw [kind, if_pos hone, if_neg hone']
      exact visit_multi hil hml houtput hready hone (by omega)
  · rw [kind, if_neg hone]
    by_cases hone' : ml = 1
    · rw [if_pos hone']
      exact visit_input hil hml houtput hready hone' (by omega) hinput
    · rw [if_neg hone']
      exact visit_both hil hml houtput hready (by omega) (by omega) hinput

end Visit

/-! ### All axes -/

theorem getD_computeStride (front : List ℕ) (n : ℕ) (shape : List ℕ) :
    (computeStride (front ++ n :: shape)).getD front.length 0 = shape.prod := by
  induction front with
  | nil => rfl
  | cons m front ih => exact ih

theorem outputShape_append {front mfront : List ℕ} (hlen : front.length = mfront.length)
    (shape multiples : List ℕ) : outputShape (front ++ shape) (mfront ++ multiples) =
      outputShape front mfront ++ outputShape shape multiples :=
  List.zipWith_append hlen

theorem prod_outputShape_cons (il ml : ℕ) (shape multiples : List ℕ) :
    (outputShape (il :: shape) (ml :: multiples)).prod =
      il * ml * (outputShape shape multiples).prod :=
  List.prod_cons

section Run

variable {input output : Tensor} {multiples : List ℕ}
  (houtput : output.shape = outputShape input.shape multiples)
  (hpos : ∀ n ∈ input.shape, 0 < n) (hpos' : ∀ n ∈ multiples, 0 < n)

include houtput hpos hpos'

/-- The axes from one on. -/
theorem run_spec {front rest mfront mrest : List ℕ} (hshape : input.shape = front ++ rest)
    (hmultiples : multiples = mfront ++ mrest) (hfront : front.length = mfront.length)
    (hrest : rest.length = mrest.length) {f : Fusing}
    (hready : f.Ready input output rest.prod (outputShape rest mrest).prod) :
    Covers input output 1 1
      (f.loops rest.prod (outputShape rest mrest).prod ++ tileLoops rest mrest)
      f.entries.length (f.status.kinds ++ kinds rest mrest)
      ((List.range' front.length rest.length).foldlM (Fusing.visit input output multiples) f) := by
  induction rest generalizing front mfront mrest f with
  | nil =>
    obtain rfl := List.eq_nil_of_length_eq_zero hrest.symm
    refine .inl ⟨f, rfl, hready, fun rest => ?_, fun ks => ?_⟩
    · show _ = nest (_ ++ [] ++ rest)
      rw [List.append_nil]
      rfl
    · show _ = _ + entryCount (_ ++ [] ++ ks)
      rw [List.append_nil]
  | cons il rest ih =>
    obtain ⟨ml, mrest, rfl⟩ := List.exists_cons_of_length_eq_add_one hrest.symm
    have hrest' : rest.length = mrest.length := Nat.succ.inj hrest
    have hil : input.length front.length = il := by
      rw [Tensor.length, hshape, List.getD_append_right _ _ _ _ le_rfl, Nat.sub_self]
      rfl
    have hml : multiples.getD front.length 1 = ml := by
      rw [hmultiples, hfront, List.getD_append_right _ _ _ _ le_rfl, Nat.sub_self]
      rfl
    have hinputStride : inputStride input front.length = rest.prod := by
      rw [inputStride, hshape, getD_computeStride]
    have houtputStride : outputStride input output front.length =
        (outputShape rest mrest).prod := by
      have hdims : (outputShape input.shape multiples).length ≤ input.dimensions := by
        rw [outputShape, List.length_zipWith]
        exact min_le_left _ _
      have hlength : (outputShape front mfront).length = front.length := by
        rw [outputShape, List.length_zipWith, hfront, min_self]
      rw [outputStride, houtput, List.take_of_length_le hdims, hshape, hmultiples,
        outputShape_append hfront, ← hlength]
      exact getD_computeStride _ (il * ml) _
    have hmem : il ∈ input.shape := hshape ▸ List.mem_append_right _ List.mem_cons_self
    have hmem' : ml ∈ multiples := hmultiples ▸ List.mem_append_right _ List.mem_cons_self
    rw [List.prod_cons, prod_outputShape_cons] at hready ⊢
    rw [List.length_cons, List.range'_succ, List.foldlM_cons]
    rcases visit_spec hil hml houtputStride hready (hpos il hmem) (hpos' ml hmem')
      hinputStride with ⟨f', hvisit, hready', hnest, hcount⟩ | ⟨hvisit, hcount⟩
    · have hlength : (front ++ [il]).length = front.length + 1 := List.length_append
      have hshape' : input.shape = (front ++ [il]) ++ rest := by
        rw [hshape, List.append_assoc]
        rfl
      have hmultiples' : multiples = (mfront ++ [ml]) ++ mrest := by
        rw [hmultiples, List.append_assoc]
        rfl
      have hrun := ih hshape' hmultiples'
        (by rw [List.length_append, List.length_append, hfront]; rfl) hrest' hready'
      rw [hlength] at hrun
      rw [hvisit]
      have htrans := covers_trans (fun _ => hnest _) (fun _ => hcount _) hrun
      rwa [List.append_assoc, List.append_assoc] at htrans
    · rw [hvisit]
      refine .inr ⟨rfl, fun ks => ?_⟩
      have h := hcount (kinds rest mrest ++ ks)
      rwa [← List.append_assoc, List.append_assoc f.status.kinds] at h

/-- The entries stand for the loops over all axes, and are as many as the kinds of the axes ask
for. -/
theorem fuse_spec (hlen : multiples.length = input.dimensions) :
    (∃ entries, fuse input output multiples = .ok entries ∧
        nest (entries.map Axis.loop) = nest (tileLoops input.shape multiples) ∧
        entryCount (kinds input.shape multiples) ≤ maxTensorDim) ∨
      fuse input output multiples = .error .behindArrays ∧
        maxTensorDim < entryCount (kinds input.shape multiples) := by
  have hrun : Covers input output 1 1 (tileLoops input.shape multiples) 0
      (kinds input.shape multiples)
      ((List.range input.dimensions).foldlM (Fusing.visit input output multiples) {}) := by
    rw [List.range_eq_range']
    exact run_spec houtput hpos hpos' (f := {}) rfl rfl (Eq.refl [].length) hlen.symm trivial
  rw [fuse]
  rcases hrun with ⟨f, hrun, hready, hnest, hcount⟩ | ⟨hrun, hcount⟩
  · have hnest := hnest []
    have hcount := hcount []
    simp only [List.append_nil, Nat.zero_add] at hnest hcount
    rw [hrun, ← hcount]
    rcases Fusing.close_spec hready with ⟨f', hclose, hloops, hlength⟩ | ⟨hclose, hlt⟩
    · refine .inl ⟨f'.entries, ?_, hloops ▸ hnest, hlength ▸ f'.room⟩
      simp only [bind, Except.bind, hclose]
      rfl
    · refine .inr ⟨?_, hlt⟩
      simp only [bind, Except.bind, hclose]
  · have hcount := hcount []
    rw [List.append_nil, Nat.zero_add] at hcount
    rw [hrun]
    exact .inr ⟨rfl, hcount⟩

end Run

/-! ### Coordinates -/

theorem nest_replicate (front : List Loop) (n : ℕ) :
    nest (front ++ (List.replicate n ({} : Axis)).map Axis.loop) = nest front := by
  induction n with
  | zero => rw [List.replicate_zero, List.map_nil, List.append_nil]
  | succ n ih =>
    rw [← ih, List.replicate_succ, List.map_cons]
    exact nest_append_congr front (nest_unit rfl _)

/-- The counters of the loops at the coordinates of the output. -/
def counters : List ℕ → List ℕ → List ℕ
  | il :: shape, c :: coordinates => c / il :: c % il :: counters shape coordinates
  | _, _ => []

/-- The coordinates of the element that is repeated. -/
def sourceIndex (coordinates shape : List ℕ) : List ℕ := List.zipWith (· % ·) coordinates shape

theorem prod_extent_tileLoops {shape multiples : List ℕ} (hlen : multiples.length = shape.length) :
    ((tileLoops shape multiples).map Loop.extent).prod = (outputShape shape multiples).prod := by
  induction shape generalizing multiples with
  | nil =>
    obtain rfl := List.eq_nil_of_length_eq_zero hlen
    rfl
  | cons il shape ih =>
    obtain ⟨ml, multiples, rfl⟩ := List.exists_cons_of_length_eq_add_one hlen
    rw [prod_outputShape_cons, ← ih (Nat.succ.inj hlen), Nat.mul_comm il, Nat.mul_assoc]
    rfl

/-- Every address of the output once. -/
theorem far_tileLoops {shape multiples : List ℕ} (hlen : multiples.length = shape.length) :
    (tileLoops shape multiples).map Loop.far =
      steps ((tileLoops shape multiples).map Loop.extent) := by
  induction shape generalizing multiples with
  | nil =>
    obtain rfl := List.eq_nil_of_length_eq_zero hlen
    rfl
  | cons il shape ih =>
    obtain ⟨ml, multiples, rfl⟩ := List.exists_cons_of_length_eq_add_one hlen
    have hprod := prod_extent_tileLoops (Nat.succ.inj hlen)
    simp only [tileLoops, axisLoops, List.cons_append, List.nil_append, List.map_cons, steps,
      List.prod_cons, hprod, ih (Nat.succ.inj hlen)]

theorem address_counters {shape multiples c : List ℕ}
    (hc : List.Forall₂ (· < ·) c (outputShape shape multiples))
    (hlen : multiples.length = shape.length) :
    counters shape c ∈ coords ((tileLoops shape multiples).map Loop.extent) ∧
      address ((tileLoops shape multiples).map Loop.far) (counters shape c) =
        address (steps (outputShape shape multiples)) c ∧
      address ((tileLoops shape multiples).map Loop.near) (counters shape c) =
        address (steps shape) (sourceIndex c shape) := by
  induction shape generalizing multiples c with
  | nil =>
    obtain rfl := List.eq_nil_of_length_eq_zero hlen
    obtain rfl := List.forall₂_nil_right_iff.1 hc
    exact ⟨Multiset.mem_singleton_self _, rfl, rfl⟩
  | cons il shape ih =>
    obtain ⟨ml, multiples, rfl⟩ := List.exists_cons_of_length_eq_add_one hlen
    obtain ⟨k, c, hk, hrest, rfl⟩ := List.forall₂_cons_right_iff.1 hc
    obtain ⟨hmem, hfar, hnear⟩ := ih hrest (Nat.succ.inj hlen)
    have hil : 0 < il := Nat.pos_of_ne_zero fun h => by simp [h] at hk
    refine ⟨?_, ?_, ?_⟩
    · rw [mem_coords] at hmem ⊢
      exact .cons (Nat.div_lt_of_lt_mul hk) (.cons (Nat.mod_lt k hil) hmem)
    · have hk : ((k / il : ℕ) : ℤ) * il + (k % il : ℕ) = k := by
        exact_mod_cast Nat.div_add_mod' k il
      show ((k / il : ℕ) : ℤ) * (il * (outputShape shape multiples).prod : ℕ) +
          ((k % il : ℕ) * (outputShape shape multiples).prod +
            address ((tileLoops shape multiples).map Loop.far) (counters shape c)) =
        k * (outputShape shape multiples).prod + address (steps (outputShape shape multiples)) c
      rw [hfar, ← hk]
      push_cast
      ring
    · show ((k / il : ℕ) : ℤ) * 0 + ((k % il : ℕ) * shape.prod +
            address ((tileLoops shape multiples).map Loop.near) (counters shape c)) =
        (k % il : ℕ) * shape.prod + address (steps shape) (sourceIndex c shape)
      rw [hnear, mul_zero, zero_add]

/-! ### Regions -/

/-- The regions write every address of the output once, with the element at the coordinates taken
modulo the extents of the input. -/
def Exact (V : Type*) [Zero V] (input output : Tensor) (multiples : List ℕ) (r : Ref) : Prop :=
  ∃ regions, onCompute input output multiples r = some regions ∧
    (writes regions).map Prod.snd = (Multiset.range output.rawSize).map (fun n : ℕ => (n : ℤ)) ∧
    ∀ (value : Ref → ℤ → V) (c : List ℕ), List.Forall₂ (· < ·) c output.shape →
      raster regions value (dot c (computeStride output.shape)) =
        value r (dot (sourceIndex c input.shape) (computeStride input.shape))

section Regions

variable {V : Type*} [Zero V] {input output : Tensor} {multiples : List ℕ} {r : Ref}

/-- What the regions of the entries copy. -/
theorem exact_of_nest (houtput : output.shape = outputShape input.shape multiples)
    (hlen : multiples.length = input.dimensions) {entries : List Axis}
    (hnest : nest (entries.map Axis.loop) = nest (tileLoops input.shape multiples))
    {regions : List (Region Ref)}
    (hregions : regions =
      permuteRegions r (entries ++ List.replicate (3 - entries.length) ({} : Axis))) :
    (writes regions).map Prod.snd = (Multiset.range output.rawSize).map (fun n : ℕ => (n : ℤ)) ∧
    ∀ (value : Ref → ℤ → V) (c : List ℕ), List.Forall₂ (· < ·) c output.shape →
      raster regions value (dot c (computeStride output.shape)) =
        value r (dot (sourceIndex c input.shape) (computeStride input.shape)) := by
  have hwrites : writes regions = nest (tileLoops input.shape multiples) := by
    rw [hregions, writes_permuteRegions, List.map_append, nest_replicate, hnest]
  have hsnd : (writes regions).map Prod.snd =
      (Multiset.range output.rawSize).map fun n : ℕ => (n : ℤ) := by
    rw [hwrites, nest_eq_coords, Multiset.map_map, Tensor.rawSize, houtput,
      ← prod_extent_tileLoops hlen, ← map_address_coords, ← far_tileLoops hlen]
    rfl
  refine ⟨hsnd, fun value c hc => ?_⟩
  rw [houtput] at hc
  obtain ⟨hmem, hfar, hnear⟩ := address_counters hc hlen
  rw [← address_map_cast, ← address_map_cast, ← steps_eq, ← steps_eq, houtput, ← hfar, ← hnear]
  refine raster_of_writes value ?_ (fun reg hreg => ?_) ?_
  · rw [hsnd]
    exact (Multiset.nodup_range _).map Nat.cast_injective
  · rw [hregions] at hreg
    obtain ⟨n, -, rfl⟩ := List.mem_map.1 hreg
    rfl
  · rw [hwrites, nest_eq_coords]
    exact Multiset.mem_map_of_mem _ hmem

/-- **Repetition.** For positive extents and multiples the regions repeat the input exactly when the
axes need no more entries than the arrays have. -/
theorem tile_exact_iff (houtput : output.shape = outputShape input.shape multiples)
    (hlen : multiples.length = input.dimensions) (hdims : input.dimensions ≤ maxTensorDim)
    (hpos : ∀ n ∈ input.shape, 0 < n) (hpos' : ∀ n ∈ multiples, 0 < n) :
    Exact V input output multiples r ↔ entryCount (kinds input.shape multiples) ≤ maxTensorDim := by
  have hcompute : onCompute input output multiples r = match fuse input output multiples with
    | .ok entries => some (permuteRegions r (entries ++ List.replicate (3 - entries.length) {}))
    | .error .zeroShape => some []
    | .error .behindArrays => none := if_neg (not_lt.2 hdims)
  rw [Exact, hcompute]
  rcases fuse_spec houtput hpos hpos' hlen with ⟨entries, hfuse, hnest, hle⟩ | ⟨hfuse, hlt⟩
  · rw [hfuse]
    exact iff_of_true ⟨_, rfl, exact_of_nest houtput hlen hnest rfl⟩ hle
  · rw [hfuse]
    refine iff_of_false ?_ (not_le.2 hlt)
    rintro ⟨regions, hregions, -⟩
    cases hregions

/-- An axis with both, between a repeated one and one that is not. -/
theorem tile_exact_three :
    Exact ℤ { shape := [1, 2, 3] } { shape := [2, 4, 3] } [2, 2, 1] (.input 0) :=
  (tile_exact_iff (by rfl) (by rfl) (by decide) (by decide) (by decide)).2 (by decide)

/-- Five axes with both need ten entries. -/
theorem tile_five_axes : ¬ Exact ℤ { shape := [2, 2, 2, 2, 2] } { shape := [4, 4, 4, 4, 4] }
    [2, 2, 2, 2, 2] (.input 0) := by
  rintro ⟨regions, hregions, -⟩
  have hnone : onCompute { shape := [2, 2, 2, 2, 2] } { shape := [4, 4, 4, 4, 4] }
    [2, 2, 2, 2, 2] (.input 0) = none := by rfl
  cases hnone.symm.trans hregions

end Regions

end Mnn.Tile
