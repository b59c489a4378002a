import Mnn.Geometry.GatherSlices

/-!
# `GeometryScatterNd` and `GeometryScatterElements`

The geometry of `ScatterND` and `ScatterElements` (`source/geometry/GeometryScatter.cpp`): a loop
that starts from a copy of the data and writes one slice for each row of indices.

* `FusedLoop`, `FusedLoop.run`: a loop with `initCommand` and `fuse` (`CPULoop`);
* `buildScatterND`, `GeometryScatterNd.onCompute`, `GeometryScatterElements.onCompute`;
* `updateSlice`, `scatter`: slices replaced or combined, one after the other;
* `content_scatter`: the loop does this, for slices of the right size;
* `scatter_exact_iff`: **the size of a slice is right when it is that of the data**.
-/

namespace Mnn.Recompute

open Lib.LoopNest

/-! ### Slices -/

section Slices

variable {α : Type*}

/-- The `size` elements from `offset` on are replaced or combined. -/
def updateSlice (combine : α → α → α) (offset : ℤ) (size : ℕ) (slice out : ℤ → α) (o : ℤ) : α :=
  if offset ≤ o ∧ o < offset + size then combine (out o) (slice (o - offset)) else out o

/-- The slices of `n` rows in order. -/
def scatter (combine : α → α → α) (n size : ℕ) (offset : ℕ → ℤ) (updates data : ℤ → α) : ℤ → α :=
  (List.range n).foldl (fun out i =>
    updateSlice combine (offset i) size (fun x => updates ((i * size : ℕ) + x)) out) data

variable {combine : α → α → α} {n size : ℕ} {offset : ℕ → ℤ} {updates data : ℤ → α} {o : ℤ}

theorem scatter_succ : scatter combine (n + 1) size offset updates data =
    updateSlice combine (offset n) size (fun x => updates ((n * size : ℕ) + x))
      (scatter combine n size offset updates data) := by
  rw [scatter, List.range_succ, List.foldl_append]
  rfl

/-- An element depends on the same element of the data. -/
theorem scatter_congr {data' : ℤ → α} (h : data o = data' o) :
    scatter combine n size offset updates data o =
      scatter combine n size offset updates data' o := by
  induction n with
  | zero => exact h
  | succ n ih => rw [scatter_succ, scatter_succ, updateSlice, updateSlice, ih]

/-- Only the elements of the rows' slices are read. -/
theorem scatter_congr_updates {updates' : ℤ → α}
    (h : ∀ x : ℕ, x < n * size → updates x = updates' x) :
    scatter combine n size offset updates data = scatter combine n size offset updates' data := by
  induction n with
  | zero => rfl
  | succ n ih =>
    rw [scatter_succ, scatter_succ, ih fun x hx => h x (hx.trans_le (by
      exact Nat.mul_le_mul_right _ n.le_succ))]
    funext o
    rw [updateSlice, updateSlice]
    split_ifs with ho
    · have hx : ((n * size : ℕ) : ℤ) + (o - offset n) =
          ((n * size + (o - offset n).toNat : ℕ) : ℤ) := by
        push_cast
        omega
      rw [hx, h _ (by rw [Nat.succ_mul]; omega)]
    · rfl

/-- An element that no row reaches. -/
theorem scatter_of_forall (h : ∀ i < n, ¬ (offset i ≤ o ∧ o < offset i + size)) :
    scatter combine n size offset updates data o = data o := by
  induction n with
  | zero => rfl
  | succ n ih =>
    rw [scatter_succ, updateSlice, if_neg (h n n.lt_succ_self)]
    exact ih fun i hi => h i (hi.trans n.lt_succ_self)

/-- An element that some row reaches, when all updates are the same. -/
theorem scatter_of_exists {u : α} (hu : ∀ x, updates x = u)
    (h : ∃ i < n, offset i ≤ o ∧ o < offset i + size) :
    scatter (fun _ u => u) n size offset updates data o = u := by
  induction n with
  | zero => exact absurd h.choose_spec.1 (Nat.not_lt_zero _)
  | succ n ih =>
    rw [scatter_succ, updateSlice]
    split_ifs with hn
    · exact hu _
    · obtain ⟨i, hi, hio⟩ := h
      refine ih ⟨i, (Nat.lt_succ_iff_lt_or_eq.1 hi).resolve_right ?_, hio⟩
      rintro rfl
      exact hn hio

end Slices

/-! ### Loops -/

/-- A loop with one command; `fuse` is that of the command. -/
structure FusedLoop where
  initCommand : RegionCommand
  command : RegionCommand
  fuse : ℤ
  loopNumber : ℕ
  inputIndexes : List ℤ
  outputIndexes : List ℤ

section Run

variable {α : Type*} [Zero α] (K : Kernels α) (R : Reader α)

/-- The copy of `initCommand`, without offsets. -/
def RegionCommand.blit (stack : ℤ → Ref) (c : RegionCommand) (out : ℤ → α) : ℤ → α :=
  (boxIndices c.size).foldl (fun out i => Function.update out
    (i 0 * (c.viewAt 0).stride 0 + i 1 * (c.viewAt 0).stride 1 + i 2 * (c.viewAt 0).stride 2)
    (R.value (c.operand stack 1)
      (i 0 * (c.viewAt 1).stride 0 + i 1 * (c.viewAt 1).stride 1 +
        i 2 * (c.viewAt 1).stride 2))) out

/-- One iteration of a copy that is combined with the output. -/
def RegionCommand.runFused (stack : ℤ → Ref) (c : RegionCommand) (fuse : ℕ) (iter : ℕ)
    (out : ℤ → α) : ℤ → α :=
  (boxIndices c.size).foldl (fun out i => Function.update out (c.target K R stack iter i)
    (K.binary (R.type (c.operand stack 0)) fuse (out (c.target K R stack iter i))
      (c.element K R stack iter 1 i))) out

def FusedLoop.run (inputs outputs : List Ref) (p : FusedLoop) (out : ℤ → α) : ℤ → α :=
  let stack (n : ℤ) : Ref :=
    if p.outputIndexes.contains n then outputs.getD (p.outputIndexes.idxOf n) .output
    else inputs.getD (p.inputIndexes.idxOf n) .output
  (List.range p.loopNumber).foldl (fun out iter =>
    if p.fuse < 0 then p.command.run K R stack iter out
    else p.command.runFused K R stack p.fuse.toNat iter out) (p.initCommand.blit R stack out)

end Run

/-! ### Geometry -/

/-- What geometry makes of the operator: regions of the output, or commands and a loop. -/
inductive ScatterBuffer
  | regions (regions : List (Region Ref)) (consts : List (List ℤ))
  | loop (b : CommandBuffer) (param : FusedLoop) (inputs : List Ref)

/-- The content of the output. -/
def ScatterBuffer.content {α : Type*} [Zero α] (K : Kernels α) (op : Op) (inputs : List Tensor)
    (output : Tensor) (start : Memory α) : ScatterBuffer → ℤ → α
  | .regions l consts => raster l (CommandBuffer.memory K { consts := consts } start)
  | .loop b param loopInputs =>
    let memory := runCommands K op inputs output b start
    param.run K (reader inputs output b memory) loopInputs [.output] (memory .output)

/-- The strides, from the size of the output on. -/
def scatterStrides (output : Tensor) (d : ℕ) : List ℤ :=
  ((List.range d).foldl (fun (count, strides) i =>
    let count := count / output.length i
    (count, strides ++ [(count : ℤ)])) (output.elementSize, [])).2

/-- The loop of `buildScatterND`; data without dimensions are repeated. -/
def scatterLoop (n s totalSize : ℕ) (scalar : Bool) (reduction : ℤ) : FusedLoop where
  initCommand := {
    op := .copy
    size := ![1, 1, totalSize]
    view := [{ stride := ![totalSize, totalSize, 1] },
      { stride := if scalar then ![0, 0, 0] else ![totalSize, totalSize, 1] }]
    indexes := [3, 2]
    iterIndexes := []
    steps := [] }
  command := {
    op := .copy
    size := ![1, 1, s]
    view := [{ stride := ![s, s, 1] }, { stride := ![s, s, 1] }]
    indexes := [3, 0]
    iterIndexes := [1, -1]
    steps := [1, s] }
  fuse := reduction
  loopNumber := n
  inputIndexes := [0, 1, 2]
  outputIndexes := [3]

/-- `buildScatterND`, for a buffer with the tensors `before`. -/
def buildScatterND (before : List Tensor) (consts : List (List ℤ)) (indices updates data : Ref)
    (scalar : Bool) (output : Tensor) (n d s totalSize : ℕ) (reduction : ℤ) : ScatterBuffer :=
  let base := before.length
  .loop
    { command := [
        -- [N, D] * [N, D] => [N, D]
        { op := .binary GeometryGatherND.mul, inputs := [.extra (base + 2), .extra (base + 1)],
          outputs := [.extra (base + 3)] },
        -- [N, D] => [N, 1]
        { op := .reduceSum, inputs := [.extra (base + 3)], outputs := [.extra (base + 4)] }]
      extras := before ++ [
        { GeometryGatherND.intTensor [d] with host := scatterStrides output d },
        -- [D] => [N, D]
        { GeometryGatherND.intTensor [n, d] with
          virtual := true
          regions := [strideRegion (.extra base) n d] },
        { GeometryGatherND.intTensor [n, d] with
          virtual := true
          regions := [makeRawAddressRef indices 0 (n * d)] },
        GeometryGatherND.intTensor [n, d],
        GeometryGatherND.intTensor [n, 1]]
      consts := consts }
    (scatterLoop n s totalSize scalar reduction) [updates, .extra (base + 4), data]

namespace GeometryScatterNd

/-- `reduction` is `-1` for an operator without parameter; data that are not given are a zero. -/
def onCompute (reduction : ℤ) (inputs : List Tensor) (output : Tensor) : ScatterBuffer :=
  let indices := inputs.getD 0 {}
  let updates := inputs.getD 1 {}
  let data : Ref × Tensor :=
    if inputs.length = 4 then (.input 3, inputs.getD 3 {}) else (.const 0, {})
  let N := indices.shape.dropLast.prod
  let D := indices.length (indices.dimensions - 1)
  let S := (updates.shape.drop D).prod
  if N = 0 ∨ S = 0 then .regions [data.2.makeFullSlice data.1] [[0]]
  else
    buildScatterND [] [[0]] (.input 0) (.input 1) data.1 (data.2.dimensions = 0) output N D S
      output.elementSize reduction

end GeometryScatterNd

namespace GeometryScatterElements

/-- The axis, counted from the front. -/
def axis (inputs : List Tensor) : ℕ :=
  let axis := if 4 ≤ inputs.length then (inputs.getD 3 {}).host.getD 0 0 else 0
  (if axis < 0 then (inputs.getD 0 {}).dimensions + axis else axis).toNat

/-- `flattenUpdate`. -/
def flattenUpdate (updates : Tensor) (n : ℕ) : Tensor where
  shape := [n]
  type := updates.type
  virtual := true
  regions := [makeRawAddressRef (.input 2) 0 n]

def onCompute (reduction : ℤ) (inputs : List Tensor) (output : Tensor) : ScatterBuffer :=
  let data := inputs.getD 0 {}
  let indices := inputs.getD 1 {}
  let D := data.dimensions
  let N := indices.elementSize
  if N = 0 then .regions [data.makeFullSlice (.input 0)] []
  else
    buildScatterND [flattenIndice N, flattenUpdate (inputs.getD 2 {}) N,
        newIndice (.extra 0) (axis inputs) D N]
      (reindexConsts indices.shape (axis inputs) D) (.extra 2) (.extra 1) (.input 0)
      (data.dimensions = 0) output N D 1 output.elementSize reduction

end GeometryScatterElements

/-! ### The loop -/

section Loop

variable {α : Type*} [Zero α] {K : Kernels α} {R : Reader α}

/-- What an update does to an element; a negative reduction is none. -/
def combineWith (K : Kernels α) (type : Resize.DataType) (reduction : ℤ) : α → α → α :=
  if reduction < 0 then fun _ u => u else K.binary type reduction.toNat

theorem boxIndices_flat (S : ℕ) :
    boxIndices ![1, 1, (S : ℤ)] = (List.range S).map fun x : ℕ => ![0, 0, (x : ℤ)] := by
  simp [boxIndices]

omit [Zero α] in
/-- Consecutive elements are combined one by one. -/
theorem foldl_update_range (f : α → ℕ → α) (dst : ℤ) (S : ℕ) (out : ℤ → α) (o : ℤ) :
    (List.range S).foldl
        (fun out (x : ℕ) => Function.update out (dst + x) (f (out (dst + x)) x)) out o =
      if dst ≤ o ∧ o < dst + S then f (out o) (o - dst).toNat else out o := by
  induction S with
  | zero =>
    rw [if_neg (by omega)]
    rfl
  | succ S ih =>
    rw [List.range_succ, List.foldl_append, List.foldl_cons, List.foldl_nil]
    by_cases h : o = dst + S
    · subst h
      rw [Function.update_self, ih, if_neg (by omega), if_pos (by omega), add_sub_cancel_left,
        Int.toNat_natCast]
    · rw [Function.update_of_ne h, ih]
      refine if_congr ?_ rfl rfl
      push_cast
      omega

omit [Zero α] in
theorem runFused_flat {stack : ℤ → Ref} {c : RegionCommand} {S : ℕ} {fuse : ℕ}
    (hsize : c.size = ![1, 1, (S : ℤ)]) (h₀ : (c.viewAt 0).stride 2 = 1)
    (h₁ : (c.viewAt 1).stride 2 = 1) (iter : ℕ) (out : ℤ → α) (o : ℤ) :
    c.runFused K R stack fuse iter out o =
      if c.offset K R stack iter 0 ≤ o ∧ o < c.offset K R stack iter 0 + S then
        K.binary (R.type (c.operand stack 0)) fuse (out o) (R.value (c.operand stack 1)
          (c.offset K R stack iter 1 + (o - c.offset K R stack iter 0)))
      else out o := by
  have hbox : ∀ x ∈ List.range S, InBox ![1, 1, (S : ℤ)] ![0, 0, (x : ℤ)] := fun x hx =>
    inBox_flat.2 ⟨rfl, rfl, Int.natCast_nonneg x, Int.ofNat_lt.2 (List.mem_range.1 hx)⟩
  have hfold : c.runFused K R stack fuse iter out = (List.range S).foldl (fun out (x : ℕ) =>
      Function.update out (c.offset K R stack iter 0 + x)
        (K.binary (R.type (c.operand stack 0)) fuse (out (c.offset K R stack iter 0 + x))
          (R.value (c.operand stack 1) (c.offset K R stack iter 1 + x)))) out := by
    rw [RegionCommand.runFused, hsize, boxIndices_flat, List.foldl_map]
    refine List.foldl_ext _ _ _ fun out x hx => ?_
    rw [target_flat h₀ iter (hbox x hx), element_flat h₁ iter (hbox x hx)]
    rfl
  rw [hfold, foldl_update_range fun a x => K.binary (R.type (c.operand stack 0)) fuse a
    (R.value (c.operand stack 1) (c.offset K R stack iter 1 + x))]
  split_ifs with h
  · rw [Int.toNat_of_nonneg (sub_nonneg.2 h.1)]
  · rfl

omit [Zero α] in
/-- The output starts as a copy of the data. -/
theorem blit_flat {stack : ℤ → Ref} {c : RegionCommand} {S : ℕ} {near : Fin 3 → ℤ}
    (hsize : c.size = ![1, 1, (S : ℤ)]) (h₀ : (c.viewAt 0).stride 2 = 1)
    (h₁ : (c.viewAt 1).stride = near) (out : ℤ → α) {o : ℤ} (ho : 0 ≤ o ∧ o < S) :
    c.blit R stack out o = R.value (c.operand stack 1) (o * near 2) := by
  rw [RegionCommand.blit, hsize, boxIndices_flat, List.foldl_map]
  refine Lib.foldl_update_of_agree _ _ _ (fun x _ hxo => ?_) out (.inl ?_)
  · simp only [Matrix.cons_val, h₀, zero_mul, zero_add, mul_one] at hxo ⊢
    rw [hxo, h₁]
  · refine ⟨o.toNat, List.mem_range.2 (by omega), ?_⟩
    simp only [Matrix.cons_val, h₀, zero_mul, zero_add, mul_one]
    omega

/-- What the loop takes for updates: a copy checks where a slice begins, and takes zeros. -/
def checked (R : Reader α) (updates : Ref) (s : ℕ) (x : ℤ) : α :=
  if x.toNat / s * s < R.size updates then R.value updates x else 0

theorem checked_slice {updates : Ref} {s : ℕ} (i : ℕ) {x : ℤ} (hx : 0 ≤ x ∧ x < s) :
    checked R updates s ((i * s : ℕ) + x) =
      if i * s < R.size updates then R.value updates ((i * s : ℕ) + x) else 0 := by
  have hdiv : (((i * s : ℕ) : ℤ) + x).toNat / s = i := by
    have hs : 0 < s := by omega
    rw [Int.toNat_add (Int.natCast_nonneg _) hx.1, Int.toNat_natCast, Nat.mul_comm,
      Nat.mul_add_div hs, Nat.div_eq_of_lt (by omega), Nat.add_zero]
  rw [checked, hdiv]

/-- **The loop updates slices of its size**, if all offsets lie in the output and a loop that
combines has updates for all of them. -/
theorem run_scatterLoop {n s totalSize : ℕ} {scalar : Bool} {reduction : ℤ}
    {updates rows data : Ref} {offset : ℕ → ℤ}
    (hoffset : ∀ i < n, K.toInt (R.value rows i) = offset i)
    (hdst : ∀ i < n, 0 ≤ offset i ∧ offset i < R.size .output)
    (hsrc : 0 ≤ reduction → n * s ≤ R.size updates)
    (out : ℤ → α) {o : ℤ} (ho : 0 ≤ o ∧ o < totalSize) :
    (scatterLoop n s totalSize scalar reduction).run K R [updates, rows, data] [.output] out o =
      scatter (combineWith K (R.type .output) reduction) n s offset (checked R updates s)
        (fun o => R.value data (if scalar then 0 else o)) o := by
  let p := scatterLoop n s totalSize scalar reduction
  let stack (k : ℤ) : Ref :=
    if p.outputIndexes.contains k then [Ref.output].getD (p.outputIndexes.idxOf k) .output
    else [updates, rows, data].getD (p.inputIndexes.idxOf k) .output
  have hoperand₀ : p.command.operand stack 0 = .output := rfl
  have hoperand₁ : p.command.operand stack 1 = updates := rfl
  have hsrc₁ : ∀ i, p.command.offset K R stack i 1 = ((i * s : ℕ) : ℤ) := by
    intro i
    show (i : ℤ) * s + 0 = _
    push_cast
    ring
  have hdst₀ : ∀ i < n, p.command.offset K R stack i 0 = offset i := by
    intro i hi
    show K.toInt (R.value rows i) * 1 + 0 = _
    rw [hoffset i hi]
    ring
  have hstep : ∀ i < n, ∀ out : ℤ → α,
      (if p.fuse < 0 then p.command.run K R stack i out
        else p.command.runFused K R stack p.fuse.toNat i out) =
      updateSlice (combineWith K (R.type .output) reduction) (offset i) s
        (fun x => checked R updates s ((i * s : ℕ) + x)) out := by
    intro i hi out
    rcases lt_or_ge reduction 0 with hfuse | hfuse
    · refine (if_pos hfuse).trans (funext fun o => ?_)
      rw [run_copy_flat rfl rfl rfl rfl, hdst₀ i hi, hsrc₁, hoperand₀, hoperand₁, updateSlice,
        combineWith, if_pos hfuse]
      by_cases ho : offset i ≤ o ∧ o < offset i + s
      · rw [if_pos ⟨hdst i hi, ho⟩, if_pos ho, checked_slice i (by omega)]
        exact if_congr (by omega) rfl rfl
      · rw [if_neg fun h => ho h.2, if_neg ho]
    · refine (if_neg (not_lt.2 hfuse)).trans (funext fun o => ?_)
      rw [runFused_flat rfl rfl rfl, hdst₀ i hi, hsrc₁, hoperand₀, hoperand₁, updateSlice,
        combineWith, if_neg (not_lt.2 hfuse)]
      by_cases ho : offset i ≤ o ∧ o < offset i + s
      · have hroom : i * s + s ≤ n * s := by
          rw [← Nat.succ_mul]
          exact Nat.mul_le_mul_right s hi
        have hsize := hsrc hfuse
        rw [if_pos ho, if_pos ho, checked_slice i (by omega), if_pos (by omega)]
        rfl
      · rw [if_neg ho, if_neg ho]
  have hrun : p.run K R [updates, rows, data] [.output] out =
      scatter (combineWith K (R.type .output) reduction) n s offset (checked R updates s)
        (p.initCommand.blit R stack out) :=
    List.foldl_ext _ _ _ fun out i hi => hstep i (List.mem_range.1 hi) out
  rw [hrun]
  refine scatter_congr ?_
  rw [blit_flat rfl rfl rfl out ho]
  cases scalar with
  | true => rw [if_pos rfl]; exact congrArg _ (mul_zero o)
  | false => rw [if_neg Bool.false_ne_true]; exact congrArg _ (mul_one o)

variable {op : Op} {inputs : List Tensor} {output : Tensor}

/-- **What `buildScatterND` computes**, whatever tensors hold the rows, the updates and the data. -/
theorem content_scatter {bound : ℤ} (hK : K.Exact bound) {start : Memory α}
    {before : List Tensor} {consts : List (List ℤ)} {rows updates data : Ref} {scalar : Bool}
    {n d s totalSize : ℕ} {reduction : ℤ} {b : CommandBuffer} {param : FusedLoop}
    {loopInputs : List Ref}
    (hb : buildScatterND before consts rows updates data scalar output n d s totalSize reduction =
      .loop b param loopInputs)
    {indices : ℤ → ℕ} {U D : ℤ → α}
    (hrows : ∀ o : ℕ, o < n * d →
      read inputs output b (b.memory K start) (b.depth - 1) rows o = K.ofInt (indices o))
    (hupdates : ∀ M : Memory α, (∀ i, M (.input i) = start (.input i)) → ∀ x : ℕ, x < n * s →
      checked (reader inputs output b M) updates s x = U x)
    (hdata : ∀ M : Memory α, (∀ i, M (.input i) = start (.input i)) →
      (∀ k, M (.const k) = b.memory K start (.const k)) → ∀ o : ℤ, 0 ≤ o → o < totalSize →
        read inputs output b M b.depth data (if scalar then 0 else o) = D o)
    {strides : List ℤ} (hstrides : scatterStrides output d = strides) (hlen : strides.length = d)
    (hnonneg : ∀ x ∈ strides, 0 ≤ x)
    (haddress : ∀ i < n, address strides (tuple indices d i) < output.rawSize)
    (hbound : output.rawSize ≤ bound)
    (hsrc : 0 ≤ reduction → n * s ≤ (tensorAt inputs output b updates).elementSize) {o : ℤ}
    (ho : 0 ≤ o ∧ o < totalSize) :
    (ScatterBuffer.loop b param loopInputs).content K op inputs output start o =
      scatter (combineWith K output.type reduction) n s
        (fun i => address strides (tuple indices d i)) U D o := by
  set base := before.length with hbase
  rw [buildScatterND, ScatterBuffer.loop.injEq] at hb
  obtain ⟨hb, rfl, rfl⟩ := hb
  have hextra : ∀ k, b.extras.getD (base + k) {} =
      [{ GeometryGatherND.intTensor [d] with host := scatterStrides output d },
        { GeometryGatherND.intTensor [n, d] with
          virtual := true
          regions := [strideRegion (.extra base) n d] },
        { GeometryGatherND.intTensor [n, d] with
          virtual := true
          regions := [makeRawAddressRef rows 0 (n * d)] },
        GeometryGatherND.intTensor [n, d], GeometryGatherND.intTensor [n, 1]].getD k {} := by
    intro k
    rw [← hb, hbase]
    exact List.getD_append_right _ _ _ _ (Nat.le_add_right _ _) |>.trans (by
      rw [Nat.add_sub_cancel_left])
  have htensors : RowTensors K inputs output b start (.extra (base + 2)) (.extra (base + 1))
      (base + 3) indices strides n d :=
    rowTensors_of_extras ((hextra 0).trans (by rw [hstrides]; rfl)) (hextra 2) (hextra 1) (hextra 3)
      hlen hrows
  obtain ⟨M, hrun, hframe, hsums⟩ := runCommands_rows op hK htensors hlen hnonneg
    (fun i hi => (haddress i hi).trans_le hbound) (by rw [← hb])
  have hnonneg' : ∀ i, 0 ≤ address strides (tuple indices d i) := by
    intro i
    rw [← sum_products indices hlen]
    exact List.sum_nonneg (products_nonneg indices hnonneg _ _)
  have hinput : ∀ i, M (.input i) = start (.input i) := fun i => hframe _ (by simp) (by simp)
  have hconst : ∀ k, M (.const k) = b.memory K start (.const k) :=
    fun k => hframe _ (by simp) (by simp)
  have hoffset : ∀ i < n, K.toInt ((reader inputs output b M).value (.extra (base + 4)) i) =
      address strides (tuple indices d i) := by
    intro i hi
    have hvalue : (reader inputs output b M).value (.extra (base + 4)) i =
        M (.extra (base + 4)) i := congrFun (read_plain (by rw [hextra]; rfl) M _) i
    rw [hvalue, hsums i hi, hK.toInt _ (hnonneg' i) ((haddress i hi).trans_le hbound)]
  have hdst : ∀ i < n, 0 ≤ address strides (tuple indices d i) ∧
      address strides (tuple indices d i) < (reader inputs output b M).size .output := by
    intro i hi
    have hle : output.rawSize ≤ (reader inputs output b M).size .output :=
      GeometryGatherND.rawSize_le_elementSize output
    have := haddress i hi
    exact ⟨hnonneg' i, by omega⟩
  show (scatterLoop n s totalSize scalar reduction).run K
    (reader inputs output b (runCommands K op inputs output b start)) _ _ _ o = _
  rw [hrun, List.foldl_nil, run_scatterLoop hoffset hdst hsrc _ ho]
  refine (congrFun (scatter_congr_updates (hupdates M hinput)) o).trans ?_
  exact scatter_congr (hdata M hinput hconst o ho.1 ho.2)

end Loop

/-! ### `ScatterND` -/

theorem scatterStrides_eq {output : Tensor} {d : ℕ} (hformat : output.dimensionFormat ≠ .nc4hw4)
    (hd : d ≤ output.dimensions) (hpos : ∀ n ∈ output.shape.take d, 0 < n) :
    scatterStrides output d = (steps output.shape).take d := by
  rw [scatterStrides, GeometryGatherElements.elementSize_eq hformat]
  exact congrArg Prod.snd (sliceStrides_eq hd hpos)

theorem address_take (l : List ℕ) {d : ℕ} {i : List ℕ} (hi : i.length = d) (hd : d ≤ l.length) :
    address ((steps l).take d) i = address (steps l) i := by
  have h := address_take_append l hi hd []
  rw [List.append_nil, address_nil, add_zero] at h
  exact h.symm

/-- The offset of a slice is a number of slices. -/
theorem address_eq_mul (l : List ℕ) {d : ℕ} {i : List ℕ} (hi : i ∈ coords (l.take d)) :
    address (steps l) i = address (steps (l.take d)) i * (l.drop d).prod := by
  have h := address_steps_append (length_of_mem_coords hi) (l.drop d) []
  rwa [List.append_nil, List.take_append_drop, address_nil, add_zero] at h

theorem length_tuple (indices : ℤ → ℕ) (d : ℕ) (n : ℤ) : (tuple indices d n).length = d := by
  rw [tuple, List.length_map, List.length_range]

namespace GeometryScatterNd

variable {α : Type*} [Zero α]

/-- The data, or zeros. -/
def dataContent (inputs : List Tensor) (start : Memory α) : ℤ → α :=
  if inputs.length = 4 then start (.input 3) else fun _ => 0

/-- Indices of `[dims.., D]`, updates of `[dims.., slice]`, and data of the shape of the output. -/
structure Valid (inputs : List Tensor) (output : Tensor) (indices : ℤ → ℕ) : Prop where
  data : inputs.length = 3 ∨ inputs.length = 4 ∧ (inputs.getD 3 {}).shape = output.shape
  rank : 0 < (inputs.getD 0 {}).dimensions
  depth_pos : 0 < (inputs.getD 0 {}).length ((inputs.getD 0 {}).dimensions - 1)
  depth : (inputs.getD 0 {}).length ((inputs.getD 0 {}).dimensions - 1) ≤ output.dimensions
  updates : (inputs.getD 1 {}).shape = (inputs.getD 0 {}).shape.dropLast ++
    output.shape.drop ((inputs.getD 0 {}).length ((inputs.getD 0 {}).dimensions - 1))
  updatesFormat : (inputs.getD 1 {}).dimensionFormat ≠ .nc4hw4
  format : output.dimensionFormat ≠ .nc4hw4
  inRange : ∀ n < (inputs.getD 0 {}).shape.dropLast.prod,
    tuple indices ((inputs.getD 0 {}).length ((inputs.getD 0 {}).dimensions - 1)) n ∈
      coords (output.shape.take ((inputs.getD 0 {}).length ((inputs.getD 0 {}).dimensions - 1)))

/-- For each row in order, the slice at its indices is replaced by, or combined with, the slice of
the updates. -/
def Exact (K : Kernels α) (inputs : List Tensor) (output : Tensor) (indices : ℤ → ℕ) : Prop :=
  let d := (inputs.getD 0 {}).length ((inputs.getD 0 {}).dimensions - 1)
  ∀ (op : Op) (reduction : ℤ) (start : Memory α),
    (∀ o, start (.input 0) o = K.ofInt (indices o)) → ∀ o : ℤ, 0 ≤ o → o < output.rawSize →
      (onCompute reduction inputs output).content K op inputs output start o =
        scatter (combineWith K output.type reduction) (inputs.getD 0 {}).shape.dropLast.prod
          (output.shape.drop d).prod (fun i => address (steps output.shape) (tuple indices d i))
          (start (.input 1)) (dataContent inputs start) o

section Nd

variable {K : Kernels α} {inputs : List Tensor} {output : Tensor} {indices : ℤ → ℕ}

/-- What the loop computes, with slices of the size that geometry takes. -/
theorem content_loop {bound : ℤ} (hK : K.Exact bound) (hbound : output.rawSize ≤ bound)
    (h : Valid inputs output indices) {n d s : ℕ} (hn : (inputs.getD 0 {}).shape.dropLast.prod = n)
    (hd : (inputs.getD 0 {}).length ((inputs.getD 0 {}).dimensions - 1) = d)
    (hs : ((inputs.getD 1 {}).shape.drop d).prod = s) (hpos : ¬ (n = 0 ∨ s = 0))
    (hslice : 0 < (output.shape.drop d).prod) (op : Op) {reduction : ℤ} {start : Memory α}
    (hstart : ∀ o, start (.input 0) o = K.ofInt (indices o))
    (hsrc : 0 ≤ reduction → n * s ≤ (inputs.getD 1 {}).rawSize) {o : ℤ}
    (ho : 0 ≤ o ∧ o < output.rawSize) :
    (onCompute reduction inputs output).content K op inputs output start o =
      scatter (combineWith K output.type reduction) n s
        (fun i => address (steps output.shape) (tuple indices d i))
        (fun x => if x.toNat / s * s < (inputs.getD 1 {}).rawSize then start (.input 1) x else 0)
        (dataContent inputs start) o := by
  have hdepth := h.depth
  have hinRange := h.inRange
  have hdpos := h.depth_pos
  rw [hd] at hdepth hinRange hdpos
  rw [hn] at hinRange
  have hsize := GeometryGatherElements.elementSize_eq h.format
  have hsizeUpdates := GeometryGatherElements.elementSize_eq h.updatesFormat
  have haddress : ∀ i < n,
      address ((steps output.shape).take d) (tuple indices d i) < output.rawSize := by
    intro i hi
    obtain ⟨m, hm, hmAddress⟩ := exists_address_eq (hinRange i hi)
    rw [address_take _ (length_tuple _ _ _) hdepth, address_eq_mul _ (hinRange i hi), hmAddress,
      Tensor.rawSize, ← List.prod_take_mul_prod_drop output.shape d]
    exact_mod_cast Nat.mul_lt_mul_of_pos_right hm hslice
  have hstrides : scatterStrides output d = (steps output.shape).take d := by
    refine scatterStrides_eq h.format hdepth fun k hk => ?_
    obtain ⟨j, hj, rfl⟩ := List.mem_iff_getElem.1 hk
    have hmem := hinRange 0 (Nat.pos_of_ne_zero fun hzero => hpos (.inl hzero))
    have hget := (mem_coords.1 hmem).get (i := j) (by rw [length_of_mem_coords hmem]; exact hj) hj
    exact Nat.zero_lt_of_lt hget
  -- the data, or the constant
  obtain ⟨data, scalar, hcompute, hdata⟩ : ∃ (data : Ref) (scalar : Bool),
      onCompute reduction inputs output =
        buildScatterND [] [[0]] (.input 0) (.input 1) data scalar output n d s output.rawSize
          reduction ∧
      ∀ (b : CommandBuffer) (M : Memory α), b.consts = [[0]] →
        (∀ i, M (.input i) = start (.input i)) →
        (∀ k, M (.const k) = b.memory K start (.const k)) → ∀ o : ℤ,
          read inputs output b M b.depth data (if scalar then 0 else o) =
            dataContent inputs start o := by
    rw [onCompute]
    simp only [hn, hd, hs, if_neg hpos, hsize]
    rcases h.data with hlen | ⟨hlen, hshape⟩
    · have hne : ¬ inputs.length = 4 := by omega
      refine ⟨.const 0, true, ?_, fun b M hconsts _ hconst o => ?_⟩
      · rw [if_neg hne]
        rfl
      · rw [dataContent, if_neg hne, if_pos rfl]
        show M (.const 0) 0 = 0
        rw [hconst]
        show K.ofInt ((b.consts.getD 0 []).getD 0 0) = 0
        rw [hconsts]
        exact hK.zero
    · refine ⟨.input 3, false, ?_, fun b M _ hinput _ o => ?_⟩
      · have hdim : (inputs.getD 3 {}).dimensions ≠ 0 := by
          have hlength : (inputs.getD 3 {}).dimensions = output.dimensions :=
            congrArg List.length hshape
          omega
        rw [if_pos hlen]
        simp only [decide_eq_false hdim]
        rfl
      · rw [dataContent, if_pos hlen, if_neg Bool.false_ne_true, read_input, hinput]
  rw [hcompute]
  have hrows : ∀ (b : CommandBuffer) (o : ℕ), o < n * d →
      read inputs output b (b.memory K start) (b.depth - 1) (.input 0) o = K.ofInt (indices o) := by
    intro b o _
    rw [read_input]
    exact hstart o
  let U (y : ℤ) : α :=
    if y.toNat / s * s < (inputs.getD 1 {}).rawSize then start (.input 1) y else 0
  have hupdates : ∀ (b : CommandBuffer) (M : Memory α), (∀ i, M (.input i) = start (.input i)) →
      ∀ x : ℕ, x < n * s → checked (reader inputs output b M) (.input 1) s x = U x := by
    intro b M hinput x _
    show (if (x : ℤ).toNat / s * s < (inputs.getD 1 {}).elementSize then
      read inputs output b M b.depth (.input 1) x else 0) = _
    rw [read_input, hinput, hsizeUpdates]
    rfl
  refine (content_scatter hK rfl (hrows _) (hupdates _)
    (fun M hinput hconst o _ _ => hdata _ M rfl hinput hconst o) hstrides ?_
    (fun x hx => steps_nonneg _ x (List.mem_of_mem_take hx)) haddress hbound (fun hr => ?_)
    ho).trans ?_
  · rw [List.length_take, length_steps]
    exact min_eq_left hdepth
  · exact (hsrc hr).trans (GeometryGatherND.rawSize_le_elementSize _)
  · simp only [address_take _ (length_tuple _ _ _) hdepth]
    rfl

/-- Regions whose origins hold zeros leave zeros. -/
theorem raster_eq_zero {regions : List (Region Ref)} {value : Ref → ℤ → α}
    (h : ∀ r ∈ regions, ∀ s, value r.origin s = 0) (o : ℤ) : raster regions value o = 0 := by
  by_cases hex : ∃ r ∈ regions, ∃ s, r.Copies s o
  · exact raster_of_agree hex fun r hr s _ => h r hr s
  · rw [raster, foldl_copy_of_not_copies _ _ _ fun r hr s hs => hex ⟨r, hr, s, hs⟩]

/-- Without rows the output is a full slice of the data. -/
theorem content_regions {bound : ℤ} (hK : K.Exact bound) (h : Valid inputs output indices)
    (hn : (inputs.getD 0 {}).shape.dropLast.prod = 0) (op : Op) (reduction : ℤ)
    (start : Memory α) {o : ℤ} (ho : 0 ≤ o ∧ o < output.rawSize) :
    (onCompute reduction inputs output).content K op inputs output start o =
      dataContent inputs start o := by
  rw [onCompute, hn]
  simp only [true_or, if_true, ScatterBuffer.content]
  rcases h.data with hlen | ⟨hlen, hshape⟩
  · have hne : ¬ inputs.length = 4 := by omega
    rw [dataContent, if_neg hne, if_neg hne]
    refine raster_eq_zero (fun r hr s => ?_) o
    rw [List.mem_singleton.1 hr]
    show K.ofInt ([0].getD s.toNat 0) = 0
    have hzero : ([0] : List ℤ).getD s.toNat 0 = 0 := by
      cases s.toNat <;> rfl
    rw [hzero]
    exact hK.zero
  · rw [dataContent, if_pos hlen, if_pos hlen]
    have hsize : (inputs.getD 3 {}).rawSize = output.rawSize := by
      rw [Tensor.rawSize, hshape, Tensor.rawSize]
    have hcopies := makeFullSlice_copies (inputs.getD 3 {}) (.input 3)
    refine raster_of_agree ⟨_, List.mem_singleton_self _, o, (hcopies _ _).2
      ⟨o.toNat, by omega, by omega, by omega⟩⟩ fun r hr s hs => ?_
    rw [List.mem_singleton.1 hr] at hs ⊢
    obtain ⟨n, -, rfl, rfl⟩ := (hcopies _ _).1 hs
    rfl

/-- A slice of the updates that is too large begins behind them in the last row. -/
theorem le_of_lt_slice (rows slice : List ℕ) (d : ℕ) (hrows : rows.prod ≠ 0)
    (hslice : slice.prod ≠ 0) (h : slice.prod < ((rows ++ slice).drop d).prod) :
    rows.prod * slice.prod ≤ (rows.prod - 1) * ((rows ++ slice).drop d).prod := by
  rw [List.drop_append] at h ⊢
  by_cases hd : rows.length ≤ d
  · rw [List.drop_eq_nil_of_le hd, List.nil_append] at h
    have hsplit := List.prod_take_mul_prod_drop slice (d - rows.length)
    have hle : (slice.drop (d - rows.length)).prod ≤ slice.prod := by
      rw [← hsplit]
      refine Nat.le_mul_of_pos_left _ (Nat.pos_of_ne_zero fun hzero => hslice ?_)
      rw [← hsplit, hzero, Nat.zero_mul]
    omega
  · have hzero : d - rows.length = 0 := by omega
    rw [hzero, List.drop_zero, List.prod_append] at h ⊢
    have hsplit := List.prod_take_mul_prod_drop rows d
    have hk : 2 ≤ (rows.drop d).prod := by
      by_contra hlt
      have hle : (rows.drop d).prod * slice.prod ≤ 1 * slice.prod :=
        Nat.mul_le_mul_right _ (by omega)
      omega
    have hpos : 0 < (rows.take d).prod := Nat.pos_of_ne_zero fun hzero => hrows (by
      rw [← hsplit, hzero, Nat.zero_mul])
    have hle : (rows.drop d).prod ≤ rows.prod := by
      rw [← hsplit]
      exact Nat.le_mul_of_pos_left _ hpos
    calc rows.prod * slice.prod ≤ (rows.prod - 1) * 2 * slice.prod :=
          Nat.mul_le_mul_right _ (by omega)
      _ ≤ (rows.prod - 1) * (rows.drop d).prod * slice.prod :=
          Nat.mul_le_mul_right _ (Nat.mul_le_mul_left _ hk)
      _ = (rows.prod - 1) * ((rows.drop d).prod * slice.prod) := Nat.mul_assoc _ _ _

/-- The indices, and one number for all updates. -/
def sameUpdates (K : Kernels α) (indices : ℤ → ℕ) (u : α) : Memory α
  | .input 0, o => K.ofInt (indices o)
  | .input 1, _ => u
  | _, _ => 0

theorem dataContent_sameUpdates {u : α} :
    dataContent inputs (sameUpdates K indices u) = fun _ => 0 := by
  rw [dataContent]
  split_ifs <;> rfl

section Sizes

variable {n d size : ℕ} (h : Valid inputs output indices)
  (hn : (inputs.getD 0 {}).shape.dropLast.prod = n)
  (hd : (inputs.getD 0 {}).length ((inputs.getD 0 {}).dimensions - 1) = d)
  (hsize : (output.shape.drop d).prod = size)

include hsize

theorem rawSize_eq : output.rawSize = (output.shape.take d).prod * size := by
  rw [Tensor.rawSize, ← List.prod_take_mul_prod_drop output.shape d, hsize]

/-- A slice of the data lies in the output. -/
theorem slice_le_rawSize {m : ℕ} (hm : m < (output.shape.take d).prod) :
    m * size + size ≤ output.rawSize := by
  rw [rawSize_eq hsize, ← Nat.succ_mul]
  exact Nat.mul_le_mul_right _ hm

include h hn hd

/-- A row of indices points to the start of a slice. -/
theorem exists_slice {i : ℕ} (hi : i < n) : ∃ m < (output.shape.take d).prod,
    address (steps output.shape) (tuple indices d i) = ((m * size : ℕ) : ℤ) := by
  have hinRange := h.inRange
  rw [hd, hn] at hinRange
  obtain ⟨m, hm, hmAddress⟩ := exists_address_eq (hinRange i hi)
  refine ⟨m, hm, (address_eq_mul _ (hinRange i hi)).trans ?_⟩
  rw [hmAddress, hsize]
  push_cast
  rfl

/-- There is an update for every element of a slice. -/
theorem rawSize_updates : (inputs.getD 1 {}).rawSize = n * size := by
  have hupdates := h.updates
  rw [hd] at hupdates
  rw [Tensor.rawSize, hupdates, List.prod_append, hn, hsize]

variable {bound : ℤ} {s : ℕ} {u : α}

omit h in
/-- Where all updates are `u`, this is asked for in every slice. -/
theorem content_of_exact (hexact : Exact K inputs output indices) {o : ℤ}
    (ho : 0 ≤ o ∧ o < output.rawSize)
    (hhit : ∃ i < n, address (steps output.shape) (tuple indices d i) ≤ o ∧
      o < address (steps output.shape) (tuple indices d i) + size) :
    (onCompute (-1) inputs output).content K .single inputs output (sameUpdates K indices u) o =
      u := by
  refine (hexact .single (-1) _ (fun _ => rfl) o ho.1 ho.2).trans ?_
  rw [hd, hn, hsize]
  exact scatter_of_exists (fun _ => rfl) hhit

/-- What the loop leaves there, with slices of size `s`. -/
theorem content_sameUpdates (hK : K.Exact bound) (hbound : output.rawSize ≤ bound)
    (hs : ((inputs.getD 1 {}).shape.drop d).prod = s) (hpos : ¬ (n = 0 ∨ s = 0)) (hne : size ≠ 0)
    {o : ℤ} (ho : 0 ≤ o ∧ o < output.rawSize) :
    (onCompute (-1) inputs output).content K .single inputs output (sameUpdates K indices u) o =
      scatter (fun _ u => u) n s (fun i => address (steps output.shape) (tuple indices d i))
        (fun x => if x.toNat / s * s < n * size then u else 0) (fun _ => 0) o := by
  refine (content_loop hK hbound h hn hd hs hpos (hsize ▸ Nat.pos_of_ne_zero hne) .single
    (fun _ => rfl) (fun hr => absurd hr (by decide)) ho).trans ?_
  rw [dataContent_sameUpdates, rawSize_updates h hn hd hsize]
  rfl

/-- With smaller slices the last element of the first row's slice is not written. -/
theorem not_exact_of_lt [Nontrivial α] (hK : K.Exact bound) (hbound : output.rawSize ≤ bound)
    (hs : ((inputs.getD 1 {}).shape.drop d).prod = s) (hpos : ¬ (n = 0 ∨ s = 0)) (hne : size ≠ 0)
    (hlt : s < size) : ¬ Exact K inputs output indices := by
  intro hexact
  obtain ⟨u, hu⟩ := exists_ne (0 : α)
  have hnpos : 0 < n := Nat.pos_of_ne_zero fun hzero => hpos (.inl hzero)
  obtain ⟨m, hm, hmOffset⟩ := exists_slice h hn hd hsize hnpos
  have hroom := slice_le_rawSize hsize hm
  have ho : (0 : ℤ) ≤ ((m * size + (size - 1) : ℕ) : ℤ) ∧
      ((m * size + (size - 1) : ℕ) : ℤ) < output.rawSize := by omega
  have hread := content_of_exact hn hd hsize (u := u) hexact ho
    ⟨0, hnpos, by rw [hmOffset]; omega⟩
  rw [content_sameUpdates h hn hd hsize hK hbound hs hpos hne ho,
    scatter_of_forall fun i hi hhit => ?_] at hread
  · exact hu hread.symm
  · obtain ⟨k, -, hk⟩ := exists_slice h hn hd hsize hi
    rw [hk] at hhit
    have hkm : k < m + 1 := by
      by_contra hcontra
      have := Nat.mul_le_mul_right size (not_lt.1 hcontra)
      rw [Nat.succ_mul] at this
      omega
    have hkm' := Nat.mul_le_mul_right size (Nat.lt_succ_iff.1 hkm)
    omega

/-- With larger ones the updates of the last row are taken from behind their end. -/
theorem not_exact_of_gt [Nontrivial α] (hK : K.Exact bound) (hbound : output.rawSize ≤ bound)
    (hs : ((inputs.getD 1 {}).shape.drop d).prod = s) (hpos : ¬ (n = 0 ∨ s = 0)) (hne : size ≠ 0)
    (hgt : size < s) : ¬ Exact K inputs output indices := by
  intro hexact
  obtain ⟨u, hu⟩ := exists_ne (0 : α)
  have hnpos : n ≠ 0 := fun hzero => hpos (.inl hzero)
  obtain ⟨l, rfl⟩ := Nat.exists_eq_succ_of_ne_zero hnpos
  obtain ⟨m, hm, hmOffset⟩ := exists_slice h hn hd hsize l.lt_succ_self
  have hroom := slice_le_rawSize hsize hm
  have ho : (0 : ℤ) ≤ ((m * size : ℕ) : ℤ) ∧ ((m * size : ℕ) : ℤ) < output.rawSize := by omega
  have hread := content_of_exact hn hd hsize (u := u) hexact ho
    ⟨l, l.lt_succ_self, by rw [hmOffset]; omega⟩
  have hupdates := h.updates
  rw [hd] at hupdates
  have hbehind := le_of_lt_slice (inputs.getD 0 {}).shape.dropLast (output.shape.drop d) d
    (by rw [hn]; exact hnpos) (by rw [hsize]; exact hne) (by rw [← hupdates, hsize, hs]; exact hgt)
  rw [hn, hsize, ← hupdates, hs, Nat.succ_sub_one] at hbehind
  have hzero : (((l * s : ℕ) : ℤ) + (((m * size : ℕ) : ℤ) -
      address (steps output.shape) (tuple indices d l))).toNat / s * s = l * s := by
    rw [hmOffset, sub_self, add_zero, Int.toNat_natCast, Nat.mul_div_cancel _ (by omega)]
  rw [content_sameUpdates h hn hd hsize hK hbound hs hpos hne ho, scatter_succ, updateSlice,
    if_pos (by rw [hmOffset]; omega), hzero, if_neg (not_lt.2 hbehind)] at hread
  exact hu hread.symm

end Sizes

/-- **The slices are right when they have the size of those of the data**, or there are none. -/
theorem exact_iff [Nontrivial α] {bound : ℤ} (hK : K.Exact bound) (hbound : output.rawSize ≤ bound)
    (h : Valid inputs output indices) {n d size : ℕ}
    (hn : (inputs.getD 0 {}).shape.dropLast.prod = n)
    (hd : (inputs.getD 0 {}).length ((inputs.getD 0 {}).dimensions - 1) = d)
    (hsize : (output.shape.drop d).prod = size) :
    Exact K inputs output indices ↔
      n = 0 ∨ size = 0 ∨ ((inputs.getD 1 {}).shape.drop d).prod = size := by
  have hprod := rawSize_updates h hn hd hsize
  constructor
  · intro hexact
    by_contra hcond
    obtain ⟨hne, hcond⟩ := not_or.1 hcond
    obtain ⟨hsizeNe, hslice⟩ := not_or.1 hcond
    have hsNe : ((inputs.getD 1 {}).shape.drop d).prod ≠ 0 := by
      intro hzero
      have hsplit := List.prod_take_mul_prod_drop (inputs.getD 1 {}).shape d
      rw [hzero, Nat.mul_zero] at hsplit
      exact (Nat.mul_ne_zero hne hsizeNe) (hprod ▸ hsplit.symm)
    have hpos := not_or.2 ⟨hne, hsNe⟩
    rcases lt_or_gt_of_ne hslice with hlt | hgt
    · exact not_exact_of_lt h hn hd hsize hK hbound rfl hpos hsizeNe hlt hexact
    · exact not_exact_of_gt h hn hd hsize hK hbound rfl hpos hsizeNe hgt hexact
  · intro hcond op reduction start hstart o ho hlt
    have hsizeNe : size ≠ 0 := by
      rintro rfl
      rw [rawSize_eq hsize, Nat.mul_zero] at hlt
      omega
    have hcond := (or_iff_right hsizeNe).1 (or_left_comm.1 hcond)
    rw [hd, hn, hsize]
    by_cases hzero : n = 0
    · rw [content_regions hK h (hn.trans hzero) op reduction start ⟨ho, hlt⟩, hzero]
      rfl
    · have hs := hcond.resolve_left hzero
      rw [content_loop hK hbound h hn hd hs (not_or.2 ⟨hzero, hsizeNe⟩)
        (hsize ▸ Nat.pos_of_ne_zero hsizeNe) op hstart (fun _ => hprod.ge) ⟨ho, hlt⟩]
      refine congrFun (scatter_congr_updates fun x hx => ?_) o
      refine if_pos ?_
      rw [Int.toNat_natCast, hprod]
      exact (Nat.div_mul_le_self x size).trans_lt hx

end Nd

end GeometryScatterNd

/-! ### `ScatterElements` -/

namespace GeometryScatterElements

/-- The coordinates of element `n`. -/
def position (shape : List ℕ) (n : ℕ) : List ℕ :=
  (List.range shape.length).map fun i => n / (shape.drop (i + 1)).prod % shape.getD i 1

/-- Indices with the rank of the data, whose positions lie in the data with their index on the
axis, and updates of the shape of the indices. -/
structure Valid (inputs : List Tensor) (output : Tensor) (indices : ℤ → ℕ) : Prop where
  depth_pos : 0 < (inputs.getD 0 {}).dimensions
  rank : (inputs.getD 1 {}).dimensions = (inputs.getD 0 {}).dimensions
  updates : (inputs.getD 2 {}).shape = (inputs.getD 1 {}).shape
  indicesFormat : (inputs.getD 1 {}).dimensionFormat ≠ .nc4hw4
  format : output.dimensionFormat ≠ .nc4hw4
  inRange : ∀ p ∈ coords (inputs.getD 1 {}).shape,
    p.set (axis inputs) (indices (address (steps (inputs.getD 1 {}).shape) p)) ∈
      coords (inputs.getD 0 {}).shape
  shape : output.shape = (inputs.getD 0 {}).shape

/-- For each position in order, the element with the position's index on the axis is replaced by, or
combined with, the element of the updates. -/
def Exact {α : Type*} [Zero α] (K : Kernels α) (inputs : List Tensor) (output : Tensor)
    (indices : ℤ → ℕ) : Prop :=
  let shape := (inputs.getD 1 {}).shape
  ∀ (op : Op) (reduction : ℤ) (start : Memory α),
    (∀ o, start (.input 1) o = K.ofInt (indices o)) → ∀ o : ℤ, 0 ≤ o → o < output.rawSize →
      (onCompute reduction inputs output).content K op inputs output start o =
        scatter (combineWith K output.type reduction) shape.prod 1
          (fun n => address (steps (inputs.getD 0 {}).shape)
            ((position shape n).set (axis inputs) (indices n)))
          (start (.input 2)) (start (.input 0)) o

variable {α : Type*} [Zero α] {K : Kernels α} {inputs : List Tensor} {output : Tensor}
  {indices : ℤ → ℕ}

theorem tuple_position (shape : List ℕ) (axis : ℕ) (indices : ℤ → ℕ) (n : ℕ) :
    tuple (rowEntry shape axis indices) shape.length n =
      (position shape n).set axis (indices n) := by
  refine List.ext_getElem (by simp [tuple, position]) fun i hi _ => ?_
  have hi : i < shape.length := by simpa [tuple] using hi
  simp only [tuple, position, List.getElem_map, List.getElem_range, List.getElem_set]
  have hrow := rowEntry_row axis indices hi n
  push_cast at hrow
  rw [hrow]
  exact if_congr eq_comm rfl rfl

theorem read_flattenUpdate {b : CommandBuffer} {k n : ℕ} {updates : Tensor}
    (hk : b.extras.getD k {} = flattenUpdate updates n) (M : Memory α) (depth : ℕ) {o : ℕ}
    (ho : o < n) : read inputs output b M (depth + 1) (.extra k) o = M (.input 2) o := by
  rw [read_virtual (by rw [hk]; rfl), hk]
  refine (raster_rawAddress ho).trans ?_
  rw [read_input]

theorem reader_flattenUpdate {b : CommandBuffer} {k n : ℕ} {updates : Tensor}
    (hk : b.extras.getD k {} = flattenUpdate updates n) (M : Memory α) {o : ℕ} (ho : o < n) :
    (reader inputs output b M).value (.extra k) o = M (.input 2) o :=
  read_flattenUpdate hk M b.extras.length ho

theorem exact_of_valid {bound : ℤ} (hK : K.Exact bound) (hbound : output.rawSize ≤ bound)
    (h : Valid inputs output indices) : Exact K inputs output indices := by
  intro op reduction start hstart o ho hlt
  set shape := (inputs.getD 1 {}).shape
  have hindicesSize := GeometryGatherElements.elementSize_eq h.indicesFormat
  have hsize := GeometryGatherElements.elementSize_eq h.format
  have hrank : (inputs.getD 0 {}).dimensions = shape.length := h.rank.symm
  have hshape := h.shape
  set data := inputs.getD 0 {}
  set a := axis inputs
  by_cases hn : shape.prod = 0
  · have hcompute : onCompute reduction inputs output =
        .regions [data.makeFullSlice (.input 0)] [] := by
      rw [onCompute]
      simp only [hindicesSize]
      exact if_pos hn
    rw [hcompute, hn]
    have hcopies := makeFullSlice_copies data (.input 0)
    have hrawSize : data.rawSize = output.rawSize := by
      rw [Tensor.rawSize, ← hshape, Tensor.rawSize]
    refine raster_of_agree ⟨_, List.mem_singleton_self _, o, (hcopies _ _).2
      ⟨o.toNat, by omega, by omega, by omega⟩⟩ fun r hr s hs => ?_
    rw [List.mem_singleton.1 hr] at hs ⊢
    obtain ⟨n, -, rfl, rfl⟩ := (hcopies _ _).1 hs
    rfl
  have hrow : ∀ i < shape.prod, tuple (rowEntry shape a indices) shape.length i ∈
      coords data.shape := by
    intro i hi
    obtain ⟨q, hq, hqAddress⟩ := exists_coords_address hi
    have hmem := h.inRange q hq
    rw [hqAddress] at hmem
    rwa [tuple_rowEntry hq hqAddress]
  have haddress : ∀ i < shape.prod,
      address (steps data.shape) (tuple (rowEntry shape a indices) shape.length i) <
        output.rawSize := by
    intro i hi
    obtain ⟨m, hm, hmAddress⟩ := exists_address_eq (hrow i hi)
    rw [hmAddress, Tensor.rawSize, hshape]
    exact Nat.cast_lt.2 hm
  have hstrides : scatterStrides output shape.length = steps data.shape := by
    have hd : data.dimensions ≤ output.dimensions := (congrArg List.length hshape).ge
    rw [← hrank, scatterStrides_eq h.format hd fun k hk => ?_, hshape]
    · exact List.take_of_length_le (length_steps _).le
    · rw [hshape] at hk
      obtain ⟨j, hj, rfl⟩ := List.mem_iff_getElem.1 (List.mem_of_mem_take hk)
      have hmem := hrow 0 (Nat.pos_of_ne_zero hn)
      have hget := (mem_coords.1 hmem).get (i := j) (by
        rw [length_of_mem_coords hmem]; exact hj) hj
      exact Nat.zero_lt_of_lt hget
  have hcompute : onCompute reduction inputs output =
      buildScatterND [flattenIndice shape.prod, flattenUpdate (inputs.getD 2 {}) shape.prod,
          newIndice (.extra 0) a shape.length shape.prod]
        (reindexConsts shape a shape.length) (.extra 2) (.extra 1) (.input 0) false output
        shape.prod shape.length 1 output.rawSize reduction := by
    rw [onCompute]
    simp only [hindicesSize, hsize, decide_eq_false h.depth_pos.ne']
    refine (if_neg hn).trans ?_
    rw [hrank]
    rfl
  rw [hcompute]
  simp only [← tuple_position]
  refine content_scatter hK rfl (fun o ho => read_newIndice rfl rfl rfl rfl hstart ho)
    (fun M hinput x hx => ?_) (fun M hinput _ o _ _ => ?_) hstrides ?_ (steps_nonneg _) haddress
    hbound (fun _ => ?_) ⟨ho, hlt⟩
  · have hx : x < shape.prod := by rwa [Nat.mul_one] at hx
    rw [checked, if_pos]
    · exact (reader_flattenUpdate rfl M hx).trans (congrFun (hinput 2) _)
    · show (x : ℤ).toNat / 1 * 1 < [shape.prod].prod
      rwa [Int.toNat_natCast, Nat.div_one, Nat.mul_one, List.prod_singleton]
  · rw [if_neg Bool.false_ne_true, read_input, hinput]
  · rw [length_steps]
    exact hrank
  · show shape.prod * 1 ≤ [shape.prod].prod
    rw [Nat.mul_one, List.prod_singleton]

end GeometryScatterElements

/-! ### Both operators -/

/-- One row of two indices into data of shape `[1, 1, 2]`. -/
def rowOfTwo : List Tensor :=
  [GeometryGatherND.intTensor [1, 2], { shape := [1, 2] }, { shape := [3] }]

theorem valid_rowOfTwo : GeometryScatterNd.Valid rowOfTwo { shape := [1, 1, 2] } fun _ => 0 :=
  ⟨.inl rfl, by decide, by decide, by decide, rfl, by decide, by decide, by decide⟩

/-- Rows of a square, given in reversed order. -/
def reversedRows : List Tensor :=
  [GeometryGatherND.intTensor [2, 1], { shape := [2, 2] }, { shape := [2] }, { shape := [2, 2] }]

/-- Elements of a square, given in reversed order. -/
def reversedElements : List Tensor :=
  [{ shape := [2, 2] }, GeometryGatherND.intTensor [1, 2], { shape := [1, 2] }]

theorem valid_reversedRows :
    GeometryScatterNd.Valid reversedRows { shape := [2, 2] } reversed :=
  ⟨.inr ⟨rfl, rfl⟩, by decide, by decide, by decide, rfl, by decide, by decide, by decide⟩

theorem valid_reversedElements :
    GeometryScatterElements.Valid reversedElements { shape := [2, 2] } reversed :=
  ⟨by decide, rfl, rfl, by decide, by decide, by decide, rfl⟩

end Mnn.Recompute
