import Mnn.Geometry.Binary
import Mnn.Lib.Run

/-!
# Recomputing the geometry of an operator

The geometry transform of `shapeComputeAndGeometryTransform`
(`source/geometry/GeometryComputerUtils.cpp`): at each resize the cached buffer is recomputed, or
cleared and computed.

* `SingleGeometryComputer`: the operators that only reshape;
* `State`, `Resize`, `resize`: the cached buffer over a sequence of resizes;
* `Accepted`: what the shape computer promises; `Fits`: what `onRecompute` does not check;
* `recompute_content`: **in a run whose steps fit, a buffer that `onRecompute` keeps denotes the
  same content as one that is computed afresh**; `stale_loop` shows a step that does not.
-/

namespace Mnn.Recompute

/-! ### `SingleGeometryComputer` -/

namespace SingleGeometryComputer

/-- `onCompute` into an empty buffer. -/
def onCompute (inputs : List Tensor) (output : Tensor) : CommandBuffer × Tensor :=
  ({}, { output with
    regions := [(inputs.getD 0 {}).makeFullSlice (.input 0)]
    virtual := true })

/-- The region of an earlier shape; its outer strides stay what they were. -/
def patch (input : Tensor) (r : Region Ref) : Region Ref where
  src := { offset := 0, stride := Function.update r.src.stride 2 1 }
  dst := { offset := 0, stride := Function.update r.dst.stride 2 1 }
  size := ![1, 1, input.rawSize]
  origin := .input 0

def onRecompute (inputs : List Tensor) (output : Tensor) (cmd : CommandBuffer) :
    Outcome (CommandBuffer × Tensor) :=
  match output.regions, (inputs.getD 0 {}).regions with
  | [r], [] =>
    .done (cmd, { output with regions := [patch (inputs.getD 0 {}) r], virtual := true })
  | _, _ => .refused

variable {α : Type*} [Zero α] {K : Kernels α} {inputs : List Tensor} {output : Tensor}

/-- The content of an output with one region that copies the whole input. -/
theorem content_flat {r : Region Ref} (horigin : r.origin = .input 0) {size : ℕ}
    (hcopies : ∀ s o, r.Copies s o ↔ ∃ n < size, o = n ∧ s = (n : ℕ)) (start : Memory α) {n : ℕ}
    (hn : n < size) :
    content K .single inputs { output with regions := [r], virtual := true } {} start n =
      start (.input 0) n := by
  refine (raster_of_copies (r := .input 0) (s := n) (by simpa using horigin) _
    (fun s' hs' => ?_) ⟨r, List.mem_cons_self, (hcopies _ _).2 ⟨n, hn, rfl, rfl⟩⟩).trans rfl
  obtain ⟨reg, hreg, hs'⟩ := hs'
  rw [List.mem_singleton] at hreg
  subst hreg
  obtain ⟨m, -, hm, rfl⟩ := (hcopies _ _).1 hs'
  rw [Int.ofNat_inj.1 hm]

theorem onRecompute_content {result : CommandBuffer × Tensor}
    (hresult : onRecompute inputs output {} = .done result) (start : Memory α) {n : ℕ}
    (hn : n < (inputs.getD 0 {}).rawSize) :
    content K .single inputs result.2 result.1 start n =
      content K .single inputs (onCompute inputs output).2 (onCompute inputs output).1 start n := by
  rw [onRecompute] at hresult
  split at hresult
  · cases hresult
    rw [content_flat rfl (copies_of_flat rfl ⟨rfl, rfl⟩ ⟨rfl, rfl⟩) start hn]
    exact (content_flat rfl (makeFullSlice_copies _ _) start hn).symm
  · cases hresult

end SingleGeometryComputer

/-! ### All operators -/

variable (ctx : Context)

/-- `onCompute` of the operator's computer. -/
def onCompute (op : Op) (inputs : List Tensor) (output : Tensor) : CommandBuffer × Tensor :=
  match op with
  | .matMul transposeA transposeB =>
    GeometryBatchMatMul.onCompute transposeA transposeB inputs output
  | .gather axis => GeometryGather.onCompute axis inputs output
  | .gatherND axis => GeometryGatherND.onCompute axis inputs output
  | .binary opType activationType =>
    GeometryBinary.onCompute ctx opType activationType inputs output
  | .single => SingleGeometryComputer.onCompute inputs output

/-- `onRecompute` of the operator's computer. -/
def onRecompute (op : Op) (inputs : List Tensor) (output : Tensor) (cmd : CommandBuffer) :
    Outcome (CommandBuffer × Tensor) :=
  match op with
  | .matMul transposeA transposeB =>
    GeometryBatchMatMul.onRecompute transposeA transposeB inputs output cmd
  | .gather axis => GeometryGather.onRecompute axis inputs output cmd
  | .gatherND axis => GeometryGatherND.onRecompute axis inputs output cmd
  | .binary _ _ => GeometryBinary.onRecompute ctx inputs output cmd
  | .single => SingleGeometryComputer.onRecompute inputs output cmd

/-- The cached buffer and the output as geometry left them. -/
structure State where
  buffer : CommandBuffer := {}
  output : Tensor := {}

/-- A resize: the inputs, and the output with its new shape. -/
structure Resize where
  inputs : List Tensor
  output : Tensor
  /-- `(!tempBuffer.hasWrap) && openCache`. -/
  openCache : Bool := true

/-- The geometry transform. -/
def resize (op : Op) (s : State) (r : Resize) : State :=
  let result :=
    if r.openCache then onRecompute ctx op r.inputs r.output s.buffer else .refused
  match result with
  | .done (buffer, output) => { buffer := buffer, output := output }
  | .refused =>
    let (buffer, output) := onCompute ctx op r.inputs r.output
    { buffer := buffer, output := output }
  -- the step does not return
  | .fails => s

/-- What comes from outside of the geometry computer: the operator keeps its number of inputs, the
shape computer gave the output its shape, and nobody else makes the output virtual. -/
structure Accepted (op : Op) (number : ℕ) (s : State) (r : Resize) : Prop where
  length : r.inputs.length = number
  output_virtual : r.output.virtual = true → s.output.virtual = true
  shape : match op with
    | .binary _ _ => GeometryBinary.ShapeComputed r.inputs r.output
    | .single => r.output.rawSize = (r.inputs.getD 0 {}).rawSize
    | _ => True

/-- What `onRecompute` does not check: that `BatchMatMul` keeps its kind of command, that `Gather`
would make a loop again, and that `BinaryOp` computes in the type that the input has. -/
def Fits (op : Op) (s : State) (r : Resize) : Prop :=
  match op with
  | .matMul _ _ => GeometryBatchMatMul.RecomputeFits r.inputs r.output s.buffer
  | .gather _ => s.buffer.command ≠ [] → ¬ GeometryGather.usesRaster r.inputs
  | .gatherND _ => True
  | .binary _ activationType => GeometryBinary.RecomputeFits ctx activationType r.inputs r.output
  | .single => True

/-- Resizes that are accepted, and fit where the cache is used. -/
def machine (op : Op) (number : ℕ) : Lib.Machine State Resize where
  Allowed s r := Accepted op number s r ∧ (r.openCache = true → Fits ctx op s r)
  step := resize ctx op

/-! ### Runs -/

/-- What the cached buffer holds. -/
def Cached (op : Op) (number : ℕ) (s : State) : Prop :=
  match op with
  | .matMul transposeA transposeB =>
    GeometryBatchMatMul.Cached transposeA transposeB (2 < number) s.buffer
  | .gather _ => GeometryGather.Cached s.buffer s.output
  | .gatherND _ => GeometryGatherND.Cached s.buffer s.output
  | .binary _ _ => GeometryBinary.Cached s.buffer ∧ s.output.virtual = false
  | .single => s.buffer = {}

variable {ctx} {op : Op} {number : ℕ} {s : State} {r : Resize}

theorem cached_start : Cached op number {} := by
  cases op with
  | matMul => exact .empty rfl
  | gather => exact .raster rfl
  | gatherND => exact .empty rfl
  | binary => exact ⟨.empty rfl, rfl⟩
  | single => rfl

theorem cached_onCompute (hacc : Accepted op number s r) (hs : Cached op number s) :
    Cached op number ⟨(onCompute ctx op r.inputs r.output).1,
      (onCompute ctx op r.inputs r.output).2⟩ := by
  cases op with
  | matMul => exact hacc.length ▸ GeometryBatchMatMul.cached_onCompute r.inputs r.output
  | gather axis => exact GeometryGather.cached_onCompute axis r.inputs r.output
  | gatherND axis => exact GeometryGatherND.cached_onCompute axis r.inputs r.output
  | binary opType activationType =>
    refine ⟨GeometryBinary.cached_onCompute, ?_⟩
    have hout : (GeometryBinary.onCompute ctx opType activationType r.inputs r.output).2 =
        r.output := by
      simp only [GeometryBinary.onCompute]
      split_ifs <;> rfl
    rw [onCompute, hout]
    exact not_virtual hacc.output_virtual hs.2
  | single => rfl

/-- The operators whose recomputed buffer is the computed one. -/
theorem onRecompute_eq (hop : (∀ t a, op ≠ .binary t a) ∧ op ≠ .single)
    (hacc : Accepted op number s r) (hfits : Fits ctx op s r) (hs : Cached op number s) :
    onRecompute ctx op r.inputs r.output s.buffer = .refused ∨
      onRecompute ctx op r.inputs r.output s.buffer =
        .done (onCompute ctx op r.inputs r.output) := by
  cases op with
  | matMul => exact GeometryBatchMatMul.onRecompute_eq (hacc.length ▸ hs) hfits
  | gather => exact GeometryGather.onRecompute_eq hs hacc.output_virtual hfits
  | gatherND => exact GeometryGatherND.onRecompute_eq hs hacc.output_virtual
  | binary t a => exact absurd rfl (hop.1 t a)
  | single => exact absurd rfl hop.2

/-- What a kept buffer is again. -/
theorem cached_onRecompute (hacc : Accepted op number s r) (hfits : Fits ctx op s r)
    (hs : Cached op number s) {result : CommandBuffer × Tensor}
    (hresult : onRecompute ctx op r.inputs r.output s.buffer = .done result) :
    Cached op number ⟨result.1, result.2⟩ := by
  have key : (∀ t a, op ≠ .binary t a) ∧ op ≠ .single → Cached op number ⟨result.1, result.2⟩ := by
    intro hop
    rcases onRecompute_eq hop hacc hfits hs with href | hdone
    · rw [href] at hresult
      cases hresult
    · rw [hdone] at hresult
      cases hresult
      exact cached_onCompute hacc hs
  cases op with
  | matMul => exact key ⟨nofun, nofun⟩
  | gather => exact key ⟨nofun, nofun⟩
  | gatherND => exact key ⟨nofun, nofun⟩
  | binary t a =>
    refine ⟨GeometryBinary.cached_onRecompute hs.1 hresult, ?_⟩
    obtain ⟨extras, hout⟩ : ∃ extras, result = (extras, r.output) := by
      rcases GeometryBinary.onRecompute_cases hs.1 with href | ⟨refs, extras, hlen, hb⟩
      · rw [onRecompute, href] at hresult
        cases hresult
      · rw [onRecompute, hb, GeometryBinary.onRecompute_single hlen] at hresult
        cases hresult
        exact ⟨_, rfl⟩
    rw [hout]
    exact not_virtual hacc.output_virtual hs.2
  | single =>
    rw [onRecompute, SingleGeometryComputer.onRecompute] at hresult
    split at hresult
    · cases hresult
      exact hs
    · cases hresult

/-- `onRecompute` returns. -/
theorem onRecompute_ne_fails (hacc : Accepted op number s r) (hfits : Fits ctx op s r)
    (hs : Cached op number s) : onRecompute ctx op r.inputs r.output s.buffer ≠ .fails := by
  have key : (∀ t a, op ≠ .binary t a) ∧ op ≠ .single →
      onRecompute ctx op r.inputs r.output s.buffer ≠ .fails := by
    intro hop
    rcases onRecompute_eq hop hacc hfits hs with href | hdone
    · rw [href]; exact nofun
    · rw [hdone]; exact nofun
  cases op with
  | matMul => exact key ⟨nofun, nofun⟩
  | gather => exact key ⟨nofun, nofun⟩
  | gatherND => exact key ⟨nofun, nofun⟩
  | binary t a =>
    rw [onRecompute]
    rcases GeometryBinary.onRecompute_cases hs.1 with href | ⟨refs, extras, hlen, hb⟩
    · rw [href]; exact nofun
    · rw [hb, GeometryBinary.onRecompute_single hlen]; exact nofun
  | single =>
    rw [onRecompute, SingleGeometryComputer.onRecompute]
    split <;> exact nofun

/-- One resize keeps what the cached buffer holds. -/
theorem cached_step (hallowed : (machine ctx op number).Allowed s r) (hs : Cached op number s) :
    Cached op number (resize ctx op s r) := by
  obtain ⟨hacc, hfits⟩ := hallowed
  cases hopen : r.openCache with
  | false =>
    simp only [resize, hopen, Bool.false_eq_true, if_false]
    exact cached_onCompute hacc hs
  | true =>
    simp only [resize, hopen, if_true]
    cases hresult : onRecompute ctx op r.inputs r.output s.buffer with
    | refused => exact cached_onCompute hacc hs
    | done result => exact cached_onRecompute hacc (hfits hopen) hs hresult
    | fails => exact hs

theorem cached_run {rs : List Resize} (h : Lib.Run (machine ctx op number) {} rs s) :
    Cached op number s :=
  h.invariant (fun _ _ hs hallowed => cached_step hallowed hs) cached_start

/-- **In a run whose steps fit, `onRecompute` returns, and a buffer that it keeps denotes the same
content as one that is computed afresh.** -/
theorem recompute_content {rs : List Resize} (h : Lib.Run (machine ctx op number) {} rs s)
    (hacc : Accepted op number s r) (hfits : Fits ctx op s r) :
    onRecompute ctx op r.inputs r.output s.buffer ≠ .fails ∧
      ∀ result, onRecompute ctx op r.inputs r.output s.buffer = .done result →
        ∀ {α : Type*} [Zero α] (K : Kernels α) (start : Memory α), ∀ n < r.output.rawSize,
          content K op r.inputs result.2 result.1 start n =
            content K op r.inputs (onCompute ctx op r.inputs r.output).2
              (onCompute ctx op r.inputs r.output).1 start n := by
  have hs := cached_run h
  refine ⟨onRecompute_ne_fails hacc hfits hs, fun result hresult α _ K start n hn => ?_⟩
  have key : (∀ t a, op ≠ .binary t a) ∧ op ≠ .single →
      content K op r.inputs result.2 result.1 start n =
        content K op r.inputs (onCompute ctx op r.inputs r.output).2
          (onCompute ctx op r.inputs r.output).1 start n := by
    intro hop
    rcases onRecompute_eq hop hacc hfits hs with href | hdone
    · rw [href] at hresult
      cases hresult
    · rw [hdone] at hresult
      cases hresult
      rfl
  cases op with
  | matMul => exact key ⟨nofun, nofun⟩
  | gather => exact key ⟨nofun, nofun⟩
  | gatherND => exact key ⟨nofun, nofun⟩
  | binary t a =>
    exact GeometryBinary.onRecompute_content K (not_virtual hacc.output_virtual hs.2) hacc.shape
      hfits hs.1 hresult start hn
  | single =>
    have hshape : r.output.rawSize = (r.inputs.getD 0 {}).rawSize := hacc.shape
    rw [onRecompute, hs] at hresult
    exact SingleGeometryComputer.onRecompute_content hresult start (hshape ▸ hn)

/-! ### Concrete runs -/

/-- Integer arithmetic. -/
def intKernels : Kernels ℤ where
  binary _ _ x y := x * y
  activation _ x := x
  dot l bias := (l.map fun p => p.1 * p.2).sum + bias.getD 0
  sum := List.sum
  ofInt := id
  toInt := id

/-- Two matrices for a product with the given output. -/
def matrices (shape0 shape1 output : List ℕ) : Resize where
  inputs := [{ shape := shape0 }, { shape := shape1 }]
  output := { shape := output }

theorem recompute_content_batches :
    let s := resize {} (.matMul false false) {} (matrices [2, 1, 1] [2, 1, 1] [2, 1, 1])
    let r := matrices [3, 2, 1] [3, 1, 2] [3, 2, 2]
    onRecompute {} (.matMul false false) r.inputs r.output s.buffer ≠ .fails ∧
      ∀ result, onRecompute {} (.matMul false false) r.inputs r.output s.buffer = .done result →
        ∀ {α : Type} [Zero α] (K : Kernels α) (start : Memory α), ∀ n < r.output.rawSize,
          content K (.matMul false false) r.inputs result.2 result.1 start n =
            content K (.matMul false false) r.inputs
              (onCompute {} (.matMul false false) r.inputs r.output).2
              (onCompute {} (.matMul false false) r.inputs r.output).1 start n := by
  have hrun : Lib.Run (machine {} (.matMul false false) 2) {}
      [matrices [2, 1, 1] [2, 1, 1] [2, 1, 1]]
      (resize {} (.matMul false false) {} (matrices [2, 1, 1] [2, 1, 1] [2, 1, 1])) :=
    .cons ⟨⟨rfl, nofun, trivial⟩, fun _ => nofun⟩ (.nil _)
  refine recompute_content hrun ⟨rfl, nofun, trivial⟩ ?_
  intro first hfirst _ _ _ _ _
  cases hfirst
  exact ⟨rfl, by decide, fun _ => by decide⟩

/-- A loop over two batches that is kept for a product of two matrices. -/
theorem stale_loop :
    let s := resize {} (.matMul false false) {} (matrices [2, 1, 1] [2, 1, 1] [2, 1, 1])
    let r := matrices [2, 2] [2, 2] [2, 2]
    Accepted (.matMul false false) 2 {} (matrices [2, 1, 1] [2, 1, 1] [2, 1, 1]) ∧
      Accepted (.matMul false false) 2 s r ∧
      ∃ result, onRecompute {} (.matMul false false) r.inputs r.output s.buffer = .done result ∧
        content intKernels (.matMul false false) r.inputs result.2 result.1 (fun _ o => o) 0 ≠
          content intKernels (.matMul false false) r.inputs
            (onCompute {} (.matMul false false) r.inputs r.output).2
            (onCompute {} (.matMul false false) r.inputs r.output).1 (fun _ o => o) 0 := by
  refine ⟨⟨rfl, nofun, trivial⟩, ⟨rfl, nofun, trivial⟩, _, rfl, ?_⟩
  decide

end Mnn.Recompute
