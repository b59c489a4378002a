import Mnn.Lib.Buffer
import Mnn.Lib.Loops
import Mnn.Lib.Run

/-!
# Attention masks and positions

`Llm::gen_attention_mask` and `Llm::gen_position_ids`, with the variables that `Llm::load` makes for
one token and for the drafts (`transformers/llm/engine/src/llm.cpp`).

* `Var`: a variable of `_Input`, whose elements are not there until they are written;
* `genAttentionMask`, `genPositionIds`, `load`: the code;
* `Var.Masks`, `Var.Holds`: masks plane by plane, and a list of numbers;
* `fillRows_spec`: **rows that are written one after the other**;
* `Cached`: the invariant of the variables that are kept between the calls, `run_cached`;
* `generated_right`: **masks and positions in every state that a run reaches**.
-/

namespace Mnn.AttentionMask

open Lib

/-! ### The code -/

/-- `attention_mask` of the configuration; every other text is treated as `int`. -/
inductive MaskType
  | float | glm | glm2 | int
  deriving DecidableEq

/-- `attention_type` of the configuration. -/
inductive AttentionType
  | full | sliding | mix
  deriving DecidableEq

/-- The options that masks and positions depend on. -/
structure MaskConfig where
  attentionMask : MaskType := .int
  attentionType : AttentionType := .full
  slidingWindow : ℤ := 0
  reuseKv : Bool := false

/-- The numbers in masks and positions: `std::numeric_limits<float>::lowest()`, and integers. -/
inductive Scalar
  | lowest
  | int (n : ℤ)
  deriving DecidableEq

inductive Halide
  | float | int
  deriving DecidableEq

/-- A variable; an element is `none` until it is written. -/
structure Var where
  dim : List ℕ
  type : Halide
  host : Buffer (Option Scalar)

/-- `_Input`. -/
def input (dim : List ℕ) (type : Halide) : Var := ⟨dim, type, dim.prod, fun _ => none⟩

/-- `ptr[base + i] = f(i)` for `i < n`. -/
def fill (base n : ℕ) (f : ℕ → Scalar) (b : Buffer (Option Scalar)) :
    Option (Buffer (Option Scalar)) :=
  (List.range n).foldlM (fun b i => b.write (base + i) 1 fun _ => some (f i)) b

/-- `ptr[base + stride * i + j] = f(i, j)` for `i < rows` and `j < cols`. -/
def fillRows (base stride rows cols : ℕ) (f : ℕ → ℕ → Scalar) (b : Buffer (Option Scalar)) :
    Option (Buffer (Option Scalar)) :=
  (List.range rows).foldlM (fun b i => fill (base + stride * i) cols (f i) b) b

/-- A masked element is the least number. -/
def additive (masked : Bool) : Scalar := if masked then .lowest else .int 0

/-- A masked element is `1`. -/
def flagged (masked : Bool) : Scalar := if masked then .int 1 else .int 0

/-- An element that is not masked is `1`. -/
def admitted (masked : Bool) : Scalar := if masked then .int 0 else .int 1

/-- The mask of `n` tokens among themselves. -/
def squareMask (n : ℕ) : Option Var := do
  let v := input [1, 1, n, n] .float
  let host ← fillRows 0 n n n (fun i j => additive (decide (i < j))) v.host
  return { v with host }

/-- The full and the sliding mask. -/
def mixMask (window : ℤ) (allSeqLen seqLen : ℕ) : Option Var := do
  let kvSeqLen := allSeqLen + seqLen
  let v := input [2, 1, 1, seqLen, kvSeqLen] .float
  let queryPosOffset := kvSeqLen - seqLen
  let host ← fillRows 0 kvSeqLen seqLen kvSeqLen
    (fun i j => additive (decide (i + queryPosOffset < j))) v.host
  let host ← fillRows (seqLen * kvSeqLen) kvSeqLen seqLen kvSeqLen (fun i j =>
    additive (!decide (j ≤ i + queryPosOffset ∧
      ((i + queryPosOffset : ℕ) : ℤ) - window < j))) host
  return { v with host }

/-- The masks of integers. -/
def intMask (type : MaskType) (allSeqLen seqLen : ℕ) : Option Var := do
  let kvSeqLen := allSeqLen + seqLen
  let v := input [1, 1, seqLen, kvSeqLen] .int
  if type = .glm then
    let host ← fill 0 (seqLen * kvSeqLen) (fun _ => .int 0) v.host
    -- from `i = 1` on
    let host ← (List.range (seqLen - 1)).foldlM (fun b i =>
      b.write (seqLen * (i + 1) - 1) 1 fun _ => some (.int 1)) host
    return { v with host }
  else
    -- the stride is `seqLen` here
    let host ← fillRows 0 seqLen seqLen kvSeqLen (fun i j =>
      if type = .glm2 then flagged (decide (i + allSeqLen < j))
      else admitted (decide (i + allSeqLen < j))) v.host
    return { v with host }

/-- `needNewVar`. -/
def needNewVar (var : Option Var) (axis seqLen kvSeqLen : ℕ) : Bool :=
  match var with
  | none => true
  | some v => v.dim[axis]? != some seqLen || kvSeqLen != 0 && v.dim[axis + 1]? != some kvSeqLen

/-- The part of `Llm` that masks and positions are made from, and the variables it keeps. -/
structure MaskState where
  config : MaskConfig
  allSeqLen : ℕ := 0
  genSeqLen : ℕ := 0
  mDraftLength : ℕ
  attentionMask : Option Var := none
  positionIds : Option Var := none
  mAttentionMaskVarVec : List Var
  mPositionIdsVarVec : List Var

/-- `Llm::load`, where the masks and positions are concerned; `inSpec` is whether drafts are
verified. -/
def load (config : MaskConfig) (inSpec : Bool) (draftPredictLength : ℕ) : Option MaskState := do
  let mDraftLength := if inSpec then draftPredictLength else 4
  let lengths := if inSpec then [1, mDraftLength + 1] else [1]
  let masks ← lengths.mapM squareMask
  return { config, mDraftLength, mAttentionMaskVarVec := masks
           mPositionIdsVarVec := lengths.map fun index => input [index] .int }

namespace MaskState

/-- `Llm::gen_attention_mask`: the mask, and the state after the call. -/
def genAttentionMask (s : MaskState) (seqLen : ℕ) : Option (Var × MaskState) :=
  let kvSeqLen := s.allSeqLen + seqLen
  if s.config.attentionMask = .float then
    if s.config.attentionType = .mix then do
      let v ← mixMask s.config.slidingWindow s.allSeqLen seqLen
      return (v, { s with attentionMask := some v })
    else if 0 < s.mAttentionMaskVarVec.length ∧ seqLen = 1 then do
      return (← s.mAttentionMaskVarVec[0]?, s)
    else if 1 < s.mAttentionMaskVarVec.length ∧ seqLen = s.mDraftLength then do
      return (← s.mAttentionMaskVarVec[1]?, s)
    else do
      let v ← squareMask seqLen
      return (v, { s with attentionMask := some v })
  else if needNewVar s.attentionMask 2 seqLen kvSeqLen then do
    let v ← intMask s.config.attentionMask s.allSeqLen seqLen
    return (v, { s with attentionMask := some v })
  else do
    return (← s.attentionMask, s)

/-- The variable that the positions of ChatGLM are written to. -/
def glmVar (s : MaskState) (seqLen : ℕ) : Option Var :=
  if needNewVar s.positionIds 2 seqLen 0 then some (input [1, 2, seqLen] .int) else s.positionIds

/-- The positions of ChatGLM, in two rows. -/
def glmPositionIds (s : MaskState) (seqLen : ℕ) (b : Buffer (Option Scalar)) :
    Option (Buffer (Option Scalar)) :=
  if seqLen = 1 then do
    let b ← b.write 0 1 fun _ => some (.int (s.allSeqLen - s.genSeqLen - 2))
    b.write 1 1 fun _ => some (.int (s.genSeqLen + 1))
  else do
    let b ← (List.range (seqLen - 1)).foldlM (fun b i => do
      let b ← b.write i 1 fun _ => some (.int i)
      b.write (seqLen + i) 1 fun _ => some (.int 0)) b
    let b ← b.write (seqLen - 1) 1 fun _ => some (.int (seqLen - 2))
    b.write (2 * seqLen - 1) 1 fun _ => some (.int 1)

/-- The position of one token. -/
def onePosition (s : MaskState) : ℤ :=
  if s.config.attentionMask = .glm2 then s.genSeqLen else s.allSeqLen

/-- Writing `n` positions from `allSeqLen` on. -/
def countPositions (s : MaskState) (n : ℕ) (v : Var) : Option Var := do
  let host ← fill 0 n (fun i => .int (i + s.allSeqLen)) v.host
  return { v with host }

/-- `Llm::gen_position_ids`: the positions, and the state after the call. -/
def genPositionIds (s : MaskState) (seqLen : ℕ) : Option (Var × MaskState) :=
  if s.config.attentionMask = .glm then do
    let v ← s.glmVar seqLen
    let host ← s.glmPositionIds seqLen v.host
    return ({ v with host }, { s with positionIds := some { v with host } })
  else if seqLen = 1 then do
    let v ← s.mPositionIdsVarVec[0]?
    let host ← v.host.write 0 1 fun _ => some (.int s.onePosition)
    return ({ v with host },
      { s with mPositionIdsVarVec := s.mPositionIdsVarVec.set 0 { v with host } })
  else if 1 < s.mPositionIdsVarVec.length ∧ seqLen = s.mDraftLength then do
    let v ← s.countPositions seqLen (← s.mPositionIdsVarVec[1]?)
    return (v, { s with mPositionIdsVarVec := s.mPositionIdsVarVec.set 1 v })
  else do
    -- more than one token
    let v ← s.countPositions seqLen (input [seqLen] .int)
    return (v, { s with positionIds := some v })

end MaskState

/-- What changes the state between two forwards, and the two calls of a forward. -/
inductive MaskOp
  | genAttentionMask (seqLen : ℕ)
  | genPositionIds (seqLen : ℕ)
  | updateContext (seqLen genLen : ℕ)
  | generateInit
  | reset
  | tuning
  | setConfig (config : MaskConfig)

/-- A call. -/
def MaskState.step (s : MaskState) : MaskOp → MaskState
  | .genAttentionMask n => ((s.genAttentionMask n).map Prod.snd).getD s
  | .genPositionIds n => ((s.genPositionIds n).map Prod.snd).getD s
  | .updateContext seqLen genLen =>
      { s with allSeqLen := s.allSeqLen + seqLen, genSeqLen := s.genSeqLen + genLen }
  | .generateInit =>
      { s with genSeqLen := 0, allSeqLen := if s.config.reuseKv then s.allSeqLen else 0 }
  | .reset => { s with allSeqLen := 0, genSeqLen := 0 }
  | .tuning => { s with genSeqLen := 1 }
  | .setConfig config => { s with config }

/-! ### Writing -/

/-- The elements from `base` on. -/
theorem fill_spec (base n : ℕ) (f : ℕ → Scalar) (b : Buffer (Option Scalar))
    (hsize : base + n ≤ b.size) :
    ∃ b', fill base n f b = some b' ∧ b.Frame (fun a => base ≤ a ∧ a < base + n) b' ∧
      ∀ i < n, b'.data (base + i) = some (f i) := by
  obtain ⟨b', hb', hframe, hdata⟩ := Buffer.exists_loop (b := b) (n := n)
    (P := fun i a => a = base + i) (C := fun i a v => a = base + i ∧ v = some (f i))
    (fun i hi b₁ hb₁ => by
      obtain ⟨b₂, hb₂, hframe, hdata⟩ := b₁.exists_write_one (d := base + i) (some (f i))
        (by omega)
      refine ⟨b₂, hb₂, hframe, ?_⟩
      rintro a v ⟨rfl, rfl⟩
      exact hdata) (fun i j hij a v hC => by
      rintro rfl
      omega) rfl
  refine ⟨b', hb', hframe.mono ?_, fun i hi => hdata i hi _ _ ⟨rfl, rfl⟩⟩
  rintro a ⟨i, hi, rfl⟩
  omega

/-- **Rows that follow each other.** -/
theorem fillRows_spec (base rows cols : ℕ) (f : ℕ → ℕ → Scalar) (b : Buffer (Option Scalar))
    (hsize : base + rows * cols ≤ b.size) :
    ∃ b', fillRows base cols rows cols f b = some b' ∧
      b.Frame (fun a => base ≤ a ∧ a < base + rows * cols) b' ∧
      ∀ i < rows, ∀ j < cols, b'.data (base + cols * i + j) = some (f i j) := by
  obtain ⟨b', hb', hframe, hdata⟩ := Buffer.exists_loop (b := b) (n := rows)
    (P := fun i a => base + cols * i ≤ a ∧ a < base + cols * i + cols)
    (C := fun i a v => ∃ j < cols, a = base + cols * i + j ∧ v = some (f i j))
    (fun i hi b₁ hb₁ => by
      have hrow := Buffer.block_le (n := cols) hi
      rw [Nat.mul_comm i cols] at hrow
      obtain ⟨b₂, hb₂, hframe, hdata⟩ := fill_spec (base + cols * i) cols (f i) b₁ (by omega)
      refine ⟨b₂, hb₂, hframe, ?_⟩
      rintro a v ⟨j, hj, rfl, rfl⟩
      exact hdata j hj) (fun i j hij a v hC => by
      obtain ⟨k, hk, rfl, -⟩ := hC
      have hrow := Buffer.block_le (n := cols) hij
      rw [Nat.mul_comm i cols, Nat.mul_comm j cols] at hrow
      omega) rfl
  refine ⟨b', hb', hframe.mono ?_, fun i hi j hj => hdata i hi _ _ ⟨j, hj, rfl, rfl⟩⟩
  rintro a ⟨i, hi, hle, hlt⟩
  have hrow := Buffer.block_le (n := cols) hi
  rw [Nat.mul_comm i cols] at hrow
  omega

/-! ### What masks and positions are -/

/-- One mask after the other, each of `rows` rows over `cols` keys; every element is written. -/
structure Var.Masks (v : Var) (dim : List ℕ) (value : Bool → Scalar) (rows cols : ℕ)
    (masked : List (ℕ → ℕ → Bool)) : Prop where
  dim : v.dim = dim
  size : v.host.size = masked.length * (rows * cols)
  element : ∀ p f, masked[p]? = some f → ∀ i < rows, ∀ j < cols,
    v.host.data (p * (rows * cols) + cols * i + j) = some (value (f i j))

/-- The numbers of a variable, all of them written. -/
structure Var.Holds (v : Var) (dim : List ℕ) (numbers : List ℤ) : Prop where
  dim : v.dim = dim
  read : v.host.read 0 v.host.size = some (numbers.map fun n => some (.int n))

/-- Key `j` comes after row `i`, which follows `base` keys. -/
def later (base i j : ℕ) : Bool := decide (base + i < j)

/-- Key `j` comes after row `i`, or lies before its window. -/
def outside (window : ℤ) (base i j : ℕ) : Bool :=
  decide (base + i < j ∨ (j : ℤ) ≤ base + i - window)

/-- How a kind of mask tells what is masked. -/
def MaskType.value : MaskType → Bool → Scalar
  | .float => additive
  | .glm | .glm2 => flagged
  | .int => admitted

/-- The last key is masked for every row but the last. -/
def butLast (n i j : ℕ) : Bool := decide (i + 1 < n ∧ j + 1 = n)

/-! ### The masks -/

theorem squareMask_spec (n : ℕ) :
    ∃ v, squareMask n = some v ∧ v.Masks [1, 1, n, n] additive n n [later 0] := by
  obtain ⟨b, hb, hframe, hdata⟩ := fillRows_spec 0 n n (fun i j => additive (decide (i < j)))
    (input [1, 1, n, n] .float).host (by simp [input])
  refine ⟨{ input [1, 1, n, n] .float with host := b }, ?_, rfl, ?_, ?_⟩
  · simp only [squareMask, hb, Option.bind_eq_bind, Option.bind_some]
    rfl
  · simp [hframe.size, input]
  · intro p f hp i hi j hj
    cases p with
    | zero =>
      cases hp
      simpa [later] using hdata i hi j hj
    | succ p => cases hp

theorem mixMask_spec (window : ℤ) (base n : ℕ) :
    ∃ v, mixMask window base n = some v ∧
      v.Masks [2, 1, 1, n, base + n] additive n (base + n) [later base, outside window base] := by
  have hsize : (input [2, 1, 1, n, base + n] .float).host.size = 2 * (n * (base + n)) := by
    simp [input]
  obtain ⟨b, hb, hframe, hdata⟩ := fillRows_spec 0 n (base + n)
    (fun i j => additive (decide (i + (base + n - n) < j)))
    (input [2, 1, 1, n, base + n] .float).host (by omega)
  obtain ⟨b', hb', hframe', hdata'⟩ := fillRows_spec (n * (base + n)) n (base + n)
    (fun i j => additive (!decide (j ≤ i + (base + n - n) ∧
      ((i + (base + n - n) : ℕ) : ℤ) - window < j))) b (by rw [hframe.size]; omega)
  refine ⟨{ input [2, 1, 1, n, base + n] .float with host := b' }, ?_, rfl, ?_, ?_⟩
  · simp only [mixMask, hb, hb', Option.bind_eq_bind, Option.bind_some]
    rfl
  · rw [List.length_cons, List.length_singleton, hframe'.size, hframe.size, hsize]
  · intro p f hp i hi j hj
    match p, hp with
    | 0, rfl =>
      have hrow := Buffer.block_le (n := base + n) hi
      rw [Nat.mul_comm i] at hrow
      show b'.data _ = _
      rw [hframe'.data _ (by omega), Nat.zero_mul, hdata i hi j hj, later, Nat.add_sub_cancel,
        Nat.add_comm]
    | 1, rfl =>
      show b'.data _ = _
      rw [Nat.one_mul, hdata' i hi j hj, outside, Nat.add_sub_cancel, ← decide_not]
      congr 2
      exact decide_eq_decide.2 (by omega)

/-- With one row, or rows as long as the stride, the stride is that of the rows. -/
theorem fillRows_stride (base : ℕ) {stride rows cols : ℕ} (h : rows = 1 ∨ stride = cols)
    (f : ℕ → ℕ → Scalar) (b : Buffer (Option Scalar)) :
    fillRows base stride rows cols f b = fillRows base cols rows cols f b := by
  rcases h with rfl | rfl
  · simp only [fillRows, List.range_one, List.foldlM_cons, List.foldlM_nil, Nat.mul_zero]
  · rfl

theorem intMask_dim {type : MaskType} {base n : ℕ} {v : Var} (h : intMask type base n = some v) :
    v.dim = [1, 1, n, base + n] := by
  unfold intMask at h
  by_cases hglm : type = .glm
  · rw [if_pos hglm] at h
    obtain ⟨_, -, h⟩ := Option.bind_eq_some_iff.1 h
    obtain ⟨_, -, h⟩ := Option.bind_eq_some_iff.1 h
    cases h
    rfl
  · rw [if_neg hglm] at h
    obtain ⟨_, -, h⟩ := Option.bind_eq_some_iff.1 h
    cases h
    rfl

/-- The masks of integers but that of ChatGLM. -/
theorem intMask_spec {type : MaskType} (hfloat : type ≠ .float) (hglm : type ≠ .glm) {base n : ℕ}
    (h : n = 1 ∨ base = 0) :
    ∃ v, intMask type base n = some v ∧
      v.Masks [1, 1, n, base + n] type.value n (base + n) [later base] := by
  obtain ⟨b, hb, hframe, hdata⟩ := fillRows_spec 0 n (base + n) (fun i j =>
    if type = .glm2 then flagged (decide (i + base < j)) else admitted (decide (i + base < j)))
    (input [1, 1, n, base + n] .int).host (by simp [input])
  rw [← fillRows_stride 0 (show n = 1 ∨ n = base + n by omega)] at hb
  refine ⟨{ input [1, 1, n, base + n] .int with host := b }, ?_, rfl, ?_, ?_⟩
  · simp only [intMask, hglm, if_false, hb, Option.bind_eq_bind, Option.bind_some]
    rfl
  · simp [hframe.size, input]
  · intro p f hp i hi j hj
    cases p with
    | zero =>
      cases hp
      rw [Nat.zero_mul, hdata i hi j hj, later, Nat.add_comm base i]
      cases type with
      | float => exact absurd rfl hfloat
      | glm => exact absurd rfl hglm
      | glm2 => rfl
      | int => rfl
    | succ p => cases hp

/-- The mask of ChatGLM. -/
theorem intMask_glm {base n : ℕ} (h : n = 1 ∨ base = 0) :
    ∃ v, intMask .glm base n = some v ∧
      v.Masks [1, 1, n, base + n] flagged n (base + n) [butLast n] := by
  obtain ⟨b, hb, hframe, hdata⟩ := fill_spec 0 (n * (base + n)) (fun _ => .int 0)
    (input [1, 1, n, base + n] .int).host (by simp [input])
  have hsize : b.size = n * (base + n) := by simp [hframe.size, input]
  have hfits : ∀ i < n - 1, n * (i + 1) - 1 < b.size ∧ n * (i + 1) = n * i + n := by
    intro i hi
    have hle : n * (i + 1) ≤ n * (base + n) := Nat.mul_le_mul_left n (by omega)
    have hpos : 0 < n * (i + 1) := Nat.mul_pos (by omega) (Nat.succ_pos i)
    exact ⟨by omega, Nat.mul_succ n i⟩
  obtain ⟨b', hb', hframe', hdata'⟩ := Buffer.exists_loop (b := b) (n := n - 1)
    (P := fun i a => a = n * (i + 1) - 1)
    (C := fun i a v => i < n - 1 ∧ a = n * (i + 1) - 1 ∧ v = some (.int 1))
    (fun i hi b₁ hb₁ => by
      obtain ⟨b₂, hb₂, hframe₂, hdata₂⟩ := b₁.exists_write_one (some (.int 1))
        ((hfits i hi).1.trans_le hb₁.ge)
      refine ⟨b₂, hb₂, hframe₂, ?_⟩
      rintro a v ⟨-, rfl, rfl⟩
      exact hdata₂) (fun i j hij a v hC => by
      obtain ⟨hi, rfl, -⟩ := hC
      have hle : n * (i + 1 + 1) ≤ n * (j + 1) := Nat.mul_le_mul_left n (by omega)
      rw [Nat.mul_succ] at hle
      show n * (i + 1) - 1 ≠ n * (j + 1) - 1
      omega) rfl
  refine ⟨{ input [1, 1, n, base + n] .int with host := b' }, ?_, rfl, ?_, ?_⟩
  · simp only [intMask, if_true, hb, hb', Option.bind_eq_bind, Option.bind_some]
    rfl
  · rw [List.length_singleton, Nat.one_mul, hframe'.size, hsize]
  · intro p f hp i hi j hj
    cases p with
    | zero =>
      cases hp
      rw [Nat.zero_mul, Nat.zero_add]
      by_cases hlast : i + 1 < n ∧ j + 1 = n
      · obtain rfl : base = 0 := h.resolve_left (by omega)
        have haddress : (0 + n) * i + j = n * (i + 1) - 1 := by
          rw [Nat.zero_add, Nat.mul_succ]
          omega
        rw [haddress, butLast, decide_eq_true hlast]
        exact hdata' i (by omega) _ _ ⟨by omega, rfl, rfl⟩
      · have hout : ¬ ∃ k < n - 1, (base + n) * i + j = n * (k + 1) - 1 := by
          rintro ⟨k, hk, heq⟩
          obtain rfl : base = 0 := h.resolve_left (by omega)
          rw [Nat.zero_add, Nat.mul_succ] at heq
          rcases Nat.lt_trichotomy i k with hik | rfl | hik
          · have hle : n * (i + 1) ≤ n * k := Nat.mul_le_mul_left n hik
            rw [Nat.mul_succ] at hle
            omega
          · exact hlast ⟨by omega, by omega⟩
          · have hle : n * (k + 1) ≤ n * i := Nat.mul_le_mul_left n hik
            rw [Nat.mul_succ] at hle
            omega
        have hzero := hdata ((base + n) * i + j) (by
          have := Buffer.block_le (n := base + n) hi
          rw [Nat.mul_comm i] at this
          omega)
        show b'.data _ = _
        rw [hframe'.data _ hout, ← Nat.zero_add ((base + n) * i + j), hzero, butLast,
          decide_eq_false hlast]
        rfl
    | succ p => cases hp

/-! ### What is kept between the calls -/

namespace MaskState

/-- The variables that are kept: those for one token, the mask of integers, which was made for its
own lengths, and the positions of ChatGLM, which are written again. -/
structure Cached (s : MaskState) : Prop where
  oneMask : s.mAttentionMaskVarVec[0]? = squareMask 1
  onePosition : ∃ v, s.mPositionIdsVarVec[0]? = some v ∧ v.dim = [1] ∧ v.host.size = 1
  mask : s.config.attentionMask ≠ .float → ∀ v, s.attentionMask = some v →
    ∃ base n, intMask s.config.attentionMask base n = some v
  positions : s.config.attentionMask = .glm → ∀ v, s.positionIds = some v →
    ∃ n, v.dim = [1, 2, n] ∧ v.host.size = 2 * n

variable {s : MaskState} {n : ℕ}

/-- **A mask of integers that is kept is the one that would be made.** -/
theorem genAttentionMask_eq (hs : s.Cached) (htype : s.config.attentionMask ≠ .float)
    (hn : 0 < n) :
    s.genAttentionMask n = (intMask s.config.attentionMask s.allSeqLen n).map
      fun v => (v, { s with attentionMask := some v }) := by
  unfold genAttentionMask
  rw [if_neg htype]
  by_cases hnew : needNewVar s.attentionMask 2 n (s.allSeqLen + n) = true
  · rw [if_pos hnew, Option.map_eq_bind]
    rfl
  rw [if_neg hnew]
  cases hmask : s.attentionMask with
  | none => exact absurd (by rw [hmask]; rfl) hnew
  | some v =>
    obtain ⟨base, m, hv⟩ := hs.mask htype v hmask
    simp only [needNewVar, hmask, intMask_dim hv, List.getElem?_cons_succ,
      List.getElem?_cons_zero, Bool.or_eq_true, bne_iff_ne, Bool.and_eq_true, ne_eq,
      Option.some.injEq, not_or, not_and, not_not] at hnew
    obtain ⟨rfl, hbase⟩ := hnew
    obtain rfl : base = s.allSeqLen := Nat.add_right_cancel (hbase (by omega))
    have hsame : { s with attentionMask := some v } = s := by rw [← hmask]
    rw [hv, Option.map_some, hsame]
    rfl

/-- What `genAttentionMask` changes. -/
theorem genAttentionMask_state {v : Var} {s' : MaskState}
    (h : s.genAttentionMask n = some (v, s')) :
    ∃ m, s' = { s with attentionMask := m } ∧ (s.config.attentionMask ≠ .float → ∀ w, m = some w →
      s.attentionMask = some w ∨ intMask s.config.attentionMask s.allSeqLen n = some w) := by
  unfold genAttentionMask at h
  by_cases htype : s.config.attentionMask = .float
  · refine ⟨s'.attentionMask, ?_, fun hne => absurd htype hne⟩
    rw [if_pos htype] at h
    split_ifs at h
    all_goals
      obtain ⟨_, -, h⟩ := Option.bind_eq_some_iff.1 h
      cases h
      rfl
  · rw [if_neg htype] at h
    split_ifs at h
    · obtain ⟨w, hw, h⟩ := Option.bind_eq_some_iff.1 h
      cases h
      exact ⟨_, rfl, fun _ w' hw' => .inr (hw.trans hw')⟩
    · obtain ⟨w, hw, h⟩ := Option.bind_eq_some_iff.1 h
      cases h
      exact ⟨_, rfl, fun _ _ => .inl⟩

theorem glmVar_spec (hs : s.Cached) (hglm : s.config.attentionMask = .glm) (n : ℕ) :
    ∃ v, s.glmVar n = some v ∧ v.dim = [1, 2, n] ∧ v.host.size = 2 * n := by
  unfold glmVar
  by_cases hnew : needNewVar s.positionIds 2 n 0 = true
  · exact ⟨_, if_pos hnew, rfl, by simp [input]⟩
  rw [if_neg hnew]
  cases hids : s.positionIds with
  | none => exact absurd (by rw [hids]; rfl) hnew
  | some v =>
    obtain ⟨m, hdim, hsize⟩ := hs.positions hglm v hids
    obtain rfl : m = n := by simpa [needNewVar, hids, hdim] using hnew
    exact ⟨v, rfl, hdim, hsize⟩

theorem size_glmPositionIds {b b' : Buffer (Option Scalar)}
    (h : s.glmPositionIds n b = some b') : b'.size = b.size := by
  unfold glmPositionIds at h
  split_ifs at h
  · obtain ⟨b₁, h₁, h₂⟩ := Option.bind_eq_some_iff.1 h
    exact (Buffer.size_of_write h₂).trans (Buffer.size_of_write h₁)
  · obtain ⟨b₁, h₁, h⟩ := Option.bind_eq_some_iff.1 h
    obtain ⟨b₂, h₂, h₃⟩ := Option.bind_eq_some_iff.1 h
    obtain ⟨hsize, -⟩ := foldlM_some (I := fun x : Buffer (Option Scalar) => x.size = b.size)
      (P := fun _ => True) (fun x i x' hx hstep => by
        obtain ⟨y, hy, hx'⟩ := Option.bind_eq_some_iff.1 hstep
        exact ⟨(Buffer.size_of_write hx').trans ((Buffer.size_of_write hy).trans hx), trivial⟩)
      rfl h₁
    exact (Buffer.size_of_write h₃).trans ((Buffer.size_of_write h₂).trans hsize)

/-- What `genPositionIds` changes. -/
theorem genPositionIds_state (hs : s.Cached) {v : Var} {s' : MaskState}
    (h : s.genPositionIds n = some (v, s')) :
    ∃ p q, s' = { s with positionIds := p, mPositionIdsVarVec := q } ∧
      (∃ v, q[0]? = some v ∧ v.dim = [1] ∧ v.host.size = 1) ∧
      (s.config.attentionMask = .glm → ∀ v, p = some v →
        ∃ n, v.dim = [1, 2, n] ∧ v.host.size = 2 * n) := by
  unfold genPositionIds at h
  split_ifs at h with hglm hone hdraft
  · obtain ⟨w, hw, hdim, hsize⟩ := glmVar_spec hs hglm n
    obtain ⟨w', hw', h⟩ := Option.bind_eq_some_iff.1 h
    obtain rfl := Option.some.inj (hw.symm.trans hw')
    obtain ⟨b, hb, h⟩ := Option.bind_eq_some_iff.1 h
    cases h
    refine ⟨_, _, rfl, hs.onePosition, fun _ x hx => ?_⟩
    cases hx
    exact ⟨n, hdim, (size_glmPositionIds hb).trans hsize⟩
  · obtain ⟨w, hw, h⟩ := Option.bind_eq_some_iff.1 h
    obtain ⟨b, hb, h⟩ := Option.bind_eq_some_iff.1 h
    cases h
    obtain ⟨x, hx, hdim, hsize⟩ := hs.onePosition
    obtain rfl := Option.some.inj (hw.symm.trans hx)
    refine ⟨_, _, rfl, ⟨_, List.getElem?_set_self ?_, hdim, (Buffer.size_of_write hb).trans hsize⟩,
      fun hne => absurd hne hglm⟩
    exact (List.getElem?_eq_some_iff.1 hw).1
  · obtain ⟨w, hw, h⟩ := Option.bind_eq_some_iff.1 h
    obtain ⟨x, hx, h⟩ := Option.bind_eq_some_iff.1 h
    cases h
    obtain ⟨y, hy, hdim, hsize⟩ := hs.onePosition
    exact ⟨_, _, rfl, ⟨y, (List.getElem?_set_ne (by decide)).trans hy, hdim, hsize⟩,
      fun hne => absurd hne hglm⟩
  · obtain ⟨w, hw, h⟩ := Option.bind_eq_some_iff.1 h
    cases h
    exact ⟨_, _, rfl, hs.onePosition, fun hne => absurd hne hglm⟩

/-- Loading succeeds. -/
theorem exists_load (config : MaskConfig) (inSpec : Bool) (draftPredictLength : ℕ) :
    ∃ s, load config inSpec draftPredictLength = some s ∧ s.Cached ∧ s.config = config ∧
      s.allSeqLen = 0 ∧ s.mDraftLength = if inSpec then draftPredictLength else 4 := by
  obtain ⟨v, hv, -⟩ := squareMask_spec 1
  obtain ⟨w, hw, -⟩ := squareMask_spec (draftPredictLength + 1)
  cases inSpec with
  | false =>
    simp only [load, Bool.false_eq_true, if_false, List.mapM_cons, List.mapM_nil, hv,
      Option.bind_eq_bind, Option.bind_some]
    exact ⟨_, rfl, ⟨hv.symm, ⟨_, rfl, rfl, rfl⟩, fun _ _ => nofun, fun _ _ => nofun⟩, rfl, rfl, rfl⟩
  | true =>
    simp only [load, if_true, List.mapM_cons, List.mapM_nil, hv, hw, Option.bind_eq_bind,
      Option.bind_some]
    exact ⟨_, rfl, ⟨hv.symm, ⟨_, rfl, rfl, rfl⟩, fun _ _ => nofun, fun _ _ => nofun⟩, rfl, rfl, rfl⟩

theorem load_cached {config : MaskConfig} {inSpec : Bool} {draftPredictLength : ℕ}
    (h : load config inSpec draftPredictLength = some s) : s.Cached := by
  obtain ⟨t, ht, hcached, -⟩ := exists_load config inSpec draftPredictLength
  obtain rfl := Option.some.inj (h.symm.trans ht)
  exact hcached

theorem step_cached {op : MaskOp} (hs : s.Cached)
    (hop : ∀ config, op = .setConfig config → config.attentionMask = s.config.attentionMask) :
    (s.step op).Cached := by
  cases op with
  | genAttentionMask n =>
    show (((s.genAttentionMask n).map Prod.snd).getD s).Cached
    cases h : s.genAttentionMask n with
    | none => exact hs
    | some r =>
      obtain ⟨m, hm, hmask⟩ := genAttentionMask_state h
      rw [Option.map_some, Option.getD_some, hm]
      refine ⟨hs.oneMask, hs.onePosition, fun htype w hw => ?_, hs.positions⟩
      rcases hmask htype w hw with hold | hnew
      · exact hs.mask htype w hold
      · exact ⟨_, _, hnew⟩
  | genPositionIds n =>
    show (((s.genPositionIds n).map Prod.snd).getD s).Cached
    cases h : s.genPositionIds n with
    | none => exact hs
    | some r =>
      obtain ⟨p, q, hpq, hone, hpositions⟩ := genPositionIds_state hs h
      rw [Option.map_some, Option.getD_some, hpq]
      exact ⟨hs.oneMask, hone, hs.mask, hpositions⟩
  | setConfig config =>
    have htype : (s.step (.setConfig config)).config.attentionMask = s.config.attentionMask :=
      hop config rfl
    refine ⟨hs.oneMask, hs.onePosition, fun hne => ?_, fun hglm => ?_⟩
    · rw [htype] at hne ⊢
      exact hs.mask hne
    · rw [htype] at hglm
      exact hs.positions hglm
  | updateContext => exact ⟨hs.oneMask, hs.onePosition, hs.mask, hs.positions⟩
  | generateInit => exact ⟨hs.oneMask, hs.onePosition, hs.mask, hs.positions⟩
  | reset => exact ⟨hs.oneMask, hs.onePosition, hs.mask, hs.positions⟩
  | tuning => exact ⟨hs.oneMask, hs.onePosition, hs.mask, hs.positions⟩

/-! ### The positions -/

/-- What is read from a buffer whose elements are known. -/
theorem read_map {b : Buffer (Option Scalar)} {f : ℕ → ℤ} {n : ℕ} (hsize : b.size = n)
    (hdata : ∀ i < n, b.data i = some (.int (f i))) :
    b.read 0 b.size = some (((List.range n).map f).map fun x => some (.int x)) := by
  refine (if_pos (Nat.zero_add _).le).trans ?_
  rw [hsize, List.map_map]
  refine congrArg some (List.map_congr_left fun i hi => ?_)
  rw [Nat.zero_add, hdata i (List.mem_range.1 hi)]
  rfl

/-- The ids of `n` tokens. -/
def ids (s : MaskState) (n : ℕ) : List ℤ := (List.range n).map fun i : ℕ => i + s.allSeqLen

theorem countPositions_spec (s : MaskState) (n : ℕ) :
    ∃ v, s.countPositions n (input [n] .int) = some v ∧ v.Holds [n] (s.ids n) := by
  obtain ⟨b, hb, hframe, hdata⟩ := fill_spec 0 n (fun i => .int (i + s.allSeqLen))
    (input [n] .int).host (by simp [input])
  have hread := read_map (f := fun i => i + s.allSeqLen) (n := n)
    (hframe.size.trans (by simp [input])) fun i hi => by
      have h := hdata i hi
      rwa [Nat.zero_add] at h
  refine ⟨⟨[n], .int, b⟩, ?_, ⟨rfl, hread⟩⟩
  · simp only [countPositions, hb, Option.bind_eq_bind, Option.bind_some]
    rfl

/-- What is written for ChatGLM. -/
def glmIds (s : MaskState) (n : ℕ) : List ℤ :=
  if n = 1 then [s.allSeqLen - s.genSeqLen - 2, s.genSeqLen + 1]
  else (List.range (2 * n)).map fun i : ℕ =>
    if i + 1 < n then i else if i + 1 = n then n - 2 else if i + 1 < 2 * n then 0 else 1

theorem glmPositionIds_spec (hn : 0 < n) {b : Buffer (Option Scalar)} (hsize : b.size = 2 * n) :
    ∃ b', s.glmPositionIds n b = some b' ∧
      b'.read 0 b'.size = some ((s.glmIds n).map fun x => some (.int x)) := by
  by_cases hone : n = 1
  · obtain ⟨b₁, h₁, hframe₁, hdata₁⟩ := b.exists_write_one (d := 0)
      (some (.int (s.allSeqLen - s.genSeqLen - 2))) (by omega)
    obtain ⟨b₂, h₂, hframe₂, hdata₂⟩ := b₁.exists_write_one (d := 1)
      (some (.int (s.genSeqLen + 1))) (by rw [hframe₁.size]; omega)
    have hsize₂ : b₂.size = 2 := by
      rw [hframe₂.size, hframe₁.size, hsize, hone]
    refine ⟨b₂, ?_, ?_⟩
    · simp only [glmPositionIds, hone, if_true, h₁, h₂, Option.bind_eq_bind, Option.bind_some]
    · rw [hsize₂, Buffer.read, if_pos (by omega), glmIds, if_pos hone]
      simp [List.range_succ, hdata₂, hframe₂.data 0 (by decide), hdata₁]
  · obtain ⟨b₁, h₁, hframe₁, hdata₁⟩ := Buffer.exists_loop (b := b) (n := n - 1)
      (f := fun b i => do
        let b ← b.write i 1 fun _ => some (.int i)
        b.write (n + i) 1 fun _ => some (.int 0))
      (P := fun i a => i < n - 1 ∧ (a = i ∨ a = n + i))
      (C := fun i a v => i < n - 1 ∧
        (a = i ∧ v = some (.int i) ∨ a = n + i ∧ v = some (.int 0)))
      (fun i hi b₁ hb₁ => by
        obtain ⟨b₂, h₂, hframe₂, hdata₂⟩ := b₁.exists_write_one (d := i) (some (.int i)) (by omega)
        obtain ⟨b₃, h₃, hframe₃, hdata₃⟩ := b₂.exists_write_one (d := n + i) (some (.int 0))
          (by rw [hframe₂.size]; omega)
        refine ⟨b₃, ?_, (hframe₂.mono fun _ ha => ⟨hi, .inl ha⟩).trans
          (hframe₃.mono fun _ ha => ⟨hi, .inr ha⟩), ?_⟩
        · rw [h₂]
          exact h₃
        · rintro a v ⟨-, ⟨ha, rfl⟩ | ⟨ha, rfl⟩⟩
          · rw [ha, hframe₃.data i (by omega), hdata₂]
          · rw [ha, hdata₃])
      (fun i j hij a v hC => by omega) rfl
    obtain ⟨b₂, h₂, hframe₂, hdata₂⟩ := b₁.exists_write_one (d := n - 1) (some (.int (n - 2)))
      (by rw [hframe₁.size]; omega)
    obtain ⟨b₃, h₃, hframe₃, hdata₃⟩ := b₂.exists_write_one (d := 2 * n - 1) (some (.int 1))
      (by rw [hframe₂.size, hframe₁.size]; omega)
    refine ⟨b₃, ?_, ?_⟩
    · rw [glmPositionIds, if_neg hone, h₁]
      simp only [Option.bind_eq_bind, Option.bind_some, h₂, h₃]
    · rw [glmIds, if_neg hone]
      refine read_map (by rw [hframe₃.size, hframe₂.size, hframe₁.size, hsize]) fun i hi => ?_
      rcases Nat.lt_trichotomy (i + 1) n with hlt | heq | hgt
      · rw [if_pos hlt, hframe₃.data i (by omega), hframe₂.data i (by omega)]
        exact hdata₁ i (by omega) _ _ ⟨by omega, .inl ⟨rfl, rfl⟩⟩
      · obtain rfl : i = n - 1 := by omega
        rw [if_neg (by omega), if_pos heq, hframe₃.data _ (by omega), hdata₂]
      · rw [if_neg (by omega), if_neg (by omega)]
        by_cases hlast : i + 1 < 2 * n
        · obtain ⟨k, rfl⟩ := Nat.exists_eq_add_of_le (show n ≤ i by omega)
          rw [if_pos hlast, hframe₃.data _ (by omega), hframe₂.data _ (by omega)]
          exact hdata₁ k (by omega) _ _ ⟨by omega, .inr ⟨rfl, rfl⟩⟩
        · obtain rfl : i = 2 * n - 1 := by omega
          rw [if_neg hlast, hdata₃]

/-! ### Every state -/

/-- Calls in any order; the kind of the mask is that of the model, and stays. -/
def machine : Machine MaskState MaskOp where
  Allowed s op := ∀ config, op = .setConfig config →
    config.attentionMask = s.config.attentionMask
  step := step

theorem run_cached {config : MaskConfig} {inSpec : Bool} {draftPredictLength : ℕ}
    {s₀ : MaskState} {ops : List MaskOp} (hload : load config inSpec draftPredictLength = some s₀)
    (hrun : Run machine s₀ ops s) : s.Cached :=
  hrun.invariant (I := Cached) (fun _ _ hs hop => step_cached hs hop) (load_cached hload)

/-- Variables are kept for the drafts, which have one row more than this number of tokens. -/
def AtDrafts (s : MaskState) (vars : List Var) (n : ℕ) : Prop :=
  n ≠ 1 ∧ 1 < vars.length ∧ n = s.mDraftLength

/-- The mask over all keys, those of the history included. -/
def MaskOverAll (s : MaskState) (n : ℕ) (v : Var) : Prop :=
  if s.config.attentionMask = .float ∧ s.config.attentionType = .mix then
    v.Masks [2, 1, 1, n, s.allSeqLen + n] additive n (s.allSeqLen + n)
      [later s.allSeqLen, outside s.config.slidingWindow s.allSeqLen]
  else
    v.Masks [1, 1, n, s.allSeqLen + n] s.config.attentionMask.value n (s.allSeqLen + n)
      [later s.allSeqLen]

/-- What each kind of mask is: that of numbers is square, except for the two planes of a mix. -/
def MaskRight (s : MaskState) (n : ℕ) (v : Var) : Prop :=
  match s.config.attentionMask with
  | .float => if s.config.attentionType = .mix then s.MaskOverAll n v
      else v.Masks [1, 1, n, n] additive n n [later 0]
  | .glm => v.Masks [1, 1, n, s.allSeqLen + n] flagged n (s.allSeqLen + n) [butLast n]
  | .glm2 | .int => s.MaskOverAll n v

/-- The number of drafts is not asked for; a mask of integers has one row, or no history. -/
def MaskCovered (s : MaskState) (n : ℕ) : Prop :=
  if s.config.attentionMask = .float then
    s.config.attentionType = .mix ∨ ¬ s.AtDrafts s.mAttentionMaskVarVec n
  else n = 1 ∨ s.allSeqLen = 0

/-- What the positions are. -/
def PositionsRight (s : MaskState) (n : ℕ) (v : Var) : Prop :=
  match s.config.attentionMask with
  | .glm => v.Holds [1, 2, n] (s.glmIds n)
  | .glm2 => v.Holds [n] (if n = 1 then [s.genSeqLen] else s.ids n)
  | .float | .int => v.Holds [n] (s.ids n)

/-- Masks of numbers. -/
theorem genAttentionMask_float (hs : s.Cached) (hfloat : s.config.attentionMask = .float)
    (hcovered : s.config.attentionType = .mix ∨ ¬ s.AtDrafts s.mAttentionMaskVarVec n) :
    ∃ v s', s.genAttentionMask n = some (v, s') ∧ s.MaskRight n v := by
  rw [genAttentionMask, if_pos hfloat]
  by_cases hmix : s.config.attentionType = .mix
  · obtain ⟨v, hv, hmasks⟩ := mixMask_spec s.config.slidingWindow s.allSeqLen n
    refine ⟨v, { s with attentionMask := some v }, ?_, ?_⟩
    · rw [if_pos hmix, hv]
      rfl
    · rw [MaskRight, hfloat]
      simp only [hmix, if_true, MaskOverAll, hfloat, and_self]
      exact hmasks
  have hright : ∀ v : Var, v.Masks [1, 1, n, n] additive n n [later 0] → s.MaskRight n v := by
    intro v hv
    rw [MaskRight, hfloat]
    simp only [hmix, if_false]
    exact hv
  obtain ⟨v, hv, hmasks⟩ := squareMask_spec n
  rw [if_neg hmix]
  by_cases hone : n = 1
  · subst hone
    have hkept := hs.oneMask.trans hv
    refine ⟨v, s, ?_, hright v hmasks⟩
    rw [if_pos ⟨(List.getElem?_eq_some_iff.1 hkept).1, rfl⟩, hkept]
    rfl
  · have hdrafts : ¬ (1 < s.mAttentionMaskVarVec.length ∧ n = s.mDraftLength) :=
      fun h => hcovered.resolve_left hmix ⟨hone, h⟩
    refine ⟨v, { s with attentionMask := some v }, ?_, hright v hmasks⟩
    rw [if_neg fun h => hone h.2, if_neg hdrafts, hv]
    rfl

theorem genAttentionMask_spec (hs : s.Cached) (hn : 0 < n) (hcovered : s.MaskCovered n) :
    ∃ v s', s.genAttentionMask n = some (v, s') ∧ s.MaskRight n v := by
  by_cases hfloat : s.config.attentionMask = .float
  · rw [MaskCovered, if_pos hfloat] at hcovered
    exact genAttentionMask_float hs hfloat hcovered
  · rw [genAttentionMask_eq hs hfloat hn]
    rw [MaskCovered, if_neg hfloat] at hcovered
    by_cases hglm : s.config.attentionMask = .glm
    · obtain ⟨v, hv, hmasks⟩ := intMask_glm hcovered
      refine ⟨v, { s with attentionMask := some v }, ?_, ?_⟩
      · rw [hglm, hv]
        rfl
      · rw [MaskRight, hglm]
        exact hmasks
    · obtain ⟨v, hv, hmasks⟩ := intMask_spec hfloat hglm hcovered
      refine ⟨v, { s with attentionMask := some v }, ?_, ?_⟩
      · rw [hv]
        rfl
      · have hall : s.MaskOverAll n v := by
          rw [MaskOverAll, if_neg fun h => hfloat h.1]
          exact hmasks
        unfold MaskRight
        split
        · next h => exact absurd h hfloat
        · next h => exact absurd h hglm
        · exact hall
        · exact hall

/-- The position of one token. -/
theorem genPositionIds_one (hs : s.Cached) (hglm : s.config.attentionMask ≠ .glm) :
    ∃ v s', s.genPositionIds 1 = some (v, s') ∧ s.PositionsRight 1 v := by
  obtain ⟨v, hv, hdim, hsize⟩ := hs.onePosition
  obtain ⟨b, hb, hframe, hdata⟩ := v.host.exists_write_one (d := 0)
    (some (.int s.onePosition)) (by omega)
  refine ⟨{ v with host := b },
    { s with mPositionIdsVarVec := s.mPositionIdsVarVec.set 0 { v with host := b } }, ?_, ?_⟩
  · rw [genPositionIds, if_neg hglm, if_pos rfl, hv]
    simp only [Option.bind_eq_bind, Option.bind_some, hb]
    rfl
  · have hread := read_map (f := fun _ => s.onePosition) (hframe.size.trans hsize) fun i hi => by
      rw [Nat.lt_one_iff.1 hi]
      exact hdata
    have hholds : Var.Holds { v with host := b } [1] [s.onePosition] := ⟨hdim, hread⟩
    unfold PositionsRight onePosition at *
    split
    · next h => exact absurd h hglm
    · next h =>
      rw [if_pos rfl]
      rwa [if_pos h] at hholds
    · next h =>
      rw [if_neg (by rw [h]; decide)] at hholds
      simpa [ids] using hholds
    · next h =>
      rw [if_neg (by rw [h]; decide)] at hholds
      simpa [ids] using hholds

theorem genPositionIds_spec (hs : s.Cached) (hn : 0 < n)
    (hcovered : s.config.attentionMask = .glm ∨ ¬ s.AtDrafts s.mPositionIdsVarVec n) :
    ∃ v s', s.genPositionIds n = some (v, s') ∧ s.PositionsRight n v := by
  by_cases hglm : s.config.attentionMask = .glm
  · obtain ⟨v, hv, hdim, hsize⟩ := glmVar_spec hs hglm n
    obtain ⟨b, hb, hread⟩ := glmPositionIds_spec (s := s) hn hsize
    refine ⟨{ v with host := b }, { s with positionIds := some { v with host := b } }, ?_, ?_⟩
    · rw [genPositionIds, if_pos hglm, hv]
      simp only [Option.bind_eq_bind, Option.bind_some, hb]
      rfl
    · rw [PositionsRight, hglm]
      exact ⟨hdim, hread⟩
  by_cases hone : n = 1
  · subst hone
    exact genPositionIds_one hs hglm
  · have hdrafts : ¬ (1 < s.mPositionIdsVarVec.length ∧ n = s.mDraftLength) :=
      fun h => hcovered.resolve_left hglm ⟨hone, h⟩
    obtain ⟨v, hv, hholds⟩ := countPositions_spec s n
    refine ⟨v, { s with positionIds := some v }, ?_, ?_⟩
    · rw [genPositionIds, if_neg hglm, if_neg hone, if_neg hdrafts, hv]
      rfl
    · unfold PositionsRight
      split
      · next h => exact absurd h hglm
      · rw [if_neg hone]
        exact hholds
      · exact hholds
      · exact hholds

/-- **Main theorem.**  In every state that a run reaches, masks and positions are right; a mask of
integers of several rows with a history, and the number of drafts where variables are kept for them,
are left out. -/
theorem generated_right {config : MaskConfig} {inSpec : Bool} {draftPredictLength : ℕ}
    {s₀ : MaskState} {ops : List MaskOp} (hload : load config inSpec draftPredictLength = some s₀)
    (hrun : Run machine s₀ ops s) (hn : 0 < n) :
    (s.MaskCovered n → ∃ v s', s.genAttentionMask n = some (v, s') ∧ s.MaskRight n v) ∧
      (s.config.attentionMask = .glm ∨ ¬ s.AtDrafts s.mPositionIdsVarVec n →
        ∃ v s', s.genPositionIds n = some (v, s') ∧ s.PositionsRight n v) :=
  ⟨genAttentionMask_spec (run_cached hload hrun) hn,
    genPositionIds_spec (run_cached hload hrun) hn⟩

/-- Two tokens after three, with a full and a sliding mask. -/
theorem generated_right_mix : ∃ s₀ s, load ⟨.float, .mix, 2, false⟩ true 4 = some s₀ ∧
    Run machine s₀ [.updateContext 3 1] s ∧ s.allSeqLen = 3 ∧
      (∃ v s', s.genAttentionMask 2 = some (v, s') ∧ s.MaskRight 2 v) ∧
        ∃ v s', s.genPositionIds 2 = some (v, s') ∧ s.PositionsRight 2 v := by
  obtain ⟨s₀, hload, -, hconfig, hlen, hdraft⟩ := exists_load ⟨.float, .mix, 2, false⟩ true 4
  have hrun : Run machine s₀ [.updateContext 3 1] (s₀.step (.updateContext 3 1)) :=
    .cons (fun _ => nofun) (.nil _)
  obtain ⟨hmask, hpositions⟩ := generated_right hload hrun (n := 2) (by decide)
  refine ⟨s₀, _, hload, hrun, ?_, hmask ?_, hpositions (.inr fun h => ?_)⟩
  · show s₀.allSeqLen + 3 = 3
    rw [hlen]
  · show if s₀.config.attentionMask = .float then _ else _
    rw [hconfig]
    exact .inl (congrArg MaskConfig.attentionType hconfig)
  · exact absurd (h.2.2.trans hdraft) (by decide)

/-- The mask of numbers leaves the history out. -/
theorem not_maskOverAll : ¬ ∀ (config : MaskConfig) (inSpec : Bool) (draftPredictLength : ℕ)
    (s₀ s : MaskState) (ops : List MaskOp) (n : ℕ),
    load config inSpec draftPredictLength = some s₀ → Run machine s₀ ops s → 0 < n →
      ∃ v s', s.genAttentionMask n = some (v, s') ∧ s.MaskOverAll n v := by
  intro hall
  obtain ⟨s₀, hload, -, hconfig, hlen, hdraft⟩ := exists_load ⟨.float, .full, 0, false⟩ false 4
  have hrun : Run machine s₀ [.updateContext 3 1] (s₀.step (.updateContext 3 1)) :=
    .cons (fun _ => nofun) (.nil _)
  have hconfig' : (s₀.step (.updateContext 3 1)).config = ⟨.float, .full, 0, false⟩ := hconfig
  obtain ⟨v, s', hv, hmasks⟩ := hall _ _ _ _ _ _ 2 hload hrun (by decide)
  obtain ⟨w, t, hw, hright⟩ := genAttentionMask_float (n := 2) (run_cached hload hrun)
    (congrArg MaskConfig.attentionMask hconfig')
    (.inr fun h => absurd (h.2.2.trans hdraft) (by decide))
  obtain ⟨rfl, -⟩ := Prod.mk.inj (Option.some.inj (hw.symm.trans hv))
  rw [MaskOverAll, hconfig', if_neg (by decide)] at hmasks
  rw [MaskRight, hconfig'] at hright
  have hlen' : (s₀.step (.updateContext 3 1)).allSeqLen = 3 := congrArg (· + 3) hlen
  have hdim := hright.dim.symm.trans hmasks.dim
  rw [hlen'] at hdim
  exact absurd hdim (by decide)

end MaskState

end Mnn.AttentionMask
