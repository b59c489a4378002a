import Mnn.Geometry.SliceConcat
import Mnn.Lib.BroadcastShape

/-!
# `GeometryCumSum`

Running sums along an axis (`source/geometry/GeometryCumSum.cpp`): a region copies the first row,
and a loop adds one row after another.

* `onCompute`: the region and the loop;
* `RegionCommand.runInPlace`, `LoopParam.runInPlace`: a loop that reads the output it writes;
* `addressOf_eq_cell`: an index by its place before the axis, on it and behind it;
* `run_rows`: the rows after some iterations;
* `accumulates`: **the output holds the running sums**.
-/

namespace Mnn.Recompute

open Lib.Broadcast (addressOf)

/-! ### Loops in place -/

section InPlace

variable {α : Type*} [Zero α] (K : Kernels α) (R : Reader α)

/-- A reader for which the output holds `out`. -/
def Reader.over (out : ℤ → α) : Reader α :=
  { R with value := Function.update R.value .output out }

/-- One iteration; a binary operator works element by element. -/
def RegionCommand.runInPlace (stack : ℤ → Ref) (c : RegionCommand) (iter : ℕ) (out : ℤ → α) :
    ℤ → α :=
  match c.op with
  | .binary opType =>
    (boxIndices c.size).foldl (fun out i => Function.update out
      (c.target K (R.over out) stack iter i) (K.binary (R.type (c.operand stack 1)) opType
        (c.element K (R.over out) stack iter 1 i) (c.element K (R.over out) stack iter 2 i))) out
  | _ => c.run K (R.over out) stack iter out

/-- `CPULoop::onExecute`, when the output is among the inputs. -/
def LoopParam.runInPlace (inputs outputs : List Ref) (p : LoopParam) (out : ℤ → α) : ℤ → α :=
  let stack (n : ℤ) : Ref :=
    if p.outputIndexes.contains n then outputs.getD (p.outputIndexes.idxOf n) .output
    else inputs.getD (p.inputIndexes.idxOf n) .output
  (List.range p.loopNumber).foldl (fun out iter =>
    p.commands.foldl (fun out c => c.runInPlace K R stack iter out) out) out

/-- What the loops of a buffer leave in the output, over what its regions copy there. -/
def contentInPlace (b : CommandBuffer × Tensor) : ℤ → α :=
  b.1.command.foldl (fun out c =>
    match c.op with
    | .loop p => p.runInPlace K R c.inputs c.outputs out
    | _ => out) (raster b.2.regions R.value)

end InPlace

namespace GeometryCumSum

/-! ### Region and loop -/

/-- `(axis + shape.size()) % shape.size()`, where the sum has 64 bits and no sign. -/
def frontAxis (input : Tensor) (axis : ℤ) : ℕ :=
  let sum := axis + input.dimensions
  ((if sum < 0 then sum + 2 ^ 64 else sum) % input.dimensions).toNat

section Parts

variable (n outside inside : ℕ) (exclusive reverse : Bool)

/-- The region of the first row. -/
def region : Region Ref :=
  let offset : ℤ := if reverse then ((n : ℤ) - 1) * inside else 0
  { src := { offset := offset, stride := ![inside * n, 1, 1] }
    dst := { offset := offset, stride := ![inside * n, 1, 1] }
    size := ![outside, inside, 1]
    origin := .input 0 }

/-- One iteration: a row is the row before it plus a row of the input. -/
def command : RegionCommand :=
  let step : ℤ := if reverse then -inside else inside
  let offset : ℤ := if reverse then ((n : ℤ) - 2) * inside else inside
  let viewStride : Fin 3 → ℤ := ![n * inside, 1, 1]
  let view0 : View := { offset := offset, stride := viewStride }
  let view1 : View := { offset := offset - step, stride := viewStride }
  { op := .binary 0
    size := ![outside, inside, 1]
    view := [view0, view1, if exclusive then view1 else view0]
    indexes := [2, 0, 1]
    iterIndexes := [-1, -1, -1]
    steps := [step, step, step] }

def loop : LoopParam where
  commands := [command n outside inside exclusive reverse]
  -- cumsum(i) = cumsum(i-1) + x(i), so can't do outside parallel
  loopNumber := n - 1
  tensorNumber := 3
  inputIndexes := [0, 1]
  outputIndexes := [2]

end Parts

def onCompute (input output : Tensor) (axis : ℤ) (exclusive reverse : Bool) :
    CommandBuffer × Tensor :=
  let axis := frontAxis input axis
  let n := input.length axis
  ({ command := if n = 1 then [] else
      [{ op := .loop (loop n (input.outside axis) (input.inside axis) exclusive reverse)
         inputs := [.output, .input 0] }] },
    { output with
      virtual := true
      regions := if exclusive then output.regions
        else [region n (input.outside axis) (input.inside axis) reverse] })

end GeometryCumSum

/-! ### Indices -/

section Index

variable {shape i : List ℕ}

theorem addressOf_lt (h : List.Forall₂ (· < ·) i shape) : addressOf shape i < shape.prod := by
  induction h with
  | nil => exact Nat.one_pos
  | @cons k d i shape hk _ ih =>
    rw [addressOf, List.prod_cons]
    calc k * shape.prod + addressOf shape i < k * shape.prod + shape.prod :=
          Nat.add_lt_add_left ih _
      _ = (k + 1) * shape.prod := (Nat.succ_mul k _).symm
      _ ≤ d * shape.prod := Nat.mul_le_mul_right _ hk

/-- The address of an index is that of a cell. -/
theorem addressOf_eq_cell (h : i.length = shape.length) {a : ℕ} (ha : a < shape.length) :
    addressOf shape i = cell (shape.drop (a + 1)).prod (shape.getD a 1)
      (addressOf (shape.take a) (i.take a)) (i.getD a 0)
      (addressOf (shape.drop (a + 1)) (i.drop (a + 1))) := by
  induction shape generalizing i a with
  | nil => exact absurd ha (Nat.not_lt_zero a)
  | cons d shape ih =>
    obtain ⟨k, i, rfl⟩ := List.exists_cons_of_length_eq_add_one h
    cases a with
    | zero =>
      simp only [List.take_zero, addressOf, cell, List.getD_cons_zero, List.drop_succ_cons,
        List.drop_zero, Nat.zero_mul, Nat.zero_add]
    | succ a =>
      have ha' : a < shape.length := Nat.lt_of_succ_lt_succ ha
      have hprod : shape.prod = (shape.take a).prod * shape.getD a 1 * (shape.drop (a + 1)).prod :=
        Tensor.rawSize_eq (t := { shape := shape }) ha'
      rw [addressOf, ih (Nat.succ.inj h) ha', List.take_succ_cons, List.take_succ_cons, addressOf,
        List.getD_cons_succ, List.getD_cons_succ, List.drop_succ_cons, List.drop_succ_cons, hprod]
      simp only [cell]
      ring

theorem getD_lt (h : List.Forall₂ (· < ·) i shape) {a : ℕ} (ha : a < shape.length) :
    i.getD a 0 < shape.getD a 1 := by
  have hlen := h.length_eq
  have hget := (List.forall₂_iff_get.1 h).2 a (hlen ▸ ha) ha
  rwa [List.getD_eq_getElem _ _ (hlen ▸ ha), List.getD_eq_getElem _ _ ha]

/-- The addresses when the index moves along an axis. -/
theorem addressOf_set (h : i.length = shape.length) {a : ℕ} (ha : a < shape.length) (k : ℕ) :
    addressOf shape (i.set a k) = cell (shape.drop (a + 1)).prod (shape.getD a 1)
      (addressOf (shape.take a) (i.take a)) k
      (addressOf (shape.drop (a + 1)) (i.drop (a + 1))) := by
  have hlen : (i.set a k).length = shape.length := by rw [List.length_set, h]
  have hget : (i.set a k).getD a 0 = k := by
    rw [List.getD_eq_getElem _ _ (hlen ▸ ha), List.getElem_set_self]
  rw [addressOf_eq_cell hlen ha, hget, List.take_set_of_le le_rfl,
    List.drop_set_of_lt (Nat.lt_succ_self a)]

end Index

namespace GeometryCumSum

/-! ### One iteration -/

section Iteration

variable {n outside inside : ℕ} {exclusive reverse : Bool}

/-- The row that is reached after `t` rows. -/
def rowAt (reverse : Bool) (n t : ℕ) : ℕ := if reverse then n - 1 - t else t

theorem rowAt_lt {t : ℕ} (ht : t < n) : rowAt reverse n t < n := by
  unfold rowAt
  split_ifs <;> omega

theorem rowAt_injective {t t' : ℕ} (ht : t < n) (ht' : t' < n)
    (h : rowAt reverse n t = rowAt reverse n t') : t = t' := by
  unfold rowAt at h
  split_ifs at h <;> omega

theorem cast_rowAt (reverse : Bool) {t : ℕ} (ht : t < n) :
    (rowAt reverse n t : ℤ) = if reverse then (n : ℤ) - 1 - t else t := by
  unfold rowAt
  split_ifs <;> omega

/-- Where the operands of an iteration begin: at the row before, or at the one that is written. -/
theorem offset_eq {V : Type*} (K : Kernels V) (R : Reader V) (stack : ℤ → Ref)
    (outside inside : ℕ) (exclusive reverse : Bool) {t : ℕ} (ht : t + 1 < n) :
    (command n outside inside exclusive reverse).offset K R stack t 0 =
        rowAt reverse n (t + 1) * inside ∧
      (command n outside inside exclusive reverse).offset K R stack t 1 =
        rowAt reverse n t * inside ∧
      (command n outside inside exclusive reverse).offset K R stack t 2 =
        rowAt reverse n (if exclusive then t else t + 1) * inside := by
  have hcast := cast_rowAt reverse ht
  have hcast' := cast_rowAt reverse (Nat.lt_of_succ_lt ht)
  refine ⟨?_, ?_, ?_⟩
  · rw [hcast]
    cases reverse <;> simp [RegionCommand.offset, RegionCommand.viewAt, command] <;> ring
  · rw [hcast']
    cases reverse
    · simp [RegionCommand.offset, RegionCommand.viewAt, command]
    · simp [RegionCommand.offset, RegionCommand.viewAt, command]
      ring
  · cases exclusive
    · rw [if_neg Bool.false_ne_true, hcast]
      cases reverse <;> simp [RegionCommand.offset, RegionCommand.viewAt, command] <;> ring
    · rw [if_pos rfl, hcast']
      cases reverse
      · simp [RegionCommand.offset, RegionCommand.viewAt, command]
      · simp [RegionCommand.offset, RegionCommand.viewAt, command]
        ring

/-- The address of an element of a row. -/
theorem address_eq {k v : ℕ} (hv : v < 3) {i : Fin 3 → ℤ} {z y : ℕ}
    (hi : i = ![(z : ℤ), (y : ℤ), 0]) :
    (k * inside : ℤ) +
      (i 0 * ((command n outside inside exclusive reverse).viewAt v).stride 0 +
        i 1 * ((command n outside inside exclusive reverse).viewAt v).stride 1 +
        i 2 * ((command n outside inside exclusive reverse).viewAt v).stride 2) =
      cell inside n z k y := by
  have hstride : ((command n outside inside exclusive reverse).viewAt v).stride =
      ![(n * inside : ℤ), 1, 1] := by
    match v with
    | 0 => rfl
    | 1 => rfl
    | 2 => cases exclusive <;> rfl
  rw [hstride, hi]
  simp only [Matrix.cons_val, cell]
  push_cast
  ring

/-- The indices of a row in each plane. -/
theorem exists_of_mem {i : Fin 3 → ℤ} (hi : i ∈ boxIndices ![(outside : ℤ), (inside : ℤ), 1]) :
    ∃ z < outside, ∃ y < inside, i = ![(z : ℤ), (y : ℤ), 0] := by
  have hbox := mem_boxIndices.1 hi
  have h₀ := hbox 0
  have h₁ := hbox 1
  have h₂ := hbox 2
  simp only [Matrix.cons_val] at h₀ h₁ h₂
  refine ⟨(i 0).toNat, by omega, (i 1).toNat, by omega, ?_⟩
  funext k
  fin_cases k
  · simp [h₀.1]
  · simp [h₁.1]
  · simp
    omega

variable {V : Type*} [AddCommMonoid V] {K : Kernels V} {R : Reader V}
  (hK : ∀ type a b, K.binary type 0 a b = a + b)

/-- The tensors of the loop: the output twice, and the input. -/
def stack (n : ℤ) : Ref := if n = 1 then .input 0 else .output

/-- The element at an index of the box, in row `k`. -/
def place (n inside k : ℕ) (i : Fin 3 → ℤ) : ℤ := cell inside n (i 0).toNat k (i 1).toNat

include hK

/-- The iteration as a loop of assignments, which read what was there before. -/
theorem runInPlace_eq {t : ℕ} (ht : t + 1 < n) (out : ℤ → V) :
    (command n outside inside exclusive reverse).runInPlace K R stack t out =
      (boxIndices ![(outside : ℤ), (inside : ℤ), 1]).foldl (fun out' i => Function.update out'
        (place n inside (rowAt reverse n (t + 1)) i)
        (out (place n inside (rowAt reverse n t) i) + R.value (.input 0)
          (place n inside (rowAt reverse n (if exclusive then t else t + 1)) i))) out := by
  have hsource : ∀ a ∈ boxIndices ![(outside : ℤ), (inside : ℤ), 1],
      ∀ b ∈ boxIndices ![(outside : ℤ), (inside : ℤ), 1],
        place n inside (rowAt reverse n t) b ≠ place n inside (rowAt reverse n (t + 1)) a := by
    intro a ha b hb heq
    obtain ⟨z, -, y, hy, rfl⟩ := exists_of_mem ha
    obtain ⟨z', -, y', hy', rfl⟩ := exists_of_mem hb
    have hcell : cell inside n z' (rowAt reverse n t) y' =
        cell inside n z (rowAt reverse n (t + 1)) y := by
      simpa [place] using heq
    have hrow := (cell_injective (rowAt_lt (Nat.lt_of_succ_lt ht)) (rowAt_lt ht) hy' hy hcell).2.1
    exact absurd (rowAt_injective (Nat.lt_of_succ_lt ht) ht hrow) (Nat.succ_ne_self t).symm
  rw [← Lib.foldl_update_read _ _ _ (fun i x => x + R.value (.input 0)
    (place n inside (rowAt reverse n (if exclusive then t else t + 1)) i)) hsource]
  refine List.foldl_ext _ _ _ fun out' i hi => ?_
  obtain ⟨z, -, y, -, hzy⟩ := exists_of_mem hi
  obtain ⟨htarget, hread, hinput⟩ :=
    offset_eq K (R.over out') stack outside inside exclusive reverse ht
  have hplace : ∀ k, place n inside k i = cell inside n z k y := by
    intro k
    rw [hzy]
    simp [place]
  rw [RegionCommand.target, htarget, address_eq (by omega) hzy, hK]
  simp only [RegionCommand.element, hread, hinput, address_eq (v := 1) (by omega) hzy,
    address_eq (v := 2) (by omega) hzy, hplace]
  rfl

/-- What an iteration leaves in a row: the row that it writes, and the others. -/
theorem runInPlace_row {t j : ℕ} (ht : t + 1 < n) (hj : j < n) (out : ℤ → V) {z y : ℕ}
    (hz : z < outside) (hy : y < inside) :
    (command n outside inside exclusive reverse).runInPlace K R stack t out
        (cell inside n z (rowAt reverse n j) y) =
      if j = t + 1 then
        out (cell inside n z (rowAt reverse n t) y) + R.value (.input 0)
          (cell inside n z (rowAt reverse n (if exclusive then t else t + 1)) y)
      else out (cell inside n z (rowAt reverse n j) y) := by
  have htarget : ∀ i ∈ boxIndices ![(outside : ℤ), (inside : ℤ), 1],
      place n inside (rowAt reverse n (t + 1)) i = cell inside n z (rowAt reverse n j) y →
        i = ![(z : ℤ), (y : ℤ), 0] ∧ j = t + 1 := by
    intro i hi heq
    obtain ⟨z', -, y', hy', rfl⟩ := exists_of_mem hi
    have hcell : cell inside n z' (rowAt reverse n (t + 1)) y' =
        cell inside n z (rowAt reverse n j) y := by
      simpa [place] using heq
    obtain ⟨rfl, hrow, rfl⟩ := cell_injective (rowAt_lt ht) (rowAt_lt hj) hy' hy hcell
    exact ⟨rfl, (rowAt_injective ht hj hrow).symm⟩
  rw [runInPlace_eq hK ht]
  by_cases hjt : j = t + 1
  · rw [if_pos hjt]
    have hmem : ![(z : ℤ), (y : ℤ), 0] ∈ boxIndices ![(outside : ℤ), (inside : ℤ), 1] := by
      refine mem_boxIndices.2 fun k => ?_
      fin_cases k <;> simp <;> omega
    refine Lib.foldl_update_of_agree _ _ _ (fun i hi heq => ?_) _ (.inl ⟨_, hmem, ?_⟩)
    · rw [(htarget i hi heq).1]
      simp [place]
    · simp [place, hjt]
  · rw [if_neg hjt]
    exact Lib.foldl_update_of_ne _ _ _ (fun i hi heq => hjt (htarget i hi heq).2) _

/-- The first rows after some iterations: each is the sum of the rows before it. -/
theorem run_rows {out : ℤ → V} (hout : ∀ z < outside, ∀ y < inside,
      out (cell inside n z (rowAt reverse n 0) y) = if exclusive then 0
        else R.value (.input 0) (cell inside n z (rowAt reverse n 0) y)) {t : ℕ} (ht : t < n) :
    ∀ j ≤ t, ∀ z < outside, ∀ y < inside, (List.range t).foldl (fun out iter =>
      (command n outside inside exclusive reverse).runInPlace K R stack iter out) out
        (cell inside n z (rowAt reverse n j) y) =
      ∑ l ∈ Finset.range (if exclusive then j else j + 1),
        R.value (.input 0) (cell inside n z (rowAt reverse n l) y) := by
  induction t with
  | zero =>
    intro j hj z hz y hy
    obtain rfl := Nat.le_zero.1 hj
    rw [List.range_zero, List.foldl_nil, hout z hz y hy]
    cases exclusive <;> simp
  | succ t ih =>
    intro j hj z hz y hy
    have ih := ih (Nat.lt_of_succ_lt ht)
    rw [List.range_succ, List.foldl_append, List.foldl_cons, List.foldl_nil,
      runInPlace_row hK ht (by omega) _ hz hy]
    by_cases hjt : j = t + 1
    · rw [if_pos hjt, ih t le_rfl z hz y hy, hjt]
      cases exclusive
      · exact (Finset.sum_range_succ _ (t + 1)).symm
      · exact (Finset.sum_range_succ _ t).symm
    · rw [if_neg hjt]
      exact ih j (by omega) z hz y hy

end Iteration

/-! ### The running sums -/

/-- Element `k` counts for the sum at `p`. -/
def Summed (exclusive reverse : Bool) (p k : ℕ) : Prop :=
  if reverse then if exclusive then p < k else p ≤ k
  else if exclusive then k < p else k ≤ p

instance (exclusive reverse : Bool) (p : ℕ) : DecidablePred (Summed exclusive reverse p) := by
  intro k
  unfold Summed
  infer_instance

/-- The output holds the running sums of the input along the axis, on which it may read and write
through any kernels that add. -/
def Accumulates (V : Type*) [AddCommMonoid V] (input : Tensor) (axis : ℤ)
    (exclusive reverse : Bool) : Prop :=
  let a := Recompute.frontAxis input axis
  ∀ (K : Kernels V) (R : Reader V), (∀ type x y, K.binary type 0 x y = x + y) →
    ∀ i, List.Forall₂ (· < ·) i input.shape →
      contentInPlace K R (onCompute input { shape := input.shape } axis exclusive reverse)
          (addressOf input.shape i) =
        ∑ k ∈ Finset.range (input.length a) with Summed exclusive reverse (i.getD a 0) k,
          R.value (.input 0) (addressOf input.shape (i.set a k))

theorem frontAxis_eq {input : Tensor} {axis : ℤ} (hlow : -(input.dimensions : ℤ) ≤ axis)
    (hhigh : axis < input.dimensions) : frontAxis input axis = Recompute.frontAxis input axis := by
  have hsum : ¬ axis + input.dimensions < 0 := by omega
  simp only [frontAxis, Recompute.frontAxis, Shape.fromEnd, if_neg hsum]
  split_ifs with hneg
  · rw [Int.emod_eq_of_lt (by omega) (by omega)]
  · rw [Int.add_emod_right, Int.emod_eq_of_lt (by omega) (by omega)]

section Sums

variable {V : Type*} [AddCommMonoid V] {n p : ℕ} {exclusive reverse : Bool}

/-- The rows in the order of the loop are the rows that count. -/
theorem sum_rowAt (hp : p < n) (v : ℕ → V) :
    ∑ l ∈ Finset.range (if exclusive then rowAt reverse n p else rowAt reverse n p + 1),
        v (rowAt reverse n l) =
      ∑ k ∈ Finset.range n with Summed exclusive reverse p k, v k := by
  refine Finset.sum_nbij' (rowAt reverse n) (rowAt reverse n) ?_ ?_ ?_ ?_ fun _ _ => rfl
  · intro l hl
    cases exclusive <;> cases reverse <;> simp [rowAt, Summed] at hl ⊢ <;> omega
  · intro k hk
    cases exclusive <;> cases reverse <;> simp [rowAt, Summed] at hk ⊢ <;> omega
  · intro l hl
    cases exclusive <;> cases reverse <;> simp [rowAt] at hl ⊢ <;> omega
  · intro k hk
    cases exclusive <;> cases reverse <;> simp [rowAt, Summed] at hk ⊢ <;> omega

variable {outside inside : ℕ}

/-- The region copies the first row. -/
theorem raster_region (value : Ref → ℤ → V) (reverse : Bool) (hn : 0 < n) {z y : ℕ}
    (hz : z < outside) (hy : y < inside) : raster [region n outside inside reverse] value
      (cell inside n z (rowAt reverse n 0) y) =
        value (.input 0) (cell inside n z (rowAt reverse n 0) y) := by
  have haddress : (region n outside inside reverse).dst.address ![(z : ℤ), (y : ℤ), 0] =
      cell inside n z (rowAt reverse n 0) y := by
    have hcast := cast_rowAt reverse hn
    simp only [View.address, region, cell]
    push_cast
    rw [hcast]
    cases reverse <;> simp <;> ring
  refine raster_of_agree ⟨_, List.mem_singleton_self _, _, ![(z : ℤ), (y : ℤ), 0],
    mem_boxIndices.1 ?_, haddress, haddress⟩ fun r hr s hs => ?_
  · refine mem_boxIndices.2 fun k => ?_
    fin_cases k <;> simp [region] <;> omega
  · obtain rfl := List.mem_singleton.1 hr
    obtain ⟨i, -, hsrc, hdst⟩ := hs
    exact congrArg (value (.input 0)) (hsrc.symm.trans hdst)

theorem stack_eq : (fun m : ℤ =>
    if (loop n outside inside exclusive reverse).outputIndexes.contains m then
      [Ref.output].getD ((loop n outside inside exclusive reverse).outputIndexes.idxOf m) .output
    else [Ref.output, .input 0].getD
      ((loop n outside inside exclusive reverse).inputIndexes.idxOf m) .output) = stack := by
  funext m
  unfold stack loop
  by_cases h2 : m = 2
  · simp [h2]
  · by_cases h0 : m = 0
    · simp [h0]
    · by_cases h1 : m = 1
      · simp [h1]
      · simp [h0, h1, h2]

/-- The loop over the rows, in both forms of the buffer. -/
theorem contentInPlace_eq (K : Kernels V) (R : Reader V) (input output : Tensor) (axis : ℤ)
    (exclusive reverse : Bool) :
    let a := frontAxis input axis
    contentInPlace K R (onCompute input output axis exclusive reverse) =
      (List.range (input.length a - 1)).foldl (fun out iter =>
        (command (input.length a) (input.outside a) (input.inside a) exclusive reverse).runInPlace
          K R stack iter out)
        (raster (onCompute input output axis exclusive reverse).2.regions R.value) := by
  intro a
  have hcommand : (onCompute input output axis exclusive reverse).1.command =
      if input.length a = 1 then [] else
        [{ op := .loop (loop (input.length a) (input.outside a) (input.inside a) exclusive reverse)
           inputs := [.output, .input 0] }] := rfl
  rw [contentInPlace, hcommand]
  by_cases hone : input.length a = 1
  · rw [if_pos hone, hone]
    rfl
  · rw [if_neg hone]
    simp only [List.foldl_cons, List.foldl_nil, LoopParam.runInPlace, stack_eq]
    rfl

/-- The first row after the regions. -/
theorem raster_first (value : Ref → ℤ → V) {input : Tensor} {axis : ℤ}
    (exclusive reverse : Bool) {a : ℕ} (ha : frontAxis input axis = a) (hn : 0 < input.length a) :
    ∀ z < input.outside a, ∀ y < input.inside a,
      raster (onCompute input { shape := input.shape } axis exclusive reverse).2.regions value
          (cell (input.inside a) (input.length a) z (rowAt reverse (input.length a) 0) y) =
        if exclusive then 0 else value (.input 0)
          (cell (input.inside a) (input.length a) z (rowAt reverse (input.length a) 0) y) := by
  intro z hz y hy
  cases exclusive
  · have hregion := raster_region value reverse hn hz hy
    rw [← ha] at hregion ⊢
    exact hregion
  · rfl

/-- **Running sums.** For every axis and both flags the region and the loop leave in the output the
running sums of the input. -/
theorem accumulates {input : Tensor} {axis : ℤ} (hlow : -(input.dimensions : ℤ) ≤ axis)
    (hhigh : axis < input.dimensions) (exclusive reverse : Bool) :
    Accumulates V input axis exclusive reverse := by
  intro K R hK i hi
  have haxis := frontAxis_eq hlow hhigh
  have ha : Recompute.frontAxis input axis < input.shape.length := by
    have hdims : (input.dimensions : ℤ) = input.shape.length := rfl
    simp only [Recompute.frontAxis, Shape.fromEnd]
    split_ifs <;> omega
  set a := Recompute.frontAxis input axis
  have hlen : i.length = input.shape.length := hi.length_eq
  have hp : i.getD a 0 < input.length a := getD_lt hi ha
  have hn : 0 < input.length a := Nat.zero_lt_of_lt hp
  -- the index before the axis and behind it
  have hz := addressOf_lt (List.forall₂_take a hi)
  have hy := addressOf_lt (List.forall₂_drop (a + 1) hi)
  have hrow : rowAt reverse (input.length a) (rowAt reverse (input.length a) (i.getD a 0)) =
      i.getD a 0 := by
    unfold rowAt
    split_ifs <;> omega
  have hlt : rowAt reverse (input.length a) (i.getD a 0) ≤ input.length a - 1 :=
    Nat.le_sub_one_of_lt (rowAt_lt hp)
  have hrows := run_rows hK (raster_first R.value exclusive reverse haxis hn)
    (Nat.sub_lt hn Nat.one_pos) _ hlt _ hz _ hy
  rw [hrow] at hrows
  rw [contentInPlace_eq, haxis, addressOf_eq_cell hlen ha]
  simp only [addressOf_set hlen ha]
  exact hrows.trans (sum_rowAt hp fun k => R.value (.input 0) (cell _ _ _ k _))

end Sums

end GeometryCumSum

end Mnn.Recompute
