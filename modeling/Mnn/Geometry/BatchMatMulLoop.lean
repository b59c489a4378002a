import Mnn.Geometry.BatchMatMul

/-!
# The batches of `GeometryBatchMatMul`

The loop that `GeometryBatchMatMul::onCompute` makes of a product of batches of matrices, against
the broadcasting of the batch dimensions.

* `batchSizes_eq`, `batchOffset_eq`: the sizes and the offset tables are those of broadcasting;
* `Batches`: two inputs whose batch dimensions broadcast to those of the output, and `batchProduct`:
  an element of their product;
* `LoopParam.reads`: what a loop reads;
* `run_matMul`: a loop of products;
* `onCompute_correct_iff`: **the loop is right exactly if the fast way is not taken for an input
  with another number of matrices than one or all**.
-/

namespace Mnn.Recompute.GeometryBatchMatMul

open Lib.Broadcast

variable {transposeA transposeB bias : Bool} {m : MatSizes} {batch0 batch1 batch : List ℕ}
  {inputs : List Tensor} {input0 input1 output : Tensor}

/-! ### Sizes and offsets -/

/-- `outputStrides` of an alignment. -/
def largeStrides : List (ℕ × ℕ) → List ℕ
  | [] => []
  | _ :: dims => largeSize dims :: largeStrides dims

/-- `input0Strides` and `input1Strides` of an alignment. -/
def smallStrides : List (ℕ × ℕ) → List ℕ
  | [] => []
  | p :: dims => (if 1 < p.1 then smallSize dims else 0) :: smallStrides dims

theorem largeStrides_congr {dims dims' : List (ℕ × ℕ)}
    (h : dims.map Prod.snd = dims'.map Prod.snd) : largeStrides dims = largeStrides dims' := by
  induction dims generalizing dims' with
  | nil =>
    obtain rfl : dims' = [] := List.map_eq_nil_iff.1 h.symm
    rfl
  | cons p dims ih =>
    cases dims' with
    | nil => cases h
    | cons p' dims' =>
      obtain ⟨-, htail⟩ := List.cons.inj h
      rw [largeStrides, largeStrides, ih htail, largeSize, largeSize, htail]

/-- The offset of a batch is its place in the input that is repeated. -/
theorem batchOffset_eq {dims : List (ℕ × ℕ)} (hpos : ∀ p ∈ dims, 0 < p.1) (o : ℕ) :
    batchOffset (largeStrides dims) (smallStrides dims) o = index dims o := by
  have hfold : ∀ (dims : List (ℕ × ℕ)), (∀ p ∈ dims, 0 < p.1) → ∀ (c : ℕ) (offset : ℤ),
      (((largeStrides dims).zip (smallStrides dims)).foldl (fun (s : ℕ × ℤ) (p : ℕ × ℕ) =>
        (s.1 % p.1, s.2 + p.2 * (s.1 / p.1))) (c, offset)).2 = offset + index dims c := by
    intro dims
    induction dims with
    | nil => exact fun _ c offset => (Int.add_zero offset).symm
    | cons p dims ih =>
      intro hpos c offset
      obtain ⟨hp, htail⟩ := List.forall_mem_cons.1 hpos
      rw [largeStrides, smallStrides, List.zip_cons_cons, List.foldl_cons, ih htail, index]
      by_cases hone : p.1 = 1
      · simp [hone]
      · have hlt : 1 < p.1 := by omega
        simp only [hlt, if_true, hone, if_false]
        push_cast
        ring
  exact (hfold dims hpos o 0).trans (Int.zero_add _)

/-- The lengths of an input and of the output at batch dimension `i`. -/
def batchDim (output input : Tensor) (i : ℕ) : ℕ × ℕ :=
  ((batchLength output input i).getD 1, output.length i)

theorem isSome_batchLength (output input : Tensor) (i : ℕ) :
    (batchLength output input i).isSome ↔ 1 < (batchDim output input i).1 := by
  unfold batchDim batchLength
  dsimp only
  split_ifs with h
  · simpa using h.2
  · simp

theorem batchSizes_fold (l : List ℕ) :
    l.foldr (fun i s => batchStep input0 input1 output s i) {} =
      { outputStrides := largeStrides (l.map (batchDim output input0))
        input0Strides := smallStrides (l.map (batchDim output input0))
        input1Strides := smallStrides (l.map (batchDim output input1))
        totalSize := largeSize (l.map (batchDim output input0))
        i0Size := smallSize (l.map (batchDim output input0))
        i1Size := smallSize (l.map (batchDim output input1)) } := by
  induction l with
  | nil => rfl
  | cons i l ih =>
    rw [List.foldr_cons, ih]
    simp only [batchStep, List.map_cons, largeStrides, smallStrides, largeSize_cons, smallSize_cons,
      isSome_batchLength, BatchSizes.mk.injEq, true_and]
    exact ⟨Nat.mul_comm _ _, Nat.mul_comm _ _, Nat.mul_comm _ _⟩

/-- The shape of a batch of matrices with `x` rows of length `y`. -/
theorem length_append {t : Tensor} {x y : ℕ} (ht : t.shape = batch ++ [x, y]) {i : ℕ} :
    t.dimensions = batch.length + 2 ∧ (i < batch.length → t.length i = batch.getD i 1) ∧
      t.length batch.length = x ∧ t.length (batch.length + 1) = y := by
  refine ⟨?_, fun hi => ?_, ?_, ?_⟩
  · rw [Tensor.dimensions, ht, List.length_append]
    rfl
  · rw [Tensor.length, ht, List.getD_append _ _ _ _ hi]
  · rw [Tensor.length, ht, List.getD_append_right _ _ _ _ le_rfl, Nat.sub_self]
    rfl
  · rw [Tensor.length, ht, List.getD_append_right _ _ _ _ (Nat.le_succ _), Nat.succ_sub le_rfl,
      Nat.sub_self]
    rfl

theorem pos_of_repeats {small large : List ℕ} (h : Repeats small large) :
    ∀ p ∈ pad small large, 0 < p.1 := by
  intro p hp
  obtain ⟨hone, hpos⟩ := h.aligned p hp
  omega

/-- The lengths that the code compares are those of the padded shapes. -/
theorem map_batchDim {input : Tensor} {x y e h : ℕ} (hin : input.shape = batch0 ++ [x, y])
    (hout : output.shape = batch ++ [e, h]) (hrep : Repeats batch0 batch) :
    (List.range batch.length).map (batchDim output input) = pad batch0 batch := by
  have hle := hrep.length_le
  have hlen : (pad batch0 batch).length = batch.length := by
    rw [pad, List.length_zip, List.length_append, List.length_replicate]
    omega
  refine List.ext_getElem (by rw [List.length_map, List.length_range, hlen]) fun i hi _ => ?_
  rw [List.length_map, List.length_range] at hi
  have hi' : i < (pad batch0 batch).length := by omega
  have hpos := pos_of_repeats hrep _ (List.getElem_mem hi')
  rw [List.getElem_map, List.getElem_range]
  have hsecond : output.length i = batch[i] := by
    rw [((length_append hout).2.1 hi), List.getD_eq_getElem _ _ hi]
  simp only [pad, List.getElem_zip] at hpos ⊢
  refine Prod.ext ?_ hsecond
  unfold batchDim batchLength
  dsimp only
  rw [(@length_append batch output e h hout 0).1, (@length_append batch0 input x y hin 0).1]
  by_cases hin0 : i < batch.length - batch0.length
  · rw [List.getElem_append_left (by rwa [List.length_replicate]), List.getElem_replicate, if_neg]
    · rfl
    · omega
  · have hj : i - (batch.length - batch0.length) < batch0.length := by omega
    rw [List.getElem_append_right (by rw [List.length_replicate]; omega)] at hpos ⊢
    simp only [List.length_replicate] at hpos ⊢
    have hindex : ((i : ℤ) - (((batch.length + 2 : ℕ) : ℤ) - ((batch0.length + 2 : ℕ) : ℤ))).toNat =
        i - (batch.length - batch0.length) := by omega
    rw [hindex, (length_append hin).2.1 hj, List.getD_eq_getElem _ _ hj]
    split_ifs with h
    · rfl
    · show 1 = _
      have hge : ((batch.length + 2 : ℕ) : ℤ) - ((batch0.length + 2 : ℕ) : ℤ) ≤ i := by omega
      have := not_and.1 h hge
      omega

/-! ### Products of batches -/

/-- Two inputs of rank at least two whose batch dimensions broadcast to those of the output; the
matrices fit together, and a bias has an element for each column. -/
structure Batches (transposeA transposeB : Bool) (inputs : List Tensor) (output : Tensor)
    (batch0 batch1 batch : List ℕ) (m : MatSizes) : Prop where
  shape0 : (inputs.getD 0 {}).shape = batch0 ++ if transposeA then [m.l, m.e] else [m.e, m.l]
  shape1 : (inputs.getD 1 {}).shape = batch1 ++ if transposeB then [m.h, m.l] else [m.l, m.h]
  shape : output.shape = batch ++ [m.e, m.h]
  repeats0 : Repeats batch0 batch
  repeats1 : Repeats batch1 batch
  pos : 0 < m.e ∧ 0 < m.l ∧ 0 < m.h
  bias : 2 < inputs.length → m.h ≤ (inputs.getD 2 {}).rawSize
  /-- Without batches the output is what a command computes. -/
  computed : batch = [] → output.virtual = false

theorem swap_pair (t : Bool) (x y : ℕ) :
    (if t then [y, x] else [x, y]) = [if t then y else x, if t then x else y] := by
  cases t <;> rfl

namespace Batches

variable (hB : Batches transposeA transposeB inputs output batch0 batch1 batch m)

include hB

theorem batchSizes_eq : batchSizes (inputs.getD 0 {}) (inputs.getD 1 {}) output =
    { outputStrides := largeStrides (pad batch0 batch)
      input0Strides := smallStrides (pad batch0 batch)
      input1Strides := smallStrides (pad batch1 batch)
      totalSize := batch.prod
      i0Size := batch0.prod
      i1Size := batch1.prod } := by
  have h0 := hB.shape0
  have h1 := hB.shape1
  rw [swap_pair] at h0 h1
  rw [batchSizes, List.foldl_reverse, (@length_append batch output _ _ hB.shape 0).1,
    Nat.add_sub_cancel, batchSizes_fold, map_batchDim h0 hB.shape hB.repeats0,
    map_batchDim h1 hB.shape hB.repeats1, largeSize_pad, hB.repeats0.smallSize,
    hB.repeats1.smallSize]

theorem matSizes_eq : matSizes transposeA transposeB (inputs.getD 0 {}) (inputs.getD 1 {}) = m := by
  have h0 := hB.shape0
  have h1 := hB.shape1
  rw [swap_pair] at h0 h1
  obtain ⟨hd0, -, hx0, hy0⟩ := @length_append batch0 _ _ _ h0 0
  obtain ⟨hd1, -, hx1, hy1⟩ := @length_append batch1 _ _ _ h1 0
  have hs0 : batch0.length + 2 - 1 = batch0.length + 1 := rfl
  have hs1 : batch1.length + 2 - 1 = batch1.length + 1 := rfl
  simp only [matSizes, hd0, hd1, Nat.add_sub_cancel, hs0, hs1, hx0, hy0, hx1, hy1]
  cases transposeA <;> cases transposeB <;> rfl

/-- The numbers of elements. -/
theorem rawSize_eq : (inputs.getD 0 {}).rawSize = batch0.prod * (m.e * m.l) ∧
    (inputs.getD 1 {}).rawSize = batch1.prod * (m.l * m.h) := by
  constructor
  · rw [Tensor.rawSize, hB.shape0, List.prod_append]
    cases transposeA <;> simp [Nat.mul_comm]
  · rw [Tensor.rawSize, hB.shape1, List.prod_append]
    cases transposeB <;> simp [Nat.mul_comm]

theorem batch_pos : 0 < batch0.prod ∧ 0 < batch1.prod ∧ 0 < batch.prod := by
  have hbatch : 0 < batch.prod := by
    rw [← largeSize_pad batch0 batch]
    exact hB.repeats0.aligned.largeSize_pos
  exact ⟨(Nat.zero_le _).trans_lt (hB.repeats0.index_lt hbatch),
    (Nat.zero_le _).trans_lt (hB.repeats1.index_lt hbatch), hbatch⟩

end Batches

theorem rawSize_eq_zero {t : Tensor} (h : t.elementSize = 0) : t.rawSize = 0 := by
  rw [Tensor.elementSize, List.prod_eq_zero_iff, List.mem_mapIdx] at h
  obtain ⟨i, hi, hz⟩ := h
  rw [Tensor.rawSize, List.prod_eq_zero_iff]
  have h0 : t.shape[i] = 0 := by
    split_ifs at hz with hc
    · omega
    · exact hz
  rw [← h0]
  exact List.getElem_mem hi

/-- An element of the product of two matrices, with the bias of its column. -/
def matProduct {α : Type*} (K : Kernels α) (transposeA transposeB : Bool) (m : MatSizes)
    (A B : ℕ → α) (bias : Option (ℕ → α)) (i j : ℕ) : α :=
  K.dot ((List.range m.l).map fun k =>
      (A (if transposeA then k * m.e + i else i * m.l + k),
        B (if transposeB then j * m.l + k else k * m.h + j)))
    (bias.map fun b => b j)

/-- Element `o` of the product of batches: the batch it is in, broadcast to both inputs, and its row
and column. -/
def batchProduct {α : Type*} (K : Kernels α) (transposeA transposeB : Bool) (m : MatSizes)
    (batch0 batch1 batch : List ℕ) (A B : ℤ → α) (bias : Option (ℕ → α)) (o : ℕ) : α :=
  let b := o / (m.e * m.h)
  matProduct K transposeA transposeB m
    (fun a => A ((index (pad batch0 batch) b * (m.e * m.l) + a : ℕ)))
    (fun a => B ((index (pad batch1 batch) b * (m.l * m.h) + a : ℕ))) bias (o / m.h % m.e) (o % m.h)

/-! ### Loops of products -/

end GeometryBatchMatMul

section Loop

variable {α : Type*} (K : Kernels α) (R : Reader α) (inputs outputs : List Ref)

/-- The tensors of a loop by their numbers. -/
def LoopParam.stack (p : LoopParam) (n : ℤ) : Ref :=
  if p.outputIndexes.contains n then outputs.getD (p.outputIndexes.idxOf n) .output
  else inputs.getD (p.inputIndexes.idxOf n) .output

/-- The addresses that operands `1`, `2`, ... of the commands are read at. -/
def LoopParam.reads (p : LoopParam) : Set (Ref × ℤ) :=
  {x | ∃ iter < p.loopNumber, ∃ c ∈ p.commands, ∃ v, 0 < v ∧ v < c.indexes.length ∧
    ∃ i ∈ boxIndices c.size, x = (c.operand (p.stack inputs outputs) v,
      c.offset K R (p.stack inputs outputs) iter v + (i 0 * (c.viewAt v).stride 0 +
        i 1 * (c.viewAt v).stride 1 + i 2 * (c.viewAt v).stride 2))}

variable [Zero α]

theorem LoopParam.run_one {p : LoopParam} {c : RegionCommand} (hc : p.commands = [c])
    (out : ℤ → α) :
    p.run K R inputs outputs out = (List.range p.loopNumber).foldl
      (fun out iter => c.run K R (p.stack inputs outputs) iter out) out := by
  rw [LoopParam.run, hc]
  rfl

end Loop

namespace GeometryBatchMatMul

open Lib.Broadcast

variable {transposeA transposeB bias : Bool} {m : MatSizes} {batch0 batch1 batch : List ℕ}
  {inputs : List Tensor} {output : Tensor}

/-- The batch, row and column of an element of the output. -/
theorem split_index {e h b i j : ℕ} (hi : i < e) (hj : j < h) :
    (b * (e * h) + (i * h + j)) / (e * h) = b ∧ (b * (e * h) + (i * h + j)) / h % e = i ∧
      (b * (e * h) + (i * h + j)) % h = j := by
  have hlt : i * h + j < e * h := by
    calc i * h + j < i * h + h := Nat.add_lt_add_left hj _
      _ = (i + 1) * h := by ring
      _ ≤ e * h := Nat.mul_le_mul_right h hi
  have heq : b * (e * h) + (i * h + j) = (b * e + i) * h + j := by ring
  refine ⟨?_, ?_, ?_⟩
  · rw [Nat.mul_comm, Nat.mul_add_div (by omega), Nat.div_eq_of_lt hlt, Nat.add_zero]
  · rw [heq, Nat.mul_comm, Nat.mul_add_div (by omega), Nat.div_eq_of_lt hj, Nat.add_zero,
      Nat.mul_comm, Nat.mul_add_mod, Nat.mod_eq_of_lt hi]
  · rw [heq, Nat.mul_comm, Nat.mul_add_mod, Nat.mod_eq_of_lt hj]

/-- The passes of the loops over batches, rows and columns. -/
theorem mem_passes {n e h : ℕ} {x : ℕ × (Fin 3 → ℤ)} :
    x ∈ (List.range n).flatMap (fun iter => (boxIndices ![(e : ℤ), 1, h]).map fun i => (iter, i)) ↔
      ∃ b < n, ∃ i < e, ∃ j < h, x = (b, ![(i : ℤ), 0, (j : ℤ)]) := by
  have hone : Int.toNat 1 = 1 := rfl
  simp [boxIndices, hone]
  constructor
  · rintro ⟨b, hb, i, hi, j, hj, rfl⟩
    exact ⟨b, hb, i, hi, j, hj, rfl⟩
  · rintro ⟨b, hb, i, hi, j, hj, rfl⟩
    exact ⟨b, hb, i, hi, j, hj, rfl⟩

/-- The operator itself, on two matrices. -/
theorem run_plain {α : Type*} [Zero α] (K : Kernels α) (R : Reader α) {c : Command}
    (hop : c.op = .op) (hins : c.inputs = [.input 0, .input 1] ++ if bias then [.input 2] else [])
    (hs0 : R.shape (.input 0) = if transposeA then [m.l, m.e] else [m.e, m.l])
    (hs1 : R.shape (.input 1) = if transposeB then [m.h, m.l] else [m.l, m.h]) (out : ℤ → α) {o : ℕ}
    (ho : o < m.e * m.h) : c.run K (.matMul transposeA transposeB) R out o =
      matProduct K transposeA transposeB m (fun a => R.value (.input 0) a)
        (fun a => R.value (.input 1) a)
        (if bias then some fun j : ℕ => R.value (.input 2) j else none) (o / m.h) (o % m.h) := by
  obtain ⟨what, ins, outs⟩ := c
  subst hop hins
  have hlt : (o : ℤ) < m.e * m.h := by exact_mod_cast ho
  cases transposeA <;> cases transposeB <;> cases bias <;>
    simp [Command.run, hs0, hs1, hlt, matProduct]

/-- What the commands of both loops have in common: the product of matrix `q0 iter` of `A` and
matrix `q1 iter` of `B` goes to matrix `iter`. -/
structure Multiplies {α : Type*} (K : Kernels α) (R : Reader α) (stack : ℤ → Ref)
    (transposeA transposeB bias : Bool) (m : MatSizes) (n : ℕ) (q0 q1 : ℕ → ℕ)
    (c : RegionCommand) : Prop where
  op : c.op = .matMul transposeA transposeB
  size : c.size = ![(m.e : ℤ), m.l, m.h]
  view : c.view = allViews transposeA transposeB bias m
  indexes : c.indexes.length = if bias then 4 else 3
  offset0 : ∀ iter < n, c.offset K R stack iter 0 = iter * (m.e * m.h : ℤ)
  offset1 : ∀ iter < n, c.offset K R stack iter 1 = q0 iter * (m.e * m.l : ℤ)
  offset2 : ∀ iter < n, c.offset K R stack iter 2 = q1 iter * (m.l * m.h : ℤ)
  offset3 : bias → ∀ iter < n, c.offset K R stack iter 3 = 0
  operand1 : c.operand stack 1 = .input 0
  operand2 : c.operand stack 2 = .input 1
  operand3 : bias → c.operand stack 3 = .input 2

section Run

variable {α : Type*} {K : Kernels α} {R : Reader α} {stack : ℤ → Ref} {n : ℕ} {q0 q1 : ℕ → ℕ}
  {c : RegionCommand}

namespace Multiplies

variable (hM : Multiplies K R stack transposeA transposeB bias m n q0 q1 c)

include hM

theorem view_eq : c.viewAt 0 = { stride := ![m.h, 0, 1] } ∧
    c.viewAt 1 = { stride := if transposeA then ![1, m.e, 0] else ![m.l, 1, 0] } ∧
    c.viewAt 2 = { stride := if transposeB then ![0, 1, m.l] else ![0, m.h, 1] } ∧
    (bias → c.viewAt 3 = { stride := ![0, 0, 1] }) := by
  simp only [RegionCommand.viewAt, hM.view, allViews]
  refine ⟨rfl, rfl, rfl, fun hb => ?_⟩
  rw [hb]
  rfl

/-- The elements that the operands are read at, for row `i`, column `j` and summand `k`. -/
theorem address_eq {iter : ℕ} (hiter : iter < n) (i k j : ℕ) :
    c.offset K R stack iter 1 + ((i : ℤ) * (c.viewAt 1).stride 0 + (k : ℤ) * (c.viewAt 1).stride 1 +
        (j : ℤ) * (c.viewAt 1).stride 2) =
      (q0 iter * (m.e * m.l) + if transposeA then k * m.e + i else i * m.l + k : ℕ) ∧
    c.offset K R stack iter 2 + ((i : ℤ) * (c.viewAt 2).stride 0 + (k : ℤ) * (c.viewAt 2).stride 1 +
        (j : ℤ) * (c.viewAt 2).stride 2) =
      (q1 iter * (m.l * m.h) + if transposeB then j * m.l + k else k * m.h + j : ℕ) := by
  obtain ⟨-, hv1, hv2, -⟩ := hM.view_eq
  rw [hM.offset1 iter hiter, hM.offset2 iter hiter, hv1, hv2]
  constructor
  · cases transposeA
    · simp
    · simp
      ring
  · cases transposeB
    · simp
    · simp
      ring

theorem element_eq {iter : ℕ} (hiter : iter < n) (i k j : ℕ) :
    c.element K R stack iter 1 ![(i : ℤ), (k : ℤ), (j : ℤ)] = R.value (.input 0)
        ((q0 iter * (m.e * m.l) + if transposeA then k * m.e + i else i * m.l + k : ℕ)) ∧
      c.element K R stack iter 2 ![(i : ℤ), (k : ℤ), (j : ℤ)] = R.value (.input 1)
        ((q1 iter * (m.l * m.h) + if transposeB then j * m.l + k else k * m.h + j : ℕ)) := by
  obtain ⟨h1, h2⟩ := hM.address_eq hiter i k j
  rw [← h1, ← h2, ← hM.operand1, ← hM.operand2]
  exact ⟨rfl, rfl⟩

/-- Row `i`, column `j` of one iteration goes to its place in the output. -/
theorem target_eq {iter : ℕ} (hiter : iter < n) (i j : ℕ) :
    c.target K R stack iter ![(i : ℤ), 0, (j : ℤ)] =
      (iter * (m.e * m.h) + (i * m.h + j) : ℕ) := by
  rw [RegionCommand.target, hM.offset0 iter hiter, hM.view_eq.1]
  simp

/-- **A loop of products** leaves the product of the matrices that each batch is given. -/
theorem run_eq [Zero α] (he : 0 < m.e) (hh : 0 < m.h) (out : ℤ → α) {o : ℕ}
    (ho : o < n * (m.e * m.h)) :
    (List.range n).foldl (fun out iter => c.run K R stack iter out) out o =
      matProduct K transposeA transposeB m
        (fun a => R.value (.input 0) ((q0 (o / (m.e * m.h)) * (m.e * m.l) + a : ℕ)))
        (fun a => R.value (.input 1) ((q1 (o / (m.e * m.h)) * (m.l * m.h) + a : ℕ)))
        (if bias then some fun j : ℕ => R.value (.input 2) j else none) (o / m.h % m.e)
        (o % m.h) := by
  have hpos : 0 < m.e * m.h := Nat.mul_pos he hh
  -- one loop of assignments, over batches, rows and columns
  have hrun : ∀ out iter, c.run K R stack iter out =
      (boxIndices ![(m.e : ℤ), 1, m.h]).foldl (fun out i =>
        Function.update out (c.target K R stack iter i) (K.dot
          ((List.range m.l).map fun l : ℕ => (c.element K R stack iter 1 ![i 0, l, i 2],
            c.element K R stack iter 2 ![i 0, l, i 2]))
          (if bias then some (c.element K R stack iter 3 i) else none))) out := by
    intro out iter
    have hbias : (3 < c.indexes.length) ↔ bias = true := by
      rw [hM.indexes]
      cases bias <;> simp
    simp only [RegionCommand.run, hM.op, hM.size, hbias]
    rfl
  have hflat : (List.range n).foldl (fun out iter => c.run K R stack iter out) out =
      ((List.range n).flatMap fun iter => (boxIndices ![(m.e : ℤ), 1, m.h]).map fun i =>
        (iter, i)).foldl (fun out x =>
        Function.update out (c.target K R stack x.1 x.2) (K.dot
          ((List.range m.l).map fun l : ℕ => (c.element K R stack x.1 1 ![x.2 0, l, x.2 2],
            c.element K R stack x.1 2 ![x.2 0, l, x.2 2]))
          (if bias then some (c.element K R stack x.1 3 x.2) else none))) out := by
    simp only [hrun, List.foldl_flatMap, List.foldl_map]
  rw [hflat]
  refine Lib.foldl_update_of_agree _ _ _ ?_ out (.inl ?_)
  · rintro x hx htarget
    obtain ⟨b, hb, i, hi, j, hj, rfl⟩ := mem_passes.1 hx
    dsimp only at htarget ⊢
    rw [hM.target_eq hb, Nat.cast_inj] at htarget
    obtain ⟨hob, hoi, hoj⟩ := @split_index m.e m.h b i j hi hj
    rw [← htarget, hob, hoi, hoj, matProduct]
    congr 1
    · refine List.map_congr_left fun k _ => ?_
      obtain ⟨h1, h2⟩ := hM.element_eq hb i k j
      exact Prod.ext h1 h2
    · cases bias with
      | false => rfl
      | true =>
        show some _ = some _
        rw [RegionCommand.element, hM.operand3 rfl, hM.offset3 rfl b hb, hM.view_eq.2.2.2 rfl]
        simp
  · have hb : o / (m.e * m.h) < n := (Nat.div_lt_iff_lt_mul hpos).2 ho
    refine ⟨_, mem_passes.2 ⟨o / (m.e * m.h), hb, o / m.h % m.e, Nat.mod_lt _ he, o % m.h,
      Nat.mod_lt _ hh, rfl⟩, ?_⟩
    dsimp only
    rw [hM.target_eq hb, Nat.cast_inj]
    have h1 := Nat.div_add_mod o m.h
    have h2 := Nat.div_add_mod (o / m.h) m.e
    rw [Nat.div_div_eq_div_mul, Nat.mul_comm m.h m.e] at h2
    calc o / (m.e * m.h) * (m.e * m.h) + (o / m.h % m.e * m.h + o % m.h) =
          m.h * (m.e * (o / (m.e * m.h)) + o / m.h % m.e) + o % m.h := by ring
      _ = o := by rw [h2, h1]

variable {p : LoopParam} {ins outs : List Ref}

omit hM in
/-- What a loop of products reads. -/
theorem reads_cases (hM : Multiplies K R (p.stack ins outs) transposeA transposeB bias m n q0 q1 c)
    (hc : p.commands = [c]) (hn : p.loopNumber = n) {x : Ref × ℤ} (hx : x ∈ p.reads K R ins outs) :
    (∃ b < n, ∃ a < m.e * m.l, x = (.input 0, ((q0 b * (m.e * m.l) + a : ℕ) : ℤ))) ∨
      (∃ b < n, ∃ a < m.l * m.h, x = (.input 1, ((q1 b * (m.l * m.h) + a : ℕ) : ℤ))) ∨
      bias = true ∧ ∃ j < m.h, x = (.input 2, (j : ℤ)) := by
  obtain ⟨b, hb, c', hc', v, hv, hvlen, i, hi, rfl⟩ := hx
  rw [hc, List.mem_singleton] at hc'
  subst hc'
  rw [hn] at hb
  rw [hM.size, mem_boxIndices] at hi
  obtain ⟨z, hz⟩ := Int.eq_ofNat_of_zero_le (hi 0).1
  obtain ⟨y, hy⟩ := Int.eq_ofNat_of_zero_le (hi 1).1
  obtain ⟨x, hx⟩ := Int.eq_ofNat_of_zero_le (hi 2).1
  have hzlt : z < m.e := by have := (hi 0).2; simp [hz] at this; exact this
  have hylt : y < m.l := by have := (hi 1).2; simp [hy] at this; exact this
  have hxlt : x < m.h := by have := (hi 2).2; simp [hx] at this; exact this
  obtain ⟨h1, h2⟩ := hM.address_eq hb z y x
  rw [hz, hy, hx]
  have hrow : ∀ {i j x y : ℕ}, i < x → j < y → i * y + j < x * y := by
    intro i j x y hi hj
    calc i * y + j < i * y + y := Nat.add_lt_add_left hj _
      _ = (i + 1) * y := by ring
      _ ≤ x * y := Nat.mul_le_mul_right y hi
  rw [hM.indexes] at hvlen
  obtain rfl | rfl | ⟨rfl, hbias⟩ : v = 1 ∨ v = 2 ∨ v = 3 ∧ bias = true := by
    cases bias <;> simp at hvlen ⊢ <;> omega
  · refine .inl ⟨b, hb, _, ?_, Prod.ext hM.operand1 h1⟩
    split_ifs
    · rw [Nat.mul_comm m.e]
      exact hrow hylt hzlt
    · exact hrow hzlt hylt
  · refine .inr (.inl ⟨b, hb, _, ?_, Prod.ext hM.operand2 h2⟩)
    split_ifs
    · rw [Nat.mul_comm m.l]
      exact hrow hxlt hylt
    · exact hrow hylt hxlt
  · refine .inr (.inr ⟨hbias, x, hxlt, Prod.ext (hM.operand3 hbias) ?_⟩)
    dsimp only
    rw [hM.offset3 hbias b hb, hM.view_eq.2.2.2 hbias]
    simp

omit hM in
/-- Each pass reads the first elements of its two matrices. -/
theorem mem_reads (hM : Multiplies K R (p.stack ins outs) transposeA transposeB bias m n q0 q1 c)
    (hc : p.commands = [c]) (hn : p.loopNumber = n) (hpos : 0 < m.e ∧ 0 < m.l ∧ 0 < m.h) {b : ℕ}
    (hb : b < n) :
    (.input 0, ((q0 b * (m.e * m.l) : ℕ) : ℤ)) ∈ p.reads K R ins outs ∧
      (.input 1, ((q1 b * (m.l * m.h) : ℕ) : ℤ)) ∈ p.reads K R ins outs := by
  obtain ⟨h1, h2⟩ := hM.address_eq hb 0 0 0
  have hmem : ![(0 : ℤ), 0, 0] ∈ boxIndices c.size := by
    rw [hM.size, mem_boxIndices]
    intro k
    fin_cases k <;> simp <;> omega
  have hlen : 2 < c.indexes.length := by
    rw [hM.indexes]
    split_ifs <;> omega
  have hcp : c ∈ p.commands := by
    rw [hc]
    exact List.mem_cons_self
  rw [← hn] at hb
  constructor
  · refine ⟨b, hb, c, hcp, 1, by omega, by omega, _, hmem, Prod.ext hM.operand1.symm ?_⟩
    refine Eq.trans ?_ h1.symm
    simp
  · refine ⟨b, hb, c, hcp, 2, by omega, by omega, _, hmem, Prod.ext hM.operand2.symm ?_⟩
    refine Eq.trans ?_ h2.symm
    simp

end Multiplies

end Run

/-! ### The two loops -/

section Loops

variable {α : Type*} {K : Kernels α} {R : Reader α} {s : BatchSizes} {n : ℕ} {q0 q1 : ℕ → ℕ}
  {c : RegionCommand}

/-- The operands of the command. -/
def operands (bias : Bool) (tables : List Ref) : List Ref :=
  [.input 0, .input 1] ++ tables ++ if bias then [Ref.input 2] else []

theorem fastLoop_multiplies (hc : (fastLoop transposeA transposeB bias m s).commands = [c])
    (h0 : ∀ b < n, q0 b = if s.i0Size = 1 then 0 else b)
    (h1 : ∀ b < n, q1 b = if s.i1Size = 1 then 0 else b) :
    Multiplies K R ((fastLoop transposeA transposeB bias m s).stack (operands bias []) [.output])
      transposeA transposeB bias m n q0 q1 c := by
  obtain ⟨rfl, -⟩ := List.cons.inj hc
  constructor
  · rfl
  · rfl
  · rfl
  · cases bias <;> rfl
  · intro iter _
    cases bias <;> simp [RegionCommand.offset, RegionCommand.viewAt, allViews, fastSteps]
  · intro iter hiter
    rw [h0 iter hiter]
    cases bias <;> simp [RegionCommand.offset, RegionCommand.viewAt, allViews, fastSteps]
  · intro iter hiter
    rw [h1 iter hiter]
    cases bias <;> simp [RegionCommand.offset, RegionCommand.viewAt, allViews, fastSteps]
  · rintro rfl iter _
    simp [RegionCommand.offset, RegionCommand.viewAt, allViews, fastSteps]
  · cases bias <;> rfl
  · cases bias <;> rfl
  · rintro rfl
    rfl

/-- Where the fast way reads from in pass `b`. -/
theorem fastLoop_reads (hpos : 0 < m.e ∧ 0 < m.l ∧ 0 < m.h) {b : ℕ} (hb : b < s.totalSize) :
    (.input 0, (((if s.i0Size = 1 then 0 else b) * (m.e * m.l) : ℕ) : ℤ)) ∈
        (fastLoop transposeA transposeB bias m s).reads K R (operands bias []) [.output] ∧
      (.input 1, (((if s.i1Size = 1 then 0 else b) * (m.l * m.h) : ℕ) : ℤ)) ∈
        (fastLoop transposeA transposeB bias m s).reads K R (operands bias []) [.output] :=
  (fastLoop_multiplies rfl (fun _ _ => rfl) fun _ _ => rfl).mem_reads rfl rfl hpos hb

theorem offsetLoop_multiplies (hc : (offsetLoop transposeA transposeB bias m s).commands = [c])
    (h0 : ∀ b < n, K.toInt (R.value (.const 0) b) = q0 b)
    (h1 : ∀ b < n, K.toInt (R.value (.const 1) b) = q1 b) :
    Multiplies K R ((offsetLoop transposeA transposeB bias m s).stack
      (operands bias [.const 0, .const 1]) [.output]) transposeA transposeB bias m n q0 q1 c := by
  have hstack : ∀ bias, (offsetLoop transposeA transposeB bias m s).stack
        (operands bias [.const 0, .const 1]) [.output] 2 = .const 0 ∧
      (offsetLoop transposeA transposeB bias m s).stack
        (operands bias [.const 0, .const 1]) [.output] 3 = .const 1 := by
    intro bias
    cases bias <;> exact ⟨rfl, rfl⟩
  obtain ⟨rfl, -⟩ := List.cons.inj hc
  constructor
  · rfl
  · rfl
  · rfl
  · cases bias <;> rfl
  · intro iter _
    cases bias <;> simp [RegionCommand.offset, RegionCommand.viewAt, allViews]
  · intro iter hiter
    cases bias <;>
      simp [RegionCommand.offset, RegionCommand.viewAt, allViews, (hstack _).1, h0 iter hiter]
  · intro iter hiter
    cases bias <;>
      simp [RegionCommand.offset, RegionCommand.viewAt, allViews, (hstack _).2, h1 iter hiter]
  · rintro rfl iter _
    simp [RegionCommand.offset, RegionCommand.viewAt, allViews]
  · cases bias <;> rfl
  · cases bias <;> rfl
  · rintro rfl
    rfl

end Loops

/-! ### What `onCompute` makes -/

section Content

variable {α : Type*} [Zero α] {K : Kernels α} {start : Memory α}

/-- Every loop of a buffer reads the operator's inputs inside. -/
def ReadsInside (K : Kernels α) (inputs : List Tensor) (output : Tensor) (b : CommandBuffer)
    (start : Memory α) : Prop :=
  ∀ c ∈ b.command, ∀ p, c.op = .loop p → ∀ i a, (Ref.input i, a) ∈
      p.reads K (reader inputs output b (b.memory K start)) c.inputs c.outputs →
    0 ≤ a ∧ a < (inputs.getD i {}).rawSize

/-- The product of batches is what the buffer leaves, and its loops read inside. -/
def Correct (K : Kernels α) (transposeA transposeB : Bool) (inputs : List Tensor)
    (output : Tensor) (batch0 batch1 batch : List ℕ) (m : MatSizes) (start : Memory α)
    (r : CommandBuffer × Tensor) : Prop :=
  (∀ o < output.rawSize, content K (.matMul transposeA transposeB) inputs r.2 r.1 start o =
    batchProduct K transposeA transposeB m batch0 batch1 batch (start (.input 0)) (start (.input 1))
      (if 2 < inputs.length then some fun j : ℕ => start (.input 2) j else none) o) ∧
  ReadsInside K inputs r.2 r.1 start

/-- The inputs and the tables are read as they are. -/
theorem reader_value (b : CommandBuffer) (start : Memory α) (i : ℕ) :
    (reader inputs output b (b.memory K start)).value (.input i) = start (.input i) ∧
      (reader inputs output b (b.memory K start)).value (.const i) =
        fun o => K.ofInt ((b.consts.getD i []).getD o.toNat 0) :=
  ⟨read_input _ _ _, rfl⟩

variable (hB : Batches transposeA transposeB inputs output batch0 batch1 batch m)

include hB

theorem Batches.rawSize_output : output.rawSize = batch.prod * (m.e * m.h) := by
  rw [Tensor.rawSize, hB.shape, List.prod_append]
  simp

/-- A loop of products in which each batch is given its matrices. -/
theorem correct_of_loop {p : LoopParam} {c : RegionCommand} {tables : List Ref}
    {consts : List (List ℤ)} {b : CommandBuffer} {out : Tensor}
    (hb : b = ⟨[{ op := .loop p, inputs := operands (2 < inputs.length) tables }], [], consts⟩)
    (hout : out = { output with virtual := false }) (hc : p.commands = [c])
    (hn : p.loopNumber = batch.prod)
    (hM : Multiplies K (reader inputs out b (b.memory K start))
      (p.stack (operands (2 < inputs.length) tables) [.output]) transposeA transposeB
      (2 < inputs.length) m batch.prod (index (pad batch0 batch)) (index (pad batch1 batch)) c) :
    Correct K transposeA transposeB inputs output batch0 batch1 batch m start (b, out) := by
  obtain ⟨he, hl, hh⟩ := hB.pos
  have hval : ∀ i, (reader inputs out b (b.memory K start)).value (.input i) = start (.input i) :=
    fun i => (reader_value b start i).1
  constructor
  · intro o ho
    rw [hB.rawSize_output] at ho
    rw [content_one (by rw [hout]) (by rw [hb]) rfl start]
    show p.run K (reader inputs out b (b.memory K start)) (operands (2 < inputs.length) tables)
      [.output] (start .output) o = _
    rw [LoopParam.run_one _ _ _ _ hc, hn, hM.run_eq he hh _ ho, batchProduct, hval, hval, hval]
    simp only [decide_eq_true_eq]
  · intro c' hc' p' hp' i a hmem
    rw [hb] at hc'
    rw [List.mem_singleton] at hc'
    subst hc'
    cases hp'
    obtain ⟨hraw0, hraw1⟩ := hB.rawSize_eq
    have hinside : ∀ {q k size a : ℕ}, q < k → a < size →
        (0 : ℤ) ≤ ((q * size + a : ℕ) : ℤ) ∧ ((q * size + a : ℕ) : ℤ) < ((k * size : ℕ) : ℤ) := by
      intro q k size a hq ha
      refine ⟨Int.natCast_nonneg _, Int.ofNat_lt.2 ?_⟩
      calc q * size + a < q * size + size := Nat.add_lt_add_left ha _
        _ = (q + 1) * size := by ring
        _ ≤ k * size := Nat.mul_le_mul_right size hq
    rcases hM.reads_cases hc hn hmem with ⟨d, hd, a', ha', heq⟩ | ⟨d, hd, a', ha', heq⟩ |
        ⟨hbias, j, hj, heq⟩
    · cases heq
      rw [hraw0]
      exact hinside (hB.repeats0.index_lt hd) ha'
    · cases heq
      rw [hraw1]
      exact hinside (hB.repeats1.index_lt hd) ha'
    · cases heq
      have := hB.bias (of_decide_eq_true hbias)
      omega

/-- The first steps of `onCompute`, which make neither zeros nor temporary tensors here. -/
theorem Batches.onCompute_eq : onCompute transposeA transposeB inputs output =
    (⟨(computeMatrices transposeA transposeB (2 < inputs.length) (.input 0) (.input 1) .output
        (inputs.getD 0 {}) (inputs.getD 1 {}) output).1, [],
      (computeMatrices transposeA transposeB (2 < inputs.length) (.input 0) (.input 1) .output
        (inputs.getD 0 {}) (inputs.getD 1 {}) output).2⟩,
      if output.dimensions = 2 then output else { output with virtual := false }) := by
  obtain ⟨he, hl, hh⟩ := hB.pos
  obtain ⟨h0, h1, -⟩ := hB.batch_pos
  obtain ⟨hraw0, hraw1⟩ := hB.rawSize_eq
  have hs0 := hB.shape0
  have hs1 := hB.shape1
  rw [swap_pair] at hs0 hs1
  refine onCompute_matrices ?_ ?_ (fun h => ?_) fun h => ?_
  · rw [(@length_append batch0 _ _ _ hs0 0).1]
    omega
  · rw [(@length_append batch1 _ _ _ hs1 0).1]
    omega
  · exact (Nat.mul_pos h0 (Nat.mul_pos he hl)).ne' (hraw0.symm.trans (rawSize_eq_zero h))
  · exact (Nat.mul_pos h1 (Nat.mul_pos hl hh)).ne' (hraw1.symm.trans (rawSize_eq_zero h))

theorem Batches.dimensions_eq : output.dimensions = 2 ↔ batch = [] := by
  rw [(@length_append batch output _ _ hB.shape 0).1, ← List.length_eq_zero_iff]
  omega

/-- Without batches the operator itself is the command. -/
theorem correct_plain (hbatch : batch = []) : Correct K transposeA transposeB inputs output batch0
    batch1 batch m start (onCompute transposeA transposeB inputs output) := by
  obtain ⟨he, hl, hh⟩ := hB.pos
  have hdim := hB.dimensions_eq.2 hbatch
  have hb0 : batch0 = [] := by
    have := hB.repeats0.length_le
    rw [hbatch] at this
    exact List.length_eq_zero_iff.1 (Nat.le_zero.1 this)
  have hb1 : batch1 = [] := by
    have := hB.repeats1.length_le
    rw [hbatch] at this
    exact List.length_eq_zero_iff.1 (Nat.le_zero.1 this)
  have hs0 := hB.shape0
  have hs1 := hB.shape1
  have hraw := hB.rawSize_output
  rw [hb0, List.nil_append] at hs0
  rw [hb1, List.nil_append] at hs1
  rw [hbatch, List.prod_nil, Nat.one_mul] at hraw
  rw [hB.onCompute_eq, computeMatrices_plain hdim, if_pos hdim]
  constructor
  · intro o ho
    rw [hraw] at ho
    rw [content_one (hB.computed hbatch) rfl rfl start, hbatch, hb0, hb1]
    have hzero : o / (m.e * m.h) = 0 := Nat.div_eq_of_lt ho
    have hrow : o / m.h % m.e = o / m.h :=
      Nat.mod_eq_of_lt ((Nat.div_lt_iff_lt_mul hh).2 ho)
    have hrun := @run_plain transposeA transposeB (2 < inputs.length) m α _ K (reader inputs output
      (direct (2 < inputs.length) .op) ((direct (2 < inputs.length) .op).memory K start))
      ⟨.op, operands (2 < inputs.length) [], [.output]⟩ rfl rfl hs0 hs1 (start .output) o ho
    refine hrun.trans ?_
    rw [(reader_value _ _ _).1, (reader_value _ _ _).1, (reader_value _ _ _).1]
    simp only [batchProduct, hzero, hrow, index, Lib.Broadcast.pad, List.zip_nil_right,
      Nat.zero_mul, Nat.zero_add, decide_eq_true_eq]
  · intro c hc p hp
    rw [List.mem_singleton] at hc
    subst hc
    cases hp

/-- The loop of the fast way. -/
theorem Batches.onCompute_fast (hbatch : batch ≠ [])
    (hfast : (batchSizes (inputs.getD 0 {}) (inputs.getD 1 {}) output).fastway = true) :
    onCompute transposeA transposeB inputs output =
      (⟨[{ op := .loop (fastLoop transposeA transposeB (2 < inputs.length) m
              (batchSizes (inputs.getD 0 {}) (inputs.getD 1 {}) output))
           inputs := operands (2 < inputs.length) [] }], [], []⟩,
        { output with virtual := false }) := by
  have hdim : output.dimensions ≠ 2 := fun h => hbatch (hB.dimensions_eq.1 h)
  rw [hB.onCompute_eq, computeMatrices_fast hdim hfast, if_neg hdim, hB.matSizes_eq]
  rfl

/-- The loop with tables. -/
theorem Batches.onCompute_offset (hbatch : batch ≠ [])
    (hfast : (batchSizes (inputs.getD 0 {}) (inputs.getD 1 {}) output).fastway = false) :
    onCompute transposeA transposeB inputs output =
      (⟨[{ op := .loop (offsetLoop transposeA transposeB (2 < inputs.length) m
              (batchSizes (inputs.getD 0 {}) (inputs.getD 1 {}) output))
           inputs := operands (2 < inputs.length) [.const 0, .const 1] }], [],
        [(List.range batch.prod).map
            (batchOffset (largeStrides (pad batch0 batch)) (smallStrides (pad batch0 batch))),
          (List.range batch.prod).map
            (batchOffset (largeStrides (pad batch0 batch)) (smallStrides (pad batch1 batch)))]⟩,
        { output with virtual := false }) := by
  have hdim : output.dimensions ≠ 2 := fun h => hbatch (hB.dimensions_eq.1 h)
  rw [hB.onCompute_eq, if_neg hdim, computeMatrices, if_neg hdim,
    if_neg (by rw [hfast]; exact Bool.false_ne_true), hB.matSizes_eq]
  simp only [offsetTable, hB.batchSizes_eq]
  rfl

end Content

/-! ### When the loop is right -/

/-- Where the fast way is taken, an input has one matrix or as many as the output. -/
def Steady (batch0 batch1 batch : List ℕ) : Prop :=
  batch0.prod = batch1.prod ∨ batch0.prod = 1 ∨ batch1.prod = 1 →
    (batch0.prod = 1 ∨ batch0.prod = batch.prod) ∧ (batch1.prod = 1 ∨ batch1.prod = batch.prod)

instance (batch0 batch1 batch : List ℕ) : Decidable (Steady batch0 batch1 batch) :=
  inferInstanceAs (Decidable (_ → _))

/-- The steps of the fast way, for an input with one matrix or as many as the output. -/
theorem steady_index {small large : List ℕ} (hrep : Repeats small large)
    (h : small.prod = 1 ∨ small.prod = large.prod) {b : ℕ} (hb : b < large.prod) :
    index (pad small large) b = if small.prod = 1 then 0 else b := by
  split_ifs with hone
  · have hlt := hrep.index_lt hb
    omega
  · exact hrep.index_self (h.resolve_left hone) hb

section Main

variable (hB : Batches transposeA transposeB inputs output batch0 batch1 batch m)

include hB

theorem Batches.fastway_eq : (batchSizes (inputs.getD 0 {}) (inputs.getD 1 {}) output).fastway =
    true ↔ batch0.prod = batch1.prod ∨ batch0.prod = 1 ∨ batch1.prod = 1 := by
  rw [BatchSizes.fastway, hB.batchSizes_eq]
  simp [or_assoc]

theorem correct_of_steady (hsteady : Steady batch0 batch1 batch) {α : Type} [Zero α]
    (K : Kernels α) (hK : ∀ n, K.toInt (K.ofInt n) = n) (start : Memory α) :
    Correct K transposeA transposeB inputs output batch0 batch1 batch m start
      (onCompute transposeA transposeB inputs output) := by
  by_cases hbatch : batch = []
  · exact correct_plain hB hbatch
  cases hfast : (batchSizes (inputs.getD 0 {}) (inputs.getD 1 {}) output).fastway with
  | true =>
    obtain ⟨h0, h1⟩ := hsteady (hB.fastway_eq.1 hfast)
    rw [hB.onCompute_fast hbatch hfast, hB.batchSizes_eq]
    have hq0 : ∀ b < batch.prod, index (pad batch0 batch) b = if batch0.prod = 1 then 0 else b :=
      fun b hb => steady_index hB.repeats0 h0 hb
    have hq1 : ∀ b < batch.prod, index (pad batch1 batch) b = if batch1.prod = 1 then 0 else b :=
      fun b hb => steady_index hB.repeats1 h1 hb
    exact correct_of_loop hB rfl rfl rfl rfl (fastLoop_multiplies rfl hq0 hq1)
  | false =>
    rw [hB.onCompute_offset hbatch hfast, hB.batchSizes_eq]
    have htable : ∀ small, Repeats small batch → ∀ b < batch.prod,
        K.toInt (K.ofInt (((List.range batch.prod).map (batchOffset
          (largeStrides (pad batch0 batch)) (smallStrides (pad small batch)))).getD b 0)) =
          index (pad small batch) b := by
      intro small hrep b hb
      have hstrides : largeStrides (pad batch0 batch) = largeStrides (pad small batch) :=
        largeStrides_congr (by rw [map_snd_pad, map_snd_pad])
      rw [hK, List.getD_eq_getElem _ _ (by rwa [List.length_map, List.length_range]),
        List.getElem_map, List.getElem_range, hstrides, batchOffset_eq (pos_of_repeats hrep)]
    exact correct_of_loop hB rfl rfl rfl rfl (offsetLoop_multiplies rfl
      (htable batch0 hB.repeats0) (htable batch1 hB.repeats1))

/-- An input with more matrices than one and less than all is read beyond its end. -/
theorem steady_of_inside (K : Kernels ℤ) (start : Memory ℤ)
    (hinside : ReadsInside K inputs (onCompute transposeA transposeB inputs output).2
      (onCompute transposeA transposeB inputs output).1 start) : Steady batch0 batch1 batch := by
  intro hfast
  by_cases hbatch : batch = []
  · have hle0 := hB.repeats0.aligned.smallSize_le
    have hle1 := hB.repeats1.aligned.smallSize_le
    obtain ⟨hpos0, hpos1, -⟩ := hB.batch_pos
    rw [hB.repeats0.smallSize, largeSize_pad, hbatch, List.prod_nil] at hle0
    rw [hB.repeats1.smallSize, largeSize_pad, hbatch, List.prod_nil] at hle1
    exact ⟨.inl (by omega), .inl (by omega)⟩
  rw [hB.onCompute_fast hbatch (hB.fastway_eq.2 hfast), hB.batchSizes_eq] at hinside
  obtain ⟨hraw0, hraw1⟩ := hB.rawSize_eq
  have hread := hinside _ List.mem_cons_self _ rfl
  have hle0 := hB.repeats0.aligned.smallSize_le
  have hle1 := hB.repeats1.aligned.smallSize_le
  rw [hB.repeats0.smallSize, largeSize_pad] at hle0
  rw [hB.repeats1.smallSize, largeSize_pad] at hle1
  constructor
  · by_contra h
    obtain ⟨hone, hne⟩ := not_or.1 h
    have hall : batch0.prod < batch.prod := by omega
    have hlt := (hread 0 _ (fastLoop_reads hB.pos hall).1).2
    rw [hraw0, if_neg hone] at hlt
    exact lt_irrefl _ hlt
  · by_contra h
    obtain ⟨hone, hne⟩ := not_or.1 h
    have hall : batch1.prod < batch.prod := by omega
    have hlt := (hread 1 _ (fastLoop_reads hB.pos hall).2).2
    rw [hraw1, if_neg hone] at hlt
    exact lt_irrefl _ hlt

/-- **Main theorem.** For two inputs whose batch dimensions broadcast to those of the output, what
`onCompute` makes is their product, read inside the inputs, exactly if the fast way is not taken for
an input with another number of matrices than one or all. -/
theorem onCompute_correct_iff : (∀ (α : Type) [Zero α] (K : Kernels α),
      (∀ n, K.toInt (K.ofInt n) = n) → ∀ start : Memory α,
      Correct K transposeA transposeB inputs output batch0 batch1 batch m start
        (onCompute transposeA transposeB inputs output)) ↔ Steady batch0 batch1 batch := by
  constructor
  · intro h
    let K : Kernels ℤ := ⟨fun _ _ x _ => x, fun _ x => x, fun _ _ => 0, fun _ => 0, id, id⟩
    exact steady_of_inside hB K (fun _ _ => 0) (h ℤ K (fun _ => rfl) fun _ _ => 0).2
  · intro hsteady α _ K hK start
    exact correct_of_steady hB hsteady K hK start

end Main

/-- Sums of products of integers. -/
def intKernels : Kernels ℤ where
  binary _ _ x _ := x
  activation _ x := x
  dot l b := (l.map fun p => p.1 * p.2).sum + b.getD 0
  sum l := l.sum
  ofInt := id
  toInt := id

/-- Two batches of rows times three of columns, with tables of offsets. -/
theorem onCompute_correct_tables : Correct intKernels false false
    [{ shape := [2, 1, 1, 2] }, { shape := [3, 2, 1] }] { shape := [2, 3, 1, 1] } [2, 1] [3] [2, 3]
    ⟨1, 2, 1⟩ (fun r o => if r = .input 0 then o else 1)
    (onCompute false false [{ shape := [2, 1, 1, 2] }, { shape := [3, 2, 1] }]
      { shape := [2, 3, 1, 1] }) := by
  have hB : Batches false false [{ shape := [2, 1, 1, 2] }, { shape := [3, 2, 1] }]
      { shape := [2, 3, 1, 1] } [2, 1] [3] [2, 3] ⟨1, 2, 1⟩ :=
    ⟨rfl, rfl, rfl, ⟨by decide, by decide⟩, ⟨by decide, by decide⟩, by decide, by decide, by decide⟩
  exact (onCompute_correct_iff hB).2 (by decide) ℤ intKernels (fun _ => rfl) _

/-- Two batches of columns against two of rows: as many in both inputs, but four in the output. -/
theorem onCompute_not_inside : ¬ ReadsInside intKernels
    [{ shape := [2, 1, 1, 1] }, { shape := [1, 2, 1, 1] }]
    (onCompute false false [{ shape := [2, 1, 1, 1] }, { shape := [1, 2, 1, 1] }]
      { shape := [2, 2, 1, 1] }).2
    (onCompute false false [{ shape := [2, 1, 1, 1] }, { shape := [1, 2, 1, 1] }]
      { shape := [2, 2, 1, 1] }).1 fun _ _ => 0 := by
  have hB : Batches false false [{ shape := [2, 1, 1, 1] }, { shape := [1, 2, 1, 1] }]
      { shape := [2, 2, 1, 1] } [2, 1] [1, 2] [2, 2] ⟨1, 1, 1⟩ :=
    ⟨rfl, rfl, rfl, ⟨by decide, by decide⟩, ⟨by decide, by decide⟩, by decide, by decide, by decide⟩
  exact fun h => absurd (steady_of_inside hB _ _ h) (by decide)

end Mnn.Recompute.GeometryBatchMatMul
