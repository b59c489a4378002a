import Mnn.Core.IDSTQuan

/-!
# Quantising the weights of convolutions

`WeightQuantAndCoding` (`tools/converter/source/common/WeightQuantAndCoding.cpp`) for operators with
float weights: the weight array is cut into rows and the rows into blocks, each block gets a step of
its own, and the encoder writes the values.

* `ranges`: the blocks that the converter takes minima and maxima of;
* `weightQuantAndCoding`: the operator's `quanParameter`;
* `Correct`: what has to hold of the blocks and of the weights that `load` returns;
* `correct_iff`: **half a step for every weight, unless blocks are cut in a convolution with groups**.

Sizes are natural numbers.  `ConvInt8` operators, whose weights are integers already, are left out.
-/

namespace Mnn.WeightQuantAndCoding

open Idst

/-! ### Operators and settings -/

/-- The kinds of operators with float weights, and all others. -/
inductive OpType
  | convolution
  | convolutionDepthwise
  | deconvolution
  | deconvolutionDepthwise
  | other
  deriving DecidableEq, Repr

/-- `Convolution2DCommon`. -/
structure Convolution2DCommon where
  inputCount : ℕ
  outputCount : ℕ
  group : ℕ
  kernelX : ℕ
  kernelY : ℕ

/-- `Op`, with its `Convolution2D`. -/
structure Op where
  type : OpType
  common : Convolution2DCommon
  weight : List ℚ
  sparseParameter : Bool := false
  quanParameter : Option IDSTQuan := none

/-- The settings for one operator: those of `modelConfig`, or what `quantInfo` sets in their place. -/
structure Config where
  weightQuantBits : ℤ
  weightQuantAsymmetric : Bool
  weightQuantBlock : ℤ
  detectSparseSpeedUp : Bool

/-- Bits must be from 2 to 8. -/
def bits (config : Config) : ℕ :=
  let bits := if config.weightQuantBits > 0 then config.weightQuantBits else 8
  (min (max bits 2) 8).toNat

/-! ### Blocks -/

variable (op : Op) (config : Config)

def kernelSize : ℕ := op.weight.length / op.common.outputCount

def kxky : ℕ := op.common.kernelX * op.common.kernelY

def icCount : ℕ := kernelSize op / kxky op

/-- Whether the kernels are cut into blocks. -/
def usesBlocks : Bool :=
  config.weightQuantBlock > 0 && (icCount op : ℤ) % config.weightQuantBlock = 0 &&
    config.weightQuantBlock ≥ 16 && config.weightQuantBlock % 16 = 0

def blockNum : ℕ :=
  if usesBlocks op config then op.common.inputCount / config.weightQuantBlock.toNat else 1

def blockSize : ℕ :=
  if usesBlocks op config then config.weightQuantBlock.toNat * kxky op else kernelSize op

/-- Where the blocks begin; each has `blockSize` weights. -/
def beginIndexes : List ℕ :=
  (List.range op.common.outputCount).flatMap fun k =>
    (List.range (blockNum op config)).map fun b => k * kernelSize op + b * blockSize op config

/-- The indexes of the weights, block by block. -/
def ranges : List ℕ :=
  (beginIndexes op config).flatMap fun beginIndex => List.range' beginIndex (blockSize op config)

/-- The block that begins at an index. -/
def blockAt (beginIndex : ℕ) : List ℚ := (op.weight.drop beginIndex).take (blockSize op config)

/-- The scales of the blocks. -/
def scales : List ℚ :=
  (beginIndexes op config).flatMap fun beginIndex =>
    blockScales (bits config) config.weightQuantAsymmetric (blockAt op config beginIndex)

/-! ### Coding -/

/-- `CommonCompute::compressFloatWeightToSparse`: the weights that are not zero, and where they are. -/
def compressFloatWeightToSparse : Option IDSTQuan :=
  if op.sparseParameter then
    let indexes := (List.range op.weight.length).filter fun i => op.weight.getD i 0 ≠ 0
    let indexes := if indexes = [] then [0] else indexes
    some {
      alpha := indexes.map fun i => op.weight.getD i 0
      weightSize := op.weight.length
      index := some indexes }
  else none

/-- What the converter leaves in the operator; it may read behind the weights. -/
inductive Coded
  | undefined
  | kept (quanParameter : Option IDSTQuan)
  | coded (quanParameter : IDSTQuan)

/-- `WeightQuantAndCoding`. -/
def weightQuantAndCoding : Coded :=
  if op.type = .other ∨ op.quanParameter.isSome then .kept op.quanParameter
  else if config.weightQuantBits = 0 then
    match compressFloatWeightToSparse op with
    | none => .kept none
    | some quan => .coded quan
  else if op.weight = [] then .kept none
  else if (beginIndexes op config).all fun beginIndex =>
      beginIndex + blockSize op config ≤ op.weight.length then
    .coded (encode op.weight (scales op config) (blockSize op config)
      (op.common.outputCount * blockNum op config) config.weightQuantAsymmetric
      ⌈clampMin (bits config) config.weightQuantAsymmetric⌉ (bits config) config.detectSparseSpeedUp)
  else .undefined

/-! ### What has to hold -/

/-- An operator with the weights that its channels, groups and kernel imply. -/
structure Sized : Prop where
  type : op.type ≠ .other
  quanParameter : op.quanParameter = none
  inputCount : 0 < op.common.inputCount
  outputCount : 0 < op.common.outputCount
  kernel : 0 < kxky op
  input : op.common.group ∣ op.common.inputCount
  output : op.common.group ∣ op.common.outputCount
  weight : op.weight.length =
    op.common.outputCount * (op.common.inputCount / op.common.group) * kxky op
  int : op.weight.length < 2 ^ 31

/-- The weights that `load` returns in float mode. -/
def Returns (quan : IDSTQuan) (weights : List ℚ) : Prop :=
  ∃ r, load quan true false = some r ∧ r.weightFloat = weights.map some

/-- A weight of a block, and what came back for it. -/
def Near (block : List ℚ) (weight weight' : ℚ) : Prop :=
  let step := blockStep (bits config) config.weightQuantAsymmetric block
  |weight' - weight| ≤
    if step > tinyScale then step / 2 else blockRange config.weightQuantAsymmetric block

/-- The blocks partition the weights, and every weight comes back near to where it was. -/
structure Quantised : Prop where
  partition : (ranges op config).Perm (List.range op.weight.length)
  loaded : ∃ quan weights, weightQuantAndCoding op config = .coded quan ∧ Returns quan weights ∧
    weights.length = op.weight.length ∧
      ∀ beginIndex ∈ beginIndexes op config, ∀ i, beginIndex ≤ i →
        i < beginIndex + blockSize op config →
          Near config (blockAt op config beginIndex) (op.weight.getD i 0) (weights.getD i 0)

/-- What has to hold; without bits nothing is quantised, and what is stored comes back as it was. -/
def Correct : Prop :=
  if config.weightQuantBits = 0 then
    ∀ quan, weightQuantAndCoding op config = .coded quan → Returns quan op.weight
  else Quantised op config

/-! ### Blocks that fit -/

variable {op} {config}

section Sized

variable (h : Sized op)

include h

theorem Sized.group_pos : 0 < op.common.group := Nat.pos_of_dvd_of_pos h.input h.inputCount

theorem Sized.kernelSize_eq : kernelSize op = op.common.inputCount / op.common.group * kxky op := by
  rw [kernelSize, h.weight, Nat.mul_assoc, Nat.mul_div_cancel_left _ h.outputCount]

theorem Sized.icCount_eq : icCount op = op.common.inputCount / op.common.group := by
  rw [icCount, h.kernelSize_eq, Nat.mul_div_cancel _ h.kernel]

theorem Sized.outputCount_mul : op.common.outputCount * kernelSize op = op.weight.length := by
  rw [h.kernelSize_eq, h.weight, Nat.mul_assoc]

theorem Sized.length_pos : 0 < op.weight.length := by
  rw [h.weight]
  have := Nat.div_pos (Nat.le_of_dvd h.inputCount h.input) h.group_pos
  exact Nat.mul_pos (Nat.mul_pos h.outputCount this) h.kernel

omit h in
theorem usesBlocks_iff : usesBlocks op config = true ↔ 16 ≤ config.weightQuantBlock ∧
    16 ∣ config.weightQuantBlock ∧ config.weightQuantBlock.toNat ∣ icCount op := by
  simp only [usesBlocks, Bool.and_eq_true, decide_eq_true_eq]
  constructor
  · rintro ⟨⟨⟨-, hdvd⟩, hle⟩, h16⟩
    refine ⟨hle, Int.dvd_of_emod_eq_zero h16, ?_⟩
    have := Int.dvd_of_emod_eq_zero hdvd
    rwa [← Int.toNat_of_nonneg (a := config.weightQuantBlock) (by omega), Int.natCast_dvd_natCast]
      at this
  · rintro ⟨hle, h16, hdvd⟩
    refine ⟨⟨⟨by omega, ?_⟩, hle⟩, Int.emod_eq_zero_of_dvd h16⟩
    refine Int.emod_eq_zero_of_dvd ?_
    rwa [← Int.toNat_of_nonneg (a := config.weightQuantBlock) (by omega), Int.natCast_dvd_natCast]

/-- The blocks of a row make up the row exactly without groups. -/
theorem Sized.row_iff :
    blockNum op config * blockSize op config = kernelSize op ↔
      (usesBlocks op config = true → op.common.group = 1) := by
  cases huses : usesBlocks op config with
  | false => simp [blockNum, blockSize, huses]
  | true =>
    obtain ⟨-, -, hdvd⟩ := usesBlocks_iff.1 huses
    rw [h.icCount_eq] at hdvd
    have hic := hdvd.trans (Nat.div_dvd_of_dvd h.input)
    simp only [blockNum, blockSize, huses, if_true, forall_const]
    rw [← Nat.mul_assoc, Nat.div_mul_cancel hic, h.kernelSize_eq, Nat.mul_left_inj h.kernel.ne']
    constructor
    · intro heq
      have hmul := Nat.div_mul_cancel h.input
      rw [← heq] at hmul
      exact Nat.eq_of_mul_eq_mul_left h.inputCount (hmul.trans (Nat.mul_one _).symm)
    · intro hone
      rw [hone, Nat.div_one]

end Sized

theorem length_ranges : (ranges op config).length =
    op.common.outputCount * (blockNum op config * blockSize op config) := by
  simp [ranges, beginIndexes, List.length_flatMap, List.map_const', Nat.mul_assoc]

/-- Blocks that make up the rows follow one another. -/
theorem beginIndexes_eq (hrow : blockNum op config * blockSize op config = kernelSize op) :
    beginIndexes op config = (List.range (op.common.outputCount * blockNum op config)).map
      fun r => r * blockSize op config := by
  rw [beginIndexes, ← Lib.flatMap_range_map]
  refine List.flatMap_congr fun k _ => List.map_congr_left fun b _ => ?_
  rw [← hrow, Nat.add_mul, Nat.mul_assoc]

theorem ranges_eq (hrow : blockNum op config * blockSize op config = kernelSize op) :
    ranges op config = List.range
      (op.common.outputCount * blockNum op config * blockSize op config) := by
  rw [ranges, beginIndexes_eq hrow, List.flatMap_map]
  simp only [List.range'_eq_map_range]
  rw [Lib.flatMap_range_map _ _ fun i => i, List.map_id']

theorem scales_eq (hrow : blockNum op config * blockSize op config = kernelSize op) :
    scales op config = weightScales (bits config) config.weightQuantAsymmetric
      op.common.outputCount (blockNum op config) (blockSize op config) op.weight := by
  rw [scales, beginIndexes_eq hrow, List.flatMap_map, weightScales_eq]
  rfl

/-! ### Quantised weights -/

theorem bits_mem (config : Config) : 2 ≤ bits config ∧ bits config ≤ 8 := by
  rw [bits]
  split_ifs <;> omega

theorem mem_blockAt {beginIndex i : ℕ} (hle : beginIndex ≤ i)
    (hlt : i < beginIndex + blockSize op config) (hi : i < op.weight.length) :
    op.weight.getD i 0 ∈ blockAt op config beginIndex := by
  rw [blockAt, List.mem_iff_getElem?]
  refine ⟨i - beginIndex, ?_⟩
  rw [List.getElem?_take_of_lt (by omega), List.getElem?_drop, Nat.add_sub_cancel' hle,
    List.getElem?_eq_getElem hi, List.getD_eq_getElem _ _ hi]

section Rows

variable (h : Sized op) (hbits : config.weightQuantBits ≠ 0)
  (hrow : blockNum op config * blockSize op config = kernelSize op)

include h hrow

theorem Sized.length_eq : op.weight.length =
    op.common.outputCount * blockNum op config * blockSize op config := by
  rw [Nat.mul_assoc, hrow, h.outputCount_mul]

include hbits

/-- No block reads behind the weights. -/
theorem Sized.code_eq : weightQuantAndCoding op config =
    .coded (encode op.weight (weightScales (bits config) config.weightQuantAsymmetric
        op.common.outputCount (blockNum op config) (blockSize op config) op.weight)
      (blockSize op config) (op.common.outputCount * blockNum op config)
      config.weightQuantAsymmetric ⌈clampMin (bits config) config.weightQuantAsymmetric⌉
      (bits config) config.detectSparseSpeedUp) := by
  have hfit : ((beginIndexes op config).all fun beginIndex =>
      beginIndex + blockSize op config ≤ op.weight.length) = true := by
    rw [List.all_eq_true, beginIndexes_eq hrow]
    intro beginIndex hmem
    obtain ⟨r, hr, rfl⟩ := List.mem_map.1 hmem
    rw [decide_eq_true_iff, ← Nat.succ_mul, h.length_eq hrow]
    exact Nat.mul_le_mul_right _ (List.mem_range.1 hr)
  have hnil : op.weight ≠ [] := List.ne_nil_of_length_pos h.length_pos
  have hother : ¬ (op.type = .other ∨ op.quanParameter.isSome) := by
    rw [h.quanParameter]
    exact not_or.2 ⟨h.type, Bool.false_ne_true⟩
  rw [weightQuantAndCoding, if_neg hother, if_neg hbits, if_neg hnil, if_pos hfit, scales_eq hrow]

/-- Blocks that make up the rows. -/
theorem Sized.quantised : Quantised op config := by
  obtain ⟨h₂, h₈⟩ := bits_mem config
  have hlen := h.length_eq hrow
  have hpos : 0 < op.common.outputCount * blockNum op config * blockSize op config :=
    hlen ▸ h.length_pos
  have hint : op.common.outputCount * blockNum op config * blockSize op config < 2 ^ 31 :=
    hlen ▸ h.int
  have hblock : 0 < blockSize op config := Nat.pos_of_mul_pos_left hpos
  have hchannel : op.common.outputCount * blockNum op config < 2 ^ 32 :=
    ((Nat.le_mul_of_pos_right _ hblock).trans_lt hint).trans (by norm_num)
  have harea : blockSize op config < 2 ^ 32 :=
    ((Nat.le_mul_of_pos_left _ (Nat.pos_of_mul_pos_right hpos)).trans_lt hint).trans (by norm_num)
  obtain ⟨r, hload, hfloat⟩ := load_encode h₂ h₈ config.weightQuantAsymmetric hlen hchannel harea
    h.length_pos config.detectSparseSpeedUp true
  set weights := (List.range op.weight.length).map fun i =>
    restored (bits config) config.weightQuantAsymmetric
      (block (blockSize op config) op.weight (i / blockSize op config)) (op.weight.getD i 0)
    with hweights
  refine ⟨ranges_eq hrow ▸ hlen ▸ .refl _, _, weights, h.code_eq hbits hrow, ⟨r, hload, ?_⟩, ?_, ?_⟩
  · rw [hfloat, hweights, List.map_map]
    rfl
  · rw [hweights, List.length_map, List.length_range]
  · intro beginIndex hmem i hle hlt
    rw [beginIndexes_eq hrow] at hmem
    obtain ⟨row, hr, rfl⟩ := List.mem_map.1 hmem
    have hi : i < op.weight.length := by
      refine hlt.trans_le ?_
      rw [← Nat.succ_mul, hlen]
      exact Nat.mul_le_mul_right _ (List.mem_range.1 hr)
    have hdiv : i / blockSize op config = row := by
      refine Nat.div_eq_of_lt_le hle ?_
      rwa [Nat.succ_mul]
    have hget : weights.getD i 0 = restored (bits config) config.weightQuantAsymmetric
        (blockAt op config (row * blockSize op config)) (op.weight.getD i 0) := by
      rw [hweights, List.getD_eq_getElem _ _ (by simpa using hi), List.getElem_map,
        List.getElem_range, hdiv]
      rfl
    rw [Near, hget]
    exact abs_restored_sub_le _ _ (mem_blockAt hle hlt hi)

end Rows

/-! ### Sparse floats -/

theorem getElem?_foldl_set (f : ℕ → ℚ) (l : List ℕ) (a : List (Option ℚ)) (i : ℕ) :
    ((l.zip (l.map f)).foldl (fun weightFloat p => weightFloat.set p.1 (some p.2)) a)[i]? =
      if i ∈ l ∧ i < a.length then some (some (f i)) else a[i]? := by
  induction l generalizing a with
  | nil => simp
  | cons j l ih =>
    rw [List.map_cons, List.zip_cons_cons, List.foldl_cons, ih, List.length_set]
    by_cases hj : i = j
    · subst hj
      by_cases hi : i < a.length
      · simp [hi]
      · simp [hi]
    · simp [List.getElem?_set_ne (Ne.symm hj), hj]

/-- Stored weights, with zeros between them. -/
theorem returns_stored {stored : List ℕ}
    (hstored : ∀ i < op.weight.length, op.weight.getD i 0 ≠ 0 → i ∈ stored) :
    Returns {
      alpha := stored.map fun i => op.weight.getD i 0
      weightSize := op.weight.length
      index := some stored } op.weight := by
  rw [Returns, load]
  simp only [List.length_map, ne_eq, not_true_eq_false, if_false, if_true]
  refine ⟨_, rfl, ?_⟩
  rw [expand]
  refine List.ext_getElem? fun i => ?_
  rw [getElem?_foldl_set, List.length_replicate, List.getElem?_replicate, List.getElem?_map]
  by_cases hi : i < op.weight.length
  · rw [List.getElem?_eq_getElem hi, Option.map_some, if_pos hi]
    split_ifs with hmem
    · rw [List.getD_eq_getElem _ _ hi]
    · have hzero : op.weight.getD i 0 = 0 := by
        by_contra hne
        exact hmem ⟨hstored i hi hne, hi⟩
      rw [List.getD_eq_getElem _ _ hi] at hzero
      rw [hzero]
  · rw [if_neg fun hmem => hi hmem.2, if_neg hi, List.getElem?_eq_none (not_lt.1 hi), Option.map_none]

/-- Weights that are stored without being quantised come back as they were. -/
theorem returns_compressFloatWeightToSparse {quan : IDSTQuan}
    (hquan : compressFloatWeightToSparse op = some quan) : Returns quan op.weight := by
  rw [compressFloatWeightToSparse] at hquan
  split_ifs at hquan
  obtain rfl := Option.some.inj hquan
  refine returns_stored fun i hi hne => ?_
  have hin : i ∈ (List.range op.weight.length).filter fun i => op.weight.getD i 0 ≠ 0 :=
    List.mem_filter.2 ⟨List.mem_range.2 hi, decide_eq_true hne⟩
  rwa [if_neg (List.ne_nil_of_mem hin)]

/-! ### When the weights survive -/

/-- **Main theorem.**  The blocks partition the weights and every weight comes back within half a
step, exactly when blocks are not cut in a convolution with groups. -/
theorem correct_iff (h : Sized op) : Correct op config ↔
    (config.weightQuantBits ≠ 0 → usesBlocks op config = true → op.common.group = 1) := by
  rw [Correct]
  split_ifs with hbits
  · refine ⟨fun _ hne => absurd hbits hne, fun _ quan hquan => ?_⟩
    have hother : ¬ (op.type = .other ∨ op.quanParameter.isSome) := by
      rw [h.quanParameter]
      exact not_or.2 ⟨h.type, Bool.false_ne_true⟩
    rw [weightQuantAndCoding, if_neg hother, if_pos hbits] at hquan
    cases hsparse : compressFloatWeightToSparse op with
    | none =>
      rw [hsparse] at hquan
      cases hquan
    | some quan' =>
      rw [hsparse] at hquan
      obtain rfl := Coded.coded.inj hquan
      exact returns_compressFloatWeightToSparse hsparse
  · rw [← h.row_iff]
    refine ⟨fun hquantised _ => ?_, fun hrow => h.quantised hbits (hrow hbits)⟩
    -- otherwise the blocks have more weights than there are
    have hlength := hquantised.partition.length_eq
    rw [length_ranges, List.length_range, ← h.outputCount_mul] at hlength
    exact Nat.eq_of_mul_eq_mul_left h.outputCount hlength

/-- A convolution of two kernels over 32 channels. -/
def plainConv : Op where
  type := .convolution
  common := { inputCount := 32, outputCount := 2, group := 1, kernelX := 1, kernelY := 1 }
  weight := (List.range 64).map fun i => (i : ℚ)

/-- Four bits, in blocks of 16 channels. -/
def blocksOf16 : Config where
  weightQuantBits := 4
  weightQuantAsymmetric := true
  weightQuantBlock := 16
  detectSparseSpeedUp := true

theorem plainConv_correct : Correct plainConv blocksOf16 :=
  (correct_iff ⟨by decide, rfl, by decide, by decide, by decide, by decide, by decide, rfl,
    by decide⟩).2 fun _ _ => rfl

/-- The same channels in two groups: 32 weights. -/
def groupConv : Op where
  type := .convolution
  common := { inputCount := 32, outputCount := 2, group := 2, kernelX := 1, kernelY := 1 }
  weight := (List.range 32).map fun i => (i : ℚ)

/-- Two blocks of 16 weights are cut from each row of 16: the second row is cut twice, and the last
block begins behind the weights. -/
theorem group_blocks_overrun :
    beginIndexes groupConv blocksOf16 = [0, 16, 16, 32] ∧ blockSize groupConv blocksOf16 = 16 ∧
      ¬ Correct groupConv blocksOf16 := by
  refine ⟨by decide, by decide, ?_⟩
  rw [Correct, if_neg (by decide)]
  intro hquantised
  have hlength := hquantised.partition.length_eq
  rw [length_ranges] at hlength
  exact absurd hlength (by decide)

end Mnn.WeightQuantAndCoding
