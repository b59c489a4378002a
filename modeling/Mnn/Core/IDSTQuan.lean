import Mnn.Core.SparseBlob

/-!
# Quantised weights, written and loaded

`IDSTEncoder::encode` (`source/core/IDSTEncoder.hpp`) chooses between the dense and the sparse form;
`ConvolutionCommon::load` (`source/core/ConvolutionCommon.cpp`) reads either and turns the values
back to floats, over exact rationals.

* `IDSTQuan`, `encode`, `load`;
* `load_encode`: every weight comes back as its value times the step of its block;
* `abs_restored_sub_le`: **half a step from where it was**.

Weights in external files, in memory that is mapped, and in half precision (type 3) are left out.
-/

namespace Mnn.Idst

open Lib

/-! ### Writing -/

/-- `IDSTQuan`. -/
structure IDSTQuan where
  buffer : List Byte := []
  alpha : List ℚ := []
  type : ℕ := 0
  quantScale : ℚ := 0
  aMaxOrBits : ℕ := 0
  aMin : ℤ := 0
  readType : ℕ := 0
  hasScaleInt : Bool := false
  shapeInt32 : Bool := false
  weightSize : ℕ := 0
  index : Option (List ℕ) := none

/-- `IDSTEncoder::encode`, of weights that are not quantised yet. -/
def encode (weight scale : List ℚ) (kernelSize kernelNum : ℕ) (asymmetricQuantFlag : Bool)
    (clampMin : ℤ) (bits : ℕ) (detectSparse : Bool) : IDSTQuan :=
  let cq := writeCQBlobs weight scale kernelSize kernelNum asymmetricQuantFlag bits
  let sq := if detectSparse then
      writeSparseQuanBlobs weight scale kernelSize kernelNum asymmetricQuantFlag bits
    else none
  let idst : IDSTQuan := {
    alpha := scale
    quantScale := 1
    aMaxOrBits := bits
    aMin := if asymmetricQuantFlag then clampMin else 0
    readType := if asymmetricQuantFlag then kernelNum else 0 }
  match sq with
  | none => { idst with type := 1, buffer := cq.1, shapeInt32 := cq.2 }
  | some sq =>
    if cq.1.length ≤ sq.1.length then { idst with type := 1, buffer := cq.1, shapeInt32 := sq.2 }
    else { idst with type := 2, buffer := sq.1, shapeInt32 := sq.2 }

/-! ### Loading -/

/-- What `load` returns; an entry of `weightFloat` that no loop writes is `none`. -/
structure Loaded where
  common : Int8Common := {}
  weight : List Byte := []
  alpha : List ℚ := []
  asymmetric : Bool := false
  weightFloat : List (Option ℚ) := []

/-- The weights that the buffer holds, and what the readers set. -/
def readWeight (quan : IDSTQuan) (forceFloat forceInt8 : Bool) : Option (List Byte × Int8Common) :=
  if quan.type = 1 then
    let r := readQuanData quan.shapeInt32 quan.hasScaleInt forceInt8 forceFloat none {} quan.buffer
    r.blob.map fun blob => (blob.take r.len, r.result)
  else if quan.type = 2 then
    let r := readSparseQuanData quan.shapeInt32 quan.hasScaleInt forceInt8 forceFloat quan.alpha none
      {} quan.buffer
    r.blob.map fun blob => (blob.take r.len, r.result)
  else if quan.type = 4 then some (quan.buffer, {})
  else none

/-- The minimum of each block moves to where the value is zero. -/
def shiftMin (clampMin : ℤ) (outputCount : ℕ) (alpha : List ℚ) : List ℚ :=
  (List.range outputCount).foldl (fun alpha o =>
    alpha.set (2 * o) (alpha.getD (2 * o) 0 - clampMin * alpha.getD (2 * o + 1) 0)) alpha

/-- `alpha` as `load` leaves it. -/
def loadAlpha (quan : IDSTQuan) (asymmetric oldType4 : Bool) : List ℚ :=
  let alpha :=
    if asymmetric then
      let clampMin := if quan.aMin = 0 then -128 else quan.aMin
      if clampMin < 0 then shiftMin clampMin (quan.alpha.length / 2) quan.alpha else quan.alpha
    else quan.alpha
  if quan.hasScaleInt = false ∧ oldType4 = false ∧ quan.quantScale ≠ 1 then
    alpha.map (· * quan.quantScale)
  else alpha

/-- Back to float. -/
def backToFloat (weight : List Byte) (alpha : List ℚ) (asymmetric : Bool) : List (Option ℚ) :=
  let outputCount := if asymmetric then alpha.length / 2 else alpha.length
  let partWeightSize := weight.length / outputCount
  ((List.range outputCount).flatMap fun o =>
    let (min, alpha) :=
      if asymmetric then (alpha.getD (2 * o) 0, alpha.getD (2 * o + 1) 0) else (0, alpha.getD o 0)
    (List.range partWeightSize).map fun v =>
      some ((weight.getD (o * partWeightSize + v) 0).toInt * alpha + min)) ++
    List.replicate (weight.length - outputCount * partWeightSize) none

/-- Weights that are sparse floats, expanded. -/
def expand (quan : IDSTQuan) (index : List ℕ) : List (Option ℚ) :=
  (index.zip quan.alpha).foldl (fun weightFloat p => weightFloat.set p.1 (some p.2))
    (List.replicate quan.weightSize (some 0))

/-- `ConvolutionCommon::load`. -/
def load (quan : IDSTQuan) (forceFloat forceInt8 : Bool) : Option Loaded :=
  match quan.index with
  | some index =>
    if forceFloat then
      if quan.alpha.length ≠ index.length then none
      else some { alpha := quan.alpha, weightFloat := expand quan index }
    else some { alpha := quan.alpha }
  | none =>
    match readWeight quan forceFloat forceInt8 with
    | none => none
    | some (weight, common) =>
      let oldType4 := quan.type = 4 && quan.aMin = 0 && |quan.quantScale| < tinyScale
      let asymmetric := quan.readType ≠ 0 || oldType4
      let alpha := loadAlpha quan asymmetric oldType4
      if forceInt8 then some { common, weight, alpha, asymmetric }
      else if !quan.hasScaleInt || forceFloat then
        some { common, asymmetric, weightFloat := backToFloat weight alpha asymmetric }
      else some { common, weight, alpha, asymmetric }

/-! ### Blocks -/

/-- The step of a block. -/
def blockStep (bits : ℕ) (asymmetricQuantFlag : Bool) (block : List ℚ) : ℚ :=
  if asymmetricQuantFlag then
    ((findMinMax block).2 - (findMinMax block).1) / (threshold bits - clampMin bits true)
  else findAbsMax block / threshold bits

/-- The range of a block: of its weights, or in symmetric mode of their magnitudes. -/
def blockRange (asymmetricQuantFlag : Bool) (block : List ℚ) : ℚ :=
  if asymmetricQuantFlag then (findMinMax block).2 - (findMinMax block).1 else findAbsMax block

/-- The value of a weight of a block. -/
def blockValue (bits : ℕ) (asymmetricQuantFlag : Bool) (block : List ℚ) (weight : ℚ) : ℤ :=
  if asymmetricQuantFlag then
    quantAsym bits (findMinMax block).1 (blockStep bits true block) weight
  else quantSym (blockStep bits false block) weight

/-- A weight of a block, from its value. -/
def restored (bits : ℕ) (asymmetricQuantFlag : Bool) (block : List ℚ) (weight : ℚ) : ℚ :=
  if asymmetricQuantFlag then
    (blockValue bits true block weight - minValue bits) * blockStep bits true block +
      (findMinMax block).1
  else blockValue bits false block weight * blockStep bits false block

theorem abs_cRound_sub_le (x : ℚ) : |(cRound x : ℚ) - x| ≤ 1 / 2 := by
  unfold cRound
  split_ifs
  · have h₁ := Int.floor_le (x + 1 / 2)
    have h₂ := Int.lt_floor_add_one (x + 1 / 2)
    rw [abs_le]
    constructor <;> linarith
  · have h₁ := Int.le_ceil (x - 1 / 2)
    have h₂ := Int.ceil_lt_add_one (x - 1 / 2)
    rw [abs_le]
    constructor <;> linarith

/-- Rounding to multiples of a step. -/
theorem abs_cRound_mul_sub_le {step : ℚ} (hstep : 0 < step) (x : ℚ) :
    |cRound (x / step) * step - x| ≤ step / 2 := by
  have hx : cRound (x / step) * step - x = (cRound (x / step) - x / step) * step := by
    rw [sub_mul, div_mul_cancel₀ x hstep.ne']
  have hround := mul_le_mul_of_nonneg_right (abs_cRound_sub_le (x / step)) hstep.le
  rw [hx, abs_mul, abs_of_pos hstep]
  linarith

/-- **Half a step.**  A weight comes back at most half a step from where it was; a block whose step
counts as zero keeps its weights within its range. -/
theorem abs_restored_sub_le (bits : ℕ) (asymmetricQuantFlag : Bool) {block : List ℚ} {weight : ℚ}
    (hw : weight ∈ block) :
    |restored bits asymmetricQuantFlag block weight - weight| ≤
      if blockStep bits asymmetricQuantFlag block > tinyScale then
        blockStep bits asymmetricQuantFlag block / 2
      else blockRange asymmetricQuantFlag block := by
  have htiny : (0 : ℚ) < tinyScale := by norm_num [tinyScale]
  cases asymmetricQuantFlag with
  | true =>
    obtain ⟨hmin, hmax⟩ := findMinMax_le hw
    simp only [restored, blockValue, if_true, quantAsym]
    split_ifs with hstep
    · have hround := abs_cRound_mul_sub_le (htiny.trans hstep) (weight - (findMinMax block).1)
      push_cast
      rw [add_sub_cancel_right]
      rwa [sub_sub_eq_add_sub] at hround
    · rw [sub_self, zero_mul, zero_add, abs_of_nonpos (by linarith)]
      simp only [blockRange, if_true]
      linarith
  | false =>
    have hmax := abs_le_findAbsMax hw
    simp only [restored, blockValue, Bool.false_eq_true, if_false, quantSym]
    split_ifs with hstep
    · exact abs_cRound_mul_sub_le (htiny.trans hstep) weight
    · rw [Int.cast_zero, zero_mul, zero_sub, abs_neg]
      exact hmax

/-! ### The writer's weights, loaded -/

section Fields

variable (weight scale : List ℚ) (kernelSize kernelNum : ℕ) (asymmetricQuantFlag : Bool)
  (clampMin : ℤ) (bits : ℕ) (detectSparse : Bool)

theorem encode_fields :
    let idst := encode weight scale kernelSize kernelNum asymmetricQuantFlag clampMin bits detectSparse
    idst.alpha = scale ∧ idst.quantScale = 1 ∧ idst.hasScaleInt = false ∧ idst.index = none ∧
      idst.readType = (if asymmetricQuantFlag then kernelNum else 0) ∧
      idst.aMin = if asymmetricQuantFlag then clampMin else 0 := by
  rw [encode]
  generalize writeCQBlobs weight scale kernelSize kernelNum asymmetricQuantFlag bits = cq
  generalize (if detectSparse then
    writeSparseQuanBlobs weight scale kernelSize kernelNum asymmetricQuantFlag bits else none) = sq
  cases sq with
  | none => exact ⟨rfl, rfl, rfl, rfl, rfl, rfl⟩
  | some sq =>
    dsimp only
    split_ifs <;> exact ⟨rfl, rfl, rfl, rfl, rfl, rfl⟩

/-- The form that `encode` chooses. -/
theorem encode_form :
    let cq := writeCQBlobs weight scale kernelSize kernelNum asymmetricQuantFlag bits
    let sq := writeSparseQuanBlobs weight scale kernelSize kernelNum asymmetricQuantFlag bits
    let idst := encode weight scale kernelSize kernelNum asymmetricQuantFlag clampMin bits detectSparse
    (idst.type = 1 ∧ idst.buffer = cq.1 ∧
      (idst.shapeInt32 = cq.2 ∨ ∃ out, sq = some out ∧ idst.shapeInt32 = out.2)) ∨
    ∃ out, sq = some out ∧ idst.type = 2 ∧ idst.buffer = out.1 ∧ idst.shapeInt32 = out.2 := by
  rw [encode]
  generalize writeCQBlobs weight scale kernelSize kernelNum asymmetricQuantFlag bits = cq
  generalize writeSparseQuanBlobs weight scale kernelSize kernelNum asymmetricQuantFlag bits = sq
  cases detectSparse with
  | false => exact .inl ⟨rfl, rfl, .inl rfl⟩
  | true =>
    cases sq with
    | none => exact .inl ⟨rfl, rfl, .inl rfl⟩
    | some sq =>
      simp only [if_true]
      by_cases hle : cq.1.length ≤ sq.1.length
      · rw [if_pos hle]
        exact .inl ⟨rfl, rfl, .inr ⟨sq, rfl, rfl⟩⟩
      · rw [if_neg hle]
        exact .inr ⟨sq, rfl, rfl, rfl, rfl⟩

end Fields

section Encoded

variable {bits : ℕ} (h₂ : 2 ≤ bits) (h₈ : bits ≤ 8) (asymmetricQuantFlag : Bool)
  {oc blockNum blockSize : ℕ} {weightData : List ℚ}

theorem shape_writeSparseQuanBlobs {weightData alphaData : List ℚ} {area channel : ℕ} {b : Bool}
    {out : List Byte × Bool} (hout : writeSparseQuanBlobs weightData alphaData area channel b bits =
      some out) : out.2 = (writeBlobDim [channel, area]).2 := by
  simp only [writeSparseQuanBlobs] at hout
  split_ifs at hout
  rw [← Option.some.inj hout]

/-- The block of row `r`. -/
def block (blockSize : ℕ) (weightData : List ℚ) (r : ℕ) : List ℚ :=
  (weightData.drop (r * blockSize)).take blockSize

theorem quantValue_eq_blockValue {r : ℕ} (hr : r < oc * blockNum) (weight : ℚ) :
    quantValue bits asymmetricQuantFlag
        (weightScales bits asymmetricQuantFlag oc blockNum blockSize weightData) r weight =
      blockValue bits asymmetricQuantFlag (block blockSize weightData r) weight := by
  set scale := weightScales bits asymmetricQuantFlag oc blockNum blockSize weightData with hscale
  cases asymmetricQuantFlag with
  | true =>
    have h₀ : scale.getD (2 * r + 0) 0 = (findMinMax (block blockSize weightData r)).1 :=
      getD_weightScales true weightData hr rfl Nat.zero_lt_two
    have h₁ : scale.getD (2 * r + 1) 0 = blockStep bits true (block blockSize weightData r) :=
      getD_weightScales true weightData hr rfl Nat.one_lt_two
    rw [Nat.add_zero] at h₀
    simp only [quantValue, blockValue, if_true]
    rw [← h₀, ← h₁]
  | false =>
    have h₀ : scale.getD (1 * r + 0) 0 = blockStep bits false (block blockSize weightData r) :=
      getD_weightScales false weightData hr rfl Nat.one_pos
    rw [Nat.add_zero, Nat.one_mul] at h₀
    simp only [quantValue, blockValue, Bool.false_eq_true, if_false]
    rw [← h₀]

variable (hlen : weightData.length = oc * blockNum * blockSize) (hchannel : oc * blockNum < 2 ^ 32)
  (harea : blockSize < 2 ^ 32)

include h₂ h₈ hlen hchannel harea

/-- The dense form holds the values of the weights. -/
theorem readWeight_dense {idst : IDSTQuan} (htype : idst.type = 1)
    (hshape : idst.shapeInt32 = (writeBlobDim [oc * blockNum, blockSize]).2)
    (hbuffer : idst.buffer = (writeCQBlobs weightData
      (weightScales bits asymmetricQuantFlag oc blockNum blockSize weightData) blockSize
      (oc * blockNum) asymmetricQuantFlag bits).1) (forceFloat : Bool) :
    ∃ weight common, readWeight idst forceFloat false = some (weight, common) ∧
      weight.map BitVec.toInt = (sparseValues weightData
        (weightScales bits asymmetricQuantFlag oc blockNum blockSize weightData) blockSize
        (oc * blockNum) asymmetricQuantFlag bits).map Prod.fst := by
  set scale := weightScales bits asymmetricQuantFlag oc blockNum blockSize weightData with hscale
  set out := writeCQBlobs weightData scale blockSize (oc * blockNum) asymmetricQuantFlag bits with hdef
  have hout : out.2 = idst.shapeInt32 := by
    rw [hshape, hdef, writeCQBlobs_eq h₂ h₈]
  have hread : readQuanData out.2 idst.hasScaleInt false forceFloat none {} (out.1 ++ []) = _ :=
    readQuanData_writeCQBlobs h₂ h₈ hchannel harea weightData scale asymmetricQuantFlag
      idst.hasScaleInt false forceFloat none {} []
  obtain ⟨-, hread₁, blob, hblob, hread₂⟩ := readQuanIndex_unpacked h₂ h₈ (.inl rfl)
    (if !false && (forceFloat || !idst.hasScaleInt) then none else none)
    (denseValues weightData scale blockSize (oc * blockNum) asymmetricQuantFlag bits)
    (fun v hv => mem_denseValues hv) { ({} : Int8Common) with weightMap := getWeightSet bits } []
  rw [← hread, List.append_nil, hout, ← hbuffer] at hread₁ hblob
  rw [← denseValues_weightScales h₂ asymmetricQuantFlag hlen, ← hscale]
  refine ⟨blob.take _, (readQuanData idst.shapeInt32 idst.hasScaleInt false forceFloat none {}
    idst.buffer).result, ?_, hread₂⟩
  rw [readWeight, if_pos htype]
  simp only [hblob, hread₁, Option.map_some]

/-- So does the sparse form. -/
theorem readWeight_sparse {idst : IDSTQuan} (htype : idst.type = 2) {out : List Byte × Bool}
    (hout : writeSparseQuanBlobs weightData
      (weightScales bits asymmetricQuantFlag oc blockNum blockSize weightData) blockSize
      (oc * blockNum) asymmetricQuantFlag bits = some out) (hshape : idst.shapeInt32 = out.2)
    (hbuffer : idst.buffer = out.1)
    (halpha : idst.alpha = weightScales bits asymmetricQuantFlag oc blockNum blockSize weightData)
    (forceFloat : Bool) :
    ∃ weight common, readWeight idst forceFloat false = some (weight, common) ∧
      weight.map BitVec.toInt = (sparseValues weightData
        (weightScales bits asymmetricQuantFlag oc blockNum blockSize weightData) blockSize
        (oc * blockNum) asymmetricQuantFlag bits).map Prod.fst := by
  obtain ⟨-, hread₁, blob, hblob, hread₂⟩ := readSparseQuanData_writeSparseQuanBlobs h₂ h₈
    asymmetricQuantFlag hlen hchannel harea hout idst.hasScaleInt false forceFloat none {} []
  rw [List.append_nil, ← hshape, ← hbuffer, ← halpha] at hread₁ hblob
  refine ⟨blob.take (oc * blockNum * blockSize), (readSparseQuanData idst.shapeInt32
    idst.hasScaleInt false forceFloat idst.alpha none {} idst.buffer).result, ?_, ?_⟩
  · rw [readWeight, if_neg (by rw [htype]; decide), if_pos htype]
    simp only [hblob, hread₁, Option.map_some]
  · rw [hread₂, List.map_map]
    refine List.map_congr_left fun p hp => ?_
    exact toInt_ofInt h₈ (sparseValues_mem h₂ asymmetricQuantFlag hlen p hp)

/-- What `encode` writes is read as the values of the weights. -/
theorem readWeight_encode (clampMin : ℤ) (detectSparse forceFloat : Bool) :
    let scale := weightScales bits asymmetricQuantFlag oc blockNum blockSize weightData
    ∃ weight common,
      readWeight (encode weightData scale blockSize (oc * blockNum) asymmetricQuantFlag clampMin bits
        detectSparse) forceFloat false = some (weight, common) ∧
      weight.map BitVec.toInt = (sparseValues weightData scale blockSize (oc * blockNum)
        asymmetricQuantFlag bits).map Prod.fst := by
  intro scale
  have hcq : (writeCQBlobs weightData scale blockSize (oc * blockNum) asymmetricQuantFlag bits).2 =
      (writeBlobDim [oc * blockNum, blockSize]).2 := by
    rw [writeCQBlobs_eq h₂ h₈]
  obtain ⟨halpha, -, -, -, -, -⟩ := encode_fields weightData scale blockSize (oc * blockNum)
    asymmetricQuantFlag clampMin bits detectSparse
  rcases encode_form weightData scale blockSize (oc * blockNum) asymmetricQuantFlag clampMin bits
    detectSparse with ⟨htype, hbuffer, hshape | ⟨sq, hsq, hshape⟩⟩ | ⟨sq, hsq, htype, hbuffer, hshape⟩
  · exact readWeight_dense h₂ h₈ asymmetricQuantFlag hlen hchannel harea htype (hshape.trans hcq)
      hbuffer forceFloat
  · exact readWeight_dense h₂ h₈ asymmetricQuantFlag hlen hchannel harea htype
      (hshape.trans (shape_writeSparseQuanBlobs hsq)) hbuffer forceFloat
  · exact readWeight_sparse h₂ h₈ asymmetricQuantFlag hlen hchannel harea htype hsq hshape hbuffer
      halpha forceFloat

omit h₂ h₈ hlen hchannel harea

/-- The blocks of the loader, one weight after another. -/
theorem backToFloat_eq {weight : List Byte} {alpha : List ℚ} {n area : ℕ} (hn : 0 < n)
    (hcount : (if asymmetricQuantFlag then alpha.length / 2 else alpha.length) = n)
    (hlen : weight.length = n * area) :
    backToFloat weight alpha asymmetricQuantFlag = (List.range (n * area)).map fun i =>
      let (min, alpha) := if asymmetricQuantFlag then
          (alpha.getD (2 * (i / area)) 0, alpha.getD (2 * (i / area) + 1) 0)
        else (0, alpha.getD (i / area) 0)
      some ((weight.getD i 0).toInt * alpha + min) := by
  rcases Nat.eq_zero_or_pos area with rfl | harea
  · simp [backToFloat, hlen]
  rw [backToFloat]
  simp only [hcount, hlen, Nat.mul_div_cancel_left area hn, Nat.sub_self, List.replicate_zero,
    List.append_nil]
  rw [← flatMap_range_map]
  refine List.flatMap_congr fun o _ => List.map_congr_left fun v hv => ?_
  have hdiv : (o * area + v) / area = o := by
    rw [Nat.add_comm, Nat.add_mul_div_right _ _ harea, Nat.div_eq_of_lt (List.mem_range.1 hv),
      Nat.zero_add]
  rw [hdiv]

@[simp] theorem length_shiftMin (clampMin : ℤ) (n : ℕ) (alpha : List ℚ) :
    (shiftMin clampMin n alpha).length = alpha.length := by
  induction n with
  | zero => rfl
  | succ n ih =>
    rw [shiftMin, List.range_succ, List.foldl_append, List.foldl_cons, List.foldl_nil,
      List.length_set]
    exact ih

/-- A pass changes the minimum of its block. -/
theorem getD_shiftMin (clampMin : ℤ) {alpha : List ℚ} {n : ℕ} (hn : 2 * n ≤ alpha.length) (o : ℕ) :
    (shiftMin clampMin n alpha).getD (2 * o + 1) 0 = alpha.getD (2 * o + 1) 0 ∧
      (shiftMin clampMin n alpha).getD (2 * o) 0 =
        if o < n then alpha.getD (2 * o) 0 - clampMin * alpha.getD (2 * o + 1) 0
        else alpha.getD (2 * o) 0 := by
  induction n generalizing o with
  | zero => exact ⟨rfl, rfl⟩
  | succ n ih =>
    have hstep : shiftMin clampMin (n + 1) alpha = (shiftMin clampMin n alpha).set (2 * n)
        ((shiftMin clampMin n alpha).getD (2 * n) 0 -
          clampMin * (shiftMin clampMin n alpha).getD (2 * n + 1) 0) := by
      rw [shiftMin, List.range_succ, List.foldl_append, List.foldl_cons, List.foldl_nil]
      rfl
    have hlt : 2 * n < (shiftMin clampMin n alpha).length := by
      rw [length_shiftMin]
      omega
    have hother : ∀ x j, j ≠ 2 * n → ((shiftMin clampMin n alpha).set (2 * n) x).getD j 0 =
        (shiftMin clampMin n alpha).getD j 0 := by
      intro x j hj
      rw [List.getD_eq_getElem?_getD, List.getElem?_set_ne hj.symm, ← List.getD_eq_getElem?_getD]
    obtain ⟨hodd, heven⟩ := ih (by omega) o
    rw [hstep, hother _ (2 * o + 1) (by omega)]
    refine ⟨hodd, ?_⟩
    by_cases ho : o = n
    · subst ho
      rw [List.getD_eq_getElem?_getD, List.getElem?_set_self hlt, if_pos (Nat.lt_succ_self o), heven,
        if_neg (lt_irrefl o), hodd]
      rfl
    · rw [hother _ (2 * o) (by omega), heven]
      simp only [show o < n + 1 ↔ o < n by omega]

/-- `load` in float mode, of weights with their own scales. -/
theorem load_eq {idst : IDSTQuan} (hindex : idst.index = none) (hint : idst.hasScaleInt = false)
    (hquant : idst.quantScale = 1) {forceFloat : Bool} {weight : List Byte} {common : Int8Common}
    (hread : readWeight idst forceFloat false = some (weight, common)) {asymmetric : Bool}
    (hasym : (idst.readType ≠ 0 : Bool) = asymmetric) :
    ∃ r, load idst forceFloat false = some r ∧
      r.weightFloat = backToFloat weight (loadAlpha idst asymmetric false) asymmetric := by
  have hold : (idst.type = 4 && idst.aMin = 0 && |idst.quantScale| < tinyScale : Bool) = false := by
    rw [hquant]
    norm_num [tinyScale]
  have hasym' : (idst.readType ≠ 0 || false : Bool) = asymmetric := by
    rw [Bool.or_false, hasym]
  rw [load, hindex]
  simp only [hread, hold, hasym', hint]
  exact ⟨_, rfl, rfl⟩

theorem clampMin_true {bits : ℕ} : clampMin bits true = (minValue bits : ℚ) := by
  rw [clampMin, if_pos rfl, threshold, minValue]
  push_cast
  ring

include h₂ h₈ hlen hchannel harea

/-- **Quantised weights, loaded.**  Each weight comes back from its value and its block. -/
theorem load_encode (hpos : 0 < weightData.length) (detectSparse forceFloat : Bool) :
    ∃ r, load (encode weightData
        (weightScales bits asymmetricQuantFlag oc blockNum blockSize weightData) blockSize
        (oc * blockNum) asymmetricQuantFlag ⌈clampMin bits asymmetricQuantFlag⌉ bits detectSparse)
        forceFloat false = some r ∧
      r.weightFloat = (List.range weightData.length).map fun i =>
        some (restored bits asymmetricQuantFlag (block blockSize weightData (i / blockSize))
          (weightData.getD i 0)) := by
  set scale := weightScales bits asymmetricQuantFlag oc blockNum blockSize weightData with hscale
  set idst := encode weightData scale blockSize (oc * blockNum) asymmetricQuantFlag
    ⌈clampMin bits asymmetricQuantFlag⌉ bits detectSparse with hidst
  obtain ⟨halpha, hquant, hint, hindex, hreadType, hmin⟩ := encode_fields weightData scale blockSize
    (oc * blockNum) asymmetricQuantFlag ⌈clampMin bits asymmetricQuantFlag⌉ bits detectSparse
  obtain ⟨weight, common, hread, hvalues⟩ := readWeight_encode h₂ h₈ asymmetricQuantFlag hlen
    hchannel harea ⌈clampMin bits asymmetricQuantFlag⌉ detectSparse forceFloat
  rw [← hscale, ← hidst] at hread
  rw [← hidst] at halpha hquant hint hindex hreadType hmin
  have hchannel₀ : 0 < oc * blockNum := Nat.pos_of_mul_pos_right (hlen ▸ hpos)
  have harea₀ : 0 < blockSize := Nat.pos_of_mul_pos_left (hlen ▸ hpos)
  have hasym : (idst.readType ≠ 0 : Bool) = asymmetricQuantFlag := by
    rw [hreadType]
    cases asymmetricQuantFlag with
    | true => exact decide_eq_true hchannel₀.ne'
    | false => rfl
  have hscaleLen : scale.length = (if asymmetricQuantFlag then 2 else 1) * (oc * blockNum) :=
    length_weightScales ..
  obtain ⟨r, hload, hfloat⟩ := load_eq hindex hint hquant hread hasym
  refine ⟨r, hload, ?_⟩
  have hweight : weight.length = oc * blockNum * blockSize := by
    have := congrArg List.length hvalues
    simpa [sparseValues, Nat.mul_comm blockSize] using this
  have hvalue : ∀ i < oc * blockNum * blockSize, (weight.getD i 0).toInt =
      blockValue bits asymmetricQuantFlag (block blockSize weightData (i / blockSize))
        (weightData.getD i 0) := by
    intro i hi
    have hrow : i / blockSize < oc * blockNum :=
      Nat.div_lt_of_lt_mul (by rwa [Nat.mul_comm blockSize])
    have hget := congrArg (fun l => l.getD i 0) hvalues
    simp only [sparseValues, List.map_map] at hget
    rw [List.getD_eq_getElem _ _ (by rwa [List.length_map, hweight]), List.getElem_map,
      List.getD_eq_getElem _ _ (by simpa [Nat.mul_comm blockSize] using hi), List.getElem_map,
      List.getElem_range] at hget
    rw [List.getD_eq_getElem _ _ (by rwa [hweight]), hget, Function.comp_apply]
    exact quantValue_eq_blockValue asymmetricQuantFlag hrow _
  have hlast : loadAlpha idst asymmetricQuantFlag false = if asymmetricQuantFlag then
      shiftMin (minValue bits) (oc * blockNum) scale else scale := by
    have hmin₀ : minValue bits < 0 := neg_neg_of_pos (by positivity)
    simp only [loadAlpha, hquant, hint, ne_eq, not_true_eq_false, and_false, if_false, halpha, hmin]
    cases asymmetricQuantFlag with
    | true =>
      simp only [if_true, clampMin_true, Int.ceil_intCast, hmin₀.ne, hmin₀, if_false, hscaleLen,
        Nat.mul_div_cancel_left _ Nat.zero_lt_two]
    | false => rfl
  have hcount : (if asymmetricQuantFlag then
      (loadAlpha idst asymmetricQuantFlag false).length / 2
      else (loadAlpha idst asymmetricQuantFlag false).length) = oc * blockNum := by
    rw [hlast]
    cases asymmetricQuantFlag <;> simp [hscaleLen]
  rw [hfloat, backToFloat_eq asymmetricQuantFlag hchannel₀ hcount hweight, hlen, hlast]
  refine List.map_congr_left fun i hi => ?_
  have hi' := List.mem_range.1 hi
  have hrow : i / blockSize < oc * blockNum :=
    Nat.div_lt_of_lt_mul (by rwa [Nat.mul_comm blockSize])
  rw [hvalue i hi', restored]
  cases asymmetricQuantFlag with
  | true =>
    obtain ⟨hodd, heven⟩ := getD_shiftMin (minValue bits) hscaleLen.ge (i / blockSize)
    have h₀ : scale.getD (2 * (i / blockSize) + 0) 0 =
        (findMinMax (block blockSize weightData (i / blockSize))).1 :=
      getD_weightScales true weightData hrow rfl Nat.zero_lt_two
    have h₁ : scale.getD (2 * (i / blockSize) + 1) 0 =
        blockStep bits true (block blockSize weightData (i / blockSize)) :=
      getD_weightScales true weightData hrow rfl Nat.one_lt_two
    rw [Nat.add_zero] at h₀
    simp only [if_true, hodd, heven, hrow, h₀, h₁, Option.some.injEq]
    ring
  | false =>
    have h₀ : scale.getD (1 * (i / blockSize) + 0) 0 =
        blockStep bits false (block blockSize weightData (i / blockSize)) :=
      getD_weightScales false weightData hrow rfl Nat.one_pos
    rw [Nat.add_zero, Nat.one_mul] at h₀
    simp only [Bool.false_eq_true, if_false, h₀, add_zero]

end Encoded

end Mnn.Idst
