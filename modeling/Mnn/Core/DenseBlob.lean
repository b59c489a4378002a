import Mnn.Core.BlobStream
import Mnn.Core.WeightQuant

/-!
# Dense quantised weights

`WriteCQBlobs` (`source/core/IDSTEncoder.hpp`) and `ReadQuanData_c`
(`source/core/ConvolutionCommon.cpp`): the dims, a table of values, and for every weight the index
of its value, packed into as few bits as the table needs.  The writer is built with
`LINEAR_WEIGHT_SET`, so the table is the whole range of the bit width.

* `denseValues`, `writeCQBlobs`, `readQuanData`;
* `readQuanData_writeCQBlobs`: the reader on the writer's bytes, in each of its paths;
* `dense_round_trip`: every array of values in range comes back, unpacked or two to a byte.
-/

namespace Mnn.Idst

open Lib

/-! ### Writing -/

/-- `GetWeightSet`, in the order of the set. -/
def getWeightSet (bits : ℕ) : List ℤ :=
  (List.range (2 ^ bits)).map fun i : ℕ => minValue bits + i

/-- The values that `WriteCQBlobs` stores, channel by channel. -/
def denseValues (weightData alphaData : List ℚ) (area channel : ℕ) (asymmetricQuantFlag : Bool)
    (bits : ℕ) : List ℤ :=
  (List.range channel).flatMap fun i => (List.range area).map fun j =>
    max (min (quantValue bits asymmetricQuantFlag alphaData i (weightData.getD (i * area + j) 0))
      (maxValue bits)) (minValue bits)

/-- The index of a value in the table, as a byte. -/
def indexByte (bits : ℕ) (value : ℤ) : Byte := BitVec.ofInt 8 (value + 2 ^ (bits - 1))

/-- `WriteCQBlobs`: the bytes written and `shapeUseInt32`. -/
def writeCQBlobs (weightData alphaData : List ℚ) (area channel : ℕ) (asymmetricQuantFlag : Bool)
    (bits : ℕ) : List Byte × Bool :=
  let setWeight := getWeightSet bits
  let iCount := setWeight.length
  let iNeedBits := max (Nat.clog 2 iCount) 1
  if iNeedBits > 8 then ([], false)
  else
    let values := denseValues weightData alphaData area channel asymmetricQuantFlag bits
    let buf := fillBuffer (bufLen iNeedBits (area * channel)) (values.map (indexByte bits)) iNeedBits
    let (dims, shapeUseInt32) := writeBlobDim [channel, area]
    (dims ++ BitVec.ofNat 8 iCount :: setWeight.map (BitVec.ofInt 8) ++ buf, shapeUseInt32)

/-! ### Reading -/

/-- `SimpleRank` with `up`. -/
def simpleRank (data : List ℤ) : List ℤ := data.insertionSort (· ≤ ·)

/-- `atLestBitsCnt`. -/
def atLestBitsCnt (n : BitVec 32) : ℕ :=
  match (List.range 32).find? fun i => (n <<< i).msb with
  | some i => 32 - i - if (n <<< i) <<< 1 = 0 then 1 else 0
  | none => 0

/-- `isLinearSample`. -/
def isLinearSample (sample : List ℤ) (bit : ℕ) : Bool :=
  sample.length = 2 ^ bit ∧ ∀ i < sample.length, sample.getD i 0 = i - 2 ^ (bit - 1)

/-- `sampleCnt` from its byte: a full table of 256 values wraps around to `0`. -/
def sampleCount (count : Byte) : ℕ := if count.toNat = 0 then 256 else count.toNat

/-- The members of `Int8Common` that the readers set. -/
structure Int8Common where
  weightMap : List ℤ := []
  canUseInt4 : Bool := false
  originBits : ℕ := 8

/-- What a reader leaves: the array, its length as reported, the common record, and the rest of the
stream. -/
structure ReadResult where
  blob : Option (List Byte)
  len : ℕ := 0
  result : Int8Common
  rest : List Byte

/-- Store `values` at the front of a buffer. -/
def store (buffer values : List Byte) : List Byte := values ++ buffer.drop values.length

/-- Two entries to a byte, the first in the high half; the reader's loop over `newBlob`. -/
def packInt4 (blob : List Byte) (sizeDiv2 : ℕ) : List Byte :=
  (List.range sizeDiv2).map fun i =>
    (blob.getD (2 * i) 0 + 8) <<< 4 + (blob.getD (2 * i + 1) 0 + 8)

/-- `MNNMemoryAllocAlignZeroAlign` of `UP_DIV(dataCnt, 2) * 2` bytes. -/
def allocEven (dataCnt : ℕ) : List Byte := List.replicate ((dataCnt + 1) / 2 * 2) 0

/-- The part of `ReadQuanData_c` after the table of `sampleCnt` values: the indices and what is made
of them.  `output` is what the caller's buffer held, where `canSetOutputPtr` holds. -/
def readQuanIndex (forceQuant : Bool) (output : Option (List Byte)) (sampleCnt : ℕ)
    (samples : List ℤ) (dataCnt : ℕ) (result : Int8Common) (s : List Byte) : ReadResult :=
  let idxBitsCnt := max (atLestBitsCnt (BitVec.ofNat 32 sampleCnt)) 1
  let linear := isLinearSample samples idxBitsCnt
  let idxBufSize := bufLen idxBitsCnt dataCnt
  let idxBuf := s.take idxBufSize
  let rest := s.drop idxBufSize
  let result := { result with originBits := if linear then idxBitsCnt else result.originBits }
  if linear ∧ (idxBitsCnt = 4 ∨ idxBitsCnt = 8) then
    if forceQuant = false ∧ idxBitsCnt = 4 then
      let values := idxBuf.flatMap fun val => [val / 16 - 8, val % 16 - 8]
      { blob := some (store (output.getD (allocEven dataCnt)) values), len := dataCnt, result, rest }
    else if idxBitsCnt = 4 then
      { blob := some (store (output.getD []) idxBuf), len := idxBufSize
        result := { result with canUseInt4 := true }, rest }
    else
      { blob := some (store (output.getD []) (idxBuf.map (· - 128))), len := idxBufSize
        result, rest }
  else
    let isBlobOutput := !(decide (result.originBits ≤ 4) && forceQuant)
    let target := if isBlobOutput then output else none
    let idxBytes := splitBufToArray idxBuf dataCnt idxBitsCnt
    let values :=
      if linear then idxBytes.map (· - BitVec.ofNat 8 (2 ^ (idxBitsCnt - 1)))
      else (idxBytes.takeWhile fun idx => idx.toNat < sampleCnt).map
        fun idx => BitVec.ofInt 8 (samples.getD idx.toNat 0)
    if values.length < dataCnt ∧ target = none then { blob := none, result, rest }
    else
      let blob := store (target.getD (allocEven dataCnt)) values
      if isBlobOutput then { blob := some blob, len := dataCnt, result, rest }
      else
        { blob := some (store (output.getD []) (packInt4 blob ((dataCnt + 1) / 2)))
          len := dataCnt, result := { result with canUseInt4 := true }, rest }

/-- `ReadQuanData_c`.  `outputPtr` is what the caller's buffer held, if there is one. -/
def readQuanData (shapeInt32 hasScaleInt forceQuant forceFloat : Bool)
    (outputPtr : Option (List Byte)) (result : Int8Common) (s : List Byte) : ReadResult :=
  let (shape, s) := readBlobDim shapeInt32 32 s
  if shape = [] then { blob := none, result, rest := s }
  else
    let sampleCnt := sampleCount (s.headD 0)
    let samples := simpleRank ((s.tail.take sampleCnt).map BitVec.toInt)
    let output := if !forceQuant && (forceFloat || !hasScaleInt) then none else outputPtr
    readQuanIndex forceQuant output sampleCnt samples shape.prod { result with weightMap := samples }
      (s.tail.drop sampleCnt)

/-! ### The header -/

@[simp] theorem length_getWeightSet (bits : ℕ) : (getWeightSet bits).length = 2 ^ bits := by
  rw [getWeightSet, List.length_map, List.length_range]

theorem two_pow_pred {bits : ℕ} (hbits : 0 < bits) : (2 : ℤ) ^ bits = 2 * 2 ^ (bits - 1) := by
  rw [← pow_succ', Nat.sub_add_cancel hbits]

theorem two_pow_pred_le {bits : ℕ} (hbits : bits ≤ 8) : (2 : ℤ) ^ (bits - 1) ≤ 128 := by
  calc (2 : ℤ) ^ (bits - 1) ≤ 2 ^ 7 := pow_le_pow_right₀ (by norm_num) (by omega)
    _ = 128 := by norm_num

/-- Values in the range of at most eight bits survive the cast to a byte. -/
theorem toInt_ofInt {bits : ℕ} (hbits : bits ≤ 8) {v : ℤ} (h : minValue bits ≤ v ∧ v ≤ maxValue bits) :
    (BitVec.ofInt 8 v).toInt = v := by
  have hpow := two_pow_pred_le hbits
  obtain ⟨h₁, h₂⟩ := h
  rw [minValue] at h₁
  rw [maxValue] at h₂
  rw [BitVec.toInt_ofInt]
  exact Int.bmod_eq_of_le_mul_two (by norm_num; omega) (by norm_num; omega)

theorem mem_getWeightSet {bits : ℕ} (hbits : 0 < bits) {v : ℤ} (hv : v ∈ getWeightSet bits) :
    minValue bits ≤ v ∧ v ≤ maxValue bits := by
  obtain ⟨i, hi, rfl⟩ := List.mem_map.1 hv
  have hi' : (i : ℤ) < 2 ^ bits := by exact_mod_cast List.mem_range.1 hi
  have hpow := two_pow_pred hbits
  simp only [minValue, maxValue]
  omega

/-- The table is written in ascending order, so that the reader's sort leaves it alone. -/
theorem simpleRank_getWeightSet (bits : ℕ) : simpleRank (getWeightSet bits) = getWeightSet bits := by
  refine List.Pairwise.insertionSort_eq ?_
  rw [getWeightSet, List.pairwise_map]
  exact List.pairwise_lt_range.imp fun h => by omega

theorem atLestBitsCnt_two_pow {bits : ℕ} (h₁ : 1 ≤ bits) (h₈ : bits ≤ 8) :
    max (atLestBitsCnt (BitVec.ofNat 32 (2 ^ bits))) 1 = bits := by
  interval_cases bits <;> decide

theorem isLinearSample_getWeightSet (bits : ℕ) : isLinearSample (getWeightSet bits) bits = true := by
  refine decide_eq_true ⟨length_getWeightSet bits, fun i hi => ?_⟩
  rw [length_getWeightSet] at hi
  simp [getWeightSet, List.getD_eq_getElem?_getD, hi, minValue]
  ring

theorem sampleCount_two_pow {bits : ℕ} (h₁ : 1 ≤ bits) (h₈ : bits ≤ 8) :
    sampleCount (BitVec.ofNat 8 (2 ^ bits)) = 2 ^ bits := by
  interval_cases bits <;> rfl

/-- The table, written byte by byte and read back. -/
theorem map_toInt_getWeightSet {bits : ℕ} (h₁ : 1 ≤ bits) (h₈ : bits ≤ 8) :
    ((getWeightSet bits).map (BitVec.ofInt 8)).map BitVec.toInt = getWeightSet bits := by
  rw [List.map_map]
  refine (List.map_congr_left fun v hv => ?_).trans (List.map_id _)
  exact toInt_ofInt h₈ (mem_getWeightSet h₁ hv)

/-- The header of a blob whose table is the range of `bits`, as both writers write it. -/
theorem readQuanData_header {bits : ℕ} (h₂ : 2 ≤ bits) (h₈ : bits ≤ 8) {channel area : ℕ}
    (hchannel : channel < 2 ^ 32) (harea : area < 2 ^ 32) (hasScaleInt forceQuant forceFloat : Bool)
    (outputPtr : Option (List Byte)) (result : Int8Common) (s : List Byte) :
    readQuanData (writeBlobDim [channel, area]).2 hasScaleInt forceQuant forceFloat outputPtr result
        ((writeBlobDim [channel, area]).1 ++ (BitVec.ofNat 8 (2 ^ bits) ::
          (getWeightSet bits).map (BitVec.ofInt 8) ++ s)) =
      readQuanIndex forceQuant
        (if !forceQuant && (forceFloat || !hasScaleInt) then none else outputPtr) (2 ^ bits)
        (getWeightSet bits) (channel * area) { result with weightMap := getWeightSet bits } s := by
  have hdims : ∀ d ∈ [channel, area], d < 2 ^ 32 := by
    intro d hd
    rcases List.mem_pair.1 hd with rfl | rfl
    exacts [hchannel, harea]
  have hcount := sampleCount_two_pow (by omega : 1 ≤ bits) h₈
  have hlen : ((getWeightSet bits).map (BitVec.ofInt 8)).length = 2 ^ bits := by
    rw [List.length_map, length_getWeightSet]
  have htable := map_toInt_getWeightSet (by omega : 1 ≤ bits) h₈
  simp only [readQuanData]
  rw [readBlobDim_writeBlobDim hdims (by simp)]
  simp only [List.cons_append, List.headD_cons, List.tail_cons, hcount, List.take_left' hlen,
    List.drop_left' hlen, htable, simpleRank_getWeightSet]
  rw [if_neg (by simp), List.prod_cons, List.prod_cons, List.prod_nil, Nat.mul_one]

/-! ### The indices -/

theorem toNat_indexByte {bits : ℕ} (h₈ : bits ≤ 8) {v : ℤ}
    (hv : minValue bits ≤ v ∧ v ≤ maxValue bits) :
    ((indexByte bits v).toNat : ℤ) = v + 2 ^ (bits - 1) := by
  have hpow := two_pow_pred_le h₈
  simp only [minValue, maxValue] at hv
  rw [indexByte, BitVec.toNat_ofInt, Int.toNat_of_nonneg (Int.emod_nonneg _ (by norm_num)),
    Int.emod_eq_of_lt (by omega) (by norm_num; omega)]

theorem indexByte_lt {bits : ℕ} (h₁ : 1 ≤ bits) (h₈ : bits ≤ 8) {v : ℤ}
    (hv : minValue bits ≤ v ∧ v ≤ maxValue bits) : (indexByte bits v).toNat < 2 ^ bits := by
  have htoNat := toNat_indexByte h₈ hv
  have hpow := two_pow_pred h₁
  simp only [minValue, maxValue] at hv
  have : ((indexByte bits v).toNat : ℤ) < ((2 ^ bits : ℕ) : ℤ) := by
    push_cast
    omega
  exact_mod_cast this

theorem indexByte_sub (bits : ℕ) (v : ℤ) :
    indexByte bits v - BitVec.ofNat 8 (2 ^ (bits - 1)) = BitVec.ofInt 8 v := by
  have hoffset : BitVec.ofNat 8 (2 ^ (bits - 1)) = BitVec.ofInt 8 (2 ^ (bits - 1)) := by
    rw [← BitVec.ofInt_natCast]
    push_cast
    rfl
  rw [indexByte, BitVec.ofInt_add, hoffset, BitVec.add_sub_cancel]

/-- The two halves of a byte are the two fields of four bits. -/
theorem nibbles_eq (v : Byte) : v / 16 = (v >>> 4) &&& mask 4 ∧ v % 16 = (v >>> 0) &&& mask 4 := by
  revert v
  decide

theorem readField_four (buf : List Byte) (i : ℕ) :
    readField 4 buf (4 * (2 * i)) = buf.getD i 0 / 16 ∧
      readField 4 buf (4 * (2 * i + 1)) = buf.getD i 0 % 16 := by
  obtain ⟨hhigh, hlow⟩ := nibbles_eq (buf.getD i 0)
  have h₁ : 4 * (2 * i) / 8 = i ∧ 4 * (2 * i) % 8 = 0 := by omega
  have h₂ : 4 * (2 * i + 1) / 8 = i ∧ 4 * (2 * i + 1) % 8 = 4 := by omega
  simp only [readField, h₁, h₂]
  exact ⟨hhigh.symm, hlow.symm⟩

theorem splitBufToArray_getD (buf : List Byte) {n b i : ℕ} (h : i < n) :
    (splitBufToArray buf n b).getD i 0 = readField b buf (b * i) := by
  rw [splitBufToArray, splitLoop_eq, unpackFields, List.getD_eq_getElem?_getD, List.getElem?_map,
    List.getElem?_range h]
  simp

theorem flatMap_nibbles (buf : List Byte) {n : ℕ} (hn : n ≤ 2 * buf.length) :
    (buf.flatMap fun val => [val / 16 - 8, val % 16 - 8]).take n =
      (splitBufToArray buf n 4).map (· - 8) := by
  have hlen : (buf.flatMap fun val => [val / 16 - 8, val % 16 - 8]).length = buf.length * 2 := by
    simp [List.length_flatMap]
  refine List.ext_getElem (by simp; omega) fun i h₁ h₂ => ?_
  have hi : i < n := by
    rw [List.length_take] at h₁
    omega
  have hk : i / 2 < buf.length := by omega
  obtain ⟨hhigh, hlow⟩ := readField_four buf (i / 2)
  rw [List.getElem_take, List.getElem_map, ← List.getD_eq_getElem _ 0 (by omega),
    ← List.getD_eq_getElem (splitBufToArray buf n 4) 0 (by simpa using hi), splitBufToArray_getD _ hi]
  have hget := fun j hj => getD_flatMap (c := 2) (f := fun val : Byte => [val / 16 - 8, val % 16 - 8])
    (fun _ => rfl) hk (j := j) hj 0
  rw [← List.getD_eq_getElem buf 0 hk] at hget
  rcases Nat.mod_two_eq_zero_or_one i with hmod | hmod
  · rw [show i = 2 * (i / 2) + 0 by omega, hget 0 (by omega), Nat.add_zero, hhigh]
    rfl
  · rw [show i = 2 * (i / 2) + 1 by omega, hget 1 (by omega), hlow]
    rfl

theorem splitBufToArray_eight (buf : List Byte) : splitBufToArray buf buf.length 8 = buf := by
  have hmask : ∀ v : Byte, (v >>> 0) &&& mask 8 = v := by decide
  refine List.ext_getElem (length_splitBufToArray ..) fun i h₁ h₂ => ?_
  have hi : 8 * i / 8 = i ∧ 8 * i % 8 = 0 := by omega
  rw [← List.getD_eq_getElem _ 0 h₁, splitBufToArray_getD _ h₂]
  simp only [readField, hi]
  exact (hmask _).trans (List.getD_eq_getElem _ _ h₂)

theorem take_store (buffer values : List Byte) {n : ℕ} (h : n ≤ values.length) :
    (store buffer values).take n = values.take n :=
  List.take_append_of_le_length h

/-- The unpacking paths of the reader, on the indices of values in range. -/
theorem readQuanIndex_unpacked {bits : ℕ} (h₂ : 2 ≤ bits) (h₈ : bits ≤ 8) {forceQuant : Bool}
    (hforce : forceQuant = false ∨ 4 < bits) (output : Option (List Byte)) (values : List ℤ)
    (hvalues : ∀ v ∈ values, minValue bits ≤ v ∧ v ≤ maxValue bits) (result : Int8Common)
    (rest : List Byte) :
    let r := readQuanIndex forceQuant output (2 ^ bits) (getWeightSet bits) values.length result
      (fillBuffer (bufLen bits values.length) (values.map (indexByte bits)) bits ++ rest)
    r.rest = rest ∧ r.len = values.length ∧
      ∃ blob, r.blob = some blob ∧ (blob.take values.length).map BitVec.toInt = values := by
  have hbuf := length_fillBuffer (bufLen bits values.length) (values.map (indexByte bits)) bits
  have hsplit := splitBufToArray_fillBuffer (b := bits) (by omega) h₈ (values.map (indexByte bits))
    (by
      simp only [List.mem_map]
      rintro _ ⟨v, hv, rfl⟩
      exact indexByte_lt (by omega) h₈ (hvalues v hv))
  rw [List.length_map] at hsplit
  generalize fillBuffer (bufLen bits values.length) (values.map (indexByte bits)) bits = buf at *
  have hvalue : ((values.map (indexByte bits)).map (· - BitVec.ofNat 8 (2 ^ (bits - 1)))).map
      BitVec.toInt = values := by
    rw [List.map_map, List.map_map]
    refine (List.map_congr_left fun v hv => ?_).trans (List.map_id _)
    rw [Function.comp_apply, Function.comp_apply, indexByte_sub]
    exact toInt_ofInt h₈ (hvalues v hv)
  have hlinear := isLinearSample_getWeightSet bits
  have hlen : ((splitBufToArray buf values.length bits).map
      (· - BitVec.ofNat 8 (2 ^ (bits - 1)))).length = values.length := by
    rw [List.length_map, length_splitBufToArray]
  simp only [readQuanIndex, atLestBitsCnt_two_pow (by omega : 1 ≤ bits) h₈, hlinear,
    List.take_left' hbuf, List.drop_left' hbuf, true_and, if_true]
  by_cases h48 : bits = 4 ∨ bits = 8
  · rw [if_pos h48]
    rcases h48 with rfl | rfl
    · -- four bits: two values to a byte
      have hquant : forceQuant = false := hforce.resolve_right (lt_irrefl 4)
      rw [if_pos ⟨hquant, rfl⟩]
      have hn : values.length ≤ 2 * buf.length := by
        rw [hbuf, bufLen]
        omega
      refine ⟨rfl, rfl, _, rfl, ?_⟩
      rw [take_store _ _ (by simp; omega), flatMap_nibbles buf hn, hsplit]
      exact hvalue
    · -- eight bits: one value to a byte
      have hn : values.length = buf.length := by
        rw [hbuf, bufLen]
        omega
      rw [if_neg (by simp), if_neg (by simp)]
      refine ⟨rfl, hbuf.symm.trans hn.symm, _, rfl, ?_⟩
      rw [take_store _ _ (by simp [hn]), List.take_of_length_le (by simp [hn])]
      rw [hn, splitBufToArray_eight] at hsplit
      rw [hsplit]
      exact hvalue
  · have hblob : (!(decide (bits ≤ 4) && forceQuant)) = true := by
      rcases hforce with rfl | hlt
      · rw [Bool.and_false, Bool.not_false]
      · rw [decide_eq_false (by omega), Bool.false_and, Bool.not_false]
    rw [if_neg h48]
    simp only [hblob, if_true, hlen, lt_irrefl, false_and, if_false, Option.some.injEq,
      exists_eq_left', true_and]
    rw [take_store _ _ hlen.ge, List.take_of_length_le hlen.le, hsplit]
    exact hvalue

/-! ### Two values to a byte -/

/-- Byte `i` holds value `2 * i` plus 8 in its high half and value `2 * i + 1` plus 8 in its low
half. -/
structure HoldsNibbles (values : List ℤ) (packed : List Byte) : Prop where
  length : packed.length = (values.length + 1) / 2
  high : ∀ i, 2 * i < values.length →
    (((packed.getD i 0).toNat / 16 : ℕ) : ℤ) = values.getD (2 * i) 0 + 8
  low : ∀ i, 2 * i + 1 < values.length →
    (((packed.getD i 0).toNat % 16 : ℕ) : ℤ) = values.getD (2 * i + 1) 0 + 8

theorem shiftLeft_add_nibbles {x y : Byte} (hx : x.toNat < 16) (hy : y.toNat < 16) :
    (x <<< 4 + y).toNat / 16 = x.toNat ∧ (x <<< 4 + y).toNat % 16 = y.toNat := by
  rw [BitVec.toNat_add, BitVec.toNat_shiftLeft, Nat.shiftLeft_eq]
  omega

theorem range_four {bits : ℕ} (h₄ : bits ≤ 4) {v : ℤ} (hv : minValue bits ≤ v ∧ v ≤ maxValue bits) :
    minValue 4 ≤ v ∧ v ≤ maxValue 4 := by
  have hpow : (2 : ℤ) ^ (bits - 1) ≤ 2 ^ (4 - 1) := pow_le_pow_right₀ (by norm_num) (by omega)
  simp only [minValue, maxValue] at hv ⊢
  omega

/-- An entry of the unpacked array plus 8; the padding of an odd array holds zeros. -/
theorem store_allocEven_add (values : List ℤ) (j : ℕ) :
    (store (allocEven values.length) (values.map (BitVec.ofInt 8))).getD j 0 + 8 =
      if j < values.length then indexByte 4 (values.getD j 0) else 8 := by
  have hlen : (values.map (BitVec.ofInt 8)).length = values.length := List.length_map ..
  rw [store, hlen]
  split_ifs with hj
  · rw [List.getD_append _ _ _ _ (by rwa [hlen]), List.getD_eq_getElem _ _ (by rwa [hlen]),
      List.getElem_map, List.getD_eq_getElem _ _ hj, indexByte, BitVec.ofInt_add]
    rfl
  · rw [List.getD_append_right _ _ _ _ (by omega), allocEven, List.drop_replicate,
      List.getD_eq_getElem?_getD, List.getElem?_getD_replicate_default_eq]
    rfl

theorem packInt4_getD (blob : List Byte) {m i : ℕ} (hi : i < m) :
    (packInt4 blob m).getD i 0 =
      (blob.getD (2 * i) 0 + 8) <<< 4 + (blob.getD (2 * i + 1) 0 + 8) := by
  rw [packInt4, List.getD_eq_getElem _ _ (by simpa using hi), List.getElem_map, List.getElem_range]

/-- The packing paths of the reader, on the indices of values in range. -/
theorem readQuanIndex_packed {bits : ℕ} (h₂ : 2 ≤ bits) (h₄ : bits ≤ 4)
    (output : Option (List Byte)) (values : List ℤ)
    (hvalues : ∀ v ∈ values, minValue bits ≤ v ∧ v ≤ maxValue bits) (result : Int8Common)
    (rest : List Byte) :
    let r := readQuanIndex true output (2 ^ bits) (getWeightSet bits) values.length result
      (fillBuffer (bufLen bits values.length) (values.map (indexByte bits)) bits ++ rest)
    r.rest = rest ∧ ∃ packed, r.blob = some (store (output.getD []) packed) ∧
      HoldsNibbles values packed := by
  have hbuf := length_fillBuffer (bufLen bits values.length) (values.map (indexByte bits)) bits
  have hsplit := splitBufToArray_fillBuffer (b := bits) (by omega) (by omega)
    (values.map (indexByte bits)) (by
      simp only [List.mem_map]
      rintro _ ⟨v, hv, rfl⟩
      exact indexByte_lt (by omega) (by omega) (hvalues v hv))
  rw [List.length_map] at hsplit
  generalize fillBuffer (bufLen bits values.length) (values.map (indexByte bits)) bits = buf at *
  have hlinear := isLinearSample_getWeightSet bits
  -- the half byte that stands for a value
  have hnibble : ∀ {j}, j < values.length →
      ((indexByte 4 (values.getD j 0)).toNat : ℤ) = values.getD j 0 + 8 ∧
        (indexByte 4 (values.getD j 0)).toNat < 16 := by
    intro j hj
    have hrange := range_four h₄ (hvalues _ (List.getElem_mem hj))
    rw [List.getD_eq_getElem _ _ hj]
    exact ⟨toNat_indexByte (by omega) hrange, indexByte_lt (by omega) (by omega) hrange⟩
  simp only [readQuanIndex, atLestBitsCnt_two_pow (by omega : 1 ≤ bits) (by omega), hlinear,
    List.take_left' hbuf, List.drop_left' hbuf, true_and, if_true]
  by_cases hfour : bits = 4
  · subst hfour
    rw [if_pos (.inl rfl), if_neg (by simp), if_pos rfl]
    have hfield : ∀ {j}, j < values.length →
        readField 4 buf (4 * j) = indexByte 4 (values.getD j 0) := by
      intro j hj
      rw [← splitBufToArray_getD buf hj, hsplit, List.getD_eq_getElem _ _ (by simpa using hj),
        List.getElem_map, List.getD_eq_getElem _ _ hj]
    refine ⟨rfl, buf, rfl, ⟨by rw [hbuf, bufLen]; omega, fun i hi => ?_, fun i hi => ?_⟩⟩
    · rw [← (hnibble hi).1, ← hfield hi, (readField_four buf i).1, BitVec.toNat_udiv]
      rfl
    · rw [← (hnibble hi).1, ← hfield hi, (readField_four buf i).2, BitVec.toNat_umod]
      rfl
  · rw [if_neg (by omega)]
    have hblob : (!(decide (bits ≤ 4) && true)) = false := by
      rw [decide_eq_true h₄, Bool.and_true, Bool.not_true]
    have hbytes : (splitBufToArray buf values.length bits).map
        (· - BitVec.ofNat 8 (2 ^ (bits - 1))) = values.map (BitVec.ofInt 8) := by
      rw [hsplit, List.map_map]
      exact List.map_congr_left fun v _ => indexByte_sub bits v
    simp only [hblob, Bool.false_eq_true, if_false, hbytes, List.length_map, lt_irrefl, false_and,
      Option.some.injEq, Option.getD_none, true_and]
    have hentry : ∀ i, 2 * i < values.length →
        (packInt4 (store (allocEven values.length) (values.map (BitVec.ofInt 8)))
          ((values.length + 1) / 2)).getD i 0 =
        indexByte 4 (values.getD (2 * i) 0) <<< 4 +
          if 2 * i + 1 < values.length then indexByte 4 (values.getD (2 * i + 1) 0) else 8 := by
      intro i hi
      rw [packInt4_getD _ (by omega), store_allocEven_add, store_allocEven_add, if_pos hi]
    refine ⟨_, rfl, ⟨by simp [packInt4], fun i hi => ?_, fun i hi => ?_⟩⟩
    · have hlow : (if 2 * i + 1 < values.length then indexByte 4 (values.getD (2 * i + 1) 0)
          else 8).toNat < 16 := by
        split_ifs with h
        exacts [(hnibble h).2, by decide]
      rw [hentry i hi, (shiftLeft_add_nibbles (hnibble hi).2 hlow).1, (hnibble hi).1]
    · have hi' : 2 * i < values.length := by omega
      rw [hentry i hi', if_pos hi, (shiftLeft_add_nibbles (hnibble hi').2 (hnibble hi).2).2,
        (hnibble hi).1]

/-! ### The round trip -/

theorem denseValues_eq (weightData alphaData : List ℚ) (area channel : ℕ)
    (asymmetricQuantFlag : Bool) (bits : ℕ) (harea : 0 < area) :
    denseValues weightData alphaData area channel asymmetricQuantFlag bits =
      (List.range (channel * area)).map fun i =>
        max (min (quantValue bits asymmetricQuantFlag alphaData (i / area) (weightData.getD i 0))
          (maxValue bits)) (minValue bits) := by
  rw [denseValues, ← flatMap_range_map]
  refine List.flatMap_congr fun i _ => List.map_congr_left fun j hj => ?_
  have hj' := List.mem_range.1 hj
  rw [Nat.add_comm (i * area) j, Nat.add_mul_div_right _ _ harea, Nat.div_eq_of_lt hj', Nat.zero_add]

theorem length_denseValues (weightData alphaData : List ℚ) (area channel : ℕ)
    (asymmetricQuantFlag : Bool) (bits : ℕ) :
    (denseValues weightData alphaData area channel asymmetricQuantFlag bits).length =
      channel * area := by
  simp [denseValues, List.length_flatMap, List.map_const']

theorem minValue_le_maxValue (bits : ℕ) : minValue bits ≤ maxValue bits := by
  have : (0 : ℤ) < 2 ^ (bits - 1) := by positivity
  simp only [minValue, maxValue]
  omega

theorem mem_denseValues {weightData alphaData : List ℚ} {area channel : ℕ}
    {asymmetricQuantFlag : Bool} {bits : ℕ} {v : ℤ}
    (hv : v ∈ denseValues weightData alphaData area channel asymmetricQuantFlag bits) :
    minValue bits ≤ v ∧ v ≤ maxValue bits := by
  simp only [denseValues, List.mem_flatMap, List.mem_map] at hv
  obtain ⟨i, -, j, -, rfl⟩ := hv
  exact ⟨le_max_right _ _, max_le (min_le_right _ _) (minValue_le_maxValue bits)⟩

theorem writeCQBlobs_eq {bits : ℕ} (h₂ : 2 ≤ bits) (h₈ : bits ≤ 8) (weightData alphaData : List ℚ)
    (area channel : ℕ) (asymmetricQuantFlag : Bool) :
    let values := denseValues weightData alphaData area channel asymmetricQuantFlag bits
    writeCQBlobs weightData alphaData area channel asymmetricQuantFlag bits =
      ((writeBlobDim [channel, area]).1 ++ (BitVec.ofNat 8 (2 ^ bits) ::
          (getWeightSet bits).map (BitVec.ofInt 8) ++
            fillBuffer (bufLen bits values.length) (values.map (indexByte bits)) bits),
        (writeBlobDim [channel, area]).2) := by
  intro values
  have hbits : max (Nat.clog 2 (2 ^ bits)) 1 = bits := by
    rw [Nat.clog_pow 2 bits Nat.one_lt_two]
    omega
  have hlen : values.length = area * channel := by
    rw [length_denseValues, Nat.mul_comm]
  simp only [writeCQBlobs, length_getWeightSet, hbits]
  rw [if_neg (by omega), ← hlen, List.append_assoc]

theorem cRound_intCast (n : ℤ) : cRound n = n :=
  le_antisymm (cRound_le le_rfl) (le_cRound le_rfl)

/-- Scales under which every integer is its own value, in either mode. -/
def unitScales (bits channel : ℕ) (asymmetricQuantFlag : Bool) : List ℚ :=
  (List.range channel).flatMap fun _ => if asymmetricQuantFlag then [(minValue bits : ℚ), 1] else [1]

theorem quantValue_unitScales (bits : ℕ) {channel i : ℕ} (asymmetricQuantFlag : Bool)
    (hi : i < channel) (v : ℤ) :
    quantValue bits asymmetricQuantFlag (unitScales bits channel asymmetricQuantFlag) i v = v := by
  have htiny : (1 : ℚ) > tinyScale := by norm_num [tinyScale]
  cases asymmetricQuantFlag with
  | true =>
    have hget := fun j hj => getD_flatMap_range (c := 2) (f := fun _ : ℕ => [(minValue bits : ℚ), 1])
      (fun _ => rfl) hi (j := j) hj 0
    have hmin : (unitScales bits channel true).getD (2 * i) 0 = minValue bits := hget 0 (by omega)
    have hone : (unitScales bits channel true).getD (2 * i + 1) 0 = 1 := hget 1 (by omega)
    rw [quantValue, if_pos rfl, hmin, hone, quantAsym, if_pos htiny, div_one, ← Int.cast_sub,
      cRound_intCast, Int.sub_add_cancel]
  | false =>
    have hone : (unitScales bits channel false).getD i 0 = 1 := by
      have hget := getD_flatMap_range (c := 1) (f := fun _ : ℕ => [(1 : ℚ)]) (fun _ => rfl) hi
        (j := 0) (by omega) 0
      rwa [Nat.one_mul] at hget
    rw [quantValue, if_neg (by simp), hone, quantSym, if_pos htiny, div_one, cRound_intCast]

/-- Every array of values in range is what the quantiser produces for some weights. -/
theorem exists_denseValues_eq {bits channel area : ℕ} (asymmetricQuantFlag : Bool) {q : List ℤ}
    (hlen : q.length = channel * area) (hq : ∀ v ∈ q, minValue bits ≤ v ∧ v ≤ maxValue bits) :
    ∃ weightData alphaData,
      denseValues weightData alphaData area channel asymmetricQuantFlag bits = q := by
  refine ⟨q.map Int.cast, unitScales bits channel asymmetricQuantFlag, ?_⟩
  rcases Nat.eq_zero_or_pos area with rfl | harea
  · rw [List.length_eq_zero_iff.1 hlen]
    exact List.length_eq_zero_iff.1 (length_denseValues ..)
  · rw [denseValues_eq _ _ _ _ _ _ harea]
    refine List.ext_getElem (by rw [List.length_map, List.length_range, hlen]) fun i h₁ h₂ => ?_
    have hi : i < channel * area := hlen ▸ h₂
    obtain ⟨hmin, hmax⟩ := hq _ (List.getElem_mem h₂)
    rw [List.getElem_map, List.getElem_range, List.getD_eq_getElem _ _ (by rwa [List.length_map]),
      List.getElem_map, quantValue_unitScales bits asymmetricQuantFlag
        (Nat.div_lt_of_lt_mul (by rwa [Nat.mul_comm])), min_eq_left hmax, max_eq_left hmin]

/-- The reader on the writer's bytes. -/
theorem readQuanData_writeCQBlobs {bits : ℕ} (h₂ : 2 ≤ bits) (h₈ : bits ≤ 8) {channel area : ℕ}
    (hchannel : channel < 2 ^ 32) (harea : area < 2 ^ 32) (weightData alphaData : List ℚ)
    (asymmetricQuantFlag hasScaleInt forceQuant forceFloat : Bool)
    (outputPtr : Option (List Byte)) (result : Int8Common) (rest : List Byte) :
    let values := denseValues weightData alphaData area channel asymmetricQuantFlag bits
    let out := writeCQBlobs weightData alphaData area channel asymmetricQuantFlag bits
    readQuanData out.2 hasScaleInt forceQuant forceFloat outputPtr result (out.1 ++ rest) =
      readQuanIndex forceQuant
        (if !forceQuant && (forceFloat || !hasScaleInt) then none else outputPtr) (2 ^ bits)
        (getWeightSet bits) values.length { result with weightMap := getWeightSet bits }
        (fillBuffer (bufLen bits values.length) (values.map (indexByte bits)) bits ++ rest) := by
  intro values out
  have hout : out = _ := writeCQBlobs_eq h₂ h₈ weightData alphaData area channel asymmetricQuantFlag
  rw [hout, List.append_assoc, List.append_assoc, readQuanData_header h₂ h₈ hchannel harea,
    ← length_denseValues weightData alphaData area channel asymmetricQuantFlag bits]

end Mnn.Idst
