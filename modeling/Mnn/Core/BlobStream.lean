import Mnn.Lib.BitPack

/-!
# The byte stream of quantised weights

What the dense and the sparse form of quantised weights share on both sides,
`source/core/IDSTEncoder.hpp` and `source/core/ConvolutionCommon.cpp`: the dims of the blob, and
indices of a few bits packed into bytes.

* `writeBlobDim`, `readBlobDim`, `readBlobDim_writeBlobDim`;
* `fillBuffer`, `splitBufToArray`, `splitBufToArray_fillBuffer`.

A stream is the list of the bytes still to be read.  Dims are natural numbers below `2 ^ 32`, and
their products are taken in the natural numbers.  Numbers are stored in the order of a little-endian
machine.
-/

namespace Mnn.Idst

open Lib

/-! ### Dims -/

/-- The choice of `WriteBlobDim` between 16 and 32 bits. -/
def useInt32 (dims : List ℕ) : Bool := dims.any fun d => d > 2 ^ 16 - 1

/-- `WriteBlobDim`: the bytes written and the returned flag. -/
def writeBlobDim (dims : List ℕ) : List Byte × Bool :=
  (BitVec.ofNat 8 dims.length :: dims.flatMap (toLe (if useInt32 dims then 4 else 2)),
    useInt32 dims)

/-- Read `n` numbers of `width` bytes each. -/
def readUInts (width : ℕ) : ℕ → List Byte → List ℕ × List Byte
  | 0, s => ([], s)
  | n + 1, s =>
    let (l, rest) := readUInts width n (s.drop width)
    (ofLe (s.take width) :: l, rest)

/-- `ReadBlobDim`: the first `copyLength` dims and the rest of the stream. -/
def readBlobDim (useInt32 : Bool) (shapeBufCnt : ℕ) (s : List Byte) : List ℕ × List Byte :=
  let uSize := (s.headD 0).toNat
  if uSize > 4 then ([], s.tail)
  else readUInts (if useInt32 then 4 else 2) (min uSize shapeBufCnt) s.tail

theorem readUInts_flatMap {width : ℕ} (dims : List ℕ) (h : ∀ d ∈ dims, d < 256 ^ width)
    (rest : List Byte) :
    readUInts width dims.length (dims.flatMap (toLe width) ++ rest) = (dims, rest) := by
  induction dims with
  | nil => rfl
  | cons d dims ih =>
    have hlen : (toLe width d).length = width := length_toLe width d
    rw [List.flatMap_cons, List.append_assoc, List.length_cons, readUInts,
      List.drop_left' hlen, List.take_left' hlen, ofLe_toLe (h d List.mem_cons_self),
      ih fun e he => h e (List.mem_cons_of_mem d he)]

/-- The dims are read back, whichever width the writer chose. -/
theorem readBlobDim_writeBlobDim {dims : List ℕ} (h : ∀ d ∈ dims, d < 2 ^ 32)
    (hlen : dims.length ≤ 4) (rest : List Byte) :
    readBlobDim (writeBlobDim dims).2 32 ((writeBlobDim dims).1 ++ rest) = (dims, rest) := by
  have hsize : (BitVec.ofNat 8 dims.length).toNat = dims.length := by
    rw [BitVec.toNat_ofNat]
    omega
  have hfits : ∀ d ∈ dims, d < 256 ^ (if useInt32 dims then 4 else 2) := by
    intro d hd
    split_ifs with hwide
    · exact h d hd
    · have hsmall : ¬ d > 2 ^ 16 - 1 := fun hbig =>
        hwide (List.any_eq_true.2 ⟨d, hd, decide_eq_true hbig⟩)
      omega
  simp only [readBlobDim, writeBlobDim, List.cons_append, List.headD_cons, List.tail_cons, hsize]
  rw [if_neg (by omega), min_eq_left (by omega)]
  exact readUInts_flatMap dims hfits rest

/-! ### Packed indices -/

/-- The length of the buffer for `n` indices of `b` bits: `ceil(0.125 * b * n)`. -/
def bufLen (b n : ℕ) : ℕ := (b * n + 7) / 8

/-- The bytes `tmp[iOffset / 8]` and the next one after `value` is or-ed in, in `FillBuffer`. -/
def fillByte (iNeedBits : ℕ) (buf : List Byte) (tmp iOffset : ℕ) (value : Byte) : List Byte :=
  let cMask : Byte := BitVec.ofNat 8 (2 ^ iNeedBits - 1)
  let uShift : ℤ := 8 - iNeedBits - (iOffset % 8 : ℕ)
  if uShift < 0 then
    (buf.modify (tmp + iOffset / 8) (· ||| (value &&& cMask) >>> (0 - uShift).toNat)).modify
      (tmp + iOffset / 8 + 1) (· ||| (value &&& cMask) <<< (8 + uShift).toNat)
  else buf.modify (tmp + iOffset / 8) (· ||| (value &&& cMask) <<< uShift.toNat)

/-- The loop of `FillBuffer`; `tmp` counts from the start of the buffer. -/
def fillLoop (iNeedBits : ℕ) : List Byte → ℕ → ℕ → List Byte → List Byte
  | buf, _, _, [] => buf
  | buf, tmp, iOffset, value :: arr =>
    let buf := fillByte iNeedBits buf tmp iOffset value
    let iOffset := iOffset + iNeedBits
    if iOffset % 8 = 0 then fillLoop iNeedBits buf (tmp + iOffset / 8) 0 arr
    else fillLoop iNeedBits buf tmp iOffset arr

/-- `FillBuffer`. -/
def fillBuffer (bufLen : ℕ) (arr : List Byte) (iNeedBits : ℕ) : List Byte :=
  fillLoop iNeedBits (List.replicate bufLen 0) 0 0 arr

/-- One index of `SplitBufToArray`. -/
def splitByte (iNeedBits : ℕ) (buf : List Byte) (tmp iOffset : ℕ) : Byte :=
  let cMask : Byte := BitVec.ofNat 8 (2 ^ iNeedBits - 1)
  let uShift : ℤ := 8 - iNeedBits - (iOffset % 8 : ℕ)
  if uShift < 0 then
    (buf.getD (tmp + iOffset / 8) 0 <<< (0 - uShift).toNat) &&& cMask |||
      (buf.getD (tmp + iOffset / 8 + 1) 0 >>> (8 + uShift).toNat) &&& cMask
  else (buf.getD (tmp + iOffset / 8) 0 >>> uShift.toNat) &&& cMask

/-- The loop of `SplitBufToArray`. -/
def splitLoop (iNeedBits : ℕ) (buf : List Byte) : ℕ → ℕ → ℕ → List Byte
  | _, _, 0 => []
  | tmp, iOffset, n + 1 =>
    let idx := splitByte iNeedBits buf tmp iOffset
    let iOffset := iOffset + iNeedBits
    if iOffset % 8 = 0 then idx :: splitLoop iNeedBits buf (tmp + iOffset / 8) 0 n
    else idx :: splitLoop iNeedBits buf tmp iOffset n

/-- `SplitBufToArray`. -/
def splitBufToArray (buf : List Byte) (arrLen iNeedBits : ℕ) : List Byte :=
  splitLoop iNeedBits buf 0 0 arrLen

/-- The shifts of both loops, in natural numbers. -/
theorem uShift_eq (b r : ℕ) :
    ((8 : ℤ) - b - r < 0 ↔ 8 < b + r) ∧ (0 - ((8 : ℤ) - b - r)).toNat = b + r - 8 ∧
      (8 + ((8 : ℤ) - b - r)).toNat = 16 - b - r ∧ ((8 : ℤ) - b - r).toNat = 8 - b - r := by
  omega

/-- In `FillBuffer` the pointer and the offset stand for one bit position. -/
theorem fillByte_eq (b : ℕ) (buf : List Byte) (tmp iOffset : ℕ) (value : Byte) :
    fillByte b buf tmp iOffset value = writeField b buf (8 * tmp + iOffset) value := by
  have hbyte : (8 * tmp + iOffset) / 8 = tmp + iOffset / 8 := by omega
  have hbit : (8 * tmp + iOffset) % 8 = iOffset % 8 := by omega
  obtain ⟨hneg, h₁, h₂, h₃⟩ := uShift_eq b (iOffset % 8)
  simp only [fillByte, writeField, hbyte, hbit, mask, hneg, h₁, h₂, h₃]

theorem splitByte_eq (b : ℕ) (buf : List Byte) (tmp iOffset : ℕ) :
    splitByte b buf tmp iOffset = readField b buf (8 * tmp + iOffset) := by
  have hbyte : (8 * tmp + iOffset) / 8 = tmp + iOffset / 8 := by omega
  have hbit : (8 * tmp + iOffset) % 8 = iOffset % 8 := by omega
  obtain ⟨hneg, h₁, h₂, h₃⟩ := uShift_eq b (iOffset % 8)
  simp only [splitByte, readField, hbyte, hbit, mask, hneg, h₁, h₂, h₃]

theorem fillLoop_eq (b : ℕ) (buf : List Byte) (tmp iOffset : ℕ) (arr : List Byte) :
    fillLoop b buf tmp iOffset arr = packFields b buf (8 * tmp + iOffset) arr := by
  induction arr generalizing buf tmp iOffset with
  | nil => rfl
  | cons value arr ih =>
    rw [fillLoop, packFields, fillByte_eq]
    split_ifs with h
    · rw [ih]
      congr 1
      omega
    · rw [ih, Nat.add_assoc]

theorem splitLoop_eq (b : ℕ) (buf : List Byte) (tmp iOffset n : ℕ) :
    splitLoop b buf tmp iOffset n = unpackFields b buf (8 * tmp + iOffset) n := by
  induction n generalizing tmp iOffset with
  | zero => rfl
  | succ n ih =>
    have hstep : ∀ p, p = 8 * tmp + iOffset + b →
        splitByte b buf tmp iOffset :: unpackFields b buf p n =
          unpackFields b buf (8 * tmp + iOffset) (n + 1) := by
      rintro p rfl
      rw [splitByte_eq, unpackFields, unpackFields, List.range_succ_eq_map, List.map_cons,
        List.map_map, Nat.mul_zero, Nat.add_zero]
      refine congrArg _ (List.map_congr_left fun i _ => ?_)
      rw [Function.comp_apply, Nat.mul_succ]
      congr 1
      omega
    rw [splitLoop]
    split_ifs with h
    · rw [ih, hstep _ (by omega)]
    · rw [ih, hstep _ (by omega)]

@[simp] theorem length_fillBuffer (n : ℕ) (arr : List Byte) (b : ℕ) :
    (fillBuffer n arr b).length = n := by
  rw [fillBuffer, fillLoop_eq, length_packFields, List.length_replicate]

@[simp] theorem length_splitBufToArray (buf : List Byte) (n b : ℕ) :
    (splitBufToArray buf n b).length = n := by
  rw [splitBufToArray, splitLoop_eq, unpackFields, List.length_map, List.length_range]

/-- Indices that fit their bits are read back from the filled buffer. -/
theorem splitBufToArray_fillBuffer {b : ℕ} (hb₀ : 0 < b) (hb : b ≤ 8) (arr : List Byte)
    (h : ∀ v ∈ arr, v.toNat < 2 ^ b) :
    splitBufToArray (fillBuffer (bufLen b arr.length) arr b) arr.length b = arr := by
  rw [splitBufToArray, splitLoop_eq, fillBuffer, fillLoop_eq]
  refine unpackFields_packFields hb₀ hb _ _ arr h ?_ fun q _ => ?_
  · rw [List.length_replicate, bufLen]
    omega
  · simp [bitAt, List.getD_eq_getElem?_getD, List.getElem?_replicate]
    split_ifs <;> simp

end Mnn.Idst
