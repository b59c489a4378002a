import Mnn.Core.DenseBlob
import Mathlib.Algebra.Order.Floor.Semifield
import Mathlib.Data.Rat.Floor

/-!
# The bits of weights in an external file

`ConvolutionCommon::getQuantBitFromExternalFile` (`source/core/ConvolutionCommon.cpp`): the bit
width of weights that `WriteCQBlobs` wrote to an external file is worked out from the size of what
was written.  The quotient of sizes is a rational number here.

* `getQuantBitFromExternalFile`: the bits, and the amounts of the shifts on the way;
* `length_writeCQBlobs`: the size of what is written;
* `getQuantBit_iff`: **the weights for which the width comes back without a shift by 31 or more**.
-/

namespace Mnn.Idst

open Lib

/-- What is read of the convolution: `quanType` is the type of its `quanParameter`, if there is
one. -/
structure QuantConv where
  external : List ℕ
  quanType : Option ℤ
  inputCount : ℕ
  outputCount : ℕ
  kernelX : ℕ
  kernelY : ℕ

/-- `UP_DIV(weightLength * bits, 8)` behind the table of `2 ^ bits` values. -/
def sizeOfBits (weightLength bits : ℕ) : ℕ := 2 ^ bits + (weightLength * bits + 8 - 1) / 8

/-- The bits for `remain` bytes behind the dims, and the amounts of the shifts `1 << bits`. -/
def bitsOfRemain (remain weightLength : ℕ) : ℕ × List ℕ :=
  let bits := ⌊(remain : ℚ) / weightLength * 8⌋₊
  if sizeOfBits weightLength bits ≠ remain then
    let tried := [2, 3, 4, 5, 6, 7, 8]
    match tried.find? fun i => sizeOfBits weightLength i = remain with
    | some i => (i, bits :: tried.take (i - 1))
    | none => (bits, bits :: tried)
  else (bits, [bits])

/-- `getQuantBitFromExternalFile`, with the amounts of its shifts. -/
def getQuantBitFromExternalFile (conv : QuantConv) : ℕ × List ℕ :=
  match conv.quanType with
  | none => (0, [])
  | some type =>
    if conv.external.length > 1 then
      if type = 4 then (8, [])
      else if type ≠ 1 then (0, [])
      else
        let bufferSize := conv.external.getD 1 0
        let weightLength := conv.inputCount * conv.outputCount * conv.kernelX * conv.kernelY
        let upperBound :=
          1 + (if conv.inputCount > 65535 ∨ conv.outputCount > 65535 then 8 else 4) + 1
        bitsOfRemain (bufferSize - upperBound) weightLength
    else (0, [])

/-- What is done for weights that `WriteCQBlobs` wrote to a file. -/
theorem getQuantBitFromExternalFile_eq (offset size : ℕ) (rest : List ℕ)
    (inputCount outputCount kernelX kernelY : ℕ) :
    getQuantBitFromExternalFile
      ⟨offset :: size :: rest, some 1, inputCount, outputCount, kernelX, kernelY⟩ =
    bitsOfRemain (size - (1 + (if inputCount > 65535 ∨ outputCount > 65535 then 8 else 4) + 1))
      (inputCount * outputCount * kernelX * kernelY) := rfl

/-! ### What is written -/

theorem length_writeBlobDim (a b : ℕ) :
    (writeBlobDim [a, b]).1.length = 1 + if useInt32 [a, b] then 8 else 4 := by
  simp only [writeBlobDim, List.length_cons, List.flatMap_cons, List.flatMap_nil,
    List.append_nil, List.length_append, length_toLe]
  split_ifs <;> rfl

theorem length_writeCQBlobs (weightData alphaData : List ℚ) (area channel : ℕ)
    (asymmetricQuantFlag : Bool) {bits : ℕ} (h₂ : 2 ≤ bits) (h₈ : bits ≤ 8) :
    (writeCQBlobs weightData alphaData area channel asymmetricQuantFlag bits).1.length =
      1 + (if useInt32 [channel, area] then 8 else 4) + 1 + sizeOfBits (area * channel) bits := by
  have hbits : max (Nat.clog 2 (2 ^ bits)) 1 = bits := by
    rw [Nat.clog_pow 2 bits Nat.one_lt_two]
    omega
  simp only [writeCQBlobs, length_getWeightSet, hbits]
  rw [if_neg (by omega)]
  simp only [List.length_append, List.length_cons, List.length_map, length_getWeightSet,
    length_fillBuffer, length_writeBlobDim, sizeOfBits, bufLen, Nat.mul_comm bits]
  omega

/-! ### What is worked out -/

section Remain

variable {wl remain bits : ℕ}

theorem sizeOfBits_lt (wl : ℕ) {i j : ℕ} (hij : i < j) :
    sizeOfBits wl i + (2 ^ j - 2 ^ i) ≤ sizeOfBits wl j := by
  have hpow : 2 ^ i ≤ 2 ^ j := Nat.pow_le_pow_right Nat.two_pos hij.le
  have hmul : wl * i ≤ wl * j := Nat.mul_le_mul_left wl hij.le
  unfold sizeOfBits
  omega

theorem sizeOfBits_injective : Function.Injective (sizeOfBits wl) := by
  refine StrictMono.injective fun i j hij => ?_
  have hpow : 2 ^ i < 2 ^ j := Nat.pow_lt_pow_right Nat.one_lt_two hij
  have := sizeOfBits_lt wl hij
  omega

theorem floor_remain (remain wl : ℕ) : ⌊(remain : ℚ) / wl * 8⌋₊ = 8 * remain / wl := by
  rw [← Nat.floor_div_eq_div (K := ℚ), Nat.cast_mul, Nat.cast_ofNat, mul_comm, mul_div_assoc]

/-- Behind dims of the length that is expected the width is found, at the latest by the search. -/
theorem bitsOfRemain_exact (hwl : 0 < wl) (h₂ : 2 ≤ bits) (h₈ : bits ≤ 8)
    (hremain : remain = sizeOfBits wl bits) :
    (bitsOfRemain remain wl).1 = bits ∧
      ((∀ n ∈ (bitsOfRemain remain wl).2, n < 31) ↔ 8 * remain < 31 * wl) := by
  have hlt : 8 * remain / wl < 31 ↔ 8 * remain < 31 * wl := Nat.div_lt_iff_lt_mul hwl
  have hfind : [2, 3, 4, 5, 6, 7, 8].find? (fun i => sizeOfBits wl i = remain) = some bits := by
    have hp : (fun i => decide (sizeOfBits wl i = remain)) = fun i => decide (i = bits) := by
      funext i
      rw [hremain, decide_eq_decide, sizeOfBits_injective.eq_iff]
    rw [hp]
    interval_cases bits <;> rfl
  rw [← hlt, bitsOfRemain, floor_remain]
  by_cases hguess : sizeOfBits wl (8 * remain / wl) ≠ remain
  · simp only [if_pos hguess, hfind, List.forall_mem_cons, true_and]
    refine and_iff_left fun n hn => ?_
    have := List.mem_of_mem_take hn
    fin_cases this <;> decide
  · have heq : 8 * remain / wl = bits :=
      sizeOfBits_injective ((not_not.1 hguess).trans hremain)
    simp only [heq, ne_eq, not_not] at hguess ⊢
    simp only [hguess, not_true_eq_false, if_false, List.forall_mem_singleton, true_and]

/-- Behind dims that are four bytes longer or shorter, for many weights, the quotient is the width
and the search changes nothing. -/
theorem bitsOfRemain_off (hwl : 65536 ≤ wl) (h₂ : 2 ≤ bits) (h₈ : bits ≤ 8)
    (hremain : remain = sizeOfBits wl bits + 4 ∨ remain + 4 = sizeOfBits wl bits) :
    (bitsOfRemain remain wl).1 = bits ∧ ∀ n ∈ (bitsOfRemain remain wl).2, n < 31 := by
  have hquot : 8 * remain / wl = bits := by
    have hsize : 8 * 2 ^ bits + bits * wl ≤ 8 * sizeOfBits wl bits ∧
        8 * sizeOfBits wl bits ≤ 8 * 2 ^ bits + bits * wl + 7 := by
      unfold sizeOfBits
      rw [Nat.mul_comm wl]
      omega
    have hpow : 4 ≤ 2 ^ bits ∧ 2 ^ bits ≤ 256 :=
      ⟨Nat.pow_le_pow_right Nat.two_pos h₂, Nat.pow_le_pow_right Nat.two_pos h₈⟩
    have hnext := Nat.add_one_mul bits wl
    exact Nat.div_eq_of_lt_le (by omega) (by omega)
  have hstep : ∀ i j, 2 ≤ i → i < j → sizeOfBits wl i + 8 ≤ sizeOfBits wl j := by
    intro i j hi hij
    have hmul : wl * (i + 1) ≤ wl * j := Nat.mul_le_mul_left wl hij
    have hpow : 2 ^ i ≤ 2 ^ j := Nat.pow_le_pow_right Nat.two_pos hij.le
    rw [Nat.mul_succ] at hmul
    unfold sizeOfBits
    omega
  have hne : ∀ i, 2 ≤ i → sizeOfBits wl i ≠ remain := by
    intro i hi
    rcases lt_trichotomy i bits with hlt | rfl | hgt
    · have := hstep i bits hi hlt
      omega
    · omega
    · have := hstep bits i h₂ hgt
      omega
  have hfind : [2, 3, 4, 5, 6, 7, 8].find? (fun i => sizeOfBits wl i = remain) = none := by
    refine List.find?_eq_none.2 fun i hi => ?_
    rw [decide_eq_true_eq]
    exact hne i (by fin_cases hi <;> decide)
  rw [bitsOfRemain, floor_remain, hquot]
  simp only [if_pos (hne bits h₂), hfind, List.forall_mem_cons, true_and]
  exact ⟨by omega, by decide⟩

end Remain

/-- **When the width is recovered.**  For weights of any channel counts, kernel and number of
blocks, written with `bits` bits: the width comes back and no shift is by 31 or more exactly if
there are so many weights that eight bits for each byte behind the dims are less than 31 for each
weight. -/
theorem getQuantBit_iff {inputCount outputCount kernelX kernelY blockNum blockSize : ℕ}
    (hinput : 0 < inputCount) (houtput : 0 < outputCount) (hkernel : 0 < kernelX * kernelY)
    (hblock : blockNum * blockSize = inputCount * (kernelX * kernelY)) {bits : ℕ} (h₂ : 2 ≤ bits)
    (h₈ : bits ≤ 8) (weightData alphaData : List ℚ) (asymmetricQuantFlag : Bool) (offset : ℕ)
    (rest : List ℕ) :
    let buffer := (writeCQBlobs weightData alphaData blockSize (outputCount * blockNum)
      asymmetricQuantFlag bits).1
    let r := getQuantBitFromExternalFile
      { external := offset :: buffer.length :: rest, quanType := some 1,
        inputCount, outputCount, kernelX, kernelY }
    let weightLength := inputCount * outputCount * kernelX * kernelY
    (r.1 = bits ∧ ∀ n ∈ r.2, n < 31) ↔
      8 * (2 ^ bits + (weightLength * bits + 8 - 1) / 8) < 31 * weightLength := by
  intro buffer r weightLength
  have hblocks : blockSize * (outputCount * blockNum) = weightLength := by
    calc blockSize * (outputCount * blockNum) = outputCount * (blockNum * blockSize) := by ring
      _ = weightLength := by
        rw [hblock]
        ring
  have hlength : buffer.length = 1 +
      (if useInt32 [outputCount * blockNum, blockSize] then 8 else 4) + 1 +
      sizeOfBits weightLength bits := by
    rw [← hblocks]
    exact length_writeCQBlobs weightData alphaData _ _ asymmetricQuantFlag h₂ h₈
  have hr : r = bitsOfRemain _ weightLength := getQuantBitFromExternalFile_eq ..
  have hpow : 4 ≤ 2 ^ bits ∧ 2 ^ bits ≤ 256 :=
    ⟨Nat.pow_le_pow_right Nat.two_pos h₂, Nat.pow_le_pow_right Nat.two_pos h₈⟩
  have hmul : weightLength * bits ≤ weightLength * 8 := Nat.mul_le_mul_left _ h₈
  have hsize : 4 ≤ sizeOfBits weightLength bits := hpow.1.trans (Nat.le_add_right _ _)
  have hwl : 0 < weightLength := by
    simp only [weightLength, Nat.mul_assoc]
    exact Nat.mul_pos hinput (Nat.mul_pos houtput hkernel)
  by_cases hdims : useInt32 [outputCount * blockNum, blockSize] = true ↔
      inputCount > 65535 ∨ outputCount > 65535
  · -- the reader expects the dims as they are written
    have hremain : buffer.length - (1 + (if inputCount > 65535 ∨ outputCount > 65535
        then 8 else 4) + 1) = sizeOfBits weightLength bits := by
      rw [hlength]
      split_ifs <;> first | omega | tauto
    rw [hr, hremain]
    obtain ⟨hbits, hshifts⟩ := bitsOfRemain_exact hwl h₂ h₈ rfl
    exact ⟨fun h => hshifts.1 h.2, fun h => ⟨hbits, hshifts.2 h⟩⟩
  · -- there are too many weights for the four bytes to matter
    have hmany : 65536 ≤ weightLength := by
      have hle : ∀ {a b : ℕ}, a * b = weightLength → a ≤ weightLength ∧ b ≤ weightLength :=
        fun hab => ⟨Nat.le_of_dvd hwl ⟨_, hab.symm⟩, Nat.le_of_dvd hwl ⟨_, hab.symm ▸ mul_comm ..⟩⟩
      obtain ⟨hsize, hchannel⟩ := hle hblocks
      have hinput := (hle (a := inputCount) (b := outputCount * kernelX * kernelY)
        (by simp only [weightLength]; ring)).1
      have houtput := (hle (a := outputCount) (b := inputCount * kernelX * kernelY)
        (by simp only [weightLength]; ring)).1
      have hbig : useInt32 [outputCount * blockNum, blockSize] = true ∨ inputCount > 65535 ∨
          outputCount > 65535 := by tauto
      simp only [useInt32, List.any_cons, List.any_nil, Bool.or_false, Bool.or_eq_true,
        decide_eq_true_eq] at hbig
      omega
    have hremain : buffer.length - (1 + (if inputCount > 65535 ∨ outputCount > 65535
        then 8 else 4) + 1) = sizeOfBits weightLength bits + 4 ∨
        buffer.length - (1 + (if inputCount > 65535 ∨ outputCount > 65535
        then 8 else 4) + 1) + 4 = sizeOfBits weightLength bits := by
      rw [hlength]
      split_ifs <;> first | omega | tauto
    rw [hr]
    exact ⟨fun _ => by omega, fun _ => bitsOfRemain_off hmany h₂ h₈ hremain⟩

/-- Three by three kernels of 16 channels, in blocks. -/
theorem getQuantBit_blocks :
    let buffer := (writeCQBlobs [] [] 36 (16 * 4) true 4).1
    let r := getQuantBitFromExternalFile ⟨[0, buffer.length, 0], some 1, 16, 16, 3, 3⟩
    r.1 = 4 ∧ ∀ n ∈ r.2, n < 31 :=
  (getQuantBit_iff (by decide) (by decide) (by decide) (by decide) (by decide) (by decide) [] []
    true 0 [0]).2 (by decide)

/-- A single weight of eight bits: the first shift is by 2056. -/
theorem not_getQuantBit :
    let buffer := (writeCQBlobs [] [] 1 (1 * 1) false 8).1
    let r := getQuantBitFromExternalFile ⟨[0, buffer.length], some 1, 1, 1, 1, 1⟩
    buffer.length = 263 ∧ r.2 = [2056, 2, 3, 4, 5, 6, 7, 8] ∧ ¬ ∀ n ∈ r.2, n < 31 := by
  intro buffer r
  have hlength : buffer.length = 263 :=
    (@length_writeCQBlobs [] [] 1 (1 * 1) false 8 (by decide) (by decide)).trans (by decide)
  have hr := getQuantBitFromExternalFile_eq 0 buffer.length [] 1 1 1 1
  have hshifts : r.2 = [2056, 2, 3, 4, 5, 6, 7, 8] := by
    rw [hlength] at hr
    simp only [r, hlength]
    rw [hr, bitsOfRemain, floor_remain]
    decide +kernel
  refine ⟨hlength, hshifts, fun h => ?_⟩
  rw [hshifts] at h
  exact absurd (h 2056 List.mem_cons_self) (by decide)

end Mnn.Idst
