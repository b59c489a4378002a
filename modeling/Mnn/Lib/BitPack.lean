import Mathlib.Tactic

/-!
# Packing fields of at most eight bits into bytes

A buffer of bytes is read as one sequence of bits, each byte from its most significant bit on.  A
field of `b ≤ 8` bits at a position occupies the `b` bits from there and may cross into the next
byte.

* `bitAt`: the sequence of bits;
* `writeField`, `readField`: a field is or-ed in, and taken out, by shifts and masks;
* `bitAt_writeField`, `getLsbD_readField`: what both do to the sequence;
* `unpackFields_packFields`: fields written one after the other over cleared bits are read back;
* `toLe`, `ofLe`: numbers as little-endian bytes.
-/

namespace Lib

abbrev Byte := BitVec 8

/-- Bit `p` of the buffer; beyond its end there are zeros. -/
def bitAt (buf : List Byte) (p : ℕ) : Bool := (buf.getD (p / 8) 0).getLsbD (7 - p % 8)

/-- The byte whose low `b` bits are set. -/
def mask (b : ℕ) : Byte := BitVec.ofNat 8 (2 ^ b - 1)

/-- Or the low `b` bits of `v` into the field at position `p`. -/
def writeField (b : ℕ) (buf : List Byte) (p : ℕ) (v : Byte) : List Byte :=
  if 8 < b + p % 8 then
    (buf.modify (p / 8) (· ||| (v &&& mask b) >>> (b + p % 8 - 8))).modify (p / 8 + 1)
      (· ||| (v &&& mask b) <<< (16 - b - p % 8))
  else buf.modify (p / 8) (· ||| (v &&& mask b) <<< (8 - b - p % 8))

/-- The field of `b` bits at position `p`. -/
def readField (b : ℕ) (buf : List Byte) (p : ℕ) : Byte :=
  if 8 < b + p % 8 then
    (buf.getD (p / 8) 0 <<< (b + p % 8 - 8)) &&& mask b |||
      (buf.getD (p / 8 + 1) 0 >>> (16 - b - p % 8)) &&& mask b
  else (buf.getD (p / 8) 0 >>> (8 - b - p % 8)) &&& mask b

@[simp] theorem getLsbD_mask (b j : ℕ) : (mask b).getLsbD j = (decide (j < 8) && decide (j < b)) := by
  rw [mask, BitVec.getLsbD_ofNat, Nat.testBit_two_pow_sub_one]

theorem length_writeField (b : ℕ) (buf : List Byte) (p : ℕ) (v : Byte) :
    (writeField b buf p v).length = buf.length := by
  unfold writeField
  split_ifs <;> simp only [List.length_modify]

theorem bitAt_modify (buf : List Byte) {i : ℕ} (hi : i < buf.length) (f : Byte → Byte) (q : ℕ) :
    bitAt (buf.modify i f) q =
      if q / 8 = i then (f (buf.getD i 0)).getLsbD (7 - q % 8) else bitAt buf q := by
  unfold bitAt
  simp only [List.getD_eq_getElem?_getD, List.getElem?_modify]
  by_cases h : q / 8 = i
  · simp only [h, if_true, List.getElem?_eq_getElem hi, Option.map_eq_map, Option.map_some,
      Option.getD_some]
  · simp only [h, Ne.symm h, if_false, id_map']

theorem getLsbD_mask_shiftLeft (v : Byte) (b n i : ℕ) :
    ((v &&& mask b) <<< n).getLsbD i = (decide (n ≤ i ∧ i < 8 ∧ i - n < b) && v.getLsbD (i - n)) := by
  rw [BitVec.getLsbD_shiftLeft, BitVec.getLsbD_and, getLsbD_mask]
  cases v.getLsbD (i - n)
  · simp
  · rw [Bool.eq_iff_iff]
    simp only [Bool.true_and, Bool.and_true, Bool.and_eq_true, Bool.not_eq_true', decide_eq_true_eq,
      decide_eq_false_iff_not]
    omega

theorem getLsbD_mask_ushiftRight (v : Byte) {b : ℕ} (hb : b ≤ 8) (n i : ℕ) :
    ((v &&& mask b) >>> n).getLsbD i = (decide (n + i < b) && v.getLsbD (n + i)) := by
  rw [BitVec.getLsbD_ushiftRight, BitVec.getLsbD_and, getLsbD_mask]
  cases v.getLsbD (n + i)
  · simp
  · rw [Bool.eq_iff_iff]
    simp only [Bool.true_and, Bool.and_true, Bool.and_eq_true, decide_eq_true_eq]
    omega

theorem decide_and_getLsbD_congr {P Q : Prop} [Decidable P] [Decidable Q] (v : Byte) {i j : ℕ}
    (hPQ : P ↔ Q) (hij : Q → i = j) :
    (decide P && v.getLsbD i) = (decide Q && v.getLsbD j) := by
  by_cases hQ : Q
  · rw [decide_eq_true hQ, decide_eq_true (hPQ.2 hQ), hij hQ]
  · rw [decide_eq_false hQ, decide_eq_false (mt hPQ.1 hQ), Bool.false_and, Bool.false_and]

/-- Writing a field changes the bits of the field and no others. -/
theorem bitAt_writeField {b : ℕ} (hb₀ : 0 < b) (hb : b ≤ 8) (buf : List Byte) {p : ℕ}
    (hp : p + b ≤ 8 * buf.length) (v : Byte) (q : ℕ) :
    bitAt (writeField b buf p v) q =
      (bitAt buf q || (decide (p ≤ q ∧ q < p + b) && v.getLsbD (p + b - 1 - q))) := by
  have hcur : ∀ i, q / 8 = i → (buf.getD i 0).getLsbD (7 - q % 8) = bitAt buf q := by
    rintro i rfl
    rfl
  unfold writeField
  split_ifs with hcross
  · rw [bitAt_modify _ (by rw [List.length_modify]; omega), bitAt_modify _ (by omega)]
    by_cases hlow : q / 8 = p / 8 + 1
    · have hget : (buf.modify (p / 8) (· ||| (v &&& mask b) >>> (b + p % 8 - 8))).getD
          (p / 8 + 1) 0 = buf.getD (p / 8 + 1) 0 := by
        simp [List.getD_eq_getElem?_getD]
      rw [if_pos hlow, hget, BitVec.getLsbD_or, hcur _ hlow, getLsbD_mask_shiftLeft]
      exact congrArg _ (decide_and_getLsbD_congr v (by omega) (by omega))
    · rw [if_neg hlow]
      by_cases hhigh : q / 8 = p / 8
      · rw [if_pos hhigh, BitVec.getLsbD_or, hcur _ hhigh, getLsbD_mask_ushiftRight v hb]
        exact congrArg _ (decide_and_getLsbD_congr v (by omega) (by omega))
      · have hout : ¬ (p ≤ q ∧ q < p + b) := by omega
        rw [if_neg hhigh, decide_eq_false hout, Bool.false_and, Bool.or_false]
  · rw [bitAt_modify _ (by omega)]
    by_cases hq : q / 8 = p / 8
    · rw [if_pos hq, BitVec.getLsbD_or, hcur _ hq, getLsbD_mask_shiftLeft]
      exact congrArg _ (decide_and_getLsbD_congr v (by omega) (by omega))
    · have hout : ¬ (p ≤ q ∧ q < p + b) := by omega
      rw [if_neg hq, decide_eq_false hout, Bool.false_and, Bool.or_false]

/-- Reading a field gives its bits. -/
theorem getLsbD_readField {b : ℕ} (hb : b ≤ 8) (buf : List Byte) (p j : ℕ) :
    (readField b buf p).getLsbD j = (decide (j < b) && bitAt buf (p + b - 1 - j)) := by
  have hbit : ∀ i k, (p + b - 1 - j) / 8 = i → 7 - (p + b - 1 - j) % 8 = k →
      bitAt buf (p + b - 1 - j) = (buf.getD i 0).getLsbD k := by
    rintro i k rfl rfl
    rfl
  by_cases hj : j < b
  · rw [decide_eq_true hj, Bool.true_and]
    unfold readField
    split_ifs with hcross
    · rw [BitVec.getLsbD_or, BitVec.getLsbD_and, BitVec.getLsbD_and, BitVec.getLsbD_shiftLeft,
        BitVec.getLsbD_ushiftRight, getLsbD_mask]
      by_cases hhigh : b + p % 8 - 8 ≤ j
      · have hbeyond : (buf.getD (p / 8 + 1) 0).getLsbD (16 - b - p % 8 + j) = false :=
          BitVec.getLsbD_of_ge _ _ (by omega)
        rw [hbit (p / 8) (j - (b + p % 8 - 8)) (by omega) (by omega), hbeyond]
        simp [hj, hhigh, hj.trans_le hb]
      · rw [hbit (p / 8 + 1) (16 - b - p % 8 + j) (by omega) (by omega)]
        simp [hj, hhigh, hj.trans_le hb]
    · rw [BitVec.getLsbD_and, BitVec.getLsbD_ushiftRight, getLsbD_mask,
        hbit (p / 8) (8 - b - p % 8 + j) (by omega) (by omega)]
      simp [hj, hj.trans_le hb]
  · unfold readField
    split_ifs <;> simp [hj]

/-! ### A row of fields -/

/-- Write the values one after the other, from position `p` on. -/
def packFields (b : ℕ) : List Byte → ℕ → List Byte → List Byte
  | buf, _, [] => buf
  | buf, p, v :: values => packFields b (writeField b buf p v) (p + b) values

/-- Read `n` fields, from position `p` on. -/
def unpackFields (b : ℕ) (buf : List Byte) (p n : ℕ) : List Byte :=
  (List.range n).map fun i => readField b buf (p + b * i)

theorem length_packFields (b : ℕ) (buf : List Byte) (p : ℕ) (values : List Byte) :
    (packFields b buf p values).length = buf.length := by
  induction values generalizing buf p with
  | nil => rfl
  | cons v values ih => rw [packFields, ih, length_writeField]

/-- A row of fields leaves the bits around it alone. -/
theorem bitAt_packFields_of_notMem {b : ℕ} (hb₀ : 0 < b) (hb : b ≤ 8) (buf : List Byte) (p : ℕ)
    (values : List Byte) (hp : p + b * values.length ≤ 8 * buf.length) {q : ℕ}
    (hq : q < p ∨ p + b * values.length ≤ q) : bitAt (packFields b buf p values) q = bitAt buf q := by
  induction values generalizing buf p with
  | nil => rfl
  | cons v values ih =>
    rw [List.length_cons, Nat.mul_succ] at hp hq
    have hout : ¬ (p ≤ q ∧ q < p + b) := by omega
    rw [packFields, ih _ _ (by rw [length_writeField]; omega) (by omega),
      bitAt_writeField hb₀ hb buf (by omega), decide_eq_false hout, Bool.false_and, Bool.or_false]

/-- A field over cleared bits holds what was written, if that fits. -/
theorem readField_of_bitAt {b : ℕ} (hb : b ≤ 8) (buf : List Byte) (p : ℕ) (v : Byte)
    (hv : v.toNat < 2 ^ b)
    (h : ∀ q, p ≤ q → q < p + b → bitAt buf q = v.getLsbD (p + b - 1 - q)) :
    readField b buf p = v := by
  apply BitVec.eq_of_getLsbD_eq
  intro j _
  rw [getLsbD_readField hb]
  by_cases hj : j < b
  · rw [h _ (by omega) (by omega), decide_eq_true hj, Bool.true_and]
    congr 1
    omega
  · rw [decide_eq_false hj, Bool.false_and]
    exact (Nat.testBit_lt_two_pow (hv.trans_le (Nat.pow_le_pow_right (by omega) (by omega)))).symm

/-- Values that fit, packed over cleared bits, are read back. -/
theorem unpackFields_packFields {b : ℕ} (hb₀ : 0 < b) (hb : b ≤ 8) (buf : List Byte) (p : ℕ)
    (values : List Byte) (hv : ∀ v ∈ values, v.toNat < 2 ^ b)
    (hp : p + b * values.length ≤ 8 * buf.length)
    (hclear : ∀ q, p ≤ q → bitAt buf q = false) :
    unpackFields b (packFields b buf p values) p values.length = values := by
  induction values generalizing buf p with
  | nil => rfl
  | cons v values ih =>
    rw [List.length_cons, Nat.mul_succ] at hp
    have hwrite := bitAt_writeField hb₀ hb buf (p := p) (by omega) v
    have hlen : p + b + b * values.length ≤ 8 * (writeField b buf p v).length := by
      rw [length_writeField]
      omega
    rw [List.length_cons, unpackFields, List.range_succ_eq_map, List.map_cons, List.map_map]
    have hhead : readField b (packFields b buf p (v :: values)) (p + b * 0) = v := by
      refine readField_of_bitAt hb _ _ v (hv v List.mem_cons_self) fun q hq₁ hq₂ => ?_
      rw [Nat.mul_zero, Nat.add_zero] at hq₁ hq₂ ⊢
      rw [packFields, bitAt_packFields_of_notMem hb₀ hb _ _ _ hlen (.inl hq₂), hwrite,
        hclear q hq₁, decide_eq_true ⟨hq₁, hq₂⟩, Bool.false_or, Bool.true_and]
    have htail := ih (writeField b buf p v) (p + b)
      (fun w hw => hv w (List.mem_cons_of_mem v hw)) hlen fun q hq => by
        have hout : ¬ (p ≤ q ∧ q < p + b) := by omega
        rw [hwrite, hclear q (by omega), decide_eq_false hout, Bool.false_and, Bool.or_false]
    rw [hhead]
    refine congrArg (v :: ·) (Eq.trans ?_ htail)
    refine List.map_congr_left fun i _ => ?_
    simp only [Function.comp_apply, packFields]
    congr 1
    rw [Nat.mul_succ]
    omega

/-! ### Little-endian numbers -/

/-- The `n` low bytes of a number. -/
def toLe : ℕ → ℕ → List Byte
  | 0, _ => []
  | n + 1, x => BitVec.ofNat 8 x :: toLe n (x / 256)

def ofLe : List Byte → ℕ
  | [] => 0
  | v :: l => v.toNat + 256 * ofLe l

@[simp] theorem length_toLe (n x : ℕ) : (toLe n x).length = n := by
  induction n generalizing x with
  | zero => rfl
  | succ n ih => rw [toLe, List.length_cons, ih]

theorem ofLe_toLe {n x : ℕ} (h : x < 256 ^ n) : ofLe (toLe n x) = x := by
  induction n generalizing x with
  | zero => rw [pow_zero] at h; rw [toLe, ofLe]; omega
  | succ n ih =>
    rw [toLe, ofLe, BitVec.toNat_ofNat, ih (Nat.div_lt_of_lt_mul (by rwa [pow_succ'] at h))]
    exact Nat.mod_add_div x 256

end Lib
