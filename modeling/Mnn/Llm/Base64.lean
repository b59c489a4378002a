import Mathlib.Tactic

/-!
# Base64

`base64_decode` (`transformers/llm/engine/src/tokenizer.cpp`) against the encoding with padding.
`none` is an overflow of the counter `in_len`.

* `decodeGroup`, `scan`, `base64Decode`: the code;
* `encode`: the encoding;
* `decodeGroup_sextets`: **four characters give back the three bytes they are made of**;
* `scan_encode`: the loop on an encoding; `scan_length`, `scan_eq_none`: what a counter that has
  wrapped around does;
* `base64Decode_encode_iff`: **decoding inverts encoding exactly when the length of the encoding is
  an `int`**.
-/

namespace Mnn.Base64

/-! ### The decoder -/

def base64Chars : List UInt8 :=
  (['A', 'B', 'C', 'D', 'E', 'F', 'G', 'H', 'I', 'J', 'K', 'L', 'M',
    'N', 'O', 'P', 'Q', 'R', 'S', 'T', 'U', 'V', 'W', 'X', 'Y', 'Z',
    'a', 'b', 'c', 'd', 'e', 'f', 'g', 'h', 'i', 'j', 'k', 'l', 'm',
    'n', 'o', 'p', 'q', 'r', 's', 't', 'u', 'v', 'w', 'x', 'y', 'z',
    '0', '1', '2', '3', '4', '5', '6', '7', '8', '9', '+', '/'] : List Char).map
    fun c => UInt8.ofNat c.toNat

/-- `isalnum`. -/
def isAlnum (c : UInt8) : Bool :=
  (48 ≤ c && c ≤ 57) || (65 ≤ c && c ≤ 90) || (97 ≤ c && c ≤ 122)

def isBase64 (c : UInt8) : Bool := isAlnum c || c == 43 || c == 47

/-- `base64_chars.find`, as an `unsigned char`; `npos` becomes `255`. -/
def find (c : UInt8) : UInt8 :=
  match base64Chars.findIdx? (· == c) with
  | some k => UInt8.ofNat k
  | none => 255

/-- `char_array_3`, from the values in `char_array_4`. -/
def decodeGroup (a₀ a₁ a₂ a₃ : UInt8) : List UInt8 :=
  [(a₀ <<< 2) + ((a₁ &&& 0x30) >>> 4),
   ((a₁ &&& 0xf) <<< 4) + ((a₂ &&& 0x3c) >>> 2),
   ((a₂ &&& 0x3) <<< 6) + a₃]

/-- `char_array_3`, from the characters in `char_array_4`, the rest of which is `0`. -/
def decodeChars (group : List UInt8) : List UInt8 :=
  decodeGroup (find (group.getD 0 0)) (find (group.getD 1 0)) (find (group.getD 2 0))
    (find (group.getD 3 0))

/-- The main loop: `group` is `char_array_4` up to `i`.  The index `in_` overflows no earlier than
`in_len` does. -/
def scan : List UInt8 → ℤ → List UInt8 → List UInt8 → Option (List UInt8 × List UInt8)
  | [], inLen, group, ret =>
    -- the terminator is not a character of base64
    if inLen = -2 ^ 31 then none else some (group, ret)
  | c :: str, inLen, group, ret =>
    if inLen = -2 ^ 31 then none
    else if inLen = 0 ∨ c = 61 ∨ isBase64 c = false then some (group, ret)
    else if group.length + 1 = 4 then
      scan str (inLen - 1) [] (ret ++ decodeChars (group ++ [c]))
    else scan str (inLen - 1) (group ++ [c]) ret

/-- The bytes of the group that the main loop leaves behind. -/
def finish (p : List UInt8 × List UInt8) : List UInt8 :=
  if p.1.length ≠ 0 then p.2 ++ (decodeChars p.1).take (p.1.length - 1) else p.2

/-- `base64_decode`. -/
def base64Decode (str : List UInt8) : Option (List UInt8) :=
  (scan str (Int.bmod str.length (2 ^ 32)) [] []).map finish

/-! ### The encoding -/

/-- The character of a value below `64`. -/
def encodeChar (k : ℕ) : UInt8 := base64Chars.getD k 0

/-- Three bytes are 24 bits, and these are four values of 6 bits each. -/
def encodeGroup (n : ℕ) : List UInt8 :=
  [encodeChar (n / 2 ^ 18), encodeChar (n / 2 ^ 12 % 64), encodeChar (n / 2 ^ 6 % 64),
   encodeChar (n % 64)]

/-- The encoding of RFC 4648, with padding. -/
def encode : List UInt8 → List UInt8
  | b₀ :: b₁ :: b₂ :: rest =>
    encodeGroup (b₀.toNat * 2 ^ 16 + b₁.toNat * 2 ^ 8 + b₂.toNat) ++ encode rest
  | [b₀, b₁] => (encodeGroup (b₀.toNat * 2 ^ 16 + b₁.toNat * 2 ^ 8)).take 3 ++ [61]
  | [b₀] => (encodeGroup (b₀.toNat * 2 ^ 16)).take 2 ++ [61, 61]
  | [] => []

example : base64Decode (encode [77, 255, 0, 128, 200]) = some [77, 255, 0, 128, 200] := by decide

/-! ### Characters and groups -/

theorem encodeChar_spec : ∀ k < 64,
    isBase64 (encodeChar k) = true ∧ encodeChar k ≠ 61 ∧ find (encodeChar k) = UInt8.ofNat k := by
  decide

/-- The masks and shifts, on values of 6 bits. -/
theorem toNat_shifts : ∀ k < 64,
    (UInt8.ofNat k).toNat = k ∧ (UInt8.ofNat k <<< 2).toNat = k * 4 ∧
      ((UInt8.ofNat k &&& 0x30) >>> 4).toNat = k / 16 ∧
      ((UInt8.ofNat k &&& 0xf) <<< 4).toNat = k % 16 * 16 ∧
      ((UInt8.ofNat k &&& 0x3c) >>> 2).toNat = k / 4 ∧
      ((UInt8.ofNat k &&& 0x3) <<< 6).toNat = k % 4 * 64 := by
  decide

theorem eq_of_toNat {b x y : UInt8} (h : x.toNat + y.toNat = b.toNat) : x + y = b := by
  rw [← UInt8.toNat_inj, UInt8.toNat_add, h, Nat.mod_eq_of_lt b.toNat_lt]

section Group

variable {b₀ b₁ b₂ : UInt8} {n : ℕ}

/-- The first byte is in the first two values. -/
theorem first_byte (h : n / 2 ^ 16 = b₀.toNat) :
    (UInt8.ofNat (n / 2 ^ 18) <<< 2) + ((UInt8.ofNat (n / 2 ^ 12 % 64) &&& 0x30) >>> 4) = b₀ := by
  have hb := b₀.toNat_lt
  apply eq_of_toNat
  rw [(toNat_shifts (n / 2 ^ 18) (by omega)).2.1, (toNat_shifts _ (Nat.mod_lt _ (by decide))).2.2.1]
  omega

/-- The second byte is in the second and the third value. -/
theorem second_byte (h : n / 2 ^ 8 % 2 ^ 8 = b₁.toNat) :
    ((UInt8.ofNat (n / 2 ^ 12 % 64) &&& 0xf) <<< 4) +
      ((UInt8.ofNat (n / 2 ^ 6 % 64) &&& 0x3c) >>> 2) = b₁ := by
  apply eq_of_toNat
  rw [(toNat_shifts (n / 2 ^ 12 % 64) (Nat.mod_lt _ (by decide))).2.2.2.1,
    (toNat_shifts (n / 2 ^ 6 % 64) (Nat.mod_lt _ (by decide))).2.2.2.2.1]
  omega

/-- The third byte is in the last two values. -/
theorem third_byte (h : n % 2 ^ 8 = b₂.toNat) :
    ((UInt8.ofNat (n / 2 ^ 6 % 64) &&& 0x3) <<< 6) + UInt8.ofNat (n % 64) = b₂ := by
  apply eq_of_toNat
  rw [(toNat_shifts (n / 2 ^ 6 % 64) (Nat.mod_lt _ (by decide))).2.2.2.2.2,
    (toNat_shifts (n % 64) (Nat.mod_lt _ (by decide))).1]
  omega

theorem find_encodeChar {k : ℕ} (h : k < 64) : find (encodeChar k) = UInt8.ofNat k :=
  (encodeChar_spec k h).2.2

/-- **Four characters give back their three bytes.** -/
theorem decodeChars_encodeGroup (b₀ b₁ b₂ : UInt8) (h₀ : n / 2 ^ 16 = b₀.toNat)
    (h₁ : n / 2 ^ 8 % 2 ^ 8 = b₁.toNat) (h₂ : n % 2 ^ 8 = b₂.toNat) :
    decodeChars (encodeGroup n) = [b₀, b₁, b₂] := by
  have hb := b₀.toNat_lt
  have hfirst : find (encodeChar (n / 2 ^ 18)) = UInt8.ofNat (n / 2 ^ 18) :=
    find_encodeChar (by omega)
  show decodeGroup (find (encodeChar _)) (find (encodeChar _)) (find (encodeChar _))
    (find (encodeChar _)) = _
  rw [hfirst, find_encodeChar (Nat.mod_lt _ (by decide)),
    find_encodeChar (Nat.mod_lt _ (by decide)), find_encodeChar (Nat.mod_lt _ (by decide)),
    decodeGroup, first_byte h₀, second_byte h₁,
    third_byte h₂]

/-- Three characters give back two bytes, whatever the fourth value is. -/
theorem decodeChars_take_three (b₀ b₁ : UInt8) (h₀ : n / 2 ^ 16 = b₀.toNat)
    (h₁ : n / 2 ^ 8 % 2 ^ 8 = b₁.toNat) :
    (decodeChars ((encodeGroup n).take 3)).take 2 = [b₀, b₁] := by
  have hb := b₀.toNat_lt
  have hfirst : find (encodeChar (n / 2 ^ 18)) = UInt8.ofNat (n / 2 ^ 18) :=
    find_encodeChar (by omega)
  show (decodeGroup (find (encodeChar _)) (find (encodeChar _)) (find (encodeChar _))
    (find 0)).take 2 = _
  rw [hfirst, find_encodeChar (Nat.mod_lt _ (by decide)),
    find_encodeChar (Nat.mod_lt _ (by decide)), decodeGroup, first_byte h₀, second_byte h₁]
  rfl

/-- Two characters give back one byte. -/
theorem decodeChars_take_two (b₀ : UInt8) (h₀ : n / 2 ^ 16 = b₀.toNat) :
    (decodeChars ((encodeGroup n).take 2)).take 1 = [b₀] := by
  have hb := b₀.toNat_lt
  have hfirst : find (encodeChar (n / 2 ^ 18)) = UInt8.ofNat (n / 2 ^ 18) :=
    find_encodeChar (by omega)
  show (decodeGroup (find (encodeChar _)) (find (encodeChar _)) (find 0) (find 0)).take 1 = _
  rw [hfirst, find_encodeChar (Nat.mod_lt _ (by decide)), decodeGroup, first_byte h₀]
  rfl

end Group

/-! ### The main loop -/

/-- A character of the alphabet. -/
def Plain (c : UInt8) : Prop := c ≠ 61 ∧ isBase64 c = true

theorem plain_encodeChar {k : ℕ} (h : k < 64) : Plain (encodeChar k) :=
  ⟨(encodeChar_spec k h).2.1, (encodeChar_spec k h).1⟩

theorem length_encodeGroup (n : ℕ) : (encodeGroup n).length = 4 := rfl

theorem plain_encodeGroup {n : ℕ} (h : n < 2 ^ 24) : ∀ c ∈ encodeGroup n, Plain c := by
  simp only [encodeGroup, List.forall_mem_cons, List.not_mem_nil, false_imp_iff, implies_true,
    and_true]
  exact ⟨plain_encodeChar (by omega), plain_encodeChar (Nat.mod_lt _ (by decide)),
    plain_encodeChar (Nat.mod_lt _ (by decide)), plain_encodeChar (Nat.mod_lt _ (by decide))⟩

section Scan

variable {c : UInt8} {str u group ret : List UInt8} {inLen : ℤ}

/-- One pass. -/
theorem scan_plain (hc : Plain c) (hmin : inLen ≠ -2 ^ 31) (hzero : inLen ≠ 0) :
    scan (c :: str) inLen group ret =
      if group.length + 1 = 4 then scan str (inLen - 1) [] (ret ++ decodeChars (group ++ [c]))
      else scan str (inLen - 1) (group ++ [c]) ret := by
  rw [scan, if_neg hmin, if_neg]
  rintro (heq | heq | hfalse)
  · exact hzero heq
  · exact hc.1 heq
  · rw [hc.2] at hfalse
    cases hfalse

/-- Characters that do not complete a group. -/
theorem scan_partial (hu : ∀ c ∈ u, Plain c) (hlen : (group ++ u).length < 4) (n : ℕ) :
    scan (u ++ str) (u.length + n) group ret = scan str n (group ++ u) ret := by
  induction u generalizing group with
  | nil => simp
  | cons c u ih =>
    rw [List.forall_mem_cons] at hu
    rw [List.length_append, List.length_cons] at hlen
    rw [List.cons_append, scan_plain hu.1 (by rw [List.length_cons]; omega)
      (by rw [List.length_cons]; omega), if_neg (by omega)]
    have hcount : (((c :: u).length : ℤ) + n - 1) = u.length + n := by
      rw [List.length_cons]
      omega
    rw [hcount, ih hu.2 (by simp; omega), List.append_assoc, List.singleton_append]

/-- A group is decoded with its last character. -/
theorem scan_group (hu : ∀ c ∈ u, Plain c) (hlen : u.length = 4) (n : ℕ) :
    scan (u ++ str) (4 + n : ℕ) [] ret = scan str n [] (ret ++ decodeChars u) := by
  rcases List.eq_nil_or_concat' u with rfl | ⟨v, c, rfl⟩
  · cases hlen
  · rw [List.length_append, List.length_singleton] at hlen
    have hc : Plain c := hu c (List.mem_append_right v (List.mem_singleton_self c))
    have hv : ∀ x ∈ v, Plain x := fun x hx => hu x (List.mem_append_left [c] hx)
    have hstart : scan (v ++ c :: str) (v.length + (1 + n : ℕ)) [] ret = _ :=
      scan_partial hv (by rw [List.nil_append]; omega) (1 + n)
    have hcount : ((v.length : ℤ) + (1 + n : ℕ)) = (4 + n : ℕ) := by omega
    rw [hcount, List.nil_append] at hstart
    rw [List.append_assoc, List.singleton_append, hstart, scan_plain hc (by omega)
      (by omega), if_pos (by omega)]
    congr 1
    omega

/-- The loop stops at the padding. -/
theorem scan_padding (n : ℕ) (hn : (n : ℤ) ≠ -2 ^ 31) :
    scan (61 :: str) n group ret = some (group, ret) := by
  rw [scan, if_neg hn, if_pos (.inr (.inl rfl))]

theorem finish_eq (h : group ≠ []) :
    finish (group, ret) = ret ++ (decodeChars group).take (group.length - 1) :=
  if_pos (mt List.length_eq_zero_iff.1 h)

/-- **The loop on an encoding** leaves behind the characters of the last bytes. -/
theorem scan_encode (bytes ret : List UInt8) :
    (scan (encode bytes) (encode bytes).length [] ret).map finish = some (ret ++ bytes) := by
  fun_induction encode bytes generalizing ret with
  | case1 b₀ b₁ b₂ rest ih =>
    have h₀ := b₀.toNat_lt
    have h₁ := b₁.toNat_lt
    have h₂ := b₂.toNat_lt
    generalize hn : b₀.toNat * 2 ^ 16 + b₁.toNat * 2 ^ 8 + b₂.toNat = n
    rw [List.length_append, length_encodeGroup, scan_group (plain_encodeGroup (by omega)) rfl,
      decodeChars_encodeGroup b₀ b₁ b₂ (by omega) (by omega) (by omega), ih,
      List.append_assoc]
    rfl
  | case2 b₀ b₁ =>
    have h₀ := b₀.toNat_lt
    have h₁ := b₁.toNat_lt
    generalize hn : b₀.toNat * 2 ^ 16 + b₁.toNat * 2 ^ 8 = n
    have hplain := plain_encodeGroup (n := n) (by omega)
    have hlen : ([] ++ (encodeGroup n).take 3).length < 4 := show 3 < 4 by decide
    have hne : (encodeGroup n).take 3 ≠ [] := List.cons_ne_nil _ _
    rw [List.length_append, Nat.cast_add,
      scan_partial (fun c hc => hplain c (List.mem_of_mem_take hc)) hlen, List.nil_append,
      scan_padding _ (by omega), Option.map_some, finish_eq hne]
    show some (ret ++ (decodeChars ((encodeGroup n).take 3)).take 2) = _
    rw [decodeChars_take_three b₀ b₁ (by omega) (by omega)]
  | case3 b₀ =>
    have h₀ := b₀.toNat_lt
    generalize hn : b₀.toNat * 2 ^ 16 = n
    have hplain := plain_encodeGroup (n := n) (by omega)
    have hlen : ([] ++ (encodeGroup n).take 2).length < 4 := show 2 < 4 by decide
    have hne : (encodeGroup n).take 2 ≠ [] := List.cons_ne_nil _ _
    rw [List.length_append, Nat.cast_add,
      scan_partial (fun c hc => hplain c (List.mem_of_mem_take hc)) hlen, List.nil_append,
      scan_padding _ (by omega), Option.map_some, finish_eq hne]
    show some (ret ++ (decodeChars ((encodeGroup n).take 2)).take 1) = _
    rw [decodeChars_take_two b₀ (by omega)]
  | case4 => simp [scan, finish]

/-! ### A counter that has wrapped around -/

theorem length_finish (group ret : List UInt8) :
    (finish (group, ret)).length ≤ ret.length + (group.length - 1) := by
  unfold finish
  split_ifs
  · rw [List.length_append, List.length_take]
    exact Nat.add_le_add_left (Nat.min_le_left _ _) _
  · exact Nat.le_add_right _ _

/-- No more bytes come out than the characters that are counted make up. -/
theorem scan_length {p : List UInt8 × List UInt8} (h : scan str inLen group ret = some p)
    (hlen : group.length < 4) (hpos : 0 ≤ inLen) :
    4 * ((finish p).length : ℤ) ≤ 4 * ret.length + 3 * group.length + 3 * inLen := by
  induction str generalizing inLen group ret with
  | nil =>
    rw [scan, if_neg (by omega)] at h
    obtain rfl := Option.some.inj h
    have hfinish := length_finish group ret
    omega
  | cons c str ih =>
    rw [scan, if_neg (by omega)] at h
    split_ifs at h with hend hfull
    · obtain rfl := Option.some.inj h
      have hfinish := length_finish group ret
      omega
    · have hrest := ih h (by decide) (by omega)
      have hchars : (decodeChars (group ++ [c])).length = 3 := rfl
      rw [List.length_append, hchars, List.length_nil] at hrest
      omega
    · have hgroup : (group ++ [c]).length = group.length + 1 := by
        rw [List.length_append, List.length_singleton]
      have hrest := ih h (by omega) (by omega)
      rw [hgroup] at hrest
      omega

theorem scan_min (str group ret : List UInt8) : scan str (-2 ^ 31) group ret = none := by
  cases str with
  | nil => exact if_pos rfl
  | cons c str => exact if_pos rfl

/-- A negative counter overflows when there are enough characters. -/
theorem scan_eq_none (hu : ∀ c ∈ u, Plain c) (hneg : inLen < 0) (hle : -2 ^ 31 ≤ inLen)
    (hlen : inLen + 2 ^ 31 ≤ u.length) : scan (u ++ str) inLen group ret = none := by
  induction u generalizing inLen group ret with
  | nil =>
    rw [List.length_nil] at hlen
    obtain rfl : inLen = -2 ^ 31 := by omega
    exact scan_min _ _ _
  | cons c u ih =>
    rw [List.forall_mem_cons] at hu
    rw [List.length_cons] at hlen
    rcases eq_or_ne inLen (-2 ^ 31) with rfl | hne
    · exact scan_min _ _ _
    · rw [List.cons_append, scan_plain hu.1 hne hneg.ne]
      split_ifs
      · exact ih hu.2 (by omega) (by omega) (by omega)
      · exact ih hu.2 (by omega) (by omega) (by omega)

end Scan

/-! ### Round trip -/

theorem length_encode (bytes : List UInt8) :
    (encode bytes).length = 4 * ((bytes.length + 2) / 3) := by
  fun_induction encode bytes with
  | case1 b₀ b₁ b₂ rest ih =>
    rw [List.length_append, length_encodeGroup, ih]
    simp only [List.length_cons]
    omega
  | case2 b₀ b₁ => simp [length_encodeGroup]
  | case3 b₀ => simp [length_encodeGroup]
  | case4 => rfl

/-- All characters but the padding are plain, and the padding has at most two. -/
theorem encode_eq_append (bytes : List UInt8) :
    ∃ u p, encode bytes = u ++ p ∧ p.length ≤ 2 ∧ ∀ c ∈ u, Plain c := by
  fun_induction encode bytes with
  | case1 b₀ b₁ b₂ rest ih =>
    have h₀ := b₀.toNat_lt
    have h₁ := b₁.toNat_lt
    have h₂ := b₂.toNat_lt
    obtain ⟨u, p, heq, hp, hu⟩ := ih
    refine ⟨_ ++ u, p, by rw [heq, List.append_assoc], hp, fun c hc => ?_⟩
    rcases List.mem_append.1 hc with hc | hc
    · exact plain_encodeGroup (by omega) c hc
    · exact hu c hc
  | case2 b₀ b₁ =>
    have h₀ := b₀.toNat_lt
    have h₁ := b₁.toNat_lt
    exact ⟨_, [61], rfl, by decide, fun c hc =>
      plain_encodeGroup (by omega) c (List.mem_of_mem_take hc)⟩
  | case3 b₀ =>
    have h₀ := b₀.toNat_lt
    exact ⟨_, [61, 61], rfl, by decide, fun c hc =>
      plain_encodeGroup (by omega) c (List.mem_of_mem_take hc)⟩
  | case4 => exact ⟨[], [], rfl, Nat.zero_le _, fun c hc => absurd hc List.not_mem_nil⟩

/-- **An encoding that is too long** does not come back. -/
theorem base64Decode_encode_ne {bytes : List UInt8} (hle : 2 ^ 31 ≤ (encode bytes).length) :
    base64Decode (encode bytes) ≠ some bytes := by
  have hlen := length_encode bytes
  intro h
  obtain ⟨p, hp, hfinish⟩ := Option.map_eq_some_iff.1 h
  rcases Int.lt_or_le (Int.bmod (encode bytes).length (2 ^ 32)) 0 with hneg | hpos
  · -- the counter is negative, and the text goes on until it overflows
    obtain ⟨u, q, heq, hq, hu⟩ := encode_eq_append bytes
    have hsum : (encode bytes).length = u.length + q.length := by rw [heq, List.length_append]
    rw [Int.bmod_def] at hneg hp
    rw [heq] at hp
    have hnone : scan (u ++ q) _ [] [] = none := scan_eq_none hu hneg (by omega) (by omega)
    rw [← heq] at hnone hp
    rw [hnone] at hp
    cases hp
  · -- fewer characters are counted than there are
    have hbound := scan_length hp (by decide) hpos
    rw [hfinish, Int.bmod_def] at hbound
    simp only [List.length_nil] at hbound
    rw [Int.bmod_def] at hpos
    omega

/-- **Main theorem.**  Decoding inverts encoding exactly when the length of the encoding is an
`int`. -/
theorem base64Decode_encode_iff (bytes : List UInt8) :
    base64Decode (encode bytes) = some bytes ↔ (encode bytes).length < 2 ^ 31 := by
  refine ⟨fun h => lt_of_not_ge fun hle => base64Decode_encode_ne hle h, fun hlt => ?_⟩
  have hcount : Int.bmod (encode bytes).length (2 ^ 32) = (encode bytes).length := by
    rw [Int.bmod_def]
    omega
  rw [base64Decode, hcount, scan_encode, List.nil_append]

/-- Zero bytes whose encoding has `2 ^ 31` characters. -/
theorem base64Decode_encode_zeros :
    base64Decode (encode (List.replicate (3 * 2 ^ 29) 0)) ≠
      some (List.replicate (3 * 2 ^ 29) 0) := by
  apply base64Decode_encode_ne
  rw [length_encode, List.length_replicate]
  norm_num

end Mnn.Base64
