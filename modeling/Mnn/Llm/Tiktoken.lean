import Mnn.Lib.LongestPrefix
import Mnn.Llm.Trie

/-!
# Tiktoken encoding

`Tokenizer::encode` cuts the text at special tokens and hands the pieces between them to
`Tiktoken::encode`, which walks each piece through the prefix tree
(`transformers/llm/engine/src/tokenizer.cpp`).

The tree is searched with an iterator of the piece that the recursive `Trie::find` never compares
with the end.  What it finds there is a parameter of the model: `pad` is the list of the bytes that
can be read from the end of the piece on, `[0]` for the terminator a `std::string` keeps behind its
last character, `[]` when even that one is out of bounds.  A read beyond `pad` is the fault
`pastEnd`.

`encode_lossless_iff`: encoding a text loses nothing if and only if no search starts at a rest of a
piece that, followed by a NUL byte, begins a vocabulary entry; and it stays inside the characters of
the text only when there is nothing to encode between the special tokens.
-/

namespace Mnn

open Lib

/-- A vocabulary as `Tiktoken::load_vocab` reads it: non-empty byte strings, each single byte among
them. -/
structure Vocabulary where
  tokens : List (List UInt8)
  ne_nil : ∀ e ∈ tokens, e ≠ []
  bytes : ∀ b : UInt8, [b] ∈ tokens

structure Tiktoken where
  encoder : Trie
  decoder : List (List UInt8)

/-- How a walk can go wrong: by a read beyond the buffer, or by not ending within the fuel. -/
inductive Fault
  | pastEnd
  | outOfFuel
  deriving DecidableEq

namespace Tiktoken

/-- `Tiktoken::load_vocab` on the decoded lines. -/
def loadVocab (tokens : List (List UInt8)) : Tiktoken where
  encoder := tokens.zipIdx.foldl (fun t e => t.insert (e.1, (e.2 : ℤ))) (Trie.new 10000)
  decoder := tokens

/-- `Tiktoken::decode`.  The comparison with the size is unsigned, so negative ids are too large. -/
def decode (T : Tiktoken) (id : ℤ) : List UInt8 :=
  if id < 0 ∨ (T.decoder.length : ℤ) ≤ id then [] else T.decoder.getD id.toNat []

/-- The loop of `Tiktoken::encode`. -/
def encodeLoop (T : Tiktoken) (pad : List UInt8) :
    ℕ → List UInt8 → List ℤ → Except Fault (List ℤ)
  | 0, it, ids => if it.length = pad.length then .ok ids else .error .outOfFuel
  | fuel + 1, it, ids =>
    if it.length = pad.length then .ok ids
    else
      match T.encoder.find it pad with
      | none => .error .pastEnd
      | some (id, it') => T.encodeLoop pad fuel it' (if 0 ≤ id then ids ++ [id] else ids)

def encode (T : Tiktoken) (pad str : List UInt8) (ids : List ℤ) : Except Fault (List ℤ) :=
  if str = [] then .ok ids else T.encodeLoop pad str.length (str ++ pad) ids

end Tiktoken

/-- `Tokenizer` with a `Tiktoken` below it. -/
structure Tokenizer where
  tiktoken : Tiktoken
  specialTokens : List ℤ
  prefixTokens : List ℤ

namespace Tokenizer

variable (K : Tokenizer)

/-- The test of the inner loop of `Tokenizer::encode`: the special token is in the vocabulary and
stands at position `i` of the text. -/
def standsAt (text : List UInt8) (i : ℕ) (specialId : ℤ) : Bool :=
  let token := K.tiktoken.decode specialId
  !token.isEmpty && decide (i + token.length ≤ text.length) &&
    decide ((text.drop i).take token.length = token)

theorem standsAt_iff {text : List UInt8} {i : ℕ} {specialId : ℤ} :
    K.standsAt text i specialId = true ↔
      K.tiktoken.decode specialId ≠ [] ∧
        i + (K.tiktoken.decode specialId).length ≤ text.length ∧
        (text.drop i).take (K.tiktoken.decode specialId).length =
          K.tiktoken.decode specialId := by
  simp [standsAt, and_assoc]

theorem length_pos_of_find {text : List UInt8} {i : ℕ} {specialId : ℤ}
    (h : K.specialTokens.find? (K.standsAt text i) = some specialId) :
    0 < (K.tiktoken.decode specialId).length :=
  List.length_pos_iff.2 (K.standsAt_iff.1 (List.find?_some h)).1

/-- The loop of `Tokenizer::encode` from position `i`, with the text from `start` on not encoded
yet. -/
def scan (pad text : List UInt8) (i start : ℕ) (ids : List ℤ) : Except Fault (List ℤ) :=
  if i < text.length then
    match h : K.specialTokens.find? (K.standsAt text i) with
    | some specialId =>
      let next := i + (K.tiktoken.decode specialId).length
      let encoded :=
        if i > start then K.tiktoken.encode pad ((text.drop start).take (i - start)) ids
        else .ok ids
      encoded.bind fun ids => scan pad text next next (ids ++ [specialId])
    | none => scan pad text (i + 1) start ids
  else if start < text.length then K.tiktoken.encode pad (text.drop start) ids else .ok ids
termination_by text.length - i
decreasing_by
  · have := K.length_pos_of_find h
    omega
  · omega

/-- `Tokenizer::encode`. -/
def encode (pad text : List UInt8) : Except Fault (List ℤ) :=
  if K.specialTokens ≠ [] then K.scan pad text 0 0 K.prefixTokens
  else K.tiktoken.encode pad text K.prefixTokens

/-! ### The pieces between special tokens -/

/-- What the loop of `Tokenizer::encode` handles in turn: a piece of text, or a special token. -/
inductive Cut
  | piece (p : List UInt8)
  | special (id : ℤ)

/-- The cuts of the text from `start` on when the loop stands at `i`. -/
def cutsFrom (text : List UInt8) (i start : ℕ) : List Cut :=
  if i < text.length then
    match h : K.specialTokens.find? (K.standsAt text i) with
    | some specialId =>
      let next := i + (K.tiktoken.decode specialId).length
      (if i > start then [.piece ((text.drop start).take (i - start))] else []) ++
        .special specialId :: cutsFrom text next next
    | none => cutsFrom text (i + 1) start
  else if start < text.length then [.piece (text.drop start)] else []
termination_by text.length - i
decreasing_by
  · have := K.length_pos_of_find h
    omega
  · omega

def cuts (text : List UInt8) : List Cut :=
  if K.specialTokens ≠ [] then K.cutsFrom text 0 0 else [.piece text]

/-- The strings handed to `Tiktoken::encode`. -/
def pieces (text : List UInt8) : List (List UInt8) :=
  (K.cuts text).filterMap fun
    | .piece p => some p
    | .special _ => none

def Cut.text : Cut → List UInt8
  | .piece p => p
  | .special id => K.tiktoken.decode id

/-- Handling one cut. -/
def append (pad : List UInt8) (ids : List ℤ) : Cut → Except Fault (List ℤ)
  | .piece p => K.tiktoken.encode pad p ids
  | .special id => .ok (ids ++ [id])

theorem scan_eq (pad text : List UInt8) (i start : ℕ) (ids : List ℤ) :
    K.scan pad text i start ids = (K.cutsFrom text i start).foldlM (K.append pad) ids := by
  induction i, start using Tokenizer.cutsFrom.induct K text generalizing ids with
  | case1 i start hi specialId h next ih =>
    rw [scan, cutsFrom, if_pos hi, if_pos hi]
    split
    · rename_i id' h'
      obtain rfl : specialId = id' := Option.some.inj (h.symm.trans h')
      split_ifs with hs
      · simp only [List.singleton_append, List.foldlM_cons, append]
        congr 1
        funext ids'
        exact ih _
      · simp only [List.nil_append, List.foldlM_cons, append]
        exact ih _
    · rename_i h'
      rw [h] at h'
      exact nomatch h'
  | case2 i start hi h ih =>
    rw [scan, cutsFrom, if_pos hi, if_pos hi]
    split
    · rename_i id' h'
      rw [h] at h'
      exact nomatch h'
    · exact ih ids
  | case3 i start hi hs =>
    rw [scan, cutsFrom, if_neg hi, if_neg hi, if_pos hs, if_pos hs]
    simp [append]
  | case4 i start hi hs =>
    rw [scan, cutsFrom, if_neg hi, if_neg hi, if_neg hs, if_neg hs]
    rfl

theorem encode_eq (pad text : List UInt8) :
    K.encode pad text = (K.cuts text).foldlM (K.append pad) K.prefixTokens := by
  unfold encode cuts
  split_ifs
  · exact K.scan_eq pad text 0 0 _
  · simp [append]

theorem cutsFrom_text (text : List UInt8) (i start : ℕ) (hs : start ≤ i) (hi : i ≤ text.length) :
    ((K.cutsFrom text i start).map (Cut.text K)).flatten = text.drop start := by
  induction i, start using Tokenizer.cutsFrom.induct K text with
  | case1 i start hlt specialId h next ih =>
    obtain ⟨-, hle, heq⟩ := K.standsAt_iff.1 (List.find?_some h)
    have hrest : (K.tiktoken.decode specialId) ++ text.drop next = text.drop i := by
      conv_rhs => rw [← List.take_append_drop (K.tiktoken.decode specialId).length (text.drop i)]
      rw [heq, List.drop_drop]
    have hfront : (text.drop start).take (i - start) ++ text.drop i = text.drop start := by
      conv_rhs => rw [← List.take_append_drop (i - start) (text.drop start)]
      rw [List.drop_drop, Nat.add_sub_cancel' hs]
    rw [cutsFrom, if_pos hlt]
    split
    · rename_i id' h'
      obtain rfl : specialId = id' := Option.some.inj (h.symm.trans h')
      simp only [List.map_append, List.flatten_append, List.map_cons, List.flatten_cons, Cut.text]
      rw [ih le_rfl hle, hrest]
      split_ifs with hgt
      · simpa [Cut.text] using hfront
      · obtain rfl : i = start := by omega
        rfl
    · rename_i h'
      rw [h] at h'
      exact nomatch h'
  | case2 i start hlt h ih =>
    rw [cutsFrom, if_pos hlt]
    split
    · rename_i id' h'
      rw [h] at h'
      exact nomatch h'
    · exact ih (by omega) hlt
  | case3 i start hlt hst =>
    rw [cutsFrom, if_neg hlt, if_pos hst]
    simp [Cut.text]
  | case4 i start hlt hst =>
    rw [cutsFrom, if_neg hlt, if_neg hst]
    simp [List.drop_eq_nil_of_le (not_lt.1 hst)]

theorem cuts_text (text : List UInt8) : ((K.cuts text).map (Cut.text K)).flatten = text := by
  unfold cuts
  split_ifs
  · exact K.cutsFrom_text text 0 0 le_rfl (Nat.zero_le _)
  · simp [Cut.text]

end Tokenizer

/-! ### The tree of a vocabulary -/

/-- The id under which the tree holds a word: its first position in the vocabulary. -/
def firstId (tokens : List (List UInt8)) (p : List UInt8) : ℤ :=
  if p ∈ tokens then (tokens.idxOf p : ℤ) else -1

/-- Inserting the words of a list under the numbers from `k` on. -/
theorem insertAll_labelled (l : List (List UInt8)) (k : ℕ) {t : Trie} {path idOf}
    (h : t.Labelled path idOf) :
    ∃ path', ((l.zipIdx k).foldl (fun t e => t.insert (e.1, (e.2 : ℤ))) t).Labelled path'
        (fun p => if idOf p = -1 then if p ∈ l then (k : ℤ) + l.idxOf p else -1 else idOf p) ∧
      ∀ q, ((l.zipIdx k).foldl (fun t e => t.insert (e.1, (e.2 : ℤ))) t).IsNode path' q ↔
        t.IsNode path q ∨ ∃ e ∈ l, q <+: e := by
  induction l generalizing k t path idOf with
  | nil =>
    refine ⟨path, ?_, fun q => by simp⟩
    have hid : (fun p => if idOf p = -1 then if p ∈ ([] : List (List UInt8)) then
        (k : ℤ) + ([] : List (List UInt8)).idxOf p else -1 else idOf p) = idOf := by
      funext p
      simp only [List.not_mem_nil, if_false]
      split_ifs with hp
      · exact hp.symm
      · rfl
    rw [hid]
    exact h
  | cons w l ih =>
    obtain ⟨path₁, h₁, hq₁⟩ := Trie.insertFrom_labelled (k : ℤ) w h h.size_pos
    obtain ⟨path₂, h₂, hq₂⟩ := ih (k + 1) h₁
    rw [h.root, List.nil_append] at h₂
    have hid : (fun p => if idOf p = -1 then
          if p ∈ w :: l then (k : ℤ) + (w :: l).idxOf p else -1 else idOf p) =
        fun p => if (if idOf w = -1 then Function.update idOf w (k : ℤ) else idOf) p = -1 then
          if p ∈ l then ((k + 1 : ℕ) : ℤ) + l.idxOf p else -1
          else (if idOf w = -1 then Function.update idOf w (k : ℤ) else idOf) p := by
      funext p
      by_cases hw : idOf w = -1
      · by_cases hp : p = w
        · subst hp
          have hk : (k : ℤ) ≠ -1 := by omega
          simp [hw, hk]
        · simp only [hw, if_true, Function.update_of_ne hp, List.mem_cons, hp, false_or,
            List.idxOf_cons_ne _ (Ne.symm hp)]
          push_cast
          simp only [add_assoc, add_comm (1 : ℤ)]
      · by_cases hp : p = w
        · subst hp
          simp [hw]
        · simp only [hw, if_false, List.mem_cons, hp, false_or, List.idxOf_cons_ne _ (Ne.symm hp)]
          push_cast
          simp only [add_assoc, add_comm (1 : ℤ)]
    rw [hid, List.zipIdx_cons, List.foldl_cons]
    refine ⟨path₂, h₂, fun q => ?_⟩
    · refine (hq₂ q).trans ?_
      rw [hq₁ q, h.root]
      simp only [List.nil_append, List.mem_cons, exists_eq_or_imp, or_assoc]
      have : (∃ v, v <+: w ∧ q = v) ↔ q <+: w :=
        ⟨fun ⟨v, hv, hqv⟩ => hqv ▸ hv, fun hq => ⟨q, hq, rfl⟩⟩
      rw [this]

namespace Vocabulary

variable (V : Vocabulary)

/-- The entries as a set. -/
def words : Set (List UInt8) := {e | e ∈ V.tokens}

def tiktoken : Tiktoken := Tiktoken.loadVocab V.tokens

/-- All there is to read at `r` begins an entry, so that the search cannot stop before the end. -/
def Stuck (pad r : List UInt8) : Prop := ∃ e ∈ V.tokens, r ++ pad <+: e

theorem tiktoken_labelled : ∃ path, V.tiktoken.encoder.Labelled path (firstId V.tokens) ∧
    ∀ q, V.tiktoken.encoder.IsNode path q ↔ q = [] ∨ ∃ e ∈ V.tokens, q <+: e := by
  have hnew := Trie.new_labelled (show 0 < 10000 by omega)
  obtain ⟨path, h, hq⟩ := insertAll_labelled V.tokens 0 hnew
  have hid : (fun p => if (-1 : ℤ) = -1 then
      if p ∈ V.tokens then ((0 : ℕ) : ℤ) + V.tokens.idxOf p else -1 else -1) =
      firstId V.tokens := by
    funext p
    simp [firstId]
  rw [hid] at h
  refine ⟨path, h, fun q => (hq q).trans (or_congr_left ⟨?_, ?_⟩)⟩
  · rintro ⟨n, -, hn⟩
    exact hn.symm
  · rintro rfl
    exact ⟨0, hnew.size_pos, rfl⟩

theorem decode_firstId {e : List UInt8} (he : e ∈ V.tokens) :
    V.tiktoken.decode (firstId V.tokens e) = e := by
  have hlt : V.tokens.idxOf e < V.tokens.length := List.idxOf_lt_length_of_mem he
  simp only [Tiktoken.decode, tiktoken, Tiktoken.loadVocab, firstId, if_pos he, Int.toNat_natCast]
  rw [if_neg (by omega), List.getD_eq_getElem?_getD, List.getElem?_eq_getElem hlt,
    Option.getD_some, List.getElem_idxOf]

theorem firstId_ne_iff {p : List UInt8} : firstId V.tokens p ≠ -1 ↔ p ∈ V.tokens := by
  unfold firstId
  split_ifs with h
  · simp only [h, iff_true]
    omega
  · simp [h]

theorem exists_longest {r : List UInt8} (hr : r ≠ []) : ∃ e, IsLongestPrefix V.words r e := by
  obtain ⟨b, r, rfl⟩ := List.exists_cons_of_ne_nil hr
  exact exists_isLongestPrefix ⟨[b], V.bytes b, ⟨r, rfl⟩⟩

theorem find_eq {pad r : List UInt8} (hr : r ≠ []) :
    V.tiktoken.encoder.find (r ++ pad) pad =
      V.tiktoken.encoder.findFrom 0 (-1) (r ++ pad).tail (r ++ pad) := by
  have hlen := List.length_pos_iff.2 hr
  rw [Trie.find, if_neg (by simp only [List.length_append]; omega)]

theorem find_stuck {pad r : List UInt8} (hr : r ≠ []) (h : V.Stuck pad r) :
    V.tiktoken.encoder.find (r ++ pad) pad = none := by
  obtain ⟨path, hlab, hq⟩ := V.tiktoken_labelled
  rw [V.find_eq hr, Trie.findFrom_none_iff _ hlab hlab.size_pos, hlab.root, List.nil_append, hq]
  exact .inr h

/-- A search that is not stuck finds the longest entry. -/
theorem find_longest {pad r : List UInt8} (hpad : pad.length ≤ 1) (hr : r ≠ [])
    (h : ¬ V.Stuck pad r) {e : List UInt8} (he : IsLongestPrefix V.words r e) :
    V.tiktoken.encoder.find (r ++ pad) pad =
      some (firstId V.tokens e, r.drop e.length ++ pad) := by
  obtain ⟨path, hlab, hq⟩ := V.tiktoken_labelled
  rw [V.find_eq hr]
  cases hfind : V.tiktoken.encoder.findFrom 0 (-1) (r ++ pad).tail (r ++ pad) with
  | none =>
    rw [Trie.findFrom_none_iff _ hlab hlab.size_pos, hlab.root, List.nil_append, hq] at hfind
    rcases hfind with hnil | hst
    · simp [hr] at hnil
    · exact absurd hst h
  | some res =>
    obtain ⟨id, rest⟩ := res
    have hspec := Trie.findFrom_some _ hlab hlab.size_pos hfind
    simp only [hlab.root, List.nil_append] at hspec
    have heid : firstId V.tokens e ≠ -1 := V.firstId_ne_iff.2 he.1
    rcases hspec with ⟨w, hw, hid, rfl, rfl, hmax⟩ | ⟨hnone, -, -⟩
    · have hwV : w ∈ V.tokens := V.firstId_ne_iff.1 hid
      -- the match ends before the pad, for otherwise the search had been stuck
      have hwr : w <+: r := by
        refine List.prefix_of_prefix_length_le hw (List.prefix_append r pad) ?_
        by_contra hlen
        have hwlen := hw.length_le
        rw [List.length_append] at hwlen
        have : w = r ++ pad := hw.eq_of_length (by rw [List.length_append]; omega)
        exact h ⟨w, hwV, this ▸ List.prefix_refl w⟩
      have hwlong : IsLongestPrefix V.words r w :=
        ⟨hwV, hwr, fun e' he' hp =>
          hmax e' (hp.trans (List.prefix_append r pad)) (V.firstId_ne_iff.2 he')⟩
      obtain rfl := he.unique hwlong
      rw [List.drop_append_of_le_length hwr.length_le]
    · exact absurd (hnone e (he.2.1.trans (List.prefix_append r pad))) heid

/-! ### One piece -/

theorem encodeLoop_end (pad : List UInt8) (fuel : ℕ) (ids : List ℤ) :
    V.tiktoken.encodeLoop pad fuel pad ids = .ok ids := by
  cases fuel <;> simp [Tiktoken.encodeLoop]

/-- The rest of `r` after its longest entry is shorter. -/
theorem length_drop_lt {r e : List UInt8} (hr : r ≠ []) (he : IsLongestPrefix V.words r e) :
    (r.drop e.length).length < r.length := by
  have h1 := List.length_pos_iff.2 hr
  have h2 := List.length_pos_iff.2 (V.ne_nil e he.1)
  rw [List.length_drop]
  omega

/-- One round of the loop. -/
theorem encodeLoop_step {pad r : List UInt8} (hpad : pad.length ≤ 1) (hr : r ≠ [])
    (h : ¬ V.Stuck pad r) {e : List UInt8} (he : IsLongestPrefix V.words r e) (fuel : ℕ)
    (ids : List ℤ) :
    V.tiktoken.encodeLoop pad (fuel + 1) (r ++ pad) ids =
      V.tiktoken.encodeLoop pad fuel (r.drop e.length ++ pad) (ids ++ [firstId V.tokens e]) := by
  have hlen := List.length_pos_iff.2 hr
  have hid : 0 ≤ firstId V.tokens e := by
    rw [firstId, if_pos (show e ∈ V.tokens from he.1)]
    omega
  rw [Tiktoken.encodeLoop, if_neg (by simp only [List.length_append]; omega),
    V.find_longest hpad hr h he]
  simp only [if_pos hid]

/-- A piece whose greedy segmentation never gets stuck is encoded without loss. -/
theorem encodeLoop_ok {pad : List UInt8} (hpad : pad.length ≤ 1) (fuel : ℕ) {r : List UInt8}
    (hfuel : r.length ≤ fuel) (h : ∀ r', Boundary V.words r r' → r' ≠ [] → ¬ V.Stuck pad r')
    (ids : List ℤ) :
    ∃ new, V.tiktoken.encodeLoop pad fuel (r ++ pad) ids = .ok (ids ++ new) ∧
      (new.map V.tiktoken.decode).flatten = r := by
  induction fuel generalizing r ids with
  | zero =>
    obtain rfl := List.length_eq_zero_iff.1 (Nat.le_zero.1 hfuel)
    exact ⟨[], by simp [Tiktoken.encodeLoop], rfl⟩
  | succ fuel ih =>
    by_cases hr : r = []
    · subst hr
      exact ⟨[], by rw [List.nil_append, V.encodeLoop_end, List.append_nil], rfl⟩
    · obtain ⟨e, he⟩ := V.exists_longest hr
      have hlt := V.length_drop_lt hr he
      obtain ⟨new, hnew, htext⟩ := ih (r := r.drop e.length) (by omega)
        (fun r' hb => h r' (boundary_iff.2 (.inr ⟨hr, e, he, hb⟩)))
        (ids ++ [firstId V.tokens e])
      refine ⟨firstId V.tokens e :: new, ?_, ?_⟩
      · rw [V.encodeLoop_step hpad hr (h r .start hr) he, hnew, List.append_assoc,
          List.singleton_append]
      · rw [List.map_cons, List.flatten_cons, htext, V.decode_firstId he.1]
        obtain ⟨s, rfl⟩ := he.2.1
        rw [List.drop_left]

/-- A piece whose greedy segmentation gets stuck is read beyond its end. -/
theorem encodeLoop_pastEnd {pad : List UInt8} (hpad : pad.length ≤ 1) (fuel : ℕ)
    {r : List UInt8} (hfuel : r.length ≤ fuel)
    (h : ∃ r', Boundary V.words r r' ∧ r' ≠ [] ∧ V.Stuck pad r') (ids : List ℤ) :
    V.tiktoken.encodeLoop pad fuel (r ++ pad) ids = .error .pastEnd := by
  induction fuel generalizing r ids with
  | zero =>
    obtain rfl := List.length_eq_zero_iff.1 (Nat.le_zero.1 hfuel)
    obtain ⟨r', hb, hr', -⟩ := h
    exact absurd (List.suffix_nil.1 hb.isSuffix) hr'
  | succ fuel ih =>
    obtain ⟨r', hb, hr', hst⟩ := h
    have hr : r ≠ [] := by
      rintro rfl
      exact hr' (List.suffix_nil.1 hb.isSuffix)
    by_cases hstr : V.Stuck pad r
    · have hlen := List.length_pos_iff.2 hr
      rw [Tiktoken.encodeLoop, if_neg (by simp only [List.length_append]; omega),
        V.find_stuck hr hstr]
    · obtain rfl | ⟨-, e, he, hbe⟩ := boundary_iff.1 hb
      · exact absurd hst hstr
      · rw [V.encodeLoop_step hpad hr hstr he]
        have hlt := V.length_drop_lt hr he
        exact ih (by omega) ⟨r', hbe, hr', hst⟩ _

/-- A non-empty piece has a search that matches up to the very end. -/
theorem exists_boundary_entry {r : List UInt8} (hr : r ≠ []) :
    ∃ r', Boundary V.words r r' ∧ r' ≠ [] ∧ V.Stuck [] r' := by
  induction hn : r.length using Nat.strong_induction_on generalizing r with
  | _ n ih =>
    obtain ⟨e, he⟩ := V.exists_longest hr
    by_cases hrest : r.drop e.length = []
    · refine ⟨r, .start, hr, e, he.1, ?_⟩
      obtain ⟨s, rfl⟩ := he.2.1
      rw [List.drop_left] at hrest
      rw [hrest, List.append_nil, List.append_nil]
    · have hlt := V.length_drop_lt hr he
      obtain ⟨r', hb, hr', hst⟩ := ih _ (hn ▸ hlt) hrest rfl
      exact ⟨r', boundary_iff.2 (.inr ⟨hr, e, he, hb⟩), hr', hst⟩

/-! ### Whole texts -/

/-- The tokenizer of the vocabulary with its special and prefix ids. -/
def tokenizer (specialTokens prefixTokens : List ℤ) : Tokenizer :=
  ⟨V.tiktoken, specialTokens, prefixTokens⟩

variable (specialTokens prefixTokens : List ℤ)

/-- The greedy segmentation of a piece never gets stuck. -/
def Free (pad p : List UInt8) : Prop :=
  ∀ r, Boundary V.words p r → r ≠ [] → ¬ V.Stuck pad r

theorem encode_piece {pad : List UInt8} (hpad : pad.length ≤ 1) {p : List UInt8}
    (h : V.Free pad p) (ids : List ℤ) :
    ∃ new, V.tiktoken.encode pad p ids = .ok (ids ++ new) ∧
      (new.map V.tiktoken.decode).flatten = p := by
  unfold Tiktoken.encode
  split_ifs with hp
  · exact ⟨[], by rw [List.append_nil], hp.symm⟩
  · exact V.encodeLoop_ok hpad _ le_rfl h ids

theorem encode_piece_pastEnd {pad : List UInt8} (hpad : pad.length ≤ 1) {p : List UInt8}
    (h : ¬ V.Free pad p) (ids : List ℤ) : V.tiktoken.encode pad p ids = .error .pastEnd := by
  simp only [Free, not_forall, not_not] at h
  obtain ⟨r, hb, hr, hst⟩ := h
  have hp : p ≠ [] := by
    rintro rfl
    exact hr (List.suffix_nil.1 hb.isSuffix)
  rw [Tiktoken.encode, if_neg hp]
  exact V.encodeLoop_pastEnd hpad _ le_rfl ⟨r, hb, hr, hst⟩ ids

/-- The pieces among a list of cuts. -/
theorem foldlM_ok {pad : List UInt8} (hpad : pad.length ≤ 1) (l : List Tokenizer.Cut)
    (h : ∀ p, .piece p ∈ l → V.Free pad p) (ids : List ℤ) :
    ∃ new, l.foldlM ((V.tokenizer specialTokens prefixTokens).append pad) ids =
        .ok (ids ++ new) ∧
      (new.map V.tiktoken.decode).flatten =
        (l.map (Tokenizer.Cut.text (V.tokenizer specialTokens prefixTokens))).flatten := by
  induction l generalizing ids with
  | nil => exact ⟨[], by rw [List.append_nil]; rfl, rfl⟩
  | cons c l ih =>
    have hl : ∀ p, Tokenizer.Cut.piece p ∈ l → V.Free pad p :=
      fun p hp => h p (List.mem_cons_of_mem _ hp)
    cases c with
    | piece p =>
      obtain ⟨new₁, h₁, ht₁⟩ := V.encode_piece hpad (h p List.mem_cons_self) ids
      obtain ⟨new₂, h₂, ht₂⟩ := ih hl (ids ++ new₁)
      refine ⟨new₁ ++ new₂, ?_, ?_⟩
      · rw [List.foldlM_cons, Tokenizer.append]
        simp only [tokenizer] at h₂ ⊢
        rw [h₁, ← List.append_assoc, ← h₂]
        rfl
      · simp only [List.map_append, List.flatten_append, List.map_cons, List.flatten_cons,
          ht₁, ht₂, Tokenizer.Cut.text]
    | special id =>
      obtain ⟨new, hnew, ht⟩ := ih hl (ids ++ [id])
      refine ⟨id :: new, ?_, ?_⟩
      · rw [List.foldlM_cons, Tokenizer.append, show ids ++ id :: new = ids ++ [id] ++ new by simp,
          ← hnew]
        rfl
      · simp only [List.map_cons, List.flatten_cons, ht, Tokenizer.Cut.text, tokenizer]

theorem foldlM_pastEnd {pad : List UInt8} (hpad : pad.length ≤ 1) (l : List Tokenizer.Cut)
    (h : ∃ p, .piece p ∈ l ∧ ¬ V.Free pad p) (ids : List ℤ) :
    l.foldlM ((V.tokenizer specialTokens prefixTokens).append pad) ids = .error .pastEnd := by
  induction l generalizing ids with
  | nil => exact absurd h (by simp)
  | cons c l ih =>
    obtain ⟨p, hp, hfree⟩ := h
    have hl : .piece p ∈ l → ∃ p, .piece p ∈ l ∧ ¬ V.Free pad p := fun hp => ⟨p, hp, hfree⟩
    cases c with
    | piece q =>
      rw [List.foldlM_cons, Tokenizer.append]
      by_cases hq : V.Free pad q
      · obtain ⟨new, hnew, -⟩ := V.encode_piece hpad hq ids
        have hpl : .piece p ∈ l := (List.mem_cons.1 hp).resolve_left fun he => by
          cases he
          exact hfree hq
        simp only [tokenizer] at ih ⊢
        rw [hnew]
        exact ih (hl hpl) _
      · simp only [tokenizer]
        rw [V.encode_piece_pastEnd hpad hq]
        rfl
    | special id =>
      rw [List.foldlM_cons, Tokenizer.append]
      exact ih (hl ((List.mem_cons.1 hp).resolve_left (by simp))) _

/-- Encoding the text ends, reads nothing beyond `pad`, gives the configured prefix followed by ids
whose words make up the text, and every search finds the longest entry there is. -/
def Lossless (pad text : List UInt8) : Prop :=
  (∃ ids, (V.tokenizer specialTokens prefixTokens).encode pad text = .ok (prefixTokens ++ ids) ∧
    (ids.map V.tiktoken.decode).flatten = text) ∧
  ∀ p ∈ (V.tokenizer specialTokens prefixTokens).pieces text,
    ∀ r, Boundary V.words p r → r ≠ [] → ∃ e id, IsLongestPrefix V.words r e ∧
      V.tiktoken.encoder.find (r ++ pad) pad = some (id, r.drop e.length ++ pad) ∧
      V.tiktoken.decode id = e

theorem mem_pieces {K : Tokenizer} {text p : List UInt8} :
    p ∈ K.pieces text ↔ .piece p ∈ K.cuts text := by
  simp only [Tokenizer.pieces, List.mem_filterMap]
  constructor
  · rintro ⟨c, hc, heq⟩
    cases c with
    | piece q => cases heq; exact hc
    | special id => exact nomatch heq
  · exact fun h => ⟨_, h, rfl⟩

theorem lossless_iff_free {pad : List UInt8} (hpad : pad.length ≤ 1) (text : List UInt8) :
    V.Lossless specialTokens prefixTokens pad text ↔
      ∀ p ∈ (V.tokenizer specialTokens prefixTokens).pieces text, V.Free pad p := by
  set K := V.tokenizer specialTokens prefixTokens with hK
  constructor
  · rintro ⟨⟨ids, hids, -⟩, -⟩ p hp
    by_contra hfree
    rw [K.encode_eq,
      V.foldlM_pastEnd _ _ hpad _ ⟨p, mem_pieces.1 hp, hfree⟩] at hids
    exact nomatch hids
  · intro h
    refine ⟨?_, fun p hp r hb hr => ?_⟩
    · obtain ⟨new, hnew, htext⟩ := V.foldlM_ok specialTokens prefixTokens hpad (K.cuts text)
        (fun p hp => h p (mem_pieces.2 hp)) prefixTokens
      exact ⟨new, by rw [K.encode_eq]; exact hnew, by rw [htext]; exact K.cuts_text text⟩
    · obtain ⟨e, he⟩ := V.exists_longest hr
      exact ⟨e, _, he, V.find_longest hpad hr (h p hp r hb hr) he, V.decode_firstId he.1⟩

/-- **A text is encoded without loss, with the terminator of each piece still readable, if and only
if no search of its greedy segmentation starts at bytes that together with a following NUL begin an
entry; and without reading the terminators either, only if there is nothing between its special
tokens.** -/
theorem encode_lossless_iff (text : List UInt8) :
    (V.Lossless specialTokens prefixTokens [0] text ↔
      ∀ p ∈ (V.tokenizer specialTokens prefixTokens).pieces text,
        ∀ r, Boundary V.words p r → r ≠ [] → ¬ ∃ e ∈ V.tokens, r ++ [0] <+: e) ∧
    (V.Lossless specialTokens prefixTokens [] text ↔
      ∀ p ∈ (V.tokenizer specialTokens prefixTokens).pieces text, p = []) := by
  refine ⟨V.lossless_iff_free _ _ (by simp) text, ?_⟩
  rw [V.lossless_iff_free _ _ (by simp) text]
  refine forall₂_congr fun p _ => ⟨fun hfree => ?_, ?_⟩
  · by_contra hp
    obtain ⟨r, hb, hr, hst⟩ := V.exists_boundary_entry hp
    exact hfree r hb hr hst
  · rintro rfl r hb hr
    exact absurd (List.suffix_nil.1 hb.isSuffix) hr

/-- The single bytes and the two-byte entry `a` NUL. -/
def withNul : Vocabulary where
  tokens := [97, 0] :: (List.range 256).map fun n => [UInt8.ofNat n]
  ne_nil e he := by
    rcases List.mem_cons.1 he with rfl | he
    · simp
    · obtain ⟨n, -, rfl⟩ := List.mem_map.1 he
      simp
  bytes b := List.mem_cons_of_mem _
    (List.mem_map.2 ⟨b.toNat, List.mem_range.2 b.toNat_lt, by simp⟩)

/-- With that entry in the vocabulary the text `a` is read beyond its end. -/
theorem encode_nul_not_lossless :
    ¬ ∀ (V : Vocabulary) (specialTokens prefixTokens : List ℤ) (text : List UInt8),
      V.Lossless specialTokens prefixTokens [0] text := by
  intro h
  have hfree := (withNul.lossless_iff_free [] [] (by simp) [97]).1 (h withNul [] [] [97])
  have hp : [97] ∈ (withNul.tokenizer [] []).pieces [97] := by
    simp [Tokenizer.pieces, Tokenizer.cuts, tokenizer]
  exact hfree [97] hp [97] .start (by simp) ⟨[97, 0], List.mem_cons_self, List.prefix_refl _⟩

end Vocabulary

end Mnn
