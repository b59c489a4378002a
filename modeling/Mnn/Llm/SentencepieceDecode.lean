import Mnn.Lib.Replace
import Mnn.Llm.SentencepieceBpe

/-!
# Spaces of the Sentencepiece tokenizer

`Sentencepiece::decode` replaces a part of the piece by a space: from the first marker `U+2581` on,
as many bytes as stand before the marker and three more.

* `Vocab.decode`, `encode`: the code;
* `AtEdge`: the piece has no marker, or one only, at its beginning or its end;
* `replaceAt_eq_iff`: **what is decoded is the piece with spaces for markers exactly then**;
* `Known`, `decodeAll_encode`: the ids of a text give the text with spaces for markers;
* `decodes_iff`: both.
-/

namespace Mnn.Sentencepiece

open Lib Replace GreedyMerge

/-! ### Decoding -/

/-- The bytes of `U+2581`. -/
def marker : List UInt8 := [0xE2, 0x96, 0x81]

/-- `piece.replace(pos, pos + 3, " ")`.  The sum may overflow, and a negative position is beyond the
end of the piece. -/
def replaceAt (piece : List UInt8) (pos : ℤ) : Option (List UInt8) :=
  if 2 ^ 31 ≤ pos + 3 ∨ pos < 0 then none
  else some (piece.take pos.toNat ++ 32 :: piece.drop (pos.toNat + (pos.toNat + 3)))

/-- `piece.find("▁")`, as an `int`. -/
def findMarker (piece : List UInt8) : ℤ :=
  match find marker piece with
  | some k => Int.bmod k (2 ^ 32)
  | none => -1

/-- `Sentencepiece::decode`. -/
def Vocab.decode {K : Type} (v : Vocab K) (id : ℕ) : Option (List UInt8) := do
  let p ← v.sentencePieces[id]?
  if findMarker p.piece ≠ -1 then replaceAt p.piece (findMarker p.piece) else some p.piece

/-- Spaces for markers. -/
def withSpaces (text : List UInt8) : List UInt8 := replaceAll marker 32 text

/-- The first marker is the only one, at the beginning or at the end. -/
def AtEdge (piece : List UInt8) : Prop :=
  ∀ k, find marker piece = some k →
    (k = 0 ∧ find marker (piece.drop 3) = none) ∨ (piece.length = k + 3 ∧ piece.length < 2 ^ 31)

theorem marker_ne_nil : marker ≠ [] := List.cons_ne_nil _ _

/-- A space does not take the place of the last byte of a marker. -/
theorem append_space_ne (u v w : List UInt8) : u ++ (marker ++ w) ≠ v ++ 32 :: w := by
  intro h
  have hlast := List.append_cancel_right
    (show (u ++ marker) ++ w = (v ++ [32]) ++ w by simpa using h)
  have hbyte := congrArg List.getLast? hlast
  rw [List.getLast?_concat, marker, List.getLast?_append] at hbyte
  cases hbyte

section ReplaceAt

variable {piece : List UInt8} {k : ℕ}

/-- The first marker has an `int` as its position. -/
theorem replaceAt_eq_of_lt (hk : find marker piece = some k) (hlt : k + 3 < 2 ^ 31) :
    replaceAt piece k = some (withSpaces piece) ↔
      (k = 0 ∧ find marker (piece.drop 3) = none) ∨ piece.length = k + 3 := by
  have hspaces : withSpaces piece = piece.take k ++ 32 :: withSpaces (piece.drop (k + 3)) :=
    replaceAll_of_find marker_ne_nil hk
  have hlen : piece.length = k + 3 + (piece.drop (k + 3)).length := by
    have hle : k + 3 ≤ piece.length := add_length_le_of_find hk
    rw [List.length_drop, Nat.add_sub_cancel' hle]
  have hdrop : piece.drop (k + (k + 3)) = (piece.drop (k + 3)).drop k := by
    rw [List.drop_drop]
    congr 1
    omega
  rw [replaceAt, if_neg (by omega), Int.toNat_natCast, hspaces, hdrop, Option.some.injEq,
    List.append_cancel_left_eq, List.cons.injEq, hlen]
  generalize hrest : piece.drop (k + 3) = rest
  constructor
  · rintro ⟨-, h⟩
    by_cases hnone : find marker rest = none
    · rw [withSpaces, replaceAll_of_none hnone] at h
      have hlen := congrArg List.length h
      rw [List.length_drop] at hlen
      rcases Nat.eq_zero_or_pos k with rfl | hpos
      · exact .inl ⟨rfl, hrest ▸ hnone⟩
      · exact .inr (by omega)
    · -- the last marker of the rest would have to end with a space
      obtain ⟨u, v, w, hu, hv⟩ := exists_last (x := 32) marker_ne_nil hnone
      rw [withSpaces, hv] at h
      refine absurd ?_ (append_space_ne u (rest.take k ++ v) w)
      rw [← hu, List.append_assoc, ← h, List.take_append_drop]
  · rintro (⟨rfl, hnone⟩ | h)
    · rw [Nat.zero_add] at hrest
      rw [hrest] at hnone
      exact ⟨rfl, (replaceAll_of_none hnone).symm⟩
    · obtain rfl : rest = [] := List.length_eq_zero_iff.1 (by omega)
      exact ⟨rfl, by rw [List.drop_nil, withSpaces, replaceAll_nil]⟩

/-- A position that has wrapped around is before the marker, which is still there afterwards. -/
theorem replaceAt_ne_of_lt {j : ℕ} (hk : find marker piece = some k) (hlt : j + (j + 3) ≤ k) :
    replaceAt piece j ≠ some (withSpaces piece) := by
  intro h
  rw [replaceAt] at h
  split_ifs at h with hover
  have heq := Option.some.inj h
  rw [Int.toNat_natCast] at heq
  have hdrop : piece.drop (j + (j + 3)) =
      (piece.take k).drop (j + (j + 3)) ++ (marker ++ piece.drop (k + marker.length)) := by
    have hle := add_length_le_of_find hk
    conv_lhs => rw [eq_of_find hk]
    rw [List.drop_append_of_le_length (by rw [List.length_take]; omega)]
  have hnone : find marker (withSpaces piece) = none :=
    find_replaceAll marker_ne_nil (by decide) piece
  rw [← heq, hdrop, List.append_cons, ← List.append_assoc] at hnone
  exact find_append_pat_ne_none marker_ne_nil _ _ hnone

/-- **Main lemma.**  The bytes that are replaced are the marker only at an edge. -/
theorem replaceAt_eq_iff (piece : List UInt8) :
    (if findMarker piece ≠ -1 then replaceAt piece (findMarker piece) else some piece) =
      some (withSpaces piece) ↔ AtEdge piece := by
  cases hk : find marker piece with
  | none =>
    have hfind : findMarker piece = -1 := by rw [findMarker, hk]
    rw [hfind, if_neg (not_not.2 rfl), withSpaces, replaceAll_of_none hk]
    refine ⟨fun _ k hsome => ?_, fun _ => rfl⟩
    rw [hk] at hsome
    cases hsome
  | some k =>
    have hle : k + 3 ≤ piece.length := add_length_le_of_find hk
    have hfind : findMarker piece = Int.bmod k (2 ^ 32) := by rw [findMarker, hk]
    have hedge : AtEdge piece ↔ (k = 0 ∧ find marker (piece.drop 3) = none) ∨
        (piece.length = k + 3 ∧ piece.length < 2 ^ 31) := by
      unfold AtEdge
      rw [hk]
      exact ⟨fun h => h k rfl, fun h k' hk' => Option.some.inj hk' ▸ h⟩
    rw [hedge, hfind]
    rcases Nat.lt_or_ge (k + 3) (2 ^ 31) with hlt | hge
    · have hpos : Int.bmod k (2 ^ 32) = k := by
        rw [Int.bmod_def]
        omega
      rw [hpos, if_pos (by omega), replaceAt_eq_of_lt hk hlt]
      refine or_congr_right ⟨fun h => ⟨h, h ▸ hlt⟩, And.left⟩
    · -- the position is no `int`
      refine iff_of_false (fun h => ?_) (by omega)
      by_cases hnpos : Int.bmod k (2 ^ 32) = -1
      · rw [hnpos, if_neg (not_not.2 rfl), Option.some.injEq] at h
        have hnone : find marker (withSpaces piece) = none :=
          find_replaceAll marker_ne_nil (by decide) piece
        rw [← h, hk] at hnone
        cases hnone
      · rw [if_pos hnpos] at h
        have hbounds : Int.bmod k (2 ^ 32) + 3 < 2 ^ 31 ∧ 0 ≤ Int.bmod k (2 ^ 32) := by
          by_contra hnot
          rw [replaceAt, if_pos (by omega)] at h
          cases h
        obtain ⟨j, hj⟩ := Int.eq_ofNat_of_zero_le hbounds.2
        rw [hj] at h hbounds
        rw [Int.bmod_def] at hj
        exact replaceAt_ne_of_lt hk (by omega) h

end ReplaceAt

/-! ### Encoding -/

/-- `byte_to_piece`: two hexadecimal digits. -/
def byteToPiece (b : UInt8) : List UInt8 :=
  let digit (d : ℕ) : UInt8 := UInt8.ofNat (if d < 10 then 48 + d else 55 + d)
  [60, 48, 120, digit (b.toNat / 16), digit (b.toNat % 16), 62]

example : byteToPiece 0xE4 = [60, 48, 120, 69, 52, 62] := by decide

section Encode

variable {K : Type} [LinearOrder K] (agenda : HeapOps (SymbolPair K) SymbolPair.Before)
  (v : Vocab K) (input : List UInt8)

/-- The ids of a piece: one that is unknown is taken apart into bytes. -/
def pieceIds (p : StringView × ℕ) : Option (List ℕ) :=
  if p.2 = v.unkId then
    (p.1.toString input).map fun text => text.map fun b => v.pieceToId (byteToPiece b)
  else some [p.2]

/-- `Sentencepiece::encode`, with at most `fuel` passes of each loop. -/
def encode (fuel : ℕ) : Option (List ℕ) := do
  let result ← bpeEncode agenda v input fuel
  return (← result.mapM (pieceIds v input)).flatten

/-- What is decoded, id by id. -/
def decodeAll (ids : List ℕ) : Option (List UInt8) := (ids.mapM v.decode).map List.flatten

/-- The first byte is not inside of a character. -/
def StartsCharacter (t : List UInt8) : Prop := ∃ b r, t = b :: r ∧ ¬ (0x80 ≤ b ∧ b < 0xC0)

/-- All pieces of a text are known and have their marker at an edge. -/
def Known : Prop :=
  (∀ c ∈ chars input.length input, StartsCharacter c) ∧
    ∀ tokens, Merges (pieceKey v) (chars input.length input) tokens →
      ∀ t ∈ tokens, v.pieceToId t ≠ v.unkId ∧ AtEdge t

variable {agenda v input}

/-- No marker lies across two pieces. -/
theorem withSpaces_flatten {tokens : List (List UInt8)} (h : ∀ t ∈ tokens, StartsCharacter t) :
    withSpaces tokens.flatten = (tokens.map withSpaces).flatten := by
  induction tokens with
  | nil => exact replaceAll_nil
  | cons t tokens ih =>
    rw [List.forall_mem_cons] at h
    rw [List.map_cons, List.flatten_cons, List.flatten_cons, ← ih h.2]
    refine replaceAll_append t tokens.flatten fun p q hp hq heq _ hprefix => ?_
    cases tokens with
    | nil => exact hq (List.prefix_nil.1 hprefix)
    | cons t' tokens =>
      obtain ⟨b, r, rfl, hb⟩ := h.2 t' List.mem_cons_self
      obtain ⟨c, q, rfl⟩ := List.exists_cons_of_ne_nil hq
      rw [List.flatten_cons, List.cons_append, List.cons_prefix_cons] at hprefix
      obtain ⟨rfl, -⟩ := hprefix
      have hmem : c ∈ marker.tail := by
        obtain ⟨d, p, rfl⟩ := List.exists_cons_of_ne_nil hp
        rw [heq, List.cons_append, List.tail_cons]
        exact List.mem_append_right p List.mem_cons_self
      have hbyte : c = 0x96 ∨ c = 0x81 := by
        rw [marker, List.tail_cons, List.mem_cons, List.mem_singleton] at hmem
        exact hmem
      rcases hbyte with rfl | rfl
      · exact hb (by decide)
      · exact hb (by decide)

/-- **The ids of a text whose pieces are known.** -/
theorem decodeAll_encode {lines : List (SentencePiece K)} (hne : lines ≠ [])
    (hlt : input.length < 2 ^ 31) (hknown : Known (loadVocab lines) input) :
    ∃ fuel ids, (∀ more, encode agenda (loadVocab lines) input (fuel + more) = some ids) ∧
      decodeAll (loadVocab lines) ids = some (withSpaces input) := by
  obtain ⟨hv, hlines⟩ := good_loadVocab lines
  generalize loadVocab lines = v at *
  have hencodes : Encodes agenda v input := by
    by_cases hinput : input = []
    · rw [hinput]
      exact encodes_nil v
    · exact encodes_of_lt hv (hlines.symm ▸ hne) hinput hlt
  obtain ⟨⟨fuel, result, tokens, hresult, -, hids, hmerges, hflat⟩, -⟩ := hencodes
  have htokens := hknown.2 tokens hmerges
  have hstarts := hmerges.forall_mem (P := StartsCharacter)
    (fun a b ⟨c, r, heq, hc⟩ => ⟨c, r ++ b, by rw [heq, List.cons_append], hc⟩) hknown.1
  refine ⟨fuel, result.map Prod.snd, fun more => ?_, ?_⟩
  · have hpieces : ∀ p ∈ result, pieceIds v input p = some [p.2] := fun p hp => by
      have hmem := List.mem_map_of_mem (f := Prod.snd) hp
      rw [hids] at hmem
      obtain ⟨t, ht, heq⟩ := List.mem_map.1 hmem
      exact if_neg (heq ▸ (htokens t ht).1)
    have hmapM := mapM_eq_some hpieces
    have hflatten : (result.map fun p => [p.2]).flatten = result.map Prod.snd :=
      (List.map_eq_flatMap.trans List.flatMap_def).symm
    simp only [encode, hresult, hmapM, Option.bind_eq_bind, Option.bind_some, Option.pure_def,
      hflatten]
  · have hdecode : ∀ t ∈ tokens, v.decode (v.pieceToId t) = some (withSpaces t) := fun t ht => by
      obtain ⟨p, hp, rfl⟩ := hv.piece_of_ne (htokens t ht).1
      rw [Vocab.decode, hp]
      exact (replaceAt_eq_iff p.piece).2 (htokens _ ht).2
    have hmapM : (tokens.map v.pieceToId).mapM v.decode = some (tokens.map withSpaces) := by
      rw [List.mapM_map]
      exact mapM_eq_some hdecode
    rw [decodeAll, hids, hmapM, Option.map_some, ← hflat, withSpaces_flatten hstarts]

variable (agenda) in
/-- **Main theorem.**  An id is decoded to its piece with spaces for markers exactly when the piece
has its marker at an edge.  The ids of a text whose pieces are known and are such pieces are decoded
to the text with spaces for markers. -/
theorem decodes_iff (lines : List (SentencePiece K)) :
    (∀ id p, lines[id]? = some p →
      ((loadVocab lines).decode id = some (withSpaces p.piece) ↔ AtEdge p.piece)) ∧
    ∀ input, lines ≠ [] → input.length < 2 ^ 31 → Known (loadVocab lines) input →
      ∃ fuel ids, (∀ more, encode agenda (loadVocab lines) input (fuel + more) = some ids) ∧
        decodeAll (loadVocab lines) ids = some (withSpaces input) := by
  refine ⟨fun id p hp => ?_, fun input => decodeAll_encode⟩
  rw [← (good_loadVocab lines).2] at hp
  simp only [Vocab.decode, hp, Option.bind_eq_bind, Option.bind_some]
  exact replaceAt_eq_iff p.piece

theorem decodes_iff_marker :
    ∃ fuel ids, (∀ more, encode (listHeap SymbolPair.Before)
        (loadVocab ([⟨[63], 0, .unknown⟩, ⟨marker, 0, .normal⟩] : List (SentencePiece ℤ)))
        marker (fuel + more) = some ids) ∧
      decodeAll (loadVocab ([⟨[63], 0, .unknown⟩, ⟨marker, 0, .normal⟩] : List (SentencePiece ℤ)))
        ids = some (withSpaces marker) := by
  refine (decodes_iff _ _).2 marker (List.cons_ne_nil _ _) (by decide) ⟨?_, ?_⟩
  · rintro c hc
    obtain rfl : c = marker := List.mem_singleton.1 hc
    exact ⟨0xE2, [0x96, 0x81], rfl, by decide⟩
  · rintro tokens hmerges t ht
    obtain rfl : tokens = [marker] := hmerges.unique (.stop rfl)
    obtain rfl : t = marker := List.mem_singleton.1 ht
    refine ⟨by decide, fun k hk => .inl ⟨?_, by decide⟩⟩
    exact (Option.some.inj (show some 0 = some k from hk)).symm

/-- A marker between two letters takes the second one with it. -/
theorem decode_letters_ne :
    (loadVocab [⟨[97, 0xE2, 0x96, 0x81, 98], 0, .normal⟩] : Vocab ℤ).decode 0 ≠
      some (withSpaces [97, 0xE2, 0x96, 0x81, 98]) := by
  have hdecode : (loadVocab [⟨[97, 0xE2, 0x96, 0x81, 98], 0, .normal⟩] : Vocab ℤ).decode 0 =
      some [97, 32] := by decide
  have hspaces : withSpaces [97, 0xE2, 0x96, 0x81, 98] = [97, 32, 98] := by
    simp [withSpaces, marker, replaceAll]
  rw [hdecode, hspaces]
  decide

end Encode

end Mnn.Sentencepiece
