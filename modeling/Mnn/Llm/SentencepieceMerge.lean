import Mnn.Lib.Linked
import Mnn.Llm.Sentencepiece

/-!
# Merges of the Sentencepiece tokenizer

The agenda is not updated when symbols change: an entry that is out of date stays in it until it is
popped, and the sizes and the emptiness of its two symbols tell.

* `Vocab.Good`, `good_loadVocab`: the maps give indices of pieces;
* `Tiles`, `Live`: the symbols that are not empty, linked in order, cover the text;
* `Entry`: what stays true of an entry whatever is merged; `Live.fresh`: **an entry that the tests let
  through is a pair of neighbours**;
* `Holds`: every pair of neighbours that has a score is in the agenda; `Holds.pass`: **a pass drops
  an entry, or joins the best pair**;
* `Holds.mergeLoop`: the main loop ends with the result of the reference.
-/

namespace Mnn.Sentencepiece

open Lib GreedyMerge

/-! ### The vocabulary -/

/-- The maps give indices of pieces, and those for merging are normal. -/
structure Vocab.Good {K : Type} (v : Vocab K) : Prop where
  pieces : ∀ t id, v.pieces t = some id →
    ∃ p, v.sentencePieces[id]? = some p ∧ p.type = .normal ∧ p.piece = t
  reserved : ∀ t id, v.reservedIdMap t = some id →
    ∃ p, v.sentencePieces[id]? = some p ∧ p.piece = t
  unk : v.sentencePieces ≠ [] → v.unkId < v.sentencePieces.length

theorem insertNew_eq_some {m : List UInt8 → Option ℕ} {key t : List UInt8} {id i : ℕ}
    (h : insertNew m key id t = some i) : m t = some i ∨ t = key ∧ i = id := by
  unfold insertNew at h
  split_ifs at h with hkey
  · cases hm : m t with
    | none =>
      rw [hm] at h
      exact .inr ⟨hkey, (Option.some.inj h).symm⟩
    | some x =>
      rw [hm] at h
      exact .inl h
  · exact .inl h

theorem loadPiece_good {K : Type} {v : Vocab K} {p : SentencePiece K} {i : ℕ} (hv : v.Good)
    (hp : v.sentencePieces[i]? = some p) : (loadPiece v (p, i)).Good := by
  have hi : i < v.sentencePieces.length := (List.getElem?_eq_some_iff.1 hp).1
  by_cases hnormal : p.type = .normal
  · rw [loadPiece, if_pos hnormal]
    refine ⟨fun t id h => ?_, hv.reserved, hv.unk⟩
    rcases insertNew_eq_some h with h | ⟨rfl, rfl⟩
    · exact hv.pieces t id h
    · exact ⟨p, hp, hnormal, rfl⟩
  · rw [loadPiece, if_neg hnormal]
    refine ⟨hv.pieces, fun t id h => ?_, fun hne => ?_⟩
    · rcases insertNew_eq_some h with h | ⟨rfl, rfl⟩
      · exact hv.reserved t id h
      · exact ⟨p, hp, rfl⟩
    · show (if p.type = .unknown then i else v.unkId) < v.sentencePieces.length
      split_ifs
      · exact hi
      · exact hv.unk hne

theorem sentencePieces_loadPiece {K : Type} (v : Vocab K) (line : SentencePiece K × ℕ) :
    (loadPiece v line).sentencePieces = v.sentencePieces := by
  unfold loadPiece
  split_ifs <;> rfl

/-- **Loading.** -/
theorem good_loadVocab {K : Type} (lines : List (SentencePiece K)) :
    (loadVocab lines).Good ∧ (loadVocab lines).sentencePieces = lines := by
  have hfold : ∀ (l : List (SentencePiece K × ℕ)) (v : Vocab K), v.Good →
      v.sentencePieces = lines → (∀ x ∈ l, lines[x.2]? = some x.1) →
        (l.foldl loadPiece v).Good ∧ (l.foldl loadPiece v).sentencePieces = lines := by
    intro l
    induction l with
    | nil => exact fun v hv hlines _ => ⟨hv, hlines⟩
    | cons x l ih =>
      intro v hv hlines hl
      rw [List.forall_mem_cons] at hl
      exact ih _ (loadPiece_good hv (hlines ▸ hl.1))
        ((sentencePieces_loadPiece v x).trans hlines) hl.2
  have hempty : ({ sentencePieces := lines } : Vocab K).Good :=
    ⟨fun _ _ h => (Option.some_ne_none _ h.symm).elim,
      fun _ _ h => (Option.some_ne_none _ h.symm).elim, List.length_pos_iff.2⟩
  exact hfold _ _ hempty rfl fun x hx => List.mem_zipIdx_iff_getElem?.1 hx

namespace Vocab

variable {K : Type} {v : Vocab K}

theorem Good.isUnused_pieces (hv : v.Good) {t : List UInt8} {id : ℕ} (h : v.pieces t = some id) :
    v.isUnused id = some false := by
  obtain ⟨p, hp, htype, -⟩ := hv.pieces t id h
  rw [isUnused, hp, Option.map_some, htype]
  rfl

theorem Good.exists_score (hv : v.Good) {t : List UInt8} {id : ℕ} (h : v.pieces t = some id) :
    ∃ score, v.getScore id = some score := by
  obtain ⟨p, hp, -⟩ := hv.pieces t id h
  exact ⟨p.score, by rw [getScore, hp, Option.map_some]⟩

theorem Good.pieceToId_lt (hv : v.Good) (hne : v.sentencePieces ≠ []) (t : List UInt8) :
    v.pieceToId t < v.sentencePieces.length := by
  unfold pieceToId
  split
  · next id h =>
    obtain ⟨p, hp, -⟩ := hv.reserved t id h
    exact (List.getElem?_eq_some_iff.1 hp).1
  · split
    · next id h =>
      obtain ⟨p, hp, -⟩ := hv.pieces t id h
      exact (List.getElem?_eq_some_iff.1 hp).1
    · exact hv.unk hne

/-- A text that is not unknown is the piece of its id. -/
theorem Good.piece_of_ne (hv : v.Good) {t : List UInt8} (h : v.pieceToId t ≠ v.unkId) :
    ∃ p, v.sentencePieces[v.pieceToId t]? = some p ∧ p.piece = t := by
  unfold pieceToId at h ⊢
  split
  · next id hid => exact hv.reserved t id hid
  · next hnone =>
    rw [hnone] at h
    split
    · next id hid =>
      obtain ⟨p, hp, -, ht⟩ := hv.pieces t id hid
      exact ⟨p, hp, ht⟩
    · next hnone' =>
      rw [hnone'] at h
      exact absurd rfl h

end Vocab

/-! ### Symbols -/

/-- The part of a text that a view shows. -/
def StringView.text (input : List UInt8) (w : StringView) : List UInt8 :=
  (input.drop w.data).take w.size

/-- The piece of a symbol; there is none behind the last one. -/
def view (symbols : List Symbol) (i : ℕ) : StringView :=
  (symbols[i]?.map Symbol.piece).getD ⟨0, 0⟩

def prevOf (symbols : List Symbol) (i : ℕ) : Option ℕ := symbols[i]?.bind Symbol.prev

def nextOf (symbols : List Symbol) (i : ℕ) : Option ℕ := symbols[i]?.bind Symbol.next

/-- The pieces of some symbols follow each other, from `a` to `b`; none is empty. -/
def Tiles (symbols : List Symbol) : ℕ → List ℕ → ℕ → Prop
  | a, [], b => a = b
  | a, i :: l, b =>
    (view symbols i).data = a ∧ 0 < (view symbols i).size ∧
      Tiles symbols (a + (view symbols i).size) l b

/-- The symbols that are not empty. -/
structure Live (input : List UInt8) (origin : ℕ → ℕ) (symbols : List Symbol) (live : List ℕ) :
    Prop where
  links : Seg (prevOf symbols) (nextOf symbols) none live none
  sorted : live.Pairwise (· < ·)
  head : live.head? = some 0
  tiles : Tiles symbols 0 live input.length
  data : ∀ i ∈ live, (view symbols i).data = origin i
  dead : ∀ i, i ∉ live → (view symbols i).size = 0
  freeze : ∀ x ∈ symbols, x.freeze = false

variable {K : Type} {v : Vocab K} {input : List UInt8} {origin : ℕ → ℕ}
  {symbols symbols' : List Symbol} {live u w : List ℕ} {i j a b m : ℕ} {l r : Symbol}

theorem view_eq (h : symbols[i]? = some l) : view symbols i = l.piece := by
  rw [view, h]
  rfl

theorem exists_symbol (h : 0 < (view symbols i).size) : ∃ x, symbols[i]? = some x := by
  cases hx : symbols[i]? with
  | none =>
    rw [view, hx] at h
    exact absurd h (lt_irrefl 0)
  | some x => exact ⟨x, rfl⟩

theorem tiles_append :
    Tiles symbols a (u ++ w) b ↔ ∃ m, Tiles symbols a u m ∧ Tiles symbols m w b := by
  induction u generalizing a with
  | nil =>
    constructor
    · exact fun h => ⟨a, rfl, h⟩
    · rintro ⟨m, rfl, h⟩
      exact h
  | cons i u ih =>
    constructor
    · rintro ⟨hdata, hsize, hrest⟩
      obtain ⟨m, hu, hw⟩ := ih.1 hrest
      exact ⟨m, ⟨hdata, hsize, hu⟩, hw⟩
    · rintro ⟨m, ⟨hdata, hsize, hu⟩, hw⟩
      exact ⟨hdata, hsize, ih.2 ⟨m, hu, hw⟩⟩

theorem Tiles.congr (h : Tiles symbols a u b) (heq : ∀ i ∈ u, view symbols' i = view symbols i) :
    Tiles symbols' a u b := by
  induction u generalizing a with
  | nil => exact h
  | cons i u ih =>
    obtain ⟨hdata, hsize, hrest⟩ := h
    rw [List.forall_mem_cons] at heq
    refine ⟨heq.1 ▸ hdata, heq.1 ▸ hsize, ?_⟩
    rw [heq.1]
    exact ih hrest heq.2

theorem Tiles.le (h : Tiles symbols a u b) : a ≤ b := by
  induction u generalizing a with
  | nil => exact h.le
  | cons i u ih => exact (Nat.le_add_right _ _).trans (ih h.2.2)

/-- What lies inside: every symbol begins at `a` or later, and ends by `b`. -/
theorem Tiles.bounds (h : Tiles symbols a u b) (hi : i ∈ u) :
    a ≤ (view symbols i).data ∧ 0 < (view symbols i).size ∧
      (view symbols i).data + (view symbols i).size ≤ b := by
  obtain ⟨u₁, u₂, rfl⟩ := List.append_of_mem hi
  obtain ⟨m, h₁, hdata, hsize, h₂⟩ := tiles_append.1 h
  exact ⟨hdata ▸ h₁.le, hsize, hdata ▸ h₂.le⟩

theorem Live.pos (h : Live input origin symbols live) (hi : i ∈ live) :
    0 < (view symbols i).size := (h.tiles.bounds hi).2.1

theorem Live.mem_iff (h : Live input origin symbols live) :
    i ∈ live ↔ 0 < (view symbols i).size :=
  ⟨h.pos, fun hpos => by
    by_contra hnot
    exact absurd (h.dead i hnot) hpos.ne'⟩

/-- Two neighbours. -/
theorem Live.neighbours (h : Live input origin symbols (u ++ i :: j :: w)) :
    (view symbols i).data + (view symbols i).size = (view symbols j).data ∧
      nextOf symbols i = some j ∧ prevOf symbols j = some i := by
  obtain ⟨m, -, hi, -, hj, -⟩ := tiles_append.1 h.tiles
  have hnext := h.links.neighbours.2
  have hlinks := h.links
  rw [List.append_cons] at hlinks
  have hprev := hlinks.neighbours.1
  rw [List.getLast?_concat] at hprev
  exact ⟨hi ▸ hj.symm, hnext, hprev⟩

/-- The text of two pieces that follow each other. -/
theorem text_append {x y : StringView} (h : x.data + x.size = y.data) :
    StringView.text input ⟨x.data, x.size + y.size⟩ = x.text input ++ y.text input := by
  rw [StringView.text, StringView.text, StringView.text, List.take_add, List.drop_drop, h]

/-! ### The symbols after a merge -/

theorem getElem?_mergeSymbols (symbols : List Symbol) (i j : ℕ) (l r : Symbol) (k : ℕ) :
    (mergeSymbols symbols i j l r)[k]? = symbols[k]?.map fun x =>
      { prev := if r.next = some k then some i else x.prev
        next := if k = i then r.next else x.next
        freeze := x.freeze
        piece := if k = j then ⟨0, 0⟩
          else if k = i then ⟨l.piece.data, l.piece.size + r.piece.size⟩ else x.piece } := by
  unfold mergeSymbols
  cases hnext : r.next with
  | none =>
    simp only [List.getElem?_modify, Option.map_eq_map, Option.map_map, reduceCtorEq, if_false]
    congr 1
    funext x
    simp only [Function.comp_apply, eq_comm (a := j), eq_comm (a := i)]
    split_ifs <;> rfl
  | some n =>
    simp only [List.getElem?_modify, Option.map_eq_map, Option.map_map, Option.some.injEq]
    congr 1
    funext x
    simp only [Function.comp_apply, eq_comm (a := j), eq_comm (a := i)]
    split_ifs <;> rfl

theorem view_mergeSymbols (hij : i ≠ j) (hl : symbols[i]? = some l) (k : ℕ) :
    view (mergeSymbols symbols i j l r) k =
      if k = j then ⟨0, 0⟩
      else if k = i then ⟨l.piece.data, l.piece.size + r.piece.size⟩ else view symbols k := by
  rw [view, getElem?_mergeSymbols, Option.map_map]
  by_cases hkj : k = j
  · simp only [hkj, if_true]
    cases symbols[j]? <;> rfl
  · by_cases hki : k = i
    · simp only [hki, hij, if_false, if_true, hl]
      rfl
    · simp only [hkj, hki, if_false]
      rfl

theorem nextOf_mergeSymbols (hl : symbols[i]? = some l) (k : ℕ) :
    nextOf (mergeSymbols symbols i j l r) k = if k = i then r.next else nextOf symbols k := by
  rw [nextOf, getElem?_mergeSymbols, Option.bind_map]
  by_cases hki : k = i
  · simp only [hki, if_true, hl]
    rfl
  · simp only [hki, if_false]
    rfl

theorem prevOf_mergeSymbols {x : Symbol} {k : ℕ} (hk : symbols[k]? = some x) :
    prevOf (mergeSymbols symbols i j l r) k =
      if r.next = some k then some i else prevOf symbols k := by
  rw [prevOf, getElem?_mergeSymbols, prevOf, hk]
  rfl

theorem length_mergeSymbols (symbols : List Symbol) (i j : ℕ) (l r : Symbol) :
    (mergeSymbols symbols i j l r).length = symbols.length := by
  unfold mergeSymbols
  cases r.next <;> simp only [List.length_modify]

/-- **Two neighbours are joined.** -/
theorem Live.merge (h : Live input origin symbols (u ++ i :: j :: w)) (hl : symbols[i]? = some l)
    (hr : symbols[j]? = some r) :
    Live input origin (mergeSymbols symbols i j l r) (u ++ i :: w) := by
  have hnodup : (u ++ i :: j :: w).Nodup := h.sorted.imp fun h => h.ne
  obtain ⟨hcontiguous, -, -⟩ := h.neighbours
  have hnext : r.next = w.head? := by
    have hlinks := h.links
    rw [List.append_cons] at hlinks
    have := hlinks.neighbours.2
    rwa [nextOf, hr] at this
  have hij : i ≠ j := by
    have hlt := (List.pairwise_cons.1 (List.pairwise_append.1 h.sorted).2.1).1 j (.head _)
    exact hlt.ne
  have hi : ∀ k ∈ u ++ w, k ≠ i := by
    rintro k hk rfl
    have := (List.nodup_middle.1 hnodup)
    exact (List.nodup_cons.1 this).1 (by simp at hk ⊢; tauto)
  have hj : ∀ k ∈ u ++ i :: w, k ≠ j := by
    rintro k hk rfl
    rw [List.append_cons] at hnodup
    exact (List.nodup_cons.1 (List.nodup_middle.1 hnodup)).1 (by simp at hk ⊢; tauto)
  have hsub : (u ++ i :: w).Sublist (u ++ i :: j :: w) :=
    (List.Sublist.refl u).append ((List.sublist_cons_self j w).cons_cons i)
  have hsymbol : ∀ k ∈ u ++ i :: w, ∃ x, symbols[k]? = some x := fun k hk =>
    exists_symbol (h.pos (hsub.subset hk))
  have hview : ∀ k ∈ u ++ w, view (mergeSymbols symbols i j l r) k = view symbols k := by
    intro k hk
    have hk' : k ∈ u ++ i :: w := by
      simp at hk ⊢
      tauto
    rw [view_mergeSymbols hij hl, if_neg (hj k hk'), if_neg (hi k hk)]
  have hjoined : view (mergeSymbols symbols i j l r) i =
      ⟨(view symbols i).data, (view symbols i).size + (view symbols j).size⟩ := by
    rw [view_mergeSymbols hij hl, if_neg hij, if_pos rfl, view_eq hl, view_eq hr]
  refine ⟨h.links.erase hnodup ?_ ?_ ?_ ?_, h.sorted.sublist hsub, ?_, ?_, fun k hk => ?_,
    fun k hk => ?_, fun x hx => ?_⟩
  · intro k hk
    obtain ⟨x, hx⟩ := hsymbol k (by simp at hk ⊢; tauto)
    rw [prevOf_mergeSymbols hx, hnext, if_neg]
    intro hhead
    have hk' : k ∈ w := List.mem_of_mem_head? hhead
    rw [List.append_cons] at hnodup
    exact (List.nodup_append.1 hnodup).2.2 k hk k (.tail j hk') rfl
  · intro k hk
    obtain ⟨x, hx⟩ := hsymbol k (by simp [hk])
    rw [prevOf_mergeSymbols hx, hnext]
  · exact fun k hk => (nextOf_mergeSymbols hl k).trans (if_neg (hi k hk))
  · exact (nextOf_mergeSymbols hl i).trans ((if_pos rfl).trans hnext)
  · have hhead := h.head
    cases u with
    | nil => exact hhead
    | cons x u => exact hhead
  · obtain ⟨m, hu, hdata, hsize, -, -, hw⟩ := tiles_append.1 h.tiles
    refine tiles_append.2 ⟨m, hu.congr fun k hk => hview k (List.mem_append_left w hk), ?_⟩
    unfold Tiles
    rw [hjoined]
    refine ⟨hdata, by dsimp only; omega, ?_⟩
    rw [Nat.add_assoc] at hw
    exact hw.congr fun k hk => hview k (List.mem_append_right u hk)
  · rcases List.mem_append.1 hk with hk' | hk'
    · rw [hview k (List.mem_append_left w hk')]
      exact h.data k (hsub.subset hk)
    · rcases List.mem_cons.1 hk' with rfl | hk'
      · rw [hjoined]
        exact h.data k (hsub.subset hk)
      · rw [hview k (List.mem_append_right u hk')]
        exact h.data k (hsub.subset hk)
  · rw [view_mergeSymbols hij hl]
    split_ifs with hkj hki
    · rfl
    · exact absurd (hki ▸ List.mem_append_right u (.head w)) hk
    · refine h.dead k fun hmem => hk ?_
      simp at hmem ⊢
      tauto
  · obtain ⟨k, hk⟩ := List.getElem?_of_mem hx
    rw [getElem?_mergeSymbols] at hk
    obtain ⟨y, hy, rfl⟩ := Option.map_eq_some_iff.1 hk
    exact h.freeze y (List.mem_of_getElem? hy)

/-! ### Entries of the agenda -/

/-- What stays true of an entry: the symbol on the left reaches that on the right, unless one of them
is empty, and the score is that of the text with the size of the entry. -/
structure Entry (v : Vocab K) (input : List UInt8) (origin : ℕ → ℕ) (symbols : List Symbol)
    (e : SymbolPair K) : Prop where
  lt : e.left < e.right
  right_lt : e.right < symbols.length
  reaches : 0 < (view symbols e.left).size →
    origin e.right ≤ origin e.left + (view symbols e.left).size
  score : (v.pieces (StringView.text input ⟨origin e.left, e.size⟩)).bind v.getScore = some e.score

variable {e : SymbolPair K}

theorem Entry.merge (h : Entry v input origin symbols e)
    (hij : i ≠ j) (hl : symbols[i]? = some l) (hsize : 0 < l.piece.size) :
    Entry v input origin (mergeSymbols symbols i j l r) e := by
  refine ⟨h.lt, by rw [length_mergeSymbols]; exact h.right_lt, fun hpos => ?_, h.score⟩
  rw [view_mergeSymbols hij hl] at hpos ⊢
  split_ifs at hpos ⊢ with hj hi
  · exact absurd hpos (lt_irrefl 0)
  · have := h.reaches (by rw [hi, view_eq hl]; exact hsize)
    rw [hi, view_eq hl] at this
    rw [hi]
    exact this.trans (by dsimp only; omega)
  · exact h.reaches hpos

/-- **An entry that the tests let through is a pair of neighbours.** -/
theorem Live.fresh (h : Live input origin symbols live) (he : Entry v input origin symbols e)
    (hl : symbols[e.left]? = some l) (hr : symbols[e.right]? = some r)
    (hstale : isStale e l r = false) :
    ∃ u w, live = u ++ e.left :: e.right :: w ∧ e.size = l.piece.size + r.piece.size := by
  simp only [isStale, Bool.or_eq_false_iff, beq_eq_false_iff_ne, bne_eq_false_iff_eq] at hstale
  obtain ⟨⟨hleft, hright⟩, hsize⟩ := hstale
  have hleftMem : e.left ∈ live := h.mem_iff.2 (by rw [view_eq hl]; omega)
  have hrightMem : e.right ∈ live := h.mem_iff.2 (by rw [view_eq hr]; omega)
  obtain ⟨u, rest, rfl⟩ := List.append_of_mem hleftMem
  have hmem : e.right ∈ rest := by
    rcases List.mem_append.1 hrightMem with hu | hrest
    · have := (List.pairwise_append.1 h.sorted).2.2 e.right hu e.left (.head _)
      exact absurd he.lt (by omega)
    · rcases List.mem_cons.1 hrest with heq | hrest
      · exact absurd he.lt (by omega)
      · exact hrest
  cases rest with
  | nil => cases hmem
  | cons x w =>
    rcases List.mem_cons.1 hmem with heq | hw
    · exact ⟨u, w, by rw [heq], hsize.symm⟩
    · -- a symbol between the two would not be reached over
      exfalso
      obtain ⟨m, -, hdata, hpos, -, hxpos, hrest⟩ := tiles_append.1 h.tiles
      have hbound := (hrest.bounds hw).1
      have hreach := he.reaches hpos
      rw [← h.data e.left hleftMem, ← h.data e.right hrightMem] at hreach
      omega

/-! ### The agenda -/

section Agenda

variable [LinearOrder K] {agenda : HeapOps (SymbolPair K) SymbolPair.Before} {s : State agenda}
  {todo : ℕ → ℕ → Prop}

/-- The text of a symbol. -/
def textOf (input : List UInt8) (symbols : List Symbol) (i : ℕ) : List UInt8 :=
  (view symbols i).text input

/-- The invariant: all pairs of neighbours but those still to be added are in the agenda, if their
text has a score. -/
structure Holds (v : Vocab K) (input : List UInt8) (origin : ℕ → ℕ) (live : List ℕ)
    (todo : ℕ → ℕ → Prop) (s : State agenda) : Prop where
  linked : Live input origin s.symbols live
  entries : ∀ e ∈ agenda.elems s.agenda, Entry v input origin s.symbols e
  complete : ∀ u i j w, live = u ++ i :: j :: w → ¬ todo i j → ∀ k,
    pieceKey v (textOf input s.symbols i) (textOf input s.symbols j) = some k →
      ∃ e ∈ agenda.elems s.agenda, e.left = i ∧ e.right = j ∧
        e.size = (view s.symbols i).size + (view s.symbols j).size ∧ OrderDual.toDual e.score = k
  revMerge : s.revMerge = fun _ => none

/-- **A pair of neighbours is added.** -/
theorem Holds.add (hv : v.Good) (h : Holds v input origin live todo s)
    (hlive : live = u ++ i :: j :: w) :
    ∃ s', maybeAddNewSymbolPair v input s (some i) (some j) = some s' ∧ s'.symbols = s.symbols ∧
      agenda.size s'.agenda ≤ agenda.size s.agenda + 1 ∧
      Holds v input origin live (fun p q => todo p q ∧ ¬ (p = i ∧ q = j)) s' := by
  subst hlive
  have hiMem : i ∈ u ++ i :: j :: w := by simp
  have hjMem : j ∈ u ++ i :: j :: w := by simp
  obtain ⟨l, hl⟩ := exists_symbol (h.linked.pos hiMem)
  obtain ⟨r, hr⟩ := exists_symbol (h.linked.pos hjMem)
  obtain ⟨hcontiguous, -, -⟩ := h.linked.neighbours
  have hbounds := h.linked.tiles.bounds hjMem
  have hlt : i < j := (List.pairwise_cons.1 (List.pairwise_append.1 h.linked.sorted).2.1).1 j
    (.head _)
  rw [view_eq hl, view_eq hr] at hcontiguous
  rw [view_eq hr] at hbounds
  have hfreeze : (l.freeze || r.freeze) = false := by
    rw [h.linked.freeze l (List.mem_of_getElem? hl), h.linked.freeze r (List.mem_of_getElem? hr)]
    rfl
  have hstr : StringView.toString input ⟨l.piece.data, l.piece.size + r.piece.size⟩ =
      some (textOf input s.symbols i ++ textOf input s.symbols j) := by
    rw [textOf, textOf, view_eq hl, view_eq hr, ← text_append hcontiguous]
    exact if_pos (by dsimp only; omega)
  cases hpieces : v.pieces (textOf input s.symbols i ++ textOf input s.symbols j) with
  | none =>
    refine ⟨s, ?_, rfl, Nat.le_succ _, h.linked, h.entries, fun u' p q w' heq htodo k hk => ?_,
      h.revMerge⟩
    · simp only [maybeAddNewSymbolPair, hl, hr, hfreeze, hstr, hpieces, Option.bind_eq_bind,
        Option.bind_some, Bool.false_eq_true, if_false]
      rfl
    · by_cases hpq : p = i ∧ q = j
      · rw [hpq.1, hpq.2, pieceKey, hpieces] at hk
        cases hk
      · exact h.complete u' p q w' heq (fun h => htodo ⟨h, hpq⟩) k hk
  | some id =>
    obtain ⟨score, hscore⟩ := hv.exists_score hpieces
    refine ⟨{ s with agenda := agenda.push s.agenda ⟨i, j, score, l.piece.size + r.piece.size⟩ },
      ?_, rfl, ?_, h.linked, fun e he => ?_, fun u' p q w' heq htodo k hk => ?_, h.revMerge⟩
    · simp only [maybeAddNewSymbolPair, hl, hr, hfreeze, hstr, hpieces, hscore,
        hv.isUnused_pieces hpieces, Option.bind_eq_bind, Option.bind_some, Bool.false_eq_true,
        if_false]
      rfl
    · exact (HeapOps.size_push _ _).le
    · rw [HeapOps.elems_push, Multiset.mem_cons] at he
      rcases he with rfl | he
      · refine ⟨hlt, (List.getElem?_eq_some_iff.1 hr).1, fun _ => ?_, ?_⟩
        · rw [← h.linked.data i hiMem, ← h.linked.data j hjMem, view_eq hl, view_eq hr]
          exact hcontiguous.ge
        · have htext : StringView.text input ⟨origin i, l.piece.size + r.piece.size⟩ =
              textOf input s.symbols i ++ textOf input s.symbols j := by
            rw [textOf, textOf, view_eq hl, view_eq hr, ← text_append hcontiguous,
              ← h.linked.data i hiMem, view_eq hl]
          rw [htext, hpieces]
          exact hscore
      · exact h.entries e he
    · rw [HeapOps.elems_push]
      by_cases hpq : p = i ∧ q = j
      · obtain ⟨rfl, rfl⟩ := hpq
        refine ⟨_, Multiset.mem_cons_self _ _, rfl, rfl, ?_, ?_⟩
        · rw [view_eq hl, view_eq hr]
        · rw [pieceKey, hpieces, Option.bind_some, hscore] at hk
          exact Option.some.inj hk
      · obtain ⟨e, he, hrest⟩ := h.complete u' p q w' heq (fun h => htodo ⟨h, hpq⟩) k hk
        exact ⟨e, Multiset.mem_cons_of_mem he, hrest⟩

theorem Holds.weaken {todo' : ℕ → ℕ → Prop} (h : Holds v input origin live todo s)
    (hsub : ∀ u i j w, live = u ++ i :: j :: w → todo i j → todo' i j) :
    Holds v input origin live todo' s :=
  ⟨h.linked, h.entries, fun u i j w heq htodo => h.complete u i j w heq fun h' =>
    htodo (hsub u i j w heq h'), h.revMerge⟩

/-- The pair of a symbol and the one before it is added, if there is one. -/
theorem Holds.addPrev (hv : v.Good) (h : Holds v input origin (u ++ i :: w) todo s) :
    ∃ s', maybeAddNewSymbolPair v input s u.getLast? (some i) = some s' ∧
      s'.symbols = s.symbols ∧ agenda.size s'.agenda ≤ agenda.size s.agenda + 1 ∧
      Holds v input origin (u ++ i :: w) (fun p q => todo p q ∧ q ≠ i) s' := by
  have hprev := h.linked.links.neighbours.1
  rcases List.eq_nil_or_concat' u with rfl | ⟨u, m, rfl⟩
  · refine ⟨s, rfl, rfl, Nat.le_succ _, h.weaken fun u p q w heq htodo => ⟨htodo, ?_⟩⟩
    rintro rfl
    have hlinked := h.linked
    rw [heq] at hlinked
    rw [hlinked.neighbours.2.2] at hprev
    cases hprev
  · rw [List.getLast?_concat] at hprev ⊢
    obtain ⟨s', hs', hsymbols, hsize, hholds⟩ := h.add hv (u := u) (i := m) (j := i) (w := w)
      (by rw [List.append_assoc, List.singleton_append])
    refine ⟨s', hs', hsymbols, hsize, hholds.weaken fun u' p q w' heq htodo => ⟨htodo.1, ?_⟩⟩
    rintro rfl
    have hlinked := h.linked
    rw [heq] at hlinked
    rw [hlinked.neighbours.2.2] at hprev
    exact htodo.2 ⟨Option.some.inj hprev, rfl⟩

/-- The pair of a symbol and the one behind it is added, if there is one. -/
theorem Holds.addNext (hv : v.Good) (h : Holds v input origin (u ++ i :: w) todo s) :
    ∃ s', maybeAddNewSymbolPair v input s (some i) w.head? = some s' ∧
      s'.symbols = s.symbols ∧ agenda.size s'.agenda ≤ agenda.size s.agenda + 1 ∧
      Holds v input origin (u ++ i :: w) (fun p q => todo p q ∧ p ≠ i) s' := by
  have hnext := h.linked.links.neighbours.2
  cases w with
  | nil =>
    refine ⟨s, rfl, rfl, Nat.le_succ _, h.weaken fun u p q w heq htodo => ⟨htodo, ?_⟩⟩
    rintro rfl
    have hlinked := h.linked
    rw [heq] at hlinked
    rw [hlinked.neighbours.2.1] at hnext
    cases hnext
  | cons m w =>
    obtain ⟨s', hs', hsymbols, hsize, hholds⟩ := h.add hv rfl
    refine ⟨s', hs', hsymbols, hsize, hholds.weaken fun u' p q w' heq htodo => ⟨htodo.1, ?_⟩⟩
    rintro rfl
    have hlinked := h.linked
    rw [heq] at hlinked
    rw [hlinked.neighbours.2.1] at hnext
    exact htodo.2 ⟨rfl, Option.some.inj hnext⟩

/-! ### One pass -/

omit [LinearOrder K] in
theorem exists_of_mem_keys_map {f : ℕ → List UInt8} {k : Kᵒᵈ}
    (h : k ∈ keys (pieceKey v) (live.map f)) :
    ∃ u i j w, live = u ++ i :: j :: w ∧ pieceKey v (f i) (f j) = some k := by
  obtain ⟨l, a, b, r, heq, hkey⟩ := exists_of_mem_keys h
  obtain ⟨u, rest, rfl, rfl, hrest⟩ := List.map_eq_append_iff.1 heq
  obtain ⟨i, rest', rfl, rfl, hrest'⟩ := List.map_eq_cons_iff.1 hrest
  obtain ⟨j, w, rfl, rfl, rfl⟩ := List.map_eq_cons_iff.1 hrest'
  exact ⟨u, i, j, w, rfl, hkey⟩

variable {top : SymbolPair K} {rest : agenda.Heap}

/-- An entry of another symbol stays behind when `top` is popped, and is no better. -/
theorem mem_rest (hpop : agenda.pop s.agenda = some (top, rest)) {e : SymbolPair K}
    (he : e ∈ agenda.elems s.agenda) (hne : e ≠ top) : e ∈ agenda.elems rest := by
  rw [agenda.elems_pop _ _ _ hpop, Multiset.mem_cons] at he
  exact he.resolve_left hne

/-- **The entry at the top is the best pair.** -/
theorem Holds.isBest
    (h : Holds v input origin (u ++ top.left :: top.right :: w) (fun _ _ => False) s)
    (hpop : agenda.pop s.agenda = some (top, rest))
    (hkey : pieceKey v (textOf input s.symbols top.left) (textOf input s.symbols top.right) =
      some (OrderDual.toDual top.score)) :
    IsBest (pieceKey v) (u.map (textOf input s.symbols)) (textOf input s.symbols top.left)
      (textOf input s.symbols top.right) (w.map (textOf input s.symbols))
      (OrderDual.toDual top.score) := by
  have hsorted := h.linked.sorted
  refine ⟨hkey, fun k hk => ?_, fun k hk => ?_⟩
  · rw [← List.map_singleton, ← List.map_append] at hk
    obtain ⟨p, i, j, q, heq, hk⟩ := exists_of_mem_keys_map hk
    have hwhole : u ++ top.left :: top.right :: w = p ++ i :: j :: (q ++ top.right :: w) := by
      rw [List.append_cons, heq]
      simp
    obtain ⟨e, he, rfl, -, -, rfl⟩ := h.complete _ _ _ _ hwhole id k hk
    have hlt : e.left < top.left := by
      have hprefix : (u ++ [top.left]).Pairwise (· < ·) := by
        rw [List.append_cons] at hsorted
        exact (List.pairwise_append.1 hsorted).1
      have hij := hprefix
      rw [heq] at hij
      have hlast : j ∈ u ++ [top.left] := by
        rw [heq]
        simp
      have hlt := (List.pairwise_cons.1 (List.pairwise_append.1 hij).2.1).1 j (.head _)
      rcases List.mem_append.1 hlast with hj | hj
      · exact hlt.trans ((List.pairwise_append.1 hprefix).2.2 j hj top.left (.head _))
      · exact hlt.trans_eq (List.mem_singleton.1 hj)
    have hmem := mem_rest hpop he fun heq => absurd (congrArg SymbolPair.left heq) hlt.ne
    have hbest := agenda.best _ _ _ hpop e hmem
    rw [SymbolPair.Before, not_or, not_lt] at hbest
    exact OrderDual.toDual_lt_toDual.2 (lt_of_le_of_ne hbest.1 fun heq => hbest.2 ⟨heq, hlt⟩)
  · rw [← List.map_cons] at hk
    obtain ⟨p, i, j, q, heq, hk⟩ := exists_of_mem_keys_map hk
    have hwhole : u ++ top.left :: top.right :: w = (u ++ top.left :: p) ++ i :: j :: q := by
      rw [heq]
      simp
    obtain ⟨e, he, rfl, -, -, rfl⟩ := h.complete _ _ _ _ hwhole id k hk
    have hlt : top.left < e.left := by
      refine (List.pairwise_cons.1 (List.pairwise_append.1 hsorted).2.1).1 _ ?_
      rw [heq]
      simp
    have hmem := mem_rest hpop he fun heq => absurd (congrArg SymbolPair.left heq) hlt.ne'
    have hbest := agenda.best _ _ _ hpop e hmem
    rw [SymbolPair.Before, not_or, not_lt] at hbest
    exact OrderDual.toDual_le_toDual.2 hbest.1

/-- An entry that is out of date is dropped. -/
theorem Holds.drop (h : Holds v input origin live (fun _ _ => False) s)
    (hpop : agenda.pop s.agenda = some (top, rest)) (hl : s.symbols[top.left]? = some l)
    (hr : s.symbols[top.right]? = some r) (hstale : isStale top l r = true) :
    Holds v input origin live (fun _ _ => False) { s with agenda := rest } := by
  have hmem := agenda.elems_pop _ _ _ hpop
  refine ⟨h.linked, fun e he => h.entries e ?_, fun u i j w heq htodo k hk => ?_, h.revMerge⟩
  · rw [hmem]
    exact Multiset.mem_cons_of_mem he
  · obtain ⟨e, he, hleft, hright, hsize, hscore⟩ := h.complete u i j w heq htodo k hk
    refine ⟨e, mem_rest hpop he ?_, hleft, hright, hsize, hscore⟩
    -- the entry of a pair of neighbours is up to date
    rintro rfl
    have hi := h.linked.pos (i := i) (by rw [heq]; simp)
    have hj := h.linked.pos (i := j) (by rw [heq]; simp)
    rw [← hleft, view_eq hl] at hi hsize
    rw [← hright, view_eq hr] at hj hsize
    have hfresh : isStale e l r = false := by
      simp only [isStale, Bool.or_eq_false_iff, beq_eq_false_iff_ne, bne_eq_false_iff_eq]
      exact ⟨⟨hi.ne', hj.ne'⟩, hsize.symm⟩
    rw [hfresh] at hstale
    cases hstale

/-- Neighbours that a merge of other symbols leaves alone. -/
theorem exists_split_of_erase {p q : ℕ} {u' w' : List ℕ} (heq : u ++ i :: w = u' ++ p :: q :: w')
    (hp : p ≠ i) (hq : q ≠ i) (j : ℕ) : ∃ u₁ w₁, u ++ i :: j :: w = u₁ ++ p :: q :: w₁ := by
  rcases List.append_eq_append_iff.1 heq with ⟨m, rfl, hm⟩ | ⟨m, rfl, hm⟩
  · cases m with
    | nil => exact absurd (List.cons.inj hm).1.symm hp
    | cons x m =>
      obtain ⟨rfl, rfl⟩ := List.cons.inj hm
      exact ⟨u ++ i :: j :: m, w', by simp⟩
  · cases m with
    | nil => exact absurd (List.cons.inj hm).1 hp
    | cons x m =>
      obtain ⟨rfl, hm'⟩ := List.cons.inj hm
      cases m with
      | nil => exact absurd (List.cons.inj hm').1 hq
      | cons y m =>
        obtain ⟨rfl, rfl⟩ := List.cons.inj hm'
        exact ⟨u', m ++ i :: j :: w, by simp⟩

/-- The symbols are joined; the pairs of the new symbol are still to be added. -/
theorem Holds.join (h : Holds v input origin (u ++ top.left :: top.right :: w) (fun _ _ => False) s)
    (hpop : agenda.pop s.agenda = some (top, rest)) (hl : s.symbols[top.left]? = some l)
    (hr : s.symbols[top.right]? = some r) :
    Holds v input origin (u ++ top.left :: w) (fun p q => p = top.left ∨ q = top.left)
      { s with agenda := rest, symbols := mergeSymbols s.symbols top.left top.right l r } := by
  have hlinked := h.linked.merge hl hr
  have hlt : top.left < top.right :=
    (List.pairwise_cons.1 (List.pairwise_append.1 h.linked.sorted).2.1).1 _ (.head _)
  have hpos : 0 < l.piece.size := by
    have := h.linked.pos (i := top.left) (by simp)
    rwa [view_eq hl] at this
  refine ⟨hlinked, fun e he => (h.entries e ?_).merge hlt.ne hl hpos,
    fun u' p q w' heq htodo k hk => ?_, h.revMerge⟩
  · rw [agenda.elems_pop _ _ _ hpop]
    exact Multiset.mem_cons_of_mem he
  · obtain ⟨hp, hq⟩ := not_or.1 htodo
    have hview : ∀ x ∈ u ++ top.left :: w, x ≠ top.left →
        view (mergeSymbols s.symbols top.left top.right l r) x = view s.symbols x := by
      intro x hx hne
      rw [view_mergeSymbols hlt.ne hl, if_neg hne, if_neg]
      rintro rfl
      have hdead := hlinked.pos hx
      rw [view_mergeSymbols hlt.ne hl, if_pos rfl] at hdead
      exact lt_irrefl 0 hdead
    have hviewp := hview p (by rw [heq]; simp) hp
    have hviewq := hview q (by rw [heq]; simp) hq
    obtain ⟨u₁, w₁, hsplit⟩ := exists_split_of_erase heq hp hq top.right
    dsimp only [textOf] at hk ⊢
    rw [hviewp, hviewq] at hk ⊢
    obtain ⟨e, he, hleft, hright, hsize, hscore⟩ := h.complete u₁ p q w₁ hsplit id k hk
    exact ⟨e, mem_rest hpop he fun htop => hp (hleft.symm.trans (congrArg _ htop)), hleft, hright,
      hsize, hscore⟩

/-- **An entry that is up to date is applied**: it is the best pair of neighbours. -/
theorem Holds.apply (hv : v.Good)
    (h : Holds v input origin live (fun _ _ => False) s)
    (hpop : agenda.pop s.agenda = some (top, rest)) (hl : s.symbols[top.left]? = some l)
    (hr : s.symbols[top.right]? = some r) (hstale : isStale top l r = false) :
    ∃ u w s', live = u ++ top.left :: top.right :: w ∧
      merge v input { s with agenda := rest } top l r = some s' ∧
      agenda.size s'.agenda ≤ agenda.size rest + 2 ∧
      Holds v input origin (u ++ top.left :: w) (fun _ _ => False) s' ∧
      IsBest (pieceKey v) (u.map (textOf input s.symbols)) (textOf input s.symbols top.left)
        (textOf input s.symbols top.right) (w.map (textOf input s.symbols))
        (OrderDual.toDual top.score) ∧
      (u ++ top.left :: w).map (textOf input s'.symbols) =
        u.map (textOf input s.symbols) ++
          (textOf input s.symbols top.left ++ textOf input s.symbols top.right) ::
            w.map (textOf input s.symbols) := by
  have hentry : Entry v input origin s.symbols top := h.entries top (by
    rw [agenda.elems_pop _ _ _ hpop]
    exact Multiset.mem_cons_self _ _)
  obtain ⟨u, w, rfl, hsize⟩ := h.linked.fresh hentry hl hr hstale
  obtain ⟨hcontiguous, -, -⟩ := h.linked.neighbours
  have htext : StringView.text input ⟨origin top.left, top.size⟩ =
      textOf input s.symbols top.left ++ textOf input s.symbols top.right := by
    rw [textOf, textOf, ← text_append hcontiguous, view_eq hl, view_eq hr, ← hsize,
      ← h.linked.data top.left (by simp), view_eq hl]
  have hkey : pieceKey v (textOf input s.symbols top.left) (textOf input s.symbols top.right) =
      some (OrderDual.toDual top.score) := by
    rw [pieceKey, ← htext, hentry.score]
    rfl
  have hjoined := h.join hpop hl hr
  have hpos := hjoined.linked.pos (i := top.left) (by simp)
  obtain ⟨x, hx⟩ := exists_symbol hpos
  obtain ⟨hprev, hnext⟩ := hjoined.linked.links.neighbours
  simp only [prevOf, nextOf, hx, Option.bind_some] at hprev hnext
  obtain ⟨s₁, hs₁, hsymbols₁, hsize₁, hholds₁⟩ := hjoined.addPrev hv
  obtain ⟨s₂, hs₂, hsymbols₂, hsize₂, hholds₂⟩ := hholds₁.addNext hv
  refine ⟨u, w, s₂, rfl, ?_, by dsimp only at hsize₁; omega, hholds₂.weaken ?_,
    h.isBest hpop hkey, ?_⟩
  · simp only [merge, hx, hprev, hnext, hs₁, Option.bind_eq_bind, Option.bind_some]
    exact hs₂
  · rintro u' p q w' - ⟨⟨hp | hq, hq'⟩, hp'⟩
    · exact hp' hp
    · exact hq' hq
  · have hlt : top.left < top.right :=
      (List.pairwise_cons.1 (List.pairwise_append.1 h.linked.sorted).2.1).1 _ (.head _)
    have hnodup : (u ++ top.left :: top.right :: w).Nodup := h.linked.sorted.imp fun h => h.ne
    have hother : ∀ i ∈ u ++ w, textOf input s₂.symbols i = textOf input s.symbols i := by
      intro i hi
      have hleft : i ≠ top.left := by
        rintro rfl
        exact (List.nodup_cons.1 (List.nodup_middle.1 hnodup)).1 (by simp at hi ⊢; tauto)
      have hright : i ≠ top.right := by
        rintro rfl
        rw [List.append_cons] at hnodup
        exact (List.nodup_cons.1 (List.nodup_middle.1 hnodup)).1 (by simp at hi ⊢; tauto)
      rw [textOf, hsymbols₂, hsymbols₁, view_mergeSymbols hlt.ne hl, if_neg hright, if_neg hleft,
        textOf]
    rw [List.map_append, List.map_cons,
      List.map_congr_left fun i hi => hother i (List.mem_append_left w hi),
      List.map_congr_left fun i hi => hother i (List.mem_append_right u hi)]
    congr 2
    rw [textOf, hsymbols₂, hsymbols₁, view_mergeSymbols hlt.ne hl, if_neg hlt.ne, if_pos rfl,
      textOf, textOf, ← text_append hcontiguous, view_eq hl, view_eq hr]

/-- **A pass** drops the entry at the top, or joins the best pair. -/
theorem Holds.pass (hv : v.Good) (h : Holds v input origin live (fun _ _ => False) s)
    (hpop : agenda.pop s.agenda = some (top, rest)) :
    ∃ s', Sentencepiece.pass v input { s with agenda := rest } top = some s' ∧
      ((s' = { s with agenda := rest } ∧ Holds v input origin live (fun _ _ => False) s') ∨
        ∃ u i j w k, live = u ++ i :: j :: w ∧ agenda.size s'.agenda ≤ agenda.size rest + 2 ∧
          Holds v input origin (u ++ i :: w) (fun _ _ => False) s' ∧
          IsBest (pieceKey v) (u.map (textOf input s.symbols)) (textOf input s.symbols i)
            (textOf input s.symbols j) (w.map (textOf input s.symbols)) k ∧
          (u ++ i :: w).map (textOf input s'.symbols) = u.map (textOf input s.symbols) ++
            (textOf input s.symbols i ++ textOf input s.symbols j) ::
              w.map (textOf input s.symbols)) := by
  have hentry : Entry v input origin s.symbols top := h.entries top (by
    rw [agenda.elems_pop _ _ _ hpop]
    exact Multiset.mem_cons_self _ _)
  obtain ⟨r, hr⟩ : ∃ r, s.symbols[top.right]? = some r :=
    ⟨_, List.getElem?_eq_getElem hentry.right_lt⟩
  obtain ⟨l, hl⟩ : ∃ l, s.symbols[top.left]? = some l :=
    ⟨_, List.getElem?_eq_getElem (hentry.lt.trans hentry.right_lt)⟩
  cases hstale : isStale top l r with
  | true =>
    refine ⟨_, ?_, .inl ⟨rfl, h.drop hpop hl hr hstale⟩⟩
    simp only [Sentencepiece.pass, hl, hr, hstale, Option.bind_eq_bind, Option.bind_some, if_true]
    rfl
  | false =>
    obtain ⟨u, w, s', hlive, hs', hsize, hholds, hbest, htexts⟩ := h.apply hv hpop hl hr hstale
    refine ⟨s', ?_, .inr ⟨u, _, _, w, _, hlive, hsize, hholds, hbest, htexts⟩⟩
    simp only [Sentencepiece.pass, hl, hr, hstale, Option.bind_eq_bind, Option.bind_some,
      Bool.false_eq_true, if_false]
    exact hs'

/-- Nothing is left to merge when the agenda is empty. -/
theorem Holds.keys_eq_nil (h : Holds v input origin live (fun _ _ => False) s)
    (hpop : agenda.pop s.agenda = none) :
    keys (pieceKey v) (live.map (textOf input s.symbols)) = [] := by
  refine List.eq_nil_iff_forall_not_mem.2 fun k hk => ?_
  obtain ⟨u, i, j, w, heq, hkey⟩ := exists_of_mem_keys_map hk
  obtain ⟨e, he, -⟩ := h.complete u i j w heq id k hkey
  rw [(agenda.pop_eq_none _).1 hpop] at he
  exact Multiset.notMem_zero e he

/-- **The main loop** ends with the result of the reference. -/
theorem Holds.mergeLoop (hv : v.Good) {fuel : ℕ}
    (h : Holds v input origin live (fun _ _ => False) s)
    (hfuel : agenda.size s.agenda + 2 * live.length < fuel) :
    ∃ s' live', Sentencepiece.mergeLoop v input fuel s = some s' ∧
      Holds v input origin live' (fun _ _ => False) s' ∧ live'.length ≤ live.length ∧
      Merges (pieceKey v) (live.map (textOf input s.symbols))
        (live'.map (textOf input s'.symbols)) := by
  induction fuel generalizing s live with
  | zero => exact absurd hfuel (Nat.not_lt_zero _)
  | succ fuel ih =>
    cases hpop : agenda.pop s.agenda with
    | none =>
      exact ⟨s, live, by rw [Sentencepiece.mergeLoop, hpop], h, le_rfl, .stop (h.keys_eq_nil hpop)⟩
    | some p =>
      obtain ⟨top, rest⟩ := p
      have hsize := HeapOps.size_pop hpop
      obtain ⟨s₁, hs₁, ⟨rfl, hholds⟩ | ⟨u, i, j, w, k, rfl, hsize₁, hholds, hbest, htexts⟩⟩ :=
        h.pass hv hpop
      · obtain ⟨s', live', hs', hholds', hlen, hmerges⟩ := ih hholds (by dsimp only; omega)
        refine ⟨s', live', ?_, hholds', hlen, hmerges⟩
        simp only [Sentencepiece.mergeLoop, hpop, hs₁, Option.bind_eq_bind, Option.bind_some]
        exact hs'
      · simp only [List.length_append, List.length_cons] at hfuel
        obtain ⟨s', live', hs', hholds', hlen, hmerges⟩ := ih hholds (by
          simp only [List.length_append, List.length_cons]
          omega)
        refine ⟨s', live', ?_, hholds', ?_, ?_⟩
        · simp only [Sentencepiece.mergeLoop, hpop, hs₁, Option.bind_eq_bind, Option.bind_some]
          exact hs'
        · simp only [List.length_append, List.length_cons] at hlen ⊢
          omega
        · rw [htexts] at hmerges
          rw [List.map_append, List.map_cons, List.map_cons]
          exact .step hbest hmerges

/-! ### What is applied -/

/-- A pass of the main loop. -/
def Passes (v : Vocab K) (input : List UInt8) (s t : State agenda) : Prop :=
  ∃ top rest, agenda.pop s.agenda = some (top, rest) ∧
    Sentencepiece.pass v input { s with agenda := rest } top = some t

/-- The entry at the top is applied to two neighbours only, whose text has its score. -/
def AppliesFresh (v : Vocab K) (input : List UInt8) (s : State agenda) : Prop :=
  ∀ top rest l r, agenda.pop s.agenda = some (top, rest) → s.symbols[top.left]? = some l →
    s.symbols[top.right]? = some r → isStale top l r = false →
      l.next = some top.right ∧ r.prev = some top.left ∧
        pieceKey v (l.piece.text input) (r.piece.text input) = some (OrderDual.toDual top.score)

theorem Holds.passes (hv : v.Good) (h : Holds v input origin live (fun _ _ => False) s)
    {t : State agenda} (ht : Relation.ReflTransGen (Passes v input) s t) :
    ∃ live', Holds v input origin live' (fun _ _ => False) t := by
  induction ht with
  | refl => exact ⟨live, h⟩
  | tail _ hpass ih =>
    obtain ⟨live', h'⟩ := ih
    obtain ⟨top, rest, hpop, hpass⟩ := hpass
    obtain ⟨s', hs', ⟨-, hholds⟩ | ⟨u, i, j, w, k, -, -, hholds, -⟩⟩ := h'.pass hv hpop
    · exact ⟨_, Option.some.inj (hs'.symm.trans hpass) ▸ hholds⟩
    · exact ⟨_, Option.some.inj (hs'.symm.trans hpass) ▸ hholds⟩

/-- **No entry that is out of date is applied.** -/
theorem Holds.appliesFresh (hv : v.Good) (h : Holds v input origin live (fun _ _ => False) s) :
    AppliesFresh v input s := by
  intro top rest l r hpop hl hr hstale
  obtain ⟨u, w, s', rfl, -, -, -, hbest, -⟩ := h.apply hv hpop hl hr hstale
  obtain ⟨-, hnext, hprev⟩ := h.linked.neighbours
  rw [nextOf, hl] at hnext
  rw [prevOf, hr] at hprev
  have hpair := hbest.pair
  rw [textOf, textOf, view_eq hl, view_eq hr] at hpair
  exact ⟨hnext, hprev, hpair⟩

end Agenda

end Mnn.Sentencepiece
