import Mnn.Lib.GreedyMerge
import Mnn.Lib.Heap

/-!
# Byte pairs of the Sentencepiece tokenizer

`Sentencepiece::bpe_encode` with `alpha = 0` (`transformers/llm/engine/src/tokenizer.cpp`).  `none` is
an index outside of a vector, a copy of a view beyond its text, or a loop that is not over.

* `Vocab`, `loadVocab`: the pieces, and the maps from texts to ids;
* `Symbol`, `SymbolPair`, `State`: the symbols, linked by indices, and the agenda;
* `maybeAddNewSymbolPair`, `splitChars`, `isStale`, `merge`, `mergeLoop`, `resegment`, `bpeEncode`:
  the code;
* `chars`, `pieceKey`: the characters and the keys of the reference, which joins the pair of
  adjacent symbols whose text has the greatest score.
-/

namespace Mnn.Sentencepiece

open Lib

/-! ### The vocabulary -/

inductive PieceType
  | normal | unknown | control | userDefined | unused | byte
  deriving DecidableEq

/-- A line of the vocabulary. -/
structure SentencePiece (K : Type) where
  piece : List UInt8
  score : K
  type : PieceType

/-- The fields of `Sentencepiece`.  Ids are indices, so that none of them is `-1`. -/
structure Vocab (K : Type) where
  unkId : ℕ := 0
  sentencePieces : List (SentencePiece K)
  pieces : List UInt8 → Option ℕ := fun _ => none
  reservedIdMap : List UInt8 → Option ℕ := fun _ => none

/-- `insert` of a map: a key that is there keeps its value. -/
def insertNew (m : List UInt8 → Option ℕ) (key : List UInt8) (id : ℕ) : List UInt8 → Option ℕ :=
  fun t => if t = key then (m t).or (some id) else m t

/-- One line. -/
def loadPiece {K : Type} (v : Vocab K) (line : SentencePiece K × ℕ) : Vocab K :=
  if line.1.type = .normal then { v with pieces := insertNew v.pieces line.1.piece line.2 }
  else
    { v with
      reservedIdMap := insertNew v.reservedIdMap line.1.piece line.2
      unkId := if line.1.type = .unknown then line.2 else v.unkId }

/-- `Sentencepiece::load_vocab`. -/
def loadVocab {K : Type} (lines : List (SentencePiece K)) : Vocab K :=
  lines.zipIdx.foldl loadPiece { sentencePieces := lines }

namespace Vocab

variable {K : Type} (v : Vocab K)

def getScore (id : ℕ) : Option K := v.sentencePieces[id]?.map SentencePiece.score

def isUnused (id : ℕ) : Option Bool := v.sentencePieces[id]?.map fun p => decide (p.type = .unused)

def pieceToId (piece : List UInt8) : ℕ :=
  match v.reservedIdMap piece with
  | some id => id
  | none =>
    match v.pieces piece with
    | some id => id
    | none => v.unkId

end Vocab

/-! ### The encoder -/

/-- `one_char_len`. -/
def oneCharLen (b : UInt8) : ℕ :=
  [1, 1, 1, 1, 1, 1, 1, 1, 1, 1, 1, 1, 2, 2, 3, 4].getD (b.toNat / 16) 1

/-- `string_view_` into the input. -/
structure StringView where
  data : ℕ
  size : ℕ
  deriving DecidableEq

/-- `to_string`. -/
def StringView.toString (input : List UInt8) (w : StringView) : Option (List UInt8) :=
  if w.data + w.size ≤ input.length then some ((input.drop w.data).take w.size) else none

/-- `remove_prefix`. -/
def StringView.removePrefix (w : StringView) (n : ℕ) : StringView :=
  if n < w.size then ⟨w.data + n, w.size - n⟩ else ⟨0, 0⟩

/-- A symbol; an index `-1` is `none`. -/
structure Symbol where
  prev : Option ℕ
  next : Option ℕ
  freeze : Bool := false
  piece : StringView

structure SymbolPair (K : Type) where
  left : ℕ
  right : ℕ
  score : K
  size : ℕ

/-- `SymbolPairComparator`: the greater score, and then the lesser index on the left. -/
def SymbolPair.Before {K : Type} [LinearOrder K] (a b : SymbolPair K) : Prop :=
  b.score < a.score ∨ a.score = b.score ∧ a.left < b.left

section

variable {K : Type} [LinearOrder K] (agenda : HeapOps (SymbolPair K) SymbolPair.Before)

/-- The variables of `bpe_encode`. -/
structure State where
  symbols : List Symbol
  agenda : agenda.Heap
  revMerge : List UInt8 → Option (StringView × StringView) := fun _ => none

variable (v : Vocab K) (input : List UInt8) {agenda}

/-- `MaybeAddNewSymbolPair`. -/
def maybeAddNewSymbolPair (s : State agenda) : Option ℕ → Option ℕ → Option (State agenda)
  | some left, some right => do
    let l ← s.symbols[left]?
    let r ← s.symbols[right]?
    if l.freeze || r.freeze then return s
    let piece : StringView := ⟨l.piece.data, l.piece.size + r.piece.size⟩
    let pieceStr ← piece.toString input
    match v.pieces pieceStr with
    | none => return s
    | some id =>
      let score ← v.getScore id
      let unused ← v.isUnused id
      return { s with
        agenda := agenda.push s.agenda { left, right, score, size := piece.size }
        revMerge := if unused then Function.update s.revMerge pieceStr (some (l.piece, r.piece))
          else s.revMerge }
  | _, _ => some s

/-- The loop that splits the input into characters.  Without a character it goes on for ever; with a
negative number of bytes the view is longer than any text. -/
def splitChars : ℕ → StringView → List Symbol → Option (List Symbol)
  | 0, w, symbols => if w.size = 0 then some symbols else none
  | fuel + 1, w, symbols =>
    if w.size = 0 then some symbols
    else
      -- `std::min<int>`
      let mblen := min (Int.bmod w.size (2 ^ 32)) (oneCharLen (input.getD w.data 0))
      if mblen < 0 then none
      else
        let rest := w.removePrefix mblen.toNat
        splitChars fuel rest (symbols ++
          [{ prev := if symbols.length = 0 then none else some (symbols.length - 1)
             next := if rest.size = 0 then none else some (symbols.length + 1)
             piece := ⟨w.data, mblen.toNat⟩ }])

/-- `top` is no longer available. -/
def isStale (top : SymbolPair K) (l r : Symbol) : Bool :=
  l.piece.size == 0 || r.piece.size == 0 || l.piece.size + r.piece.size != top.size

/-- The symbols after a merge. -/
def mergeSymbols (symbols : List Symbol) (left right : ℕ) (l r : Symbol) : List Symbol :=
  let piece : StringView := ⟨l.piece.data, l.piece.size + r.piece.size⟩
  let symbols := symbols.modify left fun x => { x with piece, next := r.next }
  let symbols := match r.next with
    | some n => symbols.modify n fun x => { x with prev := some left }
    | none => symbols
  symbols.modify right fun x => { x with piece := ⟨0, 0⟩ }

/-- Replaces symbols with the `top` rule, and adds the new pairs. -/
def merge (s : State agenda) (top : SymbolPair K) (l r : Symbol) : Option (State agenda) := do
  let s := { s with symbols := mergeSymbols s.symbols top.left top.right l r }
  let x ← s.symbols[top.left]?
  let s ← maybeAddNewSymbolPair v input s x.prev (some top.left)
  maybeAddNewSymbolPair v input s (some top.left) x.next

/-- A pass of the main loop, after `top` was taken from the agenda. -/
def pass (s : State agenda) (top : SymbolPair K) : Option (State agenda) := do
  let l ← s.symbols[top.left]?
  let r ← s.symbols[top.right]?
  if isStale top l r then return s else merge v input s top l r

/-- The main loop. -/
def mergeLoop : ℕ → State agenda → Option (State agenda)
  | 0, _ => none
  | fuel + 1, s =>
    match agenda.pop s.agenda with
    | none => some s
    | some (top, rest) => do mergeLoop fuel (← pass v input { s with agenda := rest } top)

/-- `resegment`. -/
def resegment (s : State agenda) : ℕ → StringView → Option (List (StringView × ℕ))
  | 0, _ => none
  | fuel + 1, w => do
    let text ← w.toString input
    let id := v.pieceToId text
    if ← v.isUnused id then
      match s.revMerge text with
      | none => return [(w, id)]
      | some p => return (← resegment s fuel p.1) ++ (← resegment s fuel p.2)
    else return [(w, id)]

/-- The loop that follows the symbols. -/
def collect (s : State agenda) : ℕ → Option ℕ → Option (List (StringView × ℕ))
  | _, none => some []
  | 0, some _ => none
  | fuel + 1, some index => do
    let x ← s.symbols[index]?
    let here ← resegment v input s (fuel + 1) x.piece
    return here ++ (← collect s fuel x.next)

variable (agenda)

/-- Looking up all bigrams. -/
def start (symbols : List Symbol) : Option (State agenda) :=
  (List.range' 1 (symbols.length - 1)).foldlM
    (fun s i => maybeAddNewSymbolPair v input s (some (i - 1)) (some i))
    { symbols, agenda := agenda.empty }

/-- `Sentencepiece::bpe_encode`, with at most `fuel` passes of each loop. -/
def bpeEncode (fuel : ℕ) : Option (List (StringView × ℕ)) := do
  let symbols ← splitChars input fuel ⟨0, input.length⟩ []
  if symbols.isEmpty then return []
  else
    let s ← start agenda v input symbols
    let s ← mergeLoop v input fuel s
    collect v input s fuel (some 0)

end

/-! ### The reference -/

/-- The characters of a text; the last one may be cut off. -/
def chars : ℕ → List UInt8 → List (List UInt8)
  | 0, _ => []
  | _ + 1, [] => []
  | fuel + 1, b :: t =>
    (b :: t).take (oneCharLen b) :: chars fuel ((b :: t).drop (oneCharLen b))

/-- The key of a pair: the score of its text, the greatest first. -/
def pieceKey {K : Type} (v : Vocab K) (a b : List UInt8) : Option Kᵒᵈ :=
  ((v.pieces (a ++ b)).bind v.getScore).map OrderDual.toDual

end Mnn.Sentencepiece
