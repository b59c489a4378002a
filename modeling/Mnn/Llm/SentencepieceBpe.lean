import Mnn.Lib.Loops
import Mnn.Llm.SentencepieceMerge

/-!
# The Sentencepiece tokenizer against the reference

* `splitChars_eq`: the split into characters; `splitChars_eq_none`: a text of `2 ^ 31` bytes or more is
  not split, since its length is taken as an `int`;
* `live_start`, `start_spec`: at first every character is a symbol, and every pair of neighbours with
  a score is in the agenda;
* `Holds.collect`: the pieces at the end;
* `Encodes`, `encodes_iff`: **the pieces are those of the reference exactly when the vocabulary is not
  empty and the text is shorter than `2 ^ 31` bytes**, the empty text apart.
-/

namespace Mnn.Sentencepiece

open Lib GreedyMerge

variable {input : List UInt8}

/-! ### Characters -/

theorem oneCharLen_bounds (b : UInt8) : 1 ≤ oneCharLen b ∧ oneCharLen b ≤ 4 := by
  have hall : ∀ x ∈ ([1, 1, 1, 1, 1, 1, 1, 1, 1, 1, 1, 1, 2, 2, 3, 4] : List ℕ), 1 ≤ x ∧ x ≤ 4 := by
    decide
  rw [oneCharLen, List.getD_eq_getElem?_getD]
  cases h : ([1, 1, 1, 1, 1, 1, 1, 1, 1, 1, 1, 1, 2, 2, 3, 4] : List ℕ)[b.toNat / 16]? with
  | none => exact ⟨le_rfl, by decide⟩
  | some x => exact hall x (List.mem_of_getElem? h)

/-- The number of passes does not matter when it is large enough. -/
theorem chars_congr {f f' : ℕ} {t : List UInt8} (hf : t.length ≤ f) (hf' : t.length ≤ f') :
    chars f t = chars f' t := by
  induction f generalizing t f' with
  | zero =>
    obtain rfl := List.length_eq_zero_iff.1 (Nat.le_zero.1 hf)
    cases f' <;> rfl
  | succ f ih =>
    cases t with
    | nil => cases f' <;> rfl
    | cons b t =>
      cases f' with
      | zero => cases hf'
      | succ f' =>
        have hpos := (oneCharLen_bounds b).1
        have hlen : ((b :: t).drop (oneCharLen b)).length ≤ t.length := by
          rw [List.length_drop, List.length_cons]
          omega
        rw [List.length_cons] at hf hf'
        rw [chars, chars, ih (hlen.trans (by omega)) (hlen.trans (Nat.le_of_succ_le_succ hf'))]

theorem chars_flatten {f : ℕ} {t : List UInt8} (hf : t.length ≤ f) : (chars f t).flatten = t := by
  induction f generalizing t with
  | zero => exact (List.length_eq_zero_iff.1 (Nat.le_zero.1 hf)).symm
  | succ f ih =>
    cases t with
    | nil => rfl
    | cons b t =>
      have hpos := (oneCharLen_bounds b).1
      rw [chars, List.flatten_cons, ih, List.take_append_drop]
      rw [List.length_drop, List.length_cons]
      rw [List.length_cons] at hf
      omega

theorem ne_nil_of_mem_chars {f : ℕ} {t c : List UInt8} (hc : c ∈ chars f t) : c ≠ [] := by
  induction f generalizing t with
  | zero => cases hc
  | succ f ih =>
    cases t with
    | nil => cases hc
    | cons b t =>
      rcases List.mem_cons.1 hc with rfl | hc
      · have hpos := (oneCharLen_bounds b).1
        exact List.ne_nil_of_length_pos (by rw [List.length_take, List.length_cons]; omega)
      · exact ih hc

/-- The symbols of characters, the first of which has index `n` and begins at `a`. -/
def charSymbols : ℕ → ℕ → List (List UInt8) → List Symbol
  | _, _, [] => []
  | n, a, c :: cs =>
    { prev := if n = 0 then none else some (n - 1)
      next := if cs = [] then none else some (n + 1)
      piece := ⟨a, c.length⟩ } :: charSymbols (n + 1) (a + c.length) cs

/-- **The split.** -/
theorem splitChars_eq (hlt : input.length < 2 ^ 31) {fuel : ℕ} {w : StringView}
    (hw : w.data + w.size = input.length ∨ w.size = 0) (hfuel : w.size ≤ fuel)
    (symbols : List Symbol) :
    splitChars input fuel w symbols =
      some (symbols ++ charSymbols symbols.length w.data (chars w.size (input.drop w.data))) := by
  induction fuel generalizing w symbols with
  | zero =>
    have hzero := Nat.le_zero.1 hfuel
    rw [splitChars, if_pos hzero, hzero, chars, charSymbols, List.append_nil]
  | succ fuel ih =>
    by_cases hzero : w.size = 0
    · rw [splitChars, if_pos hzero, hzero, chars, charSymbols, List.append_nil]
    have hend := hw.resolve_right hzero
    have hlen : (input.drop w.data).length = w.size := by
      rw [List.length_drop]
      omega
    obtain ⟨b, t, ht⟩ := List.exists_cons_of_ne_nil
      (List.ne_nil_of_length_pos (l := input.drop w.data) (by omega))
    have hb : input.getD w.data 0 = b := by
      have hhead := congrArg (fun l => l[0]?) ht
      simp only [List.getElem?_drop, List.getElem?_cons_zero, Nat.add_zero] at hhead
      rw [List.getD_eq_getElem?_getD, hhead, Option.getD_some]
    obtain ⟨hpos, -⟩ := oneCharLen_bounds b
    have hsize : t.length + 1 = w.size := by rw [← hlen, ht, List.length_cons]
    -- the length of the text is an `int`
    have hmblen : min (Int.bmod w.size (2 ^ 32)) (oneCharLen b) =
        ((min w.size (oneCharLen b) : ℕ) : ℤ) := by
      rw [Int.bmod_def]
      omega
    have hchars : chars w.size (input.drop w.data) = (b :: t).take (oneCharLen b) ::
        chars t.length ((b :: t).drop (oneCharLen b)) := by
      rw [ht, ← hsize, chars]
    have hfirst : ((b :: t).take (oneCharLen b)).length = min w.size (oneCharLen b) := by
      rw [List.length_take, List.length_cons, hsize, Nat.min_comm]
    rw [splitChars, if_neg hzero, hb, hmblen, hchars, charSymbols, hfirst]
    simp only [Int.toNat_natCast, if_neg (Int.not_lt.2 (Int.natCast_nonneg _))]
    by_cases hmore : oneCharLen b < w.size
    · have hmin : min w.size (oneCharLen b) = oneCharLen b := Nat.min_eq_right hmore.le
      have hrest : w.removePrefix (oneCharLen b) = ⟨w.data + oneCharLen b, w.size - oneCharLen b⟩ :=
        if_pos hmore
      have hdrop : (b :: t).drop (oneCharLen b) = input.drop (w.data + oneCharLen b) := by
        rw [← ht, List.drop_drop]
      have hdropLen : (input.drop (w.data + oneCharLen b)).length = w.size - oneCharLen b := by
        rw [List.length_drop]
        omega
      have hcongr : chars t.length (input.drop (w.data + oneCharLen b)) =
          chars (w.size - oneCharLen b) (input.drop (w.data + oneCharLen b)) :=
        chars_congr (by omega) (by omega)
      have hne : chars (w.size - oneCharLen b) (input.drop (w.data + oneCharLen b)) ≠ [] := by
        intro hnil
        have hflat := chars_flatten (f := w.size - oneCharLen b) hdropLen.le
        rw [hnil] at hflat
        rw [← hflat] at hdropLen
        exact absurd hdropLen.symm (by rw [List.flatten_nil, List.length_nil]; omega)
      simp only [hmin, hrest]
      rw [ih (by left; dsimp only; omega) (by dsimp only; omega), hdrop, hcongr]
      simp only [hne, if_false, show w.size - oneCharLen b ≠ 0 by omega, List.append_assoc,
        List.length_append, List.length_singleton, List.singleton_append]
    · have hmin : min w.size (oneCharLen b) = w.size := Nat.min_eq_left (not_lt.1 hmore)
      have hrest : w.removePrefix w.size = ⟨0, 0⟩ := if_neg (lt_irrefl _)
      have hdrop : (b :: t).drop (oneCharLen b) = [] :=
        List.drop_eq_nil_of_le (by rw [List.length_cons]; omega)
      have hnil : chars t.length [] = [] := by cases t.length <;> rfl
      simp only [hmin, hrest]
      rw [ih (.inr rfl) (Nat.zero_le _), hdrop, hnil]
      simp only [chars, charSymbols, if_true, List.append_nil]

theorem splitChars_input (hlt : input.length < 2 ^ 31) {fuel : ℕ} (hfuel : input.length ≤ fuel) :
    splitChars input fuel ⟨0, input.length⟩ [] =
      some (charSymbols 0 0 (chars input.length input)) := by
  rw [splitChars_eq hlt (.inl (Nat.zero_add _)) hfuel]
  rfl

theorem splitChars_more {fuel : ℕ} {w : StringView} {symbols out : List Symbol}
    (h : splitChars input fuel w symbols = some out) (more : ℕ) :
    splitChars input (fuel + more) w symbols = some out := by
  induction fuel generalizing w symbols with
  | zero =>
    unfold splitChars at h
    split_ifs at h with hzero
    rw [← h]
    cases more with
    | zero => exact if_pos hzero
    | succ more => exact if_pos hzero
  | succ fuel ih =>
    rw [Nat.succ_add]
    rw [splitChars] at h ⊢
    by_cases hzero : w.size = 0
    · rw [if_pos hzero] at h ⊢
      exact h
    · rw [if_neg hzero] at h ⊢
      by_cases hneg : min (Int.bmod w.size (2 ^ 32)) (oneCharLen (input.getD w.data 0)) < 0
      · cases (if_pos hneg).symm.trans h
      · exact (if_neg hneg).trans (ih ((if_neg hneg).symm.trans h))

/-- **A text that is too long is not split**: its length is negative sooner or later. -/
theorem splitChars_eq_none {fuel : ℕ} {w : StringView} (hw : 2 ^ 31 ≤ w.size)
    (symbols : List Symbol) : splitChars input fuel w symbols = none := by
  induction fuel generalizing w symbols with
  | zero => exact if_neg (by omega)
  | succ fuel ih =>
    obtain ⟨hpos, hle⟩ := oneCharLen_bounds (input.getD w.data 0)
    rw [splitChars, if_neg (by omega)]
    by_cases hneg : min (Int.bmod w.size (2 ^ 32)) (oneCharLen (input.getD w.data 0)) < 0
    · exact if_pos hneg
    · rw [Int.bmod_def] at hneg ⊢
      refine (if_neg hneg).trans (ih ?_ _)
      have hrest : ∀ n, n ≤ 4 → w.removePrefix n = ⟨w.data + n, w.size - n⟩ := fun n hn =>
        if_pos (by omega)
      rw [hrest _ (by omega)]
      dsimp only
      omega

/-! ### The start -/

/-- The symbols of characters, one by one. -/
theorem getElem?_charSymbols (cs : List (List UInt8)) (n a k : ℕ) :
    (charSymbols n a cs)[k]? = cs[k]?.map fun c =>
      { prev := if n + k = 0 then none else some (n + k - 1)
        next := if k + 1 = cs.length then none else some (n + k + 1)
        piece := ⟨a + (cs.take k).flatten.length, c.length⟩ } := by
  induction cs generalizing n a k with
  | nil => rfl
  | cons c cs ih =>
    cases k with
    | zero =>
      cases cs with
      | nil => simp [charSymbols]
      | cons c' cs => simp [charSymbols]
    | succ k =>
      rw [charSymbols, List.getElem?_cons_succ, List.getElem?_cons_succ, ih]
      have hindex : n + 1 + k = n + (k + 1) := by omega
      have hlast : (k + 1 = cs.length) = (k + 1 + 1 = (c :: cs).length) := by
        rw [List.length_cons, Nat.add_right_cancel_iff]
      simp only [hindex, hlast, List.take_succ_cons, List.flatten_cons, List.length_append,
        Nat.add_assoc]

section Start

variable {cs : List (List UInt8)}

theorem view_charSymbols {k : ℕ} {c : List UInt8} (hk : cs[k]? = some c) :
    view (charSymbols 0 0 cs) k = ⟨(cs.take k).flatten.length, c.length⟩ := by
  rw [view, getElem?_charSymbols, hk]
  simp

theorem textOf_charSymbols {k : ℕ} {c : List UInt8} (hk : cs[k]? = some c) :
    textOf cs.flatten (charSymbols 0 0 cs) k = c := by
  obtain ⟨hlt, rfl⟩ := List.getElem?_eq_some_iff.1 hk
  have hsplit : cs.flatten =
      (cs.take k).flatten ++ (cs[k] ++ (cs.drop (k + 1)).flatten) := by
    rw [← List.flatten_cons, ← List.drop_eq_getElem_cons hlt, ← List.flatten_append,
      List.take_append_drop]
  rw [textOf, view_charSymbols hk, StringView.text]
  conv_lhs => rw [hsplit]
  rw [List.drop_left, List.take_left]

theorem tiles_charSymbols (hne : ∀ c ∈ cs, c ≠ []) (m k : ℕ) (hlen : k + m = cs.length) :
    Tiles (charSymbols 0 0 cs) (cs.take k).flatten.length (List.range' k m) cs.flatten.length := by
  induction m generalizing k with
  | zero =>
    show (cs.take k).flatten.length = cs.flatten.length
    rw [List.take_of_length_le (by omega)]
  | succ m ih =>
    obtain ⟨c, hk⟩ : ∃ c, cs[k]? = some c := ⟨_, List.getElem?_eq_getElem (by omega)⟩
    have hnext : (cs.take k).flatten.length + c.length = (cs.take (k + 1)).flatten.length := by
      rw [List.take_add_one, hk, Option.toList_some, List.flatten_append, List.length_append,
        List.flatten_singleton]
    rw [List.range'_succ, Tiles, view_charSymbols hk]
    dsimp only
    rw [hnext]
    exact ⟨rfl, List.length_pos_iff.2 (hne c (List.mem_of_getElem? hk)), ih (k + 1) (by omega)⟩

theorem seg_range' {left right : ℕ → Option ℕ} {n : ℕ} (m k : ℕ) (hlen : k + m = n)
    (hl : ∀ i, i < n → left i = if i = 0 then none else some (i - 1))
    (hr : ∀ i, i < n → right i = if i + 1 = n then none else some (i + 1)) :
    Seg left right (if k = 0 then none else some (k - 1)) (List.range' k m) none := by
  induction m generalizing k with
  | zero => trivial
  | succ m ih =>
    rw [List.range'_succ]
    refine ⟨hl k (by omega), ?_, ih (k + 1) (by omega)⟩
    rw [hr k (by omega)]
    cases m with
    | zero => exact if_pos (by omega)
    | succ m => exact if_neg (by omega)

/-- **At first every character is a symbol.** -/
theorem live_charSymbols (hcs : cs ≠ []) (hne : ∀ c ∈ cs, c ≠ []) :
    Live cs.flatten (fun i => (cs.take i).flatten.length) (charSymbols 0 0 cs)
      (List.range cs.length) := by
  have hget : ∀ i, i < cs.length → ∃ c, cs[i]? = some c := fun i hi =>
    ⟨_, List.getElem?_eq_getElem hi⟩
  refine ⟨?_, List.pairwise_lt_range, ?_, ?_, fun i hi => ?_, fun i hi => ?_, fun x hx => ?_⟩
  · rw [List.range_eq_range']
    refine seg_range' cs.length 0 (Nat.zero_add _) (fun i hi => ?_) fun i hi => ?_
    · obtain ⟨c, hc⟩ := hget i hi
      rw [prevOf, getElem?_charSymbols, hc]
      simp
    · obtain ⟨c, hc⟩ := hget i hi
      rw [nextOf, getElem?_charSymbols, hc]
      simp
  · obtain ⟨n, hn⟩ := Nat.exists_eq_succ_of_ne_zero (mt List.length_eq_zero_iff.1 hcs)
    rw [hn, List.range_succ_eq_map]
    rfl
  · rw [List.range_eq_range']
    exact tiles_charSymbols hne cs.length 0 (Nat.zero_add _)
  · obtain ⟨c, hc⟩ := hget i (List.mem_range.1 hi)
    rw [view_charSymbols hc]
  · have hnone : cs[i]? = none := List.getElem?_eq_none (by simpa using hi)
    rw [view, getElem?_charSymbols, hnone]
    rfl
  · obtain ⟨k, hk⟩ := List.getElem?_of_mem hx
    rw [getElem?_charSymbols] at hk
    obtain ⟨c, -, rfl⟩ := Option.map_eq_some_iff.1 hk
    rfl

end Start

/-! ### The encoder -/

section Encode

variable {K : Type} [LinearOrder K] {agenda : HeapOps (SymbolPair K) SymbolPair.Before}
  {v : Vocab K} {origin : ℕ → ℕ} {live u w : List ℕ} {s s' : State agenda}

theorem range_eq_append {k n : ℕ} (hk : k + 1 < n) :
    List.range n = List.range k ++ k :: (k + 1) :: List.range' (k + 2) (n - (k + 2)) := by
  have hn : n = k + (1 + (1 + (n - (k + 2)))) := by omega
  conv_lhs => rw [hn]
  simp only [List.range_eq_range', ← List.range'_append_1, Nat.zero_add, List.range'_one,
    List.singleton_append, Nat.add_assoc]

theorem eq_succ_of_range_eq {n i j : ℕ} (h : List.range n = u ++ i :: j :: w) : j = i + 1 := by
  have hget : ∀ k x : ℕ, (u ++ i :: j :: w)[k]? = some x → x = k := by
    intro k x hx
    rw [← h] at hx
    obtain ⟨hlt, rfl⟩ := List.getElem?_eq_some_iff.1 hx
    exact List.getElem_range hlt
  have hi := hget u.length i (by simp)
  have hj := hget (u.length + 1) j (by simp)
  rw [hi, hj]

variable (agenda) in
/-- **All pairs are looked up.** -/
theorem start_spec (hv : v.Good) {symbols : List Symbol} {n : ℕ} (hn : symbols.length = n)
    (hpos : 0 < n) (hlive : Live input origin symbols (List.range n)) :
    ∃ s, start agenda v input symbols = some s ∧ s.symbols = symbols ∧
      agenda.size s.agenda ≤ n ∧ Holds v input origin (List.range n) (fun _ _ => False) s := by
  -- the pairs whose right end is `k` or more are still to be added
  have hloop : ∀ m k (s : State agenda), k + 1 + m = n →
      Holds v input origin (List.range n) (fun _ q => k < q) s →
        ∃ s', (List.range' (k + 1) m).foldlM
            (fun s i => maybeAddNewSymbolPair v input s (some (i - 1)) (some i)) s = some s' ∧
          s'.symbols = s.symbols ∧ agenda.size s'.agenda ≤ agenda.size s.agenda + m ∧
          Holds v input origin (List.range n) (fun _ _ => False) s' := by
    intro m
    induction m with
    | zero =>
      intro k s hk h
      refine ⟨s, rfl, rfl, le_rfl, h.weaken fun u p q w heq htodo => ?_⟩
      have hq : q ∈ List.range n := by
        rw [heq]
        simp
      rw [List.mem_range] at hq
      omega
    | succ m ih =>
      intro k s hk h
      obtain ⟨s₁, hs₁, hsymbols₁, hsize₁, hholds₁⟩ := h.add hv (range_eq_append (k := k) (by omega))
      obtain ⟨s', hs', hsymbols, hsize, hholds⟩ := ih (k + 1) s₁ (by omega)
        (hholds₁.weaken fun u p q w heq htodo => by
          have hsucc := eq_succ_of_range_eq heq
          omega)
      refine ⟨s', ?_, hsymbols.trans hsymbols₁, by omega, hholds⟩
      rw [List.range'_succ, List.foldlM_cons, Nat.add_sub_cancel, hs₁]
      exact hs'
  obtain ⟨s, hs, hsymbols, hsize, hholds⟩ := hloop (n - 1) 0 { symbols, agenda := agenda.empty }
    (by omega) ⟨hlive, fun e he => by
      rw [agenda.elems_empty] at he
      exact absurd he (Multiset.notMem_zero e), fun u i j w heq htodo => by
        have hsucc := eq_succ_of_range_eq heq
        omega, rfl⟩
  refine ⟨s, ?_, hsymbols, ?_, hholds⟩
  · rw [start, hn]
    exact hs
  · rw [HeapOps.size_empty] at hsize
    omega

theorem mergeLoop_more {fuel : ℕ} (h : mergeLoop v input fuel s = some s') (more : ℕ) :
    mergeLoop v input (fuel + more) s = some s' := by
  induction fuel generalizing s with
  | zero => cases h
  | succ fuel ih =>
    rw [Nat.succ_add]
    unfold mergeLoop at h ⊢
    cases hpop : agenda.pop s.agenda with
    | none =>
      rw [hpop] at h
      exact h
    | some p =>
      rw [hpop] at h
      simp only [Option.bind_eq_bind, Option.bind_eq_some_iff] at h ⊢
      obtain ⟨t, ht, hrest⟩ := h
      exact ⟨t, ht, ih hrest⟩

/-- **The pieces at the end**: one for each symbol that is not empty. -/
theorem Holds.collect (hv : v.Good) (hne : v.sentencePieces ≠ [])
    (h : Holds v input origin (u ++ w) (fun _ _ => False) s) {fuel : ℕ} (hfuel : w.length ≤ fuel) :
    Sentencepiece.collect v input s fuel w.head? =
      some (w.map fun i => (view s.symbols i, v.pieceToId (textOf input s.symbols i))) := by
  induction w generalizing u fuel with
  | nil => cases fuel <;> rfl
  | cons i w ih =>
    cases fuel with
    | zero => cases hfuel
    | succ fuel =>
      have hbounds := h.linked.tiles.bounds (i := i) (by simp)
      obtain ⟨x, hx⟩ := exists_symbol hbounds.2.1
      have hnext := h.linked.links.neighbours.2
      rw [nextOf, hx, Option.bind_some] at hnext
      have hstr : x.piece.toString input = some (textOf input s.symbols i) := by
        rw [view_eq hx] at hbounds
        rw [textOf, view_eq hx]
        exact if_pos hbounds.2.2
      obtain ⟨p, hp⟩ : ∃ p, v.sentencePieces[v.pieceToId (textOf input s.symbols i)]? = some p :=
        ⟨_, List.getElem?_eq_getElem (hv.pieceToId_lt hne _)⟩
      have hunused : v.isUnused (v.pieceToId (textOf input s.symbols i)) =
          some (decide (p.type = .unused)) := by rw [Vocab.isUnused, hp, Option.map_some]
      have hresegment : resegment v input s (fuel + 1) x.piece =
          some [(x.piece, v.pieceToId (textOf input s.symbols i))] := by
        simp only [resegment, hstr, hunused, h.revMerge, Option.bind_eq_bind, Option.bind_some]
        split_ifs <;> rfl
      have hrest := ih (u := u ++ [i]) (by rw [List.append_assoc]; exact h)
        (Nat.le_of_succ_le_succ hfuel)
      rw [List.head?_cons, Sentencepiece.collect]
      simp only [hx, hresegment, hnext, hrest, Option.bind_eq_bind, Option.bind_some,
        List.map_cons, view_eq hx]
      rfl

variable (agenda) in
/-- The encoder ends, from some number of passes on, with the pieces of the reference, whose texts
make up the input, and applies no entry that is out of date. -/
def Encodes (v : Vocab K) (input : List UInt8) : Prop :=
  (∃ fuel result tokens, (∀ more, bpeEncode agenda v input (fuel + more) = some result) ∧
    result.mapM (fun p => p.1.toString input) = some tokens ∧
    result.map Prod.snd = tokens.map v.pieceToId ∧
    Merges (pieceKey v) (chars input.length input) tokens ∧ tokens.flatten = input) ∧
  ∀ fuel symbols s t, splitChars input fuel ⟨0, input.length⟩ [] = some symbols →
    start agenda v input symbols = some s → Relation.ReflTransGen (Passes v input) s t →
      AppliesFresh v input t

theorem length_le_flatten {α : Type*} {cs : List (List α)} (h : ∀ c ∈ cs, c ≠ []) :
    cs.length ≤ cs.flatten.length := by
  induction cs with
  | nil => exact Nat.zero_le _
  | cons c cs ih =>
    rw [List.forall_mem_cons] at h
    have hc := List.length_pos_iff.2 h.1
    rw [List.flatten_cons, List.length_append, List.length_cons]
    exact (Nat.add_le_add (ih h.2) hc).trans_eq (Nat.add_comm _ _)

variable (agenda) in
/-- The state before the main loop. -/
theorem holds_start (hv : v.Good) (hne : input ≠ []) :
    ∃ s n, start agenda v input (charSymbols 0 0 (chars input.length input)) = some s ∧
      0 < n ∧ n ≤ input.length ∧ agenda.size s.agenda ≤ n ∧
      (∃ origin, Holds v input origin (List.range n) (fun _ _ => False) s) ∧
      (List.range n).map (textOf input s.symbols) = chars input.length input := by
  have hflat : (chars input.length input).flatten = input := chars_flatten le_rfl
  have hnonempty : ∀ c ∈ chars input.length input, c ≠ [] := fun c hc => ne_nil_of_mem_chars hc
  generalize hcs : chars input.length input = cs at *
  have hcsne : cs ≠ [] := by
    rintro rfl
    exact hne hflat.symm
  have hlen : (charSymbols 0 0 cs).length = cs.length := by
    have hget := getElem?_charSymbols cs 0 0
    refine le_antisymm (List.getElem?_eq_none_iff.1 ?_) (List.getElem?_eq_none_iff.1 ?_)
    · rw [hget, List.getElem?_eq_none le_rfl, Option.map_none]
    · have hnone := (hget (charSymbols 0 0 cs).length).symm
      rwa [List.getElem?_eq_none le_rfl, Option.map_eq_none_iff] at hnone
  have hlive := live_charSymbols hcsne hnonempty
  rw [hflat] at hlive
  obtain ⟨s, hs, hsymbols, hsize, hholds⟩ :=
    start_spec agenda hv hlen (List.length_pos_iff.2 hcsne) hlive
  refine ⟨s, cs.length, hs, List.length_pos_iff.2 hcsne,
    (length_le_flatten hnonempty).trans_eq (congrArg List.length hflat), hsize, ⟨_, hholds⟩, ?_⟩
  rw [hsymbols]
  refine List.ext_getElem? fun k => ?_
  rw [List.getElem?_map]
  by_cases hk : k < cs.length
  · have htext := textOf_charSymbols (List.getElem?_eq_getElem hk)
    rw [hflat] at htext
    rw [List.getElem?_range hk, List.getElem?_eq_getElem hk, Option.map_some, htext]
  · rw [List.getElem?_eq_none (by simpa using hk), List.getElem?_eq_none (by simpa using hk),
      Option.map_none]

theorem isEmpty_charSymbols (hne : input ≠ []) :
    (charSymbols 0 0 (chars input.length input)).isEmpty = false := by
  cases hcs : chars input.length input with
  | nil => exact absurd ((chars_flatten le_rfl).symm.trans (congrArg _ hcs)) hne
  | cons c cs => rfl

/-- **Where the vocabulary is not empty and the length of the text is an `int`.** -/
theorem encodes_of_lt (hv : v.Good) (hpieces : v.sentencePieces ≠ []) (hne : input ≠ [])
    (hlt : input.length < 2 ^ 31) : Encodes agenda v input := by
  obtain ⟨s, n, hstart, hpos, hn, hsize, ⟨origin, hholds⟩, htexts⟩ :=
    holds_start agenda hv hne
  refine ⟨?_, fun fuel symbols s' t hsymbols hs' ht => ?_⟩
  · have hfuel : agenda.size s.agenda + 2 * (List.range n).length < 3 * input.length + 1 := by
      rw [List.length_range]
      omega
    obtain ⟨s', live, hloop, hholds', hlen, hmerges⟩ := hholds.mergeLoop hv hfuel
    rw [List.length_range] at hlen
    rw [htexts] at hmerges
    have htext : ∀ i ∈ live,
        (view s'.symbols i).toString input = some (textOf input s'.symbols i) :=
      fun i hi => if_pos (hholds'.linked.tiles.bounds hi).2.2
    refine ⟨3 * input.length + 1, live.map fun i =>
      (view s'.symbols i, v.pieceToId (textOf input s'.symbols i)), _, fun more => ?_, ?_, ?_,
      hmerges, hmerges.flatten.trans (chars_flatten le_rfl)⟩
    · have hcollect := hholds'.collect (u := []) hv hpieces
        (show live.length ≤ 3 * input.length + 1 + more by omega)
      rw [hholds'.linked.head] at hcollect
      have hsplit := splitChars_input hlt
        (show input.length ≤ 3 * input.length + 1 + more by omega)
      simp only [bpeEncode, hsplit, isEmpty_charSymbols hne, hstart, mergeLoop_more hloop more,
        Option.bind_eq_bind, Option.bind_some, Bool.false_eq_true, if_false]
      exact hcollect
    · rw [List.mapM_map]
      exact mapM_eq_some htext
    · rw [List.map_map, List.map_map]
      rfl
  · have hmore := splitChars_more hsymbols input.length
    rw [splitChars_input hlt (Nat.le_add_left _ _)] at hmore
    rw [← Option.some.inj hmore, hstart] at hs'
    obtain rfl := Option.some.inj hs'
    obtain ⟨live, hholds'⟩ := hholds.passes hv ht
    exact hholds'.appliesFresh hv

/-- Without a piece there is none to look at. -/
theorem collect_eq_none (hpieces : v.sentencePieces = []) (fuel i : ℕ) :
    collect v input s fuel (some i) = none := by
  have hunused : ∀ id, v.isUnused id = none := fun id => by
    rw [Vocab.isUnused, hpieces, List.getElem?_nil, Option.map_none]
  cases fuel with
  | zero => rfl
  | succ fuel =>
    rw [collect]
    cases s.symbols[i]? with
    | none => rfl
    | some x =>
      have hnone : resegment v input s (fuel + 1) x.piece = none := by
        rw [resegment]
        cases x.piece.toString input with
        | none => rfl
        | some text =>
          simp only [hunused, Option.bind_eq_bind, Option.bind_some, Option.bind_none]
      simp only [hnone, Option.bind_eq_bind, Option.bind_some, Option.bind_none]

/-- The empty text has no piece. -/
theorem encodes_nil (v : Vocab K) : Encodes agenda v [] := by
  have hsplit : ∀ fuel, splitChars [] fuel ⟨0, 0⟩ [] = some [] := fun fuel => by
    cases fuel <;> rfl
  refine ⟨⟨0, [], [], fun more => ?_, rfl, rfl, .stop rfl, rfl⟩,
    fun fuel symbols s t hs hstart ht => ?_⟩
  · rw [bpeEncode, List.length_nil, hsplit]
    rfl
  · obtain rfl := Option.some.inj ((hsplit fuel).symm.trans hs)
    obtain rfl := Option.some.inj hstart
    have hpop : agenda.pop agenda.empty = none := (agenda.pop_eq_none _).2 agenda.elems_empty
    rcases ht.cases_head with rfl | ⟨t', ⟨top, rest, hsome, -⟩, -⟩
    · intro top rest l r hsome
      cases hpop.symm.trans hsome
    · cases hpop.symm.trans hsome

/-- A text that is too long is not encoded. -/
theorem not_encodes_of_le (hle : 2 ^ 31 ≤ input.length) : ¬ Encodes agenda v input := by
  rintro ⟨⟨fuel, result, tokens, hresult, -⟩, -⟩
  have hrun := hresult 0
  have hnone : splitChars input (fuel + 0) ⟨0, input.length⟩ [] = none := splitChars_eq_none hle []
  simp only [bpeEncode, hnone, Option.bind_eq_bind, Option.bind_none, reduceCtorEq] at hrun

/-- Without a vocabulary the loop at the end looks at a piece that is not there. -/
theorem not_encodes_of_nil (hpieces : v.sentencePieces = []) (hne : input ≠ []) :
    ¬ Encodes agenda v input := by
  rcases Nat.lt_or_ge input.length (2 ^ 31) with hlt | hle
  · rintro ⟨⟨fuel, result, tokens, hresult, -⟩, -⟩
    have hrun := hresult input.length
    have hsplit := splitChars_input hlt (Nat.le_add_left input.length fuel)
    simp only [bpeEncode, hsplit, isEmpty_charSymbols hne, collect_eq_none hpieces,
      Option.bind_eq_bind, Option.bind_some,
      Option.bind_fun_none, Bool.false_eq_true, if_false, reduceCtorEq] at hrun
  · exact not_encodes_of_le hle

/-- **Main theorem.**  The pieces are those of the reference exactly when the vocabulary is not empty
and the length of the text is an `int`, or there is no text. -/
theorem encodes_iff (lines : List (SentencePiece K)) (input : List UInt8) :
    Encodes agenda (loadVocab lines) input ↔
      input = [] ∨ lines ≠ [] ∧ input.length < 2 ^ 31 := by
  obtain ⟨hv, hlines⟩ := good_loadVocab lines
  by_cases hinput : input = []
  · rw [hinput]
    exact ⟨fun _ => .inl rfl, fun _ => encodes_nil _⟩
  constructor
  · refine fun h => .inr ⟨?_, ?_⟩
    · rintro rfl
      exact not_encodes_of_nil hlines hinput h
    · exact lt_of_not_ge fun hle => not_encodes_of_le hle h
  · rintro (hnil | ⟨hne, hlt⟩)
    · exact absurd hnil hinput
    · exact encodes_of_lt hv (hlines.symm ▸ hne) hinput hlt

instance : IsStrictOrder (SymbolPair K) SymbolPair.Before where
  irrefl a h := h.elim (lt_irrefl _) fun h => lt_irrefl _ h.2
  trans a b c hab hbc := by
    rcases hab with hab | ⟨heq, hab⟩
    · rcases hbc with hbc | ⟨heq', -⟩
      · exact .inl (hbc.trans hab)
      · exact .inl (heq' ▸ hab)
    · rcases hbc with hbc | ⟨heq', hbc⟩
      · exact .inl (heq.symm ▸ hbc)
      · exact .inr ⟨heq.trans heq', hab.trans hbc⟩

instance : DecidableRel (SymbolPair.Before (K := K)) := fun a b =>
  inferInstanceAs (Decidable (b.score < a.score ∨ a.score = b.score ∧ a.left < b.left))

/-- One letter, and no vocabulary. -/
theorem not_encodes_letter :
    ¬ Encodes (listHeap SymbolPair.Before) (loadVocab ([] : List (SentencePiece ℤ))) [97] :=
  not_encodes_of_nil rfl (List.cons_ne_nil _ _)

end Encode

end Mnn.Sentencepiece
