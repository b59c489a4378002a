import Mathlib.Tactic
import Mathlib.Data.List.Infix

/-!
# The prefix tree of the tokenizer

`Trie` of `transformers/llm/engine/src/tokenizer.hpp`: a vector of nodes, each with a map from bytes
to node numbers and a token id (`-1` for none).  Nodes are taken from the vector by `getFree`, which
doubles it when it is full.

An iterator is the list of the bytes that can be read from it on, so that advancing it is taking the
tail and reading through an exhausted iterator is a fault (`none`).

* `insertFrom`, `insert`, `findFrom`, `find`: the source's functions;
* `Labelled t path idOf`: node `n` of `t` stands for the word `path n`, and its id is `idOf` of it;
* `insertFrom_labelled`: inserting a word adds its prefixes as nodes and sets its id when unset;
* `findFrom_none_iff`, `findFrom_some`: the search faults exactly when it can follow everything
  there is to read, and otherwise stops at the longest word with an id.
-/

namespace Mnn

structure TrieNode where
  children : List (UInt8 × ℕ) := []
  id : ℤ := -1
  deriving DecidableEq

structure Trie where
  list : List TrieNode
  size : ℕ

namespace Trie

/-- The constructor `Trie(int initial_size)`. -/
def new (initialSize : ℕ) : Trie := ⟨List.replicate initialSize {}, 1⟩

def node (t : Trie) (n : ℕ) : TrieNode := t.list.getD n {}

def getFree (t : Trie) : ℕ × Trie :=
  if t.size < t.list.length then (t.size, { t with size := t.size + 1 })
  else (t.size,
    { list := t.list ++ List.replicate (t.list.length * 2 - t.list.length) {}, size := t.size + 1 })

def addChild (t : Trie) (n : ℕ) (c : UInt8) (child : ℕ) : Trie :=
  { t with list := t.list.modify n fun v => { v with children := (c, child) :: v.children } }

def setId (t : Trie) (n : ℕ) (tokenId : ℤ) : Trie :=
  { t with list := t.list.modify n fun v => { v with id := tokenId } }

/-- The recursive `Trie::insert`. -/
def insertFrom (t : Trie) (nid : ℕ) (tokenId : ℤ) : List UInt8 → Trie
  | [] => if (t.node nid).id = -1 then t.setId nid tokenId else t
  | c :: rest =>
    match (t.node nid).children.lookup c with
    | none =>
      let (newId, t') := t.getFree
      (t'.addChild nid c newId).insertFrom newId tokenId rest
    | some cid => t.insertFrom cid tokenId rest

def insert (t : Trie) (entry : List UInt8 × ℤ) : Trie := t.insertFrom 0 entry.2 entry.1

/-- The recursive `Trie::find`.  The result is the id and the iterator it leaves with the caller;
`none` is a read through the exhausted iterator. -/
def findFrom (t : Trie) (nid : ℕ) (currentMatched : ℤ) (currentIt : List UInt8) :
    List UInt8 → Option (ℤ × List UInt8)
  | [] => none
  | c :: rest =>
    let v := t.node nid
    let (currentMatched, currentIt) :=
      if v.id ≠ -1 then (v.id, c :: rest) else (currentMatched, currentIt)
    match v.children.lookup c with
    | some cid => t.findFrom cid currentMatched currentIt rest
    | none => if v.id ≠ -1 then some (v.id, c :: rest) else some (currentMatched, currentIt)

/-- `Trie::find`.  The iterator stands at the end when `pad`, the bytes readable from the end on, is
all that is left. -/
def find (t : Trie) (it pad : List UInt8) : Option (ℤ × List UInt8) :=
  if it.length = pad.length then some (-1, it) else t.findFrom 0 (-1) it.tail it

/-! ### Nodes -/

/-- Nodes stand for distinct words, closed under prefixes; edges append a byte; words that are not
nodes have no id. -/
structure Labelled (t : Trie) (path : ℕ → List UInt8) (idOf : List UInt8 → ℤ) : Prop where
  size_pos : 0 < t.size
  size_le : t.size ≤ t.list.length
  root : path 0 = []
  inj : ∀ m < t.size, ∀ n < t.size, path m = path n → m = n
  child : ∀ n < t.size, ∀ c m,
    (t.node n).children.lookup c = some m ↔ m < t.size ∧ path m = path n ++ [c]
  parent : ∀ m < t.size, ∀ p c, path m = p ++ [c] → ∃ n < t.size, path n = p
  id : ∀ n < t.size, (t.node n).id = idOf (path n)
  noId : ∀ p, (∀ n < t.size, path n ≠ p) → idOf p = -1
  unused : ∀ n, t.size ≤ n → t.node n = {}

/-- The word `p` is the path of a node. -/
def IsNode (t : Trie) (path : ℕ → List UInt8) (p : List UInt8) : Prop := ∃ n < t.size, path n = p

theorem Labelled.isNode_of_prefix {t : Trie} {path idOf} (h : t.Labelled path idOf)
    {p q : List UInt8} (hq : t.IsNode path (p ++ q)) : t.IsNode path p := by
  induction q using List.reverseRecOn with
  | nil => simpa using hq
  | append_singleton q c ih =>
    obtain ⟨m, hm, hpath⟩ := hq
    exact ih (h.parent m hm (p ++ q) c (by rw [hpath, List.append_assoc]))

theorem Labelled.idOf_eq {t : Trie} {path idOf} (h : t.Labelled path idOf) {p : List UInt8}
    (hp : ¬ t.IsNode path p) : idOf p = -1 :=
  h.noId p fun n hn hpn => hp ⟨n, hn, hpn⟩

theorem node_new (initialSize n : ℕ) : (new initialSize).node n = {} := by
  simp only [node, new, List.getD_eq_getElem?_getD, List.getElem?_replicate]
  split_ifs <;> rfl

/-- The empty tree has one node, for the empty word. -/
theorem new_labelled {initialSize : ℕ} (h : 0 < initialSize) :
    (new initialSize).Labelled (fun _ => []) (fun _ => -1) where
  size_pos := Nat.one_pos
  size_le := by simpa [new] using Nat.succ_le_of_lt h
  root := rfl
  inj m hm n hn _ := by simp only [new] at hm hn; omega
  child n _ c m := by simp [node_new]
  parent m _ p c hp := by simp at hp
  id n _ := by rw [node_new]
  noId _ _ := rfl
  unused n _ := node_new _ n

section Updates

variable (t : Trie)

@[simp] theorem getFree_fst : t.getFree.1 = t.size := by
  unfold getFree; split_ifs <;> rfl

@[simp] theorem getFree_size : t.getFree.2.size = t.size + 1 := by
  unfold getFree; split_ifs <;> rfl

theorem getFree_node (n : ℕ) : t.getFree.2.node n = t.node n := by
  unfold getFree
  split_ifs
  · rfl
  · simp only [node, List.getD_eq_getElem?_getD]
    rcases lt_or_ge n t.list.length with hn | hn
    · rw [List.getElem?_append_left hn]
    · rw [List.getElem?_append_right hn, List.getElem?_replicate,
        List.getElem?_eq_none hn]
      split_ifs <;> rfl

theorem size_lt_getFree_length (h : 0 < t.size) (hle : t.size ≤ t.list.length) :
    t.size < t.getFree.2.list.length := by
  unfold getFree
  split_ifs with hlt
  · exact hlt
  · simp only [List.length_append, List.length_replicate]
    omega

theorem modify_node (f : TrieNode → TrieNode) (n m : ℕ) (hn : n < t.list.length) :
    ({ t with list := t.list.modify n f } : Trie).node m =
      if m = n then f (t.node n) else t.node m := by
  simp only [node, List.getD_eq_getElem?_getD, List.getElem?_modify]
  by_cases h : m = n
  · subst h
    simp [List.getElem?_eq_getElem hn]
  · simp [h, Ne.symm h]

end Updates

/-! ### Insertion -/

section AddLeaf

variable {t : Trie} {path : ℕ → List UInt8} {idOf : List UInt8 → ℤ} (h : t.Labelled path idOf)
  {nid : ℕ} (hnid : nid < t.size) {c : UInt8}

include h hnid

theorem Labelled.addLeaf_node (m : ℕ) : (t.getFree.2.addChild nid c t.size).node m =
    if m = nid then { t.node nid with children := (c, t.size) :: (t.node nid).children }
    else t.node m := by
  rw [addChild, modify_node _ _ _ _ (hnid.trans (size_lt_getFree_length t h.size_pos h.size_le))]
  simp only [getFree_node]

variable (hc : (t.node nid).children.lookup c = none)

include hc

/-- The path to the new leaf is new. -/
theorem Labelled.path_ne {m : ℕ} (hm : m < t.size) : path m ≠ path nid ++ [c] := by
  intro hp
  have hlookup := (h.child nid hnid c m).2 ⟨hm, hp⟩
  rw [hc] at hlookup
  cases hlookup

/-- The edges of an old node: only the edge `c` out of `nid` is new. -/
theorem Labelled.addLeaf_child {n : ℕ} (hn : n < t.size) (c' : UInt8) (m : ℕ) :
    ((t.getFree.2.addChild nid c t.size).node n).children.lookup c' = some m ↔
      (m < t.size ∧ path m = path n ++ [c']) ∨ (m = t.size ∧ n = nid ∧ c' = c) := by
  rw [h.addLeaf_node hnid, ← h.child n hn c' m]
  by_cases hnn : n = nid
  · subst hnn
    by_cases hcc : c' = c
    · subst hcc
      simp [hc, eq_comm]
    · have hbeq : (c' == c) = false := by simpa using hcc
      simp [List.lookup_cons, hcc, hbeq]
  · simp [hnn]

/-- Hanging a new leaf below node `nid`. -/
theorem Labelled.addLeaf : (t.getFree.2.addChild nid c t.size).Labelled
    (Function.update path t.size (path nid ++ [c])) idOf := by
  have hsize : (t.getFree.2.addChild nid c t.size).size = t.size + 1 := getFree_size t
  have hold : ∀ m < t.size, Function.update path t.size (path nid ++ [c]) m = path m :=
    fun m hm => Function.update_of_ne hm.ne _ _
  have hnew : ∀ m < t.size, path m ≠ path nid ++ [c] := fun m hm => h.path_ne hnid hc hm
  refine ⟨?_, ?_, ?_, ?_, ?_, ?_, ?_, ?_, ?_⟩
  · rw [hsize]
    exact Nat.succ_pos _
  · rw [hsize]
    simpa [addChild] using size_lt_getFree_length t h.size_pos h.size_le
  · rw [hold 0 h.size_pos, h.root]
  · intro m hm n hn hp
    rw [hsize] at hm hn
    rcases Nat.lt_succ_iff_lt_or_eq.1 hm with hm | rfl <;>
      rcases Nat.lt_succ_iff_lt_or_eq.1 hn with hn | rfl
    · rw [hold m hm, hold n hn] at hp
      exact h.inj m hm n hn hp
    · rw [hold m hm, Function.update_self] at hp
      exact absurd hp (hnew m hm)
    · rw [hold n hn, Function.update_self] at hp
      exact absurd hp.symm (hnew n hn)
    · rfl
  · intro n hn c' m
    rw [hsize] at hn ⊢
    rcases Nat.lt_succ_iff_lt_or_eq.1 hn with hn | rfl
    · rw [hold n hn, h.addLeaf_child hnid hc hn]
      constructor
      · rintro (⟨hm, hp⟩ | ⟨rfl, rfl, rfl⟩)
        · exact ⟨hm.trans (Nat.lt_succ_self _), by rwa [hold m hm]⟩
        · exact ⟨Nat.lt_succ_self _, Function.update_self ..⟩
      · rintro ⟨hm, hp⟩
        rcases Nat.lt_succ_iff_lt_or_eq.1 hm with hm | rfl
        · exact .inl ⟨hm, by rwa [hold m hm] at hp⟩
        · rw [Function.update_self] at hp
          obtain ⟨hp1, hp2⟩ := List.append_inj' hp rfl
          exact .inr ⟨rfl, h.inj n hn nid hnid hp1.symm, by simpa using hp2.symm⟩
    · -- the new leaf has no edges
      rw [h.addLeaf_node hnid, if_neg hnid.ne', h.unused t.size le_rfl, Function.update_self]
      refine ⟨fun hm => by simp at hm, fun ⟨hm, hp⟩ => ?_⟩
      rcases Nat.lt_succ_iff_lt_or_eq.1 hm with hm | rfl
      · rw [hold m hm] at hp
        obtain ⟨k, hk, hpk⟩ := h.parent m hm _ c' hp
        exact absurd hpk (hnew k hk)
      · rw [Function.update_self] at hp
        exact absurd (congrArg List.length hp) (by simp)
  · intro m hm p c' hp
    rw [hsize] at hm ⊢
    have hlift : (∃ n < t.size, path n = p) →
        ∃ n < t.size + 1, Function.update path t.size (path nid ++ [c]) n = p := by
      rintro ⟨n, hn, hpn⟩
      exact ⟨n, hn.trans (Nat.lt_succ_self _), by rwa [hold n hn]⟩
    rcases Nat.lt_succ_iff_lt_or_eq.1 hm with hm | rfl
    · rw [hold m hm] at hp
      exact hlift (h.parent m hm p c' hp)
    · rw [Function.update_self] at hp
      exact hlift ⟨nid, hnid, (List.append_inj' hp rfl).1⟩
  · intro n hn
    rw [hsize] at hn
    rw [h.addLeaf_node hnid]
    rcases Nat.lt_succ_iff_lt_or_eq.1 hn with hn | rfl
    · rw [hold n hn, ← h.id n hn]
      split_ifs with hnn
      · rw [hnn]
      · rfl
    · rw [if_neg hnid.ne', h.unused t.size le_rfl, Function.update_self]
      exact (h.noId _ hnew).symm
  · intro p hp
    rw [hsize] at hp
    exact h.noId p fun n hn => by
      have := hp n (hn.trans (Nat.lt_succ_self _))
      rwa [hold n hn] at this
  · intro n hn
    rw [hsize] at hn
    rw [h.addLeaf_node hnid, if_neg (by omega)]
    exact h.unused n (by omega)

end AddLeaf

/-- Setting the id of a node that has none. -/
theorem Labelled.setId {t : Trie} {path idOf} (h : t.Labelled path idOf) {nid : ℕ}
    (hnid : nid < t.size) (tokenId : ℤ) :
    (t.setId nid tokenId).Labelled path (Function.update idOf (path nid) tokenId) := by
  have hnode : ∀ m, (t.setId nid tokenId).node m =
      if m = nid then { t.node nid with id := tokenId } else t.node m :=
    fun m => modify_node _ _ _ _ (hnid.trans_le h.size_le)
  refine ⟨h.size_pos, ?_, h.root, h.inj, ?_, h.parent, ?_, ?_, ?_⟩
  · simpa [Trie.setId] using h.size_le
  · intro n hn c m
    have hch := h.child n hn c m
    rw [hnode]
    split_ifs with hnn
    · rwa [hnn] at hch ⊢
    · exact hch
  · intro n hn
    rw [hnode]
    split_ifs with hnn
    · rw [hnn, Function.update_self]
    · rw [Function.update_of_ne fun hp => hnn (h.inj n hn nid hnid hp)]
      exact h.id n hn
  · intro p hp
    rw [Function.update_of_ne (hp nid hnid).symm]
    exact h.noId p hp
  · intro n hn
    have hn' : t.size ≤ n := hn
    rw [hnode, if_neg (by omega)]
    exact h.unused n hn'

/-- Inserting `rest` below node `nid` makes nodes of its prefixes and sets the id of the whole word
when it had none. -/
theorem insertFrom_labelled (tokenId : ℤ) (rest : List UInt8) {t : Trie} {path idOf}
    (h : t.Labelled path idOf) {nid : ℕ} (hnid : nid < t.size) :
    ∃ path', (t.insertFrom nid tokenId rest).Labelled path'
        (if idOf (path nid ++ rest) = -1 then Function.update idOf (path nid ++ rest) tokenId
          else idOf) ∧
      ∀ q, (t.insertFrom nid tokenId rest).IsNode path' q ↔
        t.IsNode path q ∨ ∃ w, w <+: rest ∧ q = path nid ++ w := by
  induction rest generalizing t nid path with
  | nil =>
    refine ⟨path, ?_, fun q => ?_⟩
    · simp only [insertFrom, List.append_nil, h.id nid hnid]
      split_ifs
      · exact h.setId hnid tokenId
      · exact h
    · have hsize : (t.insertFrom nid tokenId []).size = t.size := by
        simp only [insertFrom]; split_ifs <;> rfl
      simp only [IsNode, hsize, List.prefix_nil, exists_eq_left, List.append_nil]
      refine ⟨.inl, fun hq => hq.elim id fun hq => ⟨nid, hnid, hq.symm⟩⟩
  | cons c rest ih =>
    -- after the first byte the insertion goes on from `n`, whose path is one byte longer
    have hstep : ∀ {t' : Trie} {path' : ℕ → List UInt8} {n : ℕ}, t'.Labelled path' idOf →
        n < t'.size → path' n = path nid ++ [c] →
        (∀ q, t'.IsNode path' q ↔ t.IsNode path q ∨ q = path nid ++ [c]) →
        t.insertFrom nid tokenId (c :: rest) = t'.insertFrom n tokenId rest →
        ∃ path'', (t.insertFrom nid tokenId (c :: rest)).Labelled path''
            (if idOf (path nid ++ c :: rest) = -1 then
              Function.update idOf (path nid ++ c :: rest) tokenId else idOf) ∧
          ∀ q, (t.insertFrom nid tokenId (c :: rest)).IsNode path'' q ↔
            t.IsNode path q ∨ ∃ w, w <+: c :: rest ∧ q = path nid ++ w := by
      intro t' path' n h' hn hpn hnodes heq
      obtain ⟨path'', hlab, hq⟩ := ih h' hn
      rw [hpn, List.append_assoc, List.singleton_append] at hlab
      refine ⟨path'', by rwa [heq], fun q => ?_⟩
      rw [heq, hq, hnodes, hpn]
      simp only [List.append_assoc, List.singleton_append, List.prefix_cons_iff]
      constructor
      · rintro ((hq | rfl) | ⟨w, hw, rfl⟩)
        · exact .inl hq
        · exact .inr ⟨[c], .inr ⟨[], rfl, List.nil_prefix⟩, rfl⟩
        · exact .inr ⟨c :: w, .inr ⟨w, rfl, hw⟩, rfl⟩
      · rintro (hq | ⟨w, rfl | ⟨w, rfl, hw⟩, rfl⟩)
        · exact .inl (.inl hq)
        · exact .inl (.inl ⟨nid, hnid, by rw [List.append_nil]⟩)
        · exact .inr ⟨w, hw, rfl⟩
    cases hc : (t.node nid).children.lookup c with
    | some cid =>
      obtain ⟨hcid, hp⟩ := (h.child nid hnid c cid).1 hc
      refine hstep h hcid hp (fun q => ?_) (by rw [insertFrom, hc])
      refine ⟨.inl, fun hq => hq.elim id fun hq => ⟨cid, hcid, hp.trans hq.symm⟩⟩
    | none =>
      have hlab := h.addLeaf hnid hc
      have hsize : (t.getFree.2.addChild nid c t.size).size = t.size + 1 := getFree_size t
      refine hstep hlab (by rw [hsize]; exact Nat.lt_succ_self _) (Function.update_self ..)
        (fun q => ?_) (by rw [insertFrom, hc]; simp only [getFree_fst])
      simp only [IsNode, hsize]
      constructor
      · rintro ⟨m, hm, rfl⟩
        rcases Nat.lt_succ_iff_lt_or_eq.1 hm with hm | rfl
        · exact .inl ⟨m, hm, (Function.update_of_ne hm.ne _ _).symm⟩
        · exact .inr (Function.update_self ..)
      · rintro (⟨m, hm, rfl⟩ | rfl)
        · exact ⟨m, hm.trans (Nat.lt_succ_self _), Function.update_of_ne hm.ne _ _⟩
        · exact ⟨t.size, Nat.lt_succ_self _, Function.update_self ..⟩

/-! ### Search -/

/-- The search faults exactly when it can follow all the bytes there are to read. -/
theorem findFrom_none_iff (it : List UInt8) {t : Trie} {path idOf} (h : t.Labelled path idOf)
    {nid : ℕ} (hnid : nid < t.size) (matched : ℤ) (back : List UInt8) :
    t.findFrom nid matched back it = none ↔ t.IsNode path (path nid ++ it) := by
  induction it generalizing nid matched back with
  | nil =>
    rw [List.append_nil]
    exact iff_of_true rfl ⟨nid, hnid, rfl⟩
  | cons c it ih =>
    cases hc : (t.node nid).children.lookup c with
    | some cid =>
      obtain ⟨hcid, hp⟩ := (h.child nid hnid c cid).1 hc
      rw [findFrom]
      simp only [hc]
      rw [ih hcid, hp, List.append_assoc, List.singleton_append]
    | none =>
      have hno : ¬ t.IsNode path (path nid ++ c :: it) := by
        intro hn
        have hpre : t.IsNode path (path nid ++ [c]) :=
          h.isNode_of_prefix (q := it) (by simpa using hn)
        obtain ⟨m, hm, hp⟩ := hpre
        have := (h.child nid hnid c m).2 ⟨hm, hp⟩
        rw [hc] at this
        exact nomatch this
      rw [findFrom]
      simp only [hc, hno, iff_false]
      split_ifs <;> simp

/-- A search that does not fault returns the longest word with an id among those that continue the
node's word by bytes to read, or what it was given when there is none. -/
theorem findFrom_some (it : List UInt8) {t : Trie} {path idOf} (h : t.Labelled path idOf)
    {nid : ℕ} (hnid : nid < t.size) {matched id : ℤ} {back rest : List UInt8}
    (hfind : t.findFrom nid matched back it = some (id, rest)) :
    (∃ w, w <+: it ∧ idOf (path nid ++ w) ≠ -1 ∧ id = idOf (path nid ++ w) ∧
        rest = it.drop w.length ∧
        ∀ w', w' <+: it → idOf (path nid ++ w') ≠ -1 → w'.length ≤ w.length) ∨
      (∀ w, w <+: it → idOf (path nid ++ w) = -1) ∧ id = matched ∧ rest = back := by
  induction it generalizing nid matched back with
  | nil => exact nomatch hfind
  | cons c it ih =>
    rw [findFrom] at hfind
    cases hc : (t.node nid).children.lookup c with
    | some cid =>
      obtain ⟨hcid, hp⟩ := (h.child nid hnid c cid).1 hc
      simp only [hc, h.id nid hnid] at hfind
      have hword : ∀ w, path cid ++ w = path nid ++ c :: w := fun w => by
        rw [hp, List.append_assoc, List.singleton_append]
      rcases ih hcid hfind with ⟨w, hw, hid, rfl, rfl, hmax⟩ | ⟨hnone, hid, hrest⟩
      · rw [hword] at hid ⊢
        refine .inl ⟨c :: w, List.cons_prefix_cons.2 ⟨rfl, hw⟩, hid, rfl, rfl, ?_⟩
        intro w' hw' hid'
        rcases List.prefix_cons_iff.1 hw' with rfl | ⟨v, rfl, hv⟩
        · exact Nat.zero_le _
        · exact Nat.succ_le_succ (hmax v hv (by rwa [hword]))
      · have hlong : ∀ v, v <+: it → idOf (path nid ++ c :: v) = -1 := fun v hv => by
          rw [← hword]; exact hnone v hv
        split_ifs at hid hrest with h0
        · refine .inl ⟨[], List.nil_prefix, by simpa using h0, by simpa using hid, hrest, ?_⟩
          intro w' hw' hid'
          rcases List.prefix_cons_iff.1 hw' with rfl | ⟨v, rfl, hv⟩
          · exact le_rfl
          · exact absurd (hlong v hv) hid'
        · refine .inr ⟨fun w hw => ?_, hid, hrest⟩
          rcases List.prefix_cons_iff.1 hw with rfl | ⟨v, rfl, hv⟩
          · simpa using h0
          · exact hlong v hv
    | none =>
      simp only [hc, h.id nid hnid] at hfind
      have hlong : ∀ v, idOf (path nid ++ c :: v) = -1 := by
        intro v
        refine h.idOf_eq fun hn => ?_
        obtain ⟨m, hm, hp⟩ := h.isNode_of_prefix (p := path nid ++ [c]) (q := v) (by simpa using hn)
        have := (h.child nid hnid c m).2 ⟨hm, hp⟩
        rw [hc] at this
        exact nomatch this
      split_ifs at hfind with h0
      · cases hfind
        refine .inl ⟨[], List.nil_prefix, by simpa using h0, by simp, rfl, ?_⟩
        intro w' hw' hid'
        rcases List.prefix_cons_iff.1 hw' with rfl | ⟨v, rfl, -⟩
        · exact le_rfl
        · exact absurd (hlong v) hid'
      · cases hfind
        refine .inr ⟨fun w hw => ?_, rfl, rfl⟩
        rcases List.prefix_cons_iff.1 hw with rfl | ⟨v, rfl, -⟩
        · simpa using h0
        · exact hlong v

end Trie

end Mnn
