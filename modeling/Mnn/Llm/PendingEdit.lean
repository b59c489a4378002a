import Mnn.Llm.History

/-!
# Pending edits of the history

Between two forwards `eraseHistory` and `reset` only write into the meta record; the next forward
carries the edit out.  The record keeps an edit in three fields, of which `reserve` is a pointer
into the record's own vector, and the attention layers move the reserved ranges in blocks of `hP`.

* `KVFields`: the record of `kvmeta.hpp` field by field; `toKVMeta` reads it, `toKVMeta_step` shows
  that the steps of `Llm` are the steps of its fields, and `live_step` that the pointer never
  dangles;
* `onRealloc`, `attentionKept`: what `KVCacheManager::onRealloc` and `CPUAttention::onExecute` keep
  of the cached entries;
* `pendingEdits_compose_iff`: **the next forward sees the last valid edit alone, if and only if** no
  earlier range is left in the record (and the range is one that the layers can move).

`eraseHistory` writes the reserved range only when it keeps one, and `reset` never clears it; an
autoregressive step clears `remove` and leaves the range.
-/

namespace Mnn

/-! ### The fields of the record -/

/-- `KVMeta` of `kvmeta.hpp`.  `storage` numbers the allocations of `reserveHost`; the pointer
`reserve` is the number of the allocation it points into. -/
structure KVFields where
  previous : ℕ := 0
  remove : ℕ := 0
  add : ℕ := 0
  reserve : Option ℕ := none
  nReserve : ℕ := 0
  reserveHost : List ℕ := []
  storage : ℕ := 0
  deriving DecidableEq, Repr

namespace KVFields

/-- `reserveHost.resize(n)`: growing moves the elements to a new allocation. -/
def resizeHost (f : KVFields) (n : ℕ) : KVFields :=
  { f with
    reserveHost := f.reserveHost.take n ++ List.replicate (n - f.reserveHost.length) 0
    storage := if f.reserveHost.length < n then f.storage + 1 else f.storage }

/-- `Llm::eraseHistory(begin, end)`. -/
def eraseHistory (f : KVFields) (first last : ℕ) : KVFields :=
  let last := if last = 0 then f.previous else last
  if last > f.previous ∨ first ≥ last then f
  else
    let f := { f with remove := f.previous - first }
    if last ≠ f.previous then
      let f := f.resizeHost 2
      { f with
        reserve := some f.storage
        nReserve := 1
        reserveHost := (f.reserveHost.set 0 (last - first)).set 1 (f.previous - last) }
    else f

/-- `reserve[i]`, read from the allocation the pointer was taken from. -/
def reserveAt (f : KVFields) (i : ℕ) : ℕ := f.reserveHost.getD i 0

/-- `KVMeta::sync`. -/
def sync (f : KVFields) : KVFields :=
  let revertNumber := ((List.range f.nReserve).map fun i => f.reserveAt (2 * i + 1)).sum
  { f with
    previous := f.previous - f.remove + f.add + revertNumber
    nReserve := 0
    reserve := none
    remove := 0
    add := 0 }

/-- The steps of `Llm` on the fields. -/
def step (reuseKv : Bool) (f : KVFields) : Llm.Step → KVFields
  | .eraseHistory first last => f.eraseHistory first last
  | .reset => { f with remove := f.previous }
  | .generateInit => if reuseKv then f else { f with remove := f.previous }
  | .clearRemove => { f with remove := 0 }
  | .forwardVec seqLen => { f with add := seqLen }.sync
  | .dropDrafts rejected => { f with remove := rejected }

/-- The record as its readers see it. -/
def toKVMeta (f : KVFields) : KVMeta where
  previous := f.previous
  remove := f.remove
  reserve := (List.range f.nReserve).map fun i => (f.reserveAt (2 * i), f.reserveAt (2 * i + 1))
  add := f.add

/-- Every pair that is read lies in the current allocation of `reserveHost`. -/
def Live (f : KVFields) : Prop :=
  0 < f.nReserve → f.reserve = some f.storage ∧ 2 * f.nReserve ≤ f.reserveHost.length

theorem length_resizeHost (f : KVFields) (n : ℕ) : (f.resizeHost n).reserveHost.length = n := by
  simp only [resizeHost, List.length_append, List.length_take, List.length_replicate]
  omega

theorem set_set_of_length_two {α : Type*} {l : List α} (h : l.length = 2) (a b : α) :
    (l.set 0 a).set 1 b = [a, b] := by
  obtain ⟨x, y, rfl⟩ := List.length_eq_two.1 h
  rfl

/-- The three ways `eraseHistory` ends: a range it refuses, a range that ends with the history, a
range inside it. -/
theorem eraseHistory_cases (f : KVFields) (first last : ℕ) :
    let last' := if last = 0 then f.previous else last
    ((last' > f.previous ∨ first ≥ last') ∧ f.eraseHistory first last = f) ∨
    (¬ (last' > f.previous ∨ first ≥ last') ∧ last' = f.previous ∧
      f.eraseHistory first last = { f with remove := f.previous - first }) ∨
    (¬ (last' > f.previous ∨ first ≥ last') ∧ last' ≠ f.previous ∧
      f.eraseHistory first last = { f with
        remove := f.previous - first
        reserve := some (f.resizeHost 2).storage
        nReserve := 1
        reserveHost := [last' - first, f.previous - last']
        storage := (f.resizeHost 2).storage }) := by
  intro last'
  by_cases hbad : last' > f.previous ∨ first ≥ last'
  · exact .inl ⟨hbad, if_pos hbad⟩
  refine .inr ?_
  by_cases hend : last' = f.previous
  · refine .inl ⟨hbad, hend, (if_neg hbad).trans (if_neg (not_not.2 hend))⟩
  · refine .inr ⟨hbad, hend, (if_neg hbad).trans ((if_pos hend).trans ?_)⟩
    rw [← set_set_of_length_two (f.length_resizeHost 2) (last' - first) (f.previous - last')]
    rfl

/-- **The pointer never dangles**: every step keeps what is read in the current allocation. -/
theorem live_step {f : KVFields} (hf : f.Live) (reuseKv : Bool) (a : Llm.Step) :
    (f.step reuseKv a).Live := by
  cases a with
  | eraseHistory first last =>
    show (f.eraseHistory first last).Live
    obtain ⟨-, he⟩ | ⟨-, -, he⟩ | ⟨-, -, he⟩ := f.eraseHistory_cases first last
    · rwa [he]
    · rw [he]
      exact hf
    · rw [he]
      exact fun _ => ⟨rfl, le_rfl⟩
  | reset => exact hf
  | generateInit =>
    cases reuseKv with
    | true => exact hf
    | false => exact hf
  | clearRemove => exact hf
  | forwardVec seqLen => exact fun h => absurd h (lt_irrefl 0)
  | dropDrafts rejected => exact hf

/-- The steps of the language model act on the record as they act on its fields. -/
theorem toKVMeta_step (f : KVFields) (reuseKv : Bool) (kvLength : ℕ) (a : Llm.Step) :
    (f.step reuseKv a).toKVMeta = (Llm.step ⟨reuseKv, f.toKVMeta, kvLength⟩ a).kvMeta := by
  cases a with
  | eraseHistory first last =>
    show (f.eraseHistory first last).toKVMeta = (Llm.eraseHistory _ first last).kvMeta
    let s : Llm := ⟨reuseKv, f.toKVMeta, kvLength⟩
    obtain ⟨h, he⟩ | ⟨h, hend, he⟩ | ⟨h, hend, he⟩ := f.eraseHistory_cases first last
    · have hs : s.eraseHistory first last = s := if_pos h
      rw [he, hs]
    · have hs : s.eraseHistory first last = _ := (if_neg h).trans (if_neg (not_not.2 hend))
      rw [he, hs]
      rfl
    · have hs : s.eraseHistory first last = _ := (if_neg h).trans (if_pos hend)
      rw [he, hs]
      rfl
  | reset => rfl
  | generateInit =>
    cases reuseKv with
    | true => rfl
    | false => rfl
  | clearRemove => rfl
  | forwardVec seqLen =>
    simp only [step, sync, toKVMeta, Llm.step, Llm.forwardVec, KVMeta.sync, KVMeta.reserveSize,
      List.map_map, List.range_zero, List.map_nil, reserveAt]
    rfl
  | dropDrafts rejected => rfl

end KVFields

/-! ### The attention layer -/

/-- `UP_DIV(x, align) * align`. -/
def alignUp (x align : ℕ) : ℕ := (x + align - 1) / align * align

/-- The copies of the first `n` blocks of `align` positions, from `src` on to `dst` on. -/
def moveUnits {α : Type*} (align dst src : ℕ) (slots : ℕ → α) : ℕ → ℕ → α
  | 0 => slots
  | j + 1 => fun p =>
      let done := moveUnits align dst src slots j
      if dst + j * align ≤ p ∧ p < dst + (j + 1) * align then
        done (src + j * align + (p - (dst + j * align)))
      else done p

/-- The variables of the loop over the reserved ranges. -/
structure Moved (α : Type*) where
  dstStart : ℕ
  lastValidSrcEnd : ℕ
  slots : ℕ → α

/-- One range of that loop.  A range that begins in the block where the last one ended is taken to
be in place. -/
def moveReserve {α : Type*} (align start : ℕ) (st : Moved α) (r : ℕ × ℕ) : Moved α :=
  let lastEndAlign := alignUp st.lastValidSrcEnd align
  let startAlign := (r.1 + start) / align * align
  let stop := r.1 + start + r.2
  if startAlign ≤ lastEndAlign then ⟨st.dstStart + r.2, stop, st.slots⟩
  else
    let sizeUnit := (alignUp stop align - startAlign) / align
    ⟨st.dstStart + r.2, stop,
      moveUnits align (alignUp st.dstStart align) startAlign st.slots sizeUnit⟩

/-- `KVCacheManager::onRealloc` on the cached positions: growing the buffers keeps them, the loop
moves the reserved ranges in blocks of `align = hP` positions. -/
def onRealloc {α : Type*} (align : ℕ) (m : KVMeta) (past : ℕ) (slots : ℕ → α) : Moved α :=
  let start := past - m.remove
  m.reserve.foldl (moveReserve align start) ⟨start, start, slots⟩

/-- The cached entries that `CPUAttention::onExecute` keeps before it pushes the new ones. -/
def attentionKept {α : Type*} (align : ℕ) (m : KVMeta) (past : ℕ) (slots : ℕ → α) : List α :=
  if m.previous = m.remove then []
  else
    let st := onRealloc align m past slots
    (List.range st.dstStart).map st.slots

section Attention

variable {α : Type*} (align : ℕ) (slots : ℕ → α)

theorem dstStart_foldl_moveReserve (start : ℕ) (l : List (ℕ × ℕ)) (st : Moved α) :
    (l.foldl (moveReserve align start) st).dstStart =
      l.foldl (fun dstStart r => dstStart + r.2) st.dstStart := by
  induction l generalizing st with
  | nil => rfl
  | cons r l ih =>
    rw [List.foldl_cons, List.foldl_cons, ih]
    unfold moveReserve
    dsimp only
    split_ifs <;> rfl

/-- The entries kept and the length of the cache are computed by one formula. -/
theorem length_attentionKept (m : KVMeta) (past seqLen : ℕ) :
    (attentionKept align m past slots).length + seqLen = attentionLength m past seqLen := by
  unfold attentionKept attentionLength
  split_ifs
  · rfl
  · rw [List.length_map, List.length_range]
    exact congrArg (· + seqLen) (dstStart_foldl_moveReserve align _ m.reserve _)

/-- The blocks are read before they are overwritten when they move down. -/
theorem moveUnits_eq {dst src : ℕ} (h : dst ≤ src) (n p : ℕ) :
    moveUnits align dst src slots n p =
      if dst ≤ p ∧ p < dst + n * align then slots (src + (p - dst)) else slots p := by
  induction n generalizing p with
  | zero => rw [if_neg (by omega)]; rfl
  | succ j ih =>
    have hj : (j + 1) * align = j * align + align := Nat.succ_mul j align
    unfold moveUnits
    dsimp only
    split_ifs with hblock hp hp
    · rw [ih, if_neg (by omega)]
      congr 1
      omega
    · omega
    · rw [ih, if_pos (by omega)]
    · rw [ih, if_neg (by omega)]

end Attention

theorem alignUp_eq_iff (x align : ℕ) : alignUp x align = x ↔ align ∣ x := by
  constructor
  · intro h
    exact ⟨_, h.symm.trans (Nat.mul_comm _ _)⟩
  · rintro ⟨k, rfl⟩
    unfold alignUp
    obtain rfl | hpos := Nat.eq_zero_or_pos align
    · simp
    · have hdiv : (align * k + align - 1) / align = k := by
        rw [Nat.div_eq_iff hpos, Nat.mul_comm k align]
        omega
      rw [hdiv, Nat.mul_comm]

theorem le_alignUp {align : ℕ} (h : 0 < align) (x : ℕ) : x ≤ alignUp x align := by
  have hdiv := Nat.div_add_mod (x + align - 1) align
  have hmod := Nat.mod_lt (x + align - 1) h
  rw [Nat.mul_comm] at hdiv
  unfold alignUp
  omega

theorem dvd_alignUp (x align : ℕ) : align ∣ alignUp x align := Nat.dvd_mul_left _ _

/-- The list read from the slots is the one with a range cut out. -/
theorem map_range_eq_append_iff (f : ℕ → ℕ) (first last n : ℕ) :
    (List.range (first + n)).map f = List.range first ++ List.range' last n ↔
      (∀ p < first, f p = p) ∧ ∀ i < n, f (first + i) = last + i := by
  rw [List.range_add, List.map_append, List.map_map, List.range'_eq_map_range]
  constructor
  · intro h
    obtain ⟨hkept, hmoved⟩ := List.append_inj h (by simp)
    refine ⟨fun p hp => ?_, fun i hi => ?_⟩
    · have hkept' : (List.range first).map f = (List.range first).map id := by simpa using hkept
      exact List.map_inj_left.1 hkept' p (List.mem_range.2 hp)
    · exact List.map_inj_left.1 hmoved i (List.mem_range.2 hi)
  · rintro ⟨hkept, hmoved⟩
    congr 1
    · conv_rhs => rw [← List.map_id (List.range first)]
      exact List.map_inj_left.2 fun p hp => hkept p (List.mem_range.1 hp)
    · exact List.map_inj_left.2 fun i hi => hmoved i (List.mem_range.1 hi)

/-- What the loop leaves at a position when one range `[last, last + n)` is reserved. -/
theorem moveReserve_slots (align : ℕ) {first last n : ℕ} (h : first < last) (p : ℕ) :
    (moveReserve align first ⟨first, first, id⟩ (last - first, n)).slots p =
      if alignUp first align < last / align * align ∧ alignUp first align ≤ p ∧
          p < alignUp first align +
            (alignUp (last + n) align - last / align * align) / align * align then
        last / align * align + (p - alignUp first align)
      else p := by
  have hsrc : last - first + first = last := Nat.sub_add_cancel h.le
  unfold moveReserve
  dsimp only
  rw [hsrc]
  by_cases hle : last / align * align ≤ alignUp first align
  · rw [if_pos hle, if_neg (fun hc => absurd hc.1 (not_lt.2 hle))]
    rfl
  · rw [if_neg hle]
    dsimp only
    rw [moveUnits_eq align id (not_le.1 hle).le]
    simp only [not_le.1 hle, true_and, id]

/-- One reserved range is moved to its place exactly when both its ends are block boundaries. -/
theorem moveReserve_slots_iff (align : ℕ) {first last n : ℕ} (h : first < last) (hn : 0 < n) :
    ((∀ p < first, (moveReserve align first ⟨first, first, id⟩ (last - first, n)).slots p = p) ∧
      ∀ i < n, (moveReserve align first ⟨first, first, id⟩ (last - first, n)).slots (first + i) =
        last + i) ↔ align ∣ first ∧ align ∣ last := by
  simp only [moveReserve_slots align h]
  constructor
  · rintro ⟨-, hmove⟩
    -- the first entry of the range decides
    have h0 := hmove 0 hn
    rw [Nat.add_zero, Nat.add_zero] at h0
    split_ifs at h0 with hp
    · have hsrc : last / align * align ≤ last := Nat.div_mul_le_self last align
      have hpos : 0 < align := by
        rcases Nat.eq_zero_or_pos align with rfl | hpos
        · simp [alignUp] at hp
        · exact hpos
      have hdst := le_alignUp hpos first
      refine ⟨(alignUp_eq_iff first align).1 (by omega), ?_⟩
      exact ⟨last / align, by rw [Nat.mul_comm]; omega⟩
    · exact absurd h0 h.ne
  · rintro ⟨hf, hl⟩
    have hdst : alignUp first align = first := (alignUp_eq_iff first align).2 hf
    have hsrc : last / align * align = last := Nat.div_mul_cancel hl
    have hpos : 0 < align := by
      rcases Nat.eq_zero_or_pos align with rfl | hpos
      · exact absurd (Nat.eq_zero_of_zero_dvd hl) (by omega)
      · exact hpos
    have hsize : (alignUp (last + n) align - last) / align * align = alignUp (last + n) align - last :=
      Nat.div_mul_cancel (Nat.dvd_sub (dvd_alignUp _ _) hl)
    have hstop := le_alignUp hpos (last + n)
    simp only [hdst, hsrc, hsize]
    refine ⟨fun p hp => if_neg (by omega), fun i hi => ?_⟩
    rw [if_pos (by omega)]
    omega

/-! ### Edits between two forwards -/

/-- The calls that edit the history. -/
inductive Edit
  | eraseHistory (first last : ℕ)
  | reset
  deriving DecidableEq, Repr

namespace Edit

def toStep : Edit → Llm.Step
  | .eraseHistory first last => .eraseHistory first last
  | .reset => .reset

/-- The range of a history of `L` entries that the call erases: `[start, stop)`. -/
def start : Edit → ℕ
  | .eraseHistory first _ => first
  | .reset => 0

def stop (L : ℕ) : Edit → ℕ
  | .eraseHistory _ last => if last = 0 then L else last
  | .reset => L

/-- The call is accepted. -/
def Valid (L : ℕ) : Edit → Prop
  | .eraseHistory first last =>
      (if last = 0 then L else last) ≤ L ∧ first < if last = 0 then L else last
  | .reset => True

instance (L : ℕ) (e : Edit) : Decidable (e.Valid L) := by
  cases e <;> unfold Valid <;> infer_instance

/-- The call is accepted and entries behind its range are to be kept. -/
def Interior (L : ℕ) (e : Edit) : Prop := e.Valid L ∧ e.stop L ≠ L

instance (L : ℕ) (e : Edit) : Decidable (e.Interior L) := inferInstanceAs (Decidable (_ ∧ _))

/-- The reserved ranges that go with the call. -/
def reserve (L : ℕ) (e : Edit) : List (ℕ × ℕ) :=
  if e.stop L = L then [] else [(e.stop L - e.start, L - e.stop L)]

/-- The entries that the call is to leave, `[0, start)` and then `[stop, L)`. -/
def kept (L : ℕ) (e : Edit) : List ℕ :=
  List.range e.start ++ List.range' (e.stop L) (L - e.stop L)

end Edit

/-- The last valid call of a list. -/
def lastValid (L : ℕ) (calls : List Edit) : Option Edit :=
  calls.reverse.find? fun e => decide (e.Valid L)

/-- The last call that keeps entries behind its range. -/
def lastInterior (L : ℕ) (calls : List Edit) : Option Edit :=
  calls.reverse.find? fun e => decide (e.Interior L)

/-- What stands between the edits and the next forward: `generate_init` in `response`, nothing in
`generate` on a prompt, `forward` and the speculative loops, `remove = 0` in the loop of
`ArGeneration`. -/
inductive Next
  | response
  | direct
  | decode
  deriving DecidableEq, Repr

def Next.steps : Next → List Llm.Step
  | .response => [.generateInit]
  | .direct => []
  | .decode => [.clearRemove]

/-- The first forward of an operation comes after the steps of one of the three kinds. -/
theorem first_forward (op : Llm.Op) :
    (∀ n, .forwardVec n ∉ op.steps) ∨
      ∃ (next : Next) (n : ℕ) (rest : List Llm.Step),
        op.steps = next.steps ++ .forwardVec n :: rest := by
  cases op with
  | response n rounds => exact .inr ⟨.response, n, _, rfl⟩
  | generate n rounds => exact .inr ⟨.direct, n, _, rfl⟩
  | resume rounds =>
    cases rounds with
    | nil => exact .inl fun n h => nomatch h
    | cons r rounds =>
      cases r with
      | ar => exact .inr ⟨.decode, 1, _, rfl⟩
      | drafts size rejected => exact .inr ⟨.direct, size, _, rfl⟩
  | forward n => exact .inr ⟨.direct, n, _, rfl⟩
  | eraseHistory first last => exact .inl fun n h => by simp [Llm.Op.steps] at h
  | reset => exact .inl fun n h => by simp [Llm.Op.steps] at h

/-- `generate_init` without `reuse_kv` is one more `reset`. -/
def calls (reuseKv : Bool) (edits : List Edit) (next : Next) : List Edit :=
  edits ++ if next = .response ∧ reuseKv = false then [.reset] else []

namespace KVFields

/-- The record after a forward, with `rejected` drafts still to be taken off. -/
def afterForward (f : KVFields) (rejected : ℕ) : KVFields := { f.sync with remove := rejected }

/-- The record that the next forward meets. -/
def atForward (reuseKv : Bool) (f : KVFields) (edits : List Edit) (next : Next) : KVFields :=
  (edits.map Edit.toStep ++ next.steps).foldl (step reuseKv) f

/-- The forward of `n` tokens sees the `L` cached entries edited by `e` alone. -/
structure SeesEdit (hP L n : ℕ) (e : Edit) (f : KVFields) : Prop where
  live : f.Live
  remove : f.remove = L - e.start
  reserve : f.toKVMeta.reserve = e.reserve L
  kept : attentionKept hP { f with add := n }.toKVMeta L id = e.kept L
  length : { f with add := n }.sync.previous = e.start + (L - e.stop L) + n
  clear : { f with add := n }.sync.remove = 0 ∧ { f with add := n }.sync.toKVMeta.reserve = []

end KVFields

/-- The condition on the calls: a decode step of `ArGeneration` does not follow, and the last valid
call replaces the range of every earlier one, or there is none. -/
def EditsCompose (hP L : ℕ) (calls : List Edit) (next : Next) : Prop :=
  ∀ e, lastValid L calls = some e →
    (next = .decode → L = 0) ∧
      if e.Interior L then 0 < e.start ∧ hP ∣ e.start ∧ hP ∣ e.stop L
      else ∀ e' ∈ calls, ¬ e'.Interior L

section Calls

variable {L : ℕ} {e : Edit} {l : List Edit} {f : KVFields}

theorem Edit.stop_le (h : e.Valid L) : e.stop L ≤ L := by
  cases e with
  | eraseHistory first last => exact h.1
  | reset => exact le_rfl

theorem Edit.start_lt (h : e.Interior L) : e.start < e.stop L ∧ e.stop L < L := by
  have hle := Edit.stop_le h.1
  cases e with
  | eraseHistory first last => exact ⟨h.1.2, lt_of_le_of_ne hle h.2⟩
  | reset => exact absurd rfl h.2

theorem Edit.start_le (h : e.Valid L) : e.start ≤ L := by
  cases e with
  | eraseHistory first last => exact h.2.le.trans h.1
  | reset => exact Nat.zero_le L

theorem Edit.start_lt_of_pos (h : e.Valid L) (hL : 0 < L) : e.start < L := by
  cases e with
  | eraseHistory first last => exact lt_of_lt_of_le h.2 h.1
  | reset => exact hL

theorem lastValid_concat (l : List Edit) (e : Edit) :
    lastValid L (l ++ [e]) = if e.Valid L then some e else lastValid L l := by
  unfold lastValid
  rw [List.reverse_append, List.reverse_singleton, List.singleton_append, List.find?_cons]
  split_ifs with h <;> simp [h]

theorem lastInterior_concat (l : List Edit) (e : Edit) :
    lastInterior L (l ++ [e]) = if e.Interior L then some e else lastInterior L l := by
  unfold lastInterior
  rw [List.reverse_append, List.reverse_singleton, List.singleton_append, List.find?_cons]
  split_ifs with h <;> simp [h]

theorem valid_of_lastValid (h : lastValid L l = some e) : e.Valid L := by
  simpa using List.find?_some h

theorem lastValid_eq_none : lastValid L l = none ↔ ∀ e ∈ l, ¬ e.Valid L := by
  simp [lastValid]

theorem lastInterior_eq_none : lastInterior L l = none ↔ ∀ e ∈ l, ¬ e.Interior L := by
  simp [lastInterior]

/-- If the last valid call keeps a range, no later call does. -/
theorem lastInterior_of_lastValid (h : lastValid L l = some e) (he : e.Interior L) :
    lastInterior L l = some e := by
  induction l using List.reverseRecOn with
  | nil => exact nomatch h
  | append_singleton l x ih =>
    rw [lastValid_concat] at h
    rw [lastInterior_concat]
    by_cases hx : x.Valid L
    · rw [if_pos hx] at h
      obtain rfl : x = e := Option.some.inj h
      exact if_pos he
    · rw [if_neg hx] at h
      rw [if_neg fun hi => hx hi.1]
      exact ih h

namespace KVFields

/-- The record in terms of the calls since the forward: `remove` is set by the last valid one, the
range by the last one that keeps a range. -/
structure After (L rejected : ℕ) (l : List Edit) (f : KVFields) : Prop where
  live : f.Live
  previous : f.previous = L
  remove : f.remove = (lastValid L l).elim rejected fun e => L - e.start
  reserve : f.toKVMeta.reserve = (lastInterior L l).elim [] (Edit.reserve L)

theorem after_nil (f : KVFields) (rejected : ℕ) :
    After f.sync.previous rejected [] (f.afterForward rejected) where
  live h := absurd h (lt_irrefl 0)
  previous := rfl
  remove := rfl
  reserve := rfl

/-- **The step lemma**: what one call does to the record. -/
theorem After.concat {r : ℕ} (h : After L r l f) (reuseKv : Bool) (e : Edit) :
    After L r (l ++ [e]) (f.step reuseKv e.toStep) := by
  have hlive := live_step h.live reuseKv e.toStep
  cases e with
  | reset =>
    have hvalid : Edit.reset.Valid L := trivial
    have hint : ¬ Edit.reset.Interior L := fun hi => hi.2 rfl
    refine ⟨hlive, h.previous, ?_, ?_⟩
    · rw [lastValid_concat, if_pos hvalid]
      exact h.previous
    · rw [lastInterior_concat, if_neg hint]
      exact h.reserve
  | eraseHistory first last =>
    obtain ⟨hbad, he⟩ | ⟨hgood, hend, he⟩ | ⟨hgood, hend, he⟩ := f.eraseHistory_cases first last
    · rw [h.previous] at hbad
      have hvalid : ¬ (Edit.eraseHistory first last).Valid L := by
        rintro ⟨h1, h2⟩
        omega
      have hstep : f.step reuseKv (Edit.toStep (.eraseHistory first last)) = f := he
      rw [hstep]
      refine ⟨h.live, h.previous, ?_, ?_⟩
      · rw [lastValid_concat, if_neg hvalid]
        exact h.remove
      · rw [lastInterior_concat, if_neg fun hi => hvalid hi.1]
        exact h.reserve
    all_goals
      rw [h.previous] at hgood hend he
      have hstep : f.step reuseKv (Edit.toStep (.eraseHistory first last)) = _ := he
      have hvalid : (Edit.eraseHistory first last).Valid L := by
        refine ⟨?_, ?_⟩ <;> omega
      rw [hstep] at hlive ⊢
    · have hint : ¬ (Edit.eraseHistory first last).Interior L := fun hi => hi.2 hend
      refine ⟨hlive, rfl, ?_, ?_⟩
      · rw [lastValid_concat, if_pos hvalid]
        rfl
      · rw [lastInterior_concat, if_neg hint]
        exact h.reserve
    · have hint : (Edit.eraseHistory first last).Interior L := ⟨hvalid, hend⟩
      refine ⟨hlive, rfl, ?_, ?_⟩
      · rw [lastValid_concat, if_pos hvalid]
        rfl
      · rw [lastInterior_concat, if_pos hint]
        exact (if_neg hend).symm

/-- The run lemma. -/
theorem after_foldl (reuseKv : Bool) (f : KVFields) (rejected : ℕ) (l : List Edit) :
    After f.sync.previous rejected l
      ((l.map Edit.toStep).foldl (step reuseKv) (f.afterForward rejected)) := by
  induction l using List.reverseRecOn with
  | nil => exact after_nil f rejected
  | append_singleton l e ih =>
    rw [List.map_append, List.foldl_append]
    exact ih.concat reuseKv e

/-- The steps before the next forward are those of the calls, and `remove = 0` before a decode
step. -/
theorem atForward_eq (reuseKv : Bool) (f : KVFields) (edits : List Edit) (next : Next) :
    f.atForward reuseKv edits next =
      let g := ((calls reuseKv edits next).map Edit.toStep).foldl (step reuseKv) f
      if next = .decode then { g with remove := 0 } else g := by
  unfold atForward calls
  rw [List.foldl_append]
  cases next with
  | response =>
    cases reuseKv with
    | true => simp [Next.steps, step]
    | false => simp [Next.steps, step, Edit.toStep]
  | direct => simp [Next.steps]
  | decode => simp [Next.steps, step]

/-- The cache after a call that keeps nothing behind its range. -/
theorem attentionKept_tail (hP : ℕ) {m : KVMeta} {first : ℕ} (hfirst : first ≤ L)
    (hprev : m.previous = L) (hremove : m.remove = L - first) (hreserve : m.reserve = []) :
    attentionKept hP m L id = List.range first := by
  unfold attentionKept onRealloc
  rw [hprev, hremove, hreserve]
  split_ifs with h
  · have hzero : first = 0 := by omega
    rw [hzero]
    rfl
  · show (List.range (L - (L - first))).map id = _
    rw [List.map_id, Nat.sub_sub_self hfirst]

/-- The cache after a call that keeps a range. -/
theorem attentionKept_interior (hP : ℕ) {m : KVMeta} {first last : ℕ} (hlt : first < last)
    (hlast : last < L) (hprev : m.previous = L) (hremove : m.remove = L - first)
    (hreserve : m.reserve = [(last - first, L - last)]) :
    attentionKept hP m L id = List.range first ++ List.range' last (L - last) ↔
      0 < first ∧ hP ∣ first ∧ hP ∣ last := by
  unfold attentionKept onRealloc
  rw [hprev, hremove, hreserve]
  have hsub : L - (L - first) = first := Nat.sub_sub_self (by omega)
  have hrange : 0 < L - last := by omega
  split_ifs with h
  · have hzero : first = 0 := by omega
    rw [hzero]
    simp only [List.range_zero, List.nil_append, lt_irrefl, false_and, iff_false]
    intro hnil
    have hlen := congrArg List.length hnil
    simp at hlen
    omega
  · have hpos : 0 < first := by omega
    rw [hsub]
    simp only [List.foldl_cons, List.foldl_nil, hpos, true_and]
    rw [← moveReserve_slots_iff hP hlt hrange, ← map_range_eq_append_iff]
    have hd := dstStart_foldl_moveReserve hP first [(last - first, L - last)] ⟨first, first, id⟩
    simp only [List.foldl_cons, List.foldl_nil] at hd
    rw [hd]

/-- The forward sees the last valid call alone exactly when that call left no other range in the
record and the layers can move its own. -/
theorem After.seesEdit_iff {r : ℕ} (h : After L r l f) (hP n : ℕ) (he : lastValid L l = some e) :
    SeesEdit hP L n e f ↔
      if e.Interior L then 0 < e.start ∧ hP ∣ e.start ∧ hP ∣ e.stop L
      else ∀ e' ∈ l, ¬ e'.Interior L := by
  have hvalid := valid_of_lastValid he
  have hremove : f.remove = L - e.start := by
    rw [h.remove, he]
    rfl
  have hstart := Edit.start_le hvalid
  have hlength : f.toKVMeta.reserve = e.reserve L →
      { f with add := n }.sync.previous = e.start + (L - e.stop L) + n := by
    intro hres
    have hsync : { f with add := n }.sync.previous =
        f.previous - f.remove + n + (f.toKVMeta.reserve.map Prod.snd).sum := by
      simp only [sync, toKVMeta, List.map_map]
      rfl
    rw [hsync, hres, h.previous, hremove, Nat.sub_sub_self hstart]
    unfold Edit.reserve
    split_ifs with hend
    · simp [hend]
    · simp
      omega
  split_ifs with hint
  · have hres : f.toKVMeta.reserve = e.reserve L := by
      rw [h.reserve, lastInterior_of_lastValid he hint]
      rfl
    have hres' : f.toKVMeta.reserve = [(e.stop L - e.start, L - e.stop L)] :=
      hres.trans (if_neg hint.2)
    have hkept := @attentionKept_interior L hP { f with add := n }.toKVMeta _ _
      (Edit.start_lt hint).1 (Edit.start_lt hint).2 h.previous hremove hres'
    constructor
    · intro hs
      exact hkept.1 hs.kept
    · intro hc
      exact ⟨h.live, hremove, hres, hkept.2 hc, hlength hres, rfl, rfl⟩
  · have hend : e.stop L = L := not_not.1 fun hne => hint ⟨hvalid, hne⟩
    have hnone : e.reserve L = [] := if_pos hend
    rw [← lastInterior_eq_none]
    constructor
    · intro hs
      have hres := h.reserve.symm.trans (hs.reserve.trans hnone)
      cases hl : lastInterior L l with
      | none => rfl
      | some e' =>
        -- the range of an earlier call is still in the record
        have hint' : e'.Interior L := by simpa using List.find?_some hl
        rw [hl] at hres
        exact absurd hres (by simp [Edit.reserve, hint'.2])
    · intro hl
      have hres : f.toKVMeta.reserve = [] := by
        rw [h.reserve, hl]
        rfl
      refine ⟨h.live, hremove, hres.trans hnone.symm, ?_, hlength (hres.trans hnone.symm), rfl,
        rfl⟩
      have hkept : e.kept L = List.range e.start := by
        rw [Edit.kept, hend, Nat.sub_self, List.range'_zero, List.append_nil]
      rw [hkept]
      exact attentionKept_tail hP hstart h.previous hremove hres

end KVFields

end Calls

end Mnn
