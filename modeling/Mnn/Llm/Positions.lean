import Mnn.Llm.PendingEdit
import Mnn.Lib.Run

/-!
# Positions and the cache

`gen_position_ids` and `gen_attention_mask` count from `all_seq_len`, which the host adds up by hand:
after a prefill, after a decoded token, after the accepted drafts of a round.  The number of cached
entries that the forward will see follows from the meta record.

* `Move`, `Host`, `step`: the runs of the host with `reuse_kv`, one forward a move, and
  `step_fields`, that they are the steps of `Llm.Op` on the record;
* `Follows`: the calls since the last forward keep no range behind what they erase, and either none
  of them was accepted or one was `reset` and the last accepted one erases from the front;
* `positions_follow`: **in a run whose forwards all meet `Follows`, `all_seq_len` is the number of
  entries before the new tokens at every forward**.

`eraseHistory` leaves `all_seq_len` as it is, so every other accepted call of it moves the two apart.
-/

namespace Mnn.Positions

open Llm Lib

/-- What the host does to the cache, one forward at a time: an edit, the prefill of a prompt, one
token of `ArGeneration`, a group of drafts of `LookaheadGeneration`. -/
inductive Move
  | edit (e : Edit)
  | prefill (seqLen : ℕ)
  | ar
  | drafts (size : ℕ) (rejected : Fin size)

/-- The record and `all_seq_len`, with the edits since the last forward. -/
structure Host where
  fields : KVFields := {}
  allSeqLen : ℕ := 0
  calls : List Edit := []

/-- The steps on the record that come before the forward of a move, and after it. -/
def Move.before : Move → List Step
  | .ar => [.clearRemove]
  | _ => []

def Move.after : Move → List Step
  | .drafts _ rejected => [.dropDrafts rejected]
  | _ => []

/-- The number of tokens that the forward of a move feeds. -/
def Move.seqLen : Move → Option ℕ
  | .edit _ => none
  | .prefill seqLen => some seqLen
  | .ar => some 1
  | .drafts size _ => some size

/-- The argument of `updateContext` after the forward. -/
def Move.advance : Move → ℕ
  | .edit _ => 0
  | .prefill seqLen => seqLen
  | .ar => 1
  | .drafts size rejected => size - rejected

/-- The record that the forward of a move meets, `reuse_kv` being on. -/
def Host.atForward (s : Host) (m : Move) : KVFields :=
  m.before.foldl (KVFields.step true) s.fields

/-- One move. -/
def step (s : Host) : Move → Host
  | .edit e =>
      { fields := s.fields.step true e.toStep
        allSeqLen := if e = .reset then 0 else s.allSeqLen
        calls := s.calls ++ [e] }
  | m =>
      { fields := m.after.foldl (KVFields.step true)
          ((s.atForward m).step true (.forwardVec (m.seqLen.getD 0)))
        allSeqLen := s.allSeqLen + m.advance
        calls := [] }

/-- The entries that a forward sees before its own tokens. -/
def entries (f : KVFields) : ℕ := f.previous - f.remove + f.toKVMeta.reserveSize

/-- `Llm::gen_position_ids`, outside the GLM layouts. -/
def positionIds (s : Host) (seqLen : ℕ) : List ℕ :=
  (List.range seqLen).map fun i => i + s.allSeqLen

/-! ### The operations of the interface -/

def roundMove : Round → Move
  | .ar => .ar
  | .drafts size rejected => .drafts size rejected

/-- The moves of an operation. -/
def moves : Op → List Move
  | .response promptLen rounds => .prefill promptLen :: rounds.map roundMove
  | .generate promptLen rounds => .prefill promptLen :: rounds.map roundMove
  | .resume rounds => rounds.map roundMove
  | .forward seqLen => [.prefill seqLen]
  | .eraseHistory first last => [.edit (.eraseHistory first last)]
  | .reset => [.edit .reset]

theorem rounds_fields (rounds : List Round) (s : Host) :
    ((rounds.map roundMove).foldl step s).fields =
      (rounds.flatMap Round.steps).foldl (KVFields.step true) s.fields := by
  induction rounds generalizing s with
  | nil => rfl
  | cons r rounds ih =>
    rw [List.map_cons, List.foldl_cons, ih, List.flatMap_cons, List.foldl_append]
    cases r <;> rfl

/-- The moves act on the record as the steps of the operations do. -/
theorem moves_fields (op : Op) (s : Host) :
    ((moves op).foldl step s).fields = op.steps.foldl (KVFields.step true) s.fields := by
  cases op with
  | response n rounds => exact rounds_fields rounds _
  | generate n rounds => exact rounds_fields rounds _
  | resume rounds => exact rounds_fields rounds s
  | forward n => rfl
  | eraseHistory first last => rfl
  | reset => rfl

theorem run_fields (ops : List Op) (s : Host) :
    ((ops.flatMap moves).foldl step s).fields =
      (ops.flatMap Op.steps).foldl (KVFields.step true) s.fields := by
  induction ops generalizing s with
  | nil => rfl
  | cons op ops ih =>
    rw [List.flatMap_cons, List.flatMap_cons, List.foldl_append, List.foldl_append, ih,
      moves_fields]

/-! ### Runs in step -/

/-- The condition on a forward and the calls since the one before. -/
structure Follows (s : Host) (m : Move) : Prop where
  noRange : ∀ e ∈ s.calls, ¬ e.Interior s.fields.previous
  fromFront : ∀ e, lastValid s.fields.previous s.calls = some e → .reset ∈ s.calls ∧ e.start = 0
  decode : m = .ar → s.fields.remove = 0

/-- The runs of the host whose forwards meet the condition. -/
def machine : Machine Host Move where
  Allowed s m := m.seqLen ≠ none → Follows s m
  step := step

/-- The invariant: the record is as the calls since the last forward made it, and `all_seq_len` is
what that forward left, or 0 after a `reset`. -/
def InStep (s : Host) : Prop :=
  ∃ rejected, KVFields.After s.fields.previous rejected s.calls s.fields ∧
    s.allSeqLen = if .reset ∈ s.calls then 0 else s.fields.previous - rejected

theorem InStep.edit {s : Host} (h : InStep s) (e : Edit) : InStep (step s (.edit e)) := by
  obtain ⟨rejected, hafter, hall⟩ := h
  have hnext := hafter.concat true e
  have hprev : (s.fields.step true e.toStep).previous = s.fields.previous := hnext.previous
  refine ⟨rejected, ?_, ?_⟩
  · show KVFields.After (s.fields.step true e.toStep).previous rejected (s.calls ++ [e]) _
    rw [hprev]
    exact hnext
  · show (if e = .reset then 0 else s.allSeqLen) = if .reset ∈ s.calls ++ [e] then 0 else
      (s.fields.step true e.toStep).previous - rejected
    rw [hprev, hall]
    by_cases he : e = .reset
    · simp [he]
    · simp [he, Ne.symm he]

/-- At a forward that meets the condition the record asks for `all_seq_len` entries. -/
theorem InStep.entries {s : Host} (h : InStep s) {m : Move} (hm : Follows s m) :
    entries (s.atForward m) = s.allSeqLen ∧ (s.atForward m).toKVMeta.reserve = [] := by
  obtain ⟨rejected, hafter, hall⟩ := h
  have hsame : s.atForward m = s.fields := by
    cases m with
    | ar =>
      have hzero := hm.decode rfl
      show { s.fields with remove := 0 } = s.fields
      rw [← hzero]
    | _ => rfl
  have hreserve : s.fields.toKVMeta.reserve = [] := by
    rw [hafter.reserve, lastInterior_eq_none.2 hm.noRange]
    rfl
  rw [hsame]
  refine ⟨?_, hreserve⟩
  have hremove := hafter.remove
  unfold Positions.entries KVMeta.reserveSize
  rw [hreserve, hall]
  cases hl : lastValid s.fields.previous s.calls with
  | none =>
    have hreset : Edit.reset ∉ s.calls := fun hmem => lastValid_eq_none.1 hl _ hmem trivial
    rw [hl] at hremove
    rw [if_neg hreset, hremove]
    rfl
  | some e =>
    obtain ⟨hreset, hstart⟩ := hm.fromFront e hl
    rw [hl] at hremove
    rw [if_pos hreset, hremove]
    simp [hstart]

/-- The record after a forward that meets the condition. -/
theorem InStep.forward {s : Host} (h : InStep s) {m : Move} {n : ℕ} (hn : m.seqLen = some n)
    (hm : Follows s m) : InStep (step s m) := by
  obtain ⟨hentries, hreserve⟩ := h.entries hm
  have hprev : ((s.atForward m).step true (.forwardVec n)).previous = s.allSeqLen + n := by
    have hsync := (s.atForward m).toKVMeta_step true 0 (.forwardVec n)
    have hp := congrArg KVMeta.previous hsync
    rw [← hentries]
    refine hp.trans ?_
    simp only [Llm.step, forwardVec, KVMeta.sync_previous, KVMeta.reserveSize, Positions.entries,
      hreserve]
    show (s.atForward m).previous - (s.atForward m).remove + n + 0 = _
    simp
  have hstep : ∃ rejected, m.advance = n - rejected ∧ rejected ≤ n ∧
      (step s m).fields = ((s.atForward m).step true (.forwardVec n)).step true
        (.dropDrafts rejected) := by
    cases m with
    | edit e => cases hn
    | prefill seqLen =>
      obtain rfl : seqLen = n := Option.some.inj hn
      exact ⟨0, rfl, Nat.zero_le _, rfl⟩
    | ar =>
      obtain rfl : 1 = n := Option.some.inj hn
      exact ⟨0, rfl, Nat.zero_le _, rfl⟩
    | drafts size rejected =>
      obtain rfl : size = n := Option.some.inj hn
      exact ⟨rejected, rfl, rejected.isLt.le, rfl⟩
  obtain ⟨rejected, hadvance, hle, hfields⟩ := hstep
  have hpast : (step s m).fields.previous = s.allSeqLen + n := by
    rw [hfields]
    exact hprev
  have hrest : (step s m).calls = [] ∧ (step s m).allSeqLen = s.allSeqLen + m.advance := by
    cases m with
    | edit e => cases hn
    | _ => exact ⟨rfl, rfl⟩
  refine ⟨rejected, ?_, ?_⟩
  · rw [hrest.1, hfields]
    exact KVFields.after_nil { s.atForward m with add := n } rejected
  · rw [hrest.1, hrest.2, hpast, hadvance]
    simp only [List.not_mem_nil, if_false]
    omega

theorem inStep_step (s : Host) (m : Move) (h : InStep s) (hm : machine.Allowed s m) :
    InStep (machine.step s m) := by
  cases hn : m.seqLen with
  | none =>
    cases m with
    | edit e => exact h.edit e
    | _ => exact nomatch hn
  | some n => exact h.forward hn (hm (by simp [hn]))

/-- **Positions follow the cache: in every run from the start whose forwards all meet `Follows`,
`all_seq_len` is at each forward the number of entries it sees before its own tokens, and the
position ids go on from there.** -/
theorem positions_follow (ms : List Move) (m : Move) (t : Host) (h : Run machine {} ms t)
    (hm : Follows t m) :
    t.allSeqLen = entries (t.atForward m) ∧
      ∀ seqLen, positionIds t seqLen = List.range' (entries (t.atForward m)) seqLen := by
  have hstart : InStep {} := ⟨0, KVFields.after_nil {} 0, rfl⟩
  have hentries := ((h.invariant inStep_step hstart).entries hm).1
  refine ⟨hentries.symm, fun seqLen => ?_⟩
  rw [hentries, positionIds, List.range'_eq_map_range]
  exact List.map_congr_left fun i _ => Nat.add_comm i _

/-- Three prompt tokens, a decoded one, then `reset` and two more tokens, decoded from position 2
on. -/
theorem positions_follow_reset :
    ∃ t, Run machine {} [.prefill 3, .ar, .edit .reset, .prefill 2] t ∧ t.allSeqLen = 2 ∧
      positionIds t 1 = [2] := by
  have hnone : ∀ s : Host, s.calls = [] → s.fields.remove = 0 → ∀ m, Follows s m := by
    intro s hcalls hremove m
    refine ⟨by simp [hcalls], fun e he => ?_, fun _ => hremove⟩
    rw [hcalls] at he
    exact nomatch he
  let s₁ := step {} (.prefill 3)
  let s₂ := step s₁ .ar
  let s₃ := step s₂ (.edit .reset)
  have hreset : Follows s₃ (.prefill 2) := by
    refine ⟨by decide, fun e he => ?_, nofun⟩
    obtain rfl : Edit.reset = e := Option.some.inj he
    exact ⟨by decide, rfl⟩
  have hrun : Run machine {} [.prefill 3, .ar, .edit .reset, .prefill 2] (step s₃ (.prefill 2)) :=
    .cons (fun _ => hnone _ rfl rfl _) <| .cons (fun _ => hnone s₁ rfl rfl _) <|
      .cons (fun h => absurd rfl h) <| .cons (fun _ => hreset) <| .nil _
  have hfollow := positions_follow _ .ar _ hrun (hnone _ rfl rfl _)
  exact ⟨_, hrun, hfollow.1, hfollow.2 1⟩

/-- Three prompt tokens, the second of them erased, two more tokens: they are given the positions
3 and 4 behind two entries. -/
theorem eraseHistory_keeps_allSeqLen :
    ¬ ∀ (ms : List Move) (m : Move), m.seqLen ≠ none →
      (ms.foldl step {}).allSeqLen = entries ((ms.foldl step {}).atForward m) := by
  intro h
  exact absurd (h [.prefill 3, .edit (.eraseHistory 1 2)] (.prefill 2) (by decide)) (by decide)

end Mnn.Positions
