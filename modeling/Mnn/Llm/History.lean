import Mnn.Core.KVMeta

/-!
# Host and backend cache lengths of the language model

`Llm` keeps the number of cached tokens in `KVMeta.previous`; each attention layer keeps its own
count `kvLength()`.  The two are computed by different code: the host by `KVMeta::sync` after a
forward, the backend by `CPUAttention::onExecute` during it.  A run of the host is a list of
operations (`Op`), each of which is compiled to the steps the sources take (`Op.steps`), and the
module compares the two lengths after every forward of a run.

`forwards_agree_iff`: after every forward the lengths agree if and only if no forward meets
`ClearsReserved`, that is a pending removal of the whole cache together with a reserved range.  In
that branch the backend clears the cache and forgets the range, while `sync` still counts it.
-/

namespace Mnn

/-- The part of the language model that decides cache lengths: the `reuse_kv` setting, the meta
record, and the length the attention layers hold. -/
structure Llm where
  reuseKv : Bool
  kvMeta : KVMeta := {}
  kvLength : ℕ := 0
  deriving DecidableEq, Repr

namespace Llm

/-- The steps on the meta record and the cache that the operations are made of. -/
inductive Step
  | eraseHistory (first last : ℕ)
  | reset
  | generateInit
  | clearRemove
  | forwardVec (seqLen : ℕ)
  | dropDrafts (rejected : ℕ)
  deriving DecidableEq, Repr

/-- `Llm::eraseHistory(begin, end)`.  A range that ends at the current history leaves `reserve` as
it is. -/
def eraseHistory (s : Llm) (first last : ℕ) : Llm :=
  let last := if last = 0 then s.kvMeta.previous else last
  if last > s.kvMeta.previous ∨ first ≥ last then s
  else
    let m := { s.kvMeta with remove := s.kvMeta.previous - first }
    if last ≠ s.kvMeta.previous then
      { s with kvMeta :=
          { m with reserve := [(last - first, s.kvMeta.previous - last)] } }
    else { s with kvMeta := m }

/-- `Llm::reset`, and the same assignment in `Llm::generate_init` without `reuse_kv`. -/
def removeAll (s : Llm) : Llm :=
  { s with kvMeta := { s.kvMeta with remove := s.kvMeta.previous } }

/-- `Llm::generate_init`. -/
def generateInit (s : Llm) : Llm := if s.reuseKv then s else s.removeAll

/-- `Llm::forwardVec` on `seqLen` tokens: `add` is set, the attention layers run, `sync` follows. -/
def forwardVec (s : Llm) (seqLen : ℕ) : Llm :=
  let m := { s.kvMeta with add := seqLen }
  { s with kvMeta := m.sync, kvLength := attentionLength m s.kvLength seqLen }

/-- The assignments to `mMeta->remove` in the generation loops. -/
def setRemove (s : Llm) (n : ℕ) : Llm := { s with kvMeta := { s.kvMeta with remove := n } }

def step (s : Llm) : Step → Llm
  | .eraseHistory first last => s.eraseHistory first last
  | .reset => s.removeAll
  | .generateInit => s.generateInit
  | .clearRemove => s.setRemove 0
  | .forwardVec seqLen => s.forwardVec seqLen
  | .dropDrafts rejected => s.setRemove rejected

/-- One pass of a generation loop: one token in `ArGeneration::generate`, or a group of drafts of
which the last `rejected` are not accepted in the speculative loops. -/
inductive Round
  | ar
  | drafts (size : ℕ) (rejected : Fin size)

def Round.steps : Round → List Step
  | .ar => [.clearRemove, .forwardVec 1]
  | .drafts size rejected => [.forwardVec size, .dropDrafts rejected]

/-- The operations of the interface: `response`, `generate` on a prompt, `generate` on a number of
tokens, `forward`, `eraseHistory` and `reset`. -/
inductive Op
  | response (promptLen : ℕ) (rounds : List Round)
  | generate (promptLen : ℕ) (rounds : List Round)
  | resume (rounds : List Round)
  | forward (seqLen : ℕ)
  | eraseHistory (first last : ℕ)
  | reset

def Op.steps : Op → List Step
  | .response promptLen rounds =>
      .generateInit :: .forwardVec promptLen :: rounds.flatMap Round.steps
  | .generate promptLen rounds => .forwardVec promptLen :: rounds.flatMap Round.steps
  | .resume rounds => rounds.flatMap Round.steps
  | .forward seqLen => [.forwardVec seqLen]
  | .eraseHistory first last => [.eraseHistory first last]
  | .reset => [.reset]

/-- The forwards of a run: the state before each of them and its number of tokens. -/
def forwards (s : Llm) : List Step → List (Llm × ℕ)
  | [] => []
  | .forwardVec seqLen :: l => (s, seqLen) :: forwards (s.forwardVec seqLen) l
  | a :: l => forwards (s.step a) l

/-- Host and backend hold the same length. -/
def Agree (s : Llm) : Prop := s.kvMeta.previous = s.kvLength

/-- The whole cache is to be removed and a range of it is to be kept. -/
def ClearsReserved (s : Llm) : Prop :=
  s.kvMeta.previous = s.kvMeta.remove ∧ s.kvMeta.reserveSize ≠ 0

instance (s : Llm) : Decidable s.Agree := inferInstanceAs (Decidable (_ = _))

instance (s : Llm) : Decidable s.ClearsReserved := inferInstanceAs (Decidable (_ ∧ _))

/-! ### One step -/

theorem eraseHistory_previous (s : Llm) (first last : ℕ) :
    (s.eraseHistory first last).kvMeta.previous = s.kvMeta.previous := by
  unfold eraseHistory
  dsimp only
  split_ifs <;> rfl

theorem eraseHistory_kvLength (s : Llm) (first last : ℕ) :
    (s.eraseHistory first last).kvLength = s.kvLength := by
  unfold eraseHistory
  dsimp only
  split_ifs <;> rfl

theorem eraseHistory_remove_le {s : Llm} (h : s.kvMeta.remove ≤ s.kvMeta.previous)
    (first last : ℕ) :
    (s.eraseHistory first last).kvMeta.remove ≤ s.kvMeta.previous := by
  unfold eraseHistory
  dsimp only
  split_ifs <;> first | exact h | exact Nat.sub_le _ _

/-- Between forwards neither length moves. -/
theorem agree_step {s : Llm} (h : s.Agree) {a : Step} (ha : ∀ n, a ≠ .forwardVec n) :
    (s.step a).Agree := by
  cases a with
  | eraseHistory first last =>
    simpa only [Agree, step, eraseHistory_previous, eraseHistory_kvLength] using h
  | reset => exact h
  | generateInit =>
    simp only [step, generateInit]
    split_ifs <;> exact h
  | clearRemove => exact h
  | forwardVec n => exact absurd rfl (ha n)
  | dropDrafts n => exact h

/-- The two formulas give one length exactly outside the branch that drops a reserved range. -/
theorem forwardVec_agree_iff {s : Llm} (h : s.Agree) (seqLen : ℕ) :
    (s.forwardVec seqLen).Agree ↔ ¬ s.ClearsReserved := by
  have hlen : s.kvMeta.previous = s.kvLength := h
  simp only [Agree, ClearsReserved, forwardVec, attentionLength, KVMeta.sync_previous,
    reallocLength_eq, KVMeta.reserveSize]
  split_ifs with hclear
  · rw [hclear]
    simp only [true_and, not_not]
    omega
  · simp only [hclear, false_and, not_false_eq_true, iff_true]
    omega

/-! ### Whole runs -/

theorem forwards_cons_of_ne (s : Llm) {a : Step} (ha : ∀ n, a ≠ .forwardVec n) (l : List Step) :
    s.forwards (a :: l) = (s.step a).forwards l := by
  cases a with
  | forwardVec n => exact absurd rfl (ha n)
  | _ => rfl

/-- The step lemma along a list of steps: every forward leaves equal lengths if and only if no
forward meets the branch. -/
theorem forwards_agree_iff_of_agree (l : List Step) {s : Llm} (h : s.Agree) :
    (∀ p ∈ s.forwards l, (p.1.forwardVec p.2).Agree) ↔
      ∀ p ∈ s.forwards l, ¬ p.1.ClearsReserved := by
  induction l generalizing s with
  | nil => simp [forwards]
  | cons a l ih =>
    by_cases ha : ∃ n, a = .forwardVec n
    · obtain ⟨n, rfl⟩ := ha
      simp only [forwards, List.forall_mem_cons]
      rw [forwardVec_agree_iff h]
      refine and_congr_right fun hc => ih ?_
      exact (forwardVec_agree_iff h n).2 hc
    · have hne : ∀ n, a ≠ .forwardVec n := fun n hn => ha ⟨n, hn⟩
      rw [forwards_cons_of_ne s hne]
      exact ih (agree_step h hne)

/-- **After every forward of every run the host's `previous` equals the backend's `kvLength()`, if
and only if no forward of the run is asked to remove the whole cache and to keep a range of it.** -/
theorem forwards_agree_iff (reuseKv : Bool) (ops : List Op) :
    (∀ p ∈ ({ reuseKv } : Llm).forwards (ops.flatMap Op.steps), (p.1.forwardVec p.2).Agree) ↔
      ∀ p ∈ ({ reuseKv } : Llm).forwards (ops.flatMap Op.steps), ¬ p.1.ClearsReserved :=
  forwards_agree_iff_of_agree _ rfl

/-- Three prompt tokens, the first of them erased, two more tokens: the host counts the two
reserved entries, the backend has dropped them. -/
theorem eraseHistory_front_disagrees :
    ¬ ∀ (reuseKv : Bool) (ops : List Op),
      ∀ p ∈ ({ reuseKv } : Llm).forwards (ops.flatMap Op.steps), (p.1.forwardVec p.2).Agree := by
  intro h
  have hp := h true [.response 3 [], .eraseHistory 0 1, .response 2 []]
    (⟨true, ⟨3, 3, [(1, 2)], 0⟩, 3⟩, 2) (by decide)
  exact absurd hp (by decide)

/-! ### No subtraction wraps around -/

theorem le_forwardVec_previous (s : Llm) (seqLen : ℕ) :
    seqLen ≤ (s.forwardVec seqLen).kvMeta.previous := by
  simp only [forwardVec, KVMeta.sync_previous]
  omega

def run (s : Llm) (l : List Step) : Llm := l.foldl step s

theorem forwards_append (s : Llm) (l m : List Step) :
    s.forwards (l ++ m) = s.forwards l ++ (s.run l).forwards m := by
  induction l generalizing s with
  | nil => rfl
  | cons a l ih =>
    cases a <;> simp only [List.cons_append, forwards, run, List.foldl_cons, ih] <;> rfl

/-- A list of steps keeps `remove ≤ previous`, at its end and before each of its forwards. -/
structure Bounded (l : List Step) : Prop where
  run_le : ∀ s : Llm, s.kvMeta.remove ≤ s.kvMeta.previous →
    (s.run l).kvMeta.remove ≤ (s.run l).kvMeta.previous
  forwards_le : ∀ s : Llm, s.kvMeta.remove ≤ s.kvMeta.previous →
    ∀ p ∈ s.forwards l, p.1.kvMeta.remove ≤ p.1.kvMeta.previous

theorem Bounded.append {l m : List Step} (hl : Bounded l) (hm : Bounded m) : Bounded (l ++ m) where
  run_le s hs := by
    simp only [run, List.foldl_append]
    exact hm.run_le _ (hl.run_le s hs)
  forwards_le s hs p hp := by
    rw [forwards_append, List.mem_append] at hp
    rcases hp with hp | hp
    · exact hl.forwards_le s hs p hp
    · exact hm.forwards_le _ (hl.run_le s hs) p hp

theorem Bounded.flatMap {β : Type*} {f : β → List Step} (h : ∀ b, Bounded (f b)) (l : List β) :
    Bounded (l.flatMap f) := by
  induction l with
  | nil => exact ⟨fun _ hs => hs, fun _ _ _ hp => nomatch hp⟩
  | cons b l ih => exact (h b).append ih

theorem bounded_forwardVec (n : ℕ) : Bounded [.forwardVec n] where
  run_le s _ := by simp [run, step, forwardVec]
  forwards_le s hs p hp := by
    simp only [forwards, List.mem_singleton] at hp
    rwa [hp]

theorem bounded_of_le {a : Step} (ha : ∀ n, a ≠ .forwardVec n)
    (h : ∀ s : Llm, s.kvMeta.remove ≤ s.kvMeta.previous →
      (s.step a).kvMeta.remove ≤ (s.step a).kvMeta.previous) : Bounded [a] where
  run_le := h
  forwards_le s _ p hp := by rw [forwards_cons_of_ne s ha] at hp; exact nomatch hp

theorem Round.bounded (r : Round) : Bounded r.steps := by
  cases r with
  | ar =>
    exact (bounded_of_le (a := .clearRemove) (by simp) fun s _ => Nat.zero_le _).append
      (bounded_forwardVec 1)
  | drafts size rejected =>
    -- the rejected drafts are among the tokens the forward has just added
    refine ⟨fun s _ => ?_, fun s hs p hp => ?_⟩
    · have h := le_forwardVec_previous s size
      exact (rejected.isLt.le).trans h
    · exact (bounded_forwardVec size).forwards_le s hs p (by simpa [Round.steps, forwards] using hp)

theorem bounded_generateInit : Bounded [.generateInit] := by
  refine bounded_of_le (by simp) fun s hs => ?_
  simp only [step, generateInit]
  split_ifs
  · exact hs
  · exact le_rfl

theorem Op.bounded (op : Op) : Bounded op.steps := by
  have hrounds : ∀ rounds : List Round, Bounded (rounds.flatMap Round.steps) :=
    Bounded.flatMap Round.bounded
  cases op with
  | response n rounds =>
    exact bounded_generateInit.append ((bounded_forwardVec n).append (hrounds rounds))
  | generate n rounds => exact (bounded_forwardVec n).append (hrounds rounds)
  | resume rounds => exact hrounds rounds
  | forward n => exact bounded_forwardVec n
  | eraseHistory first last =>
    refine bounded_of_le (by simp) fun s hs => ?_
    rw [step, eraseHistory_previous]
    exact eraseHistory_remove_le hs first last
  | reset => exact bounded_of_le (by simp) fun s _ => le_rfl

end Llm

end Mnn
