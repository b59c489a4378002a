import Mnn.Core.KVMeta
import Mnn.Lib.Run

/-!
# The two caches of `MtpGeneration`

`MtpGeneration` keeps a meta record of its own, `mMtpMeta`, for the draft model's cache.  In each
round the main model is fed all drafts and the draft model only the accepted ones; both records are
then told to remove the rejected drafts.

* `State`, `Act`, `step`: the two records through `generate_init`, the prefill and the loop of
  `MtpGeneration::generate` (`speculative_decoding/mtp.cpp`);
* `Agree`: equal live lengths, neither of them negative;
* `Allowed`, `step_agree_iff`: what keeps them equal in one step;
* `run_iff_agree`: **the two lengths agree in every state of a run if and only if** every step of it
  is allowed: every round accepts all its drafts, nothing cached is cleared by `generate_init`, and
  `generate` is not called again on an old forward.
-/

namespace Mnn.Mtp

open Lib

/-- The records `mMeta` and `mMtpMeta`, and the number of tokens in `mGenerateParam->input_embeds`,
the input of the main model's last forward. -/
structure State where
  main : KVMeta := {}
  mtp : KVMeta := {}
  inputEmbeds : ℕ := 0
  deriving DecidableEq, Repr

/-- How a round ends that verifies `size` tokens: the main model gives no output, it gives no hidden
states or no logits, or `draftVerify` rejects the last `rejected` of them. -/
inductive Outcome (size : ℕ)
  | noOutput
  | incomplete
  | verified (rejected : Fin size)

/-- The parts of a run: `generate_init` of a response, the prefill of its prompt with the first
draft, a call of `generate` on a number of tokens, and a round of the loop.  A round verifies the
current token and `draftLength` drafts. -/
inductive Act (draftLength : ℕ)
  | generateInit (reuseKv : Bool)
  | prefill (promptLen : ℕ)
  | resume
  | round (outcome : Outcome (draftLength + 1))

/-- A forward of `seqLen` tokens: `add` is set, `sync` follows. -/
def forward (m : KVMeta) (seqLen : ℕ) : KVMeta := { m with add := seqLen }.sync

/-- The first draft: `remove = 0`, and the prompt without its first token and with the current token
is fed to the draft model. -/
def firstDraft (s : State) : State :=
  { s with mtp := forward { s.mtp with remove := 0 } s.inputEmbeds }

/-- One round of `MtpGeneration::generate`. -/
def round {size : ℕ} (s : State) : Outcome size → State
  | .noOutput => { s with main := { s.main with add := size } }
  | .incomplete => { s with main := forward s.main size, inputEmbeds := size }
  | .verified rejected =>
      let accepted := size - rejected
      { main := { forward s.main size with remove := size - accepted }
        mtp := { forward s.mtp accepted with remove := size - accepted }
        inputEmbeds := size }

variable {draftLength : ℕ}

def step (s : State) : Act draftLength → State
  | .generateInit reuseKv =>
      if reuseKv then s else { s with main := { s.main with remove := s.main.previous } }
  | .prefill promptLen =>
      firstDraft { s with main := forward s.main promptLen, inputEmbeds := promptLen }
  | .resume => firstDraft s
  | .round outcome => round s outcome

/-- The live length of a cache. -/
def live (m : KVMeta) : ℕ := m.previous - m.remove

/-- The live lengths are equal, and both subtractions stay above zero. -/
structure Agree (s : State) : Prop where
  main : s.main.remove ≤ s.main.previous
  mtp : s.mtp.remove ≤ s.mtp.previous
  live : live s.mtp = live s.main

/-- The condition on a step: a response clears nothing that is cached, no removal is pending for the
draft model when its first draft is made, `generate` is not called again on tokens that were fed
before, and a round accepts all its drafts or has no forward. -/
def Allowed (s : State) : Act draftLength → Prop
  | .generateInit reuseKv => reuseKv = true ∨ live s.main = 0
  | .prefill _ => s.mtp.remove = 0
  | .resume => s.mtp.remove = 0 ∧ s.inputEmbeds = 0
  | .round .noOutput => True
  | .round .incomplete => False
  | .round (.verified rejected) => (rejected : ℕ) = 0

def machine (draftLength : ℕ) : Machine State (Act draftLength) where
  Allowed := Allowed
  step := step

/-! ### One step -/

/-- No range is ever reserved in either record. -/
structure NoReserve (s : State) : Prop where
  main : s.main.reserve = []
  mtp : s.mtp.reserve = []

theorem NoReserve.step {s : State} (h : NoReserve s) (a : Act draftLength) :
    NoReserve (step s a) := by
  cases a with
  | generateInit reuseKv =>
    cases reuseKv with
    | true => exact h
    | false => exact ⟨h.main, h.mtp⟩
  | prefill promptLen => exact ⟨rfl, rfl⟩
  | resume => exact ⟨h.main, rfl⟩
  | round outcome =>
    cases outcome with
    | noOutput => exact ⟨h.main, h.mtp⟩
    | incomplete => exact ⟨rfl, h.mtp⟩
    | verified rejected => exact ⟨rfl, rfl⟩

theorem forward_previous {m : KVMeta} (h : m.reserve = []) (seqLen : ℕ) :
    (forward m seqLen).previous = live m + seqLen := by
  simp [forward, live, KVMeta.reserveSize, h]

@[simp] theorem forward_remove (m : KVMeta) (seqLen : ℕ) : (forward m seqLen).remove = 0 := rfl

section Steps

variable {s : State} (h : Agree s)

include h

theorem agree_generateInit_iff (reuseKv : Bool) :
    Agree (step s (.generateInit reuseKv : Act draftLength)) ↔
      reuseKv = true ∨ live s.main = 0 := by
  obtain ⟨hmain, hmtp, hlive⟩ := h
  unfold live at hlive
  cases reuseKv with
  | true => exact ⟨fun _ => .inl rfl, fun _ => ⟨hmain, hmtp, hlive⟩⟩
  | false =>
    constructor
    · intro hs
      have hzero : s.mtp.previous - s.mtp.remove = s.main.previous - s.main.previous := hs.live
      refine .inr ?_
      show s.main.previous - s.main.remove = 0
      omega
    · rintro (hf | hzero)
      · exact nomatch hf
      · refine ⟨le_rfl, hmtp, ?_⟩
        show s.mtp.previous - s.mtp.remove = s.main.previous - s.main.previous
        have hzero' : s.main.previous - s.main.remove = 0 := hzero
        omega

variable (hr : NoReserve s)

include hr

theorem agree_prefill_iff (promptLen : ℕ) :
    Agree (step s (.prefill promptLen : Act draftLength)) ↔ s.mtp.remove = 0 := by
  obtain ⟨hmain, hmtp, hlive⟩ := h
  have hfeed := forward_previous hr.main
  have hprompt : (step s (.prefill promptLen : Act draftLength)).mtp.previous =
      s.mtp.previous + promptLen :=
    @forward_previous { s.mtp with remove := 0 } hr.mtp promptLen
  unfold live at hlive hfeed
  constructor
  · intro hs
    have hl : (step s (.prefill promptLen : Act draftLength)).mtp.previous - 0 =
      (forward s.main promptLen).previous - 0 := hs.live
    rw [hprompt, hfeed] at hl
    omega
  · intro hzero
    refine ⟨Nat.zero_le _, Nat.zero_le _, ?_⟩
    show (step s (.prefill promptLen : Act draftLength)).mtp.previous - 0 =
      (forward s.main promptLen).previous - 0
    rw [hprompt, hfeed]
    omega

theorem agree_resume_iff :
    Agree (step s (.resume : Act draftLength)) ↔ s.mtp.remove = 0 ∧ s.inputEmbeds = 0 := by
  obtain ⟨hmain, hmtp, hlive⟩ := h
  have hfirst : (firstDraft s).mtp.previous = s.mtp.previous + s.inputEmbeds :=
    @forward_previous { s.mtp with remove := 0 } hr.mtp s.inputEmbeds
  unfold live at hlive
  constructor
  · intro hs
    have hl : (firstDraft s).mtp.previous - 0 = s.main.previous - s.main.remove := hs.live
    rw [hfirst] at hl
    omega
  · rintro ⟨hzero, hembeds⟩
    refine ⟨hmain, Nat.zero_le _, ?_⟩
    show (firstDraft s).mtp.previous - 0 = s.main.previous - s.main.remove
    rw [hfirst]
    omega

/-- The main model's forward is kept, the draft model gets none. -/
theorem not_agree_incomplete : ¬ Agree (step s (.round .incomplete : Act draftLength)) := by
  intro hs
  have hlive := h.live
  have hfeed := forward_previous hr.main
  unfold live at hlive hfeed
  have hl : s.mtp.previous - s.mtp.remove = (forward s.main (draftLength + 1)).previous - 0 :=
    hs.live
  rw [hfeed] at hl
  omega

/-- The main model advances by what it accepts, the draft model loses the rejected drafts again. -/
theorem agree_verified_iff (rejected : Fin (draftLength + 1)) :
    Agree (step s (.round (.verified rejected) : Act draftLength)) ↔ (rejected : ℕ) = 0 := by
  have hlt := rejected.isLt
  have hlive := h.live
  have hfeed := forward_previous hr.main
  have hfeed' := forward_previous hr.mtp
  unfold live at hlive hfeed hfeed'
  constructor
  · intro hs
    have hl : (forward s.mtp (draftLength + 1 - rejected)).previous -
        (draftLength + 1 - (draftLength + 1 - rejected)) =
      (forward s.main (draftLength + 1)).previous -
        (draftLength + 1 - (draftLength + 1 - rejected)) := hs.live
    have hb : draftLength + 1 - (draftLength + 1 - rejected) ≤
        (forward s.mtp (draftLength + 1 - rejected)).previous := hs.mtp
    rw [hfeed, hfeed'] at hl
    rw [hfeed'] at hb
    omega
  · intro hzero
    refine ⟨?_, ?_, ?_⟩
    · show draftLength + 1 - (draftLength + 1 - rejected) ≤ _
      omega
    · show draftLength + 1 - (draftLength + 1 - rejected) ≤ _
      omega
    · show (forward s.mtp (draftLength + 1 - rejected)).previous -
          (draftLength + 1 - (draftLength + 1 - rejected)) =
        (forward s.main (draftLength + 1)).previous -
          (draftLength + 1 - (draftLength + 1 - rejected))
      rw [hfeed, hfeed']
      omega

/-- **One step keeps the two lengths equal exactly when it is allowed.** -/
theorem step_agree_iff (a : Act draftLength) : Agree (step s a) ↔ Allowed s a := by
  cases a with
  | generateInit reuseKv => exact agree_generateInit_iff h reuseKv
  | prefill promptLen => exact agree_prefill_iff h hr promptLen
  | resume => exact agree_resume_iff h hr
  | round outcome =>
    cases outcome with
    | noOutput => exact iff_of_true ⟨h.main, h.mtp, h.live⟩ trivial
    | incomplete => exact iff_of_false (not_agree_incomplete h hr) id
    | verified rejected => exact agree_verified_iff h hr rejected

end Steps

/-! ### Whole runs -/

/-- The states of a run. -/
def states (s : State) : List (Act draftLength) → List State
  | [] => [s]
  | a :: acts => s :: states (step s a) acts

theorem run_iff_of_agree (acts : List (Act draftLength)) {s : State} (h : Agree s)
    (hr : NoReserve s) :
    (∀ t ∈ states s acts, Agree t) ↔ ∃ t, Run (machine draftLength) s acts t := by
  induction acts generalizing s with
  | nil =>
    constructor
    · intro _
      exact ⟨s, .nil s⟩
    · intro _ t ht
      obtain rfl : t = s := by simpa [states] using ht
      exact h
  | cons a acts ih =>
    constructor
    · intro hall
      have hrest : ∀ t ∈ states (step s a) acts, Agree t := fun t ht =>
        hall t (List.mem_cons_of_mem s ht)
      have hnext : Agree (step s a) := hrest _ (by cases acts <;> simp [states])
      obtain ⟨t, ht⟩ := (ih hnext (hr.step a)).1 hrest
      exact ⟨t, .cons ((step_agree_iff h hr a).1 hnext) ht⟩
    · rintro ⟨t, ht⟩ u hu
      cases ht with
      | cons ha hrest =>
        have hnext : Agree (step s a) := (step_agree_iff h hr a).2 ha
        rcases List.mem_cons.1 hu with rfl | hu
        · exact h
        · exact (ih hnext (hr.step a)).2 ⟨t, hrest⟩ u hu

/-- **In every state of a run the live length of the draft model's cache is that of the main
model's, and neither subtraction goes below zero, if and only if every step of the run is
allowed.** -/
theorem run_iff_agree (draftLength : ℕ) (acts : List (Act draftLength)) :
    (∀ t ∈ states {} acts, Agree t) ↔ ∃ t, Run (machine draftLength) {} acts t :=
  run_iff_of_agree acts ⟨le_rfl, le_rfl, rfl⟩ ⟨rfl, rfl⟩

/-- A prompt of one token and three drafts that are all rejected: the draft model holds two entries
and is told to remove three. -/
theorem rejected_drafts_drift :
    ¬ ∀ (draftLength : ℕ) (acts : List (Act draftLength)), ∀ t ∈ states {} acts, Agree t := by
  intro h
  have ht := h 3 [.generateInit true, .prefill 1, .round (.verified 3)]
    ⟨⟨5, 3, [], 0⟩, ⟨2, 3, [], 0⟩, 4⟩ (by decide)
  exact absurd ht.mtp (by decide)

end Mnn.Mtp
