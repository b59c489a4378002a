import Mnn.Cpu.ThreadPool

/-!
# Calls of the thread pool are exact

* `Inv`, `run_inv`: what holds at every moment, in whatever order callers and workers take their
  steps;
* `calls_exact`: **a call has run its task for each number once when it returns, and no thread runs
  it after that**.
-/

namespace Mnn.ThreadPool

open Lib

section Invariant

variable {C : Type*}

/-- What a worker runs in slot `t`. -/
def Worker.runs (t : ℕ) : Worker C → Option (C × List ℕ)
  | .run t' c rest => if t' = t then some (c, rest) else none
  | _ => none

namespace Pool

/-- What the workers run in slot `t`. -/
def running (s : Pool C) (t j : ℕ) : Option (C × List ℕ) := (s.worker j).runs t

/-- No flag is up and no worker runs anything in the slot. -/
def Quiet (s : Pool C) (t : ℕ) : Prop :=
  (∀ j, s.flag t j = false) ∧ ∀ j, s.running t j = none

/-- What holds of a caller. -/
def CallerOk (N : ℕ) (s : Pool C) (c : C) : Prop :=
  match s.caller c with
  | .idle last => ∀ v, s.ran c v = if v < last then 1 else 0
  | .sequential n i => i ≤ n ∧ ∀ v, s.ran c v = if v < i then 1 else 0
  | .enter n | .store n => 0 < n ∧ (∃ t, s.mTaskIndex c = some t) ∧ ∀ v, s.ran c v = 0
  | .work n p => 0 < n ∧ ∃ t, s.mTaskIndex c = some t ∧ s.mTasks t = some (c, n) ∧
      Working N n c p (s.flag t) (s.running t) (s.ran c)

end Pool

/-- The invariant: slots have one owner, callers are where they should be, and a slot whose owner
has not stored a task is at rest. -/
structure Inv (N : ℕ) (s : Pool C) : Prop where
  inj : ∀ c d t, s.mTaskIndex c = some t → s.mTaskIndex d = some t → c = d
  taken : ∀ c t, s.mTaskIndex c = some t → s.mTaskAvailable t = false ∧ t < maxTasks
  caller : ∀ c, s.CallerOk N c
  quiet : ∀ t, (∀ c, s.mTaskIndex c = some t → ∀ n p, s.caller c ≠ .work n p) → s.Quiet t

variable {N : ℕ} {s s' : Pool C} {c : C} {t j : ℕ}

theorem running_setWorker (s : Pool C) (j : ℕ) (w : Worker C) (t : ℕ) :
    (s.setWorker j w).running t = Function.update (s.running t) j (w.runs t) := by
  funext k
  rcases eq_or_ne k j with rfl | hne
  · simp [Pool.running, Pool.setWorker]
  · simp [Pool.running, Pool.setWorker, hne]

theorem inv_init : Inv N ({} : Pool C) where
  inj := nofun
  taken := nofun
  caller _ _ := rfl
  quiet _ _ := ⟨fun _ => rfl, fun _ => rfl⟩

/-- A slot that is not at rest has an owner in the middle of a call. -/
theorem Inv.owner (h : Inv N s) (hbusy : ¬ s.Quiet t) :
    ∃ c n p, s.mTaskIndex c = some t ∧ s.caller c = .work n p := by
  by_contra hnone
  exact hbusy (h.quiet t fun c hc n p hp => hnone ⟨c, n, p, hc, hp⟩)

theorem Inv.working (h : Inv N s) {n : ℕ} {p : Phase} (hc : s.mTaskIndex c = some t)
    (hp : s.caller c = .work n p) :
    0 < n ∧ s.mTasks t = some (c, n) ∧ Working N n c p (s.flag t) (s.running t) (s.ran c) := by
  have hok := h.caller c
  rw [Pool.CallerOk, hp] at hok
  obtain ⟨hn, t', ht', htask, hworking⟩ := hok
  obtain rfl := Option.some.inj (hc.symm.trans ht')
  exact ⟨hn, htask, hworking⟩

theorem CallerOk.congr (hok : s.CallerOk N c) (hcaller : s'.caller c = s.caller c)
    (hran : s'.ran c = s.ran c) (hindex : s'.mTaskIndex c = s.mTaskIndex c)
    (hslot : ∀ t, s.mTaskIndex c = some t → s'.mTasks t = s.mTasks t ∧ s'.flag t = s.flag t ∧
      s'.running t = s.running t) : s'.CallerOk N c := by
  unfold Pool.CallerOk at hok ⊢
  rw [hcaller, hran, hindex]
  split at hok
  · exact hok
  · exact hok
  · exact hok
  · exact hok
  · obtain ⟨hn, t, ht, htask, hworking⟩ := hok
    obtain ⟨htasks, hflag, hrunning⟩ := hslot t ht
    exact ⟨hn, t, ht, htasks.trans htask, hflag ▸ hrunning ▸ hworking⟩

/-- A step that is the business of `c`: of its own state and of its slot. -/
theorem Inv.of_caller (h : Inv N s) (c : C) (hindex : s'.mTaskIndex = s.mTaskIndex)
    (havailable : s'.mTaskAvailable = s.mTaskAvailable)
    (hcaller : ∀ d ≠ c, s'.caller d = s.caller d) (hran : ∀ d ≠ c, s'.ran d = s.ran d)
    (hslot : ∀ t, s.mTaskIndex c ≠ some t → s'.mTasks t = s.mTasks t ∧ s'.flag t = s.flag t ∧
      s'.running t = s.running t)
    (hok : s'.CallerOk N c)
    (hquiet : ∀ t, s.mTaskIndex c = some t → (∀ n p, s'.caller c ≠ .work n p) → s'.Quiet t) :
    Inv N s' := by
  constructor
  · rw [hindex]
    exact h.inj
  · rw [hindex, havailable]
    exact h.taken
  · intro d
    rcases eq_or_ne d c with rfl | hne
    · exact hok
    · exact CallerOk.congr (h.caller d) (hcaller d hne) (hran d hne) (by rw [hindex])
        fun t ht => hslot t fun hc => hne (h.inj d c t ht hc)
  · intro t ht
    rw [hindex] at ht
    by_cases hc : s.mTaskIndex c = some t
    · exact hquiet t hc (ht c hc)
    · obtain ⟨-, hflag, hrunning⟩ := hslot t hc
      have hrest := h.quiet t fun d hd n p => hcaller d (by rintro rfl; exact hc hd) ▸ ht d hd n p
      exact ⟨fun j => hflag ▸ hrest.1 j, fun j => hrunning ▸ hrest.2 j⟩

variable [DecidableEq C]

/-- A step of the caller in a slot whose call goes on. -/
theorem Inv.of_working (h : Inv N s) {n : ℕ} {p p' : Phase} (hc : s.mTaskIndex c = some t)
    (hp : s.caller c = .work n p) (hindex : s'.mTaskIndex = s.mTaskIndex)
    (havailable : s'.mTaskAvailable = s.mTaskAvailable)
    (hcaller : s'.caller = Function.update s.caller c (.work n p'))
    (hran : ∀ d ≠ c, s'.ran d = s.ran d) (htasks : s'.mTasks = s.mTasks)
    (hslot : ∀ t' ≠ t, s'.flag t' = s.flag t' ∧ s'.running t' = s.running t')
    (hworking : Working N n c p' (s'.flag t) (s'.running t) (s'.ran c)) : Inv N s' := by
  obtain ⟨hn, htask, -⟩ := h.working hc hp
  have hself : s'.caller c = .work n p' := by rw [hcaller, Function.update_self]
  refine h.of_caller c hindex havailable (fun d hd => ?_) hran (fun t' ht' => ?_) ?_ ?_
  · rw [hcaller, Function.update_of_ne hd]
  · exact ⟨by rw [htasks], hslot t' fun heq => ht' (heq ▸ hc)⟩
  · rw [Pool.CallerOk, hself]
    exact ⟨hn, t, hindex ▸ hc, htasks ▸ htask, hworking⟩
  · intro t' _ hnot
    exact absurd hself (hnot n p')

/-- **The caller's steps** once its task is stored. -/
theorem inv_stepPhase (hN : 0 < N) (h : Inv N s) {n : ℕ} {p : Phase} (hc : s.mTaskIndex c = some t)
    (hp : s.caller c = .work n p) : Inv N (s.stepPhase N c t n p) := by
  obtain ⟨hn, htask, hworking⟩ := h.working hc hp
  have hsize : 0 < min n N := lt_min hn hN
  cases p with
  | raise i =>
    simp only [Pool.stepPhase]
    split_ifs with hi
    · refine h.of_working hc hp rfl rfl rfl (fun _ _ => rfl) rfl
        (fun t' ht' => ⟨Function.update_of_ne ht' .., rfl⟩) ?_
      show Working N n c _ (Function.update s.flag t _ t) (s.running t) (s.ran c)
      rw [Function.update_self]
      exact hworking.raise hi
    · refine h.of_working hc hp rfl rfl rfl (fun _ _ => rfl) rfl (fun _ _ => ⟨rfl, rfl⟩) ?_
      refine hworking.phase nofun (fun j _ hlt => iff_of_true trivial ?_) nofun rfl
      exact lt_of_lt_of_le hlt (Nat.not_lt.1 hi)
  | own rest =>
    cases rest with
    | nil =>
      refine h.of_working hc hp rfl rfl rfl (fun _ _ => rfl) rfl (fun _ _ => ⟨rfl, rfl⟩) ?_
      refine hworking.phase nofun (fun _ _ _ => Iff.rfl) ?_ rfl
      rintro _ ⟨⟩ j hj
      by_contra hflag
      have := (hworking.flagged j (by simpa using hflag)).1
      omega
    | cons v rest =>
      refine h.of_working hc hp rfl rfl rfl (fun d hd => Function.update_of_ne hd ..) rfl
        (fun _ _ => ⟨rfl, rfl⟩) ?_
      show Working N n c _ (s.flag t) (s.running t) (Function.update s.ran c _ c)
      rw [Function.update_self]
      exact hworking.own_item hsize
  | check i =>
    simp only [Pool.stepPhase]
    split_ifs with hi hflag
    · refine h.of_working hc hp rfl rfl rfl (fun _ _ => rfl) rfl (fun _ _ => ⟨rfl, rfl⟩) ?_
      refine hworking.phase nofun (fun _ _ _ => Iff.rfl) ?_ rfl
      rintro _ ⟨⟩ j hj
      by_contra hflag
      have := (hworking.flagged j (by simpa using hflag)).1
      omega
    · refine h.of_working hc hp rfl rfl rfl (fun _ _ => rfl) rfl (fun _ _ => ⟨rfl, rfl⟩) ?_
      refine hworking.phase nofun (fun _ _ _ => Iff.rfl) ?_ rfl
      rintro _ ⟨⟩ j hj
      rcases Nat.lt_succ_iff_lt_or_eq.1 hj with hj | rfl
      · exact hworking.seen i rfl j hj
      · simpa using hflag
    · obtain ⟨hdown, hrest, hran⟩ := hworking.returned (Nat.not_lt.1 hi)
      refine h.of_caller c rfl rfl (fun d hd => Function.update_of_ne hd ..) (fun _ _ => rfl)
        (fun _ _ => ⟨rfl, rfl, rfl⟩) ?_ ?_
      · simp only [Pool.CallerOk, Pool.setCaller, Function.update_self]
        exact hran
      · intro t' ht' _
        obtain rfl := Option.some.inj (hc.symm.trans ht')
        exact ⟨hdown, hrest⟩

/-- A step of the caller that is the business of no slot. -/
theorem Inv.of_setCaller (h : Inv N s) {p : Caller} (hindex : s'.mTaskIndex = s.mTaskIndex)
    (havailable : s'.mTaskAvailable = s.mTaskAvailable)
    (hcaller : s'.caller = Function.update s.caller c p) (hran : ∀ d ≠ c, s'.ran d = s.ran d)
    (hslots : s'.mTasks = s.mTasks ∧ s'.flag = s.flag ∧ s'.worker = s.worker)
    (hidle : ∀ n p, s.caller c ≠ .work n p) (hok : s'.CallerOk N c) : Inv N s' := by
  obtain ⟨htasks, hflag, hworker⟩ := hslots
  have hrunning : s'.running = s.running := by
    funext t j
    rw [Pool.running, hworker]
    rfl
  refine h.of_caller c hindex havailable (fun d hd => ?_) hran
    (fun t _ => ⟨by rw [htasks], by rw [hflag], by rw [hrunning]⟩) hok fun t ht _ => ?_
  · rw [hcaller, Function.update_of_ne hd]
  · have hquiet := h.quiet t fun d hd n p => by
      obtain rfl := h.inj d c t hd ht
      exact hidle n p
    exact ⟨hflag ▸ hquiet.1, hrunning ▸ hquiet.2⟩

theorem inv_stepCaller (hN : 0 < N) (h : Inv N s) (c : C) : Inv N (s.stepCaller N c) := by
  have hok := h.caller c
  unfold Pool.stepCaller
  cases hp : s.caller c with
  | idle last => exact h
  | sequential n i =>
    rw [Pool.CallerOk, hp] at hok
    have hidle : ∀ m p, s.caller c ≠ .work m p := fun m p => hp ▸ nofun
    dsimp only
    split_ifs with hi
    · refine h.of_setCaller (p := .sequential n (i + 1)) rfl rfl rfl
        (fun d hd => Function.update_of_ne hd ..) ⟨rfl, rfl, rfl⟩ hidle ?_
      simp only [Pool.CallerOk, Pool.setCaller, Pool.runItem, Function.update_self]
      refine ⟨hi, fun v => ?_⟩
      rcases eq_or_ne v i with rfl | hne
      · rw [Function.update_self, hok.2, if_neg (lt_irrefl v), if_pos (Nat.lt_succ_self v)]
      · rw [Function.update_of_ne hne, hok.2]
        congr 1
        exact propext ⟨by omega, by omega⟩
    · refine h.of_setCaller (p := .idle n) rfl rfl rfl (fun _ _ => rfl) ⟨rfl, rfl, rfl⟩ hidle ?_
      simp only [Pool.CallerOk, Pool.setCaller, Function.update_self]
      obtain rfl : i = n := by omega
      exact hok.2
  | enter n =>
    rw [Pool.CallerOk, hp] at hok
    have hidle : ∀ m p, s.caller c ≠ .work m p := fun m p => hp ▸ nofun
    dsimp only
    split_ifs with hactive
    · refine h.of_setCaller (p := .sequential n 0) rfl rfl rfl (fun _ _ => rfl) ⟨rfl, rfl, rfl⟩
        hidle ?_
      simp only [Pool.CallerOk, Pool.setCaller, Function.update_self]
      exact ⟨Nat.zero_le n, fun v => by rw [hok.2.2, if_neg (Nat.not_lt_zero v)]⟩
    · refine h.of_setCaller (p := .store n) rfl rfl rfl (fun _ _ => rfl) ⟨rfl, rfl, rfl⟩ hidle ?_
      simp only [Pool.CallerOk, Pool.setCaller, Function.update_self]
      exact hok
  | store n =>
    rw [Pool.CallerOk, hp] at hok
    obtain ⟨hn, ⟨t, ht⟩, hran⟩ := hok
    -- the slot is at rest, as its owner is about to store a task
    have hquiet := h.quiet t fun d hd m p => by
      obtain rfl := h.inj d c t hd ht
      rw [hp]
      nofun
    simp only [ht]
    refine h.of_caller c rfl rfl (fun d hd => Function.update_of_ne hd ..) (fun _ _ => rfl)
      (fun t' ht' => ?_) ?_ ?_
    · have hne : t' ≠ t := fun heq => ht' (heq ▸ ht)
      exact ⟨Function.update_of_ne hne .., rfl, rfl⟩
    · simp only [Pool.CallerOk, Pool.setCaller, Function.update_self]
      exact ⟨hn, t, ht, Function.update_self .., working_store hN c hquiet.1 hquiet.2 hran⟩
    · intro t' ht' hnot
      exact absurd (Function.update_self ..) (hnot n (.raise 1))
  | work n p =>
    rw [Pool.CallerOk, hp] at hok
    obtain ⟨-, t, ht, -⟩ := hok
    simp only [ht]
    exact inv_stepPhase hN h ht hp

omit [DecidableEq C] in
/-- A step of a worker that is the business of no slot. -/
theorem Inv.of_setWorker (h : Inv N s) {w : Worker C} (hold : ∀ t, (s.worker j).runs t = none)
    (hnew : ∀ t, w.runs t = none) : Inv N (s.setWorker j w) := by
  have hrunning : (s.setWorker j w).running = s.running := by
    funext t
    rw [running_setWorker, hnew t, ← hold t]
    exact Function.update_eq_self j _
  constructor
  · exact h.inj
  · exact h.taken
  · exact fun c => CallerOk.congr (h.caller c) rfl rfl rfl fun t _ => ⟨rfl, rfl, by rw [hrunning]⟩
  · exact fun t ht => ⟨(h.quiet t ht).1, hrunning ▸ (h.quiet t ht).2⟩

/-- A step of a worker in a slot whose call goes on. -/
theorem Inv.of_worker (h : Inv N s) {n : ℕ} {p : Phase} (hc : s.mTaskIndex c = some t)
    (hp : s.caller c = .work n p) (hindex : s'.mTaskIndex = s.mTaskIndex)
    (havailable : s'.mTaskAvailable = s.mTaskAvailable) (hcaller : s'.caller = s.caller)
    (hran : ∀ d ≠ c, s'.ran d = s.ran d) (htasks : s'.mTasks = s.mTasks)
    (hslot : ∀ t' ≠ t, s'.flag t' = s.flag t' ∧ s'.running t' = s.running t')
    (hworking : Working N n c p (s'.flag t) (s'.running t) (s'.ran c)) : Inv N s' :=
  h.of_working hc hp hindex havailable (by rw [hcaller, ← hp, Function.update_eq_self]) hran htasks
    hslot hworking

omit [DecidableEq C] in
/-- A worker that runs something does it for the owner of the slot. -/
theorem Inv.runs (h : Inv N s) {rest : List ℕ} (hj : s.worker j = .run t c rest) :
    ∃ n p, s.mTaskIndex c = some t ∧ s.caller c = .work n p ∧
      s.running t j = some (c, rest) ∧ Working N n c p (s.flag t) (s.running t) (s.ran c) := by
  have hrunning : s.running t j = some (c, rest) := by
    rw [Pool.running, hj]
    exact if_pos rfl
  obtain ⟨d, n, p, hd, hp⟩ := h.owner fun hquiet => by
    rw [hquiet.2 j] at hrunning
    cases hrunning
  obtain ⟨-, -, hworking⟩ := h.working hd hp
  obtain rfl := (hworking.runs j c rest hrunning).1
  exact ⟨n, p, hd, hp, hrunning, hworking⟩

/-- **The steps of a worker.** -/
theorem inv_stepWorker (hN : 0 < N) (h : Inv N s) (j : ℕ) : Inv N (s.stepWorker N j) := by
  unfold Pool.stepWorker
  cases hj : s.worker j with
  | outer =>
    dsimp only
    split_ifs
    · exact h.of_setWorker (fun t => by rw [hj]; rfl) fun t => rfl
    · exact h
  | scan t =>
    dsimp only
    have hold : ∀ t, (s.worker j).runs t = none := fun t => by rw [hj]; rfl
    split_ifs with ht hflag
    · obtain ⟨c, n, p, hc, hp⟩ := h.owner fun hquiet => by
        rw [hquiet.1 j] at hflag
        cases hflag
      obtain ⟨-, htask, hworking⟩ := h.working hc hp
      simp only [htask]
      refine h.of_worker hc hp rfl rfl rfl (fun _ _ => rfl) rfl (fun t' ht' => ⟨rfl, ?_⟩) ?_
      · rw [running_setWorker, Worker.runs, if_neg ht'.symm, ← hold t']
        exact Function.update_eq_self j _
      · rw [running_setWorker, Worker.runs, if_pos rfl]
        exact hworking.start hN hflag (hold t)
    · exact h.of_setWorker hold fun t => rfl
    · exact h.of_setWorker hold fun t => rfl
  | run t c rest =>
    obtain ⟨n, p, hc, hp, hrunning, hworking⟩ := h.runs hj
    have hother : ∀ t' ≠ t, s.running t' j = none := fun t' ht' => by
      rw [Pool.running, hj]
      exact if_neg ht'.symm
    cases rest with
    | nil =>
      refine h.of_worker hc hp rfl rfl rfl (fun _ _ => rfl) rfl
        (fun t' ht' => ⟨Function.update_of_ne ht' .., ?_⟩) ?_
      · rw [running_setWorker]
        exact Function.update_eq_self_iff.2 (hother t' ht').symm
      · rw [running_setWorker]
        show Working N n c p (Function.update s.flag t _ t) (Function.update (s.running t) j none)
          (s.ran c)
        rw [Function.update_self]
        exact hworking.finish hrunning
    | cons v rest =>
      refine h.of_worker hc hp rfl rfl rfl (fun d hd => Function.update_of_ne hd ..) rfl
        (fun t' ht' => ⟨rfl, ?_⟩) ?_
      · rw [running_setWorker, Worker.runs, if_neg ht'.symm]
        exact Function.update_eq_self_iff.2 (hother t' ht').symm
      · rw [running_setWorker, Worker.runs, if_pos rfl]
        show Working N n c p (s.flag t) (Function.update (s.running t) j (some (c, rest)))
          (Function.update s.ran c _ c)
        rw [Function.update_self]
        exact hworking.run_item hrunning

omit [DecidableEq C] in
/-- Between its calls a caller can change its slot. -/
theorem Inv.of_index (h : Inv N s) {last : ℕ} (hidle : s.caller c = .idle last)
    {index : C → Option ℕ} {available : ℕ → Bool} (hindex : ∀ d ≠ c, index d = s.mTaskIndex d)
    (hinj : ∀ d e t, index d = some t → index e = some t → d = e)
    (htaken : ∀ d t, index d = some t → available t = false ∧ t < maxTasks) :
    Inv N { s with mTaskIndex := index, mTaskAvailable := available } := by
  refine ⟨hinj, htaken, fun d => ?_, fun t ht => h.quiet t fun d hd n p => ?_⟩
  · by_cases hd : d = c
    · have hok := h.caller c
      rw [Pool.CallerOk, hidle] at hok
      rw [hd, Pool.CallerOk, show Pool.caller _ c = .idle last from hidle]
      exact hok
    · exact CallerOk.congr (h.caller d) rfl rfl (hindex d hd) fun _ _ => ⟨rfl, rfl, rfl⟩
  · by_cases hdc : d = c
    · rw [hdc, hidle]
      nofun
    · exact ht d ((hindex d hdc).trans hd) n p

theorem inv_acquireWorkIndex (h : Inv N s) {last : ℕ} (hidle : s.caller c = .idle last) :
    Inv N (s.acquireWorkIndex c) := by
  unfold Pool.acquireWorkIndex
  cases hfind : (List.range maxTasks).find? s.mTaskAvailable with
  | none => exact h
  | some t =>
    have hfree : ∀ d, s.mTaskIndex d ≠ some t := fun d hd => by
      have := List.find?_some hfind
      rw [(h.taken d t hd).1] at this
      cases this
    have hindex : ∀ d t', Function.update s.mTaskIndex c (some t) d = some t' →
        d = c ∧ t' = t ∨ s.mTaskIndex d = some t' := by
      intro d t' hd
      rcases eq_or_ne d c with rfl | hne
      · rw [Function.update_self] at hd
        exact .inl ⟨rfl, (Option.some.inj hd).symm⟩
      · rw [Function.update_of_ne hne] at hd
        exact .inr hd
    refine h.of_index hidle (fun d hd => Function.update_of_ne hd ..) (fun d e t' hd he => ?_)
      fun d t' hd => ?_
    · rcases hindex d t' hd with ⟨rfl, rfl⟩ | hd'
      · rcases hindex e t' he with ⟨rfl, -⟩ | he'
        · rfl
        · exact absurd he' (hfree e)
      · rcases hindex e t' he with ⟨rfl, rfl⟩ | he'
        · exact absurd hd' (hfree d)
        · exact h.inj d e t' hd' he'
    · rcases hindex d t' hd with ⟨-, rfl⟩ | hd'
      · exact ⟨Function.update_self .., List.mem_range.1 (List.mem_of_find?_eq_some hfind)⟩
      · have hne : t' ≠ t := fun heq => hfree d (heq ▸ hd')
        exact (h.taken d t' hd').imp_left (Function.update_of_ne hne ..).trans

theorem inv_releaseWorkIndex (h : Inv N s) {last : ℕ} (hidle : s.caller c = .idle last) :
    Inv N (s.releaseWorkIndex c) := by
  unfold Pool.releaseWorkIndex
  cases hc : s.mTaskIndex c with
  | none => exact h
  | some t =>
    have hindex : ∀ d t', Function.update s.mTaskIndex c none d = some t' →
        d ≠ c ∧ s.mTaskIndex d = some t' := by
      intro d t' hd
      rcases eq_or_ne d c with rfl | hne
      · rw [Function.update_self] at hd
        cases hd
      · rw [Function.update_of_ne hne] at hd
        exact ⟨hne, hd⟩
    refine h.of_index hidle (fun d hd => Function.update_of_ne hd ..)
      (fun d e t' hd he => h.inj d e t' (hindex d t' hd).2 (hindex e t' he).2) fun d t' hd => ?_
    obtain ⟨hdc, hd'⟩ := hindex d t' hd
    have hne : t' ≠ t := fun heq => hdc (h.inj d c t (heq ▸ hd') hc)
    exact (h.taken d t' hd').imp_left (Function.update_of_ne hne ..).trans

theorem inv_enqueue (h : Inv N s) {last : ℕ} (hidle : s.caller c = .idle last) (n : ℕ) :
    Inv N (s.enqueue c n) := by
  have hnot : ∀ m p, s.caller c ≠ .work m p := fun m p => hidle ▸ nofun
  unfold Pool.enqueue
  dsimp only
  split_ifs with hsequential
  · refine h.of_setCaller (p := .sequential n 0) rfl rfl rfl
      (fun d hd => Function.update_of_ne hd ..) ⟨rfl, rfl, rfl⟩ hnot ?_
    simp only [Pool.CallerOk, Pool.setCaller, Function.update_self]
    exact ⟨Nat.zero_le n, fun v => (if_neg (Nat.not_lt_zero v)).symm⟩
  · refine h.of_setCaller (p := .enter n) rfl rfl rfl (fun d hd => Function.update_of_ne hd ..)
      ⟨rfl, rfl, rfl⟩ hnot ?_
    obtain ⟨hn, hindex⟩ := not_or.1 hsequential
    simp only [Pool.CallerOk, Pool.setCaller, Function.update_self]
    exact ⟨by omega, Option.ne_none_iff_exists'.1 hindex, fun _ => trivial⟩

/-- **Every step keeps the invariant.** -/
theorem inv_step (hN : 0 < N) (s : Pool C) (a : Act C) (h : Inv N s)
    (ha : (machine N).Allowed s a) : Inv N ((machine N).step s a) := by
  cases a with
  | acquire c =>
    obtain ⟨last, hidle⟩ := Caller.isIdle_iff.1 ha.1
    exact inv_acquireWorkIndex h hidle
  | release c =>
    obtain ⟨last, hidle⟩ := Caller.isIdle_iff.1 ha
    exact inv_releaseWorkIndex h hidle
  | active => exact ⟨h.inj, h.taken, h.caller, h.quiet⟩
  | deactive => exact ⟨h.inj, h.taken, h.caller, h.quiet⟩
  | enqueue c n =>
    obtain ⟨last, hidle⟩ := Caller.isIdle_iff.1 ha
    exact inv_enqueue h hidle n
  | caller c => exact inv_stepCaller hN h c
  | worker j => exact inv_stepWorker hN h j

theorem run_inv (hN : 0 < N) {as : List (Act C)} (h : Run (machine N) {} as s) : Inv N s :=
  h.invariant (inv_step hN) inv_init

omit [DecidableEq C] in
/-- What a worker has still to run was not run yet. -/
theorem Inv.pending (h : Inv N s) {rest : List ℕ} (hj : s.worker j = .run t c rest) :
    ∃ n p, s.mTaskIndex c = some t ∧ s.caller c = .work n p ∧ s.mTasks t = some (c, n) ∧
      ∀ v ∈ rest, v < n ∧ s.ran c v = 0 := by
  obtain ⟨n, p, hc, hp, hrunning, hworking⟩ := h.runs hj
  obtain ⟨-, hflag, hmod⟩ := hworking.runs j c rest hrunning
  obtain ⟨hpos, hlt, hraised⟩ := hworking.flagged j hflag
  refine ⟨n, p, hc, hp, (h.working hc hp).2.1, fun v hv => ?_⟩
  have hcount := hworking.counts v
  rw [hmod v hv, left_of_flag hpos hlt hraised hflag, hrunning] at hcount
  have hone : 0 < rest.count v := List.count_pos_iff.2 hv
  simp only [Option.map_some, Option.getD_some] at hcount
  split_ifs at hcount <;> omega

/-- **Calls are exact**, in whatever order callers and workers take their steps: when a call has
returned, its task was run once for each number below its size and for no other, and whoever runs a
task does so during the call it belongs to, for numbers it was not run for yet. -/
theorem calls_exact (hN : 0 < N) {as : List (Act C)} (h : Run (machine N) {} as s) :
    (∀ c last, s.caller c = .idle last → ∀ v, s.ran c v = if v < last then 1 else 0) ∧
      ∀ j t c rest, s.worker j = .run t c rest → ∃ n p, s.mTaskIndex c = some t ∧
        s.caller c = .work n p ∧ s.mTasks t = some (c, n) ∧ ∀ v ∈ rest, v < n ∧ s.ran c v = 0 := by
  have hinv := run_inv hN h
  refine ⟨fun c last hidle => ?_, fun j t c rest hj => hinv.pending hj⟩
  have hok := hinv.caller c
  rwa [Pool.CallerOk, hidle] at hok

/-- A call of size two on a pool of two threads, the steps of caller and worker interleaved. -/
def twoSteps : List (Act Unit) :=
  [.acquire (), .active, .enqueue () 2, .caller (), .worker 1, .caller (), .worker 1, .caller (),
    .worker 1, .worker 1, .worker 1, .caller (), .worker 1, .caller (), .worker 1, .caller (),
    .worker 1, .caller (), .caller ()]

theorem twoSteps_exact : Run (machine 2) {} twoSteps (twoSteps.foldl (machine 2).step {}) ∧
    ∀ v, (twoSteps.foldl (machine 2).step {}).ran () v = if v < 2 then 1 else 0 := by
  have hrun : Run (machine 2) {} twoSteps (twoSteps.foldl (machine 2).step {}) := by decide
  exact ⟨hrun, (calls_exact (by decide) hrun).1 () 2 rfl⟩

end Invariant

end Mnn.ThreadPool
