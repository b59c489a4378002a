import Mnn.Cpu.ThreadPoolSafety

/-!
# Calls of the thread pool return

* `Leads`: what the steps of a caller and of the workers lead to;
* `drives_down`: a worker comes to lowering its flags;
* `call_returns`: **as long as the pool is active, a call can return, whatever has happened**.
-/

namespace Mnn.ThreadPool

open Lib

section Progress

variable {C : Type*} [DecidableEq C] {N : ℕ} {s s' : Pool C} {c : C} {t j : ℕ}

/-- The steps of caller `c` and of the workers. -/
def Mine (c : C) : Act C → Prop
  | .caller d => d = c
  | .worker _ => True
  | _ => False

/-- `s'` is reached from `s` by such steps. -/
def Leads (N : ℕ) (c : C) (s s' : Pool C) : Prop :=
  ∃ as : List (Act C), (∀ a ∈ as, Mine c a) ∧ Run (machine N) s as s'

theorem Leads.refl (s : Pool C) : Leads N c s s := ⟨[], by simp, .nil s⟩

theorem Leads.trans {u : Pool C} (h : Leads N c s s') (h' : Leads N c s' u) : Leads N c s u := by
  obtain ⟨as, has, hrun⟩ := h
  obtain ⟨bs, hbs, hrun'⟩ := h'
  exact ⟨as ++ bs, List.forall_mem_append.2 ⟨has, hbs⟩, Run.append_iff.2 ⟨s', hrun, hrun'⟩⟩

theorem Leads.caller (s : Pool C) : Leads N c s (s.stepCaller N c) :=
  ⟨[.caller c], by simp [Mine], .cons trivial (.nil _)⟩

theorem Leads.worker (hj : 1 ≤ j ∧ j < N) (s : Pool C) : Leads N c s (s.stepWorker N j) :=
  ⟨[.worker j], by simp [Mine], .cons hj (.nil _)⟩

theorem Leads.inv (hN : 0 < N) (h : Leads N c s s') (hs : Inv N s) : Inv N s' := by
  obtain ⟨as, -, hrun⟩ := h
  exact hrun.invariant (inv_step hN) hs

omit [DecidableEq C] in
/-- What the steps of workers leave as it is; flags they lower only. -/
structure Kept (s s' : Pool C) : Prop where
  index : s'.mTaskIndex = s.mTaskIndex
  caller : s'.caller = s.caller
  active : s'.mActiveCount = s.mActiveCount
  flag : ∀ t k, s'.flag t k = true → s.flag t k = true

omit [DecidableEq C] in
theorem Kept.refl (s : Pool C) : Kept s s := ⟨rfl, rfl, rfl, fun _ _ h => h⟩

omit [DecidableEq C] in
theorem Kept.trans {u : Pool C} (h : Kept s s') (h' : Kept s' u) : Kept s u :=
  ⟨h'.index.trans h.index, h'.caller.trans h.caller, h'.active.trans h.active,
    fun t k hk => h.flag t k (h'.flag t k hk)⟩

omit [DecidableEq C] in
theorem kept_setWorker (s : Pool C) (j : ℕ) (w : Worker C) : Kept s (s.setWorker j w) :=
  ⟨rfl, rfl, rfl, fun _ _ h => h⟩

theorem kept_stepWorker (s : Pool C) (j : ℕ) : Kept s (s.stepWorker N j) := by
  unfold Pool.stepWorker
  split
  · split_ifs
    · exact kept_setWorker ..
    · exact .refl s
  · split_ifs
    · split
      · exact .refl s
      · exact kept_setWorker ..
    · exact kept_setWorker ..
    · exact kept_setWorker ..
  · exact ⟨rfl, rfl, rfl, fun _ _ h => h⟩
  · refine ⟨rfl, rfl, rfl, fun t k hk => ?_⟩
    simp only [Pool.setWorker, Pool.setFlag, Function.update_apply] at hk
    grind

/-- A worker leads from one state to another. -/
structure Drives (N : ℕ) (c : C) (s s' : Pool C) : Prop where
  leads : Leads N c s s'
  kept : Kept s s'

theorem Drives.refl (s : Pool C) : Drives N c s s := ⟨.refl s, .refl s⟩

theorem Drives.trans {u : Pool C} (h : Drives N c s s') (h' : Drives N c s' u) : Drives N c s u :=
  ⟨h.leads.trans h'.leads, h.kept.trans h'.kept⟩

theorem Drives.step (hj : 1 ≤ j ∧ j < N) (s : Pool C) : Drives N c s (s.stepWorker N j) :=
  ⟨.worker hj s, kept_stepWorker s j⟩

/-- A worker that runs something comes to the end of it. -/
theorem drives_finish (hj : 1 ≤ j ∧ j < N) {d : C} {rest : List ℕ}
    (hrun : s.worker j = .run t d rest) :
    ∃ s', Drives N c s s' ∧ s'.worker j = .scan (t + 1) ∧ s'.flag t j = false := by
  induction rest generalizing s with
  | nil =>
    refine ⟨_, .step hj s, ?_⟩
    simp [Pool.stepWorker, hrun, Pool.setWorker, Pool.setFlag]
  | cons v rest ih =>
    have hstep : (s.stepWorker N j).worker j = .run t d rest := by
      simp [Pool.stepWorker, hrun, Pool.setWorker]
    obtain ⟨s', hdrives, hworker, hflag⟩ := ih hstep
    exact ⟨s', (Drives.step hj s).trans hdrives, hworker, hflag⟩

/-- A worker that looks at the flags comes to the end of the slots, and then its flags are down. -/
theorem drives_scan (hN : 0 < N) (hj : 1 ≤ j ∧ j < N) (hs : Inv N s)
    (hscan : s.worker j = .scan t) : ∃ s', Drives N c s s' ∧ s'.worker j = .outer ∧
      ∀ t', t ≤ t' → t' < maxTasks → s'.flag t' j = false := by
  induction hk : maxTasks - t generalizing s t with
  | zero =>
    refine ⟨_, .step hj s, ?_, fun t' hle hlt => by omega⟩
    have hnot : ¬ t < maxTasks := by omega
    simp [Pool.stepWorker, hscan, hnot, Pool.setWorker]
  | succ k ih =>
    have ht : t < maxTasks := by omega
    -- either way the worker comes to the next slot with this flag down
    obtain ⟨u, hdrives, hworker, hflag⟩ :
        ∃ u, Drives N c s u ∧ u.worker j = .scan (t + 1) ∧ u.flag t j = false := by
      cases hflag : s.flag t j with
      | false =>
        refine ⟨_, .step hj s, ?_⟩
        simp [Pool.stepWorker, hscan, ht, hflag, Pool.setWorker]
      | true =>
        obtain ⟨d, n, p, hd, hp⟩ := hs.owner fun hquiet => by
          rw [hquiet.1 j] at hflag
          cases hflag
        have hrun : (s.stepWorker N j).worker j = .run t d (items N n j) := by
          simp [Pool.stepWorker, hscan, ht, hflag, (hs.working hd hp).2.1, Pool.setWorker]
        obtain ⟨u, hdrives, hworker, hdown⟩ := drives_finish (c := c) hj hrun
        exact ⟨u, (Drives.step hj s).trans hdrives, hworker, hdown⟩
    obtain ⟨s', hdrives', hworker', hflags⟩ := ih (hdrives.leads.inv hN hs) hworker (by omega)
    refine ⟨s', hdrives.trans hdrives', hworker', fun t' hle hlt => ?_⟩
    rcases hle.eq_or_lt with rfl | hlt'
    · by_contra hup
      rw [hdrives'.kept.flag t j (by simpa using hup)] at hflag
      cases hflag
    · exact hflags t' hlt' hlt

/-- A worker lowers all its flags while the pool is active. -/
theorem drives_down (hN : 0 < N) (hj : 1 ≤ j ∧ j < N) (hs : Inv N s)
    (hactive : 0 < s.mActiveCount) :
    ∃ s', Drives N c s s' ∧ ∀ t < maxTasks, s'.flag t j = false := by
  -- first to the top of its loop
  obtain ⟨u, hdrives, houter⟩ : ∃ u, Drives N c s u ∧ u.worker j = .outer := by
    cases hworker : s.worker j with
    | outer => exact ⟨s, .refl s, hworker⟩
    | scan t =>
      obtain ⟨u, hdrives, houter, -⟩ := drives_scan (c := c) hN hj hs hworker
      exact ⟨u, hdrives, houter⟩
    | run t d rest =>
      obtain ⟨v, hdrives, hscan, -⟩ := drives_finish (c := c) hj hworker
      obtain ⟨u, hdrives', houter, -⟩ :=
        drives_scan (c := c) hN hj (hdrives.leads.inv hN hs) hscan
      exact ⟨u, hdrives.trans hdrives', houter⟩
  have hscan : (u.stepWorker N j).worker j = .scan 0 := by
    have hu : 0 < u.mActiveCount := hdrives.kept.active ▸ hactive
    simp [Pool.stepWorker, houter, hu, Pool.setWorker]
  have hdrives' := hdrives.trans (.step hj u)
  obtain ⟨s', hlast, -, hflags⟩ := drives_scan (c := c) hN hj (hdrives'.leads.inv hN hs) hscan
  exact ⟨s', hdrives'.trans hlast, fun t ht => hflags t (Nat.zero_le t) ht⟩

/-- All workers do. -/
theorem drives_all (hN : 0 < N) (hs : Inv N s) (hactive : 0 < s.mActiveCount) {k : ℕ} (hk : k ≤ N) :
    ∃ s', Drives N c s s' ∧ ∀ j, 1 ≤ j → j < k → ∀ t < maxTasks, s'.flag t j = false := by
  induction k with
  | zero => exact ⟨s, .refl s, fun j hj hlt => by omega⟩
  | succ k ih =>
    obtain ⟨u, hdrives, hdown⟩ := ih (by omega)
    rcases Nat.eq_zero_or_pos k with rfl | hpos
    · exact ⟨u, hdrives, fun j hj hlt => by omega⟩
    obtain ⟨s', hdrives', hflags⟩ := drives_down (c := c) (j := k) hN ⟨hpos, hk⟩
      (hdrives.leads.inv hN hs) (hdrives.kept.active ▸ hactive)
    refine ⟨s', hdrives.trans hdrives', fun j hj hlt t ht => ?_⟩
    rcases Nat.lt_succ_iff_lt_or_eq.1 hlt with hlt | rfl
    · by_contra hup
      have hold := hdown j hj hlt t ht
      rw [hdrives'.kept.flag t j (by simpa using hup)] at hold
      cases hold
    · exact hflags t ht

/-- Such steps lead to a state with `P`. -/
def Comes (N : ℕ) (c : C) (s : Pool C) (P : Pool C → Prop) : Prop := ∃ s', Leads N c s s' ∧ P s'

theorem Comes.here {P : Pool C → Prop} (h : P s) : Comes N c s P := ⟨s, .refl s, h⟩

theorem Comes.of_leads {P : Pool C → Prop} (h : Leads N c s s') (h' : Comes N c s' P) :
    Comes N c s P := by
  obtain ⟨u, hu, hP⟩ := h'
  exact ⟨u, h.trans hu, hP⟩

/-- A step of the caller. -/
theorem Comes.step {u : Pool C} {P : Pool C → Prop} (hstep : s.stepCaller N c = u)
    (h : Comes N c u P) : Comes N c s P := .of_leads (hstep ▸ .caller s) h

/-- The caller comes to reading the flags. -/
theorem comes_check {n : ℕ} {p : Phase} (hindex : s.mTaskIndex c = some t)
    (hp : s.caller c = .work n p) : Comes N c s fun s' => (∃ i, s'.caller c = .work n (.check i)) ∧
      s'.mTaskIndex = s.mTaskIndex ∧ s'.mActiveCount = s.mActiveCount := by
  have hown : ∀ (rest : List ℕ) (s : Pool C), s.mTaskIndex c = some t →
      s.caller c = .work n (.own rest) → Comes N c s fun s' =>
        (∃ i, s'.caller c = .work n (.check i)) ∧ s'.mTaskIndex = s.mTaskIndex ∧
          s'.mActiveCount = s.mActiveCount := by
    intro rest
    induction rest with
    | nil =>
      intro s hindex hp
      refine .step (u := s.setCaller c (.work n (.check 1))) ?_
        (.here ⟨⟨1, Function.update_self ..⟩, rfl, rfl⟩)
      simp only [Pool.stepCaller, hp, hindex, Pool.stepPhase]
    | cons v rest ih =>
      intro s hindex hp
      refine .step (u := (s.runItem c v).setCaller c (.work n (.own rest))) ?_
        (ih _ hindex (Function.update_self ..))
      simp only [Pool.stepCaller, hp, hindex, Pool.stepPhase]
  cases p with
  | check i => exact .here ⟨⟨i, hp⟩, rfl, rfl⟩
  | own rest => exact hown rest s hindex hp
  | raise i =>
    induction hk : min n N - i generalizing s i with
    | zero =>
      have hnot : ¬ i < min n N := by omega
      refine .step (u := s.setCaller c (.work n (.own (items N n 0)))) ?_
        (hown _ _ hindex (Function.update_self ..))
      simp only [Pool.stepCaller, hp, hindex, Pool.stepPhase, if_neg hnot]
    | succ k ih =>
      have hlt : i < min n N := by omega
      refine .step (u := (s.setFlag t i true).setCaller c (.work n (.raise (i + 1)))) ?_
        (ih hindex _ (Function.update_self ..) (by omega))
      simp only [Pool.stepCaller, hp, hindex, Pool.stepPhase, if_pos hlt]

/-- A caller that finds all flags down returns. -/
theorem comes_return {n i : ℕ} (hindex : s.mTaskIndex c = some t)
    (hp : s.caller c = .work n (.check i)) (hdown : ∀ j < min n N, s.flag t j = false) :
    Comes N c s (·.caller c = .idle n) := by
  induction hk : min n N - i generalizing s i with
  | zero =>
    have hnot : ¬ i < min n N := by omega
    refine .step (u := s.setCaller c (.idle n)) ?_ (.here (Function.update_self ..))
    simp only [Pool.stepCaller, hp, hindex, Pool.stepPhase, if_neg hnot]
  | succ k ih =>
    have hlt : i < min n N := by omega
    refine .step (u := s.setCaller c (.work n (.check (i + 1)))) ?_
      (ih hindex (Function.update_self ..) hdown (by omega))
    simp only [Pool.stepCaller, hp, hindex, Pool.stepPhase, if_pos hlt, hdown i hlt,
      Bool.false_eq_true, if_false]

theorem comes_sequential {n i : ℕ} (hp : s.caller c = .sequential n i) :
    Comes N c s (·.caller c = .idle n) := by
  induction hk : n - i generalizing s i with
  | zero =>
    have hnot : ¬ i < n := by omega
    refine .step (u := s.setCaller c (.idle n)) ?_ (.here (Function.update_self ..))
    simp only [Pool.stepCaller, hp, if_neg hnot]
  | succ k ih =>
    have hlt : i < n := by omega
    refine .step (u := (s.runItem c i).setCaller c (.sequential n (i + 1))) ?_
      (ih (Function.update_self ..) (by omega))
    simp only [Pool.stepCaller, hp, if_pos hlt]

/-- A call whose task is stored can return while the pool is active. -/
theorem comes_work (hN : 0 < N) (hs : Inv N s) (hactive : 0 < s.mActiveCount) {n : ℕ} {p : Phase}
    (hp : s.caller c = .work n p) : Comes N c s (·.caller c = .idle n) := by
  have hok := hs.caller c
  rw [Pool.CallerOk, hp] at hok
  obtain ⟨-, t, ht, -⟩ := hok
  obtain ⟨u, hleads, ⟨i, hcheck⟩, hindex, hactive'⟩ := comes_check (N := N) ht hp
  have hu := hleads.inv hN hs
  obtain ⟨v, hdrives, hflags⟩ := drives_all (c := c) hN hu (hactive' ▸ hactive) le_rfl
  have hv := hdrives.leads.inv hN hu
  have hvindex : v.mTaskIndex c = some t := by rw [hdrives.kept.index, hindex, ht]
  have hvcaller : v.caller c = .work n (.check i) := by rw [hdrives.kept.caller, hcheck]
  refine .of_leads (hleads.trans hdrives.leads) (comes_return hvindex hvcaller fun j hj => ?_)
  rcases Nat.eq_zero_or_pos j with rfl | hpos
  · by_contra hup
    exact absurd ((hv.working hvindex hvcaller).2.2.flagged 0 (by simpa using hup)).1 (by omega)
  · exact hflags j hpos (by omega) t (hv.taken c t hvindex).2

theorem comes_store (hN : 0 < N) (hs : Inv N s) (hactive : 0 < s.mActiveCount) {n : ℕ}
    (hp : s.caller c = .store n) : Comes N c s (·.caller c = .idle n) := by
  have hok := hs.caller c
  rw [Pool.CallerOk, hp] at hok
  obtain ⟨-, ⟨t, ht⟩, -⟩ := hok
  have hstep : s.stepCaller N c = { s.setCaller c (.work n (.raise 1)) with
      mTasks := Function.update s.mTasks t (some (c, n)) } := by
    simp only [Pool.stepCaller, hp, ht]
  have hs' := inv_stepCaller hN hs c
  rw [hstep] at hs'
  exact .step hstep (comes_work hN hs' hactive (Function.update_self ..))

/-- The size of a caller's last call. -/
def Caller.size : Caller → ℕ
  | .idle n | .sequential n _ | .enter n | .store n | .work n _ => n

/-- **No call is stuck**: as long as the pool is active, from wherever callers and workers have come
to, steps of the caller and of the workers lead to the return of the call. -/
theorem call_returns (hN : 0 < N) {as : List (Act C)} (h : Run (machine N) {} as s)
    (hactive : 0 < s.mActiveCount) (c : C) : ∃ (bs : List (Act C)) (s' : Pool C),
      (∀ a ∈ bs, Mine c a) ∧ Run (machine N) s bs s' ∧ s'.caller c = .idle (s.caller c).size := by
  have hinv := run_inv hN h
  suffices hcomes : Comes N c s (·.caller c = .idle (s.caller c).size) by
    obtain ⟨s', ⟨bs, hbs, hrun⟩, hidle⟩ := hcomes
    exact ⟨bs, s', hbs, hrun, hidle⟩
  cases hp : s.caller c with
  | idle last => exact .here hp
  | sequential n i => exact comes_sequential hp
  | enter n =>
    have hstep : s.stepCaller N c = s.setCaller c (.store n) := by
      simp only [Pool.stepCaller, hp, if_neg hactive.ne']
    have hinv' := inv_stepCaller hN hinv c
    rw [hstep] at hinv'
    exact .step hstep (comes_store hN hinv' hactive (Function.update_self ..))
  | store n => exact comes_store hN hinv hactive hp
  | work n p => exact comes_work hN hinv hactive hp

/-- A call of which the caller has raised the flag while the worker has not seen it yet. -/
theorem twoSteps_returns : ∃ (bs : List (Act Unit)) (s' : Pool Unit), (∀ a ∈ bs, Mine () a) ∧
    Run (machine 2) ((twoSteps.take 8).foldl (machine 2).step {}) bs s' ∧
      s'.caller () = .idle 2 :=
  call_returns (by decide) (show Run (machine 2) {} (twoSteps.take 8) _ by decide) (by decide) ()

end Progress

end Mnn.ThreadPool
