import Mathlib.Tactic
import Mnn.Lib.Run

/-!
# The thread pool

`ThreadPool` (`source/backend/cpu/ThreadPool.cpp`) with the calls of its callers
(`CPURuntime::onConcurrencyBegin`, `onConcurrencyEnd`, `MNN_CONCURRENCY_END`).  A caller that owns
one of the slots stores a task there, raises a flag for each worker, does its own share and reads
the flags until all are down; workers poll the flags of all slots.  Callers and workers take their
steps in any order; a step reads or writes one atomic variable, or runs the task for one number, or
stands for a section under the mutex.

* `items`, `count_items`: the numbers that a thread runs a task for are a share of all numbers;
* `Pool`, `machine`: the states and the steps;
* `Working`: a slot in the middle of a call, and what each step does to it.
-/

namespace Mnn.ThreadPool

open Lib

/-! ### Shares -/

/-- The loop `for (int v = tId; v < workSize; v += mNumberThread)`. -/
def stride (mNumberThread workSize v : ℕ) : List ℕ :=
  if _h : v < workSize ∧ 0 < mNumberThread then
    v :: stride mNumberThread workSize (v + mNumberThread)
  else []
termination_by workSize - v
decreasing_by omega

/-- The numbers that `mTasks[index].first.first(tId)` runs the task for. -/
def items (mNumberThread workSize tId : ℕ) : List ℕ :=
  if mNumberThread < workSize then stride mNumberThread workSize tId else [tId]

theorem mem_stride {N n u v : ℕ} (hN : 0 < N) :
    u ∈ stride N n v ↔ v ≤ u ∧ u < n ∧ u % N = v % N := by
  induction v using stride.induct N n with
  | case1 v h ih =>
    rw [stride, dif_pos h, List.mem_cons, ih, Nat.add_mod_right]
    constructor
    · rintro (rfl | ⟨hle, hlt, hmod⟩)
      · exact ⟨le_rfl, h.1, rfl⟩
      · exact ⟨by omega, hlt, hmod⟩
    · rintro ⟨hle, hlt, hmod⟩
      rcases hle.eq_or_lt with rfl | hv
      · exact .inl rfl
      · obtain ⟨d, hd⟩ := (Nat.modEq_iff_dvd' hle).1 hmod.symm
        have hd1 : 1 ≤ d := by
          rcases Nat.eq_zero_or_pos d with rfl | hpos
          · omega
          · exact hpos
        have := Nat.mul_le_mul_left N hd1
        exact .inr ⟨by omega, hlt, hmod⟩
  | case2 v h =>
    rw [stride, dif_neg h]
    constructor
    · intro hu
      cases hu
    · rintro ⟨hle, hlt, -⟩
      exact absurd ⟨by omega, hN⟩ h

theorem nodup_stride (N n v : ℕ) : (stride N n v).Nodup := by
  induction v using stride.induct N n with
  | case1 v h ih =>
    rw [stride, dif_pos h, List.nodup_cons]
    refine ⟨fun hv => ?_, ih⟩
    have := ((mem_stride h.2).1 hv).1
    omega
  | case2 v h =>
    rw [stride, dif_neg h]
    exact List.nodup_nil

/-- **The shares** of the threads that get one are the numbers below the size, each once. -/
theorem count_items {N n : ℕ} (hN : 0 < N) (u : ℕ) :
    (if u % N < min n N then items N n (u % N) else []).count u = if u < n then 1 else 0 := by
  have hmod := Nat.mod_lt u hN
  unfold items
  split_ifs with hlt hstride hu hu hu
  · exact List.count_eq_one_of_mem (nodup_stride N n _)
      ((mem_stride hN).2 ⟨Nat.mod_le u N, hu, (Nat.mod_mod u N).symm⟩)
  · exact List.count_eq_zero_of_not_mem fun h => hu ((mem_stride hN).1 h).2.1
  · rw [Nat.mod_eq_of_lt (by omega), List.count_singleton_self]
  · refine List.count_eq_zero_of_not_mem fun h => ?_
    rw [List.mem_singleton] at h
    omega
  · have := Nat.mod_le u N
    omega
  · rfl

theorem mod_of_mem_items {N n tId u : ℕ} (hN : 0 < N) (htId : tId < N) (h : u ∈ items N n tId) :
    u % N = tId := by
  unfold items at h
  split_ifs at h
  · rw [((mem_stride hN).1 h).2.2, Nat.mod_eq_of_lt htId]
  · rw [List.mem_singleton.1 h, Nat.mod_eq_of_lt htId]

/-! ### States and steps -/

/-- `MNN_THREAD_POOL_MAX_TASKS`. -/
def maxTasks : ℕ := 2

/-- Where a call is, once its task is stored: raising the flags from one on, running the caller's
own share, or reading the flags from one on. -/
inductive Phase
  | raise (i : ℕ)
  | own (rest : List ℕ)
  | check (i : ℕ)

/-- Where a caller is. -/
inductive Caller
  /-- In no call; the size of the last one. -/
  | idle (last : ℕ)
  /-- In the loop that runs the task without the pool. -/
  | sequential (n i : ℕ)
  /-- About to read `mActiveCount`. -/
  | enter (n : ℕ)
  /-- About to store the task. -/
  | store (n : ℕ)
  | work (n : ℕ) (phase : Phase)

def Caller.isIdle : Caller → Bool
  | .idle _ => true
  | _ => false

theorem Caller.isIdle_iff {p : Caller} : p.isIdle = true ↔ ∃ last, p = .idle last := by
  cases p <;> simp [isIdle]

/-- Where a worker is: about to look whether the pool is active, about to read a flag, or running
what is left of the task of a caller in a slot. -/
inductive Worker (C : Type*)
  | outer
  | scan (t : ℕ)
  | run (t : ℕ) (c : C) (rest : List ℕ)

/-- The pool and its callers.  A task is known by the call it belongs to, as a stored task refers to
the caller's; `ran` counts how often the caller's last task was run for a number. -/
structure Pool (C : Type*) where
  mTaskAvailable : ℕ → Bool := fun _ => true
  mTasks : ℕ → Option (C × ℕ) := fun _ => none
  flag : ℕ → ℕ → Bool := fun _ _ => false
  mActiveCount : ℤ := 0
  worker : ℕ → Worker C := fun _ => .outer
  mTaskIndex : C → Option ℕ := fun _ => none
  caller : C → Caller := fun _ => .idle 0
  ran : C → ℕ → ℕ := fun _ _ => 0

section Steps

variable {C : Type*} [DecidableEq C] (mNumberThread : ℕ)

namespace Pool

variable (s : Pool C)

def setCaller (c : C) (p : Caller) : Pool C := { s with caller := Function.update s.caller c p }

def setWorker (j : ℕ) (w : Worker C) : Pool C := { s with worker := Function.update s.worker j w }

def setFlag (t j : ℕ) (b : Bool) : Pool C :=
  { s with flag := Function.update s.flag t (Function.update (s.flag t) j b) }

/-- `task.first(v)`, the task being that of `c`. -/
def runItem (c : C) (v : ℕ) : Pool C :=
  { s with ran := Function.update s.ran c (Function.update (s.ran c) v (s.ran c v + 1)) }

/-- `acquireWorkIndex`. -/
def acquireWorkIndex (c : C) : Pool C :=
  match (List.range maxTasks).find? s.mTaskAvailable with
  | none => s
  | some t => { s with mTaskAvailable := Function.update s.mTaskAvailable t false
                       mTaskIndex := Function.update s.mTaskIndex c (some t) }

/-- `releaseWorkIndex`. -/
def releaseWorkIndex (c : C) : Pool C :=
  match s.mTaskIndex c with
  | none => s
  | some t => { s with mTaskAvailable := Function.update s.mTaskAvailable t true
                       mTaskIndex := Function.update s.mTaskIndex c none }

/-- The begin of `enqueue`. -/
def enqueue (c : C) (n : ℕ) : Pool C :=
  let s := { s with ran := Function.update s.ran c fun _ => 0 }
  if n ≤ 1 ∨ s.mTaskIndex c = none then s.setCaller c (.sequential n 0)
  else s.setCaller c (.enter n)

/-- The next step of a call in which the task is stored in slot `t`. -/
def stepPhase (c : C) (t n : ℕ) : Phase → Pool C
  | .raise i =>
    if i < min n mNumberThread then (s.setFlag t i true).setCaller c (.work n (.raise (i + 1)))
    else s.setCaller c (.work n (.own (items mNumberThread n 0)))
  | .own [] => s.setCaller c (.work n (.check 1))
  | .own (v :: rest) => (s.runItem c v).setCaller c (.work n (.own rest))
  | .check i =>
    if i < min n mNumberThread then
      if s.flag t i = true then s.setCaller c (.work n (.check 1))
      else s.setCaller c (.work n (.check (i + 1)))
    else s.setCaller c (.idle n)

/-- The next step of a caller in `enqueue` or `enqueueInternal`. -/
def stepCaller (c : C) : Pool C :=
  match s.caller c with
  | .idle _ => s
  | .sequential n i =>
    if i < n then (s.runItem c i).setCaller c (.sequential n (i + 1)) else s.setCaller c (.idle n)
  | .enter n =>
    if s.mActiveCount = 0 then s.setCaller c (.sequential n 0) else s.setCaller c (.store n)
  | .store n =>
    match s.mTaskIndex c with
    | none => s
    | some t =>
      { s.setCaller c (.work n (.raise 1)) with
          mTasks := Function.update s.mTasks t (some (c, n)) }
  | .work n phase =>
    match s.mTaskIndex c with
    | none => s
    | some t => s.stepPhase mNumberThread c t n phase

/-- The next step of a worker. -/
def stepWorker (j : ℕ) : Pool C :=
  match s.worker j with
  | .outer => if 0 < s.mActiveCount then s.setWorker j (.scan 0) else s
  | .scan t =>
    if t < maxTasks then
      if s.flag t j = true then
        match s.mTasks t with
        | none => s
        | some (c, n) => s.setWorker j (.run t c (items mNumberThread n j))
      else s.setWorker j (.scan (t + 1))
    else s.setWorker j .outer
  | .run t c (v :: rest) => (s.runItem c v).setWorker j (.run t c rest)
  | .run t _ [] => (s.setFlag t j false).setWorker j (.scan (t + 1))

end Pool

/-- What callers and workers do. -/
inductive Act (C : Type*)
  | acquire (c : C)
  | release (c : C)
  | active
  | deactive
  | enqueue (c : C) (n : ℕ)
  | caller (c : C)
  | worker (j : ℕ)

/-- A caller acquires and releases its slot and makes its calls one after the other; workers have
the numbers from one on. -/
def machine : Machine (Pool C) (Act C) where
  Allowed s
    | .acquire c => (s.caller c).isIdle = true ∧ s.mTaskIndex c = none
    | .release c => (s.caller c).isIdle = true
    | .active | .deactive => True
    | .enqueue c _ => (s.caller c).isIdle = true
    | .caller _ => True
    | .worker j => 1 ≤ j ∧ j < mNumberThread
  step s
    | .acquire c => s.acquireWorkIndex c
    | .release c => s.releaseWorkIndex c
    | .active => { s with mActiveCount := s.mActiveCount + 1 }
    | .deactive => { s with mActiveCount := s.mActiveCount - 1 }
    | .enqueue c n => s.enqueue c n
    | .caller c => s.stepCaller mNumberThread c
    | .worker j => s.stepWorker mNumberThread j

instance decidableAllowed :
    ∀ (s : Pool C) (a : Act C), Decidable ((machine mNumberThread).Allowed s a)
  | s, .acquire c =>
    inferInstanceAs (Decidable ((s.caller c).isIdle = true ∧ s.mTaskIndex c = none))
  | s, .release c => inferInstanceAs (Decidable ((s.caller c).isIdle = true))
  | _, .active => isTrue trivial
  | _, .deactive => isTrue trivial
  | s, .enqueue c _ => inferInstanceAs (Decidable ((s.caller c).isIdle = true))
  | _, .caller _ => isTrue trivial
  | _, .worker j => inferInstanceAs (Decidable (1 ≤ j ∧ j < mNumberThread))

end Steps

/-! ### One slot -/

/-- What is left of the caller's own share. -/
def Phase.ownShare (N n : ℕ) : Phase → List ℕ
  | .raise _ => items N n 0
  | .own rest => rest
  | .check _ => []

/-- Whether the flag of worker `j` was raised. -/
def Phase.Raised : Phase → ℕ → Prop
  | .raise i, j => j < i
  | _, _ => True

instance (p : Phase) (j : ℕ) : Decidable (p.Raised j) := by
  cases p <;> unfold Phase.Raised <;> infer_instance

section Slot

variable {C : Type*}

/-- What thread `j` has still to run of the task, given the flags of the slot and who runs something
in it. -/
def left (N n : ℕ) (p : Phase) (flag : ℕ → Bool) (running : ℕ → Option (C × List ℕ)) (j : ℕ) :
    List ℕ :=
  if min n N ≤ j then []
  else if j = 0 then p.ownShare N n
  else if ¬ p.Raised j then items N n j
  else if flag j = true then ((running j).map Prod.snd).getD (items N n j)
  else []

/-- A slot while the call of `c` is in `enqueueInternal`: flags are up for workers that were given a
share, who runs something has its flag up and runs what is left of its share, and every number was
run once or is left to the one thread that has it. -/
structure Working (N n : ℕ) (c : C) (p : Phase) (flag : ℕ → Bool)
    (running : ℕ → Option (C × List ℕ)) (ran : ℕ → ℕ) : Prop where
  pos : ∀ i, p = .raise i → 1 ≤ i
  flagged : ∀ j, flag j = true → 1 ≤ j ∧ j < min n N ∧ p.Raised j
  seen : ∀ i, p = .check i → ∀ j < i, flag j = false
  runs : ∀ j d l, running j = some (d, l) → d = c ∧ flag j = true ∧ ∀ v ∈ l, v % N = j
  own : ∀ v ∈ p.ownShare N n, v % N = 0
  counts : ∀ v, ran v + (left N n p flag running (v % N)).count v = if v < n then 1 else 0

variable {N n : ℕ} {c : C} {p : Phase} {flag : ℕ → Bool} {running : ℕ → Option (C × List ℕ)}
  {ran : ℕ → ℕ}

theorem left_of_le {j : ℕ} (h : min n N ≤ j) : left N n p flag running j = [] := by
  simp [left, h]

theorem left_zero (h : 0 < min n N) : left N n p flag running 0 = p.ownShare N n := by
  simp [left, Nat.not_le.2 h]

theorem left_of_not_raised {j : ℕ} (hj : 1 ≤ j) (hraised : ¬ p.Raised j) :
    left N n p flag running j = if j < min n N then items N n j else [] := by
  by_cases h : j < min n N
  · simp [left, Nat.not_le.2 h, Nat.ne_of_gt hj, hraised, h]
  · simp [left, Nat.not_lt.1 h, h]

theorem left_of_flag {j : ℕ} (hj : 1 ≤ j) (hlt : j < min n N) (hraised : p.Raised j)
    (hflag : flag j = true) :
    left N n p flag running j = ((running j).map Prod.snd).getD (items N n j) := by
  simp [left, Nat.not_le.2 hlt, Nat.ne_of_gt hj, hraised, hflag]

theorem left_of_down {j : ℕ} (hj : 1 ≤ j) (hraised : p.Raised j) (hflag : flag j = false) :
    left N n p flag running j = [] := by
  simp [left, Nat.ne_of_gt hj, hraised, hflag]

theorem left_congr {p' : Phase} {flag' : ℕ → Bool} {running' : ℕ → Option (C × List ℕ)} {j : ℕ}
    (hown : j = 0 → p'.ownShare N n = p.ownShare N n) (hraised : p'.Raised j ↔ p.Raised j)
    (hflag : flag' j = flag j) (hrunning : running' j = running j) :
    left N n p' flag' running' j = left N n p flag running j := by
  unfold left
  by_cases hj : j = 0
  · simp [hj, hown hj]
  · simp [hj, hraised, hflag, hrunning]

theorem working_store (hN : 0 < N) (c : C) (hflag : ∀ j, flag j = false)
    (hrunning : ∀ j, running j = none) (hran : ∀ v, ran v = 0) :
    Working N n c (.raise 1) flag running ran where
  pos := by rintro i ⟨⟩; exact le_rfl
  flagged j hj := by rw [hflag] at hj; cases hj
  seen i hi := by cases hi
  runs j d l h := by rw [hrunning] at h; cases h
  own v hv := mod_of_mem_items hN hN hv
  counts v := by
    rw [hran, zero_add, ← count_items hN v]
    congr 1
    rcases Nat.eq_zero_or_pos (v % N) with hzero | hpos
    · rw [hzero]
      by_cases hlt : 0 < min n N
      · rw [left_zero hlt, if_pos hlt]
        rfl
      · rw [left_of_le (Nat.not_lt.1 hlt), if_neg hlt]
    · exact left_of_not_raised hpos (Nat.not_lt.2 hpos)

namespace Working

theorem raise {i : ℕ} (h : Working N n c (.raise i) flag running ran) (hi : i < min n N) :
    Working N n c (.raise (i + 1)) (Function.update flag i true) running ran := by
  have hpos := h.pos i rfl
  have hdown : flag i = false := by
    by_contra hflag
    have := (h.flagged i (by simpa using hflag)).2.2
    exact absurd (show i < i from this) (Nat.lt_irrefl i)
  have hnone : running i = none := by
    refine Option.eq_none_iff_forall_ne_some.2 fun ⟨d, l⟩ hrun => ?_
    rw [(h.runs i d l hrun).2.1] at hdown
    cases hdown
  constructor
  · rintro _ ⟨⟩
    omega
  · intro j hj
    rcases eq_or_ne j i with rfl | hne
    · exact ⟨hpos, hi, Nat.lt_succ_self j⟩
    · rw [Function.update_of_ne hne] at hj
      obtain ⟨h₁, h₂, h₃⟩ := h.flagged j hj
      exact ⟨h₁, h₂, Nat.lt_succ_of_lt h₃⟩
  · rintro _ ⟨⟩
  · intro j d l hrun
    rcases eq_or_ne j i with rfl | hne
    · rw [hnone] at hrun
      cases hrun
    · rw [Function.update_of_ne hne]
      exact h.runs j d l hrun
  · exact h.own
  · intro v
    rw [← h.counts v]
    congr 2
    rcases eq_or_ne (v % N) i with heq | hne
    · rw [heq, left_of_flag hpos hi (show (Phase.raise (i + 1)).Raised i from Nat.lt_succ_self i)
          (Function.update_self ..), hnone,
        left_of_not_raised hpos (show ¬ (Phase.raise i).Raised i from Nat.lt_irrefl i),
        if_pos hi]
      rfl
    · refine left_congr (fun _ => rfl) ?_ (Function.update_of_ne hne ..) rfl
      show v % N < i + 1 ↔ v % N < i
      omega

/-- The phases of a caller that change nothing for the workers. -/
theorem phase {p' : Phase} (h : Working N n c p flag running ran)
    (hpos : ∀ i, p' = .raise i → 1 ≤ i)
    (hraised : ∀ j, 1 ≤ j → j < min n N → (p'.Raised j ↔ p.Raised j))
    (hseen : ∀ i, p' = .check i → ∀ j < i, flag j = false)
    (hown : p'.ownShare N n = p.ownShare N n) : Working N n c p' flag running ran := by
  constructor
  · exact hpos
  · intro j hj
    obtain ⟨h₁, h₂, h₃⟩ := h.flagged j hj
    exact ⟨h₁, h₂, (hraised j h₁ h₂).2 h₃⟩
  · exact hseen
  · exact h.runs
  · rw [hown]
    exact h.own
  · intro v
    rw [← h.counts v]
    congr 2
    by_cases hle : min n N ≤ v % N
    · rw [left_of_le hle, left_of_le hle]
    rcases Nat.eq_zero_or_pos (v % N) with hzero | hpos
    · rw [hzero] at hle ⊢
      rw [left_zero (Nat.not_le.1 hle), left_zero (Nat.not_le.1 hle), hown]
    · exact left_congr (fun _ => hown) (hraised _ hpos (Nat.not_le.1 hle)) rfl rfl

/-- The caller runs the task for the first number of its share. -/
theorem own_item {v : ℕ} {rest : List ℕ} (h : Working N n c (.own (v :: rest)) flag running ran)
    (hn : 0 < min n N) :
    Working N n c (.own rest) flag running (Function.update ran v (ran v + 1)) := by
  have hv : v % N = 0 := h.own v List.mem_cons_self
  constructor
  · rintro _ ⟨⟩
  · exact h.flagged
  · rintro _ ⟨⟩
  · exact h.runs
  · exact fun u hu => h.own u (List.mem_cons_of_mem v hu)
  · intro u
    have hcount := h.counts u
    rcases Nat.eq_zero_or_pos (u % N) with hzero | hpos
    · rw [hzero, left_zero hn] at hcount ⊢
      rcases eq_or_ne u v with rfl | hne
      · rw [Function.update_self, ← hcount]
        simp only [Phase.ownShare, List.count_cons_self]
        omega
      · rw [Function.update_of_ne hne, ← hcount]
        simp only [Phase.ownShare, List.count_cons_of_ne hne.symm]
    · rw [Function.update_of_ne (by rintro rfl; omega), ← hcount]
      congr 2
      exact left_congr (fun hj => absurd hj (Nat.ne_of_gt hpos)) Iff.rfl rfl rfl

/-- A worker that finds its flag up begins with its share. -/
theorem start {j : ℕ} (hN : 0 < N) (h : Working N n c p flag running ran) (hflag : flag j = true)
    (hnone : running j = none) :
    Working N n c p flag (Function.update running j (some (c, items N n j))) ran := by
  obtain ⟨hpos, hlt, hraised⟩ := h.flagged j hflag
  constructor
  · exact h.pos
  · exact h.flagged
  · exact h.seen
  · intro k d l hrun
    rcases eq_or_ne k j with rfl | hne
    · rw [Function.update_self] at hrun
      obtain ⟨rfl, rfl⟩ := Prod.mk.inj (Option.some.inj hrun)
      exact ⟨rfl, hflag, fun v hv => mod_of_mem_items hN (by omega) hv⟩
    · rw [Function.update_of_ne hne] at hrun
      exact h.runs k d l hrun
  · exact h.own
  · intro v
    rw [← h.counts v]
    congr 2
    rcases eq_or_ne (v % N) j with heq | hne
    · rw [heq, left_of_flag hpos hlt hraised hflag, left_of_flag hpos hlt hraised hflag, hnone,
        Function.update_self]
      rfl
    · exact left_congr (fun _ => rfl) Iff.rfl rfl (Function.update_of_ne hne ..)

/-- A worker runs the task for the first number of what is left of its share. -/
theorem run_item {j v : ℕ} {d : C} {rest : List ℕ} (h : Working N n c p flag running ran)
    (hrun : running j = some (d, v :: rest)) :
    Working N n c p flag (Function.update running j (some (d, rest)))
      (Function.update ran v (ran v + 1)) := by
  obtain ⟨rfl, hflag, hmod⟩ := h.runs j d _ hrun
  obtain ⟨hpos, hlt, hraised⟩ := h.flagged j hflag
  constructor
  · exact h.pos
  · exact h.flagged
  · exact h.seen
  · intro k e l hk
    rcases eq_or_ne k j with rfl | hne
    · rw [Function.update_self] at hk
      obtain ⟨rfl, rfl⟩ := Prod.mk.inj (Option.some.inj hk)
      exact ⟨rfl, hflag, fun u hu => hmod u (List.mem_cons_of_mem v hu)⟩
    · rw [Function.update_of_ne hne] at hk
      exact h.runs k e l hk
  · exact h.own
  · intro u
    have hcount := h.counts u
    have hv : v % N = j := hmod v List.mem_cons_self
    rcases eq_or_ne (u % N) j with heq | hne
    · rw [heq, left_of_flag hpos hlt hraised hflag, hrun] at hcount
      rw [heq, left_of_flag hpos hlt hraised hflag, Function.update_self, ← hcount]
      rcases eq_or_ne u v with rfl | hne
      · rw [Function.update_self]
        simp only [Option.map_some, Option.getD_some, List.count_cons_self]
        omega
      · rw [Function.update_of_ne hne]
        simp only [Option.map_some, Option.getD_some, List.count_cons_of_ne hne.symm]
    · rw [Function.update_of_ne (by rintro rfl; exact hne hv),
        left_congr (fun _ => rfl) Iff.rfl rfl (Function.update_of_ne hne ..)]
      exact hcount

/-- A worker that is through with its share lowers its flag. -/
theorem finish {j : ℕ} {d : C} (h : Working N n c p flag running ran)
    (hrun : running j = some (d, [])) :
    Working N n c p (Function.update flag j false) (Function.update running j none) ran := by
  obtain ⟨rfl, hflag, -⟩ := h.runs j d _ hrun
  obtain ⟨hpos, hlt, hraised⟩ := h.flagged j hflag
  have hdown : ∀ {k}, Function.update flag j false k = true → k ≠ j ∧ flag k = true := by
    intro k hk
    rcases eq_or_ne k j with rfl | hne
    · rw [Function.update_self] at hk
      cases hk
    · exact ⟨hne, by rwa [Function.update_of_ne hne] at hk⟩
  constructor
  · exact h.pos
  · exact fun k hk => h.flagged k (hdown hk).2
  · intro i hi k hk
    rw [Function.update_apply, h.seen i hi k hk, ite_self]
  · intro k e l hk
    rcases eq_or_ne k j with rfl | hne
    · rw [Function.update_self] at hk
      cases hk
    · rw [Function.update_of_ne hne] at hk ⊢
      exact h.runs k e l hk
  · exact h.own
  · intro v
    rw [← h.counts v]
    congr 1
    rcases eq_or_ne (v % N) j with heq | hne
    · rw [heq, left_of_flag hpos hlt hraised hflag, hrun,
        left_of_down hpos hraised (Function.update_self ..)]
      rfl
    · rw [left_congr (fun _ => rfl) Iff.rfl (Function.update_of_ne hne ..)
        (Function.update_of_ne hne ..)]

/-- **When the caller has seen all flags down**, all is run and the slot is at rest. -/
theorem returned {i : ℕ} (h : Working N n c (.check i) flag running ran) (hi : min n N ≤ i) :
    (∀ j, flag j = false) ∧ (∀ j, running j = none) ∧ ∀ v, ran v = if v < n then 1 else 0 := by
  have hdown : ∀ j, flag j = false := by
    intro j
    by_contra hflag
    have hflag : flag j = true := by simpa using hflag
    have hlt := (h.flagged j hflag).2.1
    rw [h.seen i rfl j (by omega)] at hflag
    cases hflag
  refine ⟨hdown, fun j => Option.eq_none_iff_forall_ne_some.2 fun ⟨d, l⟩ hrun => ?_, fun v => ?_⟩
  · have := (h.runs j d l hrun).2.1
    rw [hdown] at this
    cases this
  · rw [← h.counts v, Nat.left_eq_add, List.count_eq_zero]
    by_cases hle : min n N ≤ v % N
    · rw [left_of_le hle]
      exact List.not_mem_nil
    rcases Nat.eq_zero_or_pos (v % N) with hzero | hpos
    · rw [hzero] at hle ⊢
      rw [left_zero (Nat.not_le.1 hle)]
      exact List.not_mem_nil
    · rw [left_of_down hpos (show (Phase.check i).Raised _ from trivial) (hdown _)]
      exact List.not_mem_nil

end Working

end Slot

end Mnn.ThreadPool
