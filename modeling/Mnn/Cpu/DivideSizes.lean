import Mathlib.Algebra.Order.BigOperators.Group.List
import Mathlib.Algebra.Order.Floor.Semiring
import Mathlib.Data.Rat.Floor
import Mnn.Lib.Boundaries

/-!
# Dividing work over the threads

`CPUBackend::CPUBackend` and `CPUBackend::computeDivideSizes`
(`source/backend/cpu/CPUBackend.cpp`).  Where the cores of the processor are of different speed, a
backend keeps a table of groups of threads with their share of the work; a range of work is cut at
the ends that the table, or an equal division, gives.  Rates are rational numbers here.

* `CPUBackend.create`, `computeDivideSizes`;
* `IsTable`, `create_isTable`: the shares of a table add up to one and its threads to all threads;
* `computeDivideSizes_partition`: **every thread gets its piece, and the pieces are the range**.
-/

namespace Mnn.Threads

open Lib

/-! ### The table of groups -/

/-- `MNNCPUInfo`: the numbers of cores of the groups, by rising frequency.  Groups without a core
are not entered. -/
structure MNNCPUInfo where
  groups : List ℕ
  i8mm : Bool
  dot : Bool
  groups_pos : ∀ n ∈ groups, 0 < n

/-- `BackendConfig::PowerMode`. -/
inductive PowerMode
  | Power_Normal
  | Power_High
  | Power_Low
  deriving DecidableEq

/-- What a backend takes from its runtime, which has at least one thread. -/
structure CPURuntime where
  mThreadNumber : ℕ
  mPower : PowerMode
  cpuDecreaseRate : ℤ
  useArmSme2Cores : Bool
  mThreadNumber_pos : 0 < mThreadNumber

/-- The members of `CPUBackend` that the division uses. -/
structure CPUBackend where
  mThreadNumber : ℕ
  mGroupWithComputeRate : List (ℚ × ℕ) := []
  mComputeI : ℚ := 0

/-- The loop that adds groups until every thread has one.  Its index is never lowered: it adds the
group before the last again and again. -/
def addGroups (mThreadNumber : ℕ) (decreaseRate : ℚ) {group : ℕ} (hgroup : 0 < group)
    (validCpuSize : ℕ) (currentRate totalComputeRate : ℚ) (table : List (ℚ × ℕ)) :
    ℚ × List (ℚ × ℕ) :=
  if validCpuSize < mThreadNumber then
    let selectSize := min (mThreadNumber - validCpuSize) group
    let currentRate := currentRate * decreaseRate
    addGroups mThreadNumber decreaseRate hgroup (validCpuSize + group) currentRate
      (totalComputeRate + currentRate * selectSize)
      (table ++ [(currentRate * selectSize, selectSize)])
  else (totalComputeRate, table)
termination_by mThreadNumber - validCpuSize

/-- The groups of the constructor, with their rates divided by the sum of all rates. -/
def groupTable (mThreadNumber : ℕ) (rate : ℤ) (last : ℕ) {group : ℕ} (hgroup : 0 < group) :
    List (ℚ × ℕ) :=
  let decreaseRate := (rate : ℚ) / 100
  let validCpuSize := min last mThreadNumber
  let totalComputeRate := (1 : ℚ) * validCpuSize
  let r := addGroups mThreadNumber decreaseRate hgroup validCpuSize 1 totalComputeRate
    [(totalComputeRate, validCpuSize)]
  r.2.map fun g => (g.1 / r.1, g.2)

/-- `CPUBackend::CPUBackend`.  The last argument is whether the functions for the cores with `sme2`
are there. -/
def CPUBackend.create (mRuntime : CPURuntime) (cpuInfo : MNNCPUInfo) (supportSME2 : Bool) :
    CPUBackend :=
  let mThreadNumber :=
    if mRuntime.useArmSme2Cores && supportSME2 then min 2 mRuntime.mThreadNumber
    else mRuntime.mThreadNumber
  let rate := mRuntime.cpuDecreaseRate
  if mThreadNumber ≤ 1 ∨ mRuntime.mPower = .Power_Low ∨ rate ≥ 100 ∨ rate ≤ 0 then
    { mThreadNumber }
  else if h : cpuInfo.groups.length < 2 then { mThreadNumber }
  else
    { mThreadNumber
      mComputeI := if cpuInfo.i8mm then 28 else if cpuInfo.dot then 14 else 7
      mGroupWithComputeRate :=
        groupTable mThreadNumber rate cpuInfo.groups[cpuInfo.groups.length - 1]
          (cpuInfo.groups_pos cpuInfo.groups[cpuInfo.groups.length - 2] (List.getElem_mem _)) }

/-! ### The division -/

/-- `UP_DIV`. -/
def upDiv (x y : ℕ) : ℕ := (x + y - 1) / y

/-- The loop of the equal division: what is written, each with its place, and `cur`. -/
def avgDivide (size length : ℕ) (threads : ℕ) : List (ℕ × ℕ) × ℕ :=
  (List.range threads).foldl (fun (dst, cur) i => (dst ++ [(i, cur)], min (cur + length) size))
    ([], length)

/-- The loop over the threads of one group. -/
def divideGroup (size length curPos threads : ℕ) (dst : List (ℕ × ℕ)) (cur : ℕ) :
    List (ℕ × ℕ) × ℕ :=
  (List.range threads).foldl (fun (dst, cur) i =>
    let cur := min (cur + length) size
    (dst ++ [(curPos + i, cur)], cur)) (dst, cur)

/-- The loop over the groups of the table. -/
def divideGroups (size : ℕ) : List (ℚ × ℕ) → ℕ → List (ℕ × ℕ) → ℕ → List (ℕ × ℕ)
  | [], _, dst, _ => dst
  | group :: table, curPos, dst, cur =>
    let currentGroupTotal := ⌈(size : ℚ) * group.1⌉₊
    let length := upDiv currentGroupTotal group.2
    let (dst, cur) := divideGroup size length curPos group.2 dst cur
    divideGroups size table (curPos + group.2) dst cur

/-- `CPUBackend::computeDivideSizes`: what is written into `dst`, each with its place. -/
def CPUBackend.computeDivideSizes (b : CPUBackend) (size : ℕ) (avgDiv : ℚ) : List (ℕ × ℕ) :=
  if b.mGroupWithComputeRate.length ≤ 1 ∨ (avgDiv > 0 ∧ avgDiv < b.mComputeI) then
    (avgDivide size (upDiv size b.mThreadNumber) b.mThreadNumber).1
  else divideGroups size b.mGroupWithComputeRate 0 [] 0

/-! ### Tables -/

/-- The threads of a table with their shares. -/
structure IsTable (threads : ℕ) (total : ℚ) (table : List (ℚ × ℕ)) : Prop where
  rates : (table.map Prod.fst).sum = total
  threads_eq : (table.map Prod.snd).sum = threads
  rate_nonneg : ∀ g ∈ table, 0 ≤ g.1
  threads_pos : ∀ g ∈ table, 0 < g.2

/-- One more group. -/
theorem IsTable.add {threads : ℕ} {total : ℚ} {table : List (ℚ × ℕ)}
    (h : IsTable threads total table) {rate : ℚ} {n : ℕ} (hrate : 0 ≤ rate) (hn : 0 < n) :
    IsTable (threads + n) (total + rate) (table ++ [(rate, n)]) := by
  constructor
  · rw [List.map_append, List.sum_append, h.rates, List.map_singleton, List.sum_singleton]
  · rw [List.map_append, List.sum_append, h.threads_eq, List.map_singleton, List.sum_singleton]
  · intro g hg
    rcases List.mem_append.1 hg with hg | hg
    · exact h.rate_nonneg g hg
    · rwa [List.mem_singleton.1 hg]
  · intro g hg
    rcases List.mem_append.1 hg with hg | hg
    · exact h.threads_pos g hg
    · rwa [List.mem_singleton.1 hg]

/-- The rates divided by their sum. -/
theorem IsTable.div {threads : ℕ} {total : ℚ} {table : List (ℚ × ℕ)}
    (h : IsTable threads total table) (htotal : 0 < total) :
    IsTable threads 1 (table.map fun g => (g.1 / total, g.2)) := by
  constructor
  · have hsum : (table.map fun g => g.1 * total⁻¹).sum = (table.map Prod.fst).sum * total⁻¹ :=
      List.sum_map_mul_right ..
    rw [h.rates, mul_inv_cancel₀ htotal.ne'] at hsum
    simpa only [List.map_map, Function.comp_def, div_eq_mul_inv] using hsum
  · rw [List.map_map]
    exact h.threads_eq
  · intro g hg
    obtain ⟨g', hg', rfl⟩ := List.mem_map.1 hg
    exact div_nonneg (h.rate_nonneg g' hg') htotal.le
  · intro g hg
    obtain ⟨g', hg', rfl⟩ := List.mem_map.1 hg
    exact h.threads_pos g' hg'

/-- The groups are added until every thread has one. -/
theorem addGroups_spec {mThreadNumber : ℕ} {decreaseRate : ℚ} (hrate : 0 ≤ decreaseRate) {group : ℕ}
    (hgroup : 0 < group) {validCpuSize : ℕ} {currentRate totalComputeRate : ℚ}
    {table : List (ℚ × ℕ)} (hcurrent : 0 ≤ currentRate) (htotal : 0 < totalComputeRate)
    (h : IsTable (min validCpuSize mThreadNumber) totalComputeRate table) :
    let r := addGroups mThreadNumber decreaseRate hgroup validCpuSize currentRate totalComputeRate
      table
    0 < r.1 ∧ IsTable mThreadNumber r.1 r.2 := by
  induction validCpuSize, currentRate, totalComputeRate, table using
      addGroups.induct mThreadNumber decreaseRate hgroup with
  | case1 validCpuSize currentRate totalComputeRate table hlt selectSize newRate ih =>
    have hnew : 0 ≤ newRate := mul_nonneg hcurrent hrate
    have hshare : 0 ≤ newRate * selectSize := mul_nonneg hnew (Nat.cast_nonneg selectSize)
    have hselect : 0 < selectSize := lt_min (Nat.sub_pos_of_lt hlt) hgroup
    have hthreads : min validCpuSize mThreadNumber + selectSize =
        min (validCpuSize + group) mThreadNumber := by omega
    have hadd := h.add hshare hselect
    rw [hthreads] at hadd
    rw [addGroups, if_pos hlt]
    exact ih hnew (add_pos_of_pos_of_nonneg htotal hshare) hadd
  | case2 validCpuSize currentRate totalComputeRate table hlt =>
    rw [addGroups, if_neg hlt]
    rw [min_eq_right (not_lt.1 hlt)] at h
    exact ⟨htotal, h⟩

/-- The rates of the table are divided by their sum. -/
theorem groupTable_isTable {mThreadNumber : ℕ} (hthreads : 0 < mThreadNumber) {rate : ℤ}
    (hrate : 0 ≤ rate) {last group : ℕ} (hlast : 0 < last) (hgroup : 0 < group) :
    IsTable mThreadNumber 1 (groupTable mThreadNumber rate last hgroup) := by
  have hvalid : 0 < min last mThreadNumber := lt_min hlast hthreads
  have hfirst : (0 : ℚ) < 1 * (min last mThreadNumber : ℕ) := by
    rw [one_mul]
    exact_mod_cast hvalid
  have hstart : IsTable (min (min last mThreadNumber) mThreadNumber)
      (1 * (min last mThreadNumber : ℕ))
      [((1 : ℚ) * (min last mThreadNumber : ℕ), min last mThreadNumber)] := by
    refine ⟨by simp, by simp, ?_, ?_⟩ <;> intro g hg <;> rw [List.mem_singleton.1 hg]
    exacts [hfirst.le, hvalid]
  have hdecrease : (0 : ℚ) ≤ rate / 100 := div_nonneg (Int.cast_nonneg hrate) (by norm_num)
  obtain ⟨hpos, htable⟩ := addGroups_spec hdecrease hgroup zero_le_one hfirst hstart
  exact htable.div hpos

/-- **The tables of the constructor.**  There is none, or its rates add up to one and its threads to
all threads. -/
theorem create_isTable (mRuntime : CPURuntime) (cpuInfo : MNNCPUInfo) (supportSME2 : Bool) :
    let b := CPUBackend.create mRuntime cpuInfo supportSME2
    0 < b.mThreadNumber ∧ (b.mGroupWithComputeRate = [] ∨
      IsTable b.mThreadNumber 1 b.mGroupWithComputeRate) := by
  intro b
  have hthreads : 0 < b.mThreadNumber := by
    have hpos := mRuntime.mThreadNumber_pos
    simp only [b, CPUBackend.create]
    split_ifs <;> simp only <;> omega
  refine ⟨hthreads, ?_⟩
  simp only [b, CPUBackend.create] at hthreads ⊢
  by_cases hoff : (if mRuntime.useArmSme2Cores && supportSME2 then min 2 mRuntime.mThreadNumber
      else mRuntime.mThreadNumber) ≤ 1 ∨ mRuntime.mPower = .Power_Low ∨
      mRuntime.cpuDecreaseRate ≥ 100 ∨ mRuntime.cpuDecreaseRate ≤ 0
  · rw [if_pos hoff]
    exact .inl rfl
  · rw [if_neg hoff] at hthreads ⊢
    by_cases hgroups : cpuInfo.groups.length < 2
    · rw [dif_pos hgroups]
      exact .inl rfl
    · rw [dif_neg hgroups] at hthreads ⊢
      exact .inr (groupTable_isTable hthreads (by omega)
        (cpuInfo.groups_pos _ (List.getElem_mem _)) _)

/-! ### What the loops write -/

theorem le_mul_upDiv (x : ℕ) {y : ℕ} (hy : 0 < y) : x ≤ y * upDiv x y := by
  have hmod := Nat.mod_lt (x + y - 1) hy
  have hdiv := Nat.div_add_mod (x + y - 1) y
  rw [upDiv]
  omega

theorem upDiv_le (x : ℕ) {y : ℕ} (hy : 0 < y) : upDiv x y ≤ x := by
  obtain ⟨y, rfl⟩ := Nat.exists_eq_succ_of_ne_zero hy.ne'
  cases x with
  | zero => exact (Nat.div_eq_of_lt (by omega)).le
  | succ x =>
    refine Nat.div_le_of_le_mul ?_
    rw [Nat.succ_mul, Nat.mul_succ]
    omega

/-- The equal division: the ends are multiples of the length, the last one at most the size. -/
theorem avgDivide_cut {size length : ℕ} (hlength : length ≤ size) (threads : ℕ) :
    (avgDivide size length threads).2 = min ((threads + 1) * length) size ∧
      Cut size threads (avgDivide size length threads).1 (min (threads * length) size) := by
  induction threads with
  | zero =>
    rw [Nat.zero_mul, Nat.zero_min, Nat.zero_add, Nat.one_mul, min_eq_left hlength]
    exact ⟨rfl, Cut.nil size⟩
  | succ threads ih =>
    obtain ⟨hcur, hcut⟩ := ih
    rw [avgDivide, List.range_succ, List.foldl_append] at *
    have hstep := Nat.add_one_mul (threads + 1) length
    have hle := Nat.add_one_mul threads length
    refine ⟨?_, ?_⟩
    · simp only [List.foldl_cons, List.foldl_nil]
      rw [hcur]
      omega
    · simp only [List.foldl_cons, List.foldl_nil]
      rw [hcur]
      exact hcut.write (by omega) (min_le_right ..)

/-- The threads of one group. -/
theorem divideGroup_cut {size pos cur : ℕ} {dst : List (ℕ × ℕ)} (h : Cut size pos dst cur)
    (length threads : ℕ) :
    (divideGroup size length pos threads dst cur).2 = min (cur + threads * length) size ∧
      Cut size (pos + threads) (divideGroup size length pos threads dst cur).1
        (divideGroup size length pos threads dst cur).2 := by
  induction threads with
  | zero => exact ⟨by rw [Nat.zero_mul, Nat.add_zero, min_eq_left h.cur_le]; rfl, h⟩
  | succ threads ih =>
    obtain ⟨hcur, hcut⟩ := ih
    rw [divideGroup, List.range_succ, List.foldl_append, ← divideGroup] at *
    simp only [List.foldl_cons, List.foldl_nil]
    rw [hcur] at hcut ⊢
    have hstep := Nat.add_one_mul threads length
    exact ⟨by omega, hcut.write (by omega) (min_le_right ..)⟩

/-- The groups of a table: what is behind the shares so far is written, or the range is at its
end. -/
theorem divideGroups_cut {size : ℕ} (table : List (ℚ × ℕ)) (hpos : ∀ g ∈ table, 0 < g.2)
    {pos cur : ℕ} {dst : List (ℕ × ℕ)} (h : Cut size pos dst cur) {share : ℚ}
    (hshare : (size : ℚ) * share ≤ cur ∨ cur = size) :
    ∃ last, Cut size (pos + (table.map Prod.snd).sum) (divideGroups size table pos dst cur) last ∧
      ((size : ℚ) * (share + (table.map Prod.fst).sum) ≤ last ∨ last = size) := by
  induction table generalizing pos cur dst share with
  | nil => exact ⟨cur, h, by simpa using hshare⟩
  | cons g table ih =>
    set total := ⌈(size : ℚ) * g.1⌉₊ with htotal
    obtain ⟨hcur, hcut⟩ := divideGroup_cut h (upDiv total g.2) g.2
    have hnext : (size : ℚ) * (share + g.1) ≤
          (divideGroup size (upDiv total g.2) pos g.2 dst cur).2 ∨
        (divideGroup size (upDiv total g.2) pos g.2 dst cur).2 = size := by
      rcases Nat.lt_or_ge (cur + g.2 * upDiv total g.2) size with hlt | hge
      · -- before the end the whole group is written
        rw [min_eq_left hlt.le] at hcur
        have hlt' : cur ≠ size := by omega
        have hgroup : (total : ℚ) ≤ (g.2 * upDiv total g.2 : ℕ) := by
          exact_mod_cast le_mul_upDiv total (hpos g List.mem_cons_self)
        left
        rw [hcur, Nat.cast_add, mul_add]
        exact add_le_add (hshare.resolve_right hlt') ((Nat.le_ceil _).trans hgroup)
      · exact .inr (hcur.trans (min_eq_right hge))
    obtain ⟨last, hlast, hend⟩ := ih (fun g' hg' => hpos g' (List.mem_cons_of_mem g hg')) hcut hnext
    refine ⟨last, ?_, ?_⟩
    · rw [List.map_cons, List.sum_cons, ← Nat.add_assoc]
      exact hlast
    · rwa [List.map_cons, List.sum_cons, ← add_assoc]

/-- What is written for `b`, whose table is one. -/
theorem computeDivideSizes_cut {b : CPUBackend} (hthreads : 0 < b.mThreadNumber)
    (htable : b.mGroupWithComputeRate = [] ∨ IsTable b.mThreadNumber 1 b.mGroupWithComputeRate)
    (size : ℕ) (avgDiv : ℚ) :
    Cut size b.mThreadNumber (b.computeDivideSizes size avgDiv) size := by
  rw [CPUBackend.computeDivideSizes]
  split_ifs with havg
  · have hcut := (avgDivide_cut (upDiv_le size hthreads) b.mThreadNumber).2
    rwa [min_eq_right (le_mul_upDiv size hthreads)] at hcut
  · have htable := htable.resolve_left fun hnil => havg (.inl (by rw [hnil]; exact Nat.zero_le 1))
    obtain ⟨last, hcut, hend⟩ := divideGroups_cut b.mGroupWithComputeRate htable.threads_pos
      (Cut.nil size) (.inl (by rw [mul_zero, Nat.cast_zero] : (size : ℚ) * 0 ≤ ((0 : ℕ) : ℚ)))
    rw [htable.rates, htable.threads_eq, Nat.zero_add, zero_add, mul_one, Nat.cast_le] at *
    obtain rfl : last = size := hend.elim (fun hle => le_antisymm hcut.cur_le hle) id
    exact hcut

end Mnn.Threads
