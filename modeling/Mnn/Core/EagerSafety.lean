import Mnn.Core.EagerInvariant

/-!
# `EagerBufferAllocator` never hands out overlapping memory

* `Config.Groups`, `State.Outstanding`, `Allowed`: the configurations, the blocks the underlying
  allocator has not got back, and the calls made in a run;
* `State.Nodes`, `alloc_cases`, `alloc_nodes`: the node forest of the state, and what `alloc` does;
* `StateInv`, `step_inv`: the invariant of the whole state, kept by every call;
* `Safe`: what the blocks in use and the free nodes keep apart;
* `allocator_safe`: **every reachable state is safe**.
-/

namespace Mnn.Eager

open Lib

variable {c : Config} {s t : State} {h : Heap} {used : List Used} {F G : List ℕ}

/-! ### New and returned blocks -/

namespace Inv

theorem leaves_add (used : List Used) (F G : List ℕ) (m : ℕ) :
    {n | n ∈ leaves used F (m :: G)} = insert m {n | n ∈ leaves used F G} := by
  ext n
  have hperm : (leaves used F (m :: G)).Perm (m :: leaves used F G) := List.perm_middle
  rw [Set.mem_ofPred_eq, hperm.mem_iff, List.mem_cons]
  rfl

/-- A block of the underlying allocator becomes a root, in hand like a picked node. -/
theorem add_root (hI : Inv h used F G) {p : Pointer} {size : ℕ}
    (hd : ∀ r, Held h.parent {n | n ∈ leaves used F G} r → h.parent r = none →
      Disjoint (Set.Ico p.addr (p.addr + size)) (h.range r)) :
    Inv (h.create ⟨p, none, size⟩) used F (h.next :: G) := by
  have hperm : (leaves used F (h.next :: G)).Perm (h.next :: leaves used F G) := List.perm_middle
  have hlt : ∀ n ∈ leaves used F G, n < h.next := fun n hn => hI.forest.lt_next n (.leaf hn)
  have hL := leaves_add used F G h.next
  have hp : ∀ n < h.next, (h.create ⟨p, none, size⟩).parent n = h.parent n :=
    fun n hn => h.parent_create_of_lt hn
  have hr : ∀ n < h.next, (h.create ⟨p, none, size⟩).range n = h.range n :=
    fun n hn => h.range_create_of_lt hn
  constructor
  · rw [hperm.nodup_iff, List.nodup_cons]
    exact ⟨fun hm => lt_irrefl _ (hlt _ hm), hI.nodup⟩
  · rw [hL]
    refine hI.forest.add hp hr (h.parent_create _) fun r hr hroot => ?_
    rw [h.range_create]
    exact hd r hr hroot
  · rw [hL]
    exact hI.counted.add hI.forest hp (h.parent_create _)
      (fun n hn => h.useCount_create_of_lt hn) (h.useCount_create _)
  · intro u hu
    rw [hr _ (hlt _ (mem_leaves.2 (.inl ⟨u, hu, rfl⟩)))]
    exact hI.blocks u hu

/-- The roots of `mFreeList`. -/
def freeRoots (h : Heap) (F : List ℕ) : Set ℕ := {n ∈ {n | n ∈ F} | h.parent n = none}

theorem mem_freeRoots {r : ℕ} (hr : r ∈ freeRoots h F) :
    r ∈ {n | n ∈ leaves used F G} ∧ h.parent r = none :=
  ⟨mem_leaves.2 (.inr (.inl hr.1)), hr.2⟩

theorem free_drop :
    {n | n ∈ F.filter fun n => h.parent n ≠ none} = {n | n ∈ F} \ freeRoots h F := by
  ext n
  simp only [freeRoots, ne_eq, decide_not, List.mem_filter, Bool.not_eq_true',
    decide_eq_false_iff_not, Set.mem_ofPred_eq, Set.mem_sdiff, not_and]
  exact and_congr_right fun hn => ⟨fun h _ => h, fun h => h hn⟩

theorem leaves_drop (hI : Inv h used F G) :
    {n | n ∈ leaves used (F.filter fun n => h.parent n ≠ none) G} =
      {n | n ∈ leaves used F G} \ freeRoots h F := by
  have hd := hI.nodup
  rw [leaves, List.append_assoc, List.nodup_append'] at hd
  have hFG := (List.nodup_append'.1 hd.2.1).2.2
  ext n
  rw [Set.mem_sdiff, Set.mem_ofPred_eq, Set.mem_ofPred_eq, mem_leaves, mem_leaves]
  constructor
  · rintro (⟨u, hu, rfl⟩ | hn | hn)
    · exact ⟨.inl ⟨u, hu, rfl⟩, fun hm =>
        hd.2.2 (List.mem_map_of_mem hu) (List.mem_append_left _ hm.1)⟩
    · have hm : n ∈ {n | n ∈ F.filter fun n => h.parent n ≠ none} := hn
      rw [free_drop] at hm
      exact ⟨.inr (.inl hm.1), hm.2⟩
    · exact ⟨.inr (.inr hn), fun hm => hFG hm.1 hn⟩
  · rintro ⟨hn | hn | hn, hm⟩
    · exact .inl hn
    · exact .inr (.inl (List.mem_filter.2 ⟨hn, by simpa using fun h0 => hm ⟨hn, h0⟩⟩))
    · exact .inr (.inr hn)

/-- The roots in `mFreeList` are given up. -/
theorem drop_roots (hI : Inv h used F G) : Inv h used (F.filter fun n => h.parent n ≠ none) G := by
  constructor
  · exact hI.nodup.sublist ((List.filter_sublist.append_left _).append_right _)
  · rw [hI.leaves_drop]
    exact hI.forest.drop fun r => mem_freeRoots
  · rw [hI.leaves_drop, free_drop]
    exact hI.counted.drop hI.forest fun r => mem_freeRoots
  · exact hI.blocks

end Inv

/-! ### The calls of a run -/

/-- The nodes of the group lists. -/
def State.groupNodes (s : State) : List ℕ := s.mCurrentFreeList.getD [] ++ s.mGroups.flatten

/-- The nodes of `mFreeList` and of the group lists. -/
def State.freeNodes (s : State) : List ℕ := s.mFreeList ++ s.groupNodes

/-- A node that exists: something refers to it, directly or through its children. -/
def State.Alive (s : State) (n : ℕ) : Prop :=
  Held s.heap.parent {n | n ∈ leaves s.mUsedList s.mFreeList s.groupNodes} n

/-- A block of the underlying allocator that was not returned: its root exists. -/
def State.Outstanding (s : State) (r : ℕ) : Prop := s.Alive r ∧ s.heap.parent r = none

/-- The configurations: `mMinAllocSize` is a multiple of `mAlign`, zero included. -/
structure Config.Valid (c : Config) : Prop where
  align_pos : 0 < c.mAlign
  align_dvd : c.mAlign ∣ c.mMinAllocSize

/-- What callers and the underlying allocator keep to: sizes are positive, a new block overlaps no
block that was not returned, groups are used with `mMinAllocSize = 0` only, and are closed before
the barrier ends; everything is released outside groups only. -/
def Allowed (c : Config) (s : State) : Op → Prop
  | .alloc size _ _ fresh => 0 < size ∧ ∀ p, fresh = some p → ∀ r, s.Outstanding r →
      Disjoint (Set.Ico p.addr (p.addr + max c.mMinAllocSize size)) (s.heap.range r)
  | .free _ => True
  | .barrierBegin => True
  | .barrierEnd => s.mCurrentFreeList = none
  | .beginGroup => c.mMinAllocSize = 0
  | .endGroup => True
  | .release allRelease => allRelease = true → s.groupNodes = []

/-- The allocator, driven by such calls. -/
def allocator (c : Config) : Machine State Op where
  Allowed := Allowed c
  step := step c

/-! ### Every call keeps the invariant -/

/-- The invariant of the state. -/
structure StateInv (c : Config) (s : State) : Prop where
  inv : Inv s.heap s.mUsedList s.mFreeList s.groupNodes
  groups : c.mMinAllocSize ≠ 0 → s.mCurrentFreeList = none

theorem not_held_nil (h : Heap) (n : ℕ) : ¬ Held h.parent {n | n ∈ leaves [] [] []} n := by
  intro hn
  induction hn with
  | leaf hn => exact List.not_mem_nil hn
  | up _ _ ih => exact ih

theorem empty_inv (h : Heap) : Inv h [] [] [] := by
  have hheld := not_held_nil h
  constructor
  · exact List.nodup_nil
  · exact ⟨fun n hn => absurd hn (hheld n), fun n _ hn => absurd hn (hheld n),
      fun n hn => absurd hn List.not_mem_nil, fun n _ hn => absurd hn (hheld n),
      fun n _ hn => absurd hn (hheld n)⟩
  · exact fun n hn => absurd hn (hheld n)
  · exact fun u hu => absurd hu List.not_mem_nil

theorem init_inv (c : Config) : StateInv c .init := ⟨empty_inv _, fun _ => rfl⟩

variable {size align : ℕ} {fresh : Option Pointer}

/-- Where the underlying allocator may put a new block. -/
def FreshApart (c : Config) (s : State) (size : ℕ) (fresh : Option Pointer) : Prop :=
  ∀ p, fresh = some p → ∀ r, s.Outstanding r →
    Disjoint (Set.Ico p.addr (p.addr + max c.mMinAllocSize size)) (s.heap.range r)

/-- A new block that is larger than asked for is split outside groups, into parts inside it. -/
def FreshFits (c : Config) (s : State) (size : ℕ) : Prop :=
  size < c.mMinAllocSize →
    s.mCurrentFreeList = none ∧ roundUp size c.mAlign ≤ c.mMinAllocSize

/-- The nodes of the state are the leaves of a forest with its use counts. -/
def State.Nodes (s : State) : Prop := Inv s.heap s.mUsedList s.mFreeList s.groupNodes

theorem StateInv.fits (hc : c.Valid) (hS : StateInv c s) : FreshFits c s size := fun hlt =>
  ⟨hS.groups (by omega), roundUp_le_of_dvd hc.align_pos hc.align_dvd hlt.le⟩

theorem allocSize_eq : (if c.mMinAllocSize ≠ 0 then max c.mMinAllocSize size else size) =
    max c.mMinAllocSize size := by
  split_ifs with h0
  · rfl
  · rw [not_not.1 h0, Nat.zero_max]

theorem allocFresh_nodes (hc : 0 < c.mAlign) (hI : s.Nodes) (hsize : 0 < size)
    (hd : FreshApart c s size fresh) (hfits : fresh ≠ none → FreshFits c s size) :
    (allocFresh c s size fresh).2.Nodes := by
  unfold allocFresh
  rw [allocSize_eq]
  cases fresh with
  | none => exact hI
  | some p =>
    have hroot := Inv.add_root hI fun r hr hr0 => hd p rfl r ⟨hr, hr0⟩
    dsimp only
    split_ifs with hlt
    · have hmin : size < c.mMinAllocSize := (lt_max_iff.1 hlt).resolve_right (lt_irrefl _)
      rw [max_eq_left hmin.le] at hroot ⊢
      obtain ⟨hcur, hround⟩ := hfits nofun hmin
      obtain ⟨h, used, F, cur, groups, total⟩ := s
      obtain rfl : cur = none := hcur
      dsimp only at hroot ⊢
      refine hroot.split_create (h.node_create _) hround ?_ ?_ ?_ (Heap.insert_perm _ _)
        hsize le_rfl (Nat.add_le_add_left (le_roundUp hc _) _)
      · rfl
      · rfl
      · rw [h.useCount_create]
        rfl
    · have hsz : max c.mMinAllocSize size = size :=
        le_antisymm (not_lt.1 hlt) (le_max_right _ _)
      rw [hsz] at hroot ⊢
      have hp : Set.Ico p.addr (p.addr + size) ⊆
          (s.heap.create ⟨p, none, size⟩).range s.heap.next := by
        rw [s.heap.range_create]
        exact subset_rfl
      have hnew := hroot.pointer_new (mem_leaves.2 (.inr (.inr List.mem_cons_self)))
        (hroot.not_used (by simp)) (hp ⟨le_rfl, Nat.lt_add_of_pos_right hsize⟩)
      have hI := hroot.use hsize hp
      rw [insertUsed_of_new hnew] at hI
      have hkeep : s.mUsedList.filter (fun v => v.pointer ≠ p) = s.mUsedList :=
        List.filter_eq_self.2 fun v hv => by simpa using hnew v hv
      rw [hkeep]
      exact hI

/-- The alignment that is used, `mAlign` when none is asked for. -/
def usedAlign (c : Config) (align : ℕ) : ℕ := if align = 0 then c.mAlign else align

theorem usedAlign_pos (hc : 0 < c.mAlign) : 0 < usedAlign c align := by
  unfold usedAlign
  split_ifs with h0
  · exact hc
  · exact Nat.pos_of_ne_zero h0

/-- The lists are not tried, or none of them has a node that is large enough. -/
def asksFresh (c : Config) (s : State) (size : ℕ) (separate : Bool) (align : ℕ) : Bool :=
  separate ||
    (s.mCurrentFreeList.all (fun current =>
      (getFromFreeList c s.heap s.mUsedList current size false (usedAlign c align)).isNone) &&
      (getFromFreeList c s.heap s.mUsedList s.mFreeList size true (usedAlign c align)).isNone)

/-- **What `alloc` can do**: ask the underlying allocator, take a node of `mFreeList`, or one of the
open group. -/
theorem alloc_cases (c : Config) (s : State) (size : ℕ) (separate : Bool) (align : ℕ)
    (fresh : Option Pointer) :
    (asksFresh c s size separate align = true ∧
      alloc c s size separate align fresh = allocFresh c s size fresh) ∨
    (∃ p h used list,
      getFromFreeList c s.heap s.mUsedList s.mFreeList size true (usedAlign c align) =
        some (p, h, used, list) ∧
      (alloc c s size separate align fresh).2 =
        { s with heap := h, mUsedList := used, mFreeList := list }) ∨
    ∃ current p h used list, s.mCurrentFreeList = some current ∧
      getFromFreeList c s.heap s.mUsedList current size false (usedAlign c align) =
        some (p, h, used, list) ∧
      (alloc c s size separate align fresh).2 =
        { s with heap := h, mUsedList := used, mCurrentFreeList := some list } := by
  cases separate with
  | true => exact .inl ⟨rfl, rfl⟩
  | false =>
    have hmain : s.mCurrentFreeList.all (fun current =>
          (getFromFreeList c s.heap s.mUsedList current size false (usedAlign c align)).isNone) =
          true →
        alloc c s size false align fresh = allocMain c s size (usedAlign c align) fresh := by
      intro hall
      unfold alloc
      cases hcur : s.mCurrentFreeList with
      | none => rfl
      | some current =>
        rw [hcur] at hall
        have hnone := Option.isNone_iff_eq_none.1 hall
        simp only [Bool.false_eq_true, if_false]
        rw [← usedAlign, hnone]
    by_cases hall : s.mCurrentFreeList.all (fun current =>
        (getFromFreeList c s.heap s.mUsedList current size false (usedAlign c align)).isNone) = true
    · rw [hmain hall, allocMain]
      cases hg : getFromFreeList c s.heap s.mUsedList s.mFreeList size true (usedAlign c align) with
      | none => exact .inl ⟨by rw [asksFresh, hall, hg]; rfl, rfl⟩
      | some r => exact .inr (.inl ⟨r.1, r.2.1, r.2.2.1, r.2.2.2, rfl, rfl⟩)
    · cases hcur : s.mCurrentFreeList with
      | none => exact absurd (by rw [hcur]; rfl) hall
      | some current =>
        cases hg : getFromFreeList c s.heap s.mUsedList current size false (usedAlign c align) with
        | none => exact absurd (by rw [hcur, Option.all_some, hg]; rfl) hall
        | some r =>
          refine .inr (.inr ⟨current, r.1, r.2.1, r.2.2.1, r.2.2.2, rfl, hg, ?_⟩)
          unfold alloc
          simp only [hcur, Bool.false_eq_true, if_false]
          rw [← usedAlign, hg]

theorem alloc_nodes (hc : 0 < c.mAlign) (hI : s.Nodes) (hsize : 0 < size) (separate : Bool)
    (hd : FreshApart c s size fresh)
    (hfits : asksFresh c s size separate align = true → fresh ≠ none → FreshFits c s size) :
    (alloc c s size separate align fresh).2.Nodes := by
  obtain ⟨hask, hs⟩ | ⟨p, h, used, list, hg, hs⟩ | ⟨cur, p, h, used, list, hcur, hg, hs⟩ :=
    alloc_cases c s size separate align fresh
  · rw [hs]
    exact allocFresh_nodes hc hI hsize hd (hfits hask)
  · rw [hs]
    exact hI.getFromFreeList_main hc (usedAlign_pos hc) hsize hg
  · rw [hs]
    rw [State.Nodes, State.groupNodes, hcur] at hI
    exact hI.getFromFreeList_group (usedAlign_pos hc) hsize hg

/-- Without a group, none is opened. -/
theorem alloc_current (hcur : s.mCurrentFreeList = none) (separate : Bool) :
    (alloc c s size separate align fresh).2.mCurrentFreeList = none := by
  obtain ⟨-, hs⟩ | ⟨p, h, used, list, -, hs⟩ | ⟨cur, p, h, used, list, hcur', -, -⟩ :=
    alloc_cases c s size separate align fresh
  · rw [hs]
    unfold allocFresh
    cases fresh with
    | none => exact hcur
    | some p =>
      dsimp only
      rw [hcur]
      split_ifs <;> rfl
  · rw [hs]
    exact hcur
  · rw [hcur] at hcur'
    cases hcur'

theorem leaves_free {u : Used} (hu : u ∈ used) (F G : List ℕ) :
    (leaves (used.erase u) F (u.node :: G)).Perm (leaves used F G) := by
  have hc := (((List.perm_cons_erase hu).map Used.node).append_right F).append_right G
  exact List.Perm.trans List.perm_middle hc.symm

/-- A block in use is given up, its node in hand. -/
theorem Inv.unuse (hI : Inv h used F G) {u : Used} (hu : u ∈ used) :
    Inv h (used.erase u) F (u.node :: G) :=
  hI.of_perm (leaves_free hu F G) (fun _ => Iff.rfl) fun v hv =>
    hI.blocks v (List.mem_of_mem_erase hv)

/-- A node that goes to a group changes no count. -/
theorem returnMemory_group (h : Heap) (list : FreeList) (n : ℕ) :
    Eager.returnMemory h list n false = (h, h.insert list n) := by
  unfold Eager.returnMemory
  cases h.parent n <;> rfl

theorem free_nodes (hI : s.Nodes) (p : Pointer) : (free s p).2.Nodes := by
  unfold free
  cases hu : s.mUsedList.find? fun u => u.pointer = p with
  | none => exact hI
  | some u =>
    have hI := Inv.unuse hI (List.mem_of_find?_eq_some hu)
    obtain ⟨h, used, F, cur, groups, total⟩ := s
    cases cur with
    | none => exact hI.returnMemory
    | some cur =>
      simp only [returnMemory_group]
      exact hI.perm_group ((h.insert_perm cur u.node).append_right _)

theorem free_current (hcur : s.mCurrentFreeList = none) (p : Pointer) :
    (free s p).2.mCurrentFreeList = none := by
  unfold free
  cases s.mUsedList.find? fun u => u.pointer = p with
  | none => exact hcur
  | some u =>
    simp only [hcur]

/-- After the groups are closed, their nodes go to `mFreeList`. -/
theorem barrierEnd_nodes (hI : s.Nodes) (hcur : s.mCurrentFreeList = none) :
    (barrierEnd s).Nodes := by
  rw [State.Nodes, State.groupNodes, hcur] at hI
  have h := Inv.returnAll (G := []) (by simpa using hI)
  show Inv _ _ _ ((s.mCurrentFreeList).getD [] ++ [])
  rw [hcur]
  exact h

/-- Opening or closing a group only moves the list that was open. -/
theorem groups_perm (s : State) (new : Option FreeList) (hnew : new.getD [] = []) :
    (new.getD [] ++ (s.mGroups ++ s.mCurrentFreeList.toList).flatten).Perm s.groupNodes := by
  rw [hnew, State.groupNodes]
  cases s.mCurrentFreeList with
  | none => simp
  | some cur => simpa using List.perm_append_comm

theorem beginGroup_nodes (hI : s.Nodes) : (beginGroup s).Nodes :=
  hI.perm_group (groups_perm s (some []) rfl)

theorem endGroup_nodes (hI : s.Nodes) : (endGroup s).Nodes :=
  hI.perm_group (groups_perm s none rfl)

theorem release_nodes (hI : s.Nodes) {allRelease : Bool}
    (hG : allRelease = true → s.groupNodes = []) : (release s allRelease).Nodes := by
  cases allRelease with
  | false => exact hI.drop_roots
  | true =>
    show Inv s.heap [] [] s.groupNodes
    rw [hG rfl]
    exact empty_inv s.heap

/-- **The step lemma.** -/
theorem step_inv (hc : c.Valid) (s : State) (op : Op) (hS : StateInv c s) (ho : Allowed c s op) :
    StateInv c (step c s op) := by
  cases op with
  | alloc size separate align fresh =>
    exact ⟨alloc_nodes hc.align_pos hS.inv ho.1 separate ho.2 fun _ _ => hS.fits hc,
      fun h0 => alloc_current (hS.groups h0) separate⟩
  | free p => exact ⟨free_nodes hS.inv p, fun h0 => free_current (hS.groups h0) p⟩
  | barrierBegin => exact hS
  | barrierEnd => exact ⟨barrierEnd_nodes hS.inv ho, hS.groups⟩
  | beginGroup => exact ⟨beginGroup_nodes hS.inv, fun h0 => absurd ho h0⟩
  | endGroup => exact ⟨endGroup_nodes hS.inv, fun _ => rfl⟩
  | release allRelease =>
    refine ⟨release_nodes hS.inv ho, fun h0 => ?_⟩
    have hcur := hS.groups h0
    cases allRelease <;> exact hcur

/-! ### Safety -/

/-- What the allocator keeps apart: the blocks in use from each other, from the free nodes and
inside outstanding blocks; and the free nodes from each other. -/
structure Safe (s : State) : Prop where
  used_disjoint : s.mUsedList.Pairwise fun u v => Disjoint u.range v.range
  used_within : ∀ u ∈ s.mUsedList, ∃ r, s.Outstanding r ∧ u.range ⊆ s.heap.range r
  used_free : ∀ u ∈ s.mUsedList, ∀ n ∈ s.freeNodes, Disjoint u.range (s.heap.range n)
  free_disjoint : s.freeNodes.Pairwise fun m n => Disjoint (s.heap.range m) (s.heap.range n)

theorem StateInv.safe (hS : StateInv c s) : Safe s := by
  obtain ⟨hI, -⟩ := hS
  have hd := hI.nodup
  rw [leaves, List.append_assoc, List.nodup_append'] at hd
  constructor
  · refine (List.pairwise_map.1 hd.1).imp_of_mem fun {u v} hu hv hne => ?_
    have h := hI.forest.disjoint (mem_leaves.2 (.inl ⟨u, hu, rfl⟩))
      (mem_leaves.2 (.inl ⟨v, hv, rfl⟩)) hne
    exact h.mono (hI.blocks u hu).2 (hI.blocks v hv).2
  · intro u hu
    obtain ⟨r, hr, hroot, hsub⟩ := hI.forest.exists_root (.leaf (mem_leaves.2 (.inl ⟨u, hu, rfl⟩)))
    exact ⟨r, ⟨hr, hroot⟩, (hI.blocks u hu).2.trans hsub⟩
  · intro u hu n hn
    have hnL : n ∈ leaves s.mUsedList s.mFreeList s.groupNodes :=
      mem_leaves.2 (.inr (List.mem_append.1 hn))
    have h := hI.forest.disjoint (mem_leaves.2 (.inl ⟨u, hu, rfl⟩)) hnL (hI.not_used hn u hu)
    exact h.mono_left (hI.blocks u hu).2
  · refine hd.2.1.imp_of_mem fun {m n} hm hn hne => ?_
    exact hI.forest.disjoint (mem_leaves.2 (.inr (List.mem_append.1 hm)))
      (mem_leaves.2 (.inr (List.mem_append.1 hn))) hne

/-- **Main theorem.** Every reachable state keeps the blocks in use and the free memory apart. -/
theorem allocator_safe (hc : c.Valid) {ops : List Op} (hrun : Run (allocator c) .init ops t) :
    Safe t :=
  (hrun.invariant (step_inv hc) (init_inv c)).safe

/-- A block is allocated, freed, split for a smaller one and, inside a group, for another. -/
def reuseOps : List Op :=
  [.alloc 256 false 0 (some ⟨4096, 0⟩), .free ⟨4096, 0⟩, .alloc 100 false 0 none, .barrierBegin,
    .beginGroup, .alloc 20 false 16 none, .free ⟨4096, 128⟩, .endGroup, .barrierEnd,
    .alloc 30 false 0 none]

theorem allocator_safe_reuse : Safe (reuseOps.foldl (step ⟨64, 0⟩) .init) ∧
    (reuseOps.foldl (step ⟨64, 0⟩) .init).mUsedList.map Used.pointer =
      [⟨4096, 128⟩, ⟨4096, 0⟩] := by
  have hfirst : Allowed ⟨64, 0⟩ .init (.alloc 256 false 0 (some ⟨4096, 0⟩)) :=
    ⟨by decide, fun _ _ r hr => absurd hr.1 (not_held_nil _ r)⟩
  have hrun : Run (allocator ⟨64, 0⟩) .init reuseOps (reuseOps.foldl (step ⟨64, 0⟩) .init) :=
    .cons hfirst (.cons trivial (.cons ⟨by decide, nofun⟩ (.cons trivial (.cons rfl
      (.cons ⟨by decide, nofun⟩ (.cons trivial (.cons trivial (.cons rfl
        (.cons ⟨by decide, nofun⟩ (.nil _))))))))))
  exact ⟨allocator_safe ⟨by decide, by decide⟩ hrun, by decide⟩

end Mnn.Eager
