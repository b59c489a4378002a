import Mathlib.Algebra.BigOperators.Finprod
import Mnn.Core.EagerSafety

/-!
# The memory accounting of `EagerBufferAllocator`

* `Accounted h L total`: `total` is the size of the roots above the leaves `L`, and every node above
  a leaf has a use count;
* `Accounted.getFromFreeList_main`, `Accounted.returnMemory`, `Accounted.allocFresh`: the calls keep
  it, the merge loop included;
* `release_outstanding`: what is left after `release(false)` is what has a byte in use;
* `accounting_exact`: **the accounting of every reachable state is exact**.
-/

namespace Mnn.Eager

open Lib

variable {c : Config} {s t : State} {h h' : Heap} {used : List Used} {F G : List ℕ} {L L' : Set ℕ}
  {n x size align total : ℕ}

/-- `total` is the size of the roots, and no node above a leaf has a use count of zero. -/
structure Accounted (h : Heap) (L : Set ℕ) (total : ℕ) : Prop where
  kept : Kept h.parent L h.useCount none
  total_eq : total = ∑ᶠ r ∈ roots h.parent L, h.size r

namespace Accounted

/-! ### Taking a node -/

theorem addUse (hA : Accounted h L total) (p : Option ℕ) : Accounted (h.addUse p) L total :=
  ⟨hA.kept.mono fun _ => Nat.le_add_right _ _, hA.total_eq⟩

/-- A leaf becomes the parent of two new nodes: the roots stay the same. -/
theorem split (hA : Accounted h L total) (hF : Forest h.parent h.range h.next L)
    (hold : ∀ n < h.next, h'.node n = h.node n) (hx : x ∈ L) (ha : h'.parent h.next = some x)
    (hb : h'.parent (h.next + 1) = some x) (hux : 0 < h'.useCount x)
    (hu : ∀ n < h.next, n ≠ x → h'.useCount n = h.useCount n) :
    Accounted h' (insert h.next (insert (h.next + 1) (L \ {x}))) total := by
  have hp : ∀ n < h.next, h'.parent n = h.parent n := fun n hn => congrArg Node.parent (hold n hn)
  refine ⟨hA.kept.split hF hp hx ha hb hux hu, ?_⟩
  rw [roots_split hF hp hx ha hb, hA.total_eq]
  exact finsum_mem_congr rfl fun r hr => (congrArg Node.size (hold r (hF.lt_next r hr.1))).symm

/-- The two nodes of a split as the code makes them. -/
theorem split_create (hA : Accounted h {n | n ∈ leaves used F (x :: G)} total)
    (hI : Inv h used F (x :: G)) (a : Node) {b : Node} {h₁ : Heap}
    (hnode : h₁.node = (h.create a).node) (hnext : h₁.next = h.next + 1) (hux : 0 < h₁.useCount x)
    (hu : ∀ n < h.next, n ≠ x → h₁.useCount n = h.useCount n) (ha : a.parent = some x)
    (hb : b.parent = some x) {F' : List ℕ} (hF' : F'.Perm ((h.next + 1) :: F)) (p : Pointer)
    (size : ℕ) :
    Accounted (h₁.create b) {n | n ∈ leaves (⟨p, h.next, size⟩ :: used) F' G} total := by
  have hxL : x ∈ leaves used F (x :: G) := mem_leaves.2 (.inr (.inr List.mem_cons_self))
  have hlt : ∀ n < h.next, n < h₁.next := fun n hn => by omega
  have hnew : h.next < h₁.next := by omega
  rw [hI.leaves_split_set hF' p size]
  refine hA.split hI.forest ?_ hxL ?_ ?_ ?_ ?_
  · intro n hn
    rw [Heap.node_create_of_lt (hlt n hn), hnode, Heap.node_create_of_lt hn]
  · rw [Heap.parent_create_of_lt hnew, Heap.parent, hnode, Heap.node_create]
    exact ha
  · rw [← hnext, Heap.parent_create]
    exact hb
  · rwa [Heap.useCount_create_of_lt (hlt x (hI.forest.lt_next x (.leaf hxL)))]
  · intro n hn hnx
    rw [Heap.useCount_create_of_lt (hlt n hn)]
    exact hu n hn hnx

theorem getFromFreeList_group {cur : List ℕ}
    (hA : Accounted h {n | n ∈ leaves used F (cur ++ G)} total) (hI : Inv h used F (cur ++ G))
    (ha : 0 < align) (hsize : 0 < size) {p : Pointer} {used' : List Used} {cur' : List ℕ}
    (hr : getFromFreeList c h used cur size false align = some (p, h', used', cur')) :
    Accounted h' {n | n ∈ leaves used' F (cur' ++ G)} total := by
  unfold getFromFreeList at hr
  cases hx : cur.find? fun n => lookupSize c size align ≤ h.size n with
  | none => simp [hx] at hr
  | some x =>
    simp only [hx, Bool.not_false, or_true, if_true, Option.some.injEq, Prod.mk.injEq,
      Bool.false_eq_true, if_false] at hr
    obtain ⟨rfl, rfl, rfl, rfl⟩ := hr
    have hfit : lookupSize c size align ≤ h.size x := by simpa using List.find?_some hx
    obtain ⟨hlo, hhi, hreal⟩ := @alignPointer_spec c size align ha (h.node x).pointer
    have hperm : (x :: (cur.erase x ++ G)).Perm (cur ++ G) :=
      ((List.perm_cons_erase (List.mem_of_find?_eq_some hx)).append_right G).symm
    have hin : Set.Ico (alignPointer c align (h.node x).pointer).addr
        ((alignPointer c align (h.node x).pointer).addr + size) ⊆ h.range x :=
      Set.Ico_subset_Ico hlo (by
        change _ ≤ _ + h.size x
        omega)
    rw [(hI.perm_group hperm).insertUsed_eq hsize hin]
    have hL : {n | n ∈ leaves (⟨alignPointer c align (h.node x).pointer, x, size⟩ :: used) F
        (cur.erase x ++ G)} = {n | n ∈ leaves used F (cur ++ G)} :=
      Set.ext fun n => ((Inv.leaves_use used F _ _).trans (hperm.append_left _)).mem_iff
    rwa [hL]

theorem getFromFreeList_main (hA : Accounted h {n | n ∈ leaves used F G} total)
    (hI : Inv h used F G) (ha : 0 < align) (hsize : 0 < size) {p : Pointer} {used' : List Used}
    {F' : List ℕ}
    (hr : getFromFreeList c h used F size true align = some (p, h', used', F')) :
    Accounted h' {n | n ∈ leaves used' F' G} total := by
  unfold getFromFreeList at hr
  cases hx : F.find? fun n => lookupSize c size align ≤ h.size n with
  | none => simp [hx] at hr
  | some x =>
    have hxF := List.mem_of_find?_eq_some hx
    have hfit : lookupSize c size align ≤ h.size x := by simpa using List.find?_some hx
    obtain ⟨hlo, hhi, hreal⟩ := @alignPointer_spec c size align ha (h.node x).pointer
    have hpick := hI.pick hxF
    have hL : {n | n ∈ leaves used (F.erase x) (x :: G)} = {n | n ∈ leaves used F G} :=
      Set.ext fun n => (Inv.leaves_pick used G hxF).mem_iff
    have hA' := hA.addUse (h.parent x)
    rw [← hL] at hA'
    have hin : Set.Ico (alignPointer c align (h.node x).pointer).addr
        ((alignPointer c align (h.node x).pointer).addr + size) ⊆ (h.addUse (h.parent x)).range x :=
      Set.Ico_subset_Ico hlo (by
        change _ ≤ (h.node x).pointer.addr + h.size x
        omega)
    simp only [hx, if_true, Bool.not_true, Bool.false_eq_true, or_false] at hr
    split at hr
    · simp only [Option.some.injEq, Prod.mk.injEq] at hr
      obtain ⟨rfl, rfl, rfl, rfl⟩ := hr
      rw [hpick.insertUsed_eq hsize hin]
      have hL' : {n | n ∈ leaves (⟨alignPointer c align (h.node x).pointer, x, size⟩ :: used)
          (F.erase x) G} = {n | n ∈ leaves used (F.erase x) (x :: G)} :=
        Set.ext fun n => (Inv.leaves_use used _ G _).mem_iff
      rwa [hL']
    · simp only [Option.some.injEq, Prod.mk.injEq] at hr
      obtain ⟨rfl, rfl, rfl, rfl⟩ := hr
      have hxn : x < h.next := hI.forest.lt_next x (.leaf (mem_leaves.2 (.inr (.inl hxF))))
      rw [hpick.insertUsed_eq hsize hin]
      refine hA'.split_create hpick ⟨(h.node x).pointer, some x,
        roundUp (realSize c size align (h.node x).pointer) c.mAlign⟩ ?_ ?_ ?_ ?_ ?_ ?_
        (Heap.insert_perm _ _) _ size
      · rfl
      · rfl
      · simp [Heap.addUse]
      · intro n hn hnx
        simp [Heap.addUse, Heap.create, Function.update_of_ne (show n ≠ h.next from hn.ne),
          Ne.symm hnx]
      · rfl
      · rfl

/-! ### Giving a node back -/

/-- The merge loop leaves no node behind that nothing keeps. -/
theorem mergeUp (fuel : ℕ) {useCount : ℕ → ℕ} {p : ℕ} (hO : Owing h used F G useCount p)
    (hK : Kept h.parent {n | n ∈ leaves used F G} useCount (some p)) (hfuel : p < fuel) :
    Kept h.parent {n | n ∈ leaves used (Eager.mergeUp h fuel useCount F p).2 G}
        (Eager.mergeUp h fuel useCount F p).1 none ∧
      roots h.parent {n | n ∈ leaves used (Eager.mergeUp h fuel useCount F p).2 G} =
        roots h.parent {n | n ∈ leaves used F G} := by
  induction fuel generalizing useCount F p with
  | zero => exact absurd hfuel (Nat.not_lt_zero p)
  | succ fuel ih =>
    unfold Eager.mergeUp
    by_cases h0 : Function.update useCount p (useCount p - 1) p = 0
    · simp only [h0, if_true]
      have hchild := hO.children_leaves h0
      have hkept := hK.merge hO.forest hO.held hchild (useCount p - 1)
      have hroots := roots_merge hO.forest hO.held hchild
      rw [← hO.leaves_merged h0] at hkept hroots
      cases hq : h.parent p with
      | none => exact ⟨hkept, hroots⟩
      | some q =>
        have hlt := hO.parent_lt hq
        rw [← hroots]
        exact ih (hO.up h0 hq) (hkept.owe _) (by omega)
    · simp only [h0, if_false]
      rw [Function.update_self] at h0
      exact ⟨hK.pay h0, trivial⟩

theorem returnMemory (hA : Accounted h {m | m ∈ leaves used F (n :: G)} total)
    (hI : Inv h used F (n :: G)) :
    Accounted (Eager.returnMemory h F n true).1
      {m | m ∈ leaves used (Eager.returnMemory h F n true).2 G} total := by
  rw [← Inv.leaves_put_set] at hA
  unfold Eager.returnMemory
  cases hp : h.parent n with
  | none => simpa only [hp] using hA
  | some p =>
    have hO := hI.owing hp
    obtain ⟨hkept, hroots⟩ := mergeUp h.next hO (hA.kept.owe _) (hO.forest.lt_next p hO.held)
    simp only [if_true]
    refine ⟨hkept, hA.total_eq.trans ?_⟩
    exact (finsum_mem_congr hroots fun _ _ => rfl).symm

theorem returnAll {ns : List ℕ} (hA : Accounted h {m | m ∈ leaves used F (ns ++ G)} total)
    (hI : Inv h used F (ns ++ G)) :
    Accounted (Eager.returnAll h F ns).1 {m | m ∈ leaves used (Eager.returnAll h F ns).2 G}
      total := by
  induction ns generalizing h F with
  | nil => exact hA
  | cons n ns ih => exact ih (returnMemory hA hI) hI.returnMemory

/-! ### New and returned blocks -/

theorem add_root (hA : Accounted h L total) (hF : Forest h.parent h.range h.next L) (p : Pointer)
    (size : ℕ) : Accounted (h.create ⟨p, none, size⟩) (insert h.next L) (total + size) := by
  have hp : ∀ n < h.next, (h.create ⟨p, none, size⟩).parent n = h.parent n :=
    fun n hn => h.parent_create_of_lt hn
  have hr : (h.create ⟨p, none, size⟩).parent h.next = none := h.parent_create _
  refine ⟨hA.kept.add hF hp hr fun n hn => h.useCount_create_of_lt hn, ?_⟩
  have hnew : h.next ∉ roots h.parent L := fun hm => lt_irrefl _ (hF.lt_next _ hm.1)
  have hsize : (h.create ⟨p, none, size⟩).size h.next = size :=
    congrArg Node.size (h.node_create _)
  have hold : ∑ᶠ r ∈ roots h.parent L, (h.create ⟨p, none, size⟩).size r =
      ∑ᶠ r ∈ roots h.parent L, h.size r :=
    finsum_mem_congr rfl fun r hr =>
      congrArg Node.size (h.node_create_of_lt (hF.lt_next r hr.1))
  rw [roots_add hF hp hr, finsum_mem_insert _ hnew hF.roots_finite, hsize, hold, ← hA.total_eq,
    Nat.add_comm]

/-- `release(false)` subtracts the sizes of the roots it gives up. -/
theorem drop_roots (hA : Accounted h {n | n ∈ leaves used F G} total) (hI : Inv h used F G) :
    Accounted h {n | n ∈ leaves used (F.filter fun n => h.parent n ≠ none) G}
      (total - ((F.filter fun n => h.parent n = none).map h.size).sum) := by
  rw [hI.leaves_drop]
  have hR : ∀ r ∈ Inv.freeRoots h F, r ∈ {n | n ∈ leaves used F G} ∧ h.parent r = none :=
    fun r => Inv.mem_freeRoots
  refine ⟨hA.kept.drop hI.forest hR, ?_⟩
  have hsub : Inv.freeRoots h F ⊆ roots h.parent {n | n ∈ leaves used F G} :=
    fun r hr => ⟨.leaf (hR r hr).1, (hR r hr).2⟩
  have hFn : F.Nodup := (List.nodup_append'.1 (List.nodup_append'.1 hI.nodup).1).2.1
  have hlist : ∑ᶠ r ∈ Inv.freeRoots h F, h.size r =
      ((F.filter fun n => h.parent n = none).map h.size).sum := by
    have hset : Inv.freeRoots h F = ↑(F.filter fun n => h.parent n = none).toFinset := by
      ext r
      simp [Inv.freeRoots]
    rw [hset, finsum_mem_coe_finset, List.sum_toFinset _ (hFn.filter _)]
  have hsum := finsum_mem_add_sdiff (f := h.size) hsub hI.forest.roots_finite
  rw [roots_drop hI.forest hR, hA.total_eq, ← hsum, hlist, Nat.add_sub_cancel_left]

end Accounted

/-! ### Every call keeps the accounts -/

/-- `mTotalSize` accounts for the roots above the leaves of the state. -/
def State.Accounts (s : State) : Prop :=
  Accounted s.heap {n | n ∈ leaves s.mUsedList s.mFreeList s.groupNodes} s.mTotalSize

/-- Both invariants of the state. -/
structure StateAcc (c : Config) (s : State) : Prop where
  stateInv : StateInv c s
  accounts : s.Accounts

theorem init_acc (c : Config) : StateAcc c .init := by
  refine ⟨init_inv c, fun n hn => absurd hn (not_held_nil _ n), ?_⟩
  have hempty : roots State.init.heap.parent {n | n ∈ leaves [] [] []} = ∅ :=
    Set.eq_empty_of_forall_notMem fun r hr => not_held_nil _ r hr.1
  show 0 = ∑ᶠ r ∈ roots State.init.heap.parent {n | n ∈ leaves [] [] []}, State.init.heap.size r
  rw [hempty, finsum_mem_empty]

variable {fresh : Option Pointer}

theorem allocFresh_acc (hI : s.Nodes) (hA : s.Accounts) (hsize : 0 < size)
    (hd : FreshApart c s size fresh) (hfits : fresh ≠ none → FreshFits c s size) :
    (allocFresh c s size fresh).2.Accounts := by
  unfold allocFresh
  rw [allocSize_eq]
  cases fresh with
  | none => exact hA
  | some p =>
    have hroot := Inv.add_root hI fun r hr hr0 => hd p rfl r ⟨hr, hr0⟩
    have hadd := Accounted.add_root hA hI.forest p (max c.mMinAllocSize size)
    rw [← Inv.leaves_add] at hadd
    dsimp only
    split_ifs with hlt
    · have hmin : size < c.mMinAllocSize := (lt_max_iff.1 hlt).resolve_right (lt_irrefl _)
      rw [max_eq_left hmin.le] at hroot hadd ⊢
      have hcur := (hfits nofun hmin).1
      obtain ⟨h, used, F, cur, groups, total⟩ := s
      obtain rfl : cur = none := hcur
      dsimp only at hroot hadd ⊢
      have hfit : Set.Ico p.addr (p.addr + size) ⊆
          (h.create ⟨p, none, c.mMinAllocSize⟩).range h.next := by
        rw [h.range_create]
        exact Set.Ico_subset_Ico_right (Nat.add_le_add_left hmin.le _)
      rw [hroot.insertUsed_eq hsize hfit]
      refine hadd.split_create hroot ⟨p, some h.next, roundUp size c.mAlign⟩ ?_ ?_ ?_ ?_ ?_ ?_
        (Heap.insert_perm _ _) p size
      · rfl
      · rfl
      · simp
      · intro n hn hnx
        simp [Heap.create, Function.update_of_ne hnx,
          Function.update_of_ne (show n ≠ h.next + 1 from hn.ne)]
      · rfl
      · rfl
    · have hsz : max c.mMinAllocSize size = size :=
        le_antisymm (not_lt.1 hlt) (le_max_right _ _)
      rw [hsz] at hroot hadd ⊢
      have hp : Set.Ico p.addr (p.addr + size) ⊆
          (s.heap.create ⟨p, none, size⟩).range s.heap.next := by
        rw [s.heap.range_create]
        exact subset_rfl
      have hnew := hroot.pointer_new (mem_leaves.2 (.inr (.inr List.mem_cons_self)))
        (hroot.not_used (by simp)) (hp ⟨le_rfl, Nat.lt_add_of_pos_right hsize⟩)
      have hkeep : s.mUsedList.filter (fun v => v.pointer ≠ p) = s.mUsedList :=
        List.filter_eq_self.2 fun v hv => by simpa using hnew v hv
      have hL : {n | n ∈ leaves (⟨p, s.heap.next, size⟩ :: s.mUsedList) s.mFreeList s.groupNodes} =
          {n | n ∈ leaves s.mUsedList s.mFreeList (s.heap.next :: s.groupNodes)} :=
        Set.ext fun n => (Inv.leaves_use s.mUsedList _ _ _).mem_iff
      rw [hkeep]
      rw [← hL] at hadd
      exact hadd

theorem alloc_acc (hc : 0 < c.mAlign) (hI : s.Nodes) (hA : s.Accounts) (hsize : 0 < size)
    (separate : Bool) (hd : FreshApart c s size fresh)
    (hfits : asksFresh c s size separate align = true → fresh ≠ none → FreshFits c s size) :
    (alloc c s size separate align fresh).2.Accounts := by
  obtain ⟨hask, hs⟩ | ⟨p, h, used, list, hg, hs⟩ | ⟨cur, p, h, used, list, hcur, hg, hs⟩ :=
    alloc_cases c s size separate align fresh
  · rw [hs]
    exact allocFresh_acc hI hA hsize hd (hfits hask)
  · rw [hs]
    exact hA.getFromFreeList_main hI (usedAlign_pos hc) hsize hg
  · rw [hs]
    rw [State.Nodes, State.groupNodes, hcur] at hI
    rw [State.Accounts, State.groupNodes, hcur] at hA
    exact hA.getFromFreeList_group hI (usedAlign_pos hc) hsize hg

theorem free_acc (hI : s.Nodes) (hA : s.Accounts) (p : Pointer) : (free s p).2.Accounts := by
  unfold free
  cases hu : s.mUsedList.find? fun u => u.pointer = p with
  | none => exact hA
  | some u =>
    have hmem := List.mem_of_find?_eq_some hu
    have hI' := Inv.unuse hI hmem
    have hL : {n | n ∈ leaves s.mUsedList s.mFreeList s.groupNodes} =
        {n | n ∈ leaves (s.mUsedList.erase u) s.mFreeList (u.node :: s.groupNodes)} :=
      Set.ext fun n => (leaves_free hmem _ _).symm.mem_iff
    rw [State.Accounts, hL] at hA
    obtain ⟨h, used, F, cur, groups, total⟩ := s
    cases cur with
    | none => exact hA.returnMemory hI'
    | some cur =>
      have hcur : {n | n ∈ leaves (used.erase u) F (h.insert cur u.node ++ groups.flatten)} =
          {n | n ∈ leaves (used.erase u) F (u.node :: (cur ++ groups.flatten))} :=
        Set.ext fun n =>
          (((h.insert_perm cur u.node).append_right groups.flatten).append_left _).mem_iff
      simp only [returnMemory_group]
      show Accounted h {n | n ∈ leaves (used.erase u) F (h.insert cur u.node ++ groups.flatten)} _
      rw [hcur]
      exact hA

theorem barrierEnd_acc (hI : s.Nodes) (hA : s.Accounts) (hcur : s.mCurrentFreeList = none) :
    (barrierEnd s).Accounts := by
  rw [State.Nodes, State.groupNodes, hcur] at hI
  rw [State.Accounts, State.groupNodes, hcur] at hA
  have h := Accounted.returnAll (G := []) (by simpa using hA) (by simpa using hI)
  show Accounted _ {n | n ∈ leaves _ _ ((s.mCurrentFreeList).getD [] ++ [])} _
  rw [hcur]
  exact h

/-- Opening or closing a group only moves the list that was open. -/
theorem groups_acc (hA : s.Accounts) (new : Option FreeList) (hnew : new.getD [] = []) :
    State.Accounts { s with
      mCurrentFreeList := new
      mGroups := s.mGroups ++ s.mCurrentFreeList.toList } := by
  have hL : {n | n ∈ leaves s.mUsedList s.mFreeList
      (new.getD [] ++ (s.mGroups ++ s.mCurrentFreeList.toList).flatten)} =
      {n | n ∈ leaves s.mUsedList s.mFreeList s.groupNodes} :=
    Set.ext fun n => ((groups_perm s new hnew).append_left _).mem_iff
  show Accounted s.heap {n | n ∈ leaves s.mUsedList s.mFreeList
    (new.getD [] ++ (s.mGroups ++ s.mCurrentFreeList.toList).flatten)} s.mTotalSize
  rw [hL]
  exact hA

theorem release_acc (hI : s.Nodes) (hA : s.Accounts) {allRelease : Bool}
    (hG : allRelease = true → s.groupNodes = []) : (release s allRelease).Accounts := by
  cases allRelease with
  | false => exact hA.drop_roots hI
  | true =>
    show Accounted s.heap {n | n ∈ leaves [] [] s.groupNodes} 0
    rw [hG rfl]
    have hempty : roots s.heap.parent {n | n ∈ leaves [] [] []} = ∅ :=
      Set.eq_empty_of_forall_notMem fun r hr => not_held_nil _ r hr.1
    refine ⟨fun n hn => absurd hn (not_held_nil _ n), ?_⟩
    rw [hempty, finsum_mem_empty]

/-- **The step lemma.** -/
theorem step_acc (hc : c.Valid) (s : State) (op : Op) (hS : StateAcc c s) (ho : Allowed c s op) :
    StateAcc c (step c s op) := by
  obtain ⟨hI, hA⟩ := hS
  refine ⟨step_inv hc s op hI ho, ?_⟩
  cases op with
  | alloc size separate align fresh =>
    exact alloc_acc hc.align_pos hI.inv hA ho.1 separate ho.2 fun _ _ => hI.fits hc
  | free p => exact free_acc hI.inv hA p
  | barrierBegin => exact hA
  | barrierEnd => exact barrierEnd_acc hI.inv hA ho
  | beginGroup => exact groups_acc hA (some []) rfl
  | endGroup => exact groups_acc hA none rfl
  | release allRelease => exact release_acc hI.inv hA ho

/-! ### `release(false)` -/

/-- `MNN_ASSERT(mGroups.empty())`, where `mGroups` has the group that is open as well. -/
def State.NoGroups (s : State) : Prop := s.mCurrentFreeList = none ∧ s.mGroups = []

theorem State.NoGroups.groupNodes (hG : s.NoGroups) : s.groupNodes = [] := by
  rw [State.groupNodes, hG.1, hG.2]
  rfl

/-- **`release(false)` keeps the blocks that have a byte in use, and no others.** -/
theorem release_outstanding (hS : StateAcc c s) (hG : s.NoGroups) {r : ℕ} :
    (release s false).Outstanding r ↔
      s.Outstanding r ∧ ∃ b ∈ s.heap.range r, ∃ u ∈ s.mUsedList, b ∈ u.range := by
  have hI := hS.stateInv.inv
  have hR : ∀ r ∈ Inv.freeRoots s.heap s.mFreeList,
      r ∈ {n | n ∈ leaves s.mUsedList s.mFreeList s.groupNodes} ∧ s.heap.parent r = none :=
    fun r => Inv.mem_freeRoots
  have hiff : (release s false).Outstanding r ↔
      s.Outstanding r ∧ r ∉ Inv.freeRoots s.heap s.mFreeList := by
    have hroots := roots_drop hI.forest hR
    rw [← hI.leaves_drop] at hroots
    exact Set.ext_iff.1 hroots r
  rw [hiff]
  refine and_congr_right fun hr => ⟨fun hrR => ?_, ?_⟩
  · obtain ⟨l, hl, hlF, hanc⟩ := hS.accounts.kept.exists_leaf hI.forest hI.counted hr.1
      fun hrF => hrR ⟨hrF, hr.2⟩
    have hsub := (hI.forest.anc_subset (.leaf hl) hanc).2.1
    rcases mem_leaves.1 hl with ⟨u, hu, rfl⟩ | h | h
    · obtain ⟨hpos, hin⟩ := hI.blocks u hu
      exact ⟨_, hsub (hin (Used.addr_mem hpos)), u, hu, Used.addr_mem hpos⟩
    · exact absurd h hlF
    · rw [hG.groupNodes] at h
      exact absurd h List.not_mem_nil
  · rintro ⟨b, hb, u, hu, hbu⟩ hrR
    have hd := hI.forest.disjoint (mem_leaves.2 (.inl ⟨u, hu, rfl⟩)) (hR r hrR).1
      (hI.not_used (List.mem_append_left _ hrR.1) u hu)
    exact Set.disjoint_left.1 hd ((hI.blocks u hu).2 hbu) hb

/-- `mTotalSize` is the sum of the sizes of the blocks that are still held, a finite number. -/
theorem StateAcc.total_outstanding (hS : StateAcc c s) : {r | s.Outstanding r}.Finite ∧
    s.mTotalSize = ∑ᶠ r ∈ {r | s.Outstanding r}, s.heap.size r :=
  ⟨hS.stateInv.inv.forest.roots_finite, hS.accounts.total_eq⟩

/-- **Main theorem.** In every reachable state `mTotalSize` is the total size of the blocks still
held; `release(false)` returns those without a byte in use, which are all of them once nothing is
in use. -/
theorem accounting_exact (hc : c.Valid) {ops : List Op} (hrun : Run (allocator c) .init ops t) :
    ({r | t.Outstanding r}.Finite ∧
      t.mTotalSize = ∑ᶠ r ∈ {r | t.Outstanding r}, t.heap.size r) ∧
    (t.NoGroups →
      (∀ r, (release t false).Outstanding r ↔
        t.Outstanding r ∧ ∃ b ∈ t.heap.range r, ∃ u ∈ t.mUsedList, b ∈ u.range) ∧
      (t.mUsedList = [] →
        (∀ r, ¬ (release t false).Outstanding r) ∧ (release t false).mTotalSize = 0)) := by
  have hS := hrun.invariant (step_acc hc) (init_acc c)
  refine ⟨hS.total_outstanding, fun hG => ?_⟩
  have hkept := fun r => @release_outstanding c t hS hG r
  refine ⟨hkept, fun hu => ?_⟩
  have hnone : ∀ r, ¬ (release t false).Outstanding r := by
    intro r hr
    obtain ⟨-, b, -, u, hmem, -⟩ := (hkept r).1 hr
    rw [hu] at hmem
    exact List.not_mem_nil hmem
  have hrel := step_acc hc t (.release false) hS nofun
  have hempty : {r | (release t false).Outstanding r} = ∅ :=
    Set.eq_empty_of_forall_notMem hnone
  refine ⟨hnone, ?_⟩
  have htotal : (release t false).mTotalSize =
      ∑ᶠ r ∈ {r | (release t false).Outstanding r}, (release t false).heap.size r :=
    hrel.total_outstanding.2
  rw [htotal, hempty, finsum_mem_empty]

/-- The blocks of `reuseOps` that are still in use are freed. -/
def returnOps : List Op := reuseOps ++ [.free ⟨4096, 128⟩, .free ⟨4096, 0⟩]

theorem accounting_exact_return :
    (returnOps.foldl (step ⟨64, 0⟩) .init).mTotalSize = 256 ∧
      (release (returnOps.foldl (step ⟨64, 0⟩) .init) false).mTotalSize = 0 ∧
      ∀ r, ¬ (release (returnOps.foldl (step ⟨64, 0⟩) .init) false).Outstanding r := by
  have hfirst : Allowed ⟨64, 0⟩ .init (.alloc 256 false 0 (some ⟨4096, 0⟩)) :=
    ⟨by decide, fun _ _ r hr => absurd hr.1 (not_held_nil _ r)⟩
  have hrun : Run (allocator ⟨64, 0⟩) .init returnOps (returnOps.foldl (step ⟨64, 0⟩) .init) :=
    .cons hfirst (.cons trivial (.cons ⟨by decide, nofun⟩ (.cons trivial (.cons rfl
      (.cons ⟨by decide, nofun⟩ (.cons trivial (.cons trivial (.cons rfl
        (.cons ⟨by decide, nofun⟩ (.cons trivial (.cons trivial (.nil _))))))))))))
  have hall := ((accounting_exact ⟨by decide, by decide⟩ hrun).2 ⟨rfl, rfl⟩).2 (by decide)
  exact ⟨by decide, hall.2, hall.1⟩

end Mnn.Eager
