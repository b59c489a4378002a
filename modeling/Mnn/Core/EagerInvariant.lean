import Mnn.Core.EagerAllocator
import Mnn.Lib.Laminar

/-!
# The node forest of `EagerBufferAllocator`

* `Inv h used F G`: the nodes in use, in `mFreeList` (`F`) and in group lists (`G`) are the leaves of
  a forest of nested byte ranges, each in one place, and a use count is the number of children
  outside `F`;
* `Inv.getFromFreeList_main`, `Inv.getFromFreeList_group`: taking a node keeps it;
* `Inv.returnMemory`: so does giving a node back, with all the merging that follows;
* `Inv.fresh`, `Inv.fresh_split`: and a new block of the underlying allocator.
-/

namespace Mnn.Eager

open Lib

variable {c : Config} {h : Heap} {used : List Used} {F G : List ℕ} {n x size align : ℕ}

/-! ### Small facts -/

def Heap.range (h : Heap) (n : ℕ) : Set ℕ := (h.node n).range

@[simp] theorem Heap.mem_insert {list : FreeList} {m : ℕ} :
    n ∈ h.insert list m ↔ n = m ∨ n ∈ list :=
  List.mem_orderedInsert _

theorem Heap.insert_perm (list : FreeList) (m : ℕ) : (h.insert list m).Perm (m :: list) :=
  List.perm_orderedInsert _ m list

@[simp] theorem Heap.parent_addUse (p : Option ℕ) : (h.addUse p).parent = h.parent := rfl

@[simp] theorem Heap.range_addUse (p : Option ℕ) : (h.addUse p).range = h.range := rfl

theorem Heap.node_create_of_lt {m : Node} (hn : n < h.next) : (h.create m).node n = h.node n :=
  Function.update_of_ne hn.ne _ _

@[simp] theorem Heap.node_create (m : Node) : (h.create m).node h.next = m :=
  Function.update_self _ _ _

theorem Heap.parent_create_of_lt {m : Node} (hn : n < h.next) :
    (h.create m).parent n = h.parent n := congrArg Node.parent (h.node_create_of_lt hn)

theorem Heap.range_create_of_lt {m : Node} (hn : n < h.next) :
    (h.create m).range n = h.range n := congrArg Node.range (h.node_create_of_lt hn)

theorem Heap.useCount_create_of_lt {m : Node} (hn : n < h.next) :
    (h.create m).useCount n = h.useCount n := Function.update_of_ne hn.ne _ _

@[simp] theorem Heap.parent_create (m : Node) : (h.create m).parent h.next = m.parent :=
  congrArg Node.parent (h.node_create m)

@[simp] theorem Heap.range_create (m : Node) : (h.create m).range h.next = m.range :=
  congrArg Node.range (h.node_create m)

@[simp] theorem Heap.useCount_create (m : Node) : (h.create m).useCount h.next = 0 :=
  Function.update_self _ _ _

theorem Used.addr_mem {u : Used} (hu : 0 < u.size) : u.pointer.addr ∈ u.range := by
  simp only [Used.range, Set.mem_Ico]
  omega

theorem insertUsed_of_new {u : Used} (hu : ∀ v ∈ used, v.pointer ≠ u.pointer) :
    insertUsed used u = u :: used := by
  unfold insertUsed
  rw [if_neg]
  simpa using hu

/-! ### The invariant -/

/-- The nodes that something refers to directly. -/
def leaves (used : List Used) (F G : List ℕ) : List ℕ := used.map Used.node ++ F ++ G

/-- `used`, the main free list `F` and the group lists `G` partition the leaves of the forest. -/
structure Inv (h : Heap) (used : List Used) (F G : List ℕ) : Prop where
  nodup : (leaves used F G).Nodup
  forest : Forest h.parent h.range h.next {n | n ∈ leaves used F G}
  counted : Counted h.parent {n | n ∈ leaves used F G} {n | n ∈ F} h.useCount none
  blocks : ∀ u ∈ used, 0 < u.size ∧ u.range ⊆ h.range u.node

theorem mem_leaves : n ∈ leaves used F G ↔ (∃ u ∈ used, u.node = n) ∨ n ∈ F ∨ n ∈ G := by
  simp [leaves]

/-- The merge loop is at `p`: a child of `p` was given back, and the count of `p` is still to be
lowered for it. -/
structure Owing (h : Heap) (used : List Used) (F G : List ℕ) (useCount : ℕ → ℕ) (p : ℕ) : Prop where
  nodup : (leaves used F G).Nodup
  forest : Forest h.parent h.range h.next {n | n ∈ leaves used F G}
  counted : Counted h.parent {n | n ∈ leaves used F G} {n | n ∈ F} useCount (some p)
  held : Held h.parent {n | n ∈ leaves used F G} p
  not_leaf : p ∉ leaves used F G

namespace Inv

/-- Only what is in which place matters, not in which order. -/
theorem of_perm {used' : List Used} {F' G' : List ℕ} (hI : Inv h used F G)
    (hp : (leaves used' F' G').Perm (leaves used F G)) (hF : ∀ n, n ∈ F' ↔ n ∈ F)
    (hu : ∀ u ∈ used', 0 < u.size ∧ u.range ⊆ h.range u.node) : Inv h used' F' G' := by
  have hL : {n | n ∈ leaves used' F' G'} = {n | n ∈ leaves used F G} :=
    Set.ext fun n => hp.mem_iff
  have hF' : {n | n ∈ F'} = {n | n ∈ F} := Set.ext hF
  constructor
  · exact hp.nodup_iff.2 hI.nodup
  · rw [hL]
    exact hI.forest
  · rw [hL, hF']
    exact hI.counted
  · exact hu

/-- A block inside a leaf that is not in use starts where no block in use starts. -/
theorem pointer_new (hI : Inv h used F G) {p : Pointer} (hx : x ∈ leaves used F G)
    (hxu : ∀ u ∈ used, u.node ≠ x) (hp : p.addr ∈ h.range x) : ∀ u ∈ used, u.pointer ≠ p := by
  rintro u hu rfl
  have hd := hI.forest.disjoint (mem_leaves.2 (.inl ⟨u, hu, rfl⟩)) hx (hxu u hu)
  obtain ⟨hpos, hsub⟩ := hI.blocks u hu
  exact Set.disjoint_left.1 hd (hsub (Used.addr_mem hpos)) hp

/-- A leaf that is in a free list is not in use. -/
theorem not_used (hI : Inv h used F G) (hx : x ∈ F ++ G) : ∀ u ∈ used, u.node ≠ x := by
  rintro u hu rfl
  have hd := hI.nodup
  rw [leaves, List.append_assoc, List.nodup_append'] at hd
  exact hd.2.2 (List.mem_map_of_mem hu) hx

theorem not_mem_main (hI : Inv h used F G) (hn : n ∈ G) : n ∉ F := by
  intro hF
  have hd := hI.nodup
  rw [leaves, List.append_assoc, List.nodup_append'] at hd
  exact (List.nodup_append'.1 hd.2.1).2.2 hF hn

/-! ### Taking a node -/

theorem perm_group {G' : List ℕ} (hI : Inv h used F G) (hG : G'.Perm G) : Inv h used F G' :=
  hI.of_perm (hG.append_left _) (fun _ => Iff.rfl) hI.blocks

theorem leaves_pick (used : List Used) (G : List ℕ) (hx : x ∈ F) :
    (leaves used (F.erase x) (x :: G)).Perm (leaves used F G) := by
  have hc := ((List.perm_cons_erase hx).append_left (used.map Used.node)).append_right G
  refine List.Perm.trans ?_ hc.symm
  simp only [leaves, List.append_assoc]
  exact List.Perm.append_left _ List.perm_middle

/-- A node of `mFreeList` is picked, and is one busy child more for its parent. -/
theorem pick (hI : Inv h used F G) (hx : x ∈ F) :
    Inv (h.addUse (h.parent x)) used (F.erase x) (x :: G) := by
  have hperm := leaves_pick used G hx
  have hL : {n | n ∈ leaves used (F.erase x) (x :: G)} = {n | n ∈ leaves used F G} :=
    Set.ext fun n => hperm.mem_iff
  have hF : {n | n ∈ F.erase x} = {n | n ∈ F} \ {x} := by
    ext n
    have hFn : F.Nodup := (List.nodup_append'.1 (List.nodup_append'.1 hI.nodup).1).2.1
    simp [hFn.mem_erase_iff, and_comm]
  constructor
  · exact hperm.nodup_iff.2 hI.nodup
  · rw [hL]
    exact hI.forest
  · rw [hL, hF]
    exact hI.counted.take hI.forest (.leaf (mem_leaves.2 (.inr (.inl hx)))) hx
  · exact hI.blocks

/-- What is handed out of a picked node is a new entry of `mUsedList`. -/
theorem insertUsed_eq (hI : Inv h used F (x :: G)) {p : Pointer} (hsize : 0 < size)
    (hp : Set.Ico p.addr (p.addr + size) ⊆ h.range x) (m : ℕ) :
    insertUsed used ⟨p, m, size⟩ = ⟨p, m, size⟩ :: used :=
  insertUsed_of_new (hI.pointer_new (mem_leaves.2 (.inr (.inr List.mem_cons_self)))
    (hI.not_used (by simp)) (hp ⟨le_rfl, Nat.lt_add_of_pos_right hsize⟩))

theorem leaves_use (used : List Used) (F G : List ℕ) (u : Used) :
    (leaves (u :: used) F G).Perm (leaves used F (u.node :: G)) :=
  List.perm_middle.symm

/-- A picked node is handed out. -/
theorem use (hI : Inv h used F (x :: G)) {p : Pointer} (hsize : 0 < size)
    (hp : Set.Ico p.addr (p.addr + size) ⊆ h.range x) :
    Inv h (insertUsed used ⟨p, x, size⟩) F G := by
  rw [hI.insertUsed_eq hsize hp]
  refine hI.of_perm (leaves_use used F G ⟨p, x, size⟩) (fun n => Iff.rfl) ?_
  rintro u (_ | ⟨_, hu⟩)
  · exact ⟨hsize, hp⟩
  · exact hI.blocks u hu

/-- Without the node in hand, the leaves are the other ones. -/
theorem mem_leaves_tail (hI : Inv h used F (x :: G)) :
    n ∈ leaves used F G ↔ n ∈ leaves used F (x :: G) ∧ n ≠ x := by
  have hxF : x ∉ F := hI.not_mem_main List.mem_cons_self
  have hxu := hI.not_used (x := x) (by simp)
  have hxG : x ∉ G := (List.nodup_cons.1 (List.nodup_append'.1 hI.nodup).2.1).1
  simp only [mem_leaves, List.mem_cons]
  constructor
  · rintro (⟨u, hu, rfl⟩ | h | h)
    · exact ⟨.inl ⟨u, hu, rfl⟩, hxu u hu⟩
    · exact ⟨.inr (.inl h), fun e => hxF (e ▸ h)⟩
    · exact ⟨.inr (.inr (.inr h)), fun e => hxG (e ▸ h)⟩
  · rintro ⟨h | h | h | h, hne⟩
    · exact .inl h
    · exact .inr (.inl h)
    · exact absurd h hne
    · exact .inr (.inr h)

/-- Two nodes in place of the one in hand, one of them in use and the other one free. -/
theorem leaves_split {F' : List ℕ} {a b : ℕ} (hF' : F'.Perm (b :: F)) (p : Pointer) (size : ℕ) :
    (leaves (⟨p, a, size⟩ :: used) F' G).Perm (a :: b :: leaves used F G) := by
  show (a :: (used.map Used.node ++ F' ++ G)).Perm _
  refine List.Perm.cons _ ?_
  refine ((hF'.append_left (used.map Used.node)).append_right G).trans ?_
  simp only [leaves, List.append_assoc]
  exact List.perm_middle

theorem leaves_split_set (hI : Inv h used F (x :: G)) {F' : List ℕ} {a b : ℕ}
    (hF' : F'.Perm (b :: F)) (p : Pointer) (size : ℕ) :
    {n | n ∈ leaves (⟨p, a, size⟩ :: used) F' G} =
      insert a (insert b ({n | n ∈ leaves used F (x :: G)} \ {x})) := by
  ext n
  rw [Set.mem_ofPred_eq, (leaves_split hF' p size).mem_iff, List.mem_cons, List.mem_cons,
    hI.mem_leaves_tail]
  rfl

/-- A picked node becomes the parent of two new ones: the first is handed out, the second is
free. -/
theorem split (hI : Inv h used F (x :: G)) {h' : Heap} {F' : List ℕ} {p : Pointer}
    (hnext : h'.next = h.next + 2) (hparent : ∀ n < h.next, h'.parent n = h.parent n)
    (hrange : ∀ n < h.next, h'.range n = h.range n) (ha : h'.parent h.next = some x)
    (hb : h'.parent (h.next + 1) = some x) (hac : h'.range h.next ⊆ h.range x)
    (hbc : h'.range (h.next + 1) ⊆ h.range x)
    (hab : Disjoint (h'.range h.next) (h'.range (h.next + 1)))
    (hux : h'.useCount x = h.useCount x + 1)
    (hu : ∀ n < h.next, n ≠ x → h'.useCount n = h.useCount n) (hua : h'.useCount h.next = 0)
    (hub : h'.useCount (h.next + 1) = 0) (hF' : F'.Perm ((h.next + 1) :: F)) (hsize : 0 < size)
    (hp : Set.Ico p.addr (p.addr + size) ⊆ h'.range h.next) :
    Inv h' (insertUsed used ⟨p, h.next, size⟩) F' G := by
  have hxL : x ∈ leaves used F (x :: G) := mem_leaves.2 (.inr (.inr List.mem_cons_self))
  have hlt : ∀ n ∈ leaves used F (x :: G), n < h.next := fun n hn =>
    hI.forest.lt_next n (.leaf hn)
  have hxF : x ∉ F := hI.not_mem_main List.mem_cons_self
  rw [hI.insertUsed_eq hsize (hp.trans hac)]
  have hperm : (leaves (⟨p, h.next, size⟩ :: used) F' G).Perm
      (h.next :: (h.next + 1) :: leaves used F G) := leaves_split hF' p size
  have hL := hI.leaves_split_set (a := h.next) hF' p size
  have hFset : {n | n ∈ F'} = insert (h.next + 1) {n | n ∈ F} := by
    ext n
    rw [Set.mem_ofPred_eq, hF'.mem_iff, List.mem_cons]
    rfl
  have hFL : {n | n ∈ F} ⊆ {n | n ∈ leaves used F (x :: G)} := fun n hn =>
    mem_leaves.2 (.inr (.inl hn))
  constructor
  · rw [hperm.nodup_iff, List.nodup_cons, List.nodup_cons, List.mem_cons]
    refine ⟨?_, ?_, ?_⟩
    · rintro (h | h)
      · omega
      · exact absurd (hlt _ (hI.mem_leaves_tail.1 h).1) (lt_irrefl _)
    · intro h
      have := hlt _ (hI.mem_leaves_tail.1 h).1
      omega
    · exact hI.nodup.sublist ((List.sublist_cons_self x G).append_left _)
  · rw [hL, hnext]
    exact hI.forest.split hparent hrange hxL ha hb hac hbc hab
  · rw [hL, hFset]
    exact hI.counted.split hI.forest hFL hparent hxL hxF ha hb hux hu hua hub
  · rintro u (_ | ⟨_, hu⟩)
    · exact ⟨hsize, hp⟩
    · obtain ⟨hpos, hsub⟩ := hI.blocks u hu
      refine ⟨hpos, ?_⟩
      rwa [hrange _ (hlt _ (mem_leaves.2 (.inl ⟨u, hu, rfl⟩)))]

/-! ### Giving a node back -/

theorem leaves_merge_perm (p : ℕ) :
    (leaves used (h.insert (F.filter fun n => h.parent n ≠ some p) p) G).Perm
      (p :: leaves used (F.filter fun n => h.parent n ≠ some p) G) := by
  have hc := ((h.insert_perm (F.filter fun n => h.parent n ≠ some p) p).append_left
    (used.map Used.node)).append_right G
  refine hc.trans ?_
  simp only [leaves, List.append_assoc]
  exact List.perm_middle

/-- When the children of `p` give way to it, nothing else changes. -/
theorem leaves_merge (hnd : (leaves used F G).Nodup) {p : ℕ}
    (hchild : ∀ n, Held h.parent {n | n ∈ leaves used F G} n → h.parent n = some p → n ∈ F) :
    {n | n ∈ leaves used (h.insert (F.filter fun n => h.parent n ≠ some p) p) G} =
      insert p {n ∈ {n | n ∈ leaves used F G} | h.parent n ≠ some p} := by
  have hkept : ∀ n ∈ leaves used F G, n ∉ F → h.parent n ≠ some p := fun n hn hnF hnp =>
    hnF (hchild n (.leaf hn) hnp)
  have hd := hnd
  rw [leaves, List.append_assoc, List.nodup_append'] at hd
  have hFG := (List.nodup_append'.1 hd.2.1).2.2
  ext n
  rw [Set.mem_ofPred_eq, (leaves_merge_perm p).mem_iff, List.mem_cons]
  refine or_congr Iff.rfl ?_
  simp only [Set.mem_ofPred_eq, mem_leaves, List.mem_filter, decide_eq_true_eq]
  constructor
  · rintro (⟨u, hu, rfl⟩ | ⟨hn, hnp⟩ | hn)
    · refine ⟨.inl ⟨u, hu, rfl⟩, hkept _ (mem_leaves.2 (.inl ⟨u, hu, rfl⟩)) fun hm => ?_⟩
      exact hd.2.2 (List.mem_map_of_mem hu) (List.mem_append_left _ hm)
    · exact ⟨.inr (.inl hn), hnp⟩
    · exact ⟨.inr (.inr hn), hkept _ (mem_leaves.2 (.inr (.inr hn))) fun hm => hFG hm hn⟩
  · rintro ⟨hn | hn | hn, hnp⟩
    · exact .inl hn
    · exact .inr (.inl ⟨hn, hnp⟩)
    · exact .inr (.inr hn)

theorem nodup_merge (hnd : (leaves used F G).Nodup) {p : ℕ} (hpL : p ∉ leaves used F G) :
    (leaves used (h.insert (F.filter fun n => h.parent n ≠ some p) p) G).Nodup := by
  rw [(leaves_merge_perm p).nodup_iff, List.nodup_cons]
  constructor
  · intro hm
    simp only [mem_leaves, List.mem_filter] at hm
    exact hpL (mem_leaves.2 (hm.imp id (Or.imp And.left id)))
  · exact hnd.sublist ((List.filter_sublist.append_left _).append_right _)

end Inv

namespace Owing

variable {useCount : ℕ → ℕ} {p q : ℕ} (hO : Owing h used F G useCount p)

include hO

theorem parent_lt (hq : h.parent p = some q) : q < p := hO.forest.parent_lt p q hO.held hq

variable (h0 : Function.update useCount p (useCount p - 1) p = 0)

include h0

/-- The children of `p` are all in `mFreeList` once its last busy child is gone. -/
theorem children_free (n : ℕ) (hn : Held h.parent {n | n ∈ leaves used F G} n)
    (hnp : h.parent n = some p) : n ∈ F := by
  by_contra hnF
  have hcard := hO.counted.pay p hO.held
  rw [h0] at hcard
  have hempty := (Set.ncard_eq_zero (hO.forest.busy_finite p)).1
    (Nat.add_eq_zero_iff.1 hcard.symm).1
  exact (Set.eq_empty_iff_forall_notMem.1 hempty) n ⟨hn, hnp, hnF⟩

theorem children_leaves (n : ℕ) (hn : Held h.parent {n | n ∈ leaves used F G} n)
    (hnp : h.parent n = some p) : n ∈ leaves used F G :=
  mem_leaves.2 (.inr (.inl (hO.children_free h0 n hn hnp)))

/-- Then `p` takes the place of its children. -/
theorem leaves_merged :
    {n | n ∈ leaves used (h.insert (F.filter fun n => h.parent n ≠ some p) p) G} =
      insert p {n ∈ {n | n ∈ leaves used F G} | h.parent n ≠ some p} :=
  Inv.leaves_merge hO.nodup (hO.children_free h0)

theorem forest_merged : Forest h.parent h.range h.next
    {n | n ∈ leaves used (h.insert (F.filter fun n => h.parent n ≠ some p) p) G} := by
  rw [hO.leaves_merged h0]
  exact hO.forest.merge hO.held (hO.children_leaves h0)

/-- The parent of `p` is owed next. -/
theorem counted_merged : Counted h.parent
    {n | n ∈ leaves used (h.insert (F.filter fun n => h.parent n ≠ some p) p) G}
    {n | n ∈ h.insert (F.filter fun n => h.parent n ≠ some p) p}
    (Function.update useCount p (useCount p - 1)) (h.parent p) := by
  have hFset : {n | n ∈ h.insert (F.filter fun n => h.parent n ≠ some p) p} =
      insert p {n ∈ {n | n ∈ F} | h.parent n ≠ some p} := by
    ext n
    simp
  rw [hO.leaves_merged h0, hFset]
  exact hO.counted.pay.merge hO.forest hO.held
    (fun hm => hO.not_leaf (mem_leaves.2 (.inr (.inl hm)))) (hO.children_leaves h0) h0

/-- Where `p` has a parent, the loop goes on there. -/
theorem up (hq : h.parent p = some q) :
    Owing h used (h.insert (F.filter fun n => h.parent n ≠ some p) p) G
      (Function.update useCount p (useCount p - 1)) q := by
  have hleaf : p ∈ leaves used (h.insert (F.filter fun n => h.parent n ≠ some p) p) G :=
    (Inv.leaves_merge_perm p).mem_iff.2 List.mem_cons_self
  have hforest := hO.forest_merged h0
  have hcounted := hO.counted_merged h0
  rw [hq] at hcounted
  refine ⟨Inv.nodup_merge hO.nodup hO.not_leaf, hforest, hcounted, .up (.leaf hleaf) hq, ?_⟩
  exact fun hqL => hforest.leaf_childless q hqL p (.leaf hleaf) hq

end Owing

namespace Inv

/-- **The merge loop** brings the counts up to date, whatever number of levels it climbs. -/
theorem mergeUp (fuel : ℕ) {useCount : ℕ → ℕ} {p : ℕ} (hO : Owing h used F G useCount p)
    (hB : ∀ u ∈ used, 0 < u.size ∧ u.range ⊆ h.range u.node) (hfuel : p < fuel) :
    Inv { h with useCount := (Eager.mergeUp h fuel useCount F p).1 } used
      (Eager.mergeUp h fuel useCount F p).2 G := by
  induction fuel generalizing useCount F p with
  | zero => exact absurd hfuel (Nat.not_lt_zero p)
  | succ fuel ih =>
    unfold Eager.mergeUp
    by_cases h0 : Function.update useCount p (useCount p - 1) p = 0
    · simp only [h0, if_true]
      have hcounted := hO.counted_merged h0
      cases hq : h.parent p with
      | none =>
        rw [hq] at hcounted
        exact ⟨nodup_merge hO.nodup hO.not_leaf, hO.forest_merged h0, hcounted, hB⟩
      | some q =>
        have hlt := hO.parent_lt hq
        exact ih (hO.up h0 hq) (by omega)
    · simp only [h0, if_false]
      exact ⟨hO.nodup, hO.forest, hO.counted.pay, hB⟩

theorem leaves_put (h : Heap) (used : List Used) (F G : List ℕ) (n : ℕ) :
    (leaves used (h.insert F n) G).Perm (leaves used F (n :: G)) := by
  have hc := ((h.insert_perm F n).append_left (used.map Used.node)).append_right G
  refine hc.trans ?_
  simp only [leaves, List.append_assoc]
  refine List.Perm.append_left _ ?_
  exact List.perm_middle.symm

/-- A node that is put in `mFreeList` is a leaf as before. -/
theorem leaves_put_set (h : Heap) (used : List Used) (F G : List ℕ) (n : ℕ) :
    {m | m ∈ leaves used (h.insert F n) G} = {m | m ∈ leaves used F (n :: G)} :=
  Set.ext fun _ => (leaves_put h used F G n).mem_iff

/-- The parent of a node that is put in `mFreeList` is owed. -/
theorem counted_put (hI : Inv h used F (n :: G)) :
    Counted h.parent {m | m ∈ leaves used (h.insert F n) G} {m | m ∈ h.insert F n} h.useCount
      (h.parent n) := by
  have hFset : {m | m ∈ h.insert F n} = insert n {m | m ∈ F} := by
    ext m
    simp
  rw [leaves_put_set, hFset]
  exact hI.counted.put hI.forest (.leaf (mem_leaves.2 (.inr (.inr List.mem_cons_self))))
    (hI.not_mem_main List.mem_cons_self)

theorem owing (hI : Inv h used F (n :: G)) {p : ℕ} (hp : h.parent n = some p) :
    Owing h used (h.insert F n) G h.useCount p := by
  have hleaf : n ∈ leaves used (h.insert F n) G :=
    (leaves_put h used F G n).mem_iff.2 (mem_leaves.2 (.inr (.inr List.mem_cons_self)))
  have hforest := hI.forest
  have hcounted := hI.counted_put
  rw [← leaves_put_set] at hforest
  rw [hp] at hcounted
  refine ⟨(leaves_put h used F G n).nodup_iff.2 hI.nodup, hforest, hcounted,
    .up (.leaf hleaf) hp, ?_⟩
  exact fun hpL => hforest.leaf_childless p hpL n (.leaf hleaf) hp

/-- A node outside `mFreeList` is put there. -/
theorem returnMemory (hI : Inv h used F (n :: G)) :
    Inv (Eager.returnMemory h F n true).1 used (Eager.returnMemory h F n true).2 G := by
  unfold Eager.returnMemory
  cases hp : h.parent n with
  | none =>
    have hforest := hI.forest
    have hcounted := hI.counted_put
    rw [← leaves_put_set] at hforest
    rw [hp] at hcounted
    exact ⟨(leaves_put h used F G n).nodup_iff.2 hI.nodup, hforest, hcounted, hI.blocks⟩
  | some p =>
    have hO := hI.owing hp
    exact mergeUp h.next hO hI.blocks (hO.forest.lt_next p hO.held)

/-- Nodes outside `mFreeList` are put there one after the other. -/
theorem returnAll {ns : List ℕ} (hI : Inv h used F (ns ++ G)) :
    Inv (Eager.returnAll h F ns).1 used (Eager.returnAll h F ns).2 G := by
  induction ns generalizing h F with
  | nil => exact hI
  | cons n ns ih => exact ih (returnMemory hI)

/-- The two nodes of a split as the code makes them: `k` bytes of `x` and the rest. -/
theorem split_create (hI : Inv h used F (x :: G)) {o : Pointer} {q : Option ℕ} {m k : ℕ}
    (hx : h.node x = ⟨o, q, m⟩) (hk : k ≤ m) {h₁ : Heap}
    (hnode : h₁.node = (h.create ⟨o, some x, k⟩).node) (hnext : h₁.next = h.next + 1)
    (huse : h₁.useCount = Function.update (Function.update h.useCount h.next 0) x
      (h.useCount x + 1)) {F' : List ℕ} (hF' : F'.Perm ((h.next + 1) :: F)) (hsize : 0 < size)
    {p : Pointer} (hlo : o.addr ≤ p.addr) (hhi : p.addr + size ≤ o.addr + k) :
    Inv (h₁.create ⟨⟨o.first, o.second + k⟩, some x, m - k⟩) (insertUsed used ⟨p, h.next, size⟩)
      F' G := by
  have hxn : x < h.next :=
    hI.forest.lt_next x (.leaf (mem_leaves.2 (.inr (.inr List.mem_cons_self))))
  have hold : ∀ n < h.next, h₁.node n = h.node n := fun n hn => by
    rw [hnode, h.node_create_of_lt hn]
  have hfirst : h₁.node h.next = ⟨o, some x, k⟩ := by rw [hnode, h.node_create]
  have hlt1 : ∀ n < h.next, n < h₁.next := fun n hn => by omega
  have hnew : h.next < h₁.next := by omega
  have haddr : (Pointer.mk o.first (o.second + k)).addr = o.addr + k := (Nat.add_assoc _ _ _).symm
  have hrx : h.range x = Set.Ico o.addr (o.addr + m) := by rw [Heap.range, hx, Node.range]
  refine hI.split (p := p) ?_ ?_ ?_ ?_ ?_ ?_ ?_ ?_ ?_ ?_ ?_ ?_ hF' hsize ?_
  · show h₁.next + 1 = _
    omega
  · intro n hn
    rw [Heap.parent_create_of_lt (hlt1 n hn), Heap.parent, hold n hn]
    rfl
  · intro n hn
    rw [Heap.range_create_of_lt (hlt1 n hn), Heap.range, hold n hn]
    rfl
  · rw [Heap.parent_create_of_lt hnew, Heap.parent, hfirst]
  · rw [← hnext, Heap.parent_create]
  · rw [Heap.range_create_of_lt hnew, Heap.range, hfirst, hrx]
    exact Set.Ico_subset_Ico_right (Nat.add_le_add_left hk _)
  · rw [← hnext, Heap.range_create, Node.range, haddr, hrx]
    refine Set.Ico_subset_Ico (Nat.le_add_right _ _) ?_
    show _ + (m - k) ≤ _
    omega
  · rw [Heap.range_create_of_lt hnew, ← hnext, Heap.range_create, Heap.range, hfirst, Node.range,
      Node.range, haddr]
    exact Set.Ico_disjoint_Ico_same
  · rw [Heap.useCount_create_of_lt (hlt1 x hxn), huse, Function.update_self]
  · intro n hn hnx
    rw [Heap.useCount_create_of_lt (hlt1 n hn), huse, Function.update_of_ne hnx,
      Function.update_of_ne hn.ne]
  · rw [Heap.useCount_create_of_lt hnew, huse, Function.update_of_ne hxn.ne', Function.update_self]
  · rw [← hnext, Heap.useCount_create]
  · rw [Heap.range_create_of_lt hnew, Heap.range, hfirst]
    exact Set.Ico_subset_Ico hlo hhi

end Inv

/-! ### `getFromFreeList` -/

/-- The aligned block fits where the code looks for it. -/
theorem alignPointer_spec (ha : 0 < align) (origin : Pointer) :
    origin.addr ≤ (alignPointer c align origin).addr ∧
      (alignPointer c align origin).addr + size ≤ origin.addr + realSize c size align origin ∧
      realSize c size align origin ≤ lookupSize c size align := by
  have hle := le_roundUp ha origin.second
  have hlt := roundUp_lt ha origin.second
  unfold realSize lookupSize alignPointer Pointer.addr
  cases needExtraSize c align
  · simp
  · simp only [if_true]
    omega

theorem Inv.getFromFreeList_group {cur : List ℕ} (hI : Inv h used F (cur ++ G)) (ha : 0 < align)
    (hsize : 0 < size) {p : Pointer} {h' : Heap} {used' : List Used} {cur' : List ℕ}
    (hr : getFromFreeList c h used cur size false align = some (p, h', used', cur')) :
    Inv h' used' F (cur' ++ G) := by
  unfold getFromFreeList at hr
  cases hx : cur.find? fun n => lookupSize c size align ≤ h.size n with
  | none => simp [hx] at hr
  | some x =>
    simp only [hx, Bool.not_false, or_true, if_true, Option.some.injEq, Prod.mk.injEq,
      Bool.false_eq_true, if_false] at hr
    obtain ⟨rfl, rfl, rfl, rfl⟩ := hr
    have hfit : lookupSize c size align ≤ h.size x := by simpa using List.find?_some hx
    obtain ⟨hlo, hhi, hreal⟩ := @alignPointer_spec c size align ha (h.node x).pointer
    have hperm : (x :: (cur.erase x ++ G)).Perm (cur ++ G) :=
      ((List.perm_cons_erase (List.mem_of_find?_eq_some hx)).append_right G).symm
    exact (hI.perm_group hperm).use hsize (Set.Ico_subset_Ico hlo (by
      change _ ≤ _ + h.size x
      omega))

theorem Inv.getFromFreeList_main (hI : Inv h used F G) (hc : 0 < c.mAlign) (ha : 0 < align)
    (hsize : 0 < size) {p : Pointer} {h' : Heap} {used' : List Used} {F' : List ℕ}
    (hr : getFromFreeList c h used F size true align = some (p, h', used', F')) :
    Inv h' used' F' G := by
  unfold getFromFreeList at hr
  cases hx : F.find? fun n => lookupSize c size align ≤ h.size n with
  | none => simp [hx] at hr
  | some x =>
    have hxF := List.mem_of_find?_eq_some hx
    have hfit : lookupSize c size align ≤ h.size x := by simpa using List.find?_some hx
    obtain ⟨hlo, hhi, hreal⟩ := @alignPointer_spec c size align ha (h.node x).pointer
    have hpick := hI.pick hxF
    have hkle := le_roundUp hc (realSize c size align (h.node x).pointer)
    simp only [hx, if_true, Bool.not_true, Bool.false_eq_true, or_false] at hr
    split at hr
    · simp only [Option.some.injEq, Prod.mk.injEq] at hr
      obtain ⟨rfl, rfl, rfl, rfl⟩ := hr
      refine hpick.use hsize (Set.Ico_subset_Ico hlo ?_)
      show _ ≤ (h.node x).pointer.addr + h.size x
      omega
    · rename_i hlt
      have hlt := not_le.1 hlt
      simp only [Option.some.injEq, Prod.mk.injEq] at hr
      obtain ⟨rfl, rfl, rfl, rfl⟩ := hr
      have hxn : x < h.next := hI.forest.lt_next x (.leaf (mem_leaves.2 (.inr (.inl hxF))))
      refine hpick.split_create rfl hlt.le ?_ ?_ ?_ (Heap.insert_perm _ _) hsize hlo ?_
      · rfl
      · rfl
      · funext n
        by_cases hn : n = x
        · subst hn
          simp [Heap.addUse, Heap.create, Function.update_of_ne hxn.ne]
        · simp [Heap.addUse, Heap.create, Function.update_of_ne hn, Ne.symm hn]
      · show _ ≤ (h.node x).pointer.addr + _
        omega

end Mnn.Eager
