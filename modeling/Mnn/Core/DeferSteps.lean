import Mnn.Core.DeferRoots

/-!
# The calls of `DeferBufferAllocator` on the chunk list

* `Good s rs`: the state represents `rs`, `mFreeList` holds its unused nodes under their sizes, in
  order, and no two neighbours are unused;
* `alloc_good`, `freeNow_good`: the two calls keep it, and only move memory apart.
-/

namespace Mnn.Defer

open Lib Eager

/-- The bytes of a root and the places of everything fused into it. -/
def Root.block (r : Root) : Block ℕ := ⟨r.size, (r.id, 0) :: r.kids.places 0⟩

/-- The list as a row of blocks. -/
def blocks (rs : List Root) : List (Block ℕ) := rs.map Root.block

/-- What `mFreeList` should hold. -/
def freeEntries (rs : List Root) : List ChunkBySize :=
  (rs.filter fun r => !r.used).map fun r => ⟨r.size, r.id⟩

/-- The chunks in use. -/
def usedEntries (rs : List Root) : List Chunk := (rs.filter Root.used).map fun r => ⟨r.id, r.size⟩

/-- Of two neighbours, one is in use. -/
def Apart (x y : Root) : Prop := x.used = true ∨ y.used = true

structure Good (s : State) (rs : List Root) : Prop where
  rep : Rep s.nodes s.mHead s.mTail rs
  free : s.mFreeList.Perm (freeEntries rs)
  sorted : s.mFreeList.Pairwise fun x y => x.size ≤ y.size
  apart : rs.IsChain Apart

variable {s : State} {rs a b : List Root} {x l r : Root} {size : ℕ}

/-! ### Lists -/

@[simp] theorem blocks_append : blocks (a ++ b) = blocks a ++ blocks b := List.map_append

@[simp] theorem blocks_cons : blocks (x :: b) = x.block :: blocks b := rfl

@[simp] theorem freeEntries_append : freeEntries (a ++ b) = freeEntries a ++ freeEntries b := by
  simp [freeEntries]

theorem freeEntries_cons_used (hx : x.used = true) : freeEntries (x :: b) = freeEntries b := by
  simp [freeEntries, hx]

theorem freeEntries_cons_free (hx : x.used = false) :
    freeEntries (x :: b) = ⟨x.size, x.id⟩ :: freeEntries b := by
  simp [freeEntries, hx]

@[simp] theorem usedEntries_append : usedEntries (a ++ b) = usedEntries a ++ usedEntries b := by
  simp [usedEntries]

theorem usedEntries_cons_used (hx : x.used = true) :
    usedEntries (x :: b) = ⟨x.id, x.size⟩ :: usedEntries b := by
  simp [usedEntries, hx]

theorem usedEntries_cons_free (hx : x.used = false) : usedEntries (x :: b) = usedEntries b := by
  simp [usedEntries, hx]

/-- Inserting after the entries of the same size keeps the order. -/
theorem sorted_orderedInsert {list : List ChunkBySize}
    (h : list.Pairwise fun x y => x.size ≤ y.size) (e : ChunkBySize) :
    (list.orderedInsert (fun x y => x.size < y.size) e).Pairwise fun x y => x.size ≤ y.size := by
  induction list with
  | nil => exact List.pairwise_singleton _ _
  | cons y list ih =>
    rw [List.pairwise_cons] at h
    rw [List.orderedInsert_cons]
    split_ifs with hlt
    · rw [List.pairwise_cons, List.pairwise_cons]
      refine ⟨?_, h⟩
      rintro z (_ | ⟨_, hz⟩)
      · exact hlt.le
      · exact hlt.le.trans (h.1 z hz)
    · rw [List.pairwise_cons]
      refine ⟨fun z hz => ?_, ih h.2⟩
      rcases (List.mem_orderedInsert _).1 hz with rfl | hz
      · exact not_lt.1 hlt
      · exact h.1 z hz

theorem isChain_mid : (a ++ x :: b).IsChain Apart ↔ a.IsChain Apart ∧ b.IsChain Apart ∧
    (∀ y ∈ a.getLast?, Apart y x) ∧ ∀ y ∈ b.head?, Apart x y := by
  rw [List.isChain_append, List.isChain_cons]
  simp only [List.head?_cons, Option.mem_some_iff, forall_eq']
  tauto

/-- A used root may stand anywhere. -/
theorem isChain_used (hx : x.used = true) (ha : a.IsChain Apart) (hb : b.IsChain Apart) :
    (a ++ x :: b).IsChain Apart :=
  isChain_mid.2 ⟨ha, hb, fun _ _ => .inr hx, fun _ _ => .inl hx⟩

/-! ### `alloc` -/

/-- The entry `alloc` selects is one of the list, and there is one unless the list is empty. -/
theorem mem_of_select {list : List ChunkBySize} {e : ChunkBySize} (h : select list size = some e) :
    e ∈ list := by
  unfold select at h
  cases hf : list.find? fun e => size ≤ e.size with
  | none =>
    rw [hf] at h
    exact List.mem_of_getLast? h
  | some e' =>
    rw [hf] at h
    cases h
    exact List.mem_of_find?_eq_some hf

/-- A free entry belongs to an unused root. -/
theorem exists_root {e : ChunkBySize} (he : e ∈ freeEntries rs) :
    ∃ a x b, rs = a ++ x :: b ∧ x.used = false ∧ e = ⟨x.size, x.id⟩ := by
  simp only [freeEntries, List.mem_map, List.mem_filter, Bool.not_eq_true'] at he
  obtain ⟨x, ⟨hx, hu⟩, rfl⟩ := he
  obtain ⟨a, b, rfl⟩ := List.append_of_mem hx
  exact ⟨a, x, b, rfl, hu, rfl⟩

theorem allocNew_good (hG : Good s rs) (size : ℕ) :
    Good (allocNew s size).2 (rs ++ [⟨s.nodes.next, size, true, .nil⟩]) := by
  unfold allocNew
  refine ⟨hG.rep.push size rfl, ?_, ?_, isChain_used rfl hG.apart .nil⟩
  · rw [(insert_after_frame _ _ _).2, freeEntries_append, freeEntries_cons_used rfl]
    simpa [freeEntries] using hG.free
  · rw [(insert_after_frame _ _ _).2]
    exact hG.sorted

/-- A free node is taken: the rest of it stays free, or it is enlarged. -/
theorem allocFrom_good (hG : Good s (a ++ x :: b)) (hx : x.used = false) (size : ℕ) :
    Good (allocFrom s ⟨x.size, x.id⟩ size).2
      (a ++ ⟨x.id, size, true, x.kids⟩ ::
        if size < x.size then ⟨s.nodes.next, x.size - size, false, .nil⟩ :: b else b) := by
  have hxs : s.nodes.size x.id = x.size := hG.rep.size_eq x (by simp)
  have hperm : (s.mFreeList.erase ⟨x.size, x.id⟩).Perm (freeEntries a ++ freeEntries b) := by
    have h := hG.free
    rw [freeEntries_append, freeEntries_cons_free hx] at h
    have h' := (h.trans List.perm_middle).erase ⟨x.size, x.id⟩
    rwa [List.erase_cons_head] at h'
  have hsorted : (s.mFreeList.erase ⟨x.size, x.id⟩).Pairwise fun x y => x.size ≤ y.size :=
    hG.sorted.sublist List.erase_sublist
  obtain ⟨ha, hb, -, hxb⟩ := isChain_mid.1 hG.apart
  have huse := hG.rep.setUsage true
  unfold allocFrom
  simp only [hxs]
  split_ifs with hlt
  · have hrest := huse.insertRest (s := { s with
      mFreeList := s.mFreeList.erase ⟨x.size, x.id⟩
      nodes := { s.nodes with usage := Function.update s.nodes.usage x.id true } })
      (x.size - size) rfl
    have hsize := hrest.size_eq ⟨s.nodes.next, x.size - size, false, .nil⟩ (by simp)
    refine ⟨hrest.setSize size, ?_, ?_, ?_⟩
    · rw [freeEntries_append, freeEntries_cons_used rfl, freeEntries_cons_free rfl]
      refine (List.perm_orderedInsert _ _ _).trans ?_
      rw [hsize, (insert_after_frame _ _ _).2]
      exact (hperm.cons _).trans List.perm_middle.symm
    · refine sorted_orderedInsert ?_ _
      rw [(insert_after_frame _ _ _).2]
      exact hsorted
    · refine isChain_used rfl ha (List.isChain_cons.2 ⟨fun y hy => ?_, hb⟩)
      exact .inr ((hxb y hy).resolve_left (by simp [hx]))
  · refine ⟨huse.setSize size, ?_, hsorted, isChain_used rfl ha hb⟩
    rw [freeEntries_append, freeEntries_cons_used rfl]
    exact hperm

/-- `alloc`, with the size rounded up to `k`: the chunk is that large, and nothing moves closer. -/
theorem alloc_good (hG : Good s rs) (mAlign size : ℕ) (separate : Bool) (align : ℕ) :
    ∃ rs', Good (alloc mAlign s size separate align).2 rs' ∧ Moves (blocks rs) (blocks rs') ∧
      (usedEntries rs').Perm (⟨(alloc mAlign s size separate align).1,
        roundUp size (if align = 0 then mAlign else align)⟩ :: usedEntries rs) := by
  unfold alloc
  dsimp only
  generalize roundUp size (if align = 0 then mAlign else align) = k
  cases hsel : if separate then none else select s.mFreeList k with
  | none =>
    dsimp only
    refine ⟨_, allocNew_good hG k, ?_, ?_⟩
    · rw [blocks_append]
      exact .push _ _
    · rw [usedEntries_append]
      exact List.perm_append_comm
  | some e =>
    have hmem : e ∈ s.mFreeList := by
      cases separate with
      | true => cases hsel
      | false => exact mem_of_select hsel
    obtain ⟨a, x, b, rfl, hx, rfl⟩ := exists_root (hG.free.mem_iff.1 hmem)
    dsimp only
    refine ⟨_, allocFrom_good hG hx k, ?_, ?_⟩
    · rw [blocks_append, blocks_append, blocks_cons, blocks_cons]
      refine Moves.append_left _ ?_
      split_ifs with hlt
      · have h := Moves.split k (x.size - k) ((x.id, 0) :: x.kids.places 0) [(s.nodes.next, 0)]
          (blocks b)
        rwa [Nat.add_sub_cancel' hlt.le] at h
      · exact .enlarge (not_lt.1 hlt) _ _
    · have hb : usedEntries (if k < x.size then ⟨s.nodes.next, x.size - k, false, .nil⟩ :: b else b) =
          usedEntries b := by
        split_ifs
        · exact usedEntries_cons_free rfl
        · rfl
      rw [usedEntries_append, usedEntries_cons_used rfl, usedEntries_append,
        usedEntries_cons_free hx, hb]
      exact List.perm_middle

/-! ### `free` -/

/-- The root `x` is on its way to `mFreeList`, between the roots `a` and `b`. -/
structure Freeing (s : State) (a : List Root) (x : Root) (b : List Root) : Prop where
  rep : Rep s.nodes s.mHead s.mTail (a ++ x :: b)
  free : s.mFreeList.Perm (freeEntries a ++ freeEntries b)
  sorted : s.mFreeList.Pairwise fun x y => x.size ≤ y.size
  apart_left : a.IsChain Apart
  apart_right : b.IsChain Apart

theorem Good.freeing (hG : Good s (a ++ x :: b)) (hx : x.used = true) : Freeing s a x b := by
  obtain ⟨ha, hb, -, -⟩ := isChain_mid.1 hG.apart
  refine ⟨hG.rep, ?_, hG.sorted, ha, hb⟩
  have h := hG.free
  rwa [freeEntries_append, freeEntries_cons_used hx] at h

/-- The entry of an unused root is found and erased. -/
theorem eraseFree_perm (hl : l.used = false)
    (hsize : s.nodes.size l.id = l.size)
    (hfree : s.mFreeList.Perm (freeEntries a ++ freeEntries (l :: b))) :
    (eraseFree s l.id).mFreeList.Perm (freeEntries a ++ freeEntries b) := by
  rw [freeEntries_cons_free hl] at hfree
  have h := (hfree.trans List.perm_middle).erase ⟨l.size, l.id⟩
  rw [List.erase_cons_head] at h
  rw [eraseFree, hsize]
  exact h

/-- The root that holds `l` and, behind it, `r`. -/
def Root.fuse (l r : Root) : Root :=
  ⟨l.id, l.size + r.size, l.used, l.kids.append (.cons r.id l.size r.kids .nil)⟩

theorem moves_fuse : Moves (blocks (a ++ l :: r :: b)) (blocks (a ++ l.fuse r :: b)) := by
  have hitems : (l.fuse r).block = ⟨l.size + r.size,
      ((l.id, 0) :: l.kids.places 0) ++ shiftItems l.size ((r.id, 0) :: r.kids.places 0)⟩ := by
    have h := r.kids.places_shift l.size 0
    rw [Nat.add_zero] at h
    simp [Root.block, Root.fuse, Kids.places_append, Kids.places, shiftItems, h]
  rw [blocks_append, blocks_append, blocks_cons, blocks_cons, blocks_cons, hitems]
  exact (Moves.fuse l.size r.size _ _ _).append_left _

theorem fuseLeft_freeing (hF : Freeing s a x b) : ∃ a' y,
    Freeing (fuseLeft s x.id).2 a' y b ∧ (fuseLeft s x.id).1 = y.id ∧
      (∀ z ∈ a'.getLast?, z.used = true) ∧
      Moves (blocks (a ++ x :: b)) (blocks (a' ++ y :: b)) ∧ usedEntries a' = usedEntries a := by
  have hlinks := hF.rep.links
  rw [rootIds_append, rootIds_cons] at hlinks
  unfold fuseLeft
  rw [hlinks.neighbours.1]
  rcases List.eq_nil_or_concat a with rfl | ⟨a, l, rfl⟩
  · exact ⟨[], x, hF, rfl, by simp, .refl _, rfl⟩
  · rw [List.concat_eq_append] at *
    have hl : l ∈ (a ++ [l]) ++ x :: b := by simp
    have hlast : (rootIds (a ++ [l])).getLast? = some l.id := by
      rw [rootIds_append]
      exact List.getLast?_concat ..
    simp only [hlast, hF.rep.usage_eq l hl]
    cases hlu : l.used with
    | true =>
      refine ⟨a ++ [l], x, hF, rfl, ?_, .refl _, rfl⟩
      simpa using hlu
    | false =>
      obtain ⟨ha, -, hal, -⟩ := isChain_mid.1 hF.apart_left
      have hrep := hF.rep
      rw [List.append_assoc] at hrep
      have hfree := hF.free
      rw [freeEntries_append, List.append_assoc] at hfree
      have hfree' : s.mFreeList.Perm (freeEntries a ++ freeEntries (l :: b)) := by
        rw [freeEntries_cons_free hlu]
        rwa [freeEntries_cons_free hlu] at hfree
      have hsize := hF.rep.size_eq l hl
      have hfuse := hrep.fuse (s := eraseFree s l.id) rfl
      refine ⟨a, l.fuse x, ⟨hfuse, ?_, ?_, ha, hF.apart_right⟩, rfl, ?_, ?_, ?_⟩
      · show (fuse_to_left (eraseFree s l.id) l.id x.id).mFreeList.Perm _
        rw [(fuse_to_left_frame _ _ _).2]
        exact eraseFree_perm hlu hsize hfree'
      · show (fuse_to_left (eraseFree s l.id) l.id x.id).mFreeList.Pairwise _
        rw [(fuse_to_left_frame _ _ _).2]
        exact hF.sorted.sublist List.erase_sublist
      · intro z hz
        exact (hal z hz).resolve_right (by simp [hlu])
      · rw [List.append_assoc]
        exact moves_fuse
      · rw [usedEntries_append, usedEntries_cons_free hlu]
        simp [usedEntries]

theorem fuseRight_freeing (hF : Freeing s a x b) : ∃ b' y,
    Freeing (fuseRight s x.id (rootIds b).head?) a y b' ∧ y.id = x.id ∧
      (∀ z ∈ b'.head?, z.used = true) ∧
      Moves (blocks (a ++ x :: b)) (blocks (a ++ y :: b')) ∧ usedEntries b' = usedEntries b := by
  unfold fuseRight
  cases b with
  | nil => exact ⟨[], x, hF, rfl, by simp, .refl _, rfl⟩
  | cons r b =>
    have hr : r ∈ a ++ x :: r :: b := by simp
    simp only [rootIds_cons, List.head?_cons, hF.rep.usage_eq r hr]
    cases hru : r.used with
    | true => exact ⟨r :: b, x, hF, rfl, by simpa using hru, .refl _, rfl⟩
    | false =>
      obtain ⟨hrb, hb⟩ := List.isChain_cons.1 hF.apart_right
      have hfuse := hF.rep.fuse (s := eraseFree s r.id) rfl
      refine ⟨b, x.fuse r, ⟨hfuse, ?_, ?_, hF.apart_left, hb⟩, rfl, ?_, moves_fuse, ?_⟩
      · show (fuse_to_left (eraseFree s r.id) x.id r.id).mFreeList.Perm _
        rw [(fuse_to_left_frame _ _ _).2]
        exact eraseFree_perm hru (hF.rep.size_eq r hr) hF.free
      · show (fuse_to_left (eraseFree s r.id) x.id r.id).mFreeList.Pairwise _
        rw [(fuse_to_left_frame _ _ _).2]
        exact hF.sorted.sublist List.erase_sublist
      · intro z hz
        exact (hrb z hz).resolve_left (by simp [hru])
      · exact (usedEntries_cons_free hru).symm

/-- `free` of a root in use: it is given up with its free neighbours, and nothing moves. -/
theorem freeNow_good (hG : Good s (a ++ x :: b)) (hx : x.used = true) : ∃ rs',
    Good (freeNow s x.id) rs' ∧ Moves (blocks (a ++ x :: b)) (blocks rs') ∧
      usedEntries rs' = usedEntries a ++ usedEntries b := by
  obtain ⟨a', y, hF, hyid, ha', hm, hua⟩ := fuseLeft_freeing (hG.freeing hx)
  obtain ⟨b', z, hF', hzid, hb', hm', hub⟩ := fuseRight_freeing hF
  have hlinks := hG.rep.links
  rw [rootIds_append, rootIds_cons] at hlinks
  have hfree : freeNow s x.id = insertFree
      { fuseRight (fuseLeft s x.id).2 y.id (rootIds b).head? with
        nodes := { (fuseRight (fuseLeft s x.id).2 y.id (rootIds b).head?).nodes with
          usage := Function.update (fuseRight (fuseLeft s x.id).2 y.id (rootIds b).head?).nodes.usage
            z.id false } } z.id := by
    unfold freeNow
    simp only [hlinks.neighbours.2, hyid, hzid]
  have huse := hF'.rep.setUsage false
  have hsize := hF'.rep.size_eq z (by simp)
  rw [hfree]
  refine ⟨a' ++ ⟨z.id, z.size, false, z.kids⟩ :: b', ⟨huse, ?_, ?_, ?_⟩, ?_, ?_⟩
  · rw [freeEntries_append, freeEntries_cons_free rfl]
    refine (List.perm_orderedInsert _ _ _).trans ?_
    dsimp only
    rw [hsize]
    exact (hF'.free.cons _).trans List.perm_middle.symm
  · exact sorted_orderedInsert hF'.sorted _
  · exact isChain_mid.2 ⟨hF'.apart_left, hF'.apart_right, fun w hw => .inl (ha' w hw),
      fun w hw => .inr (hb' w hw)⟩
  · refine hm.trans (hm'.trans ?_)
    rw [blocks_append, blocks_append]
    exact .refl _
  · rw [usedEntries_append, usedEntries_cons_free rfl, hua, hub]

end Mnn.Defer
