import Mnn.Core.EagerAccounting

/-!
# The use counts of `EagerBufferAllocator`

* `State.Busy`, `State.Exact`: a node with something in use or in a group below it, and the counts
  that count the children of this kind;
* `lowerings`: the counts that a call lowers, each as it finds it;
* `Fine`: the calls, `mMinAllocSize` as it likes, that do not split a new block for an open group;
* `useCount_exact`: **after such calls every count is exact, and a node takes the place of its
  children only when all of them are in `mFreeList`**;
* `not_useCount_exact`: one call that does split a new block for a group.
-/

namespace Mnn.Eager

open Lib

variable {c : Config} {s t : State} {h : Heap} {used : List Used} {F G : List ℕ} {p x : ℕ}

/-! ### Exact counts -/

/-- The node, or one below it, is in use or in the list of a group. -/
def State.Busy (s : State) (n : ℕ) : Prop :=
  ∃ l, Anc s.heap.parent n l ∧ ((∃ u ∈ s.mUsedList, u.node = l) ∨ l ∈ s.groupNodes)

/-- Every use count is the number of the children that are busy. -/
def State.Exact (s : State) : Prop :=
  ∀ p, s.Alive p →
    s.heap.useCount p = {n | s.Alive n ∧ s.heap.parent n = some p ∧ s.Busy n}.ncard

/-- What is busy is what is not in `mFreeList`. -/
theorem busy_iff (hI : s.Nodes) (hA : s.Accounts) {n : ℕ} (hn : s.Alive n) :
    s.Busy n ↔ n ∉ s.mFreeList := by
  constructor
  · rintro ⟨l, hanc, hl⟩ hnF
    have hlL : l ∈ {n | n ∈ leaves s.mUsedList s.mFreeList s.groupNodes} :=
      mem_leaves.2 (hl.imp id .inr)
    have hnL : n ∈ {n | n ∈ leaves s.mUsedList s.mFreeList s.groupNodes} :=
      mem_leaves.2 (.inr (.inl hnF))
    obtain rfl := hI.forest.eq_of_leaf_anc hnL (.leaf hlL) hanc
    rcases hl with ⟨u, hu, hul⟩ | hl
    · exact hI.not_used (List.mem_append_left _ hnF) u hu hul
    · exact hI.not_mem_main hl hnF
  · intro hnF
    obtain ⟨l, hl, hlF, hanc⟩ := hA.kept.exists_leaf hI.forest hI.counted hn hnF
    refine ⟨l, hanc, ?_⟩
    rcases mem_leaves.1 hl with hu | hF | hG
    · exact .inl hu
    · exact absurd hF hlF
    · exact .inr hG

theorem exact_of_nodes (hI : s.Nodes) (hA : s.Accounts) : s.Exact := by
  intro p hp
  have hcount := hI.counted p hp
  rw [if_neg nofun, Nat.add_zero] at hcount
  rw [hcount]
  refine congrArg Set.ncard (Set.ext fun n => ?_)
  constructor
  · rintro ⟨hn, hpn, hnF⟩
    exact ⟨hn, hpn, (busy_iff hI hA hn).2 hnF⟩
  · rintro ⟨hn, hpn, hbusy⟩
    exact ⟨hn, hpn, (busy_iff hI hA hn).1 hbusy⟩

/-! ### Lowering a count -/

/-- One `useCount -= 1`: the node and its count before, with `mFreeList` and the other nodes that
are referred to at that time. -/
structure Lowering where
  node : ℕ
  before : ℕ
  list : FreeList
  others : List ℕ
  deriving DecidableEq, Repr

/-- The count is positive, and where it falls to zero, so that the node takes the place of its
children, these are all in `mFreeList`. -/
def Lowering.Sound (h : Heap) (l : Lowering) : Prop :=
  0 < l.before ∧ (l.before = 1 → ∀ n, Held h.parent {m | m ∈ l.list ∨ m ∈ l.others} n →
    h.parent n = some l.node → n ∈ l.list)

/-- The counts that `mergeUp` lowers. -/
def mergeLowerings (h : Heap) (others : List ℕ) : ℕ → (ℕ → ℕ) → FreeList → ℕ → List Lowering
  | 0, _, _, _ => []
  | fuel + 1, use, list, p =>
    ⟨p, use p, list, others⟩ ::
      let use := Function.update use p (use p - 1)
      if use p = 0 then
        let list := h.insert (list.filter fun n => h.parent n ≠ some p) p
        match h.parent p with
        | some q => mergeLowerings h others fuel use list q
        | none => []
      else []

/-- The counts that `returnMemory` lowers in `mFreeList`. -/
def returnLowerings (h : Heap) (list : FreeList) (others : List ℕ) (node : ℕ) : List Lowering :=
  match h.parent node with
  | some p => mergeLowerings h others h.next h.useCount (h.insert list node) p
  | none => []

/-- The counts that `returnAll` lowers. -/
def returnAllLowerings (h : Heap) (list : FreeList) (used : List ℕ) : List ℕ → List Lowering
  | [] => []
  | n :: ns =>
    let r := returnMemory h list n true
    returnLowerings h list (used ++ ns) n ++ returnAllLowerings r.1 r.2 used ns

/-- The counts that a call lowers. -/
def lowerings (s : State) : Op → List Lowering
  | .free pointer =>
    match s.mUsedList.find? fun u => u.pointer = pointer with
    | none => []
    | some u =>
      match s.mCurrentFreeList with
      | some _ => []
      | none => returnLowerings s.heap s.mFreeList
          ((s.mUsedList.erase u).map Used.node ++ s.groupNodes) u.node
  | .barrierEnd =>
    returnAllLowerings s.heap s.mFreeList (s.mUsedList.map Used.node) s.mGroups.flatten
  | _ => []

theorem leaves_others (used : List Used) (F G : List ℕ) :
    {m | m ∈ F ∨ m ∈ used.map Used.node ++ G} = {m | m ∈ leaves used F G} := by
  ext m
  simp only [leaves, Set.mem_ofPred_eq, List.mem_append]
  tauto

/-- The merge loop lowers the counts of nodes with busy children. -/
theorem sound_mergeLowerings (fuel : ℕ) {useCount : ℕ → ℕ} (hO : Owing h used F G useCount p) :
    ∀ l ∈ mergeLowerings h (used.map Used.node ++ G) fuel useCount F p, l.Sound h := by
  induction fuel generalizing useCount F p with
  | zero => exact nofun
  | succ fuel ih =>
    have hcount := hO.counted p hO.held
    rw [if_pos rfl] at hcount
    unfold mergeLowerings
    simp only [List.mem_cons, forall_eq_or_imp]
    refine ⟨⟨hcount ▸ Nat.succ_pos _, fun hone n hn hnp => ?_⟩, ?_⟩
    · rw [leaves_others] at hn
      refine hO.children_free ?_ n hn hnp
      rw [Function.update_self]
      exact Nat.sub_eq_zero_of_le hone.le
    · by_cases h0 : Function.update useCount p (useCount p - 1) p = 0
      · simp only [h0, if_true]
        cases hq : h.parent p with
        | none => exact nofun
        | some q => exact ih (hO.up h0 hq)
      · simp only [h0, if_false]
        exact nofun

theorem sound_returnLowerings (hI : Inv h used F (x :: G)) :
    ∀ l ∈ returnLowerings h F (used.map Used.node ++ G) x, l.Sound h := by
  unfold returnLowerings
  cases hp : h.parent x with
  | none => exact nofun
  | some p => exact sound_mergeLowerings h.next (hI.owing hp)

/-- Giving a node back changes counts alone. -/
theorem parent_returnMemory (h : Heap) (list : FreeList) (n : ℕ) :
    (returnMemory h list n true).1.parent = h.parent := by
  unfold returnMemory
  cases h.parent n <;> rfl

theorem sound_returnAllLowerings {ns : List ℕ} (hI : Inv h used F (ns ++ G)) (hG : G = []) :
    ∀ l ∈ returnAllLowerings h F (used.map Used.node) ns, l.Sound h := by
  subst hG
  rw [List.append_nil] at hI
  induction ns generalizing h F with
  | nil => exact nofun
  | cons n ns ih =>
    intro l hl
    rcases List.mem_append.1 hl with hl | hl
    · exact sound_returnLowerings hI l hl
    · have hsound := ih hI.returnMemory l hl
      rwa [Lowering.Sound, parent_returnMemory] at hsound

/-! ### The calls -/

/-- What callers and the underlying allocator keep to, and the condition on a new block: if one is
asked for and is larger than the size, no group is open, and the rounded size lies inside it. -/
def Fine (c : Config) (s : State) : Op → Prop
  | .alloc size separate align fresh => 0 < size ∧ FreshApart c s size fresh ∧
      (asksFresh c s size separate align = true → fresh ≠ none → FreshFits c s size)
  | .free _ => True
  | .barrierBegin => True
  | .barrierEnd => s.mCurrentFreeList = none
  | .beginGroup => True
  | .endGroup => True
  | .release allRelease => allRelease = true → s.groupNodes = []

/-- The allocator, driven by such calls. -/
def useCounter (c : Config) : Machine State Op where
  Allowed := Fine c
  step := step c

/-- **The step lemma.** -/
theorem step_nodes (hc : 0 < c.mAlign) (s : State) (op : Op) (hs : s.Nodes ∧ s.Accounts)
    (ho : Fine c s op) : (step c s op).Nodes ∧ (step c s op).Accounts := by
  obtain ⟨hI, hA⟩ := hs
  cases op with
  | alloc size separate align fresh =>
    obtain ⟨hsize, hd, hfits⟩ := ho
    exact ⟨alloc_nodes hc hI hsize separate hd hfits, alloc_acc hc hI hA hsize separate hd hfits⟩
  | free p => exact ⟨free_nodes hI p, free_acc hI hA p⟩
  | barrierBegin => exact ⟨hI, hA⟩
  | barrierEnd => exact ⟨barrierEnd_nodes hI ho, barrierEnd_acc hI hA ho⟩
  | beginGroup => exact ⟨beginGroup_nodes hI, groups_acc hA (some []) rfl⟩
  | endGroup => exact ⟨endGroup_nodes hI, groups_acc hA none rfl⟩
  | release allRelease => exact ⟨release_nodes hI ho, release_acc hI hA ho⟩

theorem sound_lowerings (hI : s.Nodes) {op : Op} (ho : Fine c s op) :
    ∀ l ∈ lowerings s op, l.Sound s.heap := by
  cases op with
  | free p =>
    intro l hl
    simp only [lowerings] at hl
    cases hu : s.mUsedList.find? fun u => u.pointer = p with
    | none =>
      rw [hu] at hl
      exact absurd hl List.not_mem_nil
    | some u =>
      rw [hu] at hl
      cases hcur : s.mCurrentFreeList with
      | some current =>
        rw [hcur] at hl
        exact absurd hl List.not_mem_nil
      | none =>
        rw [hcur] at hl
        exact sound_returnLowerings (Inv.unuse hI (List.mem_of_find?_eq_some hu)) l hl
  | barrierEnd =>
    have hcur : s.mCurrentFreeList = none := ho
    rw [State.Nodes, State.groupNodes, hcur] at hI
    exact sound_returnAllLowerings (G := []) (by simpa using hI) rfl
  | _ =>
    intro l hl
    exact absurd hl List.not_mem_nil

/-- **The use counts.**  In every state that such calls reach, each count is the number of children
in use or in a group, and the next call lowers positive counts only and lets a node take the place
of its children only when they are all in `mFreeList`. -/
theorem useCount_exact (hc : 0 < c.mAlign) {ops : List Op}
    (hrun : Run (useCounter c) .init ops t) :
    t.Exact ∧ ∀ op, Fine c t op → ∀ l ∈ lowerings t op, l.Sound t.heap := by
  have hinit : State.init.Nodes ∧ State.init.Accounts :=
    ⟨(init_inv c).inv, (init_acc c).accounts⟩
  obtain ⟨hI, hA⟩ := hrun.invariant (step_nodes hc) hinit
  exact ⟨exact_of_nodes hI hA, fun op ho => sound_lowerings hI ho⟩

/-- With a minimal size: a block is split outside groups, and its rest serves a group. -/
theorem useCount_exact_rest :
    let ops : List Op := [.alloc 100 false 0 (some ⟨4096, 0⟩), .barrierBegin, .beginGroup,
      .alloc 20 false 0 none, .free ⟨4096, 128⟩, .endGroup, .barrierEnd]
    let t := ops.foldl (step ⟨64, 1024⟩) .init
    t.mFreeList = [2] ∧ t.Exact ∧ ∀ l ∈ lowerings t (.free ⟨4096, 0⟩), l.Sound t.heap := by
  intro ops t
  have hfirst : Fine ⟨64, 1024⟩ .init (.alloc 100 false 0 (some ⟨4096, 0⟩)) :=
    ⟨by decide, fun _ _ r hr => absurd hr.1 (not_held_nil _ r), fun _ _ _ => ⟨rfl, by decide⟩⟩
  have hrun : Run (useCounter ⟨64, 1024⟩) .init ops t :=
    .cons hfirst (.cons trivial (.cons trivial (.cons ⟨by decide, nofun, fun _ h => absurd rfl h⟩
      (.cons trivial (.cons trivial (.cons rfl (.nil _)))))))
  obtain ⟨hexact, hsound⟩ := useCount_exact (by decide) hrun
  exact ⟨by decide, hexact, hsound (.free ⟨4096, 0⟩) trivial⟩

/-- A new block split for a group counts one of its two busy children.  When the other one comes
back the block takes the place of both, the one in use included, whose count then falls below
zero. -/
theorem not_useCount_exact :
    let s := [Op.barrierBegin, .beginGroup, .alloc 100 false 0 (some ⟨4096, 0⟩)].foldl
      (step ⟨64, 1024⟩) .init
    let t := [Op.endGroup, .barrierEnd].foldl (step ⟨64, 1024⟩) s
    ¬ s.Exact ∧ ¬ (∀ l ∈ lowerings (endGroup s) .barrierEnd, l.Sound s.heap) ∧
      t.mFreeList = [0] ∧ t.mUsedList.map Used.pointer = [⟨4096, 0⟩] ∧
      (lowerings t (.free ⟨4096, 0⟩)).map Lowering.before = [0] := by
  intro s t
  refine ⟨fun hexact => ?_, fun hsound => ?_, by decide, by decide, by decide⟩
  · have hfirst : (1 : ℕ) ∈ leaves s.mUsedList s.mFreeList s.groupNodes := by decide
    have hsecond : (2 : ℕ) ∈ leaves s.mUsedList s.mFreeList s.groupNodes := by decide
    have hone := hexact 0 (.up (.leaf hfirst) rfl)
    obtain ⟨a, ha⟩ := Set.ncard_eq_one.1 (hone.symm.trans (by decide))
    have h₁ : (1 : ℕ) ∈ ({a} : Set ℕ) :=
      ha ▸ ⟨.leaf hfirst, rfl, 1, .refl, .inl (by decide)⟩
    have h₂ : (2 : ℕ) ∈ ({a} : Set ℕ) :=
      ha ▸ ⟨.leaf hsecond, rfl, 2, .refl, .inr (by decide)⟩
    exact absurd (h₁.trans h₂.symm) (by decide)
  · have hl : (⟨0, 1, [2], [1]⟩ : Lowering) ∈ lowerings (endGroup s) .barrierEnd := by decide
    exact absurd ((hsound _ hl).2 rfl 1 (.leaf (.inr (by decide))) rfl) (by decide)

end Mnn.Eager
