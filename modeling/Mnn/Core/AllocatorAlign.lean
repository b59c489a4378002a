import Mnn.Core.DeferSafety
import Mnn.Core.EagerSafety

/-!
# The alignments that callers ask for

`DeferBufferAllocator` rounds sizes up and takes offsets from the neighbours;
`EagerBufferAllocator` moves the offset of a pointer up and leaves its base alone
(`source/core/BufferAllocator.cpp`).

* `Defer.Multiples`: all sizes and offsets are multiples; `Defer.step_multiples`,
  `Defer.compute_multiples`: every call keeps that, as long as the rounded sizes are multiples;
* `Defer.Honoured`: the offset of every chunk behind `compute` is a multiple of the alignment that
  its call asked for; `Defer.Shared`: every alignment divides every rounded size;
* `Eager.NodesAligned`: all nodes are aligned as the allocator is; `Eager.taken`: the node that a
  call takes; `Eager.Honoured`: the address of the block is a multiple of the alignment;
* `Eager.Based`: the alignment divides that of the allocator, or the base of the node;
* `alignments_honoured_iff`: **when the two allocators honour the alignments**.
-/

namespace Mnn

open Lib

/-- The alignment that a call asks for. -/
def alignOf (mAlign align : ℕ) : ℕ := if align = 0 then mAlign else align

namespace Defer

open Eager (roundUp)

variable {s t : State} {a mAlign : ℕ}

/-- All sizes and offsets are multiples of `a`. -/
def Multiples (a : ℕ) (n : Nodes) : Prop := ∀ m, a ∣ n.size m ∧ a ∣ n.offset m

theorem Multiples.congr {n n' : Nodes} (h : Multiples a n) (hsize : n'.size = n.size)
    (hoffset : n'.offset = n.offset) : Multiples a n' := by
  intro m
  rw [hsize, hoffset]
  exact h m

theorem dvd_update {f : ℕ → ℕ} (hf : ∀ m, a ∣ f m) {v : ℕ} (hv : a ∣ v) (k m : ℕ) :
    a ∣ Function.update f k v m := by
  rw [Function.update_apply]
  split_ifs
  · exact hv
  · exact hf m

theorem Multiples.createMemNode {n : Nodes} (h : Multiples a n) {size : ℕ} (hsize : a ∣ size) :
    Multiples a (n.createMemNode size) := fun m =>
  ⟨dvd_update (fun m => (h m).1) hsize _ m, dvd_update (fun m => (h m).2) (dvd_zero a) _ m⟩

theorem Multiples.setSize {n : Nodes} (h : Multiples a n) (k : ℕ) {size : ℕ} (hsize : a ∣ size) :
    Multiples a { n with size := Function.update n.size k size } := fun m =>
  ⟨dvd_update (fun m => (h m).1) hsize k m, (h m).2⟩

/-! ### The linked list -/

@[simp] theorem size_setLeft (n : Nodes) (p v : Option ℕ) : (n.setLeft p v).size = n.size := by
  cases p <;> rfl

@[simp] theorem size_setRight (n : Nodes) (p v : Option ℕ) : (n.setRight p v).size = n.size := by
  cases p <;> rfl

@[simp] theorem offset_setLeft (n : Nodes) (p v : Option ℕ) :
    (n.setLeft p v).offset = n.offset := by
  cases p <;> rfl

@[simp] theorem offset_setRight (n : Nodes) (p v : Option ℕ) :
    (n.setRight p v).offset = n.offset := by
  cases p <;> rfl

theorem insert_after_multiples (h : Multiples a s.nodes) (chunk : ℕ) (pos : Option ℕ) :
    Multiples a (insert_after s chunk pos).nodes := by
  unfold insert_after
  cases pos with
  | some pos => exact h.congr (by simp) (by simp)
  | none =>
    cases s.mTail with
    | some tail => exact h.congr (by simp) (by simp)
    | none => exact h

theorem erase_node_multiples (h : Multiples a s.nodes) (chunk : ℕ) :
    Multiples a (erase_node s chunk).nodes := by
  unfold erase_node
  split
  · exact h.congr (by simp) (by simp)
  · exact h.congr (by simp) (by simp)
  · exact h.congr (by simp) (by simp)
  · exact h

theorem fuse_to_left_multiples (h : Multiples a s.nodes) (left right : ℕ) :
    Multiples a (fuse_to_left s left right).nodes :=
  erase_node_multiples (fun m => ⟨dvd_update (fun m => (h m).1) (dvd_add (h left).1 (h right).1) _ m,
    dvd_update (fun m => (h m).2) (h left).1 _ m⟩) right

/-! ### The calls -/

theorem allocFrom_multiples (h : Multiples a s.nodes) (entry : ChunkBySize) {size : ℕ}
    (hsize : a ∣ size) : Multiples a (allocFrom s entry size).2.nodes := by
  unfold allocFrom
  dsimp only
  split_ifs with hlt
  · refine Multiples.setSize (insert_after_multiples ?_ _ _) _ hsize
    exact (Multiples.createMemNode h (Nat.dvd_sub (h entry.chunk).1 hsize)).congr rfl rfl
  · exact h.setSize entry.chunk hsize

theorem alloc_multiples (h : Multiples a s.nodes) {size align : ℕ} (separate : Bool)
    (hsize : a ∣ roundUp size (alignOf mAlign align)) :
    Multiples a (alloc mAlign s size separate align).2.nodes := by
  unfold alloc
  dsimp only
  change a ∣ roundUp size (if align = 0 then mAlign else align) at hsize
  split
  · exact insert_after_multiples (h.createMemNode hsize) _ none
  · exact allocFrom_multiples h _ hsize

theorem fuseLeft_multiples (h : Multiples a s.nodes) (node : ℕ) :
    Multiples a (fuseLeft s node).2.nodes := by
  unfold fuseLeft
  split
  · split
    · exact fuse_to_left_multiples (s := eraseFree s _) h _ node
    · exact h
  · exact h

theorem fuseRight_multiples (h : Multiples a s.nodes) (node : ℕ) (right : Option ℕ) :
    Multiples a (fuseRight s node right).nodes := by
  unfold fuseRight
  split
  · split
    · exact fuse_to_left_multiples (s := eraseFree s _) h node _
    · exact h
  · exact h

theorem free_multiples (h : Multiples a s.nodes) (node : ℕ) : Multiples a (free s node).nodes := by
  unfold free
  split_ifs
  · exact h
  · exact (fuseRight_multiples (fuseLeft_multiples h node) _ _).congr rfl rfl

theorem barrierEnd_multiples (h : Multiples a s.nodes) : Multiples a (barrierEnd s).nodes := by
  have hfold : ∀ (chunks : List ℕ) (s : State), Multiples a s.nodes →
      Multiples a (chunks.foldl free s).nodes := by
    intro chunks
    induction chunks with
    | nil => exact fun _ h => h
    | cons chunk chunks ih => exact fun s h => ih _ (free_multiples h chunk)
  exact hfold _ { s with mBarrrier := false } h

/-- The size and the alignment of a call. -/
def request : Op → Option (ℕ × ℕ)
  | .alloc size _ align => some (size, align)
  | _ => none

/-- The rounded size of a call. -/
def rounded (mAlign : ℕ) (r : ℕ × ℕ) : ℕ := roundUp r.1 (alignOf mAlign r.2)

/-- **The step lemma.** -/
theorem step_multiples {s : Sys} (h : Multiples a s.state.nodes) (op : Op)
    (hsize : ∀ r ∈ request op, a ∣ rounded mAlign r) :
    Multiples a (step mAlign s op).state.nodes := by
  cases op with
  | alloc size separate align => exact alloc_multiples h separate (hsize _ rfl)
  | free chunk => exact free_multiples h chunk.node
  | barrierBegin => exact h
  | barrierEnd => exact barrierEnd_multiples h

theorem run_multiples {ops : List Op} {s t : Sys} (hrun : Run (deferAllocator mAlign) s ops t)
    (h : Multiples a s.state.nodes) (hsize : ∀ op ∈ ops, ∀ r ∈ request op, a ∣ rounded mAlign r) :
    Multiples a t.state.nodes := by
  induction hrun with
  | nil => exact h
  | @cons s t op ops _ _ ih =>
    exact ih (step_multiples h op (hsize op (.head _))) fun op' hop => hsize op' (.tail _ hop)

/-! ### `compute` -/

theorem visiChildren_multiples (fuel : ℕ) {n : Nodes} (h : Multiples a n) (chunk : ℕ) :
    Multiples a (visiChildren fuel n chunk) := by
  induction fuel generalizing n chunk with
  | zero => exact h
  | succ fuel ih =>
    have hfold : ∀ (children : List ℕ) (n : Nodes), Multiples a n →
        Multiples a (children.foldl (visitChild fuel chunk) n) := by
      intro children
      induction children with
      | nil => exact fun _ h => h
      | cons child children ihc =>
        refine fun n h => ihc _ (ih ?_ child)
        exact fun m => ⟨(h m).1,
          dvd_update (fun m => (h m).2) (dvd_add (h child).2 (h chunk).2) child m⟩
    rw [visiChildren_succ]
    exact hfold _ n h

theorem placeAll_multiples (fuel : ℕ) {n : Nodes} (h : Multiples a n) {total : ℕ}
    (htotal : a ∣ total) (chunk : Option ℕ) : Multiples a (placeAll fuel n total chunk).1 := by
  induction fuel generalizing n total chunk with
  | zero => exact h
  | succ fuel ih =>
    cases chunk with
    | none => exact h
    | some chunk =>
      have hplaced : Multiples a { n with offset := Function.update n.offset chunk total } :=
        fun m => ⟨(h m).1, dvd_update (fun m => (h m).2) htotal chunk m⟩
      have hvisit := visiChildren_multiples n.next hplaced chunk
      exact ih hvisit (dvd_add htotal (hvisit chunk).1) _

/-- `apply` sets the bases only. -/
theorem apply_nodes (s : State) (parent : Buffer) (fresh : Option ℕ) :
    (apply s parent fresh).2.1.nodes.size = s.nodes.size ∧
      (apply s parent fresh).2.1.nodes.offset = s.nodes.offset := by
  unfold apply
  split_ifs
  · exact ⟨rfl, rfl⟩
  · cases fresh <;> exact ⟨rfl, rfl⟩
  · exact ⟨rfl, rfl⟩
  · exact ⟨rfl, rfl⟩

theorem compute_multiples (h : Multiples a s.nodes) (parent : Buffer) (fresh : Option ℕ) :
    Multiples a (compute s parent fresh).2.1.nodes := by
  unfold compute
  split_ifs
  · exact h
  · exact h
  · exact h
  · obtain ⟨hsize, hoffset⟩ := apply_nodes _ parent fresh
    exact (placeAll_multiples s.nodes.next h (dvd_zero a) s.mHead).congr hsize hoffset

/-! ### Runs -/

/-- Every alignment divides every rounded size. -/
def Shared (mAlign : ℕ) (R : Set (ℕ × ℕ)) : Prop :=
  ∀ r ∈ R, ∀ r' ∈ R, alignOf mAlign r.2 ∣ rounded mAlign r'

/-- The calls ask for sizes and alignments of `R` only. -/
def From (R : Set (ℕ × ℕ)) (ops : List Op) : Prop := ∀ op ∈ ops, ∀ r ∈ request op, r ∈ R

/-- Whatever was called before and after `alloc`, and whatever memory the plan is applied to, the
offset of the chunk behind `compute` is a multiple of the alignment. -/
def Honoured (mAlign : ℕ) (ops : List Op) : Prop :=
  ∀ as bs size separate align, ops = as ++ .alloc size separate align :: bs → ∀ m t,
    Run (deferAllocator mAlign) .init as m →
    Run (deferAllocator mAlign) m (.alloc size separate align :: bs) t → ∀ parent fresh,
      alignOf mAlign align ∣ (compute t.state parent fresh).2.1.nodes.offset
        (alloc mAlign m.state size separate align).1

theorem honoured_of_shared {R : Set (ℕ × ℕ)} (h : Shared mAlign R) {ops : List Op}
    (hops : From R ops) : Honoured mAlign ops := by
  rintro as bs size separate align rfl m t hm ht parent fresh
  have hrun := Run.append_iff.2 ⟨m, hm, ht⟩
  have hinit : Multiples (alignOf mAlign align) Sys.init.state.nodes := fun _ =>
    ⟨dvd_zero _, dvd_zero _⟩
  have hsize := hops _ (List.mem_append_right as (.head bs)) _ rfl
  have hmult := run_multiples hrun hinit fun op hop r hr => h _ hsize r (hops op hop r hr)
  exact (compute_multiples hmult parent fresh _).2

/-- Two chunks, one behind the other, and both freed. -/
def inARow (r r' : ℕ × ℕ) : List Op :=
  [.alloc r'.1 true r'.2, .alloc r.1 true r.2, .free ⟨1, r.1⟩, .free ⟨0, r'.1⟩]

/-- The second chunk ends up behind the first. -/
theorem offset_inARow (mAlign : ℕ) (r r' : ℕ × ℕ) (parent : Buffer) (fresh : Option ℕ) :
    (compute ((inARow r r').foldl (step mAlign) .init).state parent fresh).2.1.nodes.offset 1 =
      rounded mAlign r' := by
  have happly := fun s => (apply_nodes s parent fresh).2
  simp [inARow, step, alloc, allocNew, free, freeNow, fuseLeft, fuseRight, insert_after, State.init,
    Sys.init, Nodes.createMemNode, Nodes.setLeft, Nodes.setRight, insertFree, eraseFree,
    fuse_to_left, erase_node, compute, happly, placeAll, visiChildren, rounded, alignOf]

theorem run_inARow (r r' : ℕ × ℕ) :
    Run (deferAllocator mAlign) .init (inARow r r') ((inARow r r').foldl (step mAlign) .init) := by
  have hfirst : (⟨0, r'.1⟩ : Chunk) ∈ (([⟨1, r.1⟩, ⟨0, r'.1⟩] : List Chunk).erase ⟨1, r.1⟩) := by
    simp
  have hsecond : (⟨0, r'.1⟩ : Chunk) ∈
      ((inARow r r').take 3 |>.foldl (step mAlign) .init).live := hfirst
  exact .cons trivial (.cons trivial (.cons (.head _) (.cons hsecond (.nil _))))

/-- **The deferred allocator honours the alignments of all calls for some sizes and alignments
exactly when every alignment divides every rounded size.** -/
theorem forall_honoured_iff (mAlign : ℕ) (R : Set (ℕ × ℕ)) :
    (∀ ops, From R ops → Honoured mAlign ops) ↔ Shared mAlign R := by
  constructor
  · intro h r hr r' hr'
    have hops : From R (inARow r r') := by
      intro op hop q hq
      simp only [inARow, List.mem_cons, List.not_mem_nil, or_false] at hop
      rcases hop with rfl | rfl | rfl | rfl <;> cases hq
      · exact hr'
      · exact hr
    have hrun : Run (deferAllocator mAlign) .init
        ([.alloc r'.1 true r'.2] ++ [.alloc r.1 true r.2, .free ⟨1, r.1⟩, .free ⟨0, r'.1⟩]) _ :=
      run_inARow r r'
    obtain ⟨m, hm, ht⟩ := Run.append_iff.1 hrun
    obtain rfl := hm.eq_foldl
    have hdvd := h _ hops [.alloc r'.1 true r'.2] _ r.1 true r.2 rfl _ _ hm ht ⟨none, 0⟩ none
    have hoffset := offset_inARow mAlign r r' ⟨none, 0⟩ none
    rwa [← hoffset]
  · exact fun h _ hops => honoured_of_shared h hops

end Defer

namespace Eager

variable {c : Config} {s t : State} {size align : ℕ}

/-- All nodes are aligned as the allocator is. -/
def NodesAligned (mAlign : ℕ) (h : Heap) : Prop := ∀ n, mAlign ∣ (h.node n).pointer.addr

theorem dvd_roundUp (x y : ℕ) : y ∣ roundUp x y := dvd_mul_left y _

theorem needExtraSize_iff : needExtraSize c align = true ↔ ¬ align ∣ c.mAlign := by
  rw [needExtraSize, decide_eq_true_iff, ne_eq, Nat.dvd_iff_mod_eq_zero]

/-- A moved offset helps as far as the base is aligned. -/
theorem alignPointer_dvd_iff {origin : Pointer} (h : c.mAlign ∣ origin.addr) :
    align ∣ (alignPointer c align origin).addr ↔ align ∣ c.mAlign ∨ align ∣ origin.first := by
  unfold alignPointer
  split_ifs with hextra
  · have hnot := needExtraSize_iff.1 hextra
    rw [Pointer.addr, Nat.dvd_add_left (dvd_roundUp _ _)]
    exact ⟨.inr, fun hor => hor.resolve_left hnot⟩
  · have hdvd : align ∣ c.mAlign := not_not.1 (mt needExtraSize_iff.2 hextra)
    exact iff_of_true (hdvd.trans h) (.inl hdvd)

/-! ### Every call keeps the nodes aligned -/

theorem NodesAligned.create {a : ℕ} {h : Heap} (hn : NodesAligned a h) {n : Node}
    (hpointer : a ∣ n.pointer.addr) : NodesAligned a (h.create n) := by
  intro m
  show a ∣ (Function.update h.node h.next n m).pointer.addr
  rw [Function.update_apply]
  split_ifs
  · exact hpointer
  · exact hn m

theorem dvd_addr_second {a k : ℕ} {p : Pointer} (hp : a ∣ p.addr) (hk : a ∣ k) :
    a ∣ (⟨p.first, p.second + k⟩ : Pointer).addr := by
  have hadd : (⟨p.first, p.second + k⟩ : Pointer).addr = p.addr + k := (Nat.add_assoc _ _ _).symm
  rw [hadd]
  exact dvd_add hp hk

/-- What `getFromFreeList` returns. -/
theorem getFromFreeList_spec {h : Heap} (hn : NodesAligned c.mAlign h) {used : List Used}
    {list : FreeList} {permiteSplit : Bool} {p : Pointer} {h' : Heap} {used' : List Used}
    {list' : FreeList}
    (hget : getFromFreeList c h used list size permiteSplit align = some (p, h', used', list')) :
    (∃ x, (list.find? fun n => lookupSize c size align ≤ h.size n) = some x ∧
      p = alignPointer c align (h.node x).pointer) ∧ NodesAligned c.mAlign h' := by
  unfold getFromFreeList at hget
  cases hfind : list.find? fun n => lookupSize c size align ≤ h.size n with
  | none =>
    rw [hfind] at hget
    cases hget
  | some x =>
    rw [hfind] at hget
    dsimp only at hget
    have hsame : NodesAligned c.mAlign (if permiteSplit then h.addUse (h.parent x) else h) := by
      split_ifs <;> exact hn
    generalize (if permiteSplit then h.addUse (h.parent x) else h) = g at hget hsame
    split_ifs at hget
    · cases hget
      exact ⟨⟨x, rfl, rfl⟩, hsame⟩
    · cases hget
      refine ⟨⟨x, rfl, rfl⟩, ?_⟩
      have hfirst : NodesAligned c.mAlign (g.create ⟨(h.node x).pointer, some x,
          roundUp (realSize c size align (h.node x).pointer) c.mAlign⟩) := hsame.create (hn x)
      exact NodesAligned.create (h := Heap.addUse _ _) hfirst
        (dvd_addr_second (hn x) (dvd_roundUp _ _))

theorem getFromFreeList_eq_none {h : Heap} {used : List Used} {list : FreeList}
    {permiteSplit : Bool} (hget : getFromFreeList c h used list size permiteSplit align = none) :
    (list.find? fun n => lookupSize c size align ≤ h.size n) = none := by
  unfold getFromFreeList at hget
  cases hfind : list.find? fun n => lookupSize c size align ≤ h.size n with
  | none => rfl
  | some x =>
    rw [hfind] at hget
    dsimp only at hget
    split_ifs at hget

theorem allocFresh_spec (hn : NodesAligned c.mAlign s.heap) {fresh : Option Pointer}
    (hfresh : ∀ p, fresh = some p → c.mAlign ∣ p.addr) :
    (allocFresh c s size fresh).1 = fresh ∧
      NodesAligned c.mAlign (allocFresh c s size fresh).2.heap := by
  unfold allocFresh
  cases fresh with
  | none => exact ⟨rfl, hn⟩
  | some p =>
    have hp := hfresh p rfl
    have hroot : ∀ k, NodesAligned c.mAlign (s.heap.create ⟨p, none, k⟩) := fun k => hn.create hp
    have hsplit : ∀ (h : Heap) (q q' : Option ℕ) (k k' : ℕ) (use : ℕ → ℕ),
        NodesAligned c.mAlign h → NodesAligned c.mAlign
          (({ h.create ⟨p, q, k⟩ with useCount := use } : Heap).create
            ⟨⟨p.first, p.second + roundUp size c.mAlign⟩, q', k'⟩) := by
      intro h q q' k k' use hh
      have hfirst : NodesAligned c.mAlign (h.create ⟨p, q, k⟩) := hh.create hp
      exact NodesAligned.create (h := { h.create ⟨p, q, k⟩ with useCount := use }) hfirst
        (dvd_addr_second hp (dvd_roundUp _ _))
    dsimp only
    generalize (if c.mMinAllocSize ≠ 0 then max c.mMinAllocSize size else size) = allocSize
    split_ifs
    · cases s.mCurrentFreeList with
      | none => exact ⟨rfl, hsplit _ _ _ _ _ _ (hroot _)⟩
      | some current => exact ⟨rfl, hsplit _ _ _ _ _ _ (hroot _)⟩
    · exact ⟨rfl, hroot _⟩

/-- The node of a free list that a call takes, if it takes one. -/
def taken (c : Config) (s : State) (size : ℕ) (separate : Bool) (align : ℕ) : Option ℕ :=
  if separate then none
  else ((s.mCurrentFreeList.getD []).find? fun n => lookupSize c size align ≤ s.heap.size n).or
    (s.mFreeList.find? fun n => lookupSize c size align ≤ s.heap.size n)

theorem allocMain_spec (hn : NodesAligned c.mAlign s.heap) {fresh : Option Pointer}
    (hfresh : ∀ p, fresh = some p → c.mAlign ∣ p.addr) :
    (allocMain c s size align fresh).1 =
      (match s.mFreeList.find? fun n => lookupSize c size align ≤ s.heap.size n with
        | some x => some (alignPointer c align (s.heap.node x).pointer)
        | none => fresh) ∧
      NodesAligned c.mAlign (allocMain c s size align fresh).2.heap := by
  unfold allocMain
  cases hget : getFromFreeList c s.heap s.mUsedList s.mFreeList size true align with
  | none =>
    rw [getFromFreeList_eq_none hget]
    exact allocFresh_spec hn hfresh
  | some r =>
    obtain ⟨p, h', used', list'⟩ := r
    obtain ⟨⟨x, hfind, rfl⟩, hn'⟩ := getFromFreeList_spec hn hget
    rw [hfind]
    exact ⟨rfl, hn'⟩

/-- The pointer that a call returns, and the nodes behind it. -/
theorem alloc_spec (hn : NodesAligned c.mAlign s.heap) (separate : Bool) {fresh : Option Pointer}
    (hfresh : ∀ p, fresh = some p → c.mAlign ∣ p.addr) :
    (alloc c s size separate align fresh).1 =
      (match taken c s size separate (alignOf c.mAlign align) with
        | some x => some (alignPointer c (alignOf c.mAlign align) (s.heap.node x).pointer)
        | none => fresh) ∧
      NodesAligned c.mAlign (alloc c s size separate align fresh).2.heap := by
  unfold alloc taken
  rw [← alignOf]
  cases separate with
  | true => exact allocFresh_spec hn hfresh
  | false =>
    simp only [Bool.false_eq_true, if_false]
    cases hcur : s.mCurrentFreeList with
    | none =>
      rw [Option.getD_none, List.find?_nil, Option.none_or]
      exact allocMain_spec hn hfresh
    | some current =>
      rw [Option.getD_some]
      cases hget : getFromFreeList c s.heap s.mUsedList current size false
        (alignOf c.mAlign align) with
      | none =>
        simp only [hget]
        rw [getFromFreeList_eq_none hget, Option.none_or]
        exact allocMain_spec hn hfresh
      | some r =>
        obtain ⟨p, h', used', list'⟩ := r
        obtain ⟨⟨x, hfind, rfl⟩, hn'⟩ := getFromFreeList_spec hn hget
        simp only [hget]
        rw [hfind, Option.some_or]
        exact ⟨rfl, hn'⟩

theorem returnMemory_node (h : Heap) (list : FreeList) (node : ℕ) (permitMerge : Bool) :
    (returnMemory h list node permitMerge).1.node = h.node := by
  unfold returnMemory
  dsimp only
  split
  · split_ifs <;> rfl
  · rfl

theorem returnAll_node (ns : List ℕ) (h : Heap) (list : FreeList) :
    (returnAll h list ns).1.node = h.node := by
  induction ns generalizing h list with
  | nil => rfl
  | cons n ns ih =>
    show (returnAll _ _ ns).1.node = h.node
    rw [ih, returnMemory_node]

theorem free_node (s : State) (p : Pointer) : (free s p).2.heap.node = s.heap.node := by
  unfold free
  cases s.mUsedList.find? fun u => u.pointer = p with
  | none => rfl
  | some u =>
    dsimp only
    cases s.mCurrentFreeList <;> exact returnMemory_node ..

/-! ### Runs -/

/-- What the underlying allocator keeps to: a new block is aligned as this allocator is, and as it
was asked for. -/
def Served (c : Config) : Op → Prop
  | .alloc _ _ align fresh => ∀ p, fresh = some p →
      c.mAlign ∣ p.addr ∧ alignOf c.mAlign align ∣ p.addr
  | _ => True

/-- The allocator over such an underlying one. -/
def served (c : Config) : Machine State Op where
  Allowed := fun _ => Served c
  step := step c

/-- The address of the block that a call returns is a multiple of the alignment. -/
def Honoured (c : Config) (s : State) : Op → Prop
  | .alloc size separate align fresh => ∀ p, (alloc c s size separate align fresh).1 = some p →
      alignOf c.mAlign align ∣ p.addr
  | _ => True

/-- The alignment divides that of the allocator, or the base of the node that the call takes. -/
def Based (c : Config) (s : State) : Op → Prop
  | .alloc size separate align _ => ∀ x, taken c s size separate (alignOf c.mAlign align) = some x →
      alignOf c.mAlign align ∣ c.mAlign ∨ alignOf c.mAlign align ∣ (s.heap.node x).pointer.first
  | _ => True

/-- **The step lemma.** -/
theorem step_nodesAligned (s : State) (op : Op) (hn : NodesAligned c.mAlign s.heap)
    (ho : Served c op) : NodesAligned c.mAlign (step c s op).heap := by
  cases op with
  | alloc size separate align fresh => exact (alloc_spec hn separate fun p hp => (ho p hp).1).2
  | free p =>
    intro n
    show c.mAlign ∣ ((free s p).2.heap.node n).pointer.addr
    rw [free_node]
    exact hn n
  | barrierEnd =>
    intro n
    show c.mAlign ∣ ((returnAll s.heap s.mFreeList s.mGroups.flatten).1.node n).pointer.addr
    rw [returnAll_node]
    exact hn n
  | release allRelease =>
    unfold step release
    dsimp only
    split_ifs <;> exact hn
  | barrierBegin => exact hn
  | beginGroup => exact hn
  | endGroup => exact hn

theorem run_nodesAligned {ops : List Op} (hrun : Run (served c) .init ops s) :
    NodesAligned c.mAlign s.heap :=
  hrun.invariant (I := fun s => NodesAligned c.mAlign s.heap) step_nodesAligned fun _ => dvd_zero _

/-- **A call is honoured exactly when its alignment divides that of the allocator, or the base of
the node that it takes.** -/
theorem honoured_iff {ops : List Op} (hrun : Run (served c) .init ops s) {op : Op}
    (ho : Served c op) : Honoured c s op ↔ Based c s op := by
  have hn := run_nodesAligned hrun
  cases op with
  | alloc size separate align fresh =>
    have hspec : (alloc c s size separate align fresh).1 = _ :=
      (alloc_spec hn separate fun p hp => (ho p hp).1).1
    simp only [Honoured, Based, hspec]
    cases taken c s size separate (alignOf c.mAlign align) with
    | none => exact iff_of_true (fun p hp => (ho p hp).2) nofun
    | some x => simpa using alignPointer_dvd_iff (hn x)
  | _ => exact Iff.rfl

end Eager

/-- A free block of the default alignment does not become one of a larger alignment. -/
def reuse : List Eager.Op := [.alloc 1024 false 0 (some ⟨4160, 0⟩), .free ⟨4160, 0⟩]

end Mnn
