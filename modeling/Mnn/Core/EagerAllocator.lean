import Mathlib.Data.List.Sort
import Mathlib.Tactic
import Mnn.Lib.Run

/-!
# `EagerBufferAllocator`

The pooling allocator of `source/core/BufferAllocator.cpp`.  A block of the underlying allocator
becomes a root node; taking part of a free node splits it into two children, and a node whose
children are all free again takes their place.

* `Heap`, `Heap.create`: the nodes made so far, numbered in the order of creation;
* `getFromFreeList`, `returnMemory`: the two functions that move nodes between lists;
* `State`, `alloc`, `free`, `release`, `barrierEnd`, `beginGroup`, `endGroup`;
* `Op`, `step`, `allocator`: the calls, as a machine.

Sizes and addresses are natural numbers.  A node lives as long as some list, some block in use or
some child refers to it; the destructor of a root returns its block to the underlying allocator.
-/

namespace Mnn.Eager

/-- `std::pair<void*, size_t>`: a base address and an offset. -/
structure Pointer where
  first : ℕ
  second : ℕ
  deriving DecidableEq, Repr

/-- The address a pointer stands for. -/
def Pointer.addr (p : Pointer) : ℕ := p.first + p.second

/-- The fields of a `Node` that never change; its `useCount` is kept by the `Heap`. -/
structure Node where
  pointer : Pointer
  parent : Option ℕ
  size : ℕ
  deriving DecidableEq, Repr

/-- The bytes of a node. -/
def Node.range (n : Node) : Set ℕ := Set.Ico n.pointer.addr (n.pointer.addr + n.size)

/-- The nodes made so far: `next` of them, with their use counts. -/
structure Heap where
  node : ℕ → Node
  useCount : ℕ → ℕ
  next : ℕ

/-- `new Node`: its number is `h.next`, its use count `0`. -/
def Heap.create (h : Heap) (n : Node) : Heap where
  node := Function.update h.node h.next n
  useCount := Function.update h.useCount h.next 0
  next := h.next + 1

def Heap.parent (h : Heap) (n : ℕ) : Option ℕ := (h.node n).parent

def Heap.size (h : Heap) (n : ℕ) : ℕ := (h.node n).size

/-- `parent->useCount += 1`, when there is a parent. -/
def Heap.addUse (h : Heap) (parent : Option ℕ) : Heap :=
  { h with useCount := fun n => h.useCount n + if parent = some n then 1 else 0 }

/-- `FREELIST`: a multimap from sizes to nodes, as the nodes in the order of iteration. -/
abbrev FreeList := List ℕ

/-- `list.insert(std::make_pair(node->size, node))`: after the nodes of the same size. -/
def Heap.insert (h : Heap) (list : FreeList) (n : ℕ) : FreeList :=
  list.orderedInsert (fun a b => h.size a < h.size b) n

/-- An entry of `mUsedList`, with the size the caller asked for. -/
structure Used where
  pointer : Pointer
  node : ℕ
  size : ℕ
  deriving DecidableEq, Repr

/-- The bytes handed to the caller. -/
def Used.range (u : Used) : Set ℕ := Set.Ico u.pointer.addr (u.pointer.addr + u.size)

/-- `mUsedList.insert(std::make_pair(pointer, node))`: an entry that exists is kept. -/
def insertUsed (used : List Used) (u : Used) : List Used :=
  if used.any (fun v => v.pointer = u.pointer) then used else u :: used

/-- `mAlign` and `mMinAllocSize`. -/
structure Config where
  mAlign : ℕ
  mMinAllocSize : ℕ

/-- `UP_DIV(x, y) * y`. -/
def roundUp (x y : ℕ) : ℕ := (x + y - 1) / y * y

theorem le_roundUp {y : ℕ} (hy : 0 < y) (x : ℕ) : x ≤ roundUp x y := by
  have h := Nat.div_add_mod (x + y - 1) y
  have hm := Nat.mod_lt (x + y - 1) hy
  unfold roundUp
  rw [Nat.mul_comm]
  omega

theorem roundUp_lt {y : ℕ} (hy : 0 < y) (x : ℕ) : roundUp x y < x + y := by
  have h := Nat.div_mul_le_self (x + y - 1) y
  unfold roundUp
  omega

/-- Rounding up stays below a multiple. -/
theorem roundUp_le_of_dvd {x y m : ℕ} (hy : 0 < y) (hm : y ∣ m) (hx : x ≤ m) :
    roundUp x y ≤ m := by
  obtain ⟨k, rfl⟩ := hm
  have h := roundUp_lt hy x
  have hlt : (x + y - 1) / y < k + 1 := by
    rw [Nat.div_lt_iff_lt_mul hy, Nat.add_mul, Nat.mul_comm k]
    omega
  unfold roundUp
  rw [Nat.mul_comm y k]
  exact Nat.mul_le_mul_right y (Nat.lt_succ_iff.1 hlt)

structure State where
  heap : Heap
  mUsedList : List Used
  mFreeList : FreeList
  /-- The list of the group that is open; it is also the last of `mGroups`. -/
  mCurrentFreeList : Option FreeList
  /-- The lists of the groups that were closed. -/
  mGroups : List FreeList
  mTotalSize : ℕ

/-- The allocator as constructed. -/
def State.init : State where
  heap := ⟨fun _ => ⟨⟨0, 0⟩, none, 0⟩, fun _ => 0, 0⟩
  mUsedList := []
  mFreeList := []
  mCurrentFreeList := none
  mGroups := []
  mTotalSize := 0

/-! ### Moving nodes -/

/-- `needExtraSize`: the nodes are not aligned as asked. -/
def needExtraSize (c : Config) (align : ℕ) : Bool := c.mAlign % align ≠ 0

/-- `realSize` as it is looked up: enough for any shift of the pointer. -/
def lookupSize (c : Config) (size align : ℕ) : ℕ :=
  if needExtraSize c align then size + align - 1 else size

/-- The pointer of a node, its offset aligned. -/
def alignPointer (c : Config) (align : ℕ) (origin : Pointer) : Pointer :=
  if needExtraSize c align then ⟨origin.first, roundUp origin.second align⟩ else origin

/-- `realSize` of the node that was found: the size and the shift. -/
def realSize (c : Config) (size align : ℕ) (origin : Pointer) : ℕ :=
  if needExtraSize c align then size + (alignPointer c align origin).second - origin.second else size

/-- `EagerBufferAllocator::getFromFreeList`: the pointer, and the heap, used list and free list after
it; `none` when no node is large enough. -/
def getFromFreeList (c : Config) (h : Heap) (used : List Used) (list : FreeList) (size : ℕ)
    (permiteSplit : Bool) (align : ℕ) : Option (Pointer × Heap × List Used × FreeList) :=
  -- the list is ordered by size, so this is `lower_bound`
  match list.find? fun n => lookupSize c size align ≤ h.size n with
  | none => none
  | some x =>
    let origin := (h.node x).pointer
    let pointer := alignPointer c align origin
    let h := if permiteSplit then h.addUse (h.parent x) else h
    let sizeAlign := roundUp (realSize c size align origin) c.mAlign
    if h.size x ≤ sizeAlign ∨ !permiteSplit then
      some (pointer, h, insertUsed used ⟨pointer, x, size⟩, list.erase x)
    else
      let first := h.next
      let h' := h.create ⟨origin, some x, sizeAlign⟩
      let h' := h'.addUse (some x)
      let second := h'.next
      let h' := h'.create ⟨⟨origin.first, origin.second + sizeAlign⟩, some x, h.size x - sizeAlign⟩
      some (pointer, h', insertUsed used ⟨pointer, first, size⟩, h'.insert (list.erase x) second)

/-- The loop of `returnMemory`: `p` lost a busy child, and takes the place of its children when that
was the last one.  The number of nodes bounds the length of the walk. -/
def mergeUp (h : Heap) : ℕ → (ℕ → ℕ) → FreeList → ℕ → (ℕ → ℕ) × FreeList
  | 0, use, list, _ => (use, list)
  | fuel + 1, use, list, p =>
    let use := Function.update use p (use p - 1)
    if use p = 0 then
      let list := h.insert (list.filter fun n => h.parent n ≠ some p) p
      match h.parent p with
      | some q => mergeUp h fuel use list q
      | none => (use, list)
    else (use, list)

/-- `EagerBufferAllocator::returnMemory`. -/
def returnMemory (h : Heap) (list : FreeList) (node : ℕ) (permitMerge : Bool) : Heap × FreeList :=
  let list := h.insert list node
  match h.parent node with
  | some p =>
    if permitMerge then
      let r := mergeUp h h.next h.useCount list p
      ({ h with useCount := r.1 }, r.2)
    else (h, list)
  | none => (h, list)

/-! ### The calls -/

/-- The part of `alloc` that asks the underlying allocator; `fresh` is what `onAlloc` answers. -/
def allocFresh (c : Config) (s : State) (size : ℕ) (fresh : Option Pointer) :
    Option Pointer × State :=
  let allocSize := if c.mMinAllocSize ≠ 0 then max c.mMinAllocSize size else size
  match fresh with
  | none => (none, s)
  | some pointer =>
    let node := s.heap.next
    let h := s.heap.create ⟨pointer, none, allocSize⟩
    let total := s.mTotalSize + allocSize
    if size < allocSize then
      let sizeAlign := roundUp size c.mAlign
      let first := h.next
      let h := h.create ⟨pointer, some node, sizeAlign⟩
      let used := insertUsed s.mUsedList ⟨pointer, first, size⟩
      let h := { h with useCount := Function.update h.useCount node 1 }
      let second := h.next
      let h := h.create
        ⟨⟨pointer.first, pointer.second + sizeAlign⟩, some node, allocSize - sizeAlign⟩
      match s.mCurrentFreeList with
      | some current => (some pointer, { s with
          heap := h, mUsedList := used, mCurrentFreeList := some (h.insert current second),
          mTotalSize := total })
      | none => (some pointer, { s with
          heap := h, mUsedList := used, mFreeList := h.insert s.mFreeList second,
          mTotalSize := total })
    else
      -- `mUsedList[pointer] = node` replaces an entry that exists
      let used := ⟨pointer, node, size⟩ :: s.mUsedList.filter fun v => v.pointer ≠ pointer
      (some pointer, { s with heap := h, mUsedList := used, mTotalSize := total })

/-- The part of `alloc` that looks into `mFreeList`. -/
def allocMain (c : Config) (s : State) (size : ℕ) (align : ℕ) (fresh : Option Pointer) :
    Option Pointer × State :=
  match getFromFreeList c s.heap s.mUsedList s.mFreeList size true align with
  | some (pointer, h, used, list) =>
    (some pointer, { s with heap := h, mUsedList := used, mFreeList := list })
  | none => allocFresh c s size fresh

/-- `EagerBufferAllocator::alloc`: the list of the open group is tried first, without splits, then
`mFreeList`, then the underlying allocator. -/
def alloc (c : Config) (s : State) (size : ℕ) (separate : Bool) (align : ℕ)
    (fresh : Option Pointer) : Option Pointer × State :=
  let align := if align = 0 then c.mAlign else align
  if separate then allocFresh c s size fresh
  else match s.mCurrentFreeList with
    | none => allocMain c s size align fresh
    | some current =>
      match getFromFreeList c s.heap s.mUsedList current size false align with
      | some (pointer, h, used, list) =>
        (some pointer, { s with heap := h, mUsedList := used, mCurrentFreeList := some list })
      | none => allocMain c s size align fresh

/-- `EagerBufferAllocator::free`. -/
def free (s : State) (pointer : Pointer) : Bool × State :=
  match s.mUsedList.find? fun u => u.pointer = pointer with
  | none => (false, s)
  | some u =>
    let used := s.mUsedList.erase u
    match s.mCurrentFreeList with
    | some current =>
      let r := returnMemory s.heap current u.node false
      (true, { s with heap := r.1, mUsedList := used, mCurrentFreeList := some r.2 })
    | none =>
      let r := returnMemory s.heap s.mFreeList u.node true
      (true, { s with heap := r.1, mUsedList := used, mFreeList := r.2 })

/-- `EagerBufferAllocator::release`: all of it, or the roots in `mFreeList`. -/
def release (s : State) (allRelease : Bool) : State :=
  if allRelease then { s with mUsedList := [], mFreeList := [], mTotalSize := 0 }
  else
    { s with
      mFreeList := s.mFreeList.filter fun n => s.heap.parent n ≠ none
      mTotalSize := s.mTotalSize -
        ((s.mFreeList.filter fun n => s.heap.parent n = none).map s.heap.size).sum }

/-- `returnMemory` of one node after the other into `mFreeList`. -/
def returnAll (h : Heap) (list : FreeList) : List ℕ → Heap × FreeList
  | [] => (h, list)
  | n :: ns =>
    let r := returnMemory h list n true
    returnAll r.1 r.2 ns

/-- `EagerBufferAllocator::barrierEnd`. -/
def barrierEnd (s : State) : State :=
  let r := returnAll s.heap s.mFreeList s.mGroups.flatten
  { s with heap := r.1, mFreeList := r.2, mGroups := [] }

/-- `EagerBufferAllocator::beginGroup`. -/
def beginGroup (s : State) : State :=
  { s with mCurrentFreeList := some [], mGroups := s.mGroups ++ s.mCurrentFreeList.toList }

/-- `EagerBufferAllocator::endGroup`. -/
def endGroup (s : State) : State :=
  { s with mCurrentFreeList := none, mGroups := s.mGroups ++ s.mCurrentFreeList.toList }

/-! ### The allocator as a machine -/

/-- The calls.  `fresh` is what the underlying allocator answers in case it is asked. -/
inductive Op
  | alloc (size : ℕ) (separate : Bool) (align : ℕ) (fresh : Option Pointer)
  | free (pointer : Pointer)
  | barrierBegin
  | barrierEnd
  | beginGroup
  | endGroup
  | release (allRelease : Bool)
  deriving Repr

def step (c : Config) (s : State) : Op → State
  | .alloc size separate align fresh => (alloc c s size separate align fresh).2
  | .free pointer => (free s pointer).2
  | .barrierBegin => s
  | .barrierEnd => barrierEnd s
  | .beginGroup => beginGroup s
  | .endGroup => endGroup s
  | .release allRelease => release s allRelease

end Mnn.Eager
