import Mnn.Core.EagerAllocator

/-!
# `DeferBufferAllocator`

The second allocator of `source/core/BufferAllocator.cpp` plans memory without having any: chunks form
a doubly linked list, free neighbours are fused, and `compute` turns the list into offsets.

* `Nodes`: the `MemNode`s made so far, field by field;
* `insert_after`, `erase_node`, `fuse_to_left`: the list surgery;
* `insertFree`, `eraseFree`, `lowerBound`: the multiset of free nodes;
* `State`, `alloc`, `free`, `barrierBegin`, `barrierEnd`, `compute`, `apply`;
* `Op`, `Sys`, `deferAllocator`: the calls, as a machine that remembers what the callers hold.
-/

namespace Mnn.Defer

open Eager (roundUp)

/-- The `MemNode`s, one function for each field; a node is its number in `mChunks`. -/
structure Nodes where
  size : ℕ → ℕ
  offset : ℕ → ℕ
  usage : ℕ → Bool
  left : ℕ → Option ℕ
  right : ℕ → Option ℕ
  children : ℕ → List ℕ
  base : ℕ → Option ℕ
  next : ℕ

/-- An entry of `mFreeList`: a node and the size it was inserted under. -/
structure ChunkBySize where
  size : ℕ
  chunk : ℕ
  deriving DecidableEq, Repr

/-- `SingleBufferWithAllocator`: the memory the plan is applied to. -/
structure Buffer where
  current : Option ℕ
  currentSize : ℕ

structure State where
  nodes : Nodes
  mHead : Option ℕ
  mTail : Option ℕ
  mFreeList : List ChunkBySize
  mTotalSize : ℕ
  mPtr : Option ℕ
  mBarrrier : Bool
  mBarrrierFreeChunks : List ℕ

/-- The allocator as constructed. -/
def State.init : State where
  nodes := ⟨fun _ => 0, fun _ => 0, fun _ => true, fun _ => none, fun _ => none, fun _ => [],
    fun _ => none, 0⟩
  mHead := none
  mTail := none
  mFreeList := []
  mTotalSize := 0
  mPtr := none
  mBarrrier := false
  mBarrrierFreeChunks := []

inductive ErrorCode
  | NO_ERROR
  | OUT_OF_MEMORY
  | INVALID_VALUE
  deriving DecidableEq, Repr

/-! ### The linked list -/

/-- `DeferBufferAllocator::createMemNode`: the new node is number `next`. -/
def Nodes.createMemNode (n : Nodes) (size : ℕ) : Nodes where
  size := Function.update n.size n.next size
  offset := Function.update n.offset n.next 0
  usage := Function.update n.usage n.next true
  left := Function.update n.left n.next none
  right := Function.update n.right n.next none
  children := Function.update n.children n.next []
  base := Function.update n.base n.next none
  next := n.next + 1

/-- `p->left = v`, when there is a `p`. -/
def Nodes.setLeft (n : Nodes) (p v : Option ℕ) : Nodes :=
  match p with
  | some p => { n with left := Function.update n.left p v }
  | none => n

/-- `p->right = v`, when there is a `p`. -/
def Nodes.setRight (n : Nodes) (p v : Option ℕ) : Nodes :=
  match p with
  | some p => { n with right := Function.update n.right p v }
  | none => n

/-- `DeferBufferAllocator::insert_after(chunk, pos)`. -/
def insert_after (s : State) (chunk : ℕ) (pos : Option ℕ) : State :=
  match pos with
  | some pos =>
    let right := s.nodes.right pos
    let n := s.nodes.setLeft right (some chunk)
    let n := n.setRight (some chunk) right
    let n := n.setLeft (some chunk) (some pos)
    let n := n.setRight (some pos) (some chunk)
    { s with nodes := n, mTail := if some pos = s.mTail then some chunk else s.mTail }
  | none =>
    match s.mTail with
    | some tail =>
      let n := s.nodes.setRight (some tail) (some chunk)
      { s with nodes := n.setLeft (some chunk) (some tail), mTail := some chunk }
    | none => { s with mHead := some chunk, mTail := some chunk }

/-- `DeferBufferAllocator::erase_node`. -/
def erase_node (s : State) (chunk : ℕ) : State :=
  match s.nodes.left chunk, s.nodes.right chunk with
  | some left, some right =>
    let n := s.nodes.setRight (some left) (some right)
    { s with nodes := n.setLeft (some right) (some left) }
  | some left, none => { s with nodes := s.nodes.setRight (some left) none, mTail := some left }
  | none, some right => { s with nodes := s.nodes.setLeft (some right) none, mHead := some right }
  | none, none => { s with mHead := none, mTail := none }

/-- `DeferBufferAllocator::fuse_to_left`; the result is `left`. -/
def fuse_to_left (s : State) (left right : ℕ) : State :=
  let n := s.nodes
  let n := { n with offset := Function.update n.offset right (n.size left) }
  let n := { n with size := Function.update n.size left (n.size left + n.size right) }
  let n := { n with children := Function.update n.children left (n.children left ++ [right]) }
  erase_node { s with nodes := n } right

/-! ### The free list -/

/-- `DeferBufferAllocator::insertFree`: after the entries of the same size. -/
def insertFree (s : State) (chunk : ℕ) : State :=
  { s with mFreeList :=
      s.mFreeList.orderedInsert (fun a b => a.size < b.size) ⟨s.nodes.size chunk, chunk⟩ }

/-- `DeferBufferAllocator::eraseFree`: the entry is looked for among those of the node's size. -/
def eraseFree (s : State) (chunk : ℕ) : State :=
  { s with mFreeList := s.mFreeList.erase ⟨s.nodes.size chunk, chunk⟩ }

/-- The entry `alloc` selects: the first that is large enough, else the largest. -/
def select (list : List ChunkBySize) (size : ℕ) : Option ChunkBySize :=
  match list.find? fun e => size ≤ e.size with
  | some e => some e
  | none => list.getLast?

/-! ### The calls -/

/-- The part of `alloc` that makes a node at the end of the list. -/
def allocNew (s : State) (size : ℕ) : ℕ × State :=
  let newChunk := s.nodes.next
  (newChunk, insert_after { s with nodes := s.nodes.createMemNode size } newChunk none)

/-- The part of `alloc` that takes a free node. -/
def allocFrom (s : State) (entry : ChunkBySize) (size : ℕ) : ℕ × State :=
  let selectChunk := entry.chunk
  let s := { s with mFreeList := s.mFreeList.erase entry }
  let s := { s with nodes :=
    { s.nodes with usage := Function.update s.nodes.usage selectChunk true } }
  let s :=
    if size < s.nodes.size selectChunk then
      -- split `[####]` to `[###]->[#]`
      let restChunk := s.nodes.next
      let n := s.nodes.createMemNode (s.nodes.size selectChunk - size)
      let n := { n with usage := Function.update n.usage restChunk false }
      insertFree (insert_after { s with nodes := n } restChunk (some selectChunk)) restChunk
    else s
  -- equal no change; small expand
  (selectChunk, { s with nodes :=
    { s.nodes with size := Function.update s.nodes.size selectChunk size } })

/-- `DeferBufferAllocator::alloc`: the node of the chunk, and the state after. -/
def alloc (mAlign : ℕ) (s : State) (size : ℕ) (separate : Bool) (align : ℕ) : ℕ × State :=
  let align := if align = 0 then mAlign else align
  let size := roundUp size align
  match if separate then none else select s.mFreeList size with
  | none => allocNew s size
  | some entry => allocFrom s entry size

/-- The part of `free` that looks at the left neighbour; the result is the node that is now free. -/
def fuseLeft (s : State) (node : ℕ) : ℕ × State :=
  match s.nodes.left node with
  | some left =>
    if !s.nodes.usage left then (left, fuse_to_left (eraseFree s left) left node) else (node, s)
  | none => (node, s)

/-- The part of `free` that looks at the right neighbour. -/
def fuseRight (s : State) (node : ℕ) (right : Option ℕ) : State :=
  match right with
  | some right =>
    if !s.nodes.usage right then fuse_to_left (eraseFree s right) node right else s
  | none => s

/-- `DeferBufferAllocator::free` outside a barrier; both neighbours are read first. -/
def freeNow (s : State) (node : ℕ) : State :=
  let right := s.nodes.right node
  let r := fuseLeft s node
  let s := fuseRight r.2 r.1 right
  insertFree { s with nodes := { s.nodes with usage := Function.update s.nodes.usage r.1 false } } r.1

/-- `DeferBufferAllocator::free`. -/
def free (s : State) (node : ℕ) : State :=
  if s.mBarrrier then { s with mBarrrierFreeChunks := s.mBarrrierFreeChunks ++ [node] }
  else freeNow s node

def barrierBegin (s : State) : State := { s with mBarrrier := true }

/-- `DeferBufferAllocator::barrierEnd`. -/
def barrierEnd (s : State) : State :=
  let s' := s.mBarrrierFreeChunks.foldl free { s with mBarrrier := false }
  { s' with mBarrrierFreeChunks := [] }

/-! ### `compute` -/

/-- `DeferBufferAllocator::visiChildren`; a chain of children is no longer than there are nodes. -/
def visiChildren : ℕ → Nodes → ℕ → Nodes
  | 0, n, _ => n
  | fuel + 1, n, chunk =>
    (n.children chunk).foldl (fun n child =>
      visiChildren fuel
        { n with offset := Function.update n.offset child (n.offset child + n.offset chunk) } child) n

/-- The loop of `compute` along `right`; the list is no longer than there are nodes. -/
def placeAll : ℕ → Nodes → ℕ → Option ℕ → Nodes × ℕ
  | 0, n, total, _ => (n, total)
  | _, n, total, none => (n, total)
  | fuel + 1, n, total, some chunk =>
    let n := { n with offset := Function.update n.offset chunk total }
    let n := visiChildren n.next n chunk
    placeAll fuel n (total + n.size chunk) (n.right chunk)

/-- `DeferBufferAllocator::apply`; `fresh` is the memory the root allocator has to offer. -/
def apply (s : State) (parent : Buffer) (fresh : Option ℕ) : ErrorCode × State × Buffer :=
  if s.mFreeList = [] then (.NO_ERROR, s, parent)
  else
    let take (p : Option ℕ) : State :=
      let base n := if n < s.nodes.next then p else s.nodes.base n
      { s with nodes := { s.nodes with base := base }, mPtr := p }
    if parent.currentSize < s.mTotalSize then
      match fresh with
      | none => (.OUT_OF_MEMORY, s, { parent with current := none })
      | some p => (.NO_ERROR, take (some p), ⟨some p, s.mTotalSize⟩)
    else if s.mPtr ≠ parent.current then (.NO_ERROR, take parent.current, parent)
    else (.NO_ERROR, s, parent)

/-- `DeferBufferAllocator::compute`. -/
def compute (s : State) (parent : Buffer) (fresh : Option ℕ) : ErrorCode × State × Buffer :=
  if 0 < s.mTotalSize then (.NO_ERROR, s, parent)
  else if s.mFreeList = [] then (.NO_ERROR, { s with mTotalSize := 0 }, parent)
  else if s.mFreeList.length ≠ 1 ∨ s.mHead ≠ s.mTail then
    (.INVALID_VALUE, { s with mTotalSize := 0 }, parent)
  else
    let r := placeAll s.nodes.next s.nodes 0 s.mHead
    apply { s with nodes := r.1, mTotalSize := r.2 } parent fresh

/-! ### The allocator as a machine -/

/-- A chunk a caller was given: its node and the size that was asked for. -/
structure Chunk where
  node : ℕ
  size : ℕ
  deriving DecidableEq, Repr

inductive Op
  | alloc (size : ℕ) (separate : Bool) (align : ℕ)
  | free (chunk : Chunk)
  | barrierBegin
  | barrierEnd
  deriving Repr

/-- The allocator with the chunks its callers have: `live` ones, and those `freed` inside the barrier,
which are given up at its end. -/
structure Sys where
  state : State
  live : List Chunk
  freed : List Chunk

def Sys.init : Sys := ⟨.init, [], []⟩

/-- The chunks whose memory may still be used. -/
def Sys.held (s : Sys) : List Chunk := s.live ++ s.freed

def step (mAlign : ℕ) (s : Sys) : Op → Sys
  | .alloc size separate align =>
    let r := alloc mAlign s.state size separate align
    { s with state := r.2, live := ⟨r.1, size⟩ :: s.live }
  | .free chunk =>
    { state := free s.state chunk.node
      live := s.live.erase chunk
      freed := if s.state.mBarrrier then s.freed ++ [chunk] else s.freed }
  | .barrierBegin => { s with state := barrierBegin s.state }
  | .barrierEnd => { s with state := barrierEnd s.state, freed := [] }

/-- Every chunk is freed at most once. -/
def Allowed (s : Sys) : Op → Prop
  | .free chunk => chunk ∈ s.live
  | _ => True

def deferAllocator (mAlign : ℕ) : Lib.Machine Sys Op where
  Allowed := Allowed
  step := step mAlign

end Mnn.Defer
