import Mnn.Core.DeferSafety

/-!
# `SingleBufferWithAllocator`

Several `DeferBufferAllocator`s plan memory for one buffer, and point their tensors into it when
they apply the plan (`source/core/BufferAllocator.cpp`).  The root allocator may fail at any call.

* `Pool`: the buffer, and the allocations of the root that were not released;
* `Allocator`: an allocator with the tensors attached to its chunks;
* `Op`, `Sharing`, `sharedBuffer`: the calls, as a machine;
* `Serves`: what a call that returns `NO_ERROR` promises;
* `Kept`: what the code needs for it, since the size of a buffer that was lost stays recorded;
* `shared_consistent`: **nothing is released twice, and a run of calls that find what they need
  keeps all promises**.
-/

namespace Mnn.Defer

open Lib

/-! ### The buffer -/

/-- `SingleBufferWithAllocator`, and what the root allocator knows of it: the addresses and sizes
that were not released, and whether something else was. -/
structure Pool where
  buffer : Buffer := ⟨none, 0⟩
  live : List (ℕ × ℕ) := []
  released : Bool := false

namespace Pool

variable (pool : Pool)

/-- `root->onRelease`. -/
def onRelease (p : ℕ) : Pool :=
  if p ∈ pool.live.map Prod.fst then { pool with live := pool.live.eraseP fun q => q.1 = p }
  else { pool with released := true }

/-- The current buffer goes back to the root, if there is one. -/
def onReleaseCurrent : Pool :=
  match pool.buffer.current with
  | some p => pool.onRelease p
  | none => pool

/-- `SingleBufferWithAllocator::release`. -/
def release : Pool :=
  match pool.buffer.current with
  | some p => { pool.onRelease p with buffer := ⟨none, 0⟩ }
  | none => pool

/-- `SingleBufferWithAllocator::realloc`; `fresh` is what the root has to offer. -/
def realloc (size : ℕ) (fresh : Option ℕ) : ErrorCode × Pool :=
  if pool.buffer.currentSize < size then
    let pool := pool.onReleaseCurrent
    match fresh with
    | none => (.OUT_OF_MEMORY, { pool with buffer := { pool.buffer with current := none } })
    | some p => (.NO_ERROR, { pool with buffer := ⟨some p, size⟩, live := (p, size) :: pool.live })
  else (.NO_ERROR, pool)

end Pool

/-! ### Allocators -/

/-- A `DeferBufferAllocator` with the tensors attached to its chunks, and where they point: to a
buffer (the null pointer is none), and how far behind its start. -/
structure Allocator where
  state : State
  tensors : List (Chunk × ℕ)
  host : ℕ → Option (Option ℕ × ℕ)

namespace Allocator

variable (a : Allocator)

/-- The loop of `apply` over the chunks and their tensors. -/
def take (p : Option ℕ) : Allocator where
  state :=
    { a.state with
      nodes := { a.state.nodes with
        base := fun n => if n < a.state.nodes.next then p else a.state.nodes.base n }
      mPtr := p }
  tensors := a.tensors
  host := a.tensors.foldl
    (fun host t => Function.update host t.2 (some (p, a.state.nodes.offset t.1.node))) a.host

/-- `DeferBufferAllocator::apply`. -/
def apply (pool : Pool) (fresh : Option ℕ) : ErrorCode × Allocator × Pool :=
  if a.state.mFreeList = [] then (.NO_ERROR, a, pool)
  else if pool.buffer.currentSize < a.state.mTotalSize then
    let r := pool.realloc a.state.mTotalSize fresh
    if r.1 ≠ .NO_ERROR then (r.1, a, r.2) else (.NO_ERROR, a.take r.2.buffer.current, r.2)
  else if a.state.mPtr ≠ pool.buffer.current then (.NO_ERROR, a.take pool.buffer.current, pool)
  else (.NO_ERROR, a, pool)

/-- `DeferBufferAllocator::compute`. -/
def compute (pool : Pool) (fresh : Option ℕ) : ErrorCode × Allocator × Pool :=
  let s := a.state
  if 0 < s.mTotalSize then (.NO_ERROR, a, pool)
  else if s.mFreeList = [] then (.NO_ERROR, { a with state := { s with mTotalSize := 0 } }, pool)
  else if s.mFreeList.length ≠ 1 ∨ s.mHead ≠ s.mTail then
    (.INVALID_VALUE, { a with state := { s with mTotalSize := 0 } }, pool)
  else
    let r := placeAll s.nodes.next s.nodes 0 s.mHead
    apply { a with state := { s with nodes := r.1, mTotalSize := r.2 } } pool fresh

end Allocator

/-! ### Calls -/

/-- The calls, by any of the allocators. -/
inductive SharedOp (ι : Type*)
  | realloc (size : ℕ) (fresh : Option ℕ)
  | release
  | compute (i : ι) (fresh : Option ℕ)
  | apply (i : ι) (fresh : Option ℕ)

/-- The buffer, the allocators that share it, and what the last call returned. -/
structure Sharing (ι : Type*) where
  pool : Pool
  allocator : ι → Allocator
  code : ErrorCode := .NO_ERROR

section Machine

variable {ι : Type*} [DecidableEq ι]

def Sharing.step (s : Sharing ι) : SharedOp ι → Sharing ι
  | .realloc size fresh =>
    let r := s.pool.realloc size fresh
    { s with code := r.1, pool := r.2 }
  | .release => { s with code := .NO_ERROR, pool := s.pool.release }
  | .compute i fresh =>
    let r := (s.allocator i).compute s.pool fresh
    { code := r.1, allocator := Function.update s.allocator i r.2.1, pool := r.2.2 }
  | .apply i fresh =>
    let r := (s.allocator i).apply s.pool fresh
    { code := r.1, allocator := Function.update s.allocator i r.2.1, pool := r.2.2 }

/-- What the root has to offer in a call. -/
def SharedOp.fresh : SharedOp ι → Option ℕ
  | .realloc _ fresh => fresh
  | .release => none
  | .compute _ fresh => fresh
  | .apply _ fresh => fresh

/-- The root offers no address that it has given away, but for the one it gets back. -/
def Sharing.Allowed (s : Sharing ι) (op : SharedOp ι) : Prop :=
  ∀ p ∈ op.fresh, ∀ q ∈ s.pool.live, q.1 = p → s.pool.buffer.current = some p

/-- The machine. -/
def sharedBuffer (ι : Type*) [DecidableEq ι] : Machine (Sharing ι) (SharedOp ι) where
  Allowed := Sharing.Allowed
  step := Sharing.step

/-- The current buffer is an allocation of the root, of at least that size. -/
def Pool.Holds (pool : Pool) (p size : ℕ) : Prop :=
  pool.buffer.current = some p ∧ ∃ q ∈ pool.live, q.1 = p ∧ size ≤ q.2

/-- The tensors of the allocator point to where their chunks are, inside of the buffer at `p`. -/
def Allocator.PointsInto (a : Allocator) (p size : ℕ) : Prop :=
  ∀ t ∈ a.tensors, ∃ c, (c, t.2) ∈ a.tensors ∧
    a.host t.2 = some (some p, a.state.nodes.offset c.node) ∧
      a.state.nodes.offset c.node + c.size ≤ size

/-- What a call promises that leads to the state. -/
def Serves (s : Sharing ι) : SharedOp ι → Prop
  | .realloc size _ => s.code = .NO_ERROR → ∃ p, s.pool.Holds p size
  | .apply i _ => s.code = .NO_ERROR → ∃ p, s.pool.Holds p (s.allocator i).state.mTotalSize ∧
      (s.allocator i).PointsInto p (s.allocator i).state.mTotalSize
  | _ => True

/-- What a call needs: the recorded size is that of a buffer, or too small; and a plan is applied
after it was made. -/
def Kept (s : Sharing ι) : SharedOp ι → Prop
  | .realloc size _ => s.pool.buffer.current ≠ none ∨ s.pool.buffer.currentSize < size
  | .apply i _ =>
    (0 < (s.allocator i).state.mTotalSize ∨ (s.allocator i).tensors = []) ∧
      (s.pool.buffer.current ≠ none ∨
        s.pool.buffer.currentSize < (s.allocator i).state.mTotalSize)
  | _ => True

/-- The machine, with calls that find what they need. -/
def keptBuffer (ι : Type*) [DecidableEq ι] : Machine (Sharing ι) (SharedOp ι) where
  Allowed s op := s.Allowed op ∧ Kept s op
  step := Sharing.step

/-- An allocator all whose chunks were freed, with tensors attached to chunks while these were in
use. -/
structure Allocator.Planned (mAlign : ℕ) (a : Allocator) (t : Sys) : Prop where
  state : a.state = t.state
  live : t.live = []
  barrier : t.state.mBarrrier = false
  run : ∃ ops, Run (deferAllocator mAlign) .init ops t
  attached : ∀ c ∈ a.tensors, ∃ as bs m, Run (deferAllocator mAlign) .init as m ∧
    Run (deferAllocator mAlign) m bs t ∧ c.1 ∈ m.held

/-- No memory yet, and plans that are not made yet. -/
structure Start (mAlign : ℕ) (s : Sharing ι) : Prop where
  pool : s.pool = {}
  planned : ∀ i, ∃ t, (s.allocator i).Planned mAlign t

end Machine

/-! ### The functions without tensors -/

/-- The rest of `apply` is that of the allocator alone. -/
theorem Allocator.apply_eq (a : Allocator) (pool : Pool) (fresh : Option ℕ) :
    ((a.apply pool fresh).1, (a.apply pool fresh).2.1.state, (a.apply pool fresh).2.2.buffer) =
      Defer.apply a.state pool.buffer fresh := by
  unfold Allocator.apply Defer.apply
  by_cases hfree : a.state.mFreeList = []
  · rw [if_pos hfree, if_pos hfree]
  rw [if_neg hfree, if_neg hfree]
  by_cases hsize : pool.buffer.currentSize < a.state.mTotalSize
  · rw [if_pos hsize, if_pos hsize, Pool.realloc, if_pos hsize]
    have hbuffer : pool.onReleaseCurrent.buffer = pool.buffer := by
      unfold Pool.onReleaseCurrent Pool.onRelease
      split
      · split <;> rfl
      · rfl
    cases fresh with
    | none => rw [← hbuffer]; rfl
    | some p => rfl
  · rw [if_neg hsize, if_neg hsize]
    split <;> rfl

theorem Allocator.compute_eq (a : Allocator) (pool : Pool) (fresh : Option ℕ) :
    ((a.compute pool fresh).1, (a.compute pool fresh).2.1.state,
      (a.compute pool fresh).2.2.buffer) = Defer.compute a.state pool.buffer fresh := by
  unfold Allocator.compute Defer.compute
  dsimp only
  split
  · rfl
  split
  · rfl
  split
  · rfl
  · exact Allocator.apply_eq _ pool fresh

/-! ### Releases -/

/-- The buffer is the only live allocation, and nothing else was released. -/
structure Pool.Ok (pool : Pool) : Prop where
  released : pool.released = false
  live : pool.live = (pool.buffer.current.map fun p => (p, pool.buffer.currentSize)).toList

namespace Pool

variable {pool : Pool}

theorem Ok.onRelease (h : pool.Ok) {p : ℕ} (hp : pool.buffer.current = some p) :
    pool.onRelease p = { pool with live := [] } := by
  have hlive : pool.live = [(p, pool.buffer.currentSize)] := by
    rw [h.live, hp]
    rfl
  have hmem : p ∈ pool.live.map Prod.fst := by
    rw [hlive]
    exact List.mem_singleton_self p
  have herase : ([(p, pool.buffer.currentSize)].eraseP fun q => q.1 = p) = [] :=
    List.eraseP_cons_of_pos (decide_eq_true rfl)
  rw [Pool.onRelease, if_pos hmem, hlive, herase]

theorem Ok.onReleaseCurrent (h : pool.Ok) : pool.onReleaseCurrent = { pool with live := [] } := by
  unfold Pool.onReleaseCurrent
  cases hcurrent : pool.buffer.current with
  | none =>
    have hlive : pool.live = [] := by
      rw [h.live, hcurrent]
      rfl
    show pool = { pool with live := [] }
    rw [← hlive]
  | some p => exact h.onRelease hcurrent

theorem Ok.release (h : pool.Ok) : pool.release.Ok := by
  unfold Pool.release
  cases hcurrent : pool.buffer.current with
  | none => exact h
  | some p =>
    dsimp only
    rw [h.onRelease hcurrent]
    exact ⟨h.released, rfl⟩

theorem Ok.realloc (h : pool.Ok) (size : ℕ) (fresh : Option ℕ) :
    (pool.realloc size fresh).2.Ok := by
  unfold Pool.realloc
  by_cases hsize : pool.buffer.currentSize < size
  · rw [if_pos hsize, h.onReleaseCurrent]
    cases fresh with
    | none => exact ⟨h.released, rfl⟩
    | some p => exact ⟨h.released, rfl⟩
  · rw [if_neg hsize]
    exact h

/-- The buffer that is held is large enough, as far as its size says so. -/
theorem Ok.holds (h : pool.Ok) {p size : ℕ} (hp : pool.buffer.current = some p)
    (hsize : size ≤ pool.buffer.currentSize) : pool.Holds p size := by
  refine ⟨hp, (p, pool.buffer.currentSize), ?_, rfl, hsize⟩
  rw [h.live, hp]
  exact List.mem_singleton_self _

/-- What `realloc` returns: the buffer is large enough, or the root failed. -/
theorem realloc_cases (pool : Pool) (size : ℕ) (fresh : Option ℕ) :
    (pool.realloc size fresh).1 = .OUT_OF_MEMORY ∨
      (pool.realloc size fresh).1 = .NO_ERROR ∧
        size ≤ (pool.realloc size fresh).2.buffer.currentSize ∧
        ((pool.realloc size fresh).2.buffer.current = none ↔
          pool.buffer.current = none ∧ size ≤ pool.buffer.currentSize) := by
  unfold Pool.realloc
  by_cases hsize : pool.buffer.currentSize < size
  · rw [if_pos hsize]
    cases fresh with
    | none => exact .inl rfl
    | some p => exact .inr ⟨rfl, le_rfl, iff_of_false (Option.some_ne_none p) fun h => by omega⟩
  · rw [if_neg hsize]
    exact .inr ⟨rfl, not_lt.1 hsize, (and_iff_left (not_lt.1 hsize)).symm⟩

end Pool

theorem Allocator.ok_apply {pool : Pool} (h : pool.Ok) (a : Allocator) (fresh : Option ℕ) :
    (a.apply pool fresh).2.2.Ok := by
  unfold Allocator.apply
  split
  · exact h
  split
  · dsimp only
    split
    · exact h.realloc _ _
    · exact h.realloc _ _
  split
  · exact h
  · exact h

theorem Allocator.ok_compute {pool : Pool} (h : pool.Ok) (a : Allocator) (fresh : Option ℕ) :
    (a.compute pool fresh).2.2.Ok := by
  unfold Allocator.compute
  dsimp only
  split
  · exact h
  split
  · exact h
  split
  · exact h
  · exact Allocator.ok_apply h _ fresh

section Machine

variable {ι : Type*} [DecidableEq ι] {s : Sharing ι}

theorem ok_step (h : s.pool.Ok) (op : SharedOp ι) : (s.step op).pool.Ok := by
  cases op with
  | realloc size fresh => exact h.realloc size fresh
  | release => exact h.release
  | compute i fresh => exact Allocator.ok_compute h _ fresh
  | apply i fresh => exact Allocator.ok_apply h _ fresh

end Machine

/-! ### Plans -/

namespace Allocator

variable {a : Allocator} {pool : Pool} {mAlign : ℕ}

/-- The tensors point to where their chunks are in the buffer at `p`. -/
def PointsTo (a : Allocator) (p : Option ℕ) : Prop :=
  ∀ t ∈ a.tensors, ∃ c, (c, t.2) ∈ a.tensors ∧
    a.host t.2 = some (p, a.state.nodes.offset c.node)

/-- A plan was made: the chunks are inside of the total, and where tensors point is where the plan
was applied last. -/
structure Placed (a : Allocator) : Prop where
  total : 0 < a.state.mTotalSize
  free : a.state.mFreeList ≠ []
  inside : ∀ t ∈ a.tensors, a.state.nodes.offset t.1.node + t.1.size ≤ a.state.mTotalSize
  points : ∀ p, a.state.mPtr = some p → a.PointsTo (some p)

/-- There is nothing to plan: the only chunk of the list is empty. -/
def Flat (a : Allocator) : Prop :=
  a.state.mTotalSize = 0 ∧ ∃ x, a.state.mHead = some x ∧ a.state.nodes.right x = none ∧
    a.state.nodes.size x = 0

/-- What holds of an allocator all the time. -/
structure Inv (mAlign : ℕ) (a : Allocator) : Prop where
  total : a.state.mFreeList = [] → a.state.mTotalSize = 0
  stage : a.tensors = [] ∨ (∃ t, a.Planned mAlign t ∧ a.state.mPtr = none) ∨ a.Flat ∨ a.Placed

theorem pointsTo_take (a : Allocator) (p : Option ℕ) : (a.take p).PointsTo p := by
  have key : ∀ (l : List (Chunk × ℕ)) (host : ℕ → Option (Option ℕ × ℕ)), ∀ t ∈ l,
      ∃ c, (c, t.2) ∈ l ∧ l.foldl (fun (host : ℕ → Option (Option ℕ × ℕ)) (t : Chunk × ℕ) =>
        Function.update host t.2 (some (p, a.state.nodes.offset t.1.node))) host t.2 =
          some (p, a.state.nodes.offset c.node) := by
    intro l
    induction l using List.reverseRecOn with
    | nil => exact fun _ t ht => absurd ht List.not_mem_nil
    | append_singleton l u ih =>
      intro host t ht
      rw [List.foldl_append, List.foldl_cons, List.foldl_nil]
      by_cases htu : t.2 = u.2
      · refine ⟨u.1, List.mem_append_right l (htu ▸ List.mem_singleton_self u), ?_⟩
        rw [htu, Function.update_self]
      · have ht' : t ∈ l := (List.mem_append.1 ht).resolve_right fun h =>
          htu (congrArg Prod.snd (List.mem_singleton.1 h))
        obtain ⟨c, hc, hhost⟩ := ih host t ht'
        exact ⟨c, List.mem_append_left _ hc, by rw [Function.update_of_ne htu, hhost]⟩
  exact key a.tensors a.host

theorem Placed.take (h : a.Placed) (p : Option ℕ) : (a.take p).Placed where
  total := h.total
  free := h.free
  inside := h.inside
  points q hq := by
    have hp : p = some q := hq
    rw [← hp]
    exact a.pointsTo_take p

/-- `apply` leaves the allocator alone, or points its tensors elsewhere. -/
theorem apply_cases (a : Allocator) (pool : Pool) (fresh : Option ℕ) :
    (a.apply pool fresh).2.1 = a ∨ ∃ p, (a.apply pool fresh).2.1 = a.take p := by
  unfold Allocator.apply
  split
  · exact .inl rfl
  split
  · dsimp only
    split
    · exact .inl rfl
    · exact .inr ⟨_, rfl⟩
  split
  · exact .inr ⟨_, rfl⟩
  · exact .inl rfl

theorem Placed.apply (h : a.Placed) (pool : Pool) (fresh : Option ℕ) :
    (a.apply pool fresh).2.1.Placed := by
  obtain heq | ⟨p, heq⟩ := a.apply_cases pool fresh
  · rwa [heq]
  · rw [heq]
    exact h.take p

theorem Flat.apply (h : a.Flat) (pool : Pool) (fresh : Option ℕ) :
    (a.apply pool fresh).2.1.Flat := by
  obtain heq | ⟨p, heq⟩ := a.apply_cases pool fresh
  · rwa [heq]
  · rw [heq]
    exact h

theorem Planned.exists_root {t : Sys} (h : a.Planned mAlign t) :
    ∃ rs, SysInv mAlign t rs := by
  obtain ⟨ops, hrun⟩ := h.run
  obtain ⟨rs, hI, -⟩ := run_inv hrun (init_inv mAlign)
  exact ⟨rs, hI⟩

/-- The plan that `compute` makes. -/
def plan (a : Allocator) : Allocator :=
  let r := placeAll a.state.nodes.next a.state.nodes 0 a.state.mHead
  { a with state := { a.state with nodes := r.1, mTotalSize := r.2 } }

/-- `compute` makes a plan, or there is none. -/
theorem compute_cases (htotal : a.state.mTotalSize = 0) (pool : Pool) (fresh : Option ℕ) :
    (a.compute pool fresh).2.1 = a ∨ a.state.mFreeList ≠ [] ∧
      a.compute pool fresh = a.plan.apply pool fresh := by
  have hsame : { a with state := { a.state with mTotalSize := 0 } } = a := by rw [← htotal]
  unfold Allocator.compute
  dsimp only
  rw [if_neg (by omega), hsame]
  split
  · exact .inl rfl
  · rename_i hfree
    split
    · exact .inl rfl
    · exact .inr ⟨hfree, rfl⟩

/-- The tree below a chunk gets new offsets, and nothing else changes. -/
theorem visiChildren_offset (fuel : ℕ) (n : Nodes) (chunk : ℕ) :
    ∃ o, visiChildren fuel n chunk = { n with offset := o } := by
  induction fuel generalizing n chunk with
  | zero => exact ⟨n.offset, rfl⟩
  | succ fuel ih =>
    rw [visiChildren]
    generalize n.children chunk = l
    induction l generalizing n with
    | nil => exact ⟨n.offset, rfl⟩
    | cons child l ihl =>
      rw [List.foldl_cons]
      obtain ⟨o, ho⟩ := ih { n with
        offset := Function.update n.offset child (n.offset child + n.offset chunk) } child
      rw [ho]
      exact ihl { n with offset := o }

/-- The plan for a list with one chunk. -/
theorem plan_one {x : ℕ} (hhead : a.state.mHead = some x) (hright : a.state.nodes.right x = none) :
    (∃ o, a.plan.state.nodes = { a.state.nodes with offset := o }) ∧
      (a.plan.state.mTotalSize = 0 ∨ a.plan.state.mTotalSize = a.state.nodes.size x) := by
  have key : ∀ fuel n, n.right x = none →
      (∃ o, (placeAll fuel n 0 (some x)).1 = { n with offset := o }) ∧
        ((placeAll fuel n 0 (some x)).2 = 0 ∨ (placeAll fuel n 0 (some x)).2 = n.size x) := by
    intro fuel n hright
    cases fuel with
    | zero => exact ⟨⟨n.offset, rfl⟩, .inl rfl⟩
    | succ fuel =>
      obtain ⟨o, ho⟩ :=
        visiChildren_offset n.next { n with offset := Function.update n.offset x 0 } x
      have hplace : placeAll (fuel + 1) n 0 (some x) = ({ n with offset := o }, n.size x) := by
        rw [placeAll]
        dsimp only
        rw [ho]
        dsimp only
        rw [hright, placeAll_none, Nat.zero_add]
      rw [hplace]
      exact ⟨⟨o, rfl⟩, .inr rfl⟩
  have hplan := key a.state.nodes.next a.state.nodes hright
  rw [← hhead] at hplan
  exact hplan

/-- A list with one empty chunk has an empty plan. -/
theorem flat_plan {x : ℕ} (hhead : a.state.mHead = some x) (hright : a.state.nodes.right x = none)
    (hsize : a.plan.state.mTotalSize = 0 → a.state.nodes.size x = 0)
    (htotal : a.plan.state.mTotalSize = 0) : a.plan.Flat := by
  obtain ⟨⟨o, ho⟩, -⟩ := plan_one hhead hright
  refine ⟨htotal, x, hhead, ?_, ?_⟩
  · rw [ho]
    exact hright
  · rw [ho]
    exact hsize htotal

theorem Flat.plan (h : a.Flat) : a.plan.Flat := by
  obtain ⟨-, x, hhead, hright, hsize⟩ := h
  obtain ⟨-, htotal⟩ := plan_one hhead hright
  exact flat_plan hhead hright (fun _ => hsize) (htotal.elim id fun h => h.trans hsize)

theorem Flat.compute (h : a.Flat) (pool : Pool) (fresh : Option ℕ) :
    (a.compute pool fresh).2.1.Flat := by
  obtain heq | ⟨-, heq⟩ := compute_cases h.1 pool fresh
  · rwa [heq]
  · rw [heq]
    exact h.plan.apply pool fresh

theorem tensors_apply (a : Allocator) (pool : Pool) (fresh : Option ℕ) :
    (a.apply pool fresh).2.1.tensors = a.tensors := by
  obtain heq | ⟨p, heq⟩ := a.apply_cases pool fresh
  · rw [heq]
  · rw [heq]
    rfl

/-- `compute` after all chunks were freed. -/
theorem Planned.compute {t : Sys} (h : a.Planned mAlign t) (hpos : 0 < mAlign)
    (hptr : a.state.mPtr = none) (pool : Pool) (fresh : Option ℕ) :
    (a.compute pool fresh).2.1 = a ∨ (a.compute pool fresh).2.1.Flat ∨
      (a.compute pool fresh).2.1.Placed := by
  obtain ⟨rs, hI⟩ := h.exists_root
  have hzero : a.state.mTotalSize = 0 := h.state ▸ hI.total
  refine (compute_cases hzero pool fresh).imp_right fun ⟨hfree, hcompute⟩ => ?_
  -- the plan is the one of the allocator alone
  have hstate : (a.plan.apply pool fresh).2.1.state =
      (Defer.compute t.state pool.buffer fresh).2.1 := by
    have heq := a.compute_eq pool fresh
    rw [hcompute, h.state] at heq
    exact congrArg (fun r => r.2.1) heq
  have happly : (a.plan.apply pool fresh).2.1.state =
      (Defer.apply a.plan.state pool.buffer fresh).2.1 :=
    congrArg (fun r => r.2.1) (a.plan.apply_eq pool fresh)
  obtain ⟨-, htotal, hoffset⟩ := apply_frame a.plan.state pool.buffer fresh
  rw [← happly, hstate] at htotal hoffset
  rw [hcompute]
  rcases Nat.eq_zero_or_pos a.plan.state.mTotalSize with hplan | hplan
  · refine .inl (Flat.apply ?_ pool fresh)
    rcases hI.eq_nil_or_singleton h.live h.barrier with rfl | ⟨x, rfl, hlen⟩
    · refine absurd ?_ hfree
      rw [h.state]
      exact List.perm_nil.1 hI.owns.good.free
    · have hrep := hI.owns.good.rep
      rw [← h.state] at hrep
      obtain ⟨-, hsize, -⟩ := compute_spec hI.owns.good.rep hI.total hlen pool.buffer fresh
      refine flat_plan hrep.head_eq hrep.links.2.1 (fun _ => ?_) hplan
      rw [hrep.size_eq x (List.mem_singleton_self x), ← hsize, htotal, hplan]
  · refine .inr (Placed.apply ⟨hplan, hfree, fun c hc => ?_, fun p hp => ?_⟩ pool fresh)
    · obtain ⟨as, bs, m, has, hbs, hheld⟩ := h.attached c hc
      obtain ⟨rs', hI', -⟩ := run_inv has (init_inv mAlign)
      have hinside := held_inside hI' hpos hbs h.live h.barrier pool.buffer fresh c.1 hheld
      rwa [htotal, hoffset] at hinside
    · exact absurd (hptr.symm.trans hp) (Option.some_ne_none p).symm

theorem tensors_compute (a : Allocator) (pool : Pool) (fresh : Option ℕ) :
    (a.compute pool fresh).2.1.tensors = a.tensors := by
  unfold Allocator.compute
  dsimp only
  split
  · rfl
  split
  · rfl
  split
  · rfl
  · exact tensors_apply _ pool fresh

theorem total_apply (a : Allocator) (pool : Pool) (fresh : Option ℕ) :
    (a.apply pool fresh).2.1.state.mTotalSize = a.state.mTotalSize ∧
      (a.apply pool fresh).2.1.state.mFreeList = a.state.mFreeList := by
  obtain heq | ⟨p, heq⟩ := a.apply_cases pool fresh
  · rw [heq]
    exact ⟨rfl, rfl⟩
  · rw [heq]
    exact ⟨rfl, rfl⟩

theorem Inv.compute (h : a.Inv mAlign) (hpos : 0 < mAlign) (pool : Pool) (fresh : Option ℕ) :
    (a.compute pool fresh).2.1.Inv mAlign := by
  rcases Nat.eq_zero_or_pos a.state.mTotalSize with htotal | htotal
  · have hfree : (a.compute pool fresh).2.1.state.mFreeList = [] →
        (a.compute pool fresh).2.1.state.mTotalSize = 0 := by
      obtain heq | ⟨hfree, heq⟩ := compute_cases htotal pool fresh
      · rw [heq]
        exact h.total
      · rw [heq, (a.plan.total_apply pool fresh).2]
        exact fun hnil => absurd hnil hfree
    refine ⟨hfree, ?_⟩
    rcases h.stage with hnil | ⟨t, ht, hptr⟩ | hflat | hplaced
    · exact .inl ((a.tensors_compute pool fresh).trans hnil)
    · rcases ht.compute hpos hptr pool fresh with heq | hflat | hplaced
      · rw [heq]
        exact .inr (.inl ⟨t, ht, hptr⟩)
      · exact .inr (.inr (.inl hflat))
      · exact .inr (.inr (.inr hplaced))
    · exact .inr (.inr (.inl (hflat.compute pool fresh)))
    · exact absurd htotal hplaced.total.ne'
  · have hsame : (a.compute pool fresh).2.1 = a := by
      unfold Allocator.compute
      rw [if_pos htotal]
    rwa [hsame]

/-- A plan was made when there are tensors and a total. -/
theorem Inv.placed (h : a.Inv mAlign) (hplan : 0 < a.state.mTotalSize ∨ a.tensors = [])
    (hne : a.tensors ≠ []) : a.Placed := by
  have htotal := hplan.resolve_right hne
  rcases h.stage with hnil | ⟨t, ht, -⟩ | hflat | hplaced
  · exact absurd hnil hne
  · obtain ⟨rs, hI⟩ := ht.exists_root
    have hzero : a.state.mTotalSize = 0 := ht.state ▸ hI.total
    exact absurd hzero htotal.ne'
  · exact absurd hflat.1 htotal.ne'
  · exact hplaced

/-- `apply` keeps the invariant, unless tensors wait for a plan. -/
theorem Inv.apply (h : a.Inv mAlign) (hplan : 0 < a.state.mTotalSize ∨ a.tensors = [])
    (pool : Pool) (fresh : Option ℕ) : (a.apply pool fresh).2.1.Inv mAlign := by
  obtain ⟨htotal, hfree⟩ := a.total_apply pool fresh
  refine ⟨by rw [htotal, hfree]; exact h.total, ?_⟩
  by_cases hne : a.tensors = []
  · exact .inl ((a.tensors_apply pool fresh).trans hne)
  · exact .inr (.inr (.inr ((h.placed hplan hne).apply pool fresh)))

/-- What `apply` promises, when it finds what it needs. -/
theorem Inv.serves (h : a.Inv mAlign) {pool : Pool} (hpool : pool.Ok)
    (hplan : 0 < a.state.mTotalSize ∨ a.tensors = [])
    (hkept : pool.buffer.current ≠ none ∨ pool.buffer.currentSize < a.state.mTotalSize)
    (fresh : Option ℕ) (hcode : (a.apply pool fresh).1 = .NO_ERROR) :
    ∃ p, (a.apply pool fresh).2.2.Holds p a.state.mTotalSize ∧
      (a.apply pool fresh).2.1.PointsInto p a.state.mTotalSize := by
  have hpoints : ∀ {a' : Allocator} {p}, a'.tensors = a.tensors →
      a'.state.nodes.offset = a.state.nodes.offset → (a.tensors ≠ [] → a'.PointsTo (some p)) →
      a'.PointsInto p a.state.mTotalSize := by
    intro a' p htensors hoffset hto c hc
    have hne : a.tensors ≠ [] := List.ne_nil_of_mem (htensors ▸ hc)
    obtain ⟨d, hd, hhost⟩ := hto hne c hc
    refine ⟨d, hd, hhost, ?_⟩
    rw [hoffset]
    exact (h.placed hplan hne).inside _ (htensors ▸ hd)
  unfold Allocator.apply at hcode ⊢
  by_cases hfree : a.state.mFreeList = []
  · rw [if_pos hfree]
    have hzero := h.total hfree
    obtain ⟨p, hp⟩ := Option.ne_none_iff_exists'.1 (hkept.resolve_right (by omega))
    refine ⟨p, hpool.holds hp (by omega), hpoints rfl rfl fun hne => ?_⟩
    exact absurd (hplan.resolve_right hne) (by omega)
  rw [if_neg hfree] at hcode ⊢
  by_cases hsize : pool.buffer.currentSize < a.state.mTotalSize
  · rw [if_pos hsize] at hcode ⊢
    obtain hoom | ⟨hok, hlarge, hnone⟩ := pool.realloc_cases a.state.mTotalSize fresh
    · dsimp only at hcode
      rw [if_pos (by rw [hoom]; decide), hoom] at hcode
      exact ErrorCode.noConfusion hcode
    · dsimp only
      rw [if_neg (not_not.2 hok)]
      obtain ⟨p, hp⟩ := Option.ne_none_iff_exists'.1 fun h => absurd (hnone.1 h).2 (by omega)
      refine ⟨p, (hpool.realloc _ fresh).holds hp hlarge, hpoints rfl rfl fun _ => ?_⟩
      rw [← hp]
      exact a.pointsTo_take _
  · rw [if_neg hsize]
    obtain ⟨p, hp⟩ := Option.ne_none_iff_exists'.1 (hkept.resolve_right hsize)
    by_cases hptr : a.state.mPtr ≠ pool.buffer.current
    · rw [if_pos hptr]
      refine ⟨p, hpool.holds hp (not_lt.1 hsize), hpoints rfl rfl fun _ => ?_⟩
      rw [← hp]
      exact a.pointsTo_take _
    · rw [if_neg hptr]
      exact ⟨p, hpool.holds hp (not_lt.1 hsize), hpoints rfl rfl fun hne =>
        (h.placed hplan hne).points p ((not_not.1 hptr).trans hp)⟩

end Allocator

/-! ### Nothing is applied before -/

theorem insert_after_mPtr (s : State) (chunk : ℕ) (pos : Option ℕ) :
    (insert_after s chunk pos).mPtr = s.mPtr := by
  unfold insert_after
  cases pos with
  | some p => rfl
  | none => cases s.mTail <;> rfl

theorem fuse_to_left_mPtr (s : State) (left right : ℕ) :
    (fuse_to_left s left right).mPtr = s.mPtr := by
  unfold fuse_to_left erase_node
  dsimp only
  split <;> rfl

theorem alloc_mPtr (mAlign : ℕ) (s : State) (size : ℕ) (separate : Bool) (align : ℕ) :
    (alloc mAlign s size separate align).2.mPtr = s.mPtr := by
  have hfrom : ∀ e k, (allocFrom s e k).2.mPtr = s.mPtr := by
    intro e k
    unfold allocFrom
    by_cases hk : k < s.nodes.size e.chunk
    · simp only [hk, if_true]
      exact insert_after_mPtr _ _ _
    · simp only [hk, if_false]
  unfold alloc
  dsimp only
  split
  · exact insert_after_mPtr _ _ _
  · exact hfrom _ _

theorem free_mPtr (s : State) (node : ℕ) : (free s node).mPtr = s.mPtr := by
  have hleft : (fuseLeft s node).2.mPtr = s.mPtr := by
    unfold fuseLeft
    split
    · split
      · exact fuse_to_left_mPtr _ _ _
      · rfl
    · rfl
  have hright : ∀ (s : State) m r, (fuseRight s m r).mPtr = s.mPtr := by
    intro s m r
    unfold fuseRight
    split
    · split
      · exact fuse_to_left_mPtr _ _ _
      · rfl
    · rfl
  unfold free
  split
  · rfl
  · exact (hright _ _ _).trans hleft

theorem step_mPtr (mAlign : ℕ) (s : Sys) (op : Op) :
    (step mAlign s op).state.mPtr = s.state.mPtr := by
  cases op with
  | alloc size separate align => exact alloc_mPtr mAlign s.state size separate align
  | free c => exact free_mPtr s.state c.node
  | barrierBegin => rfl
  | barrierEnd =>
    have hall : ∀ (l : List ℕ) (s : State), (l.foldl free s).mPtr = s.mPtr := by
      intro l
      induction l with
      | nil => exact fun s => rfl
      | cons node l ih => exact fun s => (ih _).trans (free_mPtr s node)
    exact hall _ _

theorem Allocator.Planned.inv {a : Allocator} {mAlign : ℕ} {t : Sys} (h : a.Planned mAlign t) :
    a.Inv mAlign := by
  obtain ⟨rs, hI⟩ := h.exists_root
  obtain ⟨ops, hrun⟩ := h.run
  have hptr : t.state.mPtr = none :=
    hrun.invariant (I := fun u => u.state.mPtr = none)
      (fun u op hu _ => (step_mPtr mAlign u op).trans hu) rfl
  refine ⟨fun _ => h.state ▸ hI.total, .inr (.inl ⟨t, h, ?_⟩)⟩
  rw [h.state]
  exact hptr

/-! ### Runs -/

section Machine

variable {ι : Type*} [DecidableEq ι] {s s' : Sharing ι} {mAlign : ℕ}

theorem inv_step (hpos : 0 < mAlign) (h : ∀ i, (s.allocator i).Inv mAlign) {op : SharedOp ι}
    (hop : Kept s op) (i : ι) : ((s.step op).allocator i).Inv mAlign := by
  have hupdate : ∀ (j : ι) {a : Allocator}, a.Inv mAlign →
      (Function.update s.allocator j a i).Inv mAlign := by
    intro j a ha
    by_cases hij : i = j
    · rw [hij, Function.update_self]
      exact ha
    · rw [Function.update_of_ne hij]
      exact h i
  cases op with
  | realloc size fresh => exact h i
  | release => exact h i
  | compute j fresh => exact hupdate j ((h j).compute hpos _ fresh)
  | apply j fresh => exact hupdate j ((h j).apply hop.1 _ fresh)

/-- A size that is recorded without a buffer is the only thing that `realloc` gets wrong. -/
theorem serves_realloc_iff (hpool : s.pool.Ok) (size : ℕ) (fresh : Option ℕ) :
    Serves (s.step (.realloc size fresh)) (.realloc size fresh) ↔
      Kept s (.realloc size fresh) := by
  constructor
  · intro hserves
    by_contra hnot
    obtain ⟨hcurrent, hsize⟩ := not_or.1 hnot
    have hsame : s.pool.realloc size fresh = (.NO_ERROR, s.pool) := by
      rw [Pool.realloc, if_neg hsize]
    obtain ⟨p, hp, -⟩ := hserves (congrArg Prod.fst hsame)
    have hp' : (s.pool.realloc size fresh).2.buffer.current = some p := hp
    rw [hsame] at hp'
    exact hcurrent (by rw [hp']; exact Option.some_ne_none p)
  · intro hop hcode
    obtain hoom | ⟨-, hlarge, hnone⟩ := s.pool.realloc_cases size fresh
    · exact ErrorCode.noConfusion (hoom.symm.trans hcode)
    · have hcurrent : (s.pool.realloc size fresh).2.buffer.current ≠ none := fun hnot =>
        hop.elim (fun hne => hne (hnone.1 hnot).1) fun hlt => absurd (hnone.1 hnot).2 (by omega)
      obtain ⟨p, hp⟩ := Option.ne_none_iff_exists'.1 hcurrent
      exact ⟨p, (hpool.realloc size fresh).holds hp hlarge⟩

theorem serves_step (hpool : s.pool.Ok) (h : ∀ i, (s.allocator i).Inv mAlign) {op : SharedOp ι}
    (hop : Kept s op) : Serves (s.step op) op := by
  cases op with
  | realloc size fresh => exact (serves_realloc_iff hpool size fresh).2 hop
  | release => trivial
  | compute i fresh => trivial
  | apply i fresh =>
    intro hcode
    obtain ⟨p, hholds, hpoints⟩ := (h i).serves hpool hop.1 hop.2 fresh hcode
    have hself : (s.step (.apply i fresh)).allocator i =
        ((s.allocator i).apply s.pool fresh).2.1 := Function.update_self ..
    have htotal := ((s.allocator i).total_apply s.pool fresh).1
    rw [hself, htotal]
    exact ⟨p, hholds, hpoints⟩

end Machine

/-- A chunk of 100 bytes that was freed. -/
def oneChunk : Sys := [Op.alloc 100 false 0, .free ⟨0, 100⟩].foldl (step 64) .init

theorem oneChunk_run :
    Run (deferAllocator 64) .init [.alloc 100 false 0, .free ⟨0, 100⟩] oneChunk :=
  .cons trivial (.cons (show _ ∈ _ by decide) (.nil _))

/-- One allocator, with a tensor on that chunk. -/
def oneTensor : Sharing Unit where
  pool := {}
  allocator _ := ⟨oneChunk.state, [(⟨0, 100⟩, 7)], fun _ => none⟩

theorem oneTensor_start : Start 64 oneTensor where
  pool := rfl
  planned _ := by
    refine ⟨oneChunk, rfl, by decide, by decide, ⟨_, oneChunk_run⟩, fun c hc => ?_⟩
    obtain rfl := List.mem_singleton.1 hc
    refine ⟨[.alloc 100 false 0], [.free ⟨0, 100⟩], _, .cons trivial (.nil _),
      .cons (show _ ∈ _ by decide) (.nil _), by decide⟩

end Mnn.Defer
