import Mnn.Core.DeferAllocator
import Mnn.Lib.Linked
import Mnn.Lib.Layout

/-!
# The chunk list of `DeferBufferAllocator`

The pointers stand for a list of roots, each with the tree of the nodes that were fused into it.

* `Kids`, `Root`: the trees and the list, without pointers;
* `Rep n head tail rs`: the pointers represent the list `rs`;
* `Rep.push`, `Rep.insertRest`, `Rep.fuse`, `Rep.setUsage`, `Rep.setSize`: what each piece of the code
  does to the list.
-/

namespace Mnn.Defer

open Lib

/-- A list of trees: each node has its offset inside its parent. -/
inductive Kids
  | nil
  | cons (id off : ℕ) (kids rest : Kids)

namespace Kids

def append : Kids → Kids → Kids
  | nil, k' => k'
  | cons id off kids rest, k' => cons id off kids (rest.append k')

/-- All nodes of the trees. -/
def ids : Kids → List ℕ
  | nil => []
  | cons id _ kids rest => id :: (kids.ids ++ rest.ids)

/-- All nodes with their offsets, when the parent is at `b`. -/
def places (b : ℕ) : Kids → List (ℕ × ℕ)
  | nil => []
  | cons id off kids rest => (id, b + off) :: (kids.places (b + off) ++ rest.places b)

/-- The lists `children` and the fields `offset` represent the trees. -/
def Rep (offset : ℕ → ℕ) (children : ℕ → List ℕ) : Kids → List ℕ → Prop
  | nil, cs => cs = []
  | cons id off kids rest, cs => ∃ cs', cs = id :: cs' ∧ offset id = off ∧
      kids.Rep offset children (children id) ∧ rest.Rep offset children cs'

variable {k k' : Kids} {offset offset' : ℕ → ℕ} {children children' : ℕ → List ℕ} {cs cs' : List ℕ}

theorem ids_append : (k.append k').ids = k.ids ++ k'.ids := by
  induction k with
  | nil => rfl
  | cons id off kids rest _ ih => simp [append, ids, ih]

theorem places_append (b : ℕ) : (k.append k').places b = k.places b ++ k'.places b := by
  induction k with
  | nil => rfl
  | cons id off kids rest _ ih => simp [append, places, ih]

/-- Moving the parent moves everything below it. -/
theorem places_shift (d b : ℕ) : k.places (d + b) = shiftItems d (k.places b) := by
  induction k generalizing b with
  | nil => rfl
  | cons id off kids rest ih ih' =>
    simp only [places, ih', shiftItems, List.map_cons, List.map_append, Nat.add_assoc, ih]

theorem Rep.append (h : k.Rep offset children cs) (h' : k'.Rep offset children cs') :
    (k.append k').Rep offset children (cs ++ cs') := by
  induction k generalizing cs with
  | nil =>
    obtain rfl : cs = [] := h
    exact h'
  | cons id off kids rest _ ih =>
    obtain ⟨cs₁, rfl, ho, hk, hr⟩ := h
    exact ⟨cs₁ ++ cs', rfl, ho, hk, ih hr⟩

/-- Only the fields of the nodes in the trees matter. -/
theorem Rep.congr (h : k.Rep offset children cs) (ho : ∀ n ∈ k.ids, offset' n = offset n)
    (hc : ∀ n ∈ k.ids, children' n = children n) : k.Rep offset' children' cs := by
  induction k generalizing cs with
  | nil => exact h
  | cons id off kids rest ih ih' =>
    obtain ⟨cs₁, rfl, hoff, hk, hr⟩ := h
    refine ⟨cs₁, rfl, (ho id List.mem_cons_self).trans hoff, ?_, ?_⟩
    · rw [hc id List.mem_cons_self]
      exact ih hk (fun n hn => ho n (by simp [ids, hn])) fun n hn => hc n (by simp [ids, hn])
    · exact ih' hr (fun n hn => ho n (by simp [ids, hn])) fun n hn => hc n (by simp [ids, hn])

end Kids

/-- A node of the list: its number, size, usage, and what was fused into it. -/
structure Root where
  id : ℕ
  size : ℕ
  used : Bool
  kids : Kids

/-! ### Reading the links -/

section

variable (n : Nodes) (p v : Option ℕ) (m size : ℕ)

@[simp] theorem Nodes.left_setLeft :
    (n.setLeft p v).left m = if p = some m then v else n.left m := by
  cases p with
  | none => rfl
  | some p => simp [Nodes.setLeft, Function.update_apply, eq_comm]

@[simp] theorem Nodes.right_setRight :
    (n.setRight p v).right m = if p = some m then v else n.right m := by
  cases p with
  | none => rfl
  | some p => simp [Nodes.setRight, Function.update_apply, eq_comm]

@[simp] theorem Nodes.right_setLeft : (n.setLeft p v).right m = n.right m := by cases p <;> rfl

@[simp] theorem Nodes.left_setRight : (n.setRight p v).left m = n.left m := by cases p <;> rfl

@[simp] theorem Nodes.left_create :
    (n.createMemNode size).left m = if m = n.next then none else n.left m :=
  Function.update_apply ..

@[simp] theorem Nodes.right_create :
    (n.createMemNode size).right m = if m = n.next then none else n.right m :=
  Function.update_apply ..

end

/-- The fields that neither `alloc` nor `free` outside a barrier touches. -/
def Frame (s t : State) : Prop :=
  t.mTotalSize = s.mTotalSize ∧ t.mBarrrier = s.mBarrrier ∧
    t.mBarrrierFreeChunks = s.mBarrrierFreeChunks

/-- The list surgery changes neither these fields nor the free list. -/
theorem insert_after_frame (s : State) (chunk : ℕ) (pos : Option ℕ) :
    Frame s (insert_after s chunk pos) ∧ (insert_after s chunk pos).mFreeList = s.mFreeList := by
  unfold insert_after
  cases pos with
  | some p => exact ⟨⟨rfl, rfl, rfl⟩, rfl⟩
  | none => cases s.mTail <;> exact ⟨⟨rfl, rfl, rfl⟩, rfl⟩

theorem fuse_to_left_frame (s : State) (left right : ℕ) :
    Frame s (fuse_to_left s left right) ∧
      (fuse_to_left s left right).mFreeList = s.mFreeList := by
  have h : ∀ s : State, Frame s (erase_node s right) ∧
      (erase_node s right).mFreeList = s.mFreeList := by
    intro s
    unfold erase_node
    split <;> exact ⟨⟨rfl, rfl, rfl⟩, rfl⟩
  exact h _

/-- The nodes of the list. -/
def rootIds (rs : List Root) : List ℕ := rs.map Root.id

/-- The nodes that were fused into others. -/
def kidIds (rs : List Root) : List ℕ := rs.flatMap fun r => r.kids.ids

/-- The pointers represent the list `rs`; every node that was made is in it, once. -/
structure Rep (n : Nodes) (head tail : Option ℕ) (rs : List Root) : Prop where
  links : Seg n.left n.right none (rootIds rs) none
  head_eq : head = (rootIds rs).head?
  tail_eq : tail = (rootIds rs).getLast?
  size_eq : ∀ r ∈ rs, n.size r.id = r.size
  usage_eq : ∀ r ∈ rs, n.usage r.id = r.used
  kids : ∀ r ∈ rs, r.kids.Rep n.offset n.children (n.children r.id)
  ids : (rootIds rs ++ kidIds rs).Perm (List.range n.next)

variable {n : Nodes} {head tail : Option ℕ} {rs a b : List Root} {x l r : Root} {s : State}

@[simp] theorem rootIds_append : rootIds (a ++ b) = rootIds a ++ rootIds b := List.map_append

@[simp] theorem rootIds_cons : rootIds (x :: b) = x.id :: rootIds b := rfl

@[simp] theorem rootIds_nil : rootIds [] = [] := rfl

@[simp] theorem kidIds_append : kidIds (a ++ b) = kidIds a ++ kidIds b := List.flatMap_append

@[simp] theorem kidIds_cons : kidIds (x :: b) = x.kids.ids ++ kidIds b := rfl

@[simp] theorem kidIds_nil : kidIds [] = [] := rfl

namespace Rep

theorem nodup (h : Rep n head tail rs) : (rootIds rs ++ kidIds rs).Nodup :=
  h.ids.nodup_iff.2 List.nodup_range

theorem nodup_roots (h : Rep n head tail rs) : (rootIds rs).Nodup :=
  (List.nodup_append'.1 h.nodup).1

theorem root_not_kid (h : Rep n head tail rs) {m : ℕ} (hm : m ∈ rootIds rs) : m ∉ kidIds rs :=
  fun hk => (List.nodup_append'.1 h.nodup).2.2 hm hk

theorem lt_next (h : Rep n head tail rs) {m : ℕ} (hm : m ∈ rootIds rs ∨ m ∈ kidIds rs) :
    m < n.next :=
  List.mem_range.1 (h.ids.mem_iff.1 (List.mem_append.2 hm))

theorem mem_kidIds (hx : x ∈ rs) {m : ℕ} (hm : m ∈ x.kids.ids) : m ∈ kidIds rs :=
  List.mem_flatMap.2 ⟨x, hx, hm⟩

/-- A root is another one's only if they are the same. -/
theorem ne_id (h : Rep n head tail (a ++ x :: b)) {y : Root} (hy : y ∈ a ++ b) : y.id ≠ x.id := by
  intro he
  have hnd := h.nodup_roots
  rw [rootIds_append, rootIds_cons, List.nodup_middle, List.nodup_cons] at hnd
  exact hnd.1 (he ▸ by rw [← rootIds_append]; exact List.mem_map_of_mem hy)

/-- The size and the usage of one root change. -/
theorem set (h : Rep n head tail (a ++ x :: b)) {size' : ℕ → ℕ} {usage' : ℕ → Bool} {k : ℕ} {u : Bool}
    (hs : size' = Function.update n.size x.id k) (hu : usage' = Function.update n.usage x.id u) :
    Rep { n with size := size', usage := usage' } head tail
      (a ++ ⟨x.id, k, u, x.kids⟩ :: b) := by
  subst hs hu
  have hmem : ∀ {y}, y ∈ a ++ b → y ∈ a ++ x :: b := fun {y} hy => by
    rcases List.mem_append.1 hy with hy | hy <;> simp [hy]
  have hsplit : ∀ {y}, y ∈ a ++ ⟨x.id, k, u, x.kids⟩ :: b →
      y = ⟨x.id, k, u, x.kids⟩ ∨ y ∈ a ++ b :=
    fun {y} hy => by simpa [or_left_comm] using hy
  constructor
  · simpa using h.links
  · simpa using h.head_eq
  · simpa using h.tail_eq
  · intro y hy
    rcases hsplit hy with rfl | hy
    · exact Function.update_self ..
    · exact (Function.update_of_ne (h.ne_id hy) ..).trans (h.size_eq y (hmem hy))
  · intro y hy
    rcases hsplit hy with rfl | hy
    · exact Function.update_self ..
    · exact (Function.update_of_ne (h.ne_id hy) ..).trans (h.usage_eq y (hmem hy))
  · intro y hy
    rcases hsplit hy with rfl | hy
    · exact h.kids x (by simp)
    · exact h.kids y (hmem hy)
  · simpa using h.ids

theorem setUsage (h : Rep n head tail (a ++ x :: b)) (u : Bool) :
    Rep { n with usage := Function.update n.usage x.id u } head tail
      (a ++ ⟨x.id, x.size, u, x.kids⟩ :: b) := by
  refine h.set ?_ rfl
  rw [← h.size_eq x (by simp), Function.update_eq_self]

theorem setSize (h : Rep n head tail (a ++ x :: b)) (k : ℕ) :
    Rep { n with size := Function.update n.size x.id k } head tail
      (a ++ ⟨x.id, k, x.used, x.kids⟩ :: b) := by
  refine h.set rfl ?_
  rw [← h.usage_eq x (by simp), Function.update_eq_self]

/-! ### New nodes -/

theorem ids_create (h : Rep n head tail (a ++ b)) (size k : ℕ) (u : Bool) :
    (rootIds (a ++ ⟨n.next, k, u, .nil⟩ :: b) ++ kidIds (a ++ ⟨n.next, k, u, .nil⟩ :: b)).Perm
      (List.range (n.createMemNode size).next) := by
  have hr : List.range (n.createMemNode size).next = List.range n.next ++ [n.next] :=
    List.range_succ
  rw [hr]
  refine List.Perm.trans ?_ (List.perm_append_comm.trans (h.ids.append_right [n.next]))
  simp only [rootIds_append, rootIds_cons, kidIds_append, kidIds_cons, Kids.ids, List.nil_append,
    List.append_assoc, List.cons_append]
  exact List.perm_middle

/-- A new node stands in the list once it is linked there. -/
theorem create (h : Rep n head tail (a ++ b)) {size : ℕ} {u : Bool} {N : Nodes} {head' tail' : Option ℕ}
    (hsize : N.size = (n.createMemNode size).size) (hoff : N.offset = (n.createMemNode size).offset)
    (husage : N.usage = Function.update (n.createMemNode size).usage n.next u)
    (hchild : N.children = (n.createMemNode size).children) (hnext : N.next = n.next + 1)
    (hlinks : Seg N.left N.right none (rootIds (a ++ ⟨n.next, size, u, .nil⟩ :: b)) none)
    (hhead : head' = (rootIds (a ++ ⟨n.next, size, u, .nil⟩ :: b)).head?)
    (htail : tail' = (rootIds (a ++ ⟨n.next, size, u, .nil⟩ :: b)).getLast?) :
    Rep N head' tail' (a ++ ⟨n.next, size, u, .nil⟩ :: b) := by
  have hne : ∀ m, m ∈ rootIds (a ++ b) ∨ m ∈ kidIds (a ++ b) → m ≠ n.next :=
    fun m hm => (h.lt_next hm).ne
  have hsplit : ∀ {y}, y ∈ a ++ ⟨n.next, size, u, .nil⟩ :: b →
      y = ⟨n.next, size, u, .nil⟩ ∨ y ∈ a ++ b := fun {y} hy => by simpa [or_left_comm] using hy
  have hroot : ∀ {y}, y ∈ a ++ b → y.id ≠ n.next := fun {y} hy =>
    hne y.id (.inl (List.mem_map_of_mem hy))
  refine ⟨hlinks, hhead, htail, ?_, ?_, ?_, ?_⟩
  · intro y hy
    rw [hsize]
    rcases hsplit hy with rfl | hy
    · exact Function.update_self ..
    · exact (Function.update_of_ne (hroot hy) ..).trans (h.size_eq y hy)
  · intro y hy
    rw [husage]
    rcases hsplit hy with rfl | hy
    · exact Function.update_self ..
    · rw [Function.update_of_ne (hroot hy)]
      exact (Function.update_of_ne (hroot hy) ..).trans (h.usage_eq y hy)
  · intro y hy
    rw [hchild, hoff]
    rcases hsplit hy with rfl | hy
    · exact Function.update_self ..
    · have hc : (n.createMemNode size).children y.id = n.children y.id :=
        Function.update_of_ne (hroot hy) ..
      rw [hc]
      exact (h.kids y hy).congr
        (fun m hm => Function.update_of_ne (hne m (.inr (mem_kidIds hy hm))) ..)
        fun m hm => Function.update_of_ne (hne m (.inr (mem_kidIds hy hm))) ..
  · rw [hnext]
    exact h.ids_create size size u

/-- `insert_after(chunk, nullptr)` of a new node. -/
theorem push (h : Rep s.nodes s.mHead s.mTail rs) (size : ℕ) {t : State}
    (ht : t = insert_after { s with nodes := s.nodes.createMemNode size } s.nodes.next none) :
    Rep t.nodes t.mHead t.mTail (rs ++ [⟨s.nodes.next, size, true, .nil⟩]) := by
  subst ht
  have hr : Rep s.nodes s.mHead s.mTail (rs ++ []) := by rwa [List.append_nil]
  have hlt : ∀ m ∈ rootIds rs, m ≠ s.nodes.next := fun m hm => (h.lt_next (.inl hm)).ne
  unfold insert_after
  cases htail : s.mTail with
  | none =>
    have hnil : rootIds rs = [] := List.getLast?_eq_none_iff.1 (h.tail_eq.symm.trans htail)
    refine hr.create rfl rfl (Function.update_idem ..).symm rfl rfl ?_ ?_ ?_
    · rw [rootIds_append, hnil]
      exact ⟨Function.update_self .., Function.update_self .., trivial⟩
    · rw [rootIds_append, hnil]
      rfl
    · rw [rootIds_append, hnil]
      rfl
  | some tail =>
    have hlast : (rootIds rs).getLast? = some tail := h.tail_eq.symm.trans htail
    have htm : tail ∈ rootIds rs := List.mem_of_getLast? hlast
    refine hr.create rfl rfl (Function.update_idem ..).symm rfl rfl ?_ ?_ ?_
    · rw [rootIds_append]
      refine h.links.push h.nodup_roots ?_ ?_ ?_ ?_ ?_
      · intro x hx
        exact (Function.update_of_ne (hlt x hx) ..).trans (Function.update_of_ne (hlt x hx) ..)
      · exact (Function.update_self ..).trans hlast.symm
      · intro x hx hxl
        refine (Function.update_of_ne ?_ ..).trans (Function.update_of_ne (hlt x hx) ..)
        rintro rfl
        exact hxl hlast
      · intro x hxl
        obtain rfl : tail = x := Option.some.inj (hlast.symm.trans hxl)
        exact Function.update_self ..
      · exact (Function.update_of_ne (hlt tail htm).symm ..).trans (Function.update_self ..)
    · rw [h.head_eq, rootIds_append, List.head?_append]
      cases hids : rootIds rs with
      | nil => rw [hids] at htm; exact absurd htm List.not_mem_nil
      | cons y ys => rfl
    · rw [rootIds_append]
      exact (List.getLast?_concat ..).symm

/-- `insert_after(chunk, pos)` of a new, unused node. -/
theorem insertRest (h : Rep s.nodes s.mHead s.mTail (a ++ x :: b)) (size : ℕ) {t : State}
    (ht : t = insert_after { s with nodes := { s.nodes.createMemNode size with
      usage := Function.update (s.nodes.createMemNode size).usage s.nodes.next false } }
      s.nodes.next (some x.id)) :
    Rep t.nodes t.mHead t.mTail (a ++ x :: ⟨s.nodes.next, size, false, .nil⟩ :: b) := by
  subst ht
  have hx : x.id ∈ rootIds (a ++ x :: b) := by simp
  have hne : ∀ m ∈ rootIds (a ++ x :: b), m ≠ s.nodes.next := fun m hm => (h.lt_next (.inl hm)).ne
  have hnd := h.nodup_roots
  have hlinks := h.links
  rw [rootIds_append, rootIds_cons] at hnd hlinks hne
  obtain ⟨-, hright⟩ := hlinks.neighbours
  have hright' : (s.nodes.createMemNode size).right x.id = (rootIds b).head? :=
    (Function.update_of_ne (hne _ (by simp)) ..).trans hright
  have hcons : ∀ l, a ++ x :: l = (a ++ [x]) ++ l := fun l => List.append_cons a x l
  have hxb : x.id ∉ rootIds b := fun hm => (List.nodup_cons.1 (List.nodup_append'.1 hnd).2.1).1 hm
  have hxa : x.id ∉ rootIds a := fun hm => (List.nodup_append'.1 hnd).2.2 hm List.mem_cons_self
  have hold : Rep s.nodes s.mHead s.mTail ((a ++ [x]) ++ b) := by rwa [← hcons]
  have htail : s.mTail = (rootIds b).getLast?.or (some x.id) := by
    rw [h.tail_eq, hcons, rootIds_append, List.getLast?_append, rootIds_append]
    simp
  have hlast : ∀ m ∈ rootIds b, m ≠ x.id := fun m hm he => hxb (he ▸ hm)
  have hsep : ∀ m ∈ rootIds a ++ [x.id], m ∉ rootIds b := fun m hm hb => by
    rcases List.mem_append.1 hm with hm | hm
    · exact (List.nodup_append'.1 hnd).2.2 hm (List.mem_cons_of_mem _ hb)
    · exact hxb (List.mem_singleton.1 hm ▸ hb)
  rw [hcons]
  unfold insert_after
  simp only [hright']
  refine hold.create ?_ ?_ ?_ ?_ ?_ ?_ ?_ ?_
  · cases (rootIds b).head? <;> rfl
  · cases (rootIds b).head? <;> rfl
  · cases (rootIds b).head? <;> rfl
  · cases (rootIds b).head? <;> rfl
  · cases (rootIds b).head? <;> rfl
  · rw [← hcons, rootIds_append, rootIds_cons, rootIds_cons]
    refine hlinks.insert hnd ?_ ?_ ?_ ?_ ?_ ?_
    · intro y hy
      have hyb : (rootIds b).head? ≠ some y := fun hh => hsep y hy (List.mem_of_mem_head? hh)
      have hyc := hne y (by
        simp only [List.mem_append, List.mem_cons, List.not_mem_nil, or_false] at hy ⊢
        tauto)
      simp [hyb, hyc, Ne.symm hyc]
    · intro y hy
      have hyc := hne y (by simp [hy])
      simp [hyc, Ne.symm hyc]
    · simp
    · intro y hy
      have hyc := hne y (by
        simp only [List.mem_append, List.mem_cons] at hy ⊢
        tauto)
      have hyx : x.id ≠ y := fun he => (List.mem_append.1 hy).elim (he ▸ hxa) (he ▸ hxb)
      simp [hyc, Ne.symm hyc, hyx]
    · simp
    · have := hne x.id (by simp)
      simp [this]
  · rw [h.head_eq, ← hcons, rootIds_append, rootIds_append]
    cases rootIds a <;> rfl
  · rw [← hcons, rootIds_append, rootIds_cons, rootIds_cons, List.append_cons, List.append_cons,
      List.getLast?_append, htail]
    cases hz : (rootIds b).getLast? with
    | none => simp
    | some z =>
      have hzx := hlast z (List.mem_of_getLast? hz)
      simp [Ne.symm hzx]

/-! ### Fusing -/

/-- The fields after a fusion, once the links leave `r` out. -/
theorem fused (h : Rep n head tail (a ++ l :: r :: b)) {N : Nodes} {head' tail' : Option ℕ}
    (hsize : N.size = Function.update n.size l.id (n.size l.id + n.size r.id))
    (hoff : N.offset = Function.update n.offset r.id (n.size l.id)) (husage : N.usage = n.usage)
    (hchild : N.children = Function.update n.children l.id (n.children l.id ++ [r.id]))
    (hnext : N.next = n.next) (hseg : Seg N.left N.right none (rootIds (a ++ l :: b)) none)
    (hhead : head' = (rootIds (a ++ l :: b)).head?)
    (htail : tail' = (rootIds (a ++ l :: b)).getLast?) :
    Rep N head' tail'
      (a ++ ⟨l.id, l.size + r.size, l.used, l.kids.append (.cons r.id l.size r.kids .nil)⟩ :: b) := by
  have hl : l ∈ a ++ l :: r :: b := by simp
  have hr : r ∈ a ++ l :: r :: b := by simp
  have hroot : ∀ {y}, y ∈ a ++ l :: r :: b → y.id ∉ kidIds (a ++ l :: r :: b) := fun {y} hy =>
    h.root_not_kid (List.mem_map_of_mem hy)
  have hlr : l.id ≠ r.id := (h.ne_id (y := r) (by simp)).symm
  have hmem : ∀ {y}, y ∈ a ++ b → y ∈ a ++ l :: r :: b ∧ y.id ≠ l.id := fun {y} hy => by
    have hy' : y ∈ a ++ r :: b := by
      rcases List.mem_append.1 hy with hy | hy <;> simp [hy]
    refine ⟨?_, h.ne_id hy'⟩
    rcases List.mem_append.1 hy with hy | hy <;> simp [hy]
  -- the trees read the same after the two fields of the fused roots changed
  have hkids : ∀ {y}, y ∈ a ++ l :: r :: b → ∀ cs, y.kids.Rep n.offset n.children cs →
      y.kids.Rep (Function.update n.offset r.id (n.size l.id))
        (Function.update n.children l.id (n.children l.id ++ [r.id])) cs := by
    intro y hy cs hk
    refine hk.congr (fun m hm => Function.update_of_ne ?_ ..) fun m hm => Function.update_of_ne ?_ ..
    · rintro rfl
      exact hroot hr (mem_kidIds hy hm)
    · rintro rfl
      exact hroot hl (mem_kidIds hy hm)
  have hsplit : ∀ {y x' : Root}, y ∈ a ++ x' :: b → y = x' ∨ y ∈ a ++ b :=
    fun {y x'} hy => by simpa [or_left_comm] using hy
  refine ⟨by simpa using hseg, by simpa using hhead, by simpa using htail, ?_, ?_, ?_, ?_⟩
  · intro y hy
    rw [hsize]
    rcases hsplit hy with rfl | hy
    · rw [Function.update_self, h.size_eq l hl, h.size_eq r hr]
    · rw [Function.update_of_ne (hmem hy).2, h.size_eq y (hmem hy).1]
  · intro y hy
    rw [husage]
    rcases hsplit hy with rfl | hy
    · exact h.usage_eq l hl
    · exact h.usage_eq y (hmem hy).1
  · intro y hy
    rw [hoff, hchild]
    rcases hsplit hy with rfl | hy
    · rw [Function.update_self]
      refine (hkids hl _ (h.kids l hl)).append ⟨[], rfl, ?_, ?_, rfl⟩
      · rw [Function.update_self, h.size_eq l hl]
      · rw [Function.update_of_ne hlr.symm]
        exact hkids hr _ (h.kids r hr)
    · rw [Function.update_of_ne (hmem hy).2]
      exact hkids (hmem hy).1 _ (h.kids y (hmem hy).1)
  · rw [hnext]
    refine List.Perm.trans ?_ h.ids
    simp only [rootIds_append, rootIds_cons, kidIds_append, kidIds_cons, Kids.ids_append, Kids.ids,
      List.append_nil]
    rw [← Multiset.coe_eq_coe]
    simp only [← Multiset.coe_add, ← Multiset.cons_coe, ← Multiset.singleton_add]
    abel

/-- `fuse_to_left` of two neighbours. -/
theorem fuse (h : Rep s.nodes s.mHead s.mTail (a ++ l :: r :: b)) {t : State}
    (ht : t = fuse_to_left s l.id r.id) :
    Rep t.nodes t.mHead t.mTail
      (a ++ ⟨l.id, l.size + r.size, l.used, l.kids.append (.cons r.id l.size r.kids .nil)⟩ :: b) := by
  subst ht
  have hnd := h.nodup_roots
  have hlinks := h.links
  rw [rootIds_append, rootIds_cons, rootIds_cons] at hnd hlinks
  have hlinks' := hlinks
  rw [List.append_cons] at hlinks'
  obtain ⟨hleft, hright⟩ := hlinks'.neighbours
  rw [List.getLast?_concat] at hleft
  have hlb : l.id ∉ rootIds b := fun hm => by
    have := (List.nodup_append'.1 hnd).2.1
    simp [hm] at this
  have hla : l.id ∉ rootIds a := fun hm =>
    (List.nodup_append'.1 hnd).2.2 hm List.mem_cons_self
  have hsep : ∀ m ∈ rootIds a ++ [l.id], m ∉ rootIds b := fun m hm hb => by
    rcases List.mem_append.1 hm with hm | hm
    · exact (List.nodup_append'.1 hnd).2.2 hm (by simp [hb])
    · exact hlb (List.mem_singleton.1 hm ▸ hb)
  have hheadeq : s.mHead = (rootIds (a ++ l :: b)).head? := by
    rw [h.head_eq, rootIds_append, rootIds_append]
    cases rootIds a <;> rfl
  unfold fuse_to_left erase_node
  simp only [hleft, hright]
  cases hb : (rootIds b).head? with
  | none =>
    have hbnil := List.head?_eq_none_iff.1 hb
    refine h.fused rfl rfl rfl rfl rfl ?_ hheadeq ?_
    · rw [rootIds_append, rootIds_cons]
      refine hlinks.erase hnd (fun y hy => by simp) ?_ (fun y hy => ?_) (by simp [hb])
      · rw [hbnil]
        exact fun y hy => absurd hy List.not_mem_nil
      · have hyl : l.id ≠ y := fun he => (List.mem_append.1 hy).elim (he ▸ hla) (he ▸ hlb)
        simp [hyl]
    · rw [rootIds_append, rootIds_cons, hbnil, List.getLast?_concat]
  | some q =>
    have hbne : rootIds b ≠ [] := fun he => by simp [he] at hb
    refine h.fused rfl rfl rfl rfl rfl ?_ hheadeq ?_
    · rw [rootIds_append, rootIds_cons]
      refine hlinks.erase hnd (fun y hy => ?_) (fun y hy => by simp [hb]) (fun y hy => ?_)
        (by simp [hb])
      · have hyq : q ≠ y := fun he => hsep y hy (he ▸ List.mem_of_mem_head? hb)
        simp [hyq]
      · have hyl : l.id ≠ y := fun he => (List.mem_append.1 hy).elim (he ▸ hla) (he ▸ hlb)
        simp [hyl]
    · show s.mTail = _
      rw [h.tail_eq]
      simp only [rootIds_append, rootIds_cons, List.getLast?_append_of_ne_nil _ (List.cons_ne_nil _ _),
        List.getLast?_cons_of_ne_nil hbne, List.getLast?_cons_of_ne_nil (List.cons_ne_nil _ _)]

end Rep

end Mnn.Defer
