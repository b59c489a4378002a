import Mnn.Core.DeferSteps
import Mathlib.Order.CompletePartialOrder

/-!
# `DeferBufferAllocator` plans disjoint memory

* `Owns`, `SysInv`, `run_inv`: along a run the chunks held are the roots in use, and everything made
  so far only moves apart;
* `visit_spec`, `compute_spec`: `compute` gives every node its place in the row of blocks;
* `chunkList_invariant`: **the chunk list is well formed in every reachable state**, and one free node
  is left when all chunks were freed;
* `compute_disjoint`: **chunks held at one moment end up disjoint**, inside the planned memory.
-/

namespace Mnn.Defer

open Lib Eager

variable {s t : State} {rs rs' a b : List Root} {x : Root} {mAlign : ℕ} {H : List Chunk} {c : Chunk}

/-! ### Frames -/

theorem alloc_frame (s : State) (size : ℕ) (separate : Bool) (align : ℕ) :
    Frame s (alloc mAlign s size separate align).2 := by
  have hfrom : ∀ e k, Frame s (allocFrom s e k).2 := by
    intro e k
    unfold allocFrom
    by_cases hk : k < s.nodes.size e.chunk
    · simp only [hk, if_true]
      exact (insert_after_frame _ _ _).1
    · simp only [hk, if_false]
      exact ⟨rfl, rfl, rfl⟩
  unfold alloc
  dsimp only
  generalize roundUp size (if align = 0 then mAlign else align) = k
  cases if separate then none else select s.mFreeList k with
  | none => exact (insert_after_frame _ _ _).1
  | some e => exact hfrom e k

theorem freeNow_frame (s : State) (node : ℕ) : Frame s (freeNow s node) := by
  have hleft : Frame s (fuseLeft s node).2 := by
    unfold fuseLeft
    split
    · split
      · exact (fuse_to_left_frame _ _ _).1
      · exact ⟨rfl, rfl, rfl⟩
    · exact ⟨rfl, rfl, rfl⟩
  have hright : ∀ (s : State) m r, Frame s (fuseRight s m r) := by
    intro s m r
    unfold fuseRight
    split
    · split
      · exact (fuse_to_left_frame _ _ _).1
      · exact ⟨rfl, rfl, rfl⟩
    · exact ⟨rfl, rfl, rfl⟩
  obtain ⟨h1, h2, h3⟩ := hleft
  obtain ⟨h1', h2', h3'⟩ := hright (fuseLeft s node).2 (fuseLeft s node).1 (s.nodes.right node)
  exact ⟨h1'.trans h1, h2'.trans h2, h3'.trans h3⟩

/-! ### Who holds what -/

/-- The chunks `H` are the roots in use, and each is at least as large as was asked for. -/
structure Owns (mAlign : ℕ) (s : State) (rs : List Root) (H : List Chunk) : Prop where
  good : Good s rs
  nodes : ((usedEntries rs).map Chunk.node).Perm (H.map Chunk.node)
  sizes : 0 < mAlign → ∀ c ∈ H, ∃ e ∈ usedEntries rs, e.node = c.node ∧ c.size ≤ e.size

/-- The other fields, and the order of the chunks, do not matter. -/
theorem Owns.congr {H' : List Chunk} (hO : Owns mAlign s rs H) (hn : t.nodes = s.nodes)
    (hh : t.mHead = s.mHead) (ht : t.mTail = s.mTail) (hf : t.mFreeList = s.mFreeList)
    (hH : H.Perm H') : Owns mAlign t rs H' where
  good :=
    { rep := by
        rw [hn, hh, ht]
        exact hO.good.rep
      free := by
        rw [hf]
        exact hO.good.free
      sorted := by
        rw [hf]
        exact hO.good.sorted
      apart := hO.good.apart }
  nodes := hO.nodes.trans (hH.map _)
  sizes := fun h d hd => hO.sizes h d (hH.mem_iff.2 hd)

theorem mem_usedEntries {e : Chunk} : e ∈ usedEntries rs ↔
    ∃ x ∈ rs, x.used = true ∧ e = ⟨x.id, x.size⟩ := by
  simp only [usedEntries, List.mem_map, List.mem_filter]
  constructor
  · rintro ⟨x, ⟨hx, hu⟩, rfl⟩
    exact ⟨x, hx, hu, rfl⟩
  · rintro ⟨x, hx, hu, rfl⟩
    exact ⟨x, ⟨hx, hu⟩, rfl⟩

theorem Owns.nodup (hO : Owns mAlign s rs H) : (H.map Chunk.node).Nodup := by
  refine hO.nodes.nodup_iff.1 ?_
  have h : ((usedEntries rs).map Chunk.node).Sublist (rootIds rs) := by
    rw [usedEntries, List.map_map]
    exact (List.filter_sublist (p := Root.used)).map Root.id
  exact hO.good.rep.nodup_roots.sublist h

/-- A held chunk is a root in use. -/
theorem Owns.exists_root (hO : Owns mAlign s rs H) (hc : c ∈ H) :
    ∃ a x b, rs = a ++ x :: b ∧ x.used = true ∧ x.id = c.node := by
  have h := hO.nodes.mem_iff.2 (List.mem_map_of_mem hc)
  obtain ⟨e, he, hec⟩ := List.mem_map.1 h
  obtain ⟨x, hx, hu, rfl⟩ := mem_usedEntries.1 he
  obtain ⟨a, b, rfl⟩ := List.append_of_mem hx
  exact ⟨a, x, b, rfl, hu, hec⟩

theorem Owns.alloc (hO : Owns mAlign s rs H) (size : ℕ) (separate : Bool) (align : ℕ) :
    ∃ rs', Owns mAlign (alloc mAlign s size separate align).2 rs'
      (⟨(Defer.alloc mAlign s size separate align).1, size⟩ :: H) ∧
        Moves (blocks rs) (blocks rs') := by
  obtain ⟨rs', hG, hM, hU⟩ := alloc_good hO.good mAlign size separate align
  refine ⟨rs', ⟨hG, ?_, fun hpos c hc => ?_⟩, hM⟩
  · exact (hU.map Chunk.node).trans (hO.nodes.cons _)
  · rcases List.mem_cons.1 hc with rfl | hc
    · refine ⟨_, hU.mem_iff.2 List.mem_cons_self, rfl, le_roundUp ?_ size⟩
      split_ifs with h0
      · exact hpos
      · exact Nat.pos_of_ne_zero h0
    · obtain ⟨e, he, hen⟩ := hO.sizes hpos c hc
      exact ⟨e, hU.mem_iff.2 (List.mem_cons_of_mem _ he), hen⟩

theorem Owns.freeNow {H' : List Chunk} (hO : Owns mAlign s rs H) (hH : H.Perm (c :: H')) :
    ∃ rs', Owns mAlign (freeNow s c.node) rs' H' ∧ Moves (blocks rs) (blocks rs') := by
  obtain ⟨a, x, b, rfl, hx, hxc⟩ := hO.exists_root (hH.mem_iff.2 List.mem_cons_self)
  obtain ⟨rs', hG, hM, hU⟩ := freeNow_good hO.good hx
  rw [hxc] at hG
  have hold : (usedEntries (a ++ x :: b)).Perm (⟨x.id, x.size⟩ :: usedEntries rs') := by
    rw [usedEntries_append, usedEntries_cons_used hx, hU]
    exact List.perm_middle
  refine ⟨rs', ⟨hG, ?_, fun hpos d hd => ?_⟩, hM⟩
  · have h := ((hold.map Chunk.node).symm.trans hO.nodes).trans (hH.map Chunk.node)
    rw [List.map_cons, List.map_cons, hxc] at h
    exact h.cons_inv
  · obtain ⟨e, he, hed, hsize⟩ := hO.sizes hpos d (hH.mem_iff.2 (List.mem_cons_of_mem _ hd))
    rcases List.mem_cons.1 (hold.mem_iff.1 he) with rfl | he
    · have hnd := (hH.map Chunk.node).nodup_iff.1 hO.nodup
      rw [List.map_cons, List.nodup_cons] at hnd
      have hdc : d.node = c.node := hed.symm.trans hxc
      exact absurd (hdc ▸ List.mem_map_of_mem hd) hnd.1
    · exact ⟨e, he, hed, hsize⟩

/-- The chunks freed inside a barrier are given up at its end. -/
theorem Owns.freeAll {live freed : List Chunk} (hO : Owns mAlign s rs (live ++ freed))
    (hb : s.mBarrrier = false) : ∃ rs', Owns mAlign ((freed.map Chunk.node).foldl free s) rs' live ∧
      Moves (blocks rs) (blocks rs') ∧
      ((freed.map Chunk.node).foldl free s).mTotalSize = s.mTotalSize := by
  induction freed generalizing s rs with
  | nil => exact ⟨rs, by rwa [List.append_nil] at hO, .refl _, rfl⟩
  | cons c freed ih =>
    obtain ⟨rs₁, hO₁, hM₁⟩ := hO.freeNow List.perm_middle
    have hframe := freeNow_frame s c.node
    have hfree : free s c.node = Defer.freeNow s c.node := by
      unfold free
      rw [hb, if_neg Bool.false_ne_true]
    obtain ⟨rs₂, hO₂, hM₂, htotal⟩ := ih hO₁ (hframe.2.1.trans hb)
    rw [List.map_cons, List.foldl_cons, hfree]
    exact ⟨rs₂, hO₂, hM₁.trans hM₂, htotal.trans hframe.1⟩

/-! ### Runs -/

/-- The invariant of the machine: nothing is pending outside a barrier, and nothing is placed yet. -/
structure SysInv (mAlign : ℕ) (s : Sys) (rs : List Root) : Prop where
  owns : Owns mAlign s.state rs s.held
  pending : s.state.mBarrrierFreeChunks = s.freed.map Chunk.node
  barrier : s.state.mBarrrier = false → s.freed = []
  total : s.state.mTotalSize = 0

theorem init_inv (mAlign : ℕ) : SysInv mAlign .init [] where
  owns :=
    { good :=
        { rep := ⟨trivial, rfl, rfl, by simp, by simp, by simp, .nil⟩
          free := .nil
          sorted := .nil
          apart := .nil }
      nodes := .nil
      sizes := by simp [Sys.held, Sys.init] }
  pending := rfl
  barrier := fun _ => rfl
  total := rfl

/-- **The step lemma**: the invariant is kept, and what was placed only moves apart. -/
theorem step_inv {s : Sys} (hI : SysInv mAlign s rs) (op : Op) (ho : Allowed s op) :
    ∃ rs', SysInv mAlign (step mAlign s op) rs' ∧ Moves (blocks rs) (blocks rs') := by
  cases op with
  | alloc size separate align =>
    obtain ⟨rs', hO, hM⟩ := hI.owns.alloc size separate align
    have hframe : Frame s.state (alloc mAlign s.state size separate align).2 :=
      alloc_frame s.state size separate align
    obtain ⟨h1, h2, h3⟩ := hframe
    exact ⟨rs', ⟨hO, h3.trans hI.pending, fun hb => hI.barrier (h2.symm.trans hb),
      h1.trans hI.total⟩, hM⟩
  | free c =>
    have hc : c ∈ s.live := ho
    have hperm : s.held.Perm (c :: (s.live.erase c ++ s.freed)) :=
      (List.perm_cons_erase hc).append_right s.freed
    cases hb : s.state.mBarrrier with
    | true =>
      have hstep : step mAlign s (.free c) = ⟨{ s.state with
          mBarrrierFreeChunks := s.state.mBarrrierFreeChunks ++ [c.node] }, s.live.erase c,
          s.freed ++ [c]⟩ := by
        simp [step, free, hb]
      rw [hstep]
      refine ⟨rs, ⟨hI.owns.congr rfl rfl rfl rfl ?_, ?_, fun h => ?_, hI.total⟩, .refl _⟩
      · refine hperm.trans ?_
        show (c :: (s.live.erase c ++ s.freed)).Perm (s.live.erase c ++ (s.freed ++ [c]))
        rw [← List.append_assoc]
        exact (List.perm_append_singleton c _).symm
      · rw [hI.pending, List.map_append]
        rfl
      · exact absurd (hb.symm.trans h) (by decide)
    | false =>
      have hstep : step mAlign s (.free c) = ⟨freeNow s.state c.node, s.live.erase c, s.freed⟩ := by
        simp [step, free, hb]
      rw [hstep]
      obtain ⟨rs', hO, hM⟩ := hI.owns.freeNow hperm
      obtain ⟨h1, h2, h3⟩ := freeNow_frame s.state c.node
      exact ⟨rs', ⟨hO, h3.trans hI.pending, fun _ => hI.barrier hb, h1.trans hI.total⟩, hM⟩
  | barrierBegin =>
    refine ⟨rs, ⟨hI.owns.congr rfl rfl rfl rfl (.refl _), hI.pending, fun h => ?_, hI.total⟩, .refl _⟩
    exact Bool.noConfusion (show true = false from h)
  | barrierEnd =>
    have hO : Owns mAlign { s.state with mBarrrier := false } rs (s.live ++ s.freed) :=
      hI.owns.congr rfl rfl rfl rfl (.refl _)
    obtain ⟨rs', hO', hM, htotal⟩ := hO.freeAll rfl
    rw [← hI.pending] at hO' htotal
    refine ⟨rs', ⟨hO'.congr rfl rfl rfl rfl ?_, rfl, fun _ => rfl, htotal.trans hI.total⟩, hM⟩
    show s.live.Perm (s.live ++ [])
    rw [List.append_nil]

/-- **The run lemma.** -/
theorem run_inv {s t : Sys} {ops : List Op} (hrun : Run (deferAllocator mAlign) s ops t)
    (hI : SysInv mAlign s rs) : ∃ rs', SysInv mAlign t rs' ∧ Moves (blocks rs) (blocks rs') := by
  refine hrun.invariant (I := fun u => ∃ rs', SysInv mAlign u rs' ∧ Moves (blocks rs) (blocks rs'))
    ?_ ⟨rs, hI, .refl _⟩
  rintro u op ⟨rs₁, hI₁, hM₁⟩ ho
  obtain ⟨rs₂, hI₂, hM₂⟩ := step_inv hI₁ op ho
  exact ⟨rs₂, hI₂, hM₁.trans hM₂⟩

/-! ### Placing the nodes -/

/-- The depth of the trees. -/
def Kids.height : Kids → ℕ
  | .nil => 0
  | .cons _ _ kids rest => max (kids.height + 1) rest.height

theorem Kids.map_fst_places (k : Kids) (b : ℕ) : (k.places b).map Prod.fst = k.ids := by
  induction k generalizing b with
  | nil => rfl
  | cons id off kids rest ih ih' => simp [Kids.places, Kids.ids, ih, ih']

theorem Kids.height_le (k : Kids) : k.height ≤ k.ids.length := by
  induction k with
  | nil => exact le_rfl
  | cons id off kids rest ih ih' =>
    simp only [Kids.height, Kids.ids, List.length_cons, List.length_append]
    omega

/-- One pass of the loop in `visiChildren`. -/
def visitChild (fuel chunk : ℕ) (n : Nodes) (child : ℕ) : Nodes :=
  visiChildren fuel
    { n with offset := Function.update n.offset child (n.offset child + n.offset chunk) } child

theorem visiChildren_succ (fuel : ℕ) (n : Nodes) (chunk : ℕ) :
    visiChildren (fuel + 1) n chunk = (n.children chunk).foldl (visitChild fuel chunk) n := rfl

/-- **`visiChildren`** turns the offsets inside the parents into places. -/
theorem visit_spec (k : Kids) {fuel chunk : ℕ} {n : Nodes} {cs : List ℕ}
    (hrep : k.Rep n.offset n.children cs) (hnd : k.ids.Nodup) (hc : chunk ∉ k.ids)
    (hfuel : k.height ≤ fuel + 1) : ∃ o, cs.foldl (visitChild fuel chunk) n = { n with offset := o } ∧
      (∀ m p, (m, p) ∈ k.places (n.offset chunk) → o m = p) ∧ ∀ m ∉ k.ids, o m = n.offset m := by
  induction k generalizing fuel chunk n cs with
  | nil =>
    obtain rfl : cs = [] := hrep
    exact ⟨n.offset, rfl, fun m p h => absurd h List.not_mem_nil, fun _ _ => rfl⟩
  | cons id off kids rest ih ih' =>
    obtain ⟨cs', rfl, hoff, hk, hr⟩ := hrep
    simp only [Kids.ids, List.nodup_cons, List.mem_append, not_or, List.nodup_append'] at hnd
    obtain ⟨⟨hidk, hidr⟩, hndk, hndr, hdis⟩ := hnd
    simp only [Kids.ids, List.mem_cons, List.mem_append, not_or] at hc
    obtain ⟨hcid, hck, hcr⟩ := hc
    have hkid : ∀ m ∈ kids.ids, m ≠ id := fun m hm he => hidk (he ▸ hm)
    have hrid : ∀ m ∈ rest.ids, m ≠ id := fun m hm he => hidr (he ▸ hm)
    have hheight : kids.height ≤ fuel ∧ rest.height ≤ fuel + 1 := by
      simp only [Kids.height] at hfuel
      omega
    -- the child itself, then what is below it
    set n₁ : Nodes := { n with offset := Function.update n.offset id (n.offset id + n.offset chunk) }
      with hn₁
    have hk₁ : kids.Rep n₁.offset n₁.children (n₁.children id) :=
      hk.congr (fun m hm => Function.update_of_ne (hkid m hm) ..) fun _ _ => rfl
    have hbelow : ∃ o, visiChildren fuel n₁ id = { n₁ with offset := o } ∧
        (∀ m p, (m, p) ∈ kids.places (n₁.offset id) → o m = p) ∧
          ∀ m ∉ kids.ids, o m = n₁.offset m := by
      cases fuel with
      | zero =>
        cases kids with
        | nil => exact ⟨n₁.offset, rfl, fun m p h => absurd h List.not_mem_nil, fun _ _ => rfl⟩
        | cons i o' k r =>
          have h0 := hheight.1
          simp only [Kids.height] at h0
          omega
      | succ fuel => exact ih hk₁ hndk hidk hheight.1
    obtain ⟨o₁, ho₁, hpl₁, hout₁⟩ := hbelow
    have hid : n₁.offset id = n.offset chunk + off := by
      rw [hn₁]
      simp only [Function.update_self, hoff]
      omega
    have hrest : rest.Rep o₁ n.children cs' := by
      refine hr.congr (fun m hm => ?_) fun _ _ => rfl
      rw [hout₁ m fun hmk => hdis hmk hm]
      exact Function.update_of_ne (hrid m hm) ..
    have hchunk : o₁ chunk = n.offset chunk := by
      rw [hout₁ chunk hck]
      exact Function.update_of_ne hcid ..
    obtain ⟨o₂, ho₂, hpl₂, hout₂⟩ :=
      @ih' fuel chunk { n₁ with offset := o₁ } cs' hrest hndr hcr hheight.2
    refine ⟨o₂, ?_, ?_, ?_⟩
    · rw [List.foldl_cons]
      show cs'.foldl (visitChild fuel chunk) (visiChildren fuel n₁ id) = _
      rw [ho₁, ho₂]
    · intro m p hmp
      simp only [Kids.places, List.mem_cons, List.mem_append, Prod.mk.injEq] at hmp
      rcases hmp with ⟨rfl, rfl⟩ | hmp | hmp
      · exact (hout₂ m hidr).trans ((hout₁ m hidk).trans hid)
      · rw [← hid] at hmp
        have hm : m ∈ kids.ids := by
          rw [← kids.map_fst_places (n₁.offset id)]
          exact List.mem_map_of_mem hmp
        exact (hout₂ m fun hm' => hdis hm hm').trans (hpl₁ m p hmp)
      · rw [← hchunk] at hmp
        exact hpl₂ m p hmp
    · intro m hm
      simp only [Kids.ids, List.mem_cons, List.mem_append, not_or] at hm
      exact (hout₂ m hm.2.2).trans ((hout₁ m hm.2.1).trans (Function.update_of_ne hm.1 ..))

theorem apply_frame (s : State) (parent : Buffer) (fresh : Option ℕ) :
    (apply s parent fresh).1 ≠ .INVALID_VALUE ∧
      (apply s parent fresh).2.1.mTotalSize = s.mTotalSize ∧
      (apply s parent fresh).2.1.nodes.offset = s.nodes.offset := by
  unfold apply
  dsimp only
  split
  · exact ⟨nofun, rfl, rfl⟩
  · split
    · cases fresh <;> exact ⟨nofun, rfl, rfl⟩
    · split <;> exact ⟨nofun, rfl, rfl⟩

theorem placeAll_none (fuel : ℕ) (n : Nodes) (total : ℕ) :
    placeAll fuel n total none = (n, total) := by
  cases fuel <;> rfl

/-- `compute` on one root: every node gets its place in the row, the total is the root's size. -/
theorem compute_spec (hrep : Rep s.nodes s.mHead s.mTail [x]) (htotal : s.mTotalSize = 0)
    (hfree : s.mFreeList.length = 1) (parent : Buffer) (fresh : Option ℕ) :
    (compute s parent fresh).1 ≠ .INVALID_VALUE ∧
      (compute s parent fresh).2.1.mTotalSize = x.size ∧
      ∀ m i p, At (blocks [x]) m i p → (compute s parent fresh).2.1.nodes.offset m = p := by
  have hhead : s.mHead = some x.id := hrep.head_eq
  have htail : s.mTail = some x.id := hrep.tail_eq
  have hright : s.nodes.right x.id = none := hrep.links.2.1
  have hx : x ∈ [x] := List.mem_singleton_self x
  have hlt : x.id < s.nodes.next := hrep.lt_next (.inl List.mem_cons_self)
  have hnd := hrep.nodup
  simp only [rootIds_cons, rootIds_nil, kidIds_cons, kidIds_nil, List.append_nil,
    List.cons_append, List.nil_append, List.nodup_cons] at hnd
  have hlen := hrep.ids.length_eq
  simp only [rootIds_cons, rootIds_nil, kidIds_cons, kidIds_nil, List.append_nil,
    List.cons_append, List.nil_append, List.length_cons, List.length_range] at hlen
  obtain ⟨f, hf⟩ : ∃ f, s.nodes.next = f + 1 := ⟨_, hlen.symm⟩
  have hxk : ∀ m ∈ x.kids.ids, m ≠ x.id := fun m hm he => hnd.1 (he ▸ hm)
  have hkids : x.kids.Rep (Function.update s.nodes.offset x.id 0) s.nodes.children
      (s.nodes.children x.id) :=
    (hrep.kids x hx).congr (fun m hm => Function.update_of_ne (hxk m hm) ..) fun _ _ => rfl
  have hheight : x.kids.height ≤ f + 1 := by
    have := x.kids.height_le
    omega
  obtain ⟨o, ho, hpl, hout⟩ := @visit_spec x.kids f x.id
    { s.nodes with offset := Function.update s.nodes.offset x.id 0 } _ hkids hnd.2 hnd.1 hheight
  have hvisit : ∀ k, k = f + 1 → visiChildren k
      { s.nodes with offset := Function.update s.nodes.offset x.id 0 } x.id =
        { s.nodes with offset := o } := by
    rintro k rfl
    exact ho
  have hplace : ∀ k, k = f + 1 → placeAll k s.nodes 0 (some x.id) =
      ({ s.nodes with offset := o }, x.size) := by
    rintro k rfl
    rw [placeAll]
    dsimp only
    rw [hvisit _ hf]
    dsimp only
    rw [hright, placeAll_none, hrep.size_eq x hx, Nat.zero_add]
  have hne : s.mFreeList ≠ [] := fun he => by simp [he] at hfree
  have hcompute : compute s parent fresh =
      apply { s with nodes := { s.nodes with offset := o }, mTotalSize := x.size } parent fresh := by
    unfold compute
    rw [if_neg (by omega), if_neg hne, if_neg (by simp [hfree, hhead, htail]), hhead,
      hplace _ hf]
  obtain ⟨h1, h2, h3⟩ := apply_frame
    { s with nodes := { s.nodes with offset := o }, mTotalSize := x.size } parent fresh
  rw [hcompute]
  refine ⟨h1, h2, fun m i p hat => ?_⟩
  rw [h3]
  cases i with
  | succ i =>
    obtain ⟨q, hq, -⟩ := hat
    exact hq.elim
  | zero =>
    have hzero : Function.update s.nodes.offset x.id 0 x.id = 0 := Function.update_self ..
    rcases List.mem_cons.1 hat with he | hmem
    · cases he
      exact (hout x.id hnd.1).trans hzero
    · exact hpl m p (by dsimp only; rwa [hzero])

/-! ### The main theorems -/

/-- Once every chunk was freed, outside a barrier, at most one root is left. -/
theorem SysInv.eq_nil_or_singleton {s : Sys} (hI : SysInv mAlign s rs) (hlive : s.live = [])
    (hb : s.state.mBarrrier = false) :
    rs = [] ∨ ∃ x, rs = [x] ∧ s.state.mFreeList.length = 1 := by
  have hheld : s.held = [] := by rw [Sys.held, hlive, hI.barrier hb]; rfl
  have hnone : ∀ x ∈ rs, x.used = false := by
    intro x hx
    by_contra hu
    have hmem : (⟨x.id, x.size⟩ : Chunk) ∈ usedEntries rs :=
      mem_usedEntries.2 ⟨x, hx, by simpa using hu, rfl⟩
    have h := hI.owns.nodes.mem_iff.1 (List.mem_map_of_mem hmem)
    rw [hheld] at h
    exact List.not_mem_nil h
  match rs, hI, hnone with
  | [], _, _ => exact .inl rfl
  | [x], hI, hnone =>
    refine .inr ⟨x, rfl, ?_⟩
    rw [hI.owns.good.free.length_eq, freeEntries_cons_free (hnone x (by simp))]
    rfl
  | x :: y :: rs, hI, hnone =>
    have h := (List.isChain_cons_cons.1 hI.owns.good.apart).1
    simp [Apart, hnone x (by simp), hnone y (by simp)] at h

/-- A root stands where the roots before it end. -/
theorem at_root (a : List Root) (x : Root) (b : List Root) :
    At (blocks (a ++ x :: b)) x.id (blocks a).length (total (blocks a)) := by
  have h : At (blocks (x :: b)) x.id 0 0 := List.mem_cons_self
  rw [blocks_append]
  exact h.append_left (blocks a)

theorem at_later (a : List Root) (x : Root) (b : List Root) (y : Root) (c : List Root) :
    ∃ j q, At (blocks (a ++ x :: b ++ y :: c)) y.id j q ∧ (blocks a).length ≤ j ∧
      total (blocks a) + x.size ≤ q := by
  refine ⟨_, _, at_root (a ++ x :: b) y c, ?_, ?_⟩
  · simp
  · rw [blocks_append, total_append]
    exact Nat.add_le_add_left (Nat.le_add_right _ _) _

/-- Two chunks that are held are apart. -/
theorem Owns.apart (hO : Owns mAlign s rs H) (hpos : 0 < mAlign) {d : Chunk} (hc : c ∈ H)
    (hd : d ∈ H) (hne : c.node ≠ d.node) : ∃ i p j q, At (blocks rs) c.node i p ∧
      At (blocks rs) d.node j q ∧ (i ≤ j ∧ p + c.size ≤ q ∨ j ≤ i ∧ q + d.size ≤ p) := by
  obtain ⟨e, he, hec, hes⟩ := hO.sizes hpos c hc
  obtain ⟨e', he', hed, hes'⟩ := hO.sizes hpos d hd
  obtain ⟨x, hx, -, rfl⟩ := mem_usedEntries.1 he
  obtain ⟨y, hy, -, rfl⟩ := mem_usedEntries.1 he'
  rw [← hec, ← hed] at hne ⊢
  obtain ⟨a, b, rfl⟩ := List.append_of_mem hx
  rcases List.mem_append.1 hy with hy | hy
  · obtain ⟨a₁, a₂, rfl⟩ := List.append_of_mem hy
    obtain ⟨i, p, hat, hi, hp⟩ := at_later a₁ y a₂ x b
    refine ⟨i, p, _, _, hat, ?_, .inr ⟨hi, (Nat.add_le_add_left hes' _).trans hp⟩⟩
    have h := at_root a₁ y (a₂ ++ x :: b)
    rwa [← List.cons_append, ← List.append_assoc] at h
  · rcases List.mem_cons.1 hy with rfl | hy
    · exact absurd rfl hne
    · obtain ⟨b₁, b₂, rfl⟩ := List.append_of_mem hy
      obtain ⟨j, q, hat, hj, hq⟩ := at_later a x b₁ y b₂
      rw [List.append_assoc] at hat
      exact ⟨_, _, j, q, at_root a x _, hat, .inl ⟨hj, (Nat.add_le_add_left hes _).trans hq⟩⟩

theorem Owns.inside (hO : Owns mAlign s rs H) (hpos : 0 < mAlign) (hc : c ∈ H) :
    ∃ i p, At (blocks rs) c.node i p ∧ p + c.size ≤ total (blocks rs) := by
  obtain ⟨e, he, hec, hes⟩ := hO.sizes hpos c hc
  obtain ⟨x, hx, -, rfl⟩ := mem_usedEntries.1 he
  obtain ⟨a, b, rfl⟩ := List.append_of_mem hx
  rw [← hec]
  refine ⟨_, _, at_root a x b, ?_⟩
  rw [blocks_append, total_append]
  exact Nat.add_le_add_left (hes.trans (Nat.le_add_right _ _)) _

/-- The bytes of a chunk after `compute`. -/
def Chunk.range (c : Chunk) (s : State) : Set ℕ :=
  Set.Ico (s.nodes.offset c.node) (s.nodes.offset c.node + c.size)

/-- Nothing was ever allocated, when no root is left. -/
theorem SysInv.held_eq_nil {m : Sys} (hI : SysInv mAlign m rs) (hpos : 0 < mAlign)
    (hM : Moves (blocks rs) (blocks [])) : m.held = [] := by
  refine List.eq_nil_iff_forall_not_mem.2 fun c hc => ?_
  obtain ⟨i, p, hat, hp⟩ := hI.owns.inside hpos hc
  obtain ⟨i', p', hat', -⟩ := hM.within hat hp
  exact hat'

/-- Chunks that are held end up inside the planned memory, when all chunks are freed in the end. -/
theorem held_inside {m t : Sys} (hI : SysInv mAlign m rs) (hpos : 0 < mAlign) {bs : List Op}
    (hbs : Run (deferAllocator mAlign) m bs t) (hlive : t.live = [])
    (hb : t.state.mBarrrier = false) (parent : Buffer) (fresh : Option ℕ) :
    ∀ c ∈ m.held, (compute t.state parent fresh).2.1.nodes.offset c.node + c.size ≤
      (compute t.state parent fresh).2.1.mTotalSize := by
  obtain ⟨rs', hI', hM⟩ := run_inv hbs hI
  intro c hc
  rcases hI'.eq_nil_or_singleton hlive hb with rfl | ⟨x, rfl, hfree⟩
  · rw [hI.held_eq_nil hpos hM] at hc
    exact absurd hc List.not_mem_nil
  · obtain ⟨-, hsize, hplace⟩ := compute_spec hI'.owns.good.rep hI'.total hfree parent fresh
    have htotal : total (blocks [x]) = x.size := Nat.add_zero _
    obtain ⟨i, p, hat, hp⟩ := hI.owns.inside hpos hc
    obtain ⟨i', p', hat', hp'⟩ := hM.within hat hp
    rw [hplace _ _ _ hat', hsize]
    exact htotal ▸ hp'

/-- Chunks that are held get disjoint ranges inside the planned memory, when all chunks are freed in
the end. -/
theorem held_placed {m t : Sys} (hI : SysInv mAlign m rs) (hpos : 0 < mAlign) {bs : List Op}
    (hbs : Run (deferAllocator mAlign) m bs t) (hlive : t.live = [])
    (hb : t.state.mBarrrier = false) (parent : Buffer) (fresh : Option ℕ) :
    (∀ c ∈ m.held, c.range (compute t.state parent fresh).2.1 ⊆
      Set.Ico 0 (compute t.state parent fresh).2.1.mTotalSize) ∧
    m.held.Pairwise fun c d => Disjoint (c.range (compute t.state parent fresh).2.1)
      (d.range (compute t.state parent fresh).2.1) := by
  refine ⟨fun c hc => Set.Ico_subset_Ico (Nat.zero_le _)
    (held_inside hI hpos hbs hlive hb parent fresh c hc), ?_⟩
  obtain ⟨rs', hI', hM⟩ := run_inv hbs hI
  have hO := hI.owns
  rcases hI'.eq_nil_or_singleton hlive hb with rfl | ⟨x, rfl, hfree⟩
  · rw [hI.held_eq_nil hpos hM]
    exact .nil
  · obtain ⟨-, -, hplace⟩ := compute_spec hI'.owns.good.rep hI'.total hfree parent fresh
    refine (List.pairwise_map.1 hO.nodup).imp_of_mem fun {c d} hc hd hne => ?_
    obtain ⟨i, p, j, q, hat, hat', h⟩ := hO.apart hpos hc hd hne
    rw [Chunk.range, Chunk.range]
    rcases h with ⟨hij, hpq⟩ | ⟨hij, hpq⟩
    · obtain ⟨i', p', j', q', h1, h2, hle⟩ := hM.separated hat hat' hij hpq
      rw [hplace _ _ _ h1, hplace _ _ _ h2]
      exact Set.Ico_disjoint_Ico.2 (by omega)
    · obtain ⟨i', p', j', q', h1, h2, hle⟩ := hM.separated hat' hat hij hpq
      rw [hplace _ _ _ h1, hplace _ _ _ h2]
      exact Set.Ico_disjoint_Ico.2 (by omega)

/-- **Main theorem.** Chunks that were held at one moment of a run get disjoint ranges inside the
planned memory, when all chunks are freed in the end. -/
theorem compute_disjoint (hpos : 0 < mAlign) {as bs : List Op} {m t : Sys}
    (has : Run (deferAllocator mAlign) .init as m) (hbs : Run (deferAllocator mAlign) m bs t)
    (hlive : t.live = []) (hb : t.state.mBarrrier = false) (parent : Buffer) (fresh : Option ℕ) :
    (∀ c ∈ m.held, c.range (compute t.state parent fresh).2.1 ⊆
      Set.Ico 0 (compute t.state parent fresh).2.1.mTotalSize) ∧
    m.held.Pairwise fun c d => Disjoint (c.range (compute t.state parent fresh).2.1)
      (d.range (compute t.state parent fresh).2.1) := by
  obtain ⟨rs, hI, -⟩ := run_inv has (init_inv mAlign)
  exact held_placed hI hpos hbs hlive hb parent fresh

/-- Two chunks, the first of which is freed and enlarged while the second is in use. -/
def growOps : List Op :=
  [.free ⟨0, 100⟩, .alloc 200 false 0, .barrierBegin, .free ⟨1, 50⟩, .barrierEnd, .free ⟨0, 200⟩]

/-- The machine after two allocations. -/
def twoChunks : Sys := [Op.alloc 100 false 0, .alloc 50 false 0].foldl (step 64) .init

theorem twoChunks_run :
    Run (deferAllocator 64) .init [.alloc 100 false 0, .alloc 50 false 0] twoChunks :=
  .cons trivial (.cons trivial (.nil _))

theorem growOps_run : Run (deferAllocator 64) twoChunks growOps (growOps.foldl (step 64) twoChunks) :=
  .cons (show _ ∈ _ by decide) (.cons trivial (.cons trivial (.cons (show _ ∈ _ by decide)
    (.cons trivial (.cons (show _ ∈ _ by decide) (.nil _))))))

/-- The memory planned for the two runs together. -/
def grown : State := (compute (growOps.foldl (step 64) twoChunks).state ⟨none, 0⟩ (some 4096)).2.1

theorem compute_disjoint_grow :
    (∀ c ∈ twoChunks.held, c.range grown ⊆ Set.Ico 0 grown.mTotalSize) ∧
      twoChunks.held.Pairwise (fun c d => Disjoint (c.range grown) (d.range grown)) ∧
      grown.mTotalSize = 320 ∧ grown.nodes.offset 1 = 256 := by
  obtain ⟨h1, h2⟩ := compute_disjoint (by decide) twoChunks_run growOps_run (by decide) (by decide)
    ⟨none, 0⟩ (some 4096)
  exact ⟨h1, h2, by decide, by decide⟩

/-- Following `right` from `mHead` leads to `n`. -/
def Reaches (s : State) (n : ℕ) : Prop :=
  ∃ h, s.mHead = some h ∧ Relation.ReflTransGen (fun a b => s.nodes.right a = some b) h n

/-- The chunk list `xs` is well linked, its unused nodes are in `mFreeList` once each under their
sizes, in order, and outside a barrier no two neighbours are unused. -/
structure ChunkList (s : State) (xs : List ℕ) : Prop where
  linked : Seg s.nodes.left s.nodes.right none xs none
  head_eq : s.mHead = xs.head?
  tail_eq : s.mTail = xs.getLast?
  nodup : xs.Nodup
  reaches : ∀ n, Reaches s n ↔ n ∈ xs
  free : s.mFreeList.Perm ((xs.filter fun n => !s.nodes.usage n).map fun n => ⟨s.nodes.size n, n⟩)
  sorted : s.mFreeList.Pairwise fun x y => x.size ≤ y.size
  apart : s.mBarrrier = false →
    xs.IsChain fun x y => s.nodes.usage x = true ∨ s.nodes.usage y = true

theorem Good.chunkList (hG : Good s rs) : ChunkList s (rootIds rs) where
  linked := hG.rep.links
  head_eq := hG.rep.head_eq
  tail_eq := hG.rep.tail_eq
  nodup := hG.rep.nodup_roots
  reaches n := by
    rw [← hG.rep.links.reach, ← hG.rep.head_eq]
    rfl
  free := by
    refine hG.free.trans (List.Perm.of_eq ?_)
    rw [rootIds, List.filter_map, List.map_map, freeEntries]
    have hfilter : rs.filter (fun r => !r.used) =
        rs.filter ((fun n => !s.nodes.usage n) ∘ Root.id) :=
      List.filter_congr fun r hr => by rw [Function.comp, hG.rep.usage_eq r hr]
    rw [← hfilter]
    refine List.map_congr_left fun r hr => ?_
    rw [Function.comp, hG.rep.size_eq r (List.mem_of_mem_filter hr)]
  sorted := hG.sorted
  apart _ := by
    rw [rootIds, List.isChain_map]
    refine hG.apart.imp_of_mem_imp fun x y hx hy h => ?_
    rwa [hG.rep.usage_eq x hx, hG.rep.usage_eq y hy]

/-- **Main theorem.** The chunk list is well formed in every reachable state.  When all chunks were
freed, outside a barrier, one node is left, if there ever was any, and `compute` does not fail. -/
theorem chunkList_invariant {ops : List Op} {t : Sys}
    (hrun : Run (deferAllocator mAlign) .init ops t) : ∃ xs, ChunkList t.state xs ∧
      (t.live = [] → t.state.mBarrrier = false → t.state.mHead = t.state.mTail ∧
        ((∃ size separate align, Op.alloc size separate align ∈ ops) → xs.length = 1) ∧
        ∀ parent fresh, (compute t.state parent fresh).1 ≠ .INVALID_VALUE) := by
  obtain ⟨rs, hI, -⟩ := run_inv hrun (init_inv mAlign)
  refine ⟨rootIds rs, hI.owns.good.chunkList, fun hlive hb => ?_⟩
  rcases hI.eq_nil_or_singleton hlive hb with rfl | ⟨x, rfl, hfree⟩
  · have hrep := hI.owns.good.rep
    refine ⟨hrep.head_eq.trans hrep.tail_eq.symm, ?_, fun parent fresh => ?_⟩
    · rintro ⟨size, separate, align, hmem⟩
      obtain ⟨as, bs, rfl⟩ := List.append_of_mem hmem
      obtain ⟨m, has, hbs⟩ := Run.append_iff.1 hrun
      obtain ⟨rs₁, hI₁, -⟩ := run_inv has (init_inv mAlign)
      cases hbs with
      | cons _ hbs =>
        obtain ⟨rs₂, hI₂, -⟩ := step_inv hI₁ (.alloc size separate align) trivial
        obtain ⟨rs₃, hI₃, f, g, hM⟩ := run_inv hbs hI₂
        obtain ⟨a, x, b, rfl, -, -⟩ := hI₂.owns.exists_root (c := ⟨_, size⟩) List.mem_cons_self
        -- the root of that chunk is still somewhere, but the list is empty
        have hat := hM.item _ _ _ (at_root a x b)
        have hnil : rootIds rs₃ = [] :=
          List.head?_eq_none_iff.1 (hI₃.owns.good.rep.head_eq.symm.trans hrep.head_eq)
        rw [List.map_eq_nil_iff.1 hnil] at hat
        exact hat.elim
    · have hnil : t.state.mFreeList = [] := hI.owns.good.free.eq_nil
      unfold compute
      rw [hI.total, if_neg (lt_irrefl 0), if_pos hnil]
      nofun
  · have hrep := hI.owns.good.rep
    exact ⟨hrep.head_eq.trans hrep.tail_eq.symm, fun _ => rfl, fun parent fresh =>
      (compute_spec hrep hI.total hfree parent fresh).1⟩

theorem chunkList_invariant_grow :
    ∃ xs, ChunkList (growOps.foldl (step 64) twoChunks).state xs ∧ xs.length = 1 := by
  obtain ⟨xs, hxs, h⟩ :=
    chunkList_invariant (Run.append_iff.2 ⟨twoChunks, twoChunks_run, growOps_run⟩)
  exact ⟨xs, hxs, (h (by decide) (by decide)).2.1 ⟨100, false, 0, List.mem_cons_self⟩⟩

end Mnn.Defer
