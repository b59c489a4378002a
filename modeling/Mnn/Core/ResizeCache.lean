import Mathlib.Tactic

/-!
# The resize cache of an operator

`Schedule::OpResizeCache` (`source/core/Schedule.cpp`) keeps the shapes, types and formats of an
operator's inputs and the contents of the inputs its shape depends on; while they match, shape and
geometry computation are skipped.

* `Tensor`, `OpResizeCache`: the fields that the cache reads, and the cache;
* `Match`: what `match` compares, `match_iff`;
* `Unchanged`: two lists of inputs agree in all that matters for a resize;
* `match_unchanged`: **after any run, if `match` accepts inputs that are not empty, they agree with
  those of the last `insert`, which was made while the cache was open and after the last `close`**.

`close` empties the snapshot and leaves `mComputed` set, so an empty list of inputs still matches
after a `close` and an `open`.
-/

namespace Mnn.Resize

/-- `halide_type_t` without lanes. -/
structure DataType where
  code : ℕ
  bits : ℕ
  deriving DecidableEq, Repr

/-- `halide_type_t::bytes`. -/
def DataType.bytes (t : DataType) : ℕ := (t.bits + 7) / 8

/-- The formats of `MNN_DATA_FORMAT`. -/
inductive Format
  | nchw
  | nhwc
  | nc4hw4
  | nhwc4
  | unknown
  deriving DecidableEq, Repr

/-- What the cache reads of an input: its description and the memory behind `host`. -/
structure Tensor where
  dims : List ℕ
  type : DataType
  dimensionFormat : Format
  memoryVirtual : Bool := false
  computeShapeStage : Bool := false
  host : ℕ → UInt8

/-- `Tensor::usize`: dimension 1 is rounded up to 4 channels in NC4HW4. -/
def Tensor.usize (t : Tensor) : ℕ :=
  t.type.bytes * (t.dims.mapIdx fun i d =>
    if t.dimensionFormat = .nc4hw4 ∧ i = 1 then (d + 3) / 4 * 4 else d).prod

/-- The bytes of a tensor. -/
def Tensor.bytes (t : Tensor) : List UInt8 := (List.range t.usize).map t.host

/-- `OpResizeCache::ShapeInfo`. -/
structure ShapeInfo where
  order : Format := .unknown
  dim : List ℕ := []
  type : DataType := ⟨0, 0⟩
  buffer : List UInt8 := []

/-- `Schedule::OpResizeCache`. -/
structure OpResizeCache where
  mInputInfos : List ShapeInfo := []
  mComputed : Bool := false
  mCanCache : Bool := false
  mPass : Bool := false
  mNeedCompareContent : List ℕ := []

namespace OpResizeCache

def close (c : OpResizeCache) (pass : Bool) : OpResizeCache :=
  { c with mCanCache := false, mInputInfos := [], mPass := pass }

def «open» (c : OpResizeCache) : OpResizeCache := { c with mCanCache := true }

def addContentIndex (c : OpResizeCache) (index : ℕ) : OpResizeCache :=
  { c with mNeedCompareContent := c.mNeedCompareContent ++ [index] }

/-- The comparison of one input with its snapshot. -/
def matchInput (s : ShapeInfo) (t : Tensor) : Bool :=
  s.order = t.dimensionFormat && (s.type.code = t.type.code && s.type.bits = t.type.bits) &&
    s.dim = t.dims && !(t.memoryVirtual && t.computeShapeStage)

/-- `memcmp` on the bytes of the snapshot. -/
def matchContent (s : ShapeInfo) (t : Tensor) : Bool :=
  s.buffer = (List.range s.buffer.length).map t.host

/-- `OpResizeCache::match`, with the value it leaves in `compared`.  An index of
`mNeedCompareContent` without an input reads out of bounds in the source; here it compares
nothing. -/
def «match» (c : OpResizeCache) (inputs : List Tensor) (compared : Bool) : Bool × Bool :=
  if !c.mCanCache then (c.mPass, compared)
  else if !c.mComputed then (false, compared)
  else if c.mInputInfos.length ≠ inputs.length then (false, compared)
  else if !(List.zipWith matchInput c.mInputInfos inputs).all id then (false, true)
  else
    (c.mNeedCompareContent.all fun dim =>
      match c.mInputInfos[dim]?, inputs[dim]? with
      | some s, some t => matchContent s t
      | _, _ => true, true)

/-- The loop of `insert` over the inputs: a buffer that was there stays. -/
def insertInfo (old : Option ShapeInfo) (t : Tensor) : ShapeInfo :=
  { order := t.dimensionFormat, dim := t.dims, type := t.type
    buffer := (old.map ShapeInfo.buffer).getD [] }

/-- The loop of `insert` over `mNeedCompareContent`: a content above the limit closes the cache. -/
def insertContents (inputs : List Tensor) : List ℕ → OpResizeCache → OpResizeCache
  | [], c => c
  | dim :: l, c =>
    match inputs[dim]? with
    | none => insertContents inputs l c
    | some t =>
      if t.usize > 10000 then c.close false
      else
        insertContents inputs l
          { c with mInputInfos := c.mInputInfos.modify dim fun s => { s with buffer := t.bytes } }

/-- `OpResizeCache::insert`. -/
def insert (c : OpResizeCache) (inputs : List Tensor) : OpResizeCache :=
  if !c.mCanCache then c
  else
    insertContents inputs c.mNeedCompareContent
      { c with
        mComputed := true
        mInputInfos := inputs.mapIdx fun u t => insertInfo c.mInputInfos[u]? t }

end OpResizeCache

/-! ### Runs -/

/-- The calls on a cache. -/
inductive Call
  | insert (inputs : List Tensor)
  | «match» (inputs : List Tensor)
  | close
  | «open»

def step (c : OpResizeCache) : Call → OpResizeCache
  | .insert inputs => c.insert inputs
  | .match _ => c
  | .close => c.close false
  | .open => c.open

/-- A fresh cache with its content indexes. -/
def fresh (contents : List ℕ) : OpResizeCache :=
  contents.foldl OpResizeCache.addContentIndex {}

def run (contents : List ℕ) (calls : List Call) : OpResizeCache := calls.foldl step (fresh contents)

/-- What a resize depends on is the same in both lists of inputs. -/
structure Unchanged (contents : List ℕ) (inputs inputs' : List Tensor) : Prop where
  length : inputs.length = inputs'.length
  shape : inputs.map Tensor.dims = inputs'.map Tensor.dims
  type : inputs.map Tensor.type = inputs'.map Tensor.type
  format : inputs.map Tensor.dimensionFormat = inputs'.map Tensor.dimensionFormat
  content : ∀ dim ∈ contents, inputs[dim]?.map Tensor.bytes = inputs'[dim]?.map Tensor.bytes

/-! ### What a snapshot holds -/

def ShapeInfo.shape (s : ShapeInfo) : Format × List ℕ × DataType := (s.order, s.dim, s.type)

def Tensor.shape (t : Tensor) : Format × List ℕ × DataType := (t.dimensionFormat, t.dims, t.type)

theorem usize_congr {t t' : Tensor} (h : t.shape = t'.shape) : t.usize = t'.usize := by
  simp only [Tensor.shape, Prod.mk.injEq] at h
  simp only [Tensor.usize, h.1, h.2.1, h.2.2]

theorem map_shape_modify (infos : List ShapeInfo) (dim : ℕ) (b : List UInt8) :
    (infos.modify dim fun s => { s with buffer := b }).map ShapeInfo.shape =
      infos.map ShapeInfo.shape := by
  refine List.ext_getElem? fun i => ?_
  simp only [List.getElem?_map, List.getElem?_modify]
  split_ifs
  · cases infos[i]? <;> rfl
  · cases infos[i]? <;> rfl

namespace OpResizeCache

variable {inputs : List Tensor} {c : OpResizeCache}

/-- The loop over the contents closes the cache, or leaves the shapes and takes each content. -/
theorem insertContents_spec (l : List ℕ) (hs : c.mInputInfos.map ShapeInfo.shape =
    inputs.map Tensor.shape) :
    let r := insertContents inputs l c
    r.mNeedCompareContent = c.mNeedCompareContent ∧ (c.mPass = false → r.mPass = false) ∧
      (r.mInputInfos = [] ∨ r.mCanCache = c.mCanCache ∧
        r.mInputInfos.map ShapeInfo.shape = inputs.map Tensor.shape ∧
        ∀ i s t, r.mInputInfos[i]? = some s → inputs[i]? = some t →
          (i ∈ l ∨ ∃ s₀, c.mInputInfos[i]? = some s₀ ∧ s₀.buffer = t.bytes) →
            s.buffer = t.bytes) := by
  induction l generalizing c with
  | nil =>
    refine ⟨rfl, id, .inr ⟨rfl, hs, fun i s t hs ht h => ?_⟩⟩
    obtain hnil | ⟨s₀, hs₀, hb⟩ := h
    · exact absurd hnil List.not_mem_nil
    · obtain rfl : s₀ = s := Option.some.inj (hs₀.symm.trans hs)
      exact hb
  | cons dim l ih =>
    unfold insertContents
    cases hd : inputs[dim]? with
    | none =>
      obtain ⟨h1, h2, h3⟩ := ih hs
      refine ⟨h1, h2, h3.imp_right fun ⟨hopen, hshape, hbuf⟩ => ⟨hopen, hshape, ?_⟩⟩
      intro i s t hi ht h
      refine hbuf i s t hi ht ?_
      rcases h with h | h
      · rcases List.mem_cons.1 h with rfl | h
        · exact absurd (hd.symm.trans ht) nofun
        · exact .inl h
      · exact .inr h
    | some u =>
      dsimp only
      split_ifs with hbig
      · exact ⟨rfl, fun _ => rfl, .inl rfl⟩
      · obtain ⟨h1, h2, h3⟩ := @ih
          { c with mInputInfos := c.mInputInfos.modify dim (fun s => { s with buffer := u.bytes }) }
          ((map_shape_modify _ _ _).trans hs)
        refine ⟨h1, h2, h3.imp_right fun ⟨hopen, hshape, hbuf⟩ => ⟨hopen, hshape, ?_⟩⟩
        intro i s t hi ht h
        refine hbuf i s t hi ht ?_
        by_cases hdim : dim = i
        · -- the content that has just been taken
          subst hdim
          obtain rfl : u = t := Option.some.inj (hd.symm.trans ht)
          have hlen : dim < c.mInputInfos.length := by
            have hl := congrArg List.length hs
            simp only [List.length_map] at hl
            rw [hl]
            exact (List.getElem?_eq_some_iff.1 ht).1
          refine .inr ⟨{ c.mInputInfos[dim] with buffer := u.bytes }, ?_, rfl⟩
          simp [List.getElem?_eq_getElem hlen]
        · rcases h with h | ⟨s₀, hs₀, hb⟩
          · exact .inl (List.mem_of_ne_of_mem (Ne.symm hdim) h)
          · refine .inr ⟨s₀, ?_, hb⟩
            simp [hdim, hs₀]

/-- The snapshot of `inputs`. -/
structure Holds (c : OpResizeCache) (inputs : List Tensor) : Prop where
  shape : c.mInputInfos.map ShapeInfo.shape = inputs.map Tensor.shape
  content : ∀ i ∈ c.mNeedCompareContent, ∀ s t, c.mInputInfos[i]? = some s →
    inputs[i]? = some t → s.buffer = t.bytes

/-- `insert` on an open cache takes the snapshot or closes the cache. -/
theorem insert_spec (hopen : c.mCanCache = true) (inputs : List Tensor) :
    (c.insert inputs).mNeedCompareContent = c.mNeedCompareContent ∧
      (c.mPass = false → (c.insert inputs).mPass = false) ∧
      ((c.insert inputs).mInputInfos = [] ∨
        (c.insert inputs).mCanCache = true ∧ (c.insert inputs).Holds inputs) := by
  have hshape : (inputs.mapIdx fun u t => insertInfo c.mInputInfos[u]? t).map ShapeInfo.shape =
      inputs.map Tensor.shape := by
    refine List.ext_getElem? fun i => ?_
    simp only [List.getElem?_map, List.getElem?_mapIdx]
    cases inputs[i]? <;> rfl
  obtain ⟨h1, h2, h3⟩ := @insertContents_spec inputs
    { c with
      mComputed := true
      mInputInfos := inputs.mapIdx fun u t => insertInfo c.mInputInfos[u]? t }
    c.mNeedCompareContent hshape
  have hinsert : c.insert inputs = insertContents inputs c.mNeedCompareContent _ :=
    if_neg (by simp [hopen])
  rw [hinsert]
  refine ⟨h1, h2, h3.imp_right fun ⟨ho, hs, hb⟩ => ⟨ho.trans hopen, hs, ?_⟩⟩
  intro i hi s t hsi hti
  rw [h1] at hi
  exact hb i s t hsi hti (.inl hi)

/-- What it takes for `match` to accept. -/
theorem match_true {compared : Bool} (hpass : c.mPass = false)
    (h : (c.match inputs compared).1 = true) :
    c.mCanCache = true ∧ c.mInputInfos.length = inputs.length ∧
      c.mInputInfos.map ShapeInfo.shape = inputs.map Tensor.shape ∧
      ∀ i ∈ c.mNeedCompareContent, ∀ s t, c.mInputInfos[i]? = some s → inputs[i]? = some t →
        s.buffer = (List.range s.buffer.length).map t.host := by
  unfold «match» at h
  split_ifs at h with hcan hcomp hlen hshape
  · exact absurd (hpass.symm.trans h) nofun
  · have hlen' : c.mInputInfos.length = inputs.length := not_not.1 hlen
    refine ⟨by simpa using hcan, hlen', ?_, ?_⟩
    · have hzip : (List.zipWith matchInput c.mInputInfos inputs).all id = true := by
        simpa using hshape
      refine List.ext_getElem (by simpa using hlen') fun i h1 h2 => ?_
      rw [List.getElem_map, List.getElem_map]
      rw [List.length_map] at h1 h2
      have hmem : matchInput c.mInputInfos[i] inputs[i] ∈
          List.zipWith matchInput c.mInputInfos inputs := by
        have hi : i < (List.zipWith matchInput c.mInputInfos inputs).length := by
          rw [List.length_zipWith]
          omega
        exact List.mem_iff_getElem.2 ⟨i, hi, List.getElem_zipWith⟩
      have hin := List.all_eq_true.1 hzip _ hmem
      simp only [matchInput, id, Bool.and_eq_true, decide_eq_true_eq] at hin
      obtain ⟨⟨⟨horder, hcode, hbits⟩, hdim⟩, -⟩ := hin
      have htype : c.mInputInfos[i].type = inputs[i].type := by
        cases ht : c.mInputInfos[i].type
        cases ht' : inputs[i].type
        rw [ht, ht'] at hcode hbits
        simp only at hcode hbits
        rw [hcode, hbits]
      simp only [ShapeInfo.shape, Tensor.shape, horder, hdim, htype]
    · intro i hi s t hs ht
      have hall := List.all_eq_true.1 h i hi
      rw [hs, ht] at hall
      simpa [matchContent] using hall

/-- A snapshot of inputs that `match` accepts against others. -/
theorem Holds.unchanged {ins : List Tensor} {compared : Bool} (hc : c.Holds ins)
    (hpass : c.mPass = false) (h : (c.match inputs compared).1 = true) :
    Unchanged c.mNeedCompareContent ins inputs := by
  obtain ⟨-, -, hshape, hcontent⟩ := match_true hpass h
  have hboth : ins.map Tensor.shape = inputs.map Tensor.shape := hc.shape.symm.trans hshape
  have hfst := congrArg (List.map Prod.fst) hboth
  have hdims := congrArg (List.map fun p => p.2.1) hboth
  have htype := congrArg (List.map fun p => p.2.2) hboth
  simp only [List.map_map] at hfst hdims htype
  refine ⟨by simpa using congrArg List.length hboth, hdims, htype, hfst, fun i hi => ?_⟩
  have hget : ins[i]?.map Tensor.shape = inputs[i]?.map Tensor.shape := by
    rw [← List.getElem?_map, ← List.getElem?_map, hboth]
  have hinfo : c.mInputInfos[i]?.map ShapeInfo.shape = ins[i]?.map Tensor.shape := by
    rw [← List.getElem?_map, ← List.getElem?_map, hc.shape]
  cases ht : ins[i]? with
  | none =>
    rw [ht] at hget
    cases ht' : inputs[i]? with
    | none => rfl
    | some t' => simp [ht'] at hget
  | some t =>
    rw [ht] at hget hinfo
    cases ht' : inputs[i]? with
    | none => simp [ht'] at hget
    | some t' =>
      cases hs : c.mInputInfos[i]? with
      | none => simp [hs] at hinfo
      | some s =>
        have hsize : t.usize = t'.usize := by
          rw [ht'] at hget
          exact usize_congr (Option.some.inj hget)
        have hold : s.buffer = t.bytes := hc.content i hi s t hs ht
        have hnew := hcontent i hi s t' hs ht'
        have hlen : s.buffer.length = t.usize := by rw [hold, Tensor.bytes]; simp
        rw [hlen, hsize] at hnew
        exact congrArg some (hold.symm.trans hnew)

end OpResizeCache

/-! ### Every run -/

/-- The invariant: what the cache holds was taken by the last `insert`, with the cache open, and
nothing but `match` and `open` came after. -/
structure Fresh (contents : List ℕ) (calls : List Call) (c : OpResizeCache) : Prop where
  indexes : c.mNeedCompareContent = contents
  pass : c.mPass = false
  snapshot : c.mInputInfos ≠ [] → c.mCanCache = true ∧ ∃ pre ins post,
    calls = pre ++ .insert ins :: post ∧ (run contents pre).mCanCache = true ∧
      (∀ call ∈ post, call = .open ∨ ∃ inputs, call = .match inputs) ∧ c.Holds ins

theorem fresh_contents (contents : List ℕ) :
    fresh contents = { mNeedCompareContent := contents } := by
  have key : ∀ (l : List ℕ) (c : OpResizeCache), l.foldl OpResizeCache.addContentIndex c =
      { c with mNeedCompareContent := c.mNeedCompareContent ++ l } := by
    intro l
    induction l with
    | nil => intro c; simp
    | cons i l ih => intro c; rw [List.foldl_cons, ih]; simp [OpResizeCache.addContentIndex]
  exact key contents {}

/-- A call that leaves the snapshot. -/
theorem Fresh.keep {contents : List ℕ} {calls : List Call} {c c' : OpResizeCache}
    (h : Fresh contents calls c) {call : Call}
    (hcall : call = .open ∨ ∃ inputs, call = .match inputs)
    (hc : c' = c ∨ c' = c.open) : Fresh contents (calls ++ [call]) c' := by
  have hinfos : c'.mInputInfos = c.mInputInfos ∧ c'.mPass = c.mPass ∧
      c'.mNeedCompareContent = c.mNeedCompareContent ∧
      (c.mCanCache = true → c'.mCanCache = true) := by
    rcases hc with rfl | rfl
    · exact ⟨rfl, rfl, rfl, id⟩
    · exact ⟨rfl, rfl, rfl, fun _ => rfl⟩
  obtain ⟨hi, hp, hn, ho⟩ := hinfos
  refine ⟨hn.trans h.indexes, hp.trans h.pass, fun hne => ?_⟩
  obtain ⟨hcan, pre, ins, post, hcalls, hopen, hpost, hholds⟩ := h.snapshot (hi ▸ hne)
  refine ⟨ho hcan, pre, ins, post ++ [call], by rw [hcalls]; simp, hopen, ?_, ?_⟩
  · intro x hx
    rcases List.mem_append.1 hx with hx | hx
    · exact hpost x hx
    · obtain rfl := List.mem_singleton.1 hx
      exact hcall
  · exact ⟨by rw [hi]; exact hholds.shape, by rw [hi, hn]; exact hholds.content⟩

/-- **The run lemma.** -/
theorem run_fresh (contents : List ℕ) (calls : List Call) :
    Fresh contents calls (run contents calls) := by
  induction calls using List.reverseRecOn with
  | nil =>
    show Fresh contents [] (fresh contents)
    rw [fresh_contents]
    exact ⟨rfl, rfl, fun h => absurd rfl h⟩
  | append_singleton calls call ih =>
    have hrun : run contents (calls ++ [call]) = step (run contents calls) call := by
      rw [run, List.foldl_append]
      rfl
    rw [hrun]
    cases call with
    | «match» inputs => exact ih.keep (.inr ⟨inputs, rfl⟩) (.inl rfl)
    | «open» => exact ih.keep (.inl rfl) (.inr rfl)
    | close => exact ⟨ih.indexes, rfl, fun h => absurd rfl h⟩
    | insert inputs =>
      show Fresh contents _ ((run contents calls).insert inputs)
      by_cases hopen : (run contents calls).mCanCache = true
      · obtain ⟨hneed, hpass, hinfos⟩ := OpResizeCache.insert_spec hopen inputs
        refine ⟨hneed.trans ih.indexes, hpass ih.pass, fun hne => ?_⟩
        obtain ⟨hcan, hholds⟩ := hinfos.resolve_left hne
        exact ⟨hcan, calls, inputs, [], rfl, hopen, fun _ hx => absurd hx List.not_mem_nil, hholds⟩
      · -- a closed cache has no snapshot and takes none
        have hsame : (run contents calls).insert inputs = run contents calls :=
          if_pos (by simp [hopen])
        rw [hsame]
        exact ⟨ih.indexes, ih.pass, fun hne => absurd (ih.snapshot hne).1 hopen⟩

/-- **Whenever `match` accepts inputs, not an empty list, they are in number, shapes, types, formats
and compared contents those of the last `insert`; that was made while the cache was open, and no
`close` and no other `insert` lies between it and the `match`.** -/
theorem match_unchanged (contents : List ℕ) (calls : List Call) (inputs : List Tensor)
    (compared : Bool) (h : ((run contents calls).match inputs compared).1 = true)
    (hne : inputs ≠ []) :
    ∃ pre ins post, calls = pre ++ .insert ins :: post ∧ (run contents pre).mCanCache = true ∧
      (∀ call ∈ post, call = .open ∨ ∃ inputs, call = .match inputs) ∧
      Unchanged contents ins inputs := by
  have hfresh := run_fresh contents calls
  obtain ⟨-, hlen, -, -⟩ := OpResizeCache.match_true hfresh.pass h
  have hinfos : (run contents calls).mInputInfos ≠ [] := by
    intro hnil
    rw [hnil] at hlen
    exact hne (List.length_eq_zero_iff.1 hlen.symm)
  obtain ⟨-, pre, ins, post, hcalls, hopen, hpost, hholds⟩ := hfresh.snapshot hinfos
  refine ⟨pre, ins, post, hcalls, hopen, hpost, ?_⟩
  have hunchanged := hholds.unchanged hfresh.pass h
  rwa [hfresh.indexes] at hunchanged

/-- An input of two bytes whose content is compared, inserted and met again. -/
theorem match_unchanged_same :
    ∃ pre ins post, [Call.open, .insert [⟨[2], ⟨0, 8⟩, .nchw, false, false, fun _ => 1⟩]] =
        pre ++ .insert ins :: post ∧ (run [0] pre).mCanCache = true ∧
      (∀ call ∈ post, call = .open ∨ ∃ inputs, call = .match inputs) ∧
      Unchanged [0] ins [⟨[2], ⟨0, 8⟩, .nchw, false, false, fun _ => 1⟩] :=
  match_unchanged [0] [.open, .insert [⟨[2], ⟨0, 8⟩, .nchw, false, false, fun _ => 1⟩]]
    [⟨[2], ⟨0, 8⟩, .nchw, false, false, fun _ => 1⟩] false (by decide) (by simp)

/-- An operator without inputs: after a `close` and an `open` the old `insert` still counts. -/
theorem close_keeps_empty :
    ¬ ∀ (contents : List ℕ) (calls : List Call) (inputs : List Tensor) (compared : Bool),
      ((run contents calls).match inputs compared).1 = true →
        ∃ pre ins post, calls = pre ++ .insert ins :: post ∧
          (run contents pre).mCanCache = true ∧
          (∀ call ∈ post, call = .open ∨ ∃ inputs, call = .match inputs) ∧
          Unchanged contents ins inputs := by
  intro h
  obtain ⟨pre, ins, post, hcalls, -, hpost, -⟩ :=
    h [] [.open, .insert [], .close, .open] [] false (by decide)
  rcases pre with _ | ⟨a, _ | ⟨b, _ | ⟨c, _ | ⟨d, pre⟩⟩⟩⟩
  · simp at hcalls
  · obtain ⟨-, -, rfl⟩ : Call.open = a ∧ [] = ins ∧ [Call.close, .open] = post := by
      simpa using hcalls
    rcases hpost .close List.mem_cons_self with hc | ⟨_, hc⟩ <;> cases hc
  all_goals simp at hcalls

end Mnn.Resize
