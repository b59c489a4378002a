import Mathlib.Algebra.BigOperators.Fin
import Mathlib.Algebra.Module.Pi
import Mathlib.Tactic
import Mnn.Lib.Buckets

/-!
# `MoEModule`: a mixture of experts

`onForward` gives a single token to its experts one by one; several tokens are regrouped by expert,
and each expert gets its tokens at once.

* `create`, `decode`, `prefill`, `onForward`: the module, over exact numbers;
* `Inputs.routed`: what each token should become, for experts that work row by row;
* `prefill_eq`, `decode_eq`: the two paths; `routes_of_pos`: they give that, if a token has an
  expert at all.
-/

namespace Mnn.MoE

open Lib

variable {R : Type} [CommSemiring R] {d : ℕ}

/-! ### Tensors of rows -/

/-- A tensor with one row of `d` numbers for each token. -/
abbrev Tensor (R : Type) (d : ℕ) := List (Fin d → R)

/-- `_Split` along the rows, into `n` parts of one row. -/
def _Split (value : Tensor R d) (n : ℕ) : Option (List (Tensor R d)) :=
  if value.length = n then some (value.map ([·])) else none

/-- `_Concat` along the rows; it needs values, none of them null. -/
def _Concat (values : List (Option (Tensor R d))) : Option (Tensor R d) :=
  if values = [] then none else (values.mapM id).map List.flatten

/-- `_Multiply` by a scalar. -/
def _Multiply (x : Tensor R d) (scale : R) : Tensor R d := x.map (scale • ·)

/-- `_Add` of tensors of one shape. -/
def _Add (x y : Tensor R d) : Option (Tensor R d) :=
  if x.length = y.length then some (List.zipWith (· + ·) x y) else none

/-! ### The module -/

/-- An attribute of the op: its key, when it has one, and its number. -/
structure Attribute where
  key : Option String
  i : ℤ

structure Params where
  numExperts : ℤ := 128
  topK : ℤ := 1
  layerId : ℤ := 0

/-- The loop over the attributes. -/
def params (attrs : List Attribute) : Params :=
  attrs.foldl (fun p attr =>
    if attr.key = some "num_experts" then { p with numExperts := attr.i }
    else if attr.key = some "top_k" then { p with topK := attr.i }
    else if attr.key = some "layer_id" then { p with layerId := attr.i }
    else p) {}

/-- An expert, whose only input and output are rows. -/
abbrev Expert (R : Type) (d : ℕ) := Tensor R d → Tensor R d

/-- The module without the last of its `mExperts`, which is `compute`. -/
structure MoEModule (R : Type) (d : ℕ) where
  mNumExperts : ℤ
  mTopK : ℤ
  mExperts : List (Expert R d)
  length_mExperts : mExperts.length = mNumExperts.toNat

def create (attrs : List Attribute) (subGraph : String → Option (Expert R d)) :
    Option (MoEModule R d) :=
  let p := params attrs
  match h : (List.range p.numExperts.toNat).mapM fun i =>
    subGraph ("/expert/" ++ toString p.layerId ++ "_" ++ toString i) with
  | none => none
  | some mExperts => some ⟨p.numExperts, p.topK, mExperts, by
      rw [length_of_mapM h, List.length_range]⟩

/-- The compute submodule: the states below each other, times the scales as a column, summed. -/
def compute (topK : ℤ) (states : List (Tensor R d)) (scales : List R) : Option (Tensor R d) := do
  guard (states.length = topK.toNat)
  let hidden_states ← _Concat (states.map some)
  guard (hidden_states.length = scales.length)
  return [(List.zipWith (fun state scale => scale • state) hidden_states scales).sum]

/-- `seqlen` and `topK` are the extents of the two tables, after a batch of one. -/
structure Inputs (R : Type) (d : ℕ) where
  hiddenStates : Tensor R d
  routingWeights : List R
  selectedExperts : List ℕ
  seqlen : ℕ
  topK : ℕ

/-- The path for one token. -/
def decode (m : MoEModule R d) (x : Inputs R d) : Option (Tensor R d) := do
  let mHiddenStatesList ← (List.range x.topK).mapM fun i => do
    let expertId ← x.selectedExperts[i]?
    let expert ← m.mExperts[expertId]?
    return expert x.hiddenStates
  compute m.mTopK mHiddenStatesList x.routingWeights

/-- The tokens of each expert, with their scales. -/
def expertWorks (mNumExperts : ℤ) (x : Inputs R d) : Option (List (List (ℕ × R))) := do
  guard (0 ≤ mNumExperts)
  (List.range x.seqlen).foldlM (fun works i =>
    (List.range x.topK).foldlM (fun works j => do
      let expertId ← x.selectedExperts[i * x.topK + j]?
      let scale ← x.routingWeights[i * x.topK + j]?
      push works expertId (i, scale)) works) (List.replicate mNumExperts.toNat [])

/-- `finalHiddenStates[tokenId]` is assigned, or added to. -/
def accumulate (finalHiddenStates : List (Option (Tensor R d))) (tokenId : ℕ)
    (scaleHiddenStates : Tensor R d) : Option (List (Option (Tensor R d))) := do
  match ← finalHiddenStates[tokenId]? with
  | none => return finalHiddenStates.set tokenId (some scaleHiddenStates)
  | some state =>
    let sum ← _Add state scaleHiddenStates
    return finalHiddenStates.set tokenId (some sum)

/-- One expert and its tokens. -/
def runExpert (expert : Expert R d) (tokenHiddenStates : List (Tensor R d)) (works : List (ℕ × R))
    (finalHiddenStates : List (Option (Tensor R d))) : Option (List (Option (Tensor R d))) :=
  match works with
  | [] => some finalHiddenStates
  | [(tokenId, scale)] => do
    let workHiddenStates ← tokenHiddenStates[tokenId]?
    accumulate finalHiddenStates tokenId (_Multiply (expert workHiddenStates) scale)
  | works => do
    let inputTokens ← works.mapM fun w => tokenHiddenStates[w.1]?
    let workHiddenStates ← _Concat (inputTokens.map some)
    let curHiddenStatesList ← _Split (expert workHiddenStates) works.length
    (works.zip curHiddenStatesList).foldlM (fun final (w, state) =>
      accumulate final w.1 (_Multiply state w.2)) finalHiddenStates

/-- The path for several tokens. -/
def prefill (m : MoEModule R d) (x : Inputs R d) : Option (Tensor R d) := do
  let works ← expertWorks m.mNumExperts x
  let tokenHiddenStates ← _Split x.hiddenStates x.seqlen
  let finalHiddenStates ← (List.range m.mNumExperts.toNat).foldlM (fun final i => do
    let expert ← m.mExperts[i]?
    let work ← works[i]?
    runExpert expert tokenHiddenStates work final) (List.replicate x.seqlen none)
  _Concat finalHiddenStates

def onForward (m : MoEModule R d) (x : Inputs R d) : Option (Tensor R d) :=
  if x.seqlen = 1 then decode m x else prefill m x

/-! ### What the tokens should become -/

namespace Inputs

variable (x : Inputs R d)

def row (t : ℕ) : Fin d → R := x.hiddenStates.getD t 0

def weight (t j : ℕ) : R := x.routingWeights.getD (t * x.topK + j) 0

def id (t j : ℕ) : ℕ := x.selectedExperts.getD (t * x.topK + j) 0

/-- Tables and states of the extents, with experts that exist. -/
structure Valid (m : MoEModule R d) : Prop where
  seqlen_pos : 1 ≤ x.seqlen
  topK_eq : (x.topK : ℤ) = m.mTopK
  length_hiddenStates : x.hiddenStates.length = x.seqlen
  length_routingWeights : x.routingWeights.length = x.seqlen * x.topK
  length_selectedExperts : x.selectedExperts.length = x.seqlen * x.topK
  id_lt : ∀ t < x.seqlen, ∀ j < x.topK, x.id t j < m.mNumExperts.toNat

/-- Every token as the weighted sum of what its experts make of it. -/
def routed (f : ℕ → (Fin d → R) → Fin d → R) : Tensor R d :=
  (List.range x.seqlen).map fun t =>
    ∑ j ∈ Finset.range x.topK, x.weight t j • f (x.id t j) (x.row t)

end Inputs

/-- The experts act on each row on its own, the expert `e` by `f e`. -/
def RowWise (m : MoEModule R d) (f : ℕ → (Fin d → R) → Fin d → R) : Prop :=
  ∀ (e : ℕ) (expert : Expert R d), m.mExperts[e]? = some expert → ∀ t, expert t = t.map (f e)

/-- The module routes token by token, and its two paths agree on one token. -/
def Routes (m : MoEModule R d) (x : Inputs R d) (f : ℕ → (Fin d → R) → Fin d → R) : Prop :=
  onForward m x = some (x.routed f) ∧ (x.seqlen = 1 → decode m x = prefill m x)

/-! ### The grouped path -/

section Prefill

variable {m : MoEModule R d} {x : Inputs R d} {f : ℕ → (Fin d → R) → Fin d → R}

/-- One use of an expert by a token. -/
structure Route (R : Type) where
  tokenId : ℕ
  expertId : ℕ
  scale : R

/-- The uses of experts, by tokens. -/
def Inputs.routes (x : Inputs R d) : List (Route R) :=
  (List.range x.seqlen).flatMap fun i => (List.range x.topK).map fun j =>
    ⟨i, x.id i j, x.weight i j⟩

/-- The works after some routes. -/
def worksOf (n : ℕ) (l : List (Route R)) : List (List (ℕ × R)) :=
  bucketsOf n Route.expertId (fun r => (r.tokenId, r.scale)) l

omit [CommSemiring R] in
theorem push_worksOf {n : ℕ} (l : List (Route R)) (r : Route R) (hr : r.expertId < n) :
    push (worksOf n l) r.expertId (r.tokenId, r.scale) = some (worksOf n (l ++ [r])) :=
  push_bucketsOf l hr

omit [CommSemiring R] in
theorem Inputs.index_lt {i j : ℕ} (hi : i < x.seqlen) (hj : j < x.topK) :
    i * x.topK + j < x.seqlen * x.topK := by
  nlinarith

omit [CommSemiring R] in
theorem Inputs.Valid.id_eq (h : x.Valid m) {i j : ℕ} (hi : i < x.seqlen) (hj : j < x.topK) :
    x.selectedExperts[i * x.topK + j]? = some (x.id i j) := by
  have hlt : i * x.topK + j < x.selectedExperts.length := by
    rw [h.length_selectedExperts]
    exact Inputs.index_lt hi hj
  rw [List.getElem?_eq_getElem hlt, Inputs.id, List.getD_eq_getElem _ _ hlt]

theorem Inputs.Valid.weight_eq (h : x.Valid m) {i j : ℕ} (hi : i < x.seqlen) (hj : j < x.topK) :
    x.routingWeights[i * x.topK + j]? = some (x.weight i j) := by
  have hlt : i * x.topK + j < x.routingWeights.length := by
    rw [h.length_routingWeights]
    exact Inputs.index_lt hi hj
  rw [List.getElem?_eq_getElem hlt, Inputs.weight, List.getD_eq_getElem _ _ hlt]

omit [CommSemiring R] in
/-- With an expert for a token there are experts. -/
theorem Inputs.Valid.numExperts_pos (h : x.Valid m) (hpos : 0 < x.topK) : 0 < m.mNumExperts := by
  have hlt := h.id_lt 0 h.seqlen_pos 0 hpos
  omega

theorem expertWorks_eq (h : x.Valid m) (hnum : 0 ≤ m.mNumExperts) :
    expertWorks m.mNumExperts x = some (worksOf m.mNumExperts.toNat x.routes) := by
  have hnil : List.replicate m.mNumExperts.toNat [] = worksOf (R := R) m.mNumExperts.toNat [] := by
    rw [worksOf, bucketsOf_nil]
  have hroutes : x.routes = (List.range x.seqlen).flatMap fun i =>
      (List.range x.topK).flatMap fun j => [⟨i, x.id i j, x.weight i j⟩] := by
    simp only [Inputs.routes, List.map_eq_flatMap]
  simp only [expertWorks, guard, if_pos hnum, hnil]
  rw [hroutes]
  refine foldlM_track (fun i hi s => foldlM_track (fun j hj s => ?_) s) []
  rw [List.mem_range] at hi hj
  rw [h.id_eq hi hj, h.weight_eq hi hj]
  exact push_worksOf s ⟨i, x.id i j, x.weight i j⟩ (h.id_lt i hi j hj)

/-- The final states after some summands. -/
def statesOf (m : ℕ) (l : List (ℕ × (Fin d → R))) : List (Option (Tensor R d)) :=
  (sumsOf m l).map (Option.map ([·]))

theorem accumulate_statesOf {m : ℕ} (l : List (ℕ × (Fin d → R))) {t : ℕ} (ht : t < m)
    (v : Fin d → R) : accumulate (statesOf m l) t [v] = some (statesOf m (l ++ [(t, v)])) := by
  have hadd := addAt_sumsOf l ht v
  unfold addAt at hadd
  unfold accumulate statesOf
  rw [List.getElem?_map]
  cases hget : (sumsOf m l)[t]? with
  | none => simp [hget] at hadd
  | some s =>
    cases s with
    | none =>
      rw [hget] at hadd
      rw [← Option.some.inj hadd]
      simp [List.map_set]
    | some s =>
      rw [hget] at hadd
      rw [← Option.some.inj hadd]
      simp [List.map_set, _Add]

theorem statesOf_nil (m : ℕ) :
    statesOf m ([] : List (ℕ × (Fin d → R))) = List.replicate m none := by
  simp [statesOf]

omit [CommSemiring R] in
theorem concat_single (rows : Tensor R d) (hne : rows ≠ []) :
    _Concat (rows.map fun v => some [v]) = some rows := by
  have hread : (rows.map fun v => some [v]).mapM id = some (rows.map ([·])) := by
    rw [List.mapM_map]
    exact mapM_eq_some fun v _ => rfl
  rw [_Concat, if_neg (by simpa using hne), hread, Option.map_some, ← List.flatMap_def,
    List.flatMap_singleton']

/-- An expert adds to its tokens what it makes of them, whichever way it gets them. -/
theorem runExpert_eq {n : ℕ} {g : (Fin d → R) → Fin d → R} {expert : Expert R d}
    (hexpert : ∀ t, expert t = t.map g) {row : ℕ → Fin d → R} {tokens : List (Tensor R d)}
    (htokens : ∀ t < n, tokens[t]? = some [row t]) {works : List (ℕ × R)}
    (hworks : ∀ w ∈ works, w.1 < n) (l : List (ℕ × (Fin d → R))) :
    runExpert expert tokens works (statesOf n l) =
      some (statesOf n (l ++ works.map fun w => (w.1, w.2 • g (row w.1)))) := by
  match works with
  | [] => simp [runExpert]
  | [w] =>
    have hw := hworks w (List.mem_singleton_self w)
    simp only [runExpert, htokens w.1 hw, Option.bind_eq_bind, Option.bind_some, hexpert,
      _Multiply, List.map_cons, List.map_nil]
    exact accumulate_statesOf l hw _
  | w :: w' :: ws =>
    generalize hall : w :: w' :: ws = works at *
    have hinput : works.mapM (fun w => tokens[w.1]?) = some (works.map fun w => [row w.1]) :=
      mapM_eq_some fun w hw => htokens w.1 (hworks w hw)
    have hconcat : _Concat ((works.map fun w => [row w.1]).map some) =
        some (works.map fun w => row w.1) := by
      have hne : works.map (fun w => row w.1) ≠ [] := by simp [← hall]
      rw [List.map_map, ← concat_single _ hne, List.map_map]
      rfl
    have hsplit : _Split (expert (works.map fun w => row w.1)) works.length =
        some (works.map fun w => [g (row w.1)]) := by
      rw [_Split, hexpert, if_pos (by simp)]
      simp
    have hrun : runExpert expert tokens works (statesOf n l) =
        (works.zip (works.map fun w => [g (row w.1)])).foldlM (fun final (w, state) =>
          accumulate final w.1 (_Multiply state w.2)) (statesOf n l) := by
      subst hall
      simp only [runExpert, hinput, hconcat, hsplit, Option.bind_eq_bind, Option.bind_some]
    have hzip : works.zip (works.map fun w => [g (row w.1)]) =
        works.map fun w => (w, [g (row w.1)]) := by
      have hmap := List.zip_map' (f := id) (g := fun w : ℕ × R => [g (row w.1)]) (l := works)
      rwa [List.map_id] at hmap
    rw [hrun, hzip, List.foldlM_map, List.map_eq_flatMap]
    refine foldlM_track (fun w hw s => ?_) l
    exact accumulate_statesOf s (hworks w hw) _

/-- What a route adds to its token. -/
def contribution (x : Inputs R d) (f : ℕ → (Fin d → R) → Fin d → R) (r : Route R) :
    ℕ × (Fin d → R) :=
  (r.tokenId, r.scale • f r.expertId (x.row r.tokenId))

/-- The routes of a token. -/
theorem filter_routes {t : ℕ} (ht : t < x.seqlen) : x.routes.filter (·.tokenId = t) =
    (List.range x.topK).map fun j => ⟨t, x.id t j, x.weight t j⟩ := by
  rw [← flatMap_range_ite ht fun i => (List.range x.topK).map fun j =>
    (⟨i, x.id i j, x.weight i j⟩ : Route R), Inputs.routes, List.filter_flatMap]
  refine List.flatMap_congr fun i _ => ?_
  rw [List.filter_map]
  by_cases hit : i = t
  · simp [hit, Function.comp_def]
  · simp [hit, Function.comp_def]

/-- The sums of all contributions, by tokens. -/
theorem statesOf_contributions (hpos : 0 < x.topK) :
    statesOf x.seqlen (x.routes.map (contribution x f)) =
      (x.routed f).map fun v => some [v] := by
  have hrange : List.range x.topK ≠ [] := by
    rw [Ne, List.range_eq_nil]
    exact hpos.ne'
  rw [statesOf, sumsOf, List.map_map, Inputs.routed, List.map_map]
  refine List.map_congr_left fun t ht => ?_
  have hfilter : (x.routes.map (contribution x f)).filter (·.1 = t) =
      (x.routes.filter (·.tokenId = t)).map (contribution x f) := List.filter_map
  rw [Function.comp_apply, hfilter, filter_routes (List.mem_range.1 ht), sumOf,
    if_neg (by simpa using hrange)]
  simp only [List.map_map]
  rfl

/-- The loop over the experts. -/
theorem foldlM_experts (h : x.Valid m) (hf : RowWise m f) :
    (List.range m.mNumExperts.toNat).foldlM (fun final i => do
      let expert ← m.mExperts[i]?
      let work ← (worksOf m.mNumExperts.toNat x.routes)[i]?
      runExpert expert (x.hiddenStates.map ([·])) work final) (statesOf x.seqlen []) =
    some (statesOf x.seqlen (x.routes.map (contribution x f))) := by
  have htokens : ∀ t < x.seqlen, (x.hiddenStates.map ([·]))[t]? = some [x.row t] := by
    intro t ht
    have hlt : t < x.hiddenStates.length := by rwa [h.length_hiddenStates]
    rw [List.getElem?_map, List.getElem?_eq_getElem hlt, Inputs.row, List.getD_eq_getElem _ _ hlt]
    rfl
  have hroute : ∀ r ∈ x.routes, r.tokenId < x.seqlen ∧ r.expertId < m.mNumExperts.toNat := by
    intro r hr
    obtain ⟨i, hi, hr⟩ := List.mem_flatMap.1 hr
    obtain ⟨j, hj, rfl⟩ := List.mem_map.1 hr
    rw [List.mem_range] at hi hj
    exact ⟨hi, h.id_lt i hi j hj⟩
  have hloop := foldlM_track (S := statesOf x.seqlen) (l := List.range m.mNumExperts.toNat)
    (f := fun final i => do
      let expert ← m.mExperts[i]?
      let work ← (worksOf m.mNumExperts.toNat x.routes)[i]?
      runExpert expert (x.hiddenStates.map ([·])) work final)
    (g := fun e => (x.routes.filter (·.expertId = e)).map (contribution x f))
    (fun e he s => ?_) []
  · rw [hloop, List.nil_append, ← List.map_flatMap, statesOf, statesOf,
      sumsOf_congr ((bucketsOf_perm fun r hr => (hroute r hr).2).map _)]
  · rw [List.mem_range] at he
    have hlt : e < m.mExperts.length := by rwa [m.length_mExperts]
    rw [List.getElem?_eq_getElem hlt, worksOf, getElem?_bucketsOf _ he]
    simp only [Option.bind_eq_bind, Option.bind_some]
    rw [runExpert_eq (hf e _ (List.getElem?_eq_getElem hlt)) htokens, List.map_map]
    · refine congrArg (fun l => some (statesOf x.seqlen (s ++ l))) ?_
      refine List.map_congr_left fun r hr => ?_
      rw [← of_decide_eq_true (List.mem_filter.1 hr).2]
      rfl
    · intro w hw
      obtain ⟨r, hr, rfl⟩ := List.mem_map.1 hw
      exact (hroute r (List.mem_filter.1 hr).1).1

theorem prefill_eq (h : x.Valid m) (hf : RowWise m f) (hpos : 0 < x.topK) :
    prefill m x = some (x.routed f) := by
  have hsplit : _Split x.hiddenStates x.seqlen = some (x.hiddenStates.map ([·])) :=
    if_pos h.length_hiddenStates
  have hrouted : x.routed f ≠ [] := by
    have hseqlen := h.seqlen_pos
    simp only [Inputs.routed, ne_eq, List.map_eq_nil_iff, List.range_eq_nil]
    omega
  have hloop := foldlM_experts h hf
  rw [statesOf_nil, statesOf_contributions hpos] at hloop
  rw [prefill, expertWorks_eq h (h.numExperts_pos hpos).le, hsplit]
  simp only [Option.bind_eq_bind, Option.bind_some] at hloop ⊢
  rw [hloop, Option.bind_some, concat_single _ hrouted]

/-- With no experts for a token its state stays null. -/
theorem prefill_eq_none (h : x.Valid m) (hf : RowWise m f) (hzero : x.topK = 0) :
    prefill m x = none := by
  have hsplit : _Split x.hiddenStates x.seqlen = some (x.hiddenStates.map ([·])) :=
    if_pos h.length_hiddenStates
  have hroutes : x.routes = [] := by simp [Inputs.routes, hzero]
  have hconcat : _Concat (List.replicate x.seqlen (none : Option (Tensor R d))) = none := by
    obtain ⟨n, hn⟩ := Nat.exists_eq_add_of_le' h.seqlen_pos
    rw [hn, List.replicate_succ, _Concat, if_neg (List.cons_ne_nil _ _)]
    rfl
  by_cases hnum : 0 ≤ m.mNumExperts
  · have hloop := foldlM_experts h hf
    rw [hroutes, List.map_nil, statesOf_nil] at hloop
    rw [prefill, expertWorks_eq h hnum, hsplit, hroutes]
    simp only [Option.bind_eq_bind, Option.bind_some] at hloop ⊢
    rw [hloop, Option.bind_some, hconcat]
  · rw [prefill, expertWorks, guard, if_neg hnum]
    rfl

end Prefill

/-! ### The path for one token -/

section Decode

variable {m : MoEModule R d} {x : Inputs R d} {f : ℕ → (Fin d → R) → Fin d → R}

theorem states_eq (h : x.Valid m) (hf : RowWise m f) (hone : x.seqlen = 1) :
    ((List.range x.topK).mapM fun i => do
      let expertId ← x.selectedExperts[i]?
      let expert ← m.mExperts[expertId]?
      return expert x.hiddenStates) =
    some ((List.range x.topK).map fun j => [f (x.id 0 j) (x.row 0)]) := by
  have hrow : x.hiddenStates = [x.row 0] := by
    obtain ⟨v, hv⟩ := List.length_eq_one_iff.1 (h.length_hiddenStates.trans hone)
    rw [Inputs.row, hv]
    rfl
  refine mapM_eq_some fun j hj => ?_
  have hj := List.mem_range.1 hj
  have hid := h.id_eq h.seqlen_pos hj
  rw [Nat.zero_mul, Nat.zero_add] at hid
  have hlt : x.id 0 j < m.mExperts.length := by
    rw [m.length_mExperts]
    exact h.id_lt 0 h.seqlen_pos j hj
  have hexpert := List.getElem?_eq_getElem hlt
  rw [hid, Option.bind_eq_bind, Option.bind_some, hexpert, Option.bind_eq_bind, Option.bind_some,
    hf _ _ hexpert, hrow]
  rfl

theorem decode_eq (h : x.Valid m) (hf : RowWise m f) (hone : x.seqlen = 1) (hpos : 0 < x.topK) :
    decode m x = some (x.routed f) := by
  have hweights : x.routingWeights = (List.range x.topK).map fun j => x.weight 0 j := by
    refine List.ext_getElem (by simp [h.length_routingWeights, hone]) fun j hj _ => ?_
    simp [Inputs.weight, hj]
  have hstates : (List.range x.topK).map (fun j => f (x.id 0 j) (x.row 0)) ≠ [] := by
    simp only [ne_eq, List.map_eq_nil_iff, List.range_eq_nil]
    omega
  have hconcat := concat_single _ hstates
  rw [List.map_map] at hconcat
  have hsum : (List.zipWith (fun state scale => scale • state)
      ((List.range x.topK).map fun j => f (x.id 0 j) (x.row 0)) x.routingWeights).sum =
      ∑ j ∈ Finset.range x.topK, x.weight 0 j • f (x.id 0 j) (x.row 0) := by
    rw [hweights, List.zipWith_map, List.zipWith_self]
    rfl
  have hlength : x.topK = x.routingWeights.length := by
    rw [h.length_routingWeights, hone, Nat.one_mul]
  rw [decode, states_eq h hf hone, Option.bind_eq_bind, Option.bind_some, compute, ← h.topK_eq,
    List.map_map]
  simp only [Function.comp_def] at hconcat ⊢
  rw [hconcat, Option.bind_eq_bind, Option.bind_eq_bind, Option.bind_some, hsum]
  simp only [List.length_map, List.length_range, Int.toNat_natCast, ← hlength, guard, if_true]
  rw [Inputs.routed, hone]
  rfl

theorem decode_eq_none (hzero : x.topK = 0) : decode m x = none := by
  have hconcat : _Concat (R := R) (d := d) [] = none := rfl
  rw [decode, hzero, List.range_zero, List.mapM_nil]
  simp [compute, hconcat]

end Decode

/-! ### The module -/

section Routes

variable {m : MoEModule R d} {x : Inputs R d} {f : ℕ → (Fin d → R) → Fin d → R}

/-- Without experts for a token there is no result. -/
theorem not_routes_of_zero (h : x.Valid m) (hf : RowWise m f) (hzero : x.topK = 0) :
    ¬ Routes m x f := by
  rintro ⟨hforward, -⟩
  unfold onForward at hforward
  split_ifs at hforward with hone
  · rw [decode_eq_none hzero] at hforward
    cases hforward
  · rw [prefill_eq_none h hf hzero] at hforward
    cases hforward

omit [CommSemiring R] in
/-- The experts of a created module are the subgraphs of its layer, by their numbers. -/
theorem rowWise_of_create {attrs : List Attribute} {subGraph : String → Option (Expert R d)}
    (hcreate : create attrs subGraph = some m)
    (hsub : ∀ (i : ℕ) (expert : Expert R d), subGraph ("/expert/" ++
      toString (params attrs).layerId ++ "_" ++ toString i) = some expert →
        ∀ t, expert t = t.map (f i)) : RowWise m f := by
  unfold create at hcreate
  dsimp only at hcreate
  split at hcreate
  · cases hcreate
  · rename_i mExperts hexperts
    cases hcreate
    intro e expert hexpert
    obtain ⟨he, rfl⟩ := List.getElem?_eq_some_iff.1 hexpert
    have hforall := List.forall₂_iff_get.1 (mapM_eq_some_iff.1 hexperts)
    have hget := hforall.2 e (hforall.1 ▸ he) he
    simp only [List.get_eq_getElem, List.getElem_range] at hget
    exact hsub e _ hget

/-- The module routes token by token, on both paths alike, when a token has an expert at all. -/
theorem routes_of_pos (h : x.Valid m) (hf : RowWise m f) (hpos : 0 < x.topK) : Routes m x f := by
  constructor
  · unfold onForward
    split_ifs with hone
    · exact decode_eq h hf hone hpos
    · exact prefill_eq h hf hpos
  · intro hone
    rw [decode_eq h hf hone hpos, prefill_eq h hf hpos]

end Routes

/-- Two experts that double and negate a number. -/
def doubleNegate (topK : ℤ) : MoEModule ℤ 1 where
  mNumExperts := 2
  mTopK := topK
  mExperts := [fun t => t.map (2 • ·), fun t => t.map (-·)]
  length_mExperts := rfl

theorem rowWise_doubleNegate (topK : ℤ) :
    RowWise (doubleNegate topK) fun e v => if e = 0 then 2 • v else -v := by
  intro e expert hexpert
  match e with
  | 0 =>
    cases hexpert
    exact fun t => rfl
  | 1 =>
    cases hexpert
    exact fun t => rfl
  | e + 2 => cases hexpert

/-- Three tokens, the second of which names one expert twice. -/
def threeTokens : Inputs ℤ 1 where
  hiddenStates := [fun _ => 1, fun _ => 5, fun _ => 7]
  routingWeights := [1, 2, 3, 4, 5, 6]
  selectedExperts := [1, 0, 1, 1, 0, 1]
  seqlen := 3
  topK := 2

theorem routes_threeTokens : Routes (doubleNegate 2) threeTokens fun e v =>
    if e = 0 then 2 • v else -v :=
  routes_of_pos ⟨by decide, rfl, rfl, rfl, rfl, by decide⟩ (rowWise_doubleNegate 2) (by decide)

/-- Two tokens without an expert. -/
def noExperts : Inputs ℤ 1 where
  hiddenStates := [fun _ => 1, fun _ => 5]
  routingWeights := []
  selectedExperts := []
  seqlen := 2
  topK := 0

theorem not_routes_noExperts : ¬ Routes (doubleNegate 0) noExperts fun e v =>
    if e = 0 then 2 • v else -v :=
  not_routes_of_zero ⟨by decide, rfl, rfl, rfl, rfl, by decide⟩ (rowWise_doubleNegate 0) rfl

end Mnn.MoE
