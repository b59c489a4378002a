import Mnn.Geometry.Permute
import Mnn.Lib.BroadcastShape

/-!
# `SizeComputer::computeBroadCastDims`

The shape of broadcast inputs (`source/shape/SizeComputer.cpp`) and the regions that
`ConvertUtils::broadcastto` makes for it.

* `maxDimensions`, `mergeDim`, `mergeInput`, `computeBroadCastDims`: the loops over the inputs and
  over their dimensions;
* `mergeInput_isBroadcast`, `mergeInput_none`: what one input changes;
* `computeBroadCastDims_eq`: the result is the broadcast shape, if the shapes are compatible;
* `writes_broadcastto`: every address of the output is written once;
* `broadcast_numpy`: **shapes and elements are those of NumPy**.
-/

namespace Mnn.Recompute

open Lib.Broadcast

/-! ### Shapes -/

/-- `maxDimensions` and `maxIndex`: the first of the longest shapes. -/
def maxDimensions (shapes : List (List ℕ)) : ℕ × ℕ :=
  shapes.zipIdx.tail.foldl (fun m p => if m.1 < p.1.length then (p.1.length, p.2) else m)
    ((shapes.headD []).length, 0)

/-- A dimension of the output and one of the next input. -/
def mergeDim (dim1 outputDim : ℕ) : Option ℕ :=
  if dim1 ≠ outputDim ∧ dim1 ≠ 1 ∧ outputDim ≠ 1 then none
  else if dim1 = outputDim then some outputDim
  else if dim1 ≠ outputDim ∧ (dim1 = 1 ∨ outputDim = 1) then some (outputDim * dim1)
  else none

/-- The loop over the dimensions that both shapes have. -/
def mergeDims : List ℕ → List ℕ → Option (List ℕ)
  | dim1 :: input1, outputDim :: outputDims => do
    let d ← mergeDim dim1 outputDim
    let ds ← mergeDims input1 outputDims
    return d :: ds
  | _, outputDims => some outputDims

/-- The next input; `diffDimension` dimensions of the output are left alone. -/
def mergeInput (outputDims input1 : List ℕ) : Option (List ℕ) :=
  let diffDimension := outputDims.length - input1.length
  (mergeDims input1 (outputDims.drop diffDimension)).map (outputDims.take diffDimension ++ ·)

/-- `SizeComputer::computeBroadCastDims`: the extents of the output, given the shapes. -/
def computeBroadCastDims (shapes : List (List ℕ)) : Option (List ℕ) :=
  let maxIndex := (maxDimensions shapes).2
  (shapes.zipIdx.filter (·.2 ≠ maxIndex)).foldlM (fun outputDims p => mergeInput outputDims p.1)
    (shapes.getD maxIndex [])

example : computeBroadCastDims [[4, 1], [3, 1, 5], [1]] = some [3, 4, 5] := by decide
example : computeBroadCastDims [[4, 1], [3, 2, 5]] = none := by decide

/-! ### One input -/

theorem mergeDim_eq_some {a o d : ℕ} :
    mergeDim a o = some d ↔ a = 1 ∧ d = o ∨ o = 1 ∧ d = a ∨ a = o ∧ d = o := by
  rw [mergeDim]
  split_ifs with h1 h2 h3
  · exact iff_of_false (by simp) (by omega)
  · rw [Option.some.injEq]
    omega
  · rw [Option.some.injEq]
    rcases h3.2 with rfl | rfl
    · rw [Nat.mul_one]
      omega
    · rw [Nat.one_mul]
      omega
  · exact iff_of_false (by simp) (by omega)

theorem mergeDim_eq_none {a o : ℕ} : mergeDim a o = none ↔ a ≠ o ∧ a ≠ 1 ∧ o ≠ 1 := by
  constructor
  · intro h
    have hnot : ∀ d, ¬ (a = 1 ∧ d = o ∨ o = 1 ∧ d = a ∨ a = o ∧ d = o) := fun d hd => by
      rw [mergeDim_eq_some.2 hd] at h
      exact Option.some_ne_none _ h
    have ho := hnot o
    have ha := hnot a
    omega
  · exact fun h => if_pos h

theorem mergeDims_some {input out c : List ℕ} (hlen : input.length = out.length)
    (h : mergeDims input out = some c) : c.length = out.length ∧
      ∀ i < out.length, mergeDim (input.getD i 1) (out.getD i 1) = some (c.getD i 1) := by
  induction input generalizing out c with
  | nil =>
    obtain rfl := List.eq_nil_of_length_eq_zero hlen.symm
    obtain rfl := Option.some.inj h
    exact ⟨rfl, fun i hi => absurd hi (Nat.not_lt_zero i)⟩
  | cons a input ih =>
    obtain ⟨o, out, rfl⟩ := List.exists_cons_of_length_eq_add_one hlen.symm
    obtain ⟨d, hd, h⟩ := Option.bind_eq_some_iff.1 h
    obtain ⟨ds, hds, h⟩ := Option.bind_eq_some_iff.1 h
    obtain rfl := Option.some.inj h
    obtain ⟨hclen, hget⟩ := ih (Nat.succ.inj hlen) hds
    refine ⟨congrArg Nat.succ hclen, fun i hi => ?_⟩
    cases i with
    | zero => exact hd
    | succ i => exact hget i (Nat.lt_of_succ_lt_succ hi)

theorem mergeDims_none {input out : List ℕ} (hlen : input.length = out.length)
    (h : mergeDims input out = none) :
    ∃ i < out.length, mergeDim (input.getD i 1) (out.getD i 1) = none := by
  induction input generalizing out with
  | nil => exact absurd h (Option.some_ne_none _)
  | cons a input ih =>
    obtain ⟨o, out, rfl⟩ := List.exists_cons_of_length_eq_add_one hlen.symm
    cases hd : mergeDim a o with
    | none => exact ⟨0, Nat.succ_pos _, hd⟩
    | some d =>
      cases hds : mergeDims input out with
      | none =>
        obtain ⟨i, hi, hnone⟩ := ih (Nat.succ.inj hlen) hds
        exact ⟨i + 1, Nat.succ_lt_succ hi, hnone⟩
      | some ds =>
        rw [mergeDims, hd, hds] at h
        exact absurd h (Option.some_ne_none _)

section Input

variable {out input : List ℕ} (hlen : input.length ≤ out.length)

include hlen

theorem mergeInput_some {c : List ℕ} (h : mergeInput out input = some c) :
    c.length = out.length ∧
      ∀ i < out.length, mergeDim (extent out.length input i) (out.getD i 1) =
        some (c.getD i 1) := by
  obtain ⟨ds, hds, rfl⟩ := Option.map_eq_some_iff.1 h
  set diff := out.length - input.length with hdiff
  have hdrop : input.length = (out.drop diff).length := by
    rw [List.length_drop]
    omega
  obtain ⟨hdslen, hget⟩ := mergeDims_some hdrop hds
  have htake : (out.take diff).length = diff := by
    rw [List.length_take]
    omega
  refine ⟨by rw [List.length_append, htake, hdslen, List.length_drop]; omega, fun i hi => ?_⟩
  by_cases hlt : i < diff
  · rw [extent_of_lt hlt, List.getD_append _ _ _ _ (htake.symm ▸ hlt), mergeDim_eq_some]
    refine .inl ⟨rfl, ?_⟩
    rw [List.getD_eq_getElem _ _ (htake.symm ▸ hlt), List.getD_eq_getElem _ _ hi,
      List.getElem_take]
  · have hge : diff ≤ i := not_lt.1 hlt
    have hrest := hget (i - diff) (by rw [List.length_drop]; omega)
    have hout : (out.drop diff).getD (i - diff) 1 = out.getD i 1 := by
      have hlt' : i - diff < (out.drop diff).length := by
        rw [List.length_drop]
        omega
      rw [List.getD_eq_getElem _ _ hi, List.getD_eq_getElem _ _ hlt', List.getElem_drop]
      congr 1
      omega
    rw [extent_of_le hge, List.getD_append_right _ _ _ _ (htake.symm ▸ hge), htake, ← hrest, hout]

theorem mergeInput_eq_none (h : mergeInput out input = none) :
    ∃ i < out.length, mergeDim (extent out.length input i) (out.getD i 1) = none := by
  set diff := out.length - input.length with hdiff
  have hdrop : input.length = (out.drop diff).length := by
    rw [List.length_drop]
    omega
  obtain ⟨i, hi, hnone⟩ := mergeDims_none hdrop (Option.map_eq_none_iff.1 h)
  rw [List.length_drop] at hi
  refine ⟨diff + i, by omega, ?_⟩
  rw [extent_of_le (Nat.le_add_right _ _), ← hdiff, Nat.add_sub_cancel_left, ← hnone,
    List.getD_eq_getElem _ _ (by omega : diff + i < out.length),
    List.getD_eq_getElem _ _ (by rw [List.length_drop]; omega : i < (out.drop diff).length),
    List.getElem_drop]

variable {shapes : List (List ℕ)} (h : IsBroadcast shapes out)

include h

/-- One more input. -/
theorem mergeInput_isBroadcast {c : List ℕ} (hc : mergeInput out input = some c) :
    c.length = out.length ∧ IsBroadcast (input :: shapes) c := by
  obtain ⟨hclen, hget⟩ := mergeInput_some hlen hc
  refine ⟨hclen, ?_, ?_, ?_⟩
  · rw [List.forall_mem_cons, hclen]
    exact ⟨hlen, h.length_le⟩
  · rw [List.forall_mem_cons, hclen]
    constructor
    · intro i hi
      have hmerge := mergeDim_eq_some.1 (hget i hi)
      omega
    · intro s hs i hi
      have hmerge := mergeDim_eq_some.1 (hget i hi)
      have hold := h.extent s hs i hi
      omega
  · rw [hclen]
    intro i hi
    obtain ⟨s, hs, hattained⟩ := h.attained i hi
    have hmerge := mergeDim_eq_some.1 (hget i hi)
    by_cases hfirst : c.getD i 1 = extent out.length input i
    · exact ⟨input, List.mem_cons_self, hfirst.symm⟩
    · exact ⟨s, List.mem_cons_of_mem _ hs, by omega⟩

/-- An input that does not fit is not compatible with one of those before it. -/
theorem mergeInput_none (hrank : rank (input :: shapes) = out.length)
    (hnone : mergeInput out input = none) : ¬ Compatible (input :: shapes) := by
  obtain ⟨i, hi, hi'⟩ := mergeInput_eq_none hlen hnone
  obtain ⟨s, hs, hattained⟩ := h.attained i hi
  have hmerge := mergeDim_eq_none.1 hi'
  intro hcompatible
  have hpair := hcompatible input List.mem_cons_self s (List.mem_cons_of_mem _ hs) i (hrank ▸ hi)
  rw [hrank] at hpair
  omega

end Input

/-! ### All inputs -/

theorem Compatible.mono {shapes shapes' : List (List ℕ)} (h : Compatible shapes)
    (hsub : ∀ s ∈ shapes', s ∈ shapes) (hrank : rank shapes' = rank shapes) :
    Compatible shapes' := by
  intro s hs t ht
  rw [hrank]
  exact h s (hsub s hs) t (hsub t ht)

/-- The loop over the inputs. -/
theorem foldlM_mergeInput {out : List ℕ} {shapes rest : List (List ℕ)}
    (h : IsBroadcast shapes out) (hrank : rank shapes = out.length)
    (hrest : ∀ s ∈ rest, s.length ≤ out.length) :
    (∃ c, rest.foldlM mergeInput out = some c ∧ c.length = out.length ∧
        IsBroadcast (rest.reverse ++ shapes) c) ∨
      rest.foldlM mergeInput out = none ∧ ¬ Compatible (rest.reverse ++ shapes) := by
  induction rest generalizing out shapes with
  | nil => exact .inl ⟨out, rfl, rfl, h⟩
  | cons s rest ih =>
    obtain ⟨hs, hrest⟩ := List.forall_mem_cons.1 hrest
    have hrank' : rank (s :: shapes) = out.length := by
      rw [← hrank]
      exact max_eq_right (hs.trans hrank.ge)
    rw [List.foldlM_cons, List.reverse_cons, List.append_assoc, List.singleton_append]
    cases hmerge : mergeInput out s with
    | none =>
      refine .inr ⟨rfl, fun hcompatible => mergeInput_none hs h hrank' hmerge ?_⟩
      refine Compatible.mono hcompatible (fun t ht => List.mem_append_right _ ht) ?_
      refine le_antisymm (rank_le fun t ht => length_le_rank (List.mem_append_right _ ht)) ?_
      rw [hrank']
      refine rank_le fun t ht => ?_
      rcases List.mem_append.1 ht with ht | ht
      · exact hrest t (List.mem_reverse.1 ht)
      · exact hrank' ▸ length_le_rank ht
    | some c =>
      obtain ⟨hclen, hc⟩ := mergeInput_isBroadcast hs h hmerge
      have hnext := ih hc (hrank'.trans hclen.symm) (hclen.symm ▸ hrest)
      rw [hclen] at hnext
      exact hnext

/-- The first of the longest shapes. -/
theorem maxDimensions_spec {shapes : List (List ℕ)} (hne : shapes ≠ []) :
    ∃ h : (maxDimensions shapes).2 < shapes.length,
      ∀ s ∈ shapes, s.length ≤ (shapes.get ⟨(maxDimensions shapes).2, h⟩).length := by
  have key : ∀ (l : List (List ℕ)) (k : ℕ) (m : ℕ × ℕ),
      let m' := (l.zipIdx k).foldl
        (fun m p => if m.1 < p.1.length then (p.1.length, p.2) else m) m
      (∀ s ∈ l, s.length ≤ m'.1) ∧ m.1 ≤ m'.1 ∧
        (m' = m ∨ ∃ i, ∃ h : i < l.length, m' = ((l.get ⟨i, h⟩).length, k + i)) := by
    intro l
    induction l with
    | nil => exact fun k m => ⟨fun s hs => absurd hs List.not_mem_nil, le_rfl, .inl rfl⟩
    | cons s l ih =>
      intro k m
      rw [List.zipIdx_cons, List.foldl_cons]
      split_ifs with hlt
      · obtain ⟨hall, hle, hcase⟩ := ih (k + 1) (s.length, k)
        refine ⟨List.forall_mem_cons.2 ⟨hle, hall⟩, hlt.le.trans hle, .inr ?_⟩
        rcases hcase with heq | ⟨i, hi, heq⟩
        · exact ⟨0, Nat.succ_pos _, heq⟩
        · exact ⟨i + 1, Nat.succ_lt_succ hi, heq.trans (by rw [Nat.add_assoc, Nat.add_comm 1]; rfl)⟩
      · obtain ⟨hall, hle, hcase⟩ := ih (k + 1) m
        refine ⟨List.forall_mem_cons.2 ⟨(not_lt.1 hlt).trans hle, hall⟩, hle, ?_⟩
        rcases hcase with heq | ⟨i, hi, heq⟩
        · exact .inl heq
        · exact .inr ⟨i + 1, Nat.succ_lt_succ hi,
            heq.trans (by rw [Nat.add_assoc, Nat.add_comm 1]; rfl)⟩
  obtain ⟨s, shapes, rfl⟩ := List.exists_cons_of_ne_nil hne
  obtain ⟨hall, hle, hcase⟩ := key shapes 1 (s.length, 0)
  have hmax : maxDimensions (s :: shapes) = (shapes.zipIdx 1).foldl
      (fun m p => if m.1 < p.1.length then (p.1.length, p.2) else m) (s.length, 0) := rfl
  rw [← hmax] at hall hle hcase
  rcases hcase with heq | ⟨i, hi, heq⟩
  · rw [heq] at hall ⊢
    exact ⟨Nat.succ_pos _, List.forall_mem_cons.2 ⟨le_rfl, hall⟩⟩
  · rw [heq] at hall hle ⊢
    have hlt : 1 + i < (s :: shapes).length := by
      rw [List.length_cons]
      omega
    have hget : (s :: shapes).get ⟨1 + i, hlt⟩ = shapes.get ⟨i, hi⟩ := by
      simp only [Nat.add_comm 1 i, List.get_eq_getElem, List.getElem_cons_succ]
    exact ⟨hlt, by rw [hget]; exact List.forall_mem_cons.2 ⟨hle, hall⟩⟩

/-- **The shape.** It is set exactly when the shapes are compatible. -/
theorem computeBroadCastDims_eq {shapes : List (List ℕ)} (hne : shapes ≠ []) :
    computeBroadCastDims shapes =
      if Compatible shapes then some (broadcastShape shapes) else none := by
  obtain ⟨hlt, hmax⟩ := maxDimensions_spec hne
  set k := (maxDimensions shapes).2 with hk
  set longest := shapes.get ⟨k, hlt⟩ with hlongest
  set rest := (shapes.zipIdx.filter (·.2 ≠ k)).map Prod.fst with hrest
  have hrun : computeBroadCastDims shapes = rest.foldlM mergeInput longest := by
    rw [computeBroadCastDims, ← hk, List.getD_eq_getElem _ _ hlt, hrest, List.foldlM_map]
    rfl
  have hmem : ∀ s, s ∈ rest.reverse ++ [longest] ↔ s ∈ shapes := by
    intro s
    simp only [List.mem_append, List.mem_reverse, List.mem_singleton, hrest, List.mem_map,
      List.mem_filter, decide_eq_true_eq]
    constructor
    · rintro (⟨p, ⟨hp, -⟩, rfl⟩ | rfl)
      · exact List.mem_of_getElem? (List.mem_zipIdx_iff_getElem?.1 hp)
      · exact List.get_mem _ _
    · intro hs
      obtain ⟨i, hi, rfl⟩ := List.mem_iff_getElem.1 hs
      by_cases hik : i = k
      · subst hik
        exact .inr rfl
      · exact .inl ⟨(shapes[i], i), ⟨List.mem_zipIdx_iff_getElem?.2 (List.getElem?_eq_getElem hi),
          hik⟩, rfl⟩
  have hrank : rank [longest] = longest.length := max_eq_left (Nat.zero_le _)
  have hle : ∀ s ∈ rest, s.length ≤ longest.length := fun s hs =>
    hmax s ((hmem s).1 (List.mem_append_left _ (List.mem_reverse.2 hs)))
  rw [hrun]
  rcases foldlM_mergeInput (.refl longest) hrank hle with ⟨c, hc, hclen, hbroadcast⟩ | ⟨hnone, hnot⟩
  · have hall := hbroadcast.congr hmem
    have hall' : c.length = rank shapes := by
      rw [hclen]
      exact le_antisymm (length_le_rank (List.get_mem _ _)) (rank_le hmax)
    rw [hc, if_pos (hall.compatible hall'), ← hall.eq_broadcastShape hall']
  · rw [hnone, if_neg fun hcompatible => hnot ((compatible_congr hmem).2 hcompatible)]

/-! ### Regions -/

/-- Where every address is written and no more is written than there are addresses, each of them is
written once. -/
theorem map_snd_writes {regions : List (Region Ref)} {size : ℕ}
    (hcover : ∀ n < size, ∃ reg ∈ regions, ∃ s, reg.Copies s n)
    (hcard : (Permute.writes regions).card ≤ size) :
    (Permute.writes regions).map Prod.snd = (Multiset.range size).map fun n : ℕ => (n : ℤ) := by
  have hnodup : ((Multiset.range size).map fun n : ℕ => (n : ℤ)).Nodup :=
    (Multiset.nodup_range size).map Nat.cast_injective
  refine (Multiset.eq_of_le_of_card_le ((Multiset.le_iff_subset hnodup).2 fun o ho => ?_) ?_).symm
  · obtain ⟨n, hn, rfl⟩ := Multiset.mem_map.1 ho
    obtain ⟨reg, hreg, s, hs⟩ := hcover n (Multiset.mem_range.1 hn)
    exact Multiset.mem_map.2 ⟨(s, n), Permute.mem_writes.2 ⟨reg, hreg, hs⟩, rfl⟩
  · rw [Multiset.card_map, Multiset.card_map, Multiset.card_range]
    exact hcard

theorem card_boxIndices (size : Fin 3 → ℤ) :
    (boxIndices size).length = (size 0).toNat * ((size 1).toNat * (size 2).toNat) := by
  simp only [boxIndices, List.length_flatMap, List.length_map, List.length_range, List.map_const',
    List.sum_replicate, smul_eq_mul]

/-- Regions write as often as they have indices. -/
theorem card_writes_eq_sum (regions : List (Region Ref)) :
    (Permute.writes regions).card =
      (regions.map fun reg => (boxIndices reg.size).length).sum := by
  rw [Permute.writes, Multiset.card_bind, Multiset.map_coe, Multiset.sum_coe]
  simp only [Function.comp_def, Multiset.coe_card, List.length_map]

/-- Regions of the same size write as often as there are regions and indices. -/
theorem card_writes {regions : List (Region Ref)} {k : ℕ}
    (hregion : ∀ reg ∈ regions, (boxIndices reg.size).length = k) :
    (Permute.writes regions).card = regions.length * k := by
  rw [card_writes_eq_sum, List.map_congr_left hregion, List.map_const', List.sum_replicate,
    smul_eq_mul]

theorem prod_lastThree {numbers : List ℕ} (h : numbers.length ≤ 3) :
    (lastThree numbers 0).toNat * ((lastThree numbers 1).toNat * (lastThree numbers 2).toNat) =
      numbers.prod := by
  match numbers, h with
  | [], _ => rfl
  | [a], _ => simp [lastThree_one]
  | [a, b], _ => simp [lastThree_two]
  | [a, b, c], _ => simp [lastThree_three]

/-- The regions write as often as there are elements. -/
theorem card_broadcastRegions (r : Ref) (dims : List (ℕ × ℕ)) :
    (Permute.writes (broadcastRegions r dims)).card = largeSize dims := by
  have hlen : ((dims.drop (dims.length - 3)).map Prod.snd).length ≤ 3 := by
    rw [List.length_map, List.length_drop]
    omega
  have hlast : lastThree (dims.map Prod.snd) =
      lastThree ((dims.drop (dims.length - 3)).map Prod.snd) := by
    by_cases hle : dims.length ≤ 3
    · rw [Nat.sub_eq_zero_of_le hle, List.drop_zero]
    · have hthree : (dims.drop (dims.length - 3)).length = 3 := by
        rw [List.length_drop]
        omega
      conv_lhs => rw [← List.take_append_drop (dims.length - 3) dims]
      exact (lastThree_append hthree).1
  have hregion : ∀ reg ∈ broadcastRegions r dims, (boxIndices reg.size).length =
      ((dims.drop (dims.length - 3)).map Prod.snd).prod := by
    intro reg hreg
    obtain ⟨n, -, rfl⟩ := List.mem_map.1 hreg
    rw [card_boxIndices, hlast, prod_lastThree hlen]
  have hcount : (broadcastRegions r dims).length =
      ((dims.take (dims.length - 3)).map Prod.snd).prod := by
    rw [broadcastRegions, List.length_map, List.length_range]
  rw [card_writes hregion, hcount, ← List.prod_append, ← List.map_append, List.take_append_drop,
    largeSize]

/-- **Every address of the output is written once.** -/
theorem writes_broadcastto {input output : Tensor} (h : Repeats input.shape output.shape)
    (r : Ref) : (Permute.writes (broadcastto input r output).regions).map Prod.snd =
      (Multiset.range output.rawSize).map fun n : ℕ => (n : ℤ) := by
  refine map_snd_writes (fun n hn => ?_) ?_
  · obtain ⟨reg, hreg, hs⟩ := copies_index h r hn
    exact ⟨reg, hreg, _, hs⟩
  · by_cases hsize : input.rawSize = output.rawSize
    · simp only [broadcastto, if_pos hsize, Permute.writes, Multiset.coe_singleton,
        Multiset.singleton_bind, Multiset.coe_card, List.length_map, card_boxIndices]
      rw [← hsize]
      simp [Tensor.makeFullSlice]
    · simp only [broadcastto, if_neg hsize]
      rw [card_broadcastRegions, ← (same_separate_squeeze h).large, largeSize_pad, Tensor.rawSize]

theorem dot_computeStride (shape i : List ℕ) : dot i (computeStride shape) = addressOf shape i := by
  induction shape generalizing i with
  | nil => cases i <;> rfl
  | cons d shape ih =>
    cases i with
    | nil => rfl
    | cons k i => rw [computeStride, dot_cons, ih, addressOf]

/-- The elements by their indices. -/
theorem raster_smallIndex {V : Type*} [Zero V] {input output : Tensor}
    (h : Repeats input.shape output.shape) (r : Ref) (value : Ref → ℤ → V) {i : List ℕ}
    (hi : List.Forall₂ (· < ·) i output.shape) :
    raster (broadcastto input r output).regions value (dot i (computeStride output.shape)) =
      value r (dot (smallIndex input.shape i) (computeStride input.shape)) := by
  have hcoords : Coords (pad input.shape output.shape) i := by
    have hflip := hi.flip
    rw [← map_snd_pad input.shape output.shape, List.forall₂_map_left_iff] at hflip
    exact hflip
  have hstride : computeStride output.shape = outputStrides (pad input.shape output.shape) := by
    rw [outputStrides, map_snd_pad]
  have hlt : largeAt (pad input.shape output.shape) i < output.rawSize := by
    rw [Tensor.rawSize, ← largeSize_pad input.shape output.shape]
    exact largeAt_lt hcoords
  rw [hstride, dot_outputStrides hcoords, raster_broadcastto h r hlt, index_largeAt hcoords,
    smallAt_eq h.length_le hi.length_eq, dot_computeStride]

/-- **Broadcasting.** The shape is that of NumPy, whatever the order of the inputs, and is set
exactly when the inputs are compatible.  The regions of each input write every address of the output
once, and copy the element at the index in the input. -/
theorem broadcast_numpy {V : Type*} [Zero V] {inputs : List Tensor} (hne : inputs ≠ []) :
    let shapes := inputs.map Tensor.shape
    computeBroadCastDims shapes =
        (if Compatible shapes then some (broadcastShape shapes) else none) ∧
      (∀ inputs' : List Tensor, inputs'.Perm inputs →
        computeBroadCastDims (inputs'.map Tensor.shape) = computeBroadCastDims shapes) ∧
      ∀ output : Tensor, computeBroadCastDims shapes = some output.shape →
        (∀ input ∈ inputs, ∀ d ∈ input.shape, 0 < d) → ∀ input ∈ inputs, ∀ r : Ref,
          (Permute.writes (broadcastto input r output).regions).map Prod.snd =
              (Multiset.range output.rawSize).map (fun n : ℕ => (n : ℤ)) ∧
            ∀ (value : Ref → ℤ → V) (i : List ℕ), List.Forall₂ (· < ·) i output.shape →
              raster (broadcastto input r output).regions value
                  (dot i (computeStride output.shape)) =
                value r (dot (smallIndex input.shape i) (computeStride input.shape)) := by
  intro shapes
  have hshapes : shapes ≠ [] := fun h => hne (List.map_eq_nil_iff.1 h)
  refine ⟨computeBroadCastDims_eq hshapes, fun inputs' hperm => ?_,
    fun output houtput hpos input hinput r => ?_⟩
  · have hshapes' : inputs'.map Tensor.shape ≠ [] := by
      intro h
      rw [List.map_eq_nil_iff.1 h] at hperm
      exact hne hperm.symm.eq_nil
    have hmem : ∀ s, s ∈ inputs'.map Tensor.shape ↔ s ∈ shapes := fun s =>
      (hperm.map Tensor.shape).mem_iff
    rw [computeBroadCastDims_eq hshapes, computeBroadCastDims_eq hshapes']
    by_cases hcompatible : Compatible shapes
    · have hcompatible' := (compatible_congr hmem).2 hcompatible
      rw [if_pos hcompatible, if_pos hcompatible',
        broadcastShape_congr hmem hshapes' hcompatible']
    · rw [if_neg hcompatible, if_neg fun h => hcompatible ((compatible_congr hmem).1 h)]
  · rw [computeBroadCastDims_eq hshapes] at houtput
    split_ifs at houtput with hcompatible
    have hrepeats : Repeats input.shape output.shape := by
      rw [← Option.some.inj houtput]
      refine (hcompatible.isBroadcast hshapes).repeats (fun s hs => ?_)
        (List.mem_map_of_mem hinput)
      obtain ⟨t, ht, rfl⟩ := List.mem_map.1 hs
      exact hpos t ht
    exact ⟨writes_broadcastto hrepeats r, fun value i hi => raster_smallIndex hrepeats r value hi⟩

/-- Three inputs, the last of which is a single element. -/
theorem broadcast_numpy_three :
    let inputs : List Tensor := [{ shape := [4, 1] }, { shape := [3, 1, 5] }, { shape := [] }]
    computeBroadCastDims (inputs.map Tensor.shape) = some [3, 4, 5] ∧
      raster (broadcastto { shape := [4, 1] } (.input 0) { shape := [3, 4, 5] }).regions
        (fun _ s => s + 1) 37 = (4 : ℤ) := by
  intro inputs
  have hne : inputs ≠ [] := List.cons_ne_nil _ _
  have hshape : computeBroadCastDims (inputs.map Tensor.shape) = some [3, 4, 5] := by decide
  have h := ((broadcast_numpy (V := ℤ) hne).2.2 { shape := [3, 4, 5] } hshape (by decide)
    { shape := [4, 1] } List.mem_cons_self (.input 0)).2 (fun _ s => s + 1) [1, 3, 2] (by decide)
  exact ⟨hshape, h⟩

end Mnn.Recompute
