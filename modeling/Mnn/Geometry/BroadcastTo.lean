import Mnn.Geometry.Gather

/-!
# `ConvertUtils::broadcastto`

The regions of a tensor that repeats another (`source/geometry/ConvertUtils.cpp`).

* `squeeze`, `separate`: repeated dimensions next to each other are fused, and so are equal ones;
* `computeStride`, `unravelIndexHelper`: `source/core/OpCommonUtils.cpp`;
* `broadcastRegions`, `broadcastto`: the last three dimensions are those of the regions, and there
  is one region for each element of the others;
* `broadcastto_copies`: **each element of the output is copied from the element that `index` says**.
-/

namespace Mnn.Recompute

open Lib.Broadcast

/-! ### Dimensions -/

/-- Squeeze consecutive 1 dimension: one pass of the loop. -/
def squeezePass : List (ℕ × ℕ) → List (ℕ × ℕ)
  | (a, b) :: (a', b') :: dims =>
    if a = 1 ∧ a' = 1 then squeezePass ((1, b * b') :: dims)
    else (a, b) :: squeezePass ((a', b') :: dims)
  | dims => dims
termination_by dims => dims.length

/-- A pass that fuses nothing is the last one; another one would change nothing either. -/
def squeeze (dims : List (ℕ × ℕ)) : List (ℕ × ℕ) := squeezePass^[dims.length] dims

/-- Dimensions that are equal in both tensors are multiplied, up to the next one that is not. -/
def separate (currentInput currentOutput : ℕ) : List (ℕ × ℕ) → List (ℕ × ℕ)
  | [] => if currentOutput ≠ 1 ∨ currentInput ≠ 1 then [(currentInput, currentOutput)] else []
  | (a, b) :: dims =>
    if a ≠ b then
      (if 1 < currentOutput then [(currentInput, currentOutput)] else []) ++
        (a, b) :: separate 1 1 dims
    else separate (currentInput * a) (currentOutput * b) dims

theorem same_squeezePass (dims : List (ℕ × ℕ)) : Same dims (squeezePass dims) := by
  fun_induction squeezePass dims with
  | case1 a b a' b' dims hone ih =>
    obtain ⟨rfl, rfl⟩ := hone
    exact (Same.fuse b b' dims).trans ih
  | case2 a b a' b' dims hone ih => exact ih.cons (a, b)
  | case3 dims => exact .refl dims

theorem same_squeeze (dims : List (ℕ × ℕ)) : Same dims (squeeze dims) := by
  have key : ∀ n (dims' : List (ℕ × ℕ)), Same dims' (squeezePass^[n] dims') := by
    intro n
    induction n with
    | zero => exact .refl
    | succ n ih => exact fun dims' => (same_squeezePass dims').trans (ih _)
  exact key _ dims

/-- The dimension that was multiplied so far stands before the others. -/
theorem same_separate {current : ℕ} (hcurrent : 0 < current) {dims : List (ℕ × ℕ)}
    (hpos : ∀ p ∈ dims, 0 < p.2) :
    Same ((current, current) :: dims) (separate current current dims) := by
  induction dims generalizing current with
  | nil =>
    rw [separate]
    by_cases hone : current = 1
    · subst hone
      exact .one []
    · rw [if_pos (.inl hone)]
      exact .refl _
  | cons p dims ih =>
    obtain ⟨a, b⟩ := p
    obtain ⟨hb, htail⟩ := List.forall_mem_cons.1 hpos
    rw [separate]
    by_cases hab : a = b
    · subst hab
      rw [if_neg (not_not.2 rfl)]
      exact (Same.merge current a dims).trans (ih (Nat.mul_pos hcurrent hb) htail)
    · rw [if_pos hab]
      have hrest : Same ((a, b) :: dims) ((a, b) :: separate 1 1 dims) :=
        Same.cons (a, b) (((Same.one dims).symm).trans (ih Nat.one_pos htail))
      by_cases hone : current = 1
      · subst hone
        exact (Same.one _).trans hrest
      · rw [if_pos (by omega : 1 < current)]
        exact hrest.cons _

/-- Both steps. -/
theorem same_separate_squeeze {small large : List ℕ} (h : Repeats small large) :
    Same (pad small large) (separate 1 1 (squeeze (pad small large))) := by
  have hpos : ∀ p ∈ squeeze (pad small large), 0 < p.2 := by
    intro p hp
    have hlarge : 0 < largeSize (squeeze (pad small large)) := by
      rw [← (same_squeeze _).large]
      exact h.aligned.largeSize_pos
    exact Nat.pos_of_ne_zero fun hzero => hlarge.ne'
      (List.prod_eq_zero (List.mem_map.2 ⟨p, hp, hzero⟩))
  exact ((same_squeeze _).trans (Same.one _).symm).trans (same_separate Nat.one_pos hpos)

/-! ### Strides -/

/-- `OpCommonUtils::computeStride`. -/
def computeStride : List ℕ → List ℕ
  | [] => []
  | _ :: shape => shape.prod :: computeStride shape

/-- `OpCommonUtils::unravelIndexHelper`. -/
def unravelIndexHelper : List ℕ → ℕ → List ℕ
  | [], _ => []
  | m :: mod, index => index / m :: unravelIndexHelper mod (index % m)

/-- The distance of an element from the first one. -/
def dot (cords strides : List ℕ) : ℕ := (List.zipWith (· * ·) cords strides).sum

/-- The strides of the output. -/
def outputStrides (dims : List (ℕ × ℕ)) : List ℕ := computeStride (dims.map Prod.snd)

/-- The strides of the input: dimensions of length one are repeated. -/
def inputStrides (dims : List (ℕ × ℕ)) : List ℕ :=
  List.zipWith (fun p stride => if p.1 = 1 then 0 else stride) dims
    (computeStride (dims.map Prod.fst))

/-- The last three of the numbers, for the axes of a region; missing ones are `1`. -/
def lastThree (numbers : List ℕ) (k : Fin 3) : ℤ :=
  if numbers.length + k < 3 then 1 else (numbers.getD (numbers.length + k - 3) 1 : ℕ)

/-- Split region by size, use stride to determine src and dst mapping. -/
def broadcastRegions (r : Ref) (dims : List (ℕ × ℕ)) : List (Region Ref) :=
  let remainDimSize := dims.length - 3
  let remainShape := (dims.take remainDimSize).map Prod.snd
  (List.range remainShape.prod).map fun index =>
    let cords := unravelIndexHelper (computeStride remainShape) index
    { src := { offset := dot cords (inputStrides dims), stride := lastThree (inputStrides dims) }
      dst := { offset := dot cords (outputStrides dims), stride := lastThree (outputStrides dims) }
      size := lastThree (dims.map Prod.snd)
      origin := r }

/-- `ConvertUtils::broadcastto` of the tensor `input` at `r`: the new regions of the output. -/
def broadcastto (input : Tensor) (r : Ref) (output : Tensor) : Tensor :=
  { output with
    virtual := true
    regions :=
      -- Just Copy Tensor
      if input.rawSize = output.rawSize then [input.makeFullSlice r]
      else broadcastRegions r (separate 1 1 (squeeze (pad input.shape output.shape))) }

/-! ### Addresses -/

@[simp] theorem dot_nil (strides : List ℕ) : dot [] strides = 0 := rfl
@[simp] theorem dot_cons (k s : ℕ) (cords strides : List ℕ) :
    dot (k :: cords) (s :: strides) = k * s + dot cords strides :=
  List.sum_cons

theorem outputStrides_cons (p : ℕ × ℕ) (dims : List (ℕ × ℕ)) :
    outputStrides (p :: dims) = largeSize dims :: outputStrides dims := rfl

theorem inputStrides_cons (p : ℕ × ℕ) (dims : List (ℕ × ℕ)) :
    inputStrides (p :: dims) = (if p.1 = 1 then 0 else smallSize dims) :: inputStrides dims := rfl

theorem length_outputStrides (dims : List (ℕ × ℕ)) : (outputStrides dims).length = dims.length := by
  induction dims with
  | nil => rfl
  | cons p dims ih => rw [outputStrides_cons, List.length_cons, ih, List.length_cons]

theorem length_inputStrides (dims : List (ℕ × ℕ)) : (inputStrides dims).length = dims.length := by
  induction dims with
  | nil => rfl
  | cons p dims ih => rw [inputStrides_cons, List.length_cons, ih, List.length_cons]

theorem dot_outputStrides {dims : List (ℕ × ℕ)} {i : List ℕ} (h : Coords dims i) :
    dot i (outputStrides dims) = largeAt dims i := by
  induction h with
  | nil => rfl
  | cons _ _ ih => rw [outputStrides_cons, dot_cons, ih, largeAt]

theorem dot_inputStrides {dims : List (ℕ × ℕ)} {i : List ℕ} (h : Coords dims i) :
    dot i (inputStrides dims) = smallAt dims i := by
  induction h with
  | @cons p k dims i _ _ ih =>
    rw [inputStrides_cons, dot_cons, ih, smallAt]
    by_cases hp : p.1 = 1
    · rw [if_pos hp, if_pos hp, Nat.mul_zero, Nat.zero_mul]
    · rw [if_neg hp, if_neg hp]
  | nil => rfl

/-- Coordinates of the first dimensions and of the others are counted on their own. -/
theorem dot_append {i : List ℕ} {front : List (ℕ × ℕ)} (h : Coords front i)
    (last : List (ℕ × ℕ)) (j : List ℕ) :
    dot (i ++ j) (outputStrides (front ++ last)) =
        dot i (outputStrides (front ++ last)) + dot j (outputStrides last) ∧
      dot (i ++ j) (inputStrides (front ++ last)) =
        dot i (inputStrides (front ++ last)) + dot j (inputStrides last) := by
  induction h with
  | nil => simp
  | cons _ _ ih =>
    simp only [List.cons_append, outputStrides_cons, inputStrides_cons, dot_cons]
    omega

/-- The numbers below the size are the coordinates. -/
theorem coords_unravelIndexHelper {dims : List (ℕ × ℕ)} {index : ℕ} (h : index < largeSize dims) :
    Coords dims (unravelIndexHelper (outputStrides dims) index) := by
  induction dims generalizing index with
  | nil => exact .nil
  | cons p dims ih =>
    rw [largeSize_cons] at h
    have hpos : 0 < largeSize dims := Nat.pos_of_mul_pos_left (Nat.zero_lt_of_lt h)
    exact .cons ((Nat.div_lt_iff_lt_mul hpos).2 h) (ih (Nat.mod_lt index hpos))

theorem unravelIndexHelper_largeAt {dims : List (ℕ × ℕ)} {i : List ℕ} (h : Coords dims i) :
    unravelIndexHelper (outputStrides dims) (largeAt dims i) = i := by
  induction h with
  | nil => rfl
  | @cons p k dims i hk htail ih =>
    have hlt := largeAt_lt htail
    rw [outputStrides_cons, unravelIndexHelper, largeAt, Nat.mul_comm k, Nat.mul_add_div (by omega),
      Nat.mul_add_mod, Nat.div_eq_of_lt hlt, Nat.mod_eq_of_lt hlt, Nat.add_zero, ih]

/-! ### Regions -/

theorem lastThree_cons {a : ℕ} {numbers : List ℕ} (h : 3 ≤ numbers.length) :
    lastThree (a :: numbers) = lastThree numbers := by
  funext k
  have hnot : ¬ numbers.length + k < 3 := by omega
  have hnot' : ¬ (a :: numbers).length + k < 3 := by rw [List.length_cons]; omega
  have hsucc : (a :: numbers).length + k - 3 = (numbers.length + k - 3) + 1 := by
    rw [List.length_cons]; omega
  rw [lastThree, lastThree, if_neg hnot, if_neg hnot', hsucc, List.getD_cons_succ]

/-- Only the last three dimensions are axes. -/
theorem lastThree_append {front last : List (ℕ × ℕ)} (h : last.length = 3) :
    lastThree ((front ++ last).map Prod.snd) = lastThree (last.map Prod.snd) ∧
      lastThree (inputStrides (front ++ last)) = lastThree (inputStrides last) ∧
      lastThree (outputStrides (front ++ last)) = lastThree (outputStrides last) := by
  induction front with
  | nil => exact ⟨rfl, rfl, rfl⟩
  | cons p front ih =>
    have hlen : 3 ≤ (front ++ last).length := by rw [List.length_append]; omega
    rw [List.cons_append, List.map_cons, inputStrides_cons, outputStrides_cons,
      lastThree_cons (by rwa [List.length_map]), lastThree_cons (by rwa [length_inputStrides]),
      lastThree_cons (by rwa [length_outputStrides])]
    exact ih

theorem lastThree_nil : lastThree [] = ![1, 1, 1] := by
  funext k
  fin_cases k <;> rfl

theorem lastThree_one (a : ℕ) : lastThree [a] = ![1, 1, (a : ℤ)] := by
  funext k
  fin_cases k <;> rfl

theorem lastThree_two (a b : ℕ) : lastThree [a, b] = ![1, (a : ℤ), (b : ℤ)] := by
  funext k
  fin_cases k <;> rfl

theorem lastThree_three (a b c : ℕ) : lastThree [a, b, c] = ![(a : ℤ), (b : ℤ), (c : ℤ)] := by
  funext k
  fin_cases k <;> rfl

/-- The coordinates in a box, with the axes that are missing left out. -/
theorem exists_inBox {sizes ins outs : List ℕ} (h : sizes.length ≤ 3)
    (hin : ins.length = sizes.length) (hout : outs.length = sizes.length)
    (P : ℤ → ℤ → Prop) :
    (∃ i, InBox (lastThree sizes) i ∧
      P (i 0 * lastThree ins 0 + i 1 * lastThree ins 1 + i 2 * lastThree ins 2)
        (i 0 * lastThree outs 0 + i 1 * lastThree outs 1 + i 2 * lastThree outs 2)) ↔
      ∃ j, List.Forall₂ (fun b k => k < b) sizes j ∧ P (dot j ins) (dot j outs) := by
  have hbox : ∀ (size : Fin 3 → ℤ) (Q : ℤ → ℤ → ℤ → Prop),
      (∃ i, InBox size i ∧ Q (i 0) (i 1) (i 2)) ↔ ∃ a b c : ℕ, (a : ℤ) < size 0 ∧
        (b : ℤ) < size 1 ∧ (c : ℤ) < size 2 ∧ Q a b c := by
    intro size Q
    constructor
    · rintro ⟨i, hi, hQ⟩
      have h0 := hi 0
      have h1 := hi 1
      have h2 := hi 2
      refine ⟨(i 0).toNat, (i 1).toNat, (i 2).toNat, by omega, by omega, by omega, ?_⟩
      rwa [Int.toNat_of_nonneg h0.1, Int.toNat_of_nonneg h1.1, Int.toNat_of_nonneg h2.1]
    · rintro ⟨a, b, c, ha, hb, hc, hQ⟩
      refine ⟨![a, b, c], fun k => ?_, hQ⟩
      fin_cases k
      · exact ⟨Int.natCast_nonneg a, ha⟩
      · exact ⟨Int.natCast_nonneg b, hb⟩
      · exact ⟨Int.natCast_nonneg c, hc⟩
  rw [hbox (lastThree sizes) fun x y z =>
    P (x * lastThree ins 0 + y * lastThree ins 1 + z * lastThree ins 2)
      (x * lastThree outs 0 + y * lastThree outs 1 + z * lastThree outs 2)]
  match sizes, ins, outs, h, hin, hout with
  | [], [], [], _, _, _ =>
    simp only [lastThree_nil, List.forall₂_nil_left_iff]
    constructor
    · rintro ⟨a, b, c, ha, hb, hc, hP⟩
      simp at ha hb hc hP
      subst ha hb hc
      exact ⟨[], rfl, by simpa using hP⟩
    · rintro ⟨j, rfl, hP⟩
      exact ⟨0, 0, 0, by simp, by simp, by simp, by simpa using hP⟩
  | [x], [s], [t], _, _, _ =>
    simp only [lastThree_one, List.forall₂_cons_left_iff, List.forall₂_nil_left_iff]
    constructor
    · rintro ⟨a, b, c, ha, hb, hc, hP⟩
      simp at ha hb hc hP
      subst ha hb
      exact ⟨[c], ⟨c, [], hc, rfl, rfl⟩, by simpa using hP⟩
    · rintro ⟨j, ⟨c, _, hc, rfl, rfl⟩, hP⟩
      exact ⟨0, 0, c, by simp, by simp, by simpa using hc, by simpa using hP⟩
  | [x, y], [s, s'], [t, t'], _, _, _ =>
    simp only [lastThree_two, List.forall₂_cons_left_iff, List.forall₂_nil_left_iff]
    constructor
    · rintro ⟨a, b, c, ha, hb, hc, hP⟩
      simp at ha hb hc hP
      subst ha
      exact ⟨[b, c], ⟨b, _, hb, ⟨c, [], hc, rfl, rfl⟩, rfl⟩, by simpa using hP⟩
    · rintro ⟨j, ⟨b, _, hb, ⟨c, _, hc, rfl, rfl⟩, rfl⟩, hP⟩
      exact ⟨0, b, c, by simp, by simpa using hb, by simpa using hc, by simpa using hP⟩
  | [x, y, z], [s, s', s''], [t, t', t''], _, _, _ =>
    simp only [lastThree_three, List.forall₂_cons_left_iff, List.forall₂_nil_left_iff]
    constructor
    · rintro ⟨a, b, c, ha, hb, hc, hP⟩
      simp at ha hb hc hP
      exact ⟨[a, b, c], ⟨a, _, ha, ⟨b, _, hb, ⟨c, [], hc, rfl, rfl⟩, rfl⟩, rfl⟩,
        by simpa [add_assoc] using hP⟩
    · rintro ⟨j, ⟨a, _, ha, ⟨b, _, hb, ⟨c, _, hc, rfl, rfl⟩, rfl⟩, rfl⟩, hP⟩
      exact ⟨a, b, c, by simpa using ha, by simpa using hb, by simpa using hc,
        by simpa [add_assoc] using hP⟩

/-- The elements of a region are the coordinates of its axes. -/
theorem copies_lastThree {last : List (ℕ × ℕ)} (h : last.length ≤ 3) (srcOffset dstOffset : ℕ)
    (r : Ref) (s o : ℤ) :
    Region.Copies { src := { offset := srcOffset, stride := lastThree (inputStrides last) }
                    dst := { offset := dstOffset, stride := lastThree (outputStrides last) }
                    size := lastThree (last.map Prod.snd)
                    origin := r } s o ↔
      ∃ j, Coords last j ∧ s = (srcOffset + dot j (inputStrides last) : ℕ) ∧
        o = (dstOffset + dot j (outputStrides last) : ℕ) := by
  have hlen : (last.map Prod.snd).length = last.length := List.length_map Prod.snd
  have hbox := exists_inBox (hlen.trans_le h) ((length_inputStrides last).trans hlen.symm)
    ((length_outputStrides last).trans hlen.symm)
    (fun x y => (srcOffset : ℤ) + x = s ∧ (dstOffset : ℤ) + y = o)
  have hcoords : ∀ j, Coords last j ↔ List.Forall₂ (fun b k => k < b) (last.map Prod.snd) j :=
    fun j => (List.forall₂_map_left_iff (R := fun b k => k < b) (f := Prod.snd)).symm
  simp only [hcoords, Region.Copies, View.address, add_assoc] at hbox ⊢
  rw [hbox]
  push_cast
  simp only [eq_comm]

/-- Each element of the output is copied from one element, that `index` says. -/
theorem broadcastRegions_copies (r : Ref) (dims : List (ℕ × ℕ)) (s o : ℤ) :
    (∃ reg ∈ broadcastRegions r dims, reg.Copies s o) ↔
      ∃ n < largeSize dims, o = n ∧ s = (index dims n : ℕ) := by
  have hlast : (dims.drop (dims.length - 3)).length ≤ 3 := by rw [List.length_drop]; omega
  obtain ⟨front, last, hdims, hfront, hlen⟩ : ∃ front last, dims = front ++ last ∧
      front = dims.take (dims.length - 3) ∧ last.length ≤ 3 ∧ (front ≠ [] → last.length = 3) := by
    refine ⟨_, _, (List.take_append_drop (dims.length - 3) dims).symm, rfl, hlast, fun hne => ?_⟩
    have hpos := List.length_pos_iff.2 hne
    rw [List.length_take] at hpos
    rw [List.length_drop]
    omega
  -- the axes are those of the last dimensions alone
  have haxes : lastThree (dims.map Prod.snd) = lastThree (last.map Prod.snd) ∧
      lastThree (inputStrides dims) = lastThree (inputStrides last) ∧
      lastThree (outputStrides dims) = lastThree (outputStrides last) := by
    rw [hdims]
    rcases eq_or_ne front [] with rfl | hne
    · exact ⟨rfl, rfl, rfl⟩
    · exact lastThree_append (hlen.2 hne)
  have hmem : ∀ reg, reg ∈ broadcastRegions r dims ↔ ∃ i, Coords front i ∧
      reg = { src := { offset := dot i (inputStrides dims)
                       stride := lastThree (inputStrides last) }
              dst := { offset := dot i (outputStrides dims)
                       stride := lastThree (outputStrides last) }
              size := lastThree (last.map Prod.snd)
              origin := r } := by
    intro reg
    simp only [broadcastRegions, List.mem_map, List.mem_range, ← hfront, haxes]
    constructor
    · rintro ⟨n, hn, rfl⟩
      exact ⟨_, coords_unravelIndexHelper hn, rfl⟩
    · rintro ⟨i, hi, rfl⟩
      refine ⟨largeAt front i, largeAt_lt hi, ?_⟩
      have hcords := unravelIndexHelper_largeAt hi
      rw [outputStrides] at hcords
      rw [hcords]
  constructor
  · rintro ⟨reg, hreg, hcopies⟩
    obtain ⟨i, hi, rfl⟩ := (hmem reg).1 hreg
    obtain ⟨j, hj, rfl, rfl⟩ := (copies_lastThree hlen.1 _ _ r s o).1 hcopies
    have hij : Coords dims (i ++ j) := hdims ▸ hi.append hj
    obtain ⟨hout, hin⟩ := dot_append hi last j
    rw [← hdims] at hout hin
    refine ⟨largeAt dims (i ++ j), largeAt_lt hij, ?_, ?_⟩
    · rw [← dot_outputStrides hij, hout]
    · rw [index_largeAt hij, ← dot_inputStrides hij, hin]
  · rintro ⟨n, hn, rfl, rfl⟩
    obtain ⟨ij, hij, rfl⟩ := exists_coords hn
    obtain ⟨i, j, hi, hj, rfl⟩ := Coords.of_append (hdims ▸ hij)
    obtain ⟨hout, hin⟩ := dot_append hi last j
    rw [← hdims] at hout hin
    refine ⟨_, (hmem _).2 ⟨i, hi, rfl⟩, (copies_lastThree hlen.1 _ _ r _ _).2 ⟨j, hj, ?_, ?_⟩⟩
    · rw [index_largeAt hij, ← dot_inputStrides hij, hin]
    · rw [← dot_outputStrides hij, hout]

/-- A region with one axis copies each element to its place. -/
theorem copies_of_flat {r : Region Ref} {size : ℕ} (hsize : r.size = ![1, 1, (size : ℤ)])
    (hsrc : r.src.offset = 0 ∧ r.src.stride 2 = 1) (hdst : r.dst.offset = 0 ∧ r.dst.stride 2 = 1)
    (s o : ℤ) : r.Copies s o ↔ ∃ n < size, o = n ∧ s = (n : ℕ) := by
  constructor
  · rintro ⟨i, hi, rfl, rfl⟩
    have h0 := hi 0
    have h1 := hi 1
    have h2 := hi 2
    simp only [hsize, Matrix.cons_val] at h0 h1 h2
    have hi0 : i 0 = 0 := by omega
    have hi1 : i 1 = 0 := by omega
    refine ⟨(i 2).toNat, by omega, ?_, ?_⟩
    · rw [View.address, hi0, hi1, hdst.1, hdst.2, Int.toNat_of_nonneg h2.1]
      ring
    · rw [View.address, hi0, hi1, hsrc.1, hsrc.2, Int.toNat_of_nonneg h2.1]
      ring
  · rintro ⟨n, hn, rfl, rfl⟩
    refine ⟨![0, 0, n], fun k => ?_, ?_, ?_⟩
    · rw [hsize]
      fin_cases k
      · exact ⟨le_rfl, Int.one_pos⟩
      · exact ⟨le_rfl, Int.one_pos⟩
      · exact ⟨Int.natCast_nonneg n, Int.ofNat_lt.2 hn⟩
    · simp [View.address, hsrc]
    · simp [View.address, hdst]

/-- A full slice copies each element to its place. -/
theorem makeFullSlice_copies (t : Tensor) (r : Ref) (s o : ℤ) :
    (t.makeFullSlice r).Copies s o ↔ ∃ n < t.rawSize, o = n ∧ s = (n : ℕ) :=
  copies_of_flat rfl ⟨rfl, rfl⟩ ⟨rfl, rfl⟩ s o

/-- **Each element of the output is copied from the element that `index` says, and from no
other.** -/
theorem broadcastto_copies {input output : Tensor} (h : Repeats input.shape output.shape) (r : Ref)
    (s o : ℤ) :
    (∃ reg ∈ (broadcastto input r output).regions, reg.Copies s o) ↔
      ∃ n < output.rawSize, o = n ∧ s = (index (pad input.shape output.shape) n : ℕ) := by
  by_cases hsize : input.rawSize = output.rawSize
  · simp only [broadcastto, if_pos hsize, List.mem_singleton, exists_eq_left, makeFullSlice_copies]
    refine exists_congr fun n => ?_
    rw [hsize]
    refine and_congr_right fun hn => ?_
    rw [h.index_self hsize hn]
  · have hsame := same_separate_squeeze h
    simp only [broadcastto, if_neg hsize]
    rw [broadcastRegions_copies, ← hsame.large, largeSize_pad]
    refine exists_congr fun n => and_congr_right fun hn => ?_
    rw [hsame.index n (by rwa [largeSize_pad])]

/-! ### Contents -/

section Fold

variable {τ α : Type*} {regions : List (Region τ)} (g : ℤ → ℤ → α) {s o : ℤ}

theorem foldl_update_pairs {l : List (ℤ × ℤ)} (h : ∀ s', (s', o) ∈ l → s' = s) (out : ℤ → α)
    (hmem : (s, o) ∈ l) :
    l.foldl (fun out p => Function.update out p.2 (g p.1 p.2)) out o = g s o := by
  refine Lib.foldl_update_of_agree l Prod.snd (fun p => g p.1 p.2)
    (fun p hp (hpo : p.2 = o) => ?_) out (.inl ⟨(s, o), hmem, rfl⟩)
  show g p.1 p.2 = g s o
  rw [hpo, h p.1 (hpo ▸ hp)]

/-- Where all regions copy from one place to `o`, the value for that place is left there. -/
theorem foldl_regions (h : ∀ s', (∃ reg ∈ regions, reg.Copies s' o) → s' = s)
    (hex : ∃ reg ∈ regions, reg.Copies s o) (out : ℤ → α) :
    regions.foldl (fun out reg => (boxIndices reg.size).foldl (fun out i =>
      Function.update out (reg.dst.address i) (g (reg.src.address i) (reg.dst.address i))) out) out
        o = g s o := by
  have hmem : ∀ s', (∃ reg ∈ regions, reg.Copies s' o) ↔ (s', o) ∈ regions.flatMap fun reg =>
      (boxIndices reg.size).map fun i => (reg.src.address i, reg.dst.address i) := by
    intro s'
    simp only [List.mem_flatMap, Region.copies_iff_mem]
  rw [← foldl_update_pairs g (fun s' hs' => h s' ((hmem s').2 hs')) out ((hmem s).1 hex),
    List.foldl_flatMap]
  simp only [List.foldl_map]

/-- The same for the content that regions denote. -/
theorem raster_of_copies [Zero α] {r : τ} (horigin : ∀ reg ∈ regions, reg.origin = r)
    (value : τ → ℤ → α) (h : ∀ s', (∃ reg ∈ regions, reg.Copies s' o) → s' = s)
    (hex : ∃ reg ∈ regions, reg.Copies s o) : raster regions value o = value r s := by
  rw [← foldl_regions (fun s' _ => value r s') h hex fun _ => 0, raster]
  refine congrFun (List.foldl_ext _ _ _ fun out reg hreg => ?_) o
  rw [Region.copy, horigin reg hreg]

end Fold

theorem origin_broadcastto {input output : Tensor} {r : Ref} :
    ∀ reg ∈ (broadcastto input r output).regions, reg.origin = r := by
  intro reg hreg
  by_cases hsize : input.rawSize = output.rawSize
  · simp only [broadcastto, if_pos hsize, List.mem_singleton] at hreg
    rw [hreg]
    rfl
  · simp only [broadcastto, if_neg hsize, broadcastRegions, List.mem_map] at hreg
    obtain ⟨n, -, rfl⟩ := hreg
    rfl

section Broadcast

variable {α : Type*} {input output : Tensor} (h : Repeats input.shape output.shape) (r : Ref)
  {n : ℕ} (hn : n < output.rawSize)

include h hn

theorem copies_index :
    ∃ reg ∈ (broadcastto input r output).regions,
      reg.Copies (index (pad input.shape output.shape) n : ℕ) n :=
  (broadcastto_copies h r _ _).2 ⟨n, hn, rfl, rfl⟩

omit hn in
theorem eq_of_copies {s : ℤ} (hs : ∃ reg ∈ (broadcastto input r output).regions, reg.Copies s n) :
    s = (index (pad input.shape output.shape) n : ℕ) := by
  obtain ⟨m, -, hm, rfl⟩ := (broadcastto_copies h r _ _).1 hs
  rw [Int.ofNat_inj.1 hm]

/-- What a loop over the regions leaves. -/
theorem foldl_broadcastto (g : ℤ → ℤ → α) (out : ℤ → α) :
    (broadcastto input r output).regions.foldl (fun out reg =>
      (boxIndices reg.size).foldl (fun out i => Function.update out (reg.dst.address i)
        (g (reg.src.address i) (reg.dst.address i))) out) out n =
      g (index (pad input.shape output.shape) n : ℕ) n :=
  foldl_regions g (fun _ => eq_of_copies h r) (copies_index h r hn) out

/-- What is read from the tensor that repeats another. -/
theorem raster_broadcastto [Zero α] (value : Ref → ℤ → α) :
    raster (broadcastto input r output).regions value n =
      value r (index (pad input.shape output.shape) n : ℕ) :=
  raster_of_copies origin_broadcastto value (fun _ => eq_of_copies h r) (copies_index h r hn)

end Broadcast

end Mnn.Recompute
