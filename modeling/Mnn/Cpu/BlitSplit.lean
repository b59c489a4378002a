import Mnn.Cpu.Blit

/-!
# Copies of a region by several threads

`CPURaster::onResize` cuts a single region along its first dimension that is longer than one, and
every thread copies a part of it with `_blit`.

* `onResize`: the code; `onResize_perm`: the parts have the elements of the region;
* `CopyRegion`: a region that writes no address twice;
* `CopiesRight`: what a copy leaves in the destination;
* `copiesRight_iff`: **the copy is right, in any order of its assignments, exactly when no part is
  copied as blocks whose rows have gaps in the destination**.
-/

namespace Mnn.CPURaster

variable {τ : Type*}

/-- A part of a region along a dimension, as `onResize` makes it. -/
def part (region : Region τ) (pos : Fin 3) (sta fin : ℤ) : Region τ where
  src :=
    { offset := region.src.offset + sta * region.src.stride pos, stride := region.src.stride }
  dst :=
    { offset := region.dst.offset + sta * region.dst.stride pos, stride := region.dst.stride }
  size := Function.update region.size pos (fin - sta)
  origin := region.origin

/-- `UP_DIV`. -/
def upDiv (x y : ℤ) : ℤ := (x + y - 1) / y

/-- The loop over the threads; it ends at the first that has nothing to do. -/
def parts (region : Region τ) (threadNumber : ℕ) (pos : Fin 3) : List (Region τ) :=
  let divSize := upDiv (region.size pos) threadNumber
  let sta (i : ℕ) := i * divSize
  let fin (i : ℕ) := min (sta i + divSize) (region.size pos)
  ((List.range threadNumber).takeWhile fun i => sta i < fin i).map fun i =>
    part region pos (sta i) (fin i)

/-- `onResize` for a single region without reduction; the workload is
`LAUNCH_MULTI_THREADS_WORKLOAD`. -/
def onResize (threadNumber : ℕ) (region : Region τ) : List (Region τ) :=
  if 1 < threadNumber ∧ ¬ region.size 0 * region.size 1 * region.size 2 < 100000 then
    match [0, 1, 2].find? fun i => 1 < region.size i with
    | none => [region]
    | some pos => parts region threadNumber pos
  else [region]

/-! ### The parts -/

/-- The index of an element of a part in the whole region. -/
def shift (pos : Fin 3) (sta : ℤ) (i : Fin 3 → ℤ) : Fin 3 → ℤ :=
  Function.update i pos (i pos + sta)

theorem address_shift (v : View) (pos : Fin 3) (sta : ℤ) (i : Fin 3 → ℤ) :
    View.address { v with offset := v.offset + sta * v.stride pos } i =
      v.address (shift pos sta i) := by
  fin_cases pos <;> simp [View.address, shift] <;> ring

theorem plain_part (region : Region τ) (pos : Fin 3) (sta fin : ℤ) :
    plain (part region pos sta fin) =
      ((boxIndices (part region pos sta fin).size).map (shift pos sta)).map
        fun i => (region.src.address i, region.dst.address i) := by
  rw [plain, List.map_map]
  refine List.map_congr_left fun i _ => ?_
  exact Prod.ext (address_shift region.src pos sta i) (address_shift region.dst pos sta i)

theorem shift_injective (pos : Fin 3) (sta : ℤ) : Function.Injective (shift pos sta) := by
  intro i j heq
  funext k
  have hk := congrFun heq k
  by_cases hpos : k = pos
  · subst hpos
    simpa [shift] using hk
  · simpa [shift, hpos] using hk

/-- The indices of a part are those of the region between its ends. -/
theorem mem_map_shift {region : Region τ} {pos : Fin 3} {sta fin : ℤ} {p : Fin 3 → ℤ}
    (hsta : 0 ≤ sta) (hfin : fin ≤ region.size pos) :
    p ∈ (boxIndices (part region pos sta fin).size).map (shift pos sta) ↔
      InBox region.size p ∧ sta ≤ p pos ∧ p pos < fin := by
  rw [List.mem_map]
  constructor
  · rintro ⟨i, hi, rfl⟩
    rw [mem_boxIndices] at hi
    have hpos := hi pos
    simp only [part, Function.update_self] at hpos
    have hself : shift pos sta i pos = i pos + sta := Function.update_self ..
    refine ⟨fun k => ?_, by omega, by omega⟩
    by_cases hk : k = pos
    · subst hk
      omega
    · have hk' := hi k
      simp only [part, Function.update_of_ne hk] at hk'
      rwa [shift, Function.update_of_ne hk]
  · rintro ⟨hbox, hle, hlt⟩
    refine ⟨Function.update p pos (p pos - sta), mem_boxIndices.2 fun k => ?_, ?_⟩
    · by_cases hk : k = pos
      · subst hk
        simp only [part, Function.update_self]
        omega
      · simp only [part, Function.update_of_ne hk]
        exact hbox k
    · simp [shift]

/-- A loop that ends at the first failure leaves out nothing, where all behind the first fail. -/
theorem takeWhile_eq_filter {α : Type*} {p : α → Bool} {l : List α}
    (hp : l.Pairwise fun a b => p b → p a) : l.takeWhile p = l.filter p := by
  induction hp with
  | nil => rfl
  | @cons a l ha _ ih =>
    by_cases h : p a
    · rw [List.takeWhile_cons_of_pos h, List.filter_cons_of_pos h, ih]
    · have hnil : l.filter p = [] := List.filter_eq_nil_iff.2 fun b hb hpb => h (ha b hb hpb)
      rw [List.takeWhile_cons_of_neg h, List.filter_cons_of_neg h, hnil]

section Parts

variable {region : Region τ} {threadNumber : ℕ} {pos : Fin 3}

theorem upDiv_pos (hsize : 1 ≤ region.size pos) (hthread : 0 < threadNumber) :
    1 ≤ upDiv (region.size pos) threadNumber := by
  rw [upDiv, Int.le_ediv_iff_mul_le (by omega)]
  omega

theorem le_mul_upDiv (n : ℤ) (hthread : 0 < threadNumber) :
    n ≤ threadNumber * upDiv n threadNumber := by
  have hmod := Int.emod_add_mul_ediv (n + threadNumber - 1) threadNumber
  have hlt := Int.emod_lt_of_pos (n + threadNumber - 1) (by omega : (0 : ℤ) < threadNumber)
  rw [upDiv]
  omega

/-- The parts that the loop makes. -/
theorem parts_eq (hsize : 1 ≤ region.size pos) (hthread : 0 < threadNumber) :
    parts region threadNumber pos =
      ((List.range threadNumber).filter fun i : ℕ =>
        i * upDiv (region.size pos) threadNumber < region.size pos).map fun i : ℕ =>
          part region pos (i * upDiv (region.size pos) threadNumber)
            (min (i * upDiv (region.size pos) threadNumber + upDiv (region.size pos) threadNumber)
              (region.size pos)) := by
  have hdiv := upDiv_pos hsize hthread
  unfold parts
  simp only
  generalize upDiv (region.size pos) threadNumber = d at hdiv ⊢
  have hiff : ∀ i : ℕ, (i * d < min (i * d + d) (region.size pos)) ↔ i * d < region.size pos := by
    intro i
    rw [lt_min_iff]
    exact and_iff_right (by omega)
  simp only [hiff]
  rw [takeWhile_eq_filter]
  refine List.pairwise_lt_range.imp fun {i j} hij hj => ?_
  simp only [decide_eq_true_eq] at hj ⊢
  have hle : (i : ℤ) * d ≤ j * d := mul_le_mul_of_nonneg_right (by exact_mod_cast hij.le) (by omega)
  omega

/-- The parts have the elements of the region. -/
theorem parts_perm (hsize : 1 ≤ region.size pos) (hthread : 0 < threadNumber) :
    ((parts region threadNumber pos).flatMap plain).Perm (plain region) := by
  have hdiv := upDiv_pos hsize hthread
  have hceil := le_mul_upDiv (region.size pos) hthread
  rw [parts_eq hsize hthread, List.flatMap_map]
  generalize upDiv (region.size pos) threadNumber = d at hdiv hceil ⊢
  simp only [plain_part]
  rw [← List.map_flatMap, plain]
  refine List.Perm.map _ ?_
  refine (List.perm_ext_iff_of_nodup ?_ (nodup_boxIndices region.size)).2 fun p => ?_
  · -- two parts have nothing in common
    rw [List.nodup_flatMap]
    refine ⟨fun i _ => (nodup_boxIndices _).map (shift_injective ..), ?_⟩
    refine (List.pairwise_lt_range.sublist List.filter_sublist).imp fun {i j} hij p hp hp' => ?_
    rw [mem_map_shift (by positivity) (min_le_right ..)] at hp hp'
    have hle : ((i : ℤ) + 1) * d ≤ j * d := mul_le_mul_of_nonneg_right (by omega) (by omega)
    have hlt := (lt_min_iff.1 hp.2.2).1
    have := hp'.2.1
    linarith
  · simp only [List.mem_flatMap, List.mem_filter, List.mem_range, decide_eq_true_eq]
    constructor
    · rintro ⟨i, -, hp⟩
      rw [mem_map_shift (by positivity) (min_le_right ..)] at hp
      exact mem_boxIndices.2 hp.1
    · intro hp
      have hbox := mem_boxIndices.1 hp
      have hpos := hbox pos
      -- the part that the index falls into
      have hdiv₀ : 0 ≤ p pos / d := Int.ediv_nonneg hpos.1 (by omega)
      have hmod := Int.emod_add_mul_ediv (p pos) d
      have hmod₀ := Int.emod_nonneg (p pos) (by omega : d ≠ 0)
      have hmod₁ := Int.emod_lt_of_pos (p pos) (by omega : 0 < d)
      have hcast : (((p pos / d).toNat : ℕ) : ℤ) = p pos / d := Int.toNat_of_nonneg hdiv₀
      have hcomm : d * (p pos / d) = p pos / d * d := mul_comm ..
      refine ⟨(p pos / d).toNat, ⟨?_, ?_⟩, ?_⟩
      · have : p pos / d < threadNumber := Int.ediv_lt_of_lt_mul (by omega) (by omega)
        omega
      · rw [hcast]
        omega
      · rw [mem_map_shift (by positivity) (min_le_right ..), hcast]
        refine ⟨hbox, by omega, lt_min (by omega) hpos.2⟩

/-- What `onResize` makes of a region. -/
theorem onResize_cases (threadNumber : ℕ) (region : Region τ) :
    onResize threadNumber region = [region] ∨
      ∃ pos, 0 < threadNumber ∧ 1 ≤ region.size pos ∧
        onResize threadNumber region = parts region threadNumber pos := by
  unfold onResize
  split_ifs with h
  · cases hfind : [0, 1, 2].find? fun i => 1 < region.size i with
    | none => exact .inl rfl
    | some pos =>
      have hpos : 1 < region.size pos := by simpa using List.find?_some hfind
      exact .inr ⟨pos, by omega, hpos.le, rfl⟩
  · exact .inl rfl

theorem onResize_perm (threadNumber : ℕ) (region : Region τ) :
    ((onResize threadNumber region).flatMap plain).Perm (plain region) := by
  rcases onResize_cases threadNumber region with h | ⟨pos, hthread, hsize, h⟩
  · rw [h, List.flatMap_singleton]
  · rw [h]
    exact parts_perm hsize hthread

/-- Every part has elements, and the strides of the region. -/
theorem mem_onResize {region slice : Region τ} (hsize : ∀ k, 1 ≤ region.size k)
    (hslice : slice ∈ onResize threadNumber region) :
    (∀ k, 1 ≤ slice.size k) ∧ slice.dst.stride = region.dst.stride := by
  rcases onResize_cases threadNumber region with h | ⟨pos, hthread, hpos, h⟩
  · rw [h, List.mem_singleton] at hslice
    subst hslice
    exact ⟨hsize, rfl⟩
  · rw [h, parts_eq hpos hthread] at hslice
    obtain ⟨i, hi, rfl⟩ := List.mem_map.1 hslice
    have hlt := of_decide_eq_true (List.mem_filter.1 hi).2
    have hdiv := upDiv_pos hpos hthread
    refine ⟨fun k => ?_, rfl⟩
    by_cases hk : k = pos
    · subst hk
      simp only [part, Function.update_self]
      omega
    · simp only [part, Function.update_of_ne hk]
      exact hsize k

end Parts

/-! ### The copy -/

/-- A region with elements that writes no destination address twice. -/
structure CopyRegion (τ : Type*) extends Region τ where
  pos : ∀ k, 1 ≤ size k
  once : ∀ i j, InBox size i → InBox size j → dst.address i = dst.address j → i = j

def Bytes.size : Bytes → ℕ
  | .one => 1
  | .two => 2
  | .four => 4

/-- The destination behind some assignments. -/
def assign {V : Type*} (w : List (ℤ × ℤ)) (src dst : ℤ → V) : ℤ → V :=
  w.foldl (fun dst p => Function.update dst p.2 (src p.1)) dst

/-- Every element of the region is copied, and nothing else changes. -/
def CopiesRight (bytes : Bytes) (region : Region τ) (w : List (ℤ × ℤ)) : Prop :=
  ∀ src dst : ℤ → BitVec (8 * bytes.size),
    (∀ i, InBox region.size i →
      assign w src dst (region.dst.address i) = src (region.src.address i)) ∧
    ∀ o, (∀ i, InBox region.size i → region.dst.address i ≠ o) → assign w src dst o = dst o

variable (bytes : Bytes) (region : CopyRegion τ)

theorem nodup_plain : ((plain region.toRegion).map Prod.snd).Nodup := by
  rw [plain, List.map_map]
  refine (nodup_boxIndices _).map_on fun i hi j hj heq => ?_
  exact region.once i j (mem_boxIndices.1 hi) (mem_boxIndices.1 hj) heq

theorem mem_map_plain {o : ℤ} : o ∈ (plain region.toRegion).map Prod.snd ↔
    ∃ i, InBox region.size i ∧ region.dst.address i = o := by
  simp [plain, mem_boxIndices]

/-- Assignments of the region's elements, in any order. -/
theorem copiesRight_of_perm {w : List (ℤ × ℤ)} (h : w.Perm (plain region.toRegion)) :
    CopiesRight bytes region.toRegion w := by
  intro src dst
  refine ⟨fun i hi => ?_, fun o ho => ?_⟩
  · refine Region.foldl_update_of_mem w src dst (fun s hs => ?_) ?_
    · obtain ⟨j, hj, heq⟩ := List.mem_map.1 (h.mem_iff.1 hs)
      rw [← region.once j i (mem_boxIndices.1 hj) hi (congrArg Prod.snd heq)]
      exact (congrArg Prod.fst heq).symm
    · exact h.mem_iff.2 (List.mem_map_of_mem (mem_boxIndices.2 hi))
  · refine Region.foldl_update_of_notMem w src dst fun s hs => ?_
    obtain ⟨i, hi, heq⟩ := List.mem_map.1 (h.mem_iff.1 hs)
    exact ho i (mem_boxIndices.1 hi) (congrArg Prod.snd heq)

theorem assign_eq_one_iff (w : List (ℤ × ℤ)) (o : ℤ) :
    assign w (fun _ => 1) (fun _ => 0) o = (1 : BitVec (8 * bytes.size)) ↔ o ∈ w.map Prod.snd := by
  have hne : (0 : BitVec (8 * bytes.size)) ≠ 1 := by cases bytes <;> decide
  by_cases ho : o ∈ w.map Prod.snd
  · obtain ⟨p, hp, rfl⟩ := List.mem_map.1 ho
    exact iff_of_true (Region.foldl_update_of_agree w _ _ ⟨p.1, hp⟩ fun _ _ => rfl) ho
  · refine iff_of_false (fun h => hne ?_) ho
    rw [← h]
    exact (Region.foldl_update_of_notMem w (fun _ => 1) (fun _ => 0)
      fun s hs => ho (List.mem_map.2 ⟨_, hs, rfl⟩)).symm

/-- A right copy with as many assignments as elements writes every address of the region once. -/
theorem perm_of_copiesRight {w : List (ℤ × ℤ)} (hlen : w.length = (plain region.toRegion).length)
    (h : CopiesRight bytes region.toRegion w) :
    (w.map Prod.snd).Perm ((plain region.toRegion).map Prod.snd) := by
  obtain ⟨hin, hout⟩ := h (fun _ => 1) fun _ => 0
  have hsubset : (plain region.toRegion).map Prod.snd ⊆ w.map Prod.snd := by
    intro o ho
    obtain ⟨i, hi, rfl⟩ := (mem_map_plain region).1 ho
    exact (assign_eq_one_iff bytes w _).1 (hin i hi)
  refine ((List.subperm_of_subset (nodup_plain region) hsubset).perm_of_length_le ?_).symm
  rw [List.length_map, List.length_map, hlen]

/-- How far the last coordinates reach, over all elements. -/
def reach (size : Fin 3 → ℤ) : ℤ := ((boxIndices size).map fun i => i 2).sum

theorem reach_nonneg (size : Fin 3 → ℤ) : 0 ≤ reach size := by
  refine List.sum_nonneg fun x hx => ?_
  obtain ⟨i, hi, rfl⟩ := List.mem_map.1 hx
  exact (mem_boxIndices.1 hi 2).1

theorem size_eq_one_of_reach {size : Fin 3 → ℤ} (hsize : ∀ k, 1 ≤ size k) (h : reach size = 0) :
    size 2 = 1 := by
  by_contra hne
  have hmem : (1 : ℤ) ∈ (boxIndices size).map fun i => i 2 := by
    refine List.mem_map.2 ⟨![0, 0, 1], mem_boxIndices.2 fun k => ?_, rfl⟩
    have h₀ := hsize 0
    have h₁ := hsize 1
    have h₂ := hsize 2
    fin_cases k <;> simp <;> omega
  have hle := List.single_le_sum (fun x hx => by
    obtain ⟨i, hi, rfl⟩ := List.mem_map.1 hx
    exact (mem_boxIndices.1 hi 2).1) 1 hmem
  rw [← reach, h] at hle
  exact absurd hle (by decide)

/-- What the blocks add to the addresses of a region. -/
theorem sum_taken (slice : Region τ) : ((plain (taken slice)).map Prod.snd).sum =
    ((plain slice).map Prod.snd).sum +
      if Blocks slice then (1 - slice.dst.stride 2) * reach slice.size else 0 := by
  unfold taken
  split_ifs with hblocks
  · have haddress : ∀ i : Fin 3 → ℤ, View.address
        { slice.dst with stride := Function.update slice.dst.stride 2 1 } i =
          slice.dst.address i + (1 - slice.dst.stride 2) * i 2 := by
      intro i
      simp [View.address]
      ring
    simp only [plain, List.map_map, reach]
    rw [← List.sum_map_mul_left, ← List.sum_map_add]
    exact congrArg List.sum (List.map_congr_left fun i _ => haddress i)
  · rw [add_zero]

/-- No part is copied as blocks whose rows have gaps in the destination. -/
def NoGaps (threadNumber : ℕ) (region : Region τ) : Prop :=
  ∀ slice ∈ onResize threadNumber region, Blocks slice → slice.size 2 = 1 ∨ slice.dst.stride 2 = 1

variable {region} {threadNumber : ℕ}

theorem length_plain_taken (slice : Region τ) :
    (plain (taken slice)).length = (plain slice).length := by
  unfold taken
  split_ifs
  · rw [plain, plain, List.length_map, List.length_map]
  · rfl

theorem taken_perm (h : NoGaps threadNumber region.toRegion) :
    ((onResize threadNumber region.toRegion).flatMap fun slice => plain (taken slice)).Perm
      (plain region.toRegion) := by
  refine (List.Perm.of_eq ?_).trans (onResize_perm threadNumber region.toRegion)
  refine List.flatMap_congr fun slice hslice => ?_
  unfold taken
  split_ifs with hblocks
  · refine List.map_congr_left fun i hi => Prod.ext rfl ?_
    rcases h slice hslice hblocks with hone | hone
    · have hbox : InBox slice.size i := mem_boxIndices.1 hi
      have hzero : i 2 = 0 := by
        have := hbox 2
        omega
      simp [View.address, hzero]
    · simp [View.address, hone]
  · rfl

theorem noGaps_of_perm
    (h : (((onResize threadNumber region.toRegion).flatMap fun slice =>
      plain (taken slice)).map Prod.snd).Perm ((plain region.toRegion).map Prod.snd)) :
    NoGaps threadNumber region.toRegion := by
  have hsum := h.sum_eq
  rw [← ((onResize_perm threadNumber region.toRegion).map Prod.snd).sum_eq, List.map_flatMap,
    List.map_flatMap, Lib.sum_flatMap, Lib.sum_flatMap] at hsum
  set parts := onResize threadNumber region.toRegion with hparts
  set gap := 1 - region.dst.stride 2 with hgap
  have hstride : ∀ slice ∈ parts, 1 - slice.dst.stride 2 = gap := fun slice hslice => by
    rw [(mem_onResize region.pos hslice).2]
  -- the addresses of all parts together are too small or too large
  have htaken : (parts.map fun slice => ((plain (taken slice)).map Prod.snd).sum).sum =
      (parts.map fun slice => ((plain slice).map Prod.snd).sum).sum +
        gap * (parts.map fun slice => if Blocks slice then reach slice.size else 0).sum := by
    rw [← List.sum_map_mul_left, ← List.sum_map_add]
    refine congrArg List.sum (List.map_congr_left fun slice hslice => ?_)
    rw [sum_taken, hstride slice hslice, mul_ite, mul_zero]
  rw [htaken, add_eq_left, mul_eq_zero] at hsum
  intro slice hslice hblocks
  rcases hsum with hzero | hzero
  · right
    have := hstride slice hslice
    omega
  · left
    have hnonneg : ∀ x ∈ parts.map fun slice => if Blocks slice then reach slice.size else 0,
        0 ≤ x := by
      intro x hx
      obtain ⟨other, -, rfl⟩ := List.mem_map.1 hx
      split_ifs
      · exact reach_nonneg _
      · exact le_rfl
    have hle := List.single_le_sum hnonneg _ (List.mem_map_of_mem hslice)
    rw [if_pos hblocks, hzero] at hle
    exact size_eq_one_of_reach (mem_onResize region.pos hslice).1 (le_antisymm hle (reach_nonneg _))

/-- **Main theorem.**  Whatever the parts of the threads and the order of their assignments, the
copy is right exactly when no part is copied as blocks whose rows have gaps in the destination. -/
theorem copiesRight_iff (bytes : Bytes) (threadNumber : ℕ) (region : CopyRegion τ)
    (w : List (ℤ × ℤ))
    (hw : w.Perm ((onResize threadNumber region.toRegion).flatMap (blit bytes))) :
    CopiesRight bytes region.toRegion w ↔ NoGaps threadNumber region.toRegion := by
  have hblit : w.Perm ((onResize threadNumber region.toRegion).flatMap fun slice =>
      plain (taken slice)) :=
    hw.trans (List.Perm.flatMap_left _ fun slice hslice =>
      blit_perm bytes (mem_onResize region.pos hslice).1)
  constructor
  · intro h
    have hlen : w.length = (plain region.toRegion).length := by
      rw [hblit.length_eq, ← (onResize_perm threadNumber region.toRegion).length_eq,
        List.length_flatMap, List.length_flatMap]
      simp only [length_plain_taken]
    exact noGaps_of_perm ((hblit.symm.map _).trans (perm_of_copiesRight bytes region hlen h))
  · exact fun h => copiesRight_of_perm bytes region (hblit.trans (taken_perm h))

/-- A row of three elements, with steps of `ds` in the destination. -/
def row (ds : ℤ) (hds : ds ≠ 0) : CopyRegion Unit where
  src := { stride := ![3, 3, 1] }
  dst := { stride := ![3, 3, ds] }
  size := ![1, 1, 3]
  origin := ()
  pos := by decide
  once := by
    intro i j hi hj heq
    have hzero : ∀ p : Fin 3 → ℤ, InBox ![1, 1, 3] p → p 0 = 0 ∧ p 1 = 0 := by
      intro p hp
      have h₀ : 0 ≤ p 0 ∧ p 0 < 1 := hp 0
      have h₁ : 0 ≤ p 1 ∧ p 1 < 1 := hp 1
      omega
    have hlast : i 2 * ds = j 2 * ds := by
      simpa [View.address, hzero i hi, hzero j hj] using heq
    funext k
    fin_cases k
    · exact (hzero i hi).1.trans (hzero j hj).1.symm
    · exact (hzero i hi).2.trans (hzero j hj).2.symm
    · exact mul_right_cancel₀ hds hlast

/-- A row without gaps is copied. -/
theorem copiesRight_row : CopiesRight .four (row 1 one_ne_zero).toRegion
    ((onResize 1 (row 1 one_ne_zero).toRegion).flatMap (blit .four)) := by
  refine (copiesRight_iff .four 1 (row 1 one_ne_zero) _ (.refl _)).2 fun slice hslice _ => .inr ?_
  obtain rfl := List.mem_singleton.1 hslice
  rfl

/-- A row with gaps is not. -/
theorem not_copiesRight_row : ¬ CopiesRight .four (row 2 two_ne_zero).toRegion
    ((onResize 1 (row 2 two_ne_zero).toRegion).flatMap (blit .four)) := by
  intro h
  have hlast := (h (fun s => BitVec.ofInt _ s) fun _ => 0).1 ![0, 0, 1] (by decide)
  revert hlast
  decide

end Mnn.CPURaster
