import Mnn.Geometry.PackedBlit

/-!
# Packed copies of one region

What `executeFaster` copies for a region whose dimensions do what `turnToPackRegion` supposes.

* `mem_blits`: what `executeFaster` copies, in each of its three ways;
* `Side.walk`, `packedIndex_address`: the points of a dimension and of a view, in blocks;
* `NoCarry`, `Shaped`, `Regular`: the regions that become the right blocks;
* `FullBlocks`: the channels fill the last block, or are the last ones of the destination;
* `Shaped.copies`, `Shaped.exists_copies`: with full blocks the packed region copies the elements of
  the region and no other ones; `Shaped.spills`: without, it copies another one.
-/

namespace Mnn.Blit

variable {τ : Type*} {pack : ℤ}

/-! ### The three ways to copy -/

theorem mem_memcpy {dst src n a o : ℤ} :
    (a, o) ∈ memcpy dst src n ↔ ∃ e, 0 ≤ e ∧ e < n ∧ a = src + e ∧ o = dst + e := by
  simp only [memcpy, List.mem_map, List.mem_range, Prod.mk.injEq]
  constructor
  · rintro ⟨e, he, rfl, rfl⟩
    exact ⟨e, by omega, by omega, rfl, rfl⟩
  · rintro ⟨e, h0, hn, rfl, rfl⟩
    exact ⟨e.toNat, by omega, by omega, by omega⟩

theorem exists_range {n : ℤ} {p : ℤ → Prop} :
    (∃ z ∈ List.range n.toNat, p (z : ℕ)) ↔ ∃ z, 0 ≤ z ∧ z < n ∧ p z := by
  simp only [List.mem_range]
  constructor
  · rintro ⟨z, hz, hp⟩
    exact ⟨z, by omega, by omega, hp⟩
  · rintro ⟨z, h0, hn, hp⟩
    refine ⟨z.toNat, by omega, ?_⟩
    rwa [Int.toNat_of_nonneg h0]

/-- The address of the block number `j` of a packed view. -/
def blockAddress (pack : ℤ) (v : View) (j : Fin 3 → ℤ) : ℤ :=
  v.offset + pack * (j 0 * v.stride 0 + j 1 * v.stride 1 + j 2 * v.stride 2)

theorem exists_inBox {size : Fin 3 → ℤ} {p : ℤ → ℤ → ℤ → Prop} :
    (∃ z, 0 ≤ z ∧ z < size 0 ∧ ∃ y, 0 ≤ y ∧ y < size 1 ∧ ∃ x, 0 ≤ x ∧ x < size 2 ∧ p z y x) ↔
      ∃ j, InBox size j ∧ p (j 0) (j 1) (j 2) := by
  constructor
  · rintro ⟨z, hz, hz', y, hy, hy', x, hx, hx', hp⟩
    refine ⟨![z, y, x], fun k => ?_, hp⟩
    fin_cases k
    · exact ⟨hz, hz'⟩
    · exact ⟨hy, hy'⟩
    · exact ⟨hx, hx'⟩
  · rintro ⟨j, hj, hp⟩
    exact ⟨j 0, (hj 0).1, (hj 0).2, j 1, (hj 1).1, (hj 1).2, j 2, (hj 2).1, (hj 2).2, hp⟩

/-- A number below `m * n` by its quotient and its remainder. -/
theorem exists_lt_mul {m n : ℤ} (hn : 0 < n) {p : ℤ → Prop} :
    (∃ e, 0 ≤ e ∧ e < m * n ∧ p e) ↔
      ∃ k, 0 ≤ k ∧ k < m ∧ ∃ l, 0 ≤ l ∧ l < n ∧ p (k * n + l) := by
  constructor
  · rintro ⟨e, h0, he, hp⟩
    refine ⟨e / n, Int.ediv_nonneg h0 hn.le, Int.ediv_lt_of_lt_mul hn he, e % n,
      Int.emod_nonneg _ hn.ne', Int.emod_lt_of_pos _ hn, ?_⟩
    rwa [mul_comm, Int.mul_ediv_add_emod]
  · rintro ⟨k, h0, hk, l, hl0, hl, hp⟩
    refine ⟨k * n + l, by positivity, ?_, hp⟩
    have hle : (k + 1) * n ≤ m * n := mul_le_mul_of_nonneg_right (by omega) hn.le
    linarith [add_mul k 1 n]

/-- A lane of the block with the indices `z`, `y` and `x` is copied from `a` to `o`. -/
def Lane (pack : ℤ) (slice : Region τ) (a o z y x : ℤ) : Prop :=
  ∃ l, 0 ≤ l ∧ l < pack ∧
    a = slice.src.offset + pack * (z * slice.src.stride 0 + y * slice.src.stride 1 +
      x * slice.src.stride 2) + l ∧
    o = slice.dst.offset + pack * (z * slice.dst.stride 0 + y * slice.dst.stride 1 +
      x * slice.dst.stride 2) + l

/-- `executeFaster` copies whole blocks.  The first way supposes that the rows follow each other in
the destination as well. -/
theorem mem_blits (hpack : 0 < pack) {slice : Region τ} (hsize : 0 < slice.size 2)
    (hrows : slice.src.stride 1 = slice.size 2 → slice.dst.stride 1 = slice.size 2 →
      slice.src.stride 2 = 1 → slice.dst.stride 2 = 1) {a o : ℤ} :
    (a, o) ∈ blits pack slice ↔ ∃ j, InBox slice.size j ∧ ∃ l, 0 ≤ l ∧ l < pack ∧
      a = blockAddress pack slice.src j + l ∧ o = blockAddress pack slice.dst j + l := by
  refine Iff.trans ?_ (exists_inBox (p := Lane pack slice a o))
  unfold blits Lane
  dsimp only
  split_ifs with hfirst hsecond
  · obtain ⟨hs1, hd1, hs2⟩ := hfirst
    have hd2 := hrows hs1 hd1 hs2
    simp only [List.mem_flatMap, mem_memcpy]
    rw [exists_range (p := fun z => ∃ e, 0 ≤ e ∧ e < slice.size 1 * slice.src.stride 1 * pack ∧
      a = slice.src.offset + z * slice.src.stride 0 * pack + e ∧
      o = slice.dst.offset + z * slice.dst.stride 0 * pack + e)]
    refine exists_congr fun z => and_congr_right fun _ => and_congr_right fun _ => ?_
    rw [hs1, mul_assoc, exists_lt_mul (mul_pos hsize hpack)]
    refine exists_congr fun y => and_congr_right fun _ => and_congr_right fun _ => ?_
    rw [exists_lt_mul hpack]
    refine exists_congr fun x => and_congr_right fun _ => and_congr_right fun _ => ?_
    refine exists_congr fun l => and_congr_right fun _ => and_congr_right fun _ => ?_
    rw [hs2, hd1, hd2]
    refine and_congr ?_ ?_ <;> refine Eq.congr_right ?_ <;> ring
  · obtain ⟨hs2, hd2⟩ := hsecond
    simp only [List.mem_flatMap, mem_memcpy]
    rw [exists_range (p := fun z => ∃ y ∈ List.range (slice.size 1).toNat, ∃ e, 0 ≤ e ∧
      e < slice.size 2 * pack ∧
      a = slice.src.offset + z * slice.src.stride 0 * pack +
        (y : ℕ) * slice.src.stride 1 * pack + e ∧
      o = slice.dst.offset + z * slice.dst.stride 0 * pack +
        (y : ℕ) * slice.dst.stride 1 * pack + e)]
    refine exists_congr fun z => and_congr_right fun _ => and_congr_right fun _ => ?_
    rw [exists_range (p := fun y => ∃ e, 0 ≤ e ∧ e < slice.size 2 * pack ∧
      a = slice.src.offset + z * slice.src.stride 0 * pack + y * slice.src.stride 1 * pack + e ∧
      o = slice.dst.offset + z * slice.dst.stride 0 * pack + y * slice.dst.stride 1 * pack + e)]
    refine exists_congr fun y => and_congr_right fun _ => and_congr_right fun _ => ?_
    rw [exists_lt_mul hpack]
    refine exists_congr fun x => and_congr_right fun _ => and_congr_right fun _ => ?_
    refine exists_congr fun l => and_congr_right fun _ => and_congr_right fun _ => ?_
    rw [← hs2, ← hd2]
    refine and_congr ?_ ?_ <;> refine Eq.congr_right ?_ <;> ring
  · simp only [List.mem_flatMap, mem_memcpy]
    rw [exists_range (p := fun z => ∃ y ∈ List.range (slice.size 1).toNat,
      ∃ x ∈ List.range (slice.size 2).toNat, ∃ l, 0 ≤ l ∧ l < pack ∧
      a = slice.src.offset + z * slice.src.stride 0 * pack + (y : ℕ) * slice.src.stride 1 * pack +
        (x : ℕ) * slice.src.stride 2 * pack + l ∧
      o = slice.dst.offset + z * slice.dst.stride 0 * pack + (y : ℕ) * slice.dst.stride 1 * pack +
        (x : ℕ) * slice.dst.stride 2 * pack + l)]
    refine exists_congr fun z => and_congr_right fun _ => and_congr_right fun _ => ?_
    rw [exists_range (p := fun y => ∃ x ∈ List.range (slice.size 2).toNat, ∃ l, 0 ≤ l ∧ l < pack ∧
      a = slice.src.offset + z * slice.src.stride 0 * pack + y * slice.src.stride 1 * pack +
        (x : ℕ) * slice.src.stride 2 * pack + l ∧
      o = slice.dst.offset + z * slice.dst.stride 0 * pack + y * slice.dst.stride 1 * pack +
        (x : ℕ) * slice.dst.stride 2 * pack + l)]
    refine exists_congr fun y => and_congr_right fun _ => and_congr_right fun _ => ?_
    rw [exists_range (p := fun x => ∃ l, 0 ≤ l ∧ l < pack ∧
      a = slice.src.offset + z * slice.src.stride 0 * pack + y * slice.src.stride 1 * pack +
        x * slice.src.stride 2 * pack + l ∧
      o = slice.dst.offset + z * slice.dst.stride 0 * pack + y * slice.dst.stride 1 * pack +
        x * slice.dst.stride 2 * pack + l)]
    refine exists_congr fun x => and_congr_right fun _ => and_congr_right fun _ => ?_
    refine exists_congr fun l => and_congr_right fun _ => and_congr_right fun _ => ?_
    refine and_congr ?_ ?_ <;> refine Eq.congr_right ?_ <;> ring

/-! ### One side of a region -/

variable {s : Splits} {n stride : ℤ}

/-- The points of a dimension, in elements and in blocks. -/
theorem Side.walk {B Q m : ℤ} (pack : ℤ) (hs : s.Pos) (h : Side s n stride B Q m) {b q r : ℤ}
    (hb : 0 ≤ b ∧ b < B) (hq : 0 ≤ q ∧ q < Q) (hr : 0 ≤ r ∧ r < m) :
    (split (((b * Q + q) * m + r) * stride) s.axis s.inside).axis = q ∧
      q / pack * (s.outside * s.inside) +
          ((split (((b * Q + q) * m + r) * stride) s.axis s.inside).outside * s.inside +
            (split (((b * Q + q) * m + r) * stride) s.axis s.inside).inside) =
        ((q / pack * B + b) * m + r) * blockStride s n stride := by
  rcases h with ⟨rfl, rfl, rfl, hfree⟩ | hchannels
  · have hb0 : b = 0 := by omega
    have hq0 : q = 0 := by omega
    subst hb0 hq0
    obtain ⟨haxis, hplace⟩ := hfree.walk hs hr
    have hindex : (0 * 1 + 0) * m + r = r := by ring
    rw [hindex, Int.zero_ediv, hplace]
    refine ⟨haxis, ?_⟩
    ring
  · rw [hchannels.split hs hb hq hr, add_comm]
    exact ⟨rfl, hchannels.walk hs hb hr _⟩

theorem Side.packStride_eq {B Q m : ℤ} (hs : s.Pos) (h : Side s n stride B Q m) :
    packStride s pack n stride true = blockStride s n stride := by
  rcases h with ⟨-, -, -, hfree⟩ | hchannels
  · exact hfree.packStride_eq hs
  · exact hchannels.packStride_eq hs

theorem Side.count {B Q m : ℤ} (h : Side s n stride B Q m) : n = B * Q * m := by
  rcases h with ⟨rfl, rfl, rfl, -⟩ | hchannels
  · ring
  · exact hchannels.count

theorem Side.pos {B Q m : ℤ} (h : Side s n stride B Q m) (hn : 0 < n) : 0 < B ∧ 0 < Q ∧ 0 < m := by
  rcases h with ⟨rfl, rfl, rfl, -⟩ | hchannels
  · exact ⟨one_pos, one_pos, hn⟩
  · have hB := hchannels.batches_pos
    have hQ := hchannels.two_le
    have hm := hchannels.places_pos
    omega

/-- How many channels a dimension walks over, seen at its last point. -/
theorem Side.split_last_axis {B Q m : ℤ} (hs : s.Pos) (h : Side s n stride B Q m) (hn : 0 < n) :
    (split ((n - 1) * stride) s.axis s.inside).axis = Q - 1 := by
  obtain ⟨hB, hQ, hm⟩ := h.pos hn
  have hwalk := (Side.walk 1 hs h (b := B - 1) (q := Q - 1) (r := m - 1) (by omega) (by omega)
    (by omega)).1
  have hlast : ((B - 1) * Q + (Q - 1)) * m + (m - 1) = n - 1 := by
    rw [h.count]
    ring
  rwa [hlast] at hwalk

theorem upDiv_one (hpack : 0 < pack) : upDiv 1 pack = 1 := by
  have hsum : 1 + pack - 1 = pack := by ring
  rw [upDiv, hsum, Int.tdiv_self hpack.ne']

theorem Side.packSize_eq {B Q m : ℤ} (hs : s.Pos) (h : Side s n stride B Q m) (hpack : 0 < pack)
    (hn : 0 < n) : packSize s pack n stride = upDiv Q pack * B * m := by
  obtain ⟨-, hQ, -⟩ := h.pos hn
  unfold packSize
  dsimp only
  rw [h.split_last_axis hs hn]
  by_cases hQ1 : Q = 1
  · subst hQ1
    rw [if_neg (by omega), upDiv_one hpack, h.count]
    ring
  · have hcount : n = B * m * Q := by
      rw [h.count]
      ring
    rw [if_pos (by omega), sub_add_cancel, hcount, Int.mul_tdiv_cancel _ hQ.ne']
    ring

/-- The points of the box do not leave the row, the channels or the batches of the sums of their
distances from the first one; with one channel, rows and batches are one row. -/
def NoCarry (s : Splits) (v : View) (size : Fin 3 → ℤ) : Prop :=
  s.axis = 1 ∨ ∀ i, InBox size i →
    (split (v.address i) s.axis s.inside).inside = (split v.offset s.axis s.inside).inside +
      ∑ k, (split (i k * v.stride k) s.axis s.inside).inside ∧
    (split (v.address i) s.axis s.inside).axis = (split v.offset s.axis s.inside).axis +
      ∑ k, (split (i k * v.stride k) s.axis s.inside).axis ∧
    (split (v.address i) s.axis s.inside).outside = (split v.offset s.axis s.inside).outside +
      ∑ k, (split (i k * v.stride k) s.axis s.inside).outside

theorem NoCarry.axis_eq {v : View} {size i : Fin 3 → ℤ} (h : NoCarry s v size)
    (hi : InBox size i) : (split (v.address i) s.axis s.inside).axis =
      (split v.offset s.axis s.inside).axis +
        ∑ k, (split (i k * v.stride k) s.axis s.inside).axis := by
  rcases h with hone | h
  · rw [hone]
    simp only [fun x => (split_flat x s.inside).1, Finset.sum_const_zero, add_zero]
  · exact (h i hi).2.1

/-- The place among the rows and batches. -/
theorem NoCarry.place_eq {v : View} {size i : Fin 3 → ℤ} (h : NoCarry s v size)
    (hi : InBox size i) :
    (split (v.address i) s.axis s.inside).outside * s.inside +
        (split (v.address i) s.axis s.inside).inside =
      (split v.offset s.axis s.inside).outside * s.inside +
          (split v.offset s.axis s.inside).inside +
        ∑ k, ((split (i k * v.stride k) s.axis s.inside).outside * s.inside +
          (split (i k * v.stride k) s.axis s.inside).inside) := by
  rcases h with hone | h
  · rw [hone]
    simp only [fun x => (split_flat x s.inside).2]
    rw [View.address, Fin.sum_univ_three]
    ring
  · obtain ⟨hinside, -, houtside⟩ := h i hi
    rw [hinside, houtside, Finset.sum_add_distrib, ← Finset.sum_mul]
    ring

theorem packOffset_eq {v : View} (hoffset : pack ∣ (split v.offset s.axis s.inside).axis) :
    packOffset s pack v.offset true =
      pack * blockIndex pack s (split v.offset s.axis s.inside) := by
  have hcancel := Int.mul_ediv_cancel' hoffset
  unfold packOffset blockIndex
  dsimp only
  rw [if_pos rfl]
  nth_rewrite 1 [← hcancel]
  ring

/-- The batches, channels and places of a point of each dimension. -/
structure Digits (B Q m b q p : Fin 3 → ℤ) : Prop where
  batch : ∀ k, 0 ≤ b k ∧ b k < B k
  channel : ∀ k, 0 ≤ q k ∧ q k < Q k
  place : ∀ k, 0 ≤ p k ∧ p k < m k

/-- The index of a point among the elements. -/
def element (Q m b q p : Fin 3 → ℤ) : Fin 3 → ℤ := fun k => (b k * Q k + q k) * m k + p k

/-- The index of the block of a point. -/
def block (pack : ℤ) (B m b q p : Fin 3 → ℤ) : Fin 3 → ℤ :=
  fun k => (q k / pack * B k + b k) * m k + p k

/-- The points of a view, in elements and in blocks, where only the dimension `k₀` walks over
channels. -/
theorem split_address (hs : s.Pos) {v : View} {size : Fin 3 → ℤ} {k₀ : Fin 3}
    {B Q m b q p : Fin 3 → ℤ} (hside : ∀ k, Side s (size k) (v.stride k) (B k) (Q k) (m k))
    (hsingle : ∀ k, k ≠ k₀ → Q k = 1) (hcarry : NoCarry s v size)
    (hoffset : pack ∣ (split v.offset s.axis s.inside).axis) (hd : Digits B Q m b q p)
    (hi : InBox size (element Q m b q p)) :
    (split (v.address (element Q m b q p)) s.axis s.inside).axis =
        (split v.offset s.axis s.inside).axis + q k₀ ∧
      blockIndex pack s (split (v.address (element Q m b q p)) s.axis s.inside) =
        blockIndex pack s (split v.offset s.axis s.inside) +
          ∑ k, block pack B m b q p k * blockStride s (size k) (v.stride k) := by
  have hwalk : ∀ k, (split (element Q m b q p k * v.stride k) s.axis s.inside).axis = q k ∧
      q k / pack * (s.outside * s.inside) +
          ((split (element Q m b q p k * v.stride k) s.axis s.inside).outside * s.inside +
            (split (element Q m b q p k * v.stride k) s.axis s.inside).inside) =
        block pack B m b q p k * blockStride s (size k) (v.stride k) :=
    fun k => (hside k).walk pack hs (hd.batch k) (hd.channel k) (hd.place k)
  have hzero : ∀ k, k ≠ k₀ → q k = 0 := by
    intro k hk
    have h1 := hsingle k hk
    have h2 := hd.channel k
    omega
  have haxis := hcarry.axis_eq hi
  rw [Finset.sum_congr rfl fun k _ => (hwalk k).1,
    Finset.sum_eq_single k₀ (fun k _ hk => hzero k hk) (by simp)] at haxis
  have hblocks : ∑ k, q k / pack * (s.outside * s.inside) =
      q k₀ / pack * (s.outside * s.inside) := by
    refine Finset.sum_eq_single k₀ (fun k _ hk => ?_) (by simp)
    rw [hzero k hk, Int.zero_ediv, zero_mul]
  have hsum := Finset.sum_congr (rfl : Finset.univ = Finset.univ) fun k _ => (hwalk k).2
  rw [Finset.sum_add_distrib, hblocks] at hsum
  have hplace := hcarry.place_eq hi
  refine ⟨haxis, ?_⟩
  rw [blockIndex, blockIndex, hplace, haxis, Int.add_ediv_of_dvd_left hoffset, ← hsum]
  ring

/-- A view of blocks, as `turnToPackRegion` makes it. -/
def packView (s : Splits) (pack : ℤ) (size : Fin 3 → ℤ) (v : View) : View where
  offset := packOffset s pack v.offset true
  stride k := packStride s pack (size k) (v.stride k) true

/-- The places of the points of a view in the packed buffer. -/
theorem packedIndex_address (hs : s.Pos) {v : View} {size : Fin 3 → ℤ} {k₀ : Fin 3}
    {B Q m b q p : Fin 3 → ℤ} (hside : ∀ k, Side s (size k) (v.stride k) (B k) (Q k) (m k))
    (hsingle : ∀ k, k ≠ k₀ → Q k = 1) (hcarry : NoCarry s v size)
    (hoffset : pack ∣ (split v.offset s.axis s.inside).axis) (hd : Digits B Q m b q p)
    (hi : InBox size (element Q m b q p)) :
    packedIndex pack s (v.address (element Q m b q p)) =
      blockAddress pack (packView s pack size v) (block pack B m b q p) + q k₀ % pack := by
  obtain ⟨haxis, hblock⟩ := split_address hs hside hsingle hcarry hoffset hd hi
  have hlane : ((split v.offset s.axis s.inside).axis + q k₀) % pack = q k₀ % pack := by
    obtain ⟨c, hc⟩ := hoffset
    rw [hc, Int.mul_add_emod_self_left]
  have hstride : ∀ k, (packView s pack size v).stride k =
      blockStride s (size k) (v.stride k) := fun k => (hside k).packStride_eq hs
  rw [packedIndex, haxis, hblock, hlane, blockAddress, hstride, hstride, hstride,
    Fin.sum_univ_three]
  show _ = packOffset s pack v.offset true + _ + _
  rw [packOffset_eq hoffset]
  ring

/-! ### Elements and lanes -/

/-- The number of elements of a tensor. -/
def Splits.count (s : Splits) : ℤ := s.inside * (s.axis * s.outside)

theorem split_recompose (x axisL area : ℤ) : (split x axisL area).inside +
    area * ((split x axisL area).axis + axisL * (split x axisL area).outside) = x := by
  simp only [split]
  rw [Int.tmod_add_mul_tdiv, Int.tmod_add_mul_tdiv]

/-- The coordinates of an element of the tensor. -/
theorem split_range (hs : s.Pos) {x : ℤ} (hx : 0 ≤ x ∧ x < s.count) :
    (0 ≤ (split x s.axis s.inside).inside ∧ (split x s.axis s.inside).inside < s.inside) ∧
      (0 ≤ (split x s.axis s.inside).axis ∧ (split x s.axis s.inside).axis < s.axis) ∧
      0 ≤ (split x s.axis s.inside).outside ∧ (split x s.axis s.inside).outside < s.outside := by
  have hrow : 0 ≤ x.tdiv s.inside := Int.tdiv_nonneg hx.1 hs.inside.le
  refine ⟨⟨Int.tmod_nonneg _ hx.1, Int.tmod_lt_of_pos _ hs.inside⟩,
    ⟨Int.tmod_nonneg _ hrow, Int.tmod_lt_of_pos _ hs.axis⟩, Int.tdiv_nonneg hrow hs.axis.le, ?_⟩
  show (x.tdiv s.inside).tdiv s.axis < s.outside
  rw [Int.tdiv_eq_ediv_of_nonneg hx.1, Int.tdiv_eq_ediv_of_nonneg
    (Int.ediv_nonneg hx.1 hs.inside.le)]
  refine Int.ediv_lt_of_lt_mul hs.axis (Int.ediv_lt_of_lt_mul hs.inside ?_)
  calc x < s.count := hx.2
    _ = s.outside * s.axis * s.inside := by rw [Splits.count]; ring

theorem packedIndex_ediv (hpack : 0 < pack) (s : Splits) (x : ℤ) :
    packedIndex pack s x / pack = blockIndex pack s (split x s.axis s.inside) := by
  have hlane := Int.emod_nonneg (split x s.axis s.inside).axis hpack.ne'
  have hlt := Int.emod_lt_of_pos (split x s.axis s.inside).axis hpack
  rw [packedIndex, Int.mul_add_ediv_left _ _ hpack.ne', Int.ediv_eq_zero_of_lt hlane hlt, add_zero]

theorem packedIndex_emod (s : Splits) (x : ℤ) :
    packedIndex pack s x % pack = (split x s.axis s.inside).axis % pack := by
  rw [packedIndex, Int.mul_add_emod_self_left, Int.emod_emod]

/-- The coordinates of a block. -/
theorem split_blockIndex (hs : s.Pos) (hpack : 0 < pack) {x : ℤ} (hx : 0 ≤ x ∧ x < s.count) :
    split (packedIndex pack s x / pack) s.outside s.inside =
      ⟨(split x s.axis s.inside).inside, (split x s.axis s.inside).outside,
        (split x s.axis s.inside).axis / pack⟩ := by
  obtain ⟨hw, hc, hb⟩ := split_range hs hx
  rw [packedIndex_ediv hpack, ← split_digits hw hb (Int.ediv_nonneg hc.1 hpack.le), blockIndex]
  congr 1
  ring

theorem axis_eq (hs : s.Pos) (hpack : 0 < pack) {x : ℤ} (hx : 0 ≤ x ∧ x < s.count) :
    (split x s.axis s.inside).axis =
      pack * (split (packedIndex pack s x / pack) s.outside s.inside).outside +
        packedIndex pack s x % pack := by
  rw [split_blockIndex hs hpack hx, packedIndex_emod, Int.mul_ediv_add_emod]

/-- Different elements have different places in the packed buffer. -/
theorem packedIndex_inj (hs : s.Pos) (hpack : 0 < pack) {x y : ℤ} (hx : 0 ≤ x ∧ x < s.count)
    (hy : 0 ≤ y ∧ y < s.count) (h : packedIndex pack s x = packedIndex pack s y) : x = y := by
  have hblock := (split_blockIndex hs hpack hx).symm.trans (h ▸ split_blockIndex hs hpack hy)
  rw [Splits.mk.injEq] at hblock
  have haxis : (split x s.axis s.inside).axis = (split y s.axis s.inside).axis := by
    rw [axis_eq hs hpack hx, h, ← axis_eq hs hpack hy]
  rw [← split_recompose x s.axis s.inside, hblock.1, haxis, hblock.2.1, split_recompose]

/-- The lanes of a block are the channels from its first one on. -/
theorem axis_lane (hs : s.Pos) (hpack : 0 < pack) {x y l : ℤ} (hx : 0 ≤ x ∧ x < s.count)
    (hy : 0 ≤ y ∧ y < s.count) (hfirst : pack ∣ (split y s.axis s.inside).axis)
    (hl : 0 ≤ l ∧ l < pack) (h : packedIndex pack s x = packedIndex pack s y + l) :
    (split x s.axis s.inside).axis = (split y s.axis s.inside).axis + l := by
  have hzero : packedIndex pack s y % pack = 0 := by
    rw [packedIndex_emod]
    exact Int.emod_eq_zero_of_dvd hfirst
  have hdvd := Int.dvd_of_emod_eq_zero hzero
  have hdiv : (packedIndex pack s y + l) / pack = packedIndex pack s y / pack := by
    rw [Int.add_ediv_of_dvd_left hdvd, Int.ediv_eq_zero_of_lt hl.1 hl.2, add_zero]
  have hmod : (packedIndex pack s y + l) % pack = l := by
    rw [Int.add_emod, hzero, zero_add, Int.emod_emod, Int.emod_eq_of_lt hl.1 hl.2]
  rw [axis_eq hs hpack hx, axis_eq hs hpack hy, h, hdiv, hmod, hzero, add_zero]

theorem digits_mem_count {w c b : ℤ} (hw : 0 ≤ w ∧ w < s.inside) (hc : 0 ≤ c ∧ c < s.axis)
    (hb : 0 ≤ b ∧ b < s.outside) :
    0 ≤ w + s.inside * (c + s.axis * b) ∧ w + s.inside * (c + s.axis * b) < s.count := by
  have hinner : c + s.axis * b + 1 ≤ s.axis * s.outside := by
    have := mul_le_mul_of_nonneg_left (Int.add_one_le_iff.2 hb.2) (show 0 ≤ s.axis by omega)
    linarith [mul_add s.axis b 1]
  have houter := mul_le_mul_of_nonneg_left hinner (show 0 ≤ s.inside by omega)
  have hzero := mul_nonneg (show 0 ≤ s.inside by omega)
    (add_nonneg hc.1 (mul_nonneg (show 0 ≤ s.axis by omega) hb.1))
  rw [Splits.count]
  exact ⟨by omega, by linarith [mul_add s.inside (c + s.axis * b) 1]⟩

/-- The element some channels further on. -/
theorem exists_lane (hs : s.Pos) {y l : ℤ} (hy : 0 ≤ y ∧ y < s.count)
    (hfirst : pack ∣ (split y s.axis s.inside).axis) (hl : 0 ≤ l ∧ l < pack)
    (hlt : (split y s.axis s.inside).axis + l < s.axis) :
    ∃ x, (0 ≤ x ∧ x < s.count) ∧ packedIndex pack s x = packedIndex pack s y + l := by
  obtain ⟨hw, hc, hb⟩ := split_range hs hy
  have hc' : 0 ≤ (split y s.axis s.inside).axis + l ∧
      (split y s.axis s.inside).axis + l < s.axis := ⟨by omega, hlt⟩
  have hsplit := split_digits hw hc' hb.1
  have hdiv : ((split y s.axis s.inside).axis + l) / pack =
      (split y s.axis s.inside).axis / pack := by
    rw [Int.add_ediv_of_dvd_left hfirst, Int.ediv_eq_zero_of_lt hl.1 hl.2, add_zero]
  have hmod : ((split y s.axis s.inside).axis + l) % pack =
      (split y s.axis s.inside).axis % pack + l := by
    rw [Int.emod_eq_zero_of_dvd hfirst, Int.add_emod, Int.emod_eq_zero_of_dvd hfirst, zero_add,
      Int.emod_emod, Int.emod_eq_of_lt hl.1 hl.2, zero_add]
  refine ⟨_, digits_mem_count hw hc' hb, ?_⟩
  rw [packedIndex, packedIndex, hsplit, blockIndex, blockIndex]
  dsimp only
  rw [hdiv, hmod]
  ring

/-! ### Regions -/

/-- The dimensions of a region do on both sides what `turnToPackRegion` supposes: `B`, `Q` and `m`
are the batches, channels and places that they walk over, and only `k₀` walks over channels.  Where
the rows of blocks follow each other in the source and are as far apart in the destination, they
follow each other there too. -/
structure Shaped (pack : ℤ) (src dst : Splits) (r : Region τ) (k₀ : Fin 3) (B Q m : Fin 3 → ℤ) :
    Prop where
  src_side : ∀ k, Side src (r.size k) (r.src.stride k) (B k) (Q k) (m k)
  dst_side : ∀ k, Side dst (r.size k) (r.dst.stride k) (B k) (Q k) (m k)
  single : ∀ k, k ≠ k₀ → Q k = 1
  src_noCarry : NoCarry src r.src r.size
  dst_noCarry : NoCarry dst r.dst r.size
  rows : blockStride src (r.size 1) (r.src.stride 1) = upDiv (Q 2) pack * B 2 * m 2 →
    blockStride dst (r.size 1) (r.dst.stride 1) = upDiv (Q 2) pack * B 2 * m 2 →
    blockStride src (r.size 2) (r.src.stride 2) = 1 →
    blockStride dst (r.size 2) (r.dst.stride 2) = 1

/-- A region that `turnToPackRegion` turns into the right blocks. -/
def Regular (pack : ℤ) (src dst : Splits) (r : Region τ) : Prop :=
  ∃ k₀ B Q m, Shaped pack src dst r k₀ B Q m

/-- How many channels a region has, seen at its last point in the destination. -/
def channels (dst : Splits) (r : Region τ) : ℤ :=
  1 + ∑ k, (split ((r.size k - 1) * r.dst.stride k) dst.axis dst.inside).axis

/-- The channels of a region fill its last block, or are the last ones of the destination. -/
def FullBlocks (pack : ℤ) (dst : Splits) (r : Region τ) : Prop :=
  pack ∣ channels dst r ∨
    (split r.dst.offset dst.axis dst.inside).axis + channels dst r = dst.axis

theorem lt_upDiv (hpack : 0 < pack) {Q k : ℤ} (hQ : 0 < Q) : k < upDiv Q pack ↔ k * pack < Q := by
  rw [upDiv, Int.tdiv_eq_ediv_of_nonneg (by omega), ← Int.add_one_le_iff,
    Int.le_ediv_iff_mul_le hpack, add_mul, one_mul]
  omega

theorem exists_digits {B Q m i : ℤ} (hQ : 0 < Q) (hm : 0 < m) (hi : 0 ≤ i ∧ i < B * Q * m) :
    ∃ b q r, (0 ≤ b ∧ b < B) ∧ (0 ≤ q ∧ q < Q) ∧ (0 ≤ r ∧ r < m) ∧ i = (b * Q + q) * m + r := by
  have hdiv : i / m < B * Q := Int.ediv_lt_of_lt_mul hm hi.2
  have hnonneg := Int.ediv_nonneg hi.1 hm.le
  refine ⟨i / m / Q, i / m % Q, i % m, ⟨Int.ediv_nonneg hnonneg hQ.le,
    Int.ediv_lt_of_lt_mul hQ hdiv⟩, ⟨Int.emod_nonneg _ hQ.ne', Int.emod_lt_of_pos _ hQ⟩,
    ⟨Int.emod_nonneg _ hm.ne', Int.emod_lt_of_pos _ hm⟩, ?_⟩
  rw [Int.ediv_mul_add_emod, Int.ediv_mul_add_emod]

theorem digits_lt {B Q m b q r : ℤ} (hb : 0 ≤ b ∧ b < B) (hq : 0 ≤ q ∧ q < Q)
    (hr : 0 ≤ r ∧ r < m) : 0 ≤ (b * Q + q) * m + r ∧ (b * Q + q) * m + r < B * Q * m := by
  have hbq : 0 ≤ b * Q + q := by nlinarith
  have hle : (b * Q + q + 1) * m ≤ B * Q * m := by
    refine mul_le_mul_of_nonneg_right ?_ (by omega)
    have := mul_le_mul_of_nonneg_right (show b + 1 ≤ B by omega) (show 0 ≤ Q by omega)
    linarith [add_mul b 1 Q]
  constructor
  · nlinarith
  · linarith [add_mul (b * Q + q) 1 m]

section Region

variable {src dst : Splits} {r : Region τ} {k₀ : Fin 3} {B Q m : Fin 3 → ℤ}

/-- A region has elements, and these are in its tensors. -/
structure Within (src dst : Splits) (r : Region τ) : Prop where
  size_pos : ∀ k, 0 < r.size k
  src_mem : ∀ i, InBox r.size i → 0 ≤ r.src.address i ∧ r.src.address i < src.count
  dst_mem : ∀ i, InBox r.size i → 0 ≤ r.dst.address i ∧ r.dst.address i < dst.count

/-- Both offsets are at the first lane of a block. -/
structure Aligned (pack : ℤ) (src dst : Splits) (r : Region τ) : Prop where
  src : pack ∣ (split r.src.offset src.axis src.inside).axis
  dst : pack ∣ (split r.dst.offset dst.axis dst.inside).axis

theorem aligned_of_canBlitSplits {swapnc swapcw : Bool}
    (h : canBlitSplits r src dst pack swapnc swapcw = true) : Aligned pack src dst r := by
  unfold canBlitSplits at h
  dsimp only at h
  split_ifs at h with hsrc hdst
  exact ⟨Int.dvd_of_tmod_eq_zero (not_not.1 hsrc), Int.dvd_of_tmod_eq_zero (not_not.1 hdst)⟩

section Shaped

variable (h : Shaped pack src dst r k₀ B Q m) (hr : Within src dst r)

include h hr

theorem Shaped.exists_element {i : Fin 3 → ℤ} (hi : InBox r.size i) :
    ∃ b q p, Digits B Q m b q p ∧ i = element Q m b q p := by
  have hdigits : ∀ k, ∃ b q p, (0 ≤ b ∧ b < B k) ∧ (0 ≤ q ∧ q < Q k) ∧ (0 ≤ p ∧ p < m k) ∧
      i k = (b * Q k + q) * m k + p := by
    intro k
    obtain ⟨-, hQ, hm⟩ := (h.dst_side k).pos (hr.size_pos k)
    exact exists_digits hQ hm ((h.dst_side k).count ▸ hi k)
  choose b q p hb hq hp hi' using hdigits
  exact ⟨b, q, p, ⟨hb, hq, hp⟩, funext hi'⟩

omit hr in
theorem Shaped.element_inBox {b q p : Fin 3 → ℤ} (hd : Digits B Q m b q p) :
    InBox r.size (element Q m b q p) := by
  intro k
  rw [(h.dst_side k).count]
  exact digits_lt (hd.batch k) (hd.channel k) (hd.place k)

variable (hsrc : src.Pos) (hdst : dst.Pos) (hpack : 0 < pack)

include hdst hpack

theorem Shaped.size_eq (k : Fin 3) :
    (turnToPackRegion r src dst pack true).size k = upDiv (Q k) pack * B k * m k :=
  (h.dst_side k).packSize_eq hdst hpack (hr.size_pos k)

theorem Shaped.block_inBox {b q p : Fin 3 → ℤ} (hd : Digits B Q m b q p) :
    InBox (turnToPackRegion r src dst pack true).size (block pack B m b q p) := by
  intro k
  obtain ⟨-, hQ, -⟩ := (h.dst_side k).pos (hr.size_pos k)
  rw [h.size_eq hr hdst hpack]
  refine digits_lt ⟨Int.ediv_nonneg (hd.channel k).1 hpack.le, (lt_upDiv hpack hQ).2 ?_⟩
    (hd.batch k) (hd.place k)
  exact (Int.ediv_mul_le _ hpack.ne').trans_lt (hd.channel k).2

/-- Every block of the packed region is that of a point on its first lane. -/
theorem Shaped.exists_block {j : Fin 3 → ℤ}
    (hj : InBox (turnToPackRegion r src dst pack true).size j) :
    ∃ b q p, Digits B Q m b q p ∧ (∀ k, pack ∣ q k) ∧ j = block pack B m b q p := by
  have hdigits : ∀ k, ∃ b q p, (0 ≤ b ∧ b < B k) ∧ (0 ≤ q ∧ q < Q k) ∧ (0 ≤ p ∧ p < m k) ∧
      pack ∣ q ∧ j k = (q / pack * B k + b) * m k + p := by
    intro k
    obtain ⟨hB, hQ, hm⟩ := (h.dst_side k).pos (hr.size_pos k)
    obtain ⟨c, b, p, hc, hb, hp, hjk⟩ := exists_digits hB hm (h.size_eq hr hdst hpack k ▸ hj k)
    refine ⟨b, c * pack, p, hb, ⟨mul_nonneg hc.1 hpack.le, (lt_upDiv hpack hQ).1 hc.2⟩, hp,
      Dvd.intro_left _ rfl, ?_⟩
    rw [Int.mul_ediv_cancel _ hpack.ne', hjk]
  choose b q p hb hq hp hdvd hj' using hdigits
  exact ⟨b, q, p, ⟨hb, hq, hp⟩, hdvd, funext hj'⟩

include hsrc

omit hr hpack in
/-- The places of a point in the packed buffers. -/
theorem Shaped.packedIndex_eq (ha : Aligned pack src dst r) {b q p : Fin 3 → ℤ}
    (hd : Digits B Q m b q p) :
    packedIndex pack src (r.src.address (element Q m b q p)) =
        blockAddress pack (turnToPackRegion r src dst pack true).src (block pack B m b q p) +
          q k₀ % pack ∧
      packedIndex pack dst (r.dst.address (element Q m b q p)) =
        blockAddress pack (turnToPackRegion r src dst pack true).dst (block pack B m b q p) +
          q k₀ % pack :=
  ⟨packedIndex_address hsrc h.src_side h.single h.src_noCarry ha.src hd (h.element_inBox hd),
    packedIndex_address hdst h.dst_side h.single h.dst_noCarry ha.dst hd (h.element_inBox hd)⟩

theorem Shaped.mem_blits {a o : ℤ} : (a, o) ∈ blits pack (turnToPackRegion r src dst pack true) ↔
    ∃ j, InBox (turnToPackRegion r src dst pack true).size j ∧ ∃ l, 0 ≤ l ∧ l < pack ∧
      a = blockAddress pack (turnToPackRegion r src dst pack true).src j + l ∧
      o = blockAddress pack (turnToPackRegion r src dst pack true).dst j + l := by
  have hsize := h.size_eq hr hdst hpack
  obtain ⟨hB, hQ, hm⟩ := (h.dst_side 2).pos (hr.size_pos 2)
  refine Blit.mem_blits hpack ?_ ?_
  · rw [hsize]
    have hup : 0 < upDiv (Q 2) pack := (lt_upDiv hpack hQ).2 (by omega)
    positivity
  · rw [hsize]
    show packStride src pack _ _ true = _ → packStride dst pack _ _ true = _ →
      packStride src pack _ _ true = _ → packStride dst pack _ _ true = _
    rw [(h.src_side 1).packStride_eq hsrc, (h.dst_side 1).packStride_eq hdst,
      (h.src_side 2).packStride_eq hsrc, (h.dst_side 2).packStride_eq hdst]
    exact h.rows

/-- The packed region copies the elements of the region. -/
theorem Shaped.copies (ha : Aligned pack src dst r) {a o : ℤ} (hcopies : r.Copies a o) :
    (packedIndex pack src a, packedIndex pack dst o) ∈
      blits pack (turnToPackRegion r src dst pack true) := by
  obtain ⟨i, hi, rfl, rfl⟩ := hcopies
  obtain ⟨b, q, p, hd, rfl⟩ := h.exists_element hr hi
  obtain ⟨hsrc', hdst'⟩ := h.packedIndex_eq hsrc hdst ha hd
  exact (h.mem_blits hr hsrc hdst hpack).2 ⟨_, h.block_inBox hr hdst hpack hd, _,
    Int.emod_nonneg _ hpack.ne', Int.emod_lt_of_pos _ hpack, hsrc', hdst'⟩

omit hsrc hpack in
theorem Shaped.channels_eq : channels dst r = Q k₀ := by
  have hterm : ∀ k, (split ((r.size k - 1) * r.dst.stride k) dst.axis dst.inside).axis = Q k - 1 :=
    fun k => (h.dst_side k).split_last_axis hdst (hr.size_pos k)
  have hsum : ∑ k, (Q k - 1) = Q k₀ - 1 :=
    Finset.sum_eq_single k₀ (fun k _ hk => by rw [h.single k hk, sub_self]) (by simp)
  rw [channels, Finset.sum_congr rfl fun k _ => hterm k, hsum]
  ring

omit hr hpack in
/-- A point on the first lane of its block, and the point some channels further on. -/
theorem Shaped.lane (ha : Aligned pack src dst r) {b q p : Fin 3 → ℤ} (hd : Digits B Q m b q p)
    (hdvd : pack ∣ q k₀) {l : ℤ} (hl : 0 ≤ l ∧ l < pack) (hlt : q k₀ + l < Q k₀) :
    ∃ i, InBox r.size i ∧
      packedIndex pack src (r.src.address i) =
        blockAddress pack (turnToPackRegion r src dst pack true).src (block pack B m b q p) + l ∧
      packedIndex pack dst (r.dst.address i) =
        blockAddress pack (turnToPackRegion r src dst pack true).dst (block pack B m b q p) +
          l := by
  have hd' : Digits B Q m b (Function.update q k₀ (q k₀ + l)) p := by
    refine ⟨hd.batch, fun k => ?_, hd.place⟩
    by_cases hk : k = k₀
    · subst hk
      rw [Function.update_self]
      have := hd.channel k
      omega
    · rw [Function.update_of_ne hk]
      exact hd.channel k
  have hblock : block pack B m b (Function.update q k₀ (q k₀ + l)) p = block pack B m b q p := by
    funext k
    unfold block
    by_cases hk : k = k₀
    · subst hk
      rw [Function.update_self, Int.add_ediv_of_dvd_left hdvd, Int.ediv_eq_zero_of_lt hl.1 hl.2,
        add_zero]
    · rw [Function.update_of_ne hk]
  have hmod : (q k₀ + l) % pack = l := by
    rw [Int.add_emod, Int.emod_eq_zero_of_dvd hdvd, zero_add, Int.emod_emod,
      Int.emod_eq_of_lt hl.1 hl.2]
  have heq := h.packedIndex_eq hsrc hdst ha hd'
  rw [hblock, Function.update_self, hmod] at heq
  exact ⟨_, h.element_inBox hd', heq⟩

/-- What the packed region copies to an element of the tensor is an element of the region, where the
blocks are full. -/
theorem Shaped.exists_copies (ha : Aligned pack src dst r) (hfull : FullBlocks pack dst r) {a x : ℤ}
    (hx : 0 ≤ x ∧ x < dst.count)
    (hmem : (a, packedIndex pack dst x) ∈ blits pack (turnToPackRegion r src dst pack true)) :
    ∃ a', r.Copies a' x ∧ a = packedIndex pack src a' := by
  obtain ⟨j, hj, l, hl0, hl, rfl, ho⟩ := (h.mem_blits hr hsrc hdst hpack).1 hmem
  obtain ⟨b, q, p, hd, hdvd, rfl⟩ := h.exists_block hr hdst hpack hj
  by_cases hlt : q k₀ + l < Q k₀
  · obtain ⟨i, hi, hsi, hdi⟩ := h.lane hsrc hdst ha hd (hdvd k₀) ⟨hl0, hl⟩ hlt
    refine ⟨r.src.address i, ⟨i, hi, rfl, ?_⟩, hsi.symm⟩
    exact packedIndex_inj hdst hpack (hr.dst_mem i hi) hx (hdi.trans ho.symm)
  · exfalso
    have hi := h.element_inBox hd
    obtain ⟨haxis, -⟩ := split_address hdst h.dst_side h.single h.dst_noCarry ha.dst hd hi
    have heq := (h.packedIndex_eq hsrc hdst ha hd).2
    rw [Int.emod_eq_zero_of_dvd (hdvd k₀), add_zero] at heq
    rcases hfull with hQ | hQ <;> rw [h.channels_eq hr hdst] at hQ
    · -- two multiples of `pack` that are less than `pack` apart
      obtain ⟨c, hc⟩ := hQ
      obtain ⟨d, hd'⟩ := hdvd k₀
      have hq := (hd.channel k₀).2
      rw [hc, hd'] at hq hlt
      have hcd : d + 1 ≤ c := lt_of_mul_lt_mul_left hq hpack.le
      have := mul_le_mul_of_nonneg_left hcd hpack.le
      linarith [mul_add pack d 1]
    · have hfirst : pack ∣
          (split (r.dst.address (element Q m b q p)) dst.axis dst.inside).axis := by
        rw [haxis]
        exact dvd_add ha.dst (hdvd k₀)
      rw [← heq] at ho
      have hlane := axis_lane hdst hpack hx (hr.dst_mem _ hi) hfirst ⟨hl0, hl⟩ ho
      have hrange := (split_range hdst hx).2.1.2
      omega

/-- With an element, the region has the one on the first lane of its block. -/
theorem Shaped.first_lane (ha : Aligned pack src dst r) {a y : ℤ} (hcopies : r.Copies a y) :
    ∃ a' x, r.Copies a' x ∧ packedIndex pack dst x % pack = 0 ∧
      packedIndex pack dst y / pack = packedIndex pack dst x / pack := by
  obtain ⟨i, hi, rfl, rfl⟩ := hcopies
  obtain ⟨b, q, p, hd, rfl⟩ := h.exists_element hr hi
  have hd' : Digits B Q m b (fun k => q k / pack * pack) p :=
    ⟨hd.batch, fun k => ⟨mul_nonneg (Int.ediv_nonneg (hd.channel k).1 hpack.le) hpack.le,
      (Int.ediv_mul_le _ hpack.ne').trans_lt (hd.channel k).2⟩, hd.place⟩
  have hblock : block pack B m b (fun k => q k / pack * pack) p = block pack B m b q p := by
    funext k
    unfold block
    rw [Int.mul_ediv_cancel _ hpack.ne']
  have hy := (h.packedIndex_eq hsrc hdst ha hd).2
  have hx := (h.packedIndex_eq hsrc hdst ha hd').2
  have hoffset : pack ∣ blockAddress pack (turnToPackRegion r src dst pack true).dst
      (block pack B m b q p) := by
    refine dvd_add ?_ (dvd_mul_right _ _)
    show pack ∣ packOffset dst pack r.dst.offset true
    rw [packOffset_eq ha.dst]
    exact dvd_mul_right _ _
  rw [hblock, Int.mul_emod_left, add_zero] at hx
  refine ⟨_, _, ⟨_, h.element_inBox hd', rfl, rfl⟩, ?_, ?_⟩
  · rw [hx]
    exact Int.emod_eq_zero_of_dvd hoffset
  · rw [hx, hy, Int.add_ediv_of_dvd_left hoffset, Int.ediv_eq_zero_of_lt
      (Int.emod_nonneg _ hpack.ne') (Int.emod_lt_of_pos _ hpack), add_zero]

omit hdst hsrc hpack in
/-- The first point on a channel. -/
theorem Shaped.digits_channel {c : ℤ} (hc : 0 ≤ c ∧ c < Q k₀) :
    Digits B Q m 0 (Function.update 0 k₀ c) 0 := by
  have hpos := fun k => (h.dst_side k).pos (hr.size_pos k)
  refine ⟨fun k => ⟨le_rfl, (hpos k).1⟩, fun k => ?_, fun k => ⟨le_rfl, (hpos k).2.2⟩⟩
  by_cases hk : k = k₀
  · subst hk
    rwa [Function.update_self]
  · rw [Function.update_of_ne hk]
    exact ⟨le_rfl, (hpos k).2.1⟩

/-- Where the blocks are not full, the packed region writes an element that is none of the region,
into a block that the region has an element of. -/
theorem Shaped.spills (ha : Aligned pack src dst r) (hfull : ¬ FullBlocks pack dst r) :
    ∃ a y, (0 ≤ y ∧ y < dst.count) ∧
      (a, packedIndex pack dst y) ∈ blits pack (turnToPackRegion r src dst pack true) ∧
      (∀ a', ¬ r.Copies a' y) ∧ ∃ a' x, r.Copies a' x ∧ packedIndex pack dst x % pack = 0 ∧
        packedIndex pack dst y / pack = packedIndex pack dst x / pack := by
  obtain ⟨hdvd, hlast⟩ := not_or.1 hfull
  rw [h.channels_eq hr hdst] at hdvd hlast
  have hQ := ((h.dst_side k₀).pos (hr.size_pos k₀)).2.1
  have hlane : 0 < Q k₀ % pack :=
    lt_of_le_of_ne (Int.emod_nonneg _ hpack.ne') fun h0 => hdvd (Int.dvd_of_emod_eq_zero h0.symm)
  have hlt := Int.emod_lt_of_pos (Q k₀) hpack
  have hsum := Int.ediv_mul_add_emod (Q k₀) pack
  have haxis : ∀ {b q p : Fin 3 → ℤ}, Digits B Q m b q p →
      (split (r.dst.address (element Q m b q p)) dst.axis dst.inside).axis =
        (split r.dst.offset dst.axis dst.inside).axis + q k₀ := fun hd =>
    (split_address hdst h.dst_side h.single h.dst_noCarry ha.dst hd (h.element_inBox hd)).1
  -- the last channel of the region is one of the destination, but not the last one
  have hend : (split r.dst.offset dst.axis dst.inside).axis + Q k₀ < dst.axis := by
    have htop := h.digits_channel hr (c := Q k₀ - 1) (by omega)
    have hrange := (split_range hdst (hr.dst_mem _ (h.element_inBox htop))).2.1.2
    rw [haxis htop, Function.update_self] at hrange
    omega
  -- the first lane of the last block
  have hd := h.digits_channel hr (c := Q k₀ / pack * pack)
    ⟨mul_nonneg (Int.ediv_nonneg hQ.le hpack.le) hpack.le, by omega⟩
  have hi := h.element_inBox hd
  have hx := hr.dst_mem _ hi
  have hxaxis := haxis hd
  obtain ⟨hxsrc, hxdst⟩ := h.packedIndex_eq hsrc hdst ha hd
  rw [Function.update_self, Int.mul_emod_left, add_zero] at hxsrc hxdst
  rw [Function.update_self] at hxaxis
  have hfirst : pack ∣ (split (r.dst.address (element Q m 0
      (Function.update 0 k₀ (Q k₀ / pack * pack)) 0)) dst.axis dst.inside).axis := by
    rw [hxaxis]
    exact dvd_add ha.dst (dvd_mul_left _ _)
  have hzero : packedIndex pack dst (r.dst.address (element Q m 0
      (Function.update 0 k₀ (Q k₀ / pack * pack)) 0)) % pack = 0 := by
    rw [packedIndex_emod]
    exact Int.emod_eq_zero_of_dvd hfirst
  obtain ⟨y, hy, hyx⟩ := exists_lane hdst hx hfirst ⟨hlane.le, hlt⟩ (by omega)
  refine ⟨_, y, hy, (h.mem_blits hr hsrc hdst hpack).2 ⟨_, h.block_inBox hr hdst hpack hd,
    Q k₀ % pack, hlane.le, hlt, rfl, ?_⟩, ?_, ?_⟩
  · rw [hyx, hxdst]
  · rintro a' ⟨i, hi', -, rfl⟩
    obtain ⟨b, q, p, hd', rfl⟩ := h.exists_element hr hi'
    have h1 := haxis hd'
    have h2 := axis_lane hdst hpack hy hx hfirst ⟨hlane.le, hlt⟩ hyx
    have h3 := (hd'.channel k₀).2
    omega
  · refine ⟨_, _, ⟨_, hi, rfl, rfl⟩, hzero, ?_⟩
    rw [hyx, Int.add_ediv_of_dvd_left (Int.dvd_of_emod_eq_zero hzero),
      Int.ediv_eq_zero_of_lt hlane.le hlt, add_zero]

end Shaped

end Region

end Mnn.Blit
