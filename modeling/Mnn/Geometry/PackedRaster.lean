import Mnn.Geometry.PackedRegion

/-!
# When packed rasters are right

`CPURaster` copies blocks where `OpCommonUtils::canBlitFast` accepts every region of a raster.

* `Agrees`: the packed raster leaves in every element what the plain one does;
* `executeFaster_eq`: what is left where all copies to one address copy the same;
* `packed_agrees_iff`: **a raster of regular regions agrees exactly when its blocks are full**;
* `partial_block_spills`: five of eight channels.
-/

namespace Mnn.Blit

variable {τ : Type*} {pack : ℤ}

/-! ### Rasters -/

section Raster

variable {V : Type*} {length : τ → List ℕ} {output : List ℕ} {regions : List (Region τ)}

/-- The packed raster and the plain raster agree, whatever the tensors hold: on every element of the
output, the packed copies leave what the regions copy between the unpacked tensors. -/
def Agrees (V : Type*) (pack : ℤ) (length : τ → List ℕ) (output : List ℕ)
    (regions : List (Region τ)) : Prop :=
  ∀ (host : τ → ℤ → V) (dst : ℤ → V) (x : ℤ), 0 ≤ x ∧ x < (splitsOf output).count →
    executeFaster pack length output regions host dst (packedIndex pack (splitsOf output) x) =
      regions.foldl (fun dst r => r.copy
          (fun a => host r.origin (packedIndex pack (splitsOf (length r.origin)) a)) dst)
        (fun x => dst (packedIndex pack (splitsOf output) x)) x

/-- What a list of assignments leaves where all of them to `o` assign `v`. -/
theorem foldl_update_eq (l : List (ℤ × ℤ)) (src dst : ℤ → V) {o : ℤ} {v : V}
    (hall : ∀ a, (a, o) ∈ l → src a = v) (hex : (∃ a, (a, o) ∈ l) ∨ dst o = v) :
    l.foldl (fun dst p => Function.update dst p.2 (src p.1)) dst o = v :=
  Lib.foldl_update_of_agree l Prod.snd (fun p => src p.1)
    (fun p hp (hpo : p.2 = o) => hall p.1 (hpo ▸ hp)) dst
    (hex.imp_left fun ⟨a, ha⟩ => ⟨(a, o), ha, rfl⟩)

/-- What a region that `onResize` turned into blocks copies. -/
def regionBlits (pack : ℤ) (length : τ → List ℕ) (output : List ℕ) (r : Region τ) : List (ℤ × ℤ) :=
  blits pack (turnToPackRegion r (splitsOf (length r.origin)) (splitsOf output) pack true)

theorem executeFaster_eq (host : τ → ℤ → V) (dst : ℤ → V) {o : ℤ} {v : V}
    (hall : ∀ r ∈ regions, ∀ a, (a, o) ∈ regionBlits pack length output r → host r.origin a = v)
    (hex : (∃ r ∈ regions, ∃ a, (a, o) ∈ regionBlits pack length output r) ∨ dst o = v) :
    executeFaster pack length output regions host dst o = v := by
  unfold executeFaster
  induction regions generalizing dst with
  | nil =>
    rcases hex with ⟨r, hr, -⟩ | hdst
    · exact absurd hr List.not_mem_nil
    · exact hdst
  | cons r regions ih =>
    refine ih _ (fun r' hr' => hall r' (List.mem_cons_of_mem r hr')) ?_
    have hhead := foldl_update_eq (regionBlits pack length output r) (host r.origin) dst
      (hall r List.mem_cons_self)
    rcases hex with ⟨r', hr', ha⟩ | hdst
    · rcases List.mem_cons.1 hr' with rfl | hr'
      · exact .inr (hhead (.inl ha))
      · exact .inl ⟨r', hr', ha⟩
    · exact .inr (hhead (.inr hdst))

theorem upDiv_nonneg (hpack : 0 < pack) {x : ℤ} (hx : 0 < x) : 0 ≤ upDiv x pack :=
  Int.tdiv_nonneg (by omega) hpack.le

theorem packSize_nonpos (hpack : 0 < pack) {s : Splits} {size stride : ℤ} (h : size ≤ 0) :
    packSize s pack size stride ≤ 0 := by
  unfold packSize
  dsimp only
  split_ifs with haxis
  · refine mul_nonpos_of_nonpos_of_nonneg ?_ (upDiv_nonneg hpack (by omega))
    have hneg := Int.tdiv_nonneg (show 0 ≤ -size by omega)
      (show 0 ≤ (split ((size - 1) * stride) s.axis s.inside).axis + 1 by omega)
    rw [Int.neg_tdiv] at hneg
    omega
  · exact h

/-- A region without elements becomes one without blocks. -/
theorem blits_eq_nil (hpack : 0 < pack) {src dst : Splits} {r : Region τ} {k : Fin 3}
    (hk : r.size k ≤ 0) : blits pack (turnToPackRegion r src dst pack true) = [] := by
  have hsize : (turnToPackRegion r src dst pack true).size k ≤ 0 := packSize_nonpos hpack hk
  have hstride : (turnToPackRegion r src dst pack true).src.stride k = 0 := if_pos (by omega)
  have hrange : List.range ((turnToPackRegion r src dst pack true).size k).toNat = [] := by
    rw [Int.toNat_of_nonpos hsize, List.range_zero]
  unfold blits
  dsimp only
  rcases (by decide : ∀ k : Fin 3, k = 0 ∨ k = 1 ∨ k = 2) k with rfl | rfl | rfl
  · simp [hrange]
  · simp [hrange, hstride, memcpy]
  · simp [hrange, hstride]

/-- The elements of a region are elements of its tensors. -/
def Inside (src dst : Splits) (r : Region τ) : Prop :=
  ∀ i, InBox r.size i → (0 ≤ r.src.address i ∧ r.src.address i < src.count) ∧
    0 ≤ r.dst.address i ∧ r.dst.address i < dst.count

theorem pos_of_count {l : List ℕ} {x : ℤ} (hx : 0 ≤ x ∧ x < (splitsOf l).count) :
    (splitsOf l).Pos := by
  have hcount : 0 < (splitsOf l).count := by omega
  have hne := hcount.ne'
  rw [Splits.count, mul_ne_zero_iff, mul_ne_zero_iff] at hne
  have hnonneg : 0 ≤ (splitsOf l).inside ∧ 0 ≤ (splitsOf l).axis ∧ 0 ≤ (splitsOf l).outside :=
    ⟨Int.natCast_nonneg _, Int.natCast_nonneg _, Int.natCast_nonneg _⟩
  exact ⟨by omega, by omega, by omega⟩

/-- What the region level needs to know of a region that has elements. -/
structure Ready (pack : ℤ) (length : τ → List ℕ) (output : List ℕ) (r : Region τ) : Prop where
  within : Within (splitsOf (length r.origin)) (splitsOf output) r
  aligned : Aligned pack (splitsOf (length r.origin)) (splitsOf output) r
  src_pos : (splitsOf (length r.origin)).Pos
  dst_pos : (splitsOf output).Pos

theorem ready {r : Region τ} (hblit : canBlitFast r (length r.origin) output pack true false = true)
    (hinside : Inside (splitsOf (length r.origin)) (splitsOf output) r)
    (hsize : ∀ k, 0 < r.size k) : Ready pack length output r where
  within := ⟨hsize, fun i hi => (hinside i hi).1, fun i hi => (hinside i hi).2⟩
  aligned := by
    unfold canBlitFast at hblit
    split_ifs at hblit
    exact aligned_of_canBlitSplits hblit
  src_pos := pos_of_count (hinside 0 fun k => ⟨le_rfl, hsize k⟩).1
  dst_pos := pos_of_count (hinside 0 fun k => ⟨le_rfl, hsize k⟩).2

theorem size_pos_of_copies {r : Region τ} {a o : ℤ} (h : r.Copies a o) (k : Fin 3) :
    0 < r.size k := by
  obtain ⟨i, hi, -, -⟩ := h
  have := hi k
  omega

theorem size_pos_of_mem (hpack : 0 < pack) {r : Region τ} {a o : ℤ}
    (h : (a, o) ∈ regionBlits pack length output r) (k : Fin 3) : 0 < r.size k := by
  by_contra hk
  rw [regionBlits, blits_eq_nil hpack (not_lt.1 hk)] at h
  exact List.not_mem_nil h

variable (hpack : 0 < pack)
  (hblit : ∀ r ∈ regions, canBlitFast r (length r.origin) output pack true false = true)
  (hinside : ∀ r ∈ regions, Inside (splitsOf (length r.origin)) (splitsOf output) r)
  (hapart : WritesApart regions)
  (hregular : ∀ r ∈ regions, (∀ k, 0 < r.size k) →
    Regular pack (splitsOf (length r.origin)) (splitsOf output) r)

include hpack hblit hinside hapart hregular

/-- Full blocks are enough. -/
theorem agrees_of_fullBlocks
    (hfull : ∀ r ∈ regions, (∀ k, 0 < r.size k) → FullBlocks pack (splitsOf output) r) :
    Agrees V pack length output regions := by
  intro host dst x hx
  have hcopies : ∀ r ∈ regions, ∀ a,
      (a, packedIndex pack (splitsOf output) x) ∈ regionBlits pack length output r →
      ∃ a', r.Copies a' x ∧ a = packedIndex pack (splitsOf (length r.origin)) a' := by
    intro r hr a ha
    have hsize := size_pos_of_mem hpack ha
    obtain ⟨hw, haligned, hsrc, hdst⟩ := ready (hblit r hr) (hinside r hr) hsize
    obtain ⟨k₀, B, Q, m, h⟩ := hregular r hr hsize
    exact h.exists_copies hw hsrc hdst hpack haligned (hfull r hr hsize) hx ha
  refine executeFaster_eq host dst (fun r hr a ha => ?_) ?_
  · obtain ⟨a', ha', rfl⟩ := hcopies r hr a ha
    exact (foldl_copy_of_copies hapart
      (fun t a => host t (packedIndex pack (splitsOf (length t)) a)) _ hr ha').symm
  · by_cases hex : ∃ r ∈ regions, ∃ a, r.Copies a x
    · obtain ⟨r, hr, a, ha⟩ := hex
      have hsize := size_pos_of_copies ha
      obtain ⟨hw, haligned, hsrc, hdst⟩ := ready (hblit r hr) (hinside r hr) hsize
      obtain ⟨k₀, B, Q, m, h⟩ := hregular r hr hsize
      exact .inl ⟨r, hr, _, h.copies hw hsrc hdst hpack haligned ha⟩
    · refine .inr (foldl_copy_of_not_copies regions
        (fun t a => host t (packedIndex pack (splitsOf (length t)) a))
        (fun x => dst (packedIndex pack (splitsOf output) x)) fun r hr a ha => ?_).symm
      exact hex ⟨r, hr, a, ha⟩

/-- Where the blocks of a region are not full, an element that no region writes is changed. -/
theorem fullBlocks_of_agrees [Nontrivial V] (h : Agrees V pack length output regions) {r : Region τ}
    (hr : r ∈ regions) (hsize : ∀ k, 0 < r.size k) : FullBlocks pack (splitsOf output) r := by
  by_contra hfull
  obtain ⟨hw, haligned, hsrc, hdst⟩ := ready (hblit r hr) (hinside r hr) hsize
  obtain ⟨k₀, B, Q, m, hshaped⟩ := hregular r hr hsize
  obtain ⟨a, y, hy, hmem, hnot, a', x, hx, hzero, hdiv⟩ :=
    hshaped.spills hw hsrc hdst hpack haligned hfull
  -- no other region writes the element, as that one would have an element of the same block too
  have hnone : ∀ r' ∈ regions, ∀ c, ¬ r'.Copies c y := by
    intro r' hr' c hc
    have hsize' := size_pos_of_copies hc
    obtain ⟨hw', haligned', hsrc', -⟩ := ready (hblit r' hr') (hinside r' hr') hsize'
    obtain ⟨k₁, B', Q', m', hshaped'⟩ := hregular r' hr' hsize'
    obtain ⟨c', x', hx', hzero', hdiv'⟩ :=
      hshaped'.first_lane hw' hsrc' hdst hpack haligned' hc
    have hsame : x' = x := by
      obtain ⟨i, hi, -, rfl⟩ := hx
      obtain ⟨i', hi', -, rfl⟩ := hx'
      refine packedIndex_inj hdst hpack (hw'.dst_mem i' hi') (hw.dst_mem i hi) ?_
      rw [← Int.mul_ediv_add_emod (packedIndex pack (splitsOf output) _) pack, hzero', ← hdiv',
        hdiv, ← hzero, Int.mul_ediv_add_emod]
    subst hsame
    by_cases hrr : r' = r
    · exact hnot c (hrr ▸ hc)
    · have hsymm : Std.Symm fun r r' : Region τ => ∀ s s' o, r.Copies s o → ¬ r'.Copies s' o :=
        ⟨fun _ _ h s s' o hs hs' => h s' s o hs' hs⟩
      exact hapart.apart.forall hr' hr hrr c' a' x' hx' hx
  obtain ⟨u, v, huv⟩ := exists_pair_ne V
  have hpacked : executeFaster pack length output regions (fun _ _ => u) (fun _ => v)
      (packedIndex pack (splitsOf output) y) = u :=
    executeFaster_eq _ _ (fun _ _ _ _ => rfl) (.inl ⟨r, hr, a, hmem⟩)
  have hplain := foldl_copy_of_not_copies regions (fun _ _ => u) (fun _ => v) hnone
  exact huv (hpacked.symm.trans ((h (fun _ _ => u) (fun _ => v) y hy).trans hplain))

/-- **Main theorem.** A raster of regular regions that `canBlitFast` accepts agrees with the plain
raster exactly when every region fills its last block or ends at the last channel. -/
theorem packed_agrees_iff [Nontrivial V] : Agrees V pack length output regions ↔
    ∀ r ∈ regions, (∀ k, 0 < r.size k) → FullBlocks pack (splitsOf output) r :=
  ⟨fun h _ hr hsize => fullBlocks_of_agrees hpack hblit hinside hapart hregular h hr hsize,
    agrees_of_fullBlocks hpack hblit hinside hapart hregular⟩

end Raster

/-! ### Two rasters -/

/-- The first four of eight channels with two places each are copied to the last four. -/
def shift : Region Unit where
  src := ⟨0, ![0, 2, 1]⟩
  dst := ⟨8, ![0, 2, 1]⟩
  size := ![1, 4, 2]
  origin := ()

theorem shift_shaped : Shaped 4 ⟨2, 8, 1⟩ ⟨2, 8, 1⟩ shift 1 ![1, 1, 1] ![1, 4, 1] ![1, 1, 2] where
  src_side k := by
    rcases (by decide : ∀ k : Fin 3, k = 0 ∨ k = 1 ∨ k = 2) k with rfl | rfl | rfl
    · exact .inl ⟨rfl, rfl, rfl, .inl (by decide)⟩
    · exact .inr ⟨by decide, by decide, by decide, by decide, by decide, by decide, .inl rfl,
        .inl rfl⟩
    · exact .inl ⟨rfl, rfl, rfl, .inr (.inl (by decide))⟩
  dst_side k := by
    rcases (by decide : ∀ k : Fin 3, k = 0 ∨ k = 1 ∨ k = 2) k with rfl | rfl | rfl
    · exact .inl ⟨rfl, rfl, rfl, .inl (by decide)⟩
    · exact .inr ⟨by decide, by decide, by decide, by decide, by decide, by decide, .inl rfl,
        .inl rfl⟩
    · exact .inl ⟨rfl, rfl, rfl, .inr (.inl (by decide))⟩
  single k hk := by
    rcases (by decide : ∀ k : Fin 3, k = 0 ∨ k = 1 ∨ k = 2) k with rfl | rfl | rfl
    · rfl
    · exact absurd rfl hk
    · rfl
  src_noCarry := .inr fun i hi => by
    rw [← mem_boxIndices] at hi
    revert i
    decide +kernel
  dst_noCarry := .inr fun i hi => by
    rw [← mem_boxIndices] at hi
    revert i
    decide +kernel
  rows := by decide

/-- One region that does not write an address from two places. -/
theorem writesApart_singleton {r : Region τ}
    (h : ∀ p ∈ (boxIndices r.size).map fun i => (r.src.address i, r.dst.address i),
      ∀ p' ∈ (boxIndices r.size).map fun i => (r.src.address i, r.dst.address i),
        p.2 = p'.2 → p.1 = p'.1) : WritesApart [r] := by
  refine ⟨fun r' hr a a' o ha ha' => ?_, List.pairwise_singleton _ _⟩
  obtain rfl := List.mem_singleton.1 hr
  exact h (a, o) (Region.copies_iff_mem.1 ha) (a', o) (Region.copies_iff_mem.1 ha') rfl

theorem packed_agrees_shift : Agrees ℤ 4 (fun _ => [1, 8, 2]) [1, 8, 2] [shift] := by
  refine (packed_agrees_iff (by decide) (fun r hr => ?_) (fun r hr i hi => ?_)
    (writesApart_singleton (by decide +kernel)) fun r hr _ => ?_).2 fun r hr _ => ?_ <;>
      obtain rfl := List.mem_singleton.1 hr
  · decide
  · rw [← mem_boxIndices] at hi
    revert i
    decide +kernel
  · exact ⟨1, _, _, _, shift_shaped⟩
  · exact .inl (by decide)

/-- Five of eight channels are copied, and the rest stays as it is. -/
def five : Region Unit where
  src := ⟨0, ![0, 1, 0]⟩
  dst := ⟨0, ![0, 1, 0]⟩
  size := ![1, 5, 1]
  origin := ()

/-- `canBlitFast` accepts the region, but all eight channels are overwritten. -/
theorem partial_block_spills :
    canBlitFast five [1, 8, 1] [1, 8, 1] 4 true false = true ∧
      Inside (splitsOf [1, 8, 1]) (splitsOf [1, 8, 1]) five ∧ WritesApart [five] ∧
      ¬ Agrees ℤ 4 (fun _ => [1, 8, 1]) [1, 8, 1] [five] := by
  refine ⟨by decide, fun i hi => ?_, writesApart_singleton (by decide +kernel), fun h => ?_⟩
  · rw [← mem_boxIndices] at hi
    revert i
    decide +kernel
  · have h5 := h (fun _ _ => 1) (fun _ => 0) 5 (by decide)
    revert h5
    decide +kernel

end Mnn.Blit
