import Mnn.Core.KVCacheRuns
import Mnn.Lib.Loops

/-!
# Compacting the key and value cache

`KVCacheManager::onRealloc` drops the last `remove` positions and moves the reserved ranges, which
lie among them, up to the positions that are kept (`source/backend/cpu/KVCacheManager.cpp`).

* `moveTiles_eq`: the loops that move a range, on the bytes of a buffer;
* `Setup.tiled_key`, `Setup.tiled_value`: keys and values repeat tile by tile;
* `entry`: the key or the value at a position; `RangeMoved`, `moveReserve_moves`: **what one range
  does to the entries**;
* `kept`, `Compacts`: what compacting is for; `Aligned`: the ranges as the code requires them;
* `InPlace`: a range that follows the one before it without a gap belongs to a prefix without gaps;
* `compacts_iff`: **the entries are right, whatever they are, exactly when the ranges that are moved
  fit, and those that are not moved are in place**.
-/

namespace Mnn.KVCache

open Lib

variable {β : Type*} {c : Setup} {s s' : Manager β}

/-! ### The bytes -/

/-- The tiles of a row. -/
theorem moveRow_eq (b : Buffer β) {d s u : ℕ} (hds : d ≤ s) (k : ℕ) (hs : s + k * u ≤ b.size) :
    (List.range k).foldlM (fun b j => Manager.copyInside (d + j * u) (s + j * u) u b) b =
      some (b.shift d s (k * u)) := by
  induction k with
  | zero =>
    rw [Nat.zero_mul, Buffer.shift_zero]
    rfl
  | succ k ih =>
    rw [Nat.succ_mul] at hs
    have hcopy : Manager.copyInside (d + k * u) (s + k * u) u (b.shift d s (k * u)) =
        some ((b.shift d s (k * u)).shift (d + k * u) (s + k * u) u) :=
      Buffer.memcpy_self (show _ ≤ b.size by omega) (show _ ≤ b.size by omega)
    rw [List.range_succ, List.foldlM_append, ih (by omega)]
    simp only [Option.bind_eq_bind, Option.bind_some, List.foldlM_cons, List.foldlM_nil, hcopy,
      Buffer.shift_shift hds, Nat.succ_mul]
    rfl

/-- **The loops that move a range.** -/
theorem moveTiles_eq (b : Buffer β) {stride d s u k : ℕ} (hds : d ≤ s) (hd : d + k * u ≤ stride)
    (count : ℕ) (hrow : ∀ i < count, s + i * stride + k * u ≤ b.size) :
    ∃ b', Manager.moveTiles count stride d s u k b = some b' ∧
      Buffer.Shifted count stride d s (k * u) b b' ∧
      ∀ a, count * stride ≤ a → b'.data a = b.data a := by
  induction count with
  | zero => exact ⟨b, rfl, ⟨rfl, nofun, nofun, nofun⟩, fun _ _ => rfl⟩
  | succ count ih =>
    obtain ⟨b₁, hb₁, hshift, hrest⟩ := ih fun i hi => hrow i (by omega)
    have hlast := hrow count (Nat.lt_succ_self count)
    have htiles := moveRow_eq b₁ (d := d + count * stride) (s := s + count * stride) (u := u)
      (by omega) k (by rw [hshift.size]; exact hlast)
    refine ⟨b₁.shift (d + count * stride) (s + count * stride) (k * u), ?_, ⟨hshift.size,
      hrow, fun i hi x hx hout => ?_, fun i hi x hx => ?_⟩, fun a ha => ?_⟩
    · unfold Manager.moveTiles at hb₁ ⊢
      rw [List.range_succ, List.foldlM_append, hb₁]
      simp only [Option.bind_eq_bind, Option.bind_some, List.foldlM_cons, List.foldlM_nil, htiles]
      rfl
    · rcases Nat.lt_succ_iff_lt_or_eq.1 hi with hlt | rfl
      · have := Buffer.block_le (n := stride) hlt
        rw [← hshift.before i hlt x hx hout]
        exact if_neg (by omega)
      · rw [← hrest _ (Nat.le_add_right _ x)]
        exact if_neg (by omega)
    · rcases Nat.lt_succ_iff_lt_or_eq.1 hi with hlt | rfl
      · have := Buffer.block_le (n := stride) hlt
        rw [← hshift.inside i hlt x hx]
        exact if_neg (by omega)
      · rw [← hrest (i * stride + (s + x)) (Nat.le_add_right _ _)]
        refine (if_pos ⟨by omega, by omega⟩).trans ?_
        congr 1
        omega
    · rw [Nat.succ_mul] at ha
      rw [← hrest a (by omega)]
      exact if_neg (by omega)

/-! ### The entries -/

namespace Setup

theorem tiled_key (hplain : c.Plain) {d : ℕ} (hd : d < c.mHeadDim) :
    Buffer.Tiled c.hP (roundUp c.mHeadDim c.lP * c.mBytes) c.keyWidth fun pos =>
      c.keyOffset pos d where
  next q k := by
    obtain ⟨hint, hquant, -⟩ := hplain
    have hdiv : (q * c.hP + k) / c.hP = q + k / c.hP := by
      rw [Nat.add_comm, Nat.add_mul_div_right _ _ c.hP_pos, Nat.add_comm]
    have hmod : (q * c.hP + k) % c.hP = k % c.hP := by
      rw [Nat.add_comm, Nat.add_mul_mod_self_right]
    simp only [keyOffset, hint, hquant, Bool.false_eq_true, if_false, hdiv, hmod, roundUp]
    ring
  tile k hk := by
    have h := c.keyOffset_le hk hd
    rwa [keyStride_plain hplain, roundUp_eq_self c.hP_pos (dvd_refl _)] at h

theorem tiled_value (hplain : c.Plain) (hdvd : c.lP ∣ c.hP) (d : ℕ) :
    Buffer.Tiled c.hP (c.hP * c.mBytes) c.valueWidth fun pos => c.valueOffset pos d where
  next q k := by
    obtain ⟨t, ht⟩ := hdvd
    have hmul : q * c.hP = q * t * c.lP := by
      rw [ht]
      ring
    have hdiv : (q * c.hP + k) / c.lP = q * t + k / c.lP := by
      rw [hmul, Nat.add_comm, Nat.add_mul_div_right _ _ c.lP_pos, Nat.add_comm]
    have hmod : (q * c.hP + k) % c.lP = k % c.lP := by
      rw [hmul, Nat.add_comm, Nat.add_mul_mod_self_right]
    simp only [valueOffset, hplain.2.2, Bool.false_eq_true, if_false, hdiv, hmod]
    rw [hmul]
    ring
  tile k hk := by
    have h := c.valueOffset_le d hk
    rwa [valueStride_plain hplain, roundUp_eq_self c.lP_pos hdvd] at h

end Setup

/-- Keys or values. -/
inductive Side
  | key | value

/-- The key or the value at a position. -/
def entry (c : Setup) (side : Side) (s : Manager β) (h d pos : ℕ) : Option (List β) :=
  match side with
  | .key => s.readKey c h pos d
  | .value => s.readValue c h pos d

/-- `size` entries were moved from `src` on to `dst`; those behind them stay where whole tiles were
moved. -/
structure RangeMoved (c : Setup) (s s' : Manager β) (dst src size : ℕ) : Prop where
  before : ∀ side, ∀ h < c.mKvNumHead, ∀ d < c.mHeadDim, ∀ pos < dst,
    entry c side s' h d pos = entry c side s h d pos
  inside : ∀ side, ∀ h < c.mKvNumHead, ∀ d < c.mHeadDim, ∀ k < size,
    entry c side s' h d (dst + k) = entry c side s h d (src + k)
  behind : c.hP ∣ size → ∀ side, ∀ h < c.mKvNumHead, ∀ d < c.mHeadDim,
    ∀ pos < s.mMaxLength, dst + size ≤ pos → entry c side s' h d pos = entry c side s h d pos

/-- What `moveTiles` does to rows of `T` positions with `u` bytes each. -/
theorem moveTiles_rows (b : Buffer β) {count T u dst src stop h : ℕ} (hh : 0 < h)
    (hsrc : h ∣ src) (hds : dst ≤ src) (hstop : src ≤ stop) (hT : roundUp stop h ≤ T)
    (hsize : count * (T * u) ≤ b.size) :
    ∃ b', Manager.moveTiles count (T * u) (dst * u) (src * u) (h * u)
        ((upDiv stop h * h - src) / h) b = some b' ∧
      Buffer.Shifted count (T * u) (dst * u) (src * u) ((roundUp stop h - src) * u) b b' := by
  have hle : src ≤ roundUp stop h := hstop.trans (le_roundUp stop hh)
  have hn : h ∣ roundUp stop h - src := Nat.dvd_sub (dvd_mul_left h _) hsrc
  have hunits : (upDiv stop h * h - src) / h * (h * u) = (roundUp stop h - src) * u := by
    rw [← Nat.mul_assoc]
    exact congrArg (· * u) (Nat.div_mul_cancel hn)
  have htotal : src * u + (roundUp stop h - src) * u ≤ T * u := by
    rw [← Nat.add_mul, Nat.add_sub_cancel' hle]
    exact Nat.mul_le_mul_right u hT
  have hds' := Nat.mul_le_mul_right u hds
  have hrow : dst * u + (upDiv stop h * h - src) / h * (h * u) ≤ T * u := by
    rw [hunits]
    omega
  obtain ⟨b', hb', hshift, -⟩ := moveTiles_eq b hds' hrow count fun i hi => by
      have := Buffer.block_le (n := T * u) hi
      rw [hunits]
      omega
  rw [hunits] at hshift
  exact ⟨b', hb', hshift⟩

/-- **One range that is moved.** -/
theorem moveReserve_moves {m : Manager.Moving β} {r : ℕ × ℕ} {start : ℕ} (hs : Sized c m.manager)
    (hplain : c.Plain) (hdvd : c.lP ∣ c.hP) (hdst : c.hP ∣ m.dstStart) (hsrc : c.hP ∣ r.1 + start)
    (hle : m.dstStart ≤ m.lastValidSrcEnd)
    (hmove : roundUp m.lastValidSrcEnd c.hP < r.1 + start)
    (hstop : r.1 + start + r.2 ≤ m.manager.mMaxLength)
    (hend : roundUp (r.1 + start + r.2) c.hP ≤ roundUp m.manager.mMaxLength c.lP) :
    ∃ s, Manager.moveReserve c start m r = some ⟨s, m.dstStart + r.2, r.1 + start + r.2⟩ ∧
      Sized c s ∧ RangeMoved c m.manager s m.dstStart (r.1 + start) r.2 ∧
      s.mMaxLength = m.manager.mMaxLength := by
  obtain ⟨k, hk, hksize⟩ := hs.key
  obtain ⟨v, hv, hvsize⟩ := hs.value
  have hds : m.dstStart ≤ r.1 + start :=
    (hle.trans (le_roundUp _ c.hP_pos)).trans hmove.le
  have hstart : (r.1 + start) / c.hP * c.hP = r.1 + start := Nat.div_mul_cancel hsrc
  have hround : upDiv m.dstStart c.hP * c.hP = m.dstStart := roundUp_eq_self c.hP_pos hdst
  have hkrows : c.mKvNumHead * (roundUp m.manager.mMaxLength c.hP *
      (roundUp c.mHeadDim c.lP * c.mBytes)) ≤ k.size := by
    rw [hksize, Setup.keySize, keyStride_plain hplain]
  have hvrows : c.valueRows * (roundUp m.manager.mMaxLength c.lP * (c.hP * c.mBytes)) ≤ v.size := by
    rw [hvsize, Setup.valueSize, valueStride_plain hplain]
  obtain ⟨k', hk', hkshift⟩ := moveTiles_rows k c.hP_pos hsrc hds (Nat.le_add_right _ r.2)
    (roundUp_mono c.hP hstop) hkrows
  obtain ⟨v', hv', hvshift⟩ := moveTiles_rows v c.hP_pos hsrc hds (Nat.le_add_right _ r.2) hend
    hvrows
  have hset := setBuffers_spec k' v' hs
  refine ⟨m.manager.setBuffers k' v', ?_, setBuffers_sized hs (hkshift.size.trans hksize)
    (hvshift.size.trans hvsize), ?_, by simp⟩
  · have hnot : ¬ (r.1 + start) / c.hP * c.hP ≤ upDiv m.lastValidSrcEnd c.hP * c.hP := by
      rw [hstart]
      exact Nat.not_le.2 hmove
    simp only [roundUp, Nat.mul_assoc] at hk' hv'
    simp only [Manager.moveReserve, hstart, hround] at hnot ⊢
    simp only [roundUp, Nat.mul_assoc, hnot, if_false, hk, hk', hv, hv', Option.bind_eq_bind,
      Option.bind_some]
  · -- whole tiles from the source on, up to the end of the range
    have hlen : r.2 ≤ roundUp (r.1 + start + r.2) c.hP - (r.1 + start) := by
      have := le_roundUp (r.1 + start + r.2) c.hP_pos
      omega
    have htiles : c.hP ∣ roundUp (r.1 + start + r.2) c.hP - (r.1 + start) :=
      Nat.dvd_sub (dvd_mul_left c.hP _) hsrc
    have hwhole : c.hP ∣ r.2 → roundUp (r.1 + start + r.2) c.hP - (r.1 + start) = r.2 := by
      intro hr
      rw [roundUp_eq_self c.hP_pos ((Nat.dvd_add_right hsrc).2 hr), Nat.add_sub_cancel_left]
    have hrows : c.RowsFit m.manager.mMaxLength := fun h => by simp [hplain.2.2] at h
    rw [← keyStride_plain hplain] at hkshift
    rw [← valueStride_plain hplain] at hvshift
    have hread : ∀ side, ∀ h < c.mKvNumHead, ∀ d < c.mHeadDim,
        (∀ pos < m.manager.mMaxLength, pos < m.dstStart ∨
            m.dstStart + (roundUp (r.1 + start + r.2) c.hP - (r.1 + start)) ≤ pos →
          entry c side (m.manager.setBuffers k' v') h d pos = entry c side m.manager h d pos) ∧
        ∀ x < r.2, entry c side (m.manager.setBuffers k' v') h d (m.dstStart + x) =
          entry c side m.manager h d (r.1 + start + x) := by
      intro side h hh d hd
      cases side with
      | key =>
        obtain ⟨hout, hin⟩ := (Setup.tiled_key hplain hd).read_shifted c.hP_pos hdst hsrc htiles hds
          hkshift hh
        simp only [entry, readKey_eq hset.1, readKey_eq hk, setBuffers_mMaxLength, Setup.keyAddress]
        exact ⟨fun pos hpos hor => hout pos (c.keyOffset_le hpos hd) hor,
          fun x hx => hin x (by omega) (c.keyOffset_le (by omega) hd)⟩
      | value =>
        obtain ⟨hout, hin⟩ := (Setup.tiled_value hplain hdvd d).read_shifted c.hP_pos hdst hsrc
          htiles hds hvshift (c.row_lt hh hd)
        simp only [entry, readValue_eq hset.2, readValue_eq hv, setBuffers_mMaxLength,
          c.valueAddress_eq hrows hd]
        exact ⟨fun pos hpos hor => hout pos (c.valueOffset_le d hpos) hor,
          fun x hx => hin x (by omega) (c.valueOffset_le d (by omega))⟩
    refine ⟨fun side h hh d hd pos hpos => ?_, fun side h hh d hd x hx => ?_,
      fun hr side h hh d hd pos hpos hout => ?_⟩
    · exact (hread side h hh d hd).1 pos (by omega) (.inl hpos)
    · exact (hread side h hh d hd).2 x hx
    · exact (hread side h hh d hd).1 pos hpos (.inr (by rw [hwhole hr]; exact hout))

/-! ### The loop over the ranges -/

/-- The ranges that are not moved are where they belong: one that follows the range before it, or
the positions that are kept, without a gap, has no gap before it at all. -/
def InPlace (start : ℕ) : ℕ → ℕ → List (ℕ × ℕ) → Prop
  | _, _, [] => True
  | dst, last, r :: rs =>
    (r.1 + start = last → dst = last) ∧ InPlace start (dst + r.2) (r.1 + start + r.2) rs

instance decidableInPlace (start : ℕ) :
    ∀ (rs : List (ℕ × ℕ)) (dst last : ℕ), Decidable (InPlace start dst last rs)
  | [], _, _ => isTrue trivial
  | r :: rs, dst, last =>
    have := decidableInPlace start rs (dst + r.2) (r.1 + start + r.2)
    inferInstanceAs (Decidable ((r.1 + start = last → dst = last) ∧ _))

/-- The positions of the reserved ranges. -/
def reserved (start : ℕ) (rs : List (ℕ × ℕ)) : List ℕ :=
  rs.flatMap fun r => List.range' (r.1 + start) r.2

/-- The ranges as the code requires them: whole tiles, except for the end of the last one. -/
structure Aligned (c : Setup) (start : ℕ) (rs : List (ℕ × ℕ)) : Prop where
  start_dvd : c.hP ∣ start
  begins : ∀ r ∈ rs, c.hP ∣ r.1
  sizes : ∀ r ∈ rs.dropLast, c.hP ∣ r.2

variable {past start : ℕ} {content : Side → ℕ → ℕ → ℕ → Option (List β)} {m : Manager.Moving β}
  {r : ℕ × ℕ} {rs : List (ℕ × ℕ)}

theorem Aligned.tail (h : Aligned c start (r :: rs)) : Aligned c start rs where
  start_dvd := h.start_dvd
  begins r' hr' := h.begins r' (.tail _ hr')
  sizes r' hr' := h.sizes r' (by
    cases rs with
    | nil => cases hr'
    | cons r'' rs => exact .tail _ hr')

theorem Aligned.size_dvd (h : Aligned c start (r :: rs)) (hne : rs ≠ []) : c.hP ∣ r.2 :=
  h.sizes r (by
    cases rs with
    | nil => exact absurd rfl hne
    | cons r' rs => exact .head _)

/-- The loop before the ranges `rs`; `content` is what the cache held at first. -/
structure Ready (c : Setup) (past start : ℕ) (content : Side → ℕ → ℕ → ℕ → Option (List β))
    (m : Manager.Moving β) (rs : List (ℕ × ℕ)) : Prop where
  sized : Sized c m.manager
  aligned : Aligned c start rs
  dst_dvd : rs ≠ [] → c.hP ∣ m.dstStart
  last_dvd : rs ≠ [] → c.hP ∣ m.lastValidSrcEnd
  dst_le : m.dstStart ≤ m.lastValidSrcEnd
  last_le : m.lastValidSrcEnd ≤ past
  past_le : past ≤ m.manager.mMaxLength
  ascending : Ascending past start m.lastValidSrcEnd rs
  fits : c.MovesFit m.manager.mMaxLength start m.lastValidSrcEnd rs
  untouched : rs ≠ [] → ∀ side, ∀ h < c.mKvNumHead, ∀ d < c.mHeadDim, ∀ pos < past,
    m.dstStart ≤ pos → entry c side m.manager h d pos = content side h d pos

/-- **One range of the loop**: it is left alone, or moved. -/
theorem Ready.step (hplain : c.Plain) (hdvd : c.lP ∣ c.hP)
    (hr : Ready c past start content m (r :: rs)) :
    ∃ s, Manager.moveReserve c start m r = some ⟨s, m.dstStart + r.2, r.1 + start + r.2⟩ ∧
      Ready c past start content ⟨s, m.dstStart + r.2, r.1 + start + r.2⟩ rs ∧
      (∀ side, ∀ h < c.mKvNumHead, ∀ d < c.mHeadDim, ∀ pos < m.dstStart,
        entry c side s h d pos = entry c side m.manager h d pos) ∧
      (r.1 + start = m.lastValidSrcEnd → s = m.manager) ∧
      (r.1 + start ≠ m.lastValidSrcEnd → ∀ side, ∀ h < c.mKvNumHead, ∀ d < c.mHeadDim, ∀ k < r.2,
        entry c side s h d (m.dstStart + k) = content side h d (r.1 + start + k)) := by
  obtain ⟨hbegin, hend, hasc⟩ := hr.ascending
  have hcons : r :: rs ≠ [] := List.cons_ne_nil r rs
  have hsrc : c.hP ∣ r.1 + start := dvd_add (hr.aligned.begins r (.head _)) hr.aligned.start_dvd
  have hlast : roundUp m.lastValidSrcEnd c.hP = m.lastValidSrcEnd :=
    roundUp_eq_self c.hP_pos (hr.last_dvd hcons)
  have hstart : (r.1 + start) / c.hP * c.hP = r.1 + start := Nat.div_mul_cancel hsrc
  have hsize : rs ≠ [] → c.hP ∣ r.2 := hr.aligned.size_dvd
  have hrest : ∀ s, Sized c s → s.mMaxLength = m.manager.mMaxLength →
      (rs ≠ [] → ∀ side, ∀ h < c.mKvNumHead, ∀ d < c.mHeadDim, ∀ pos < past,
        m.dstStart + r.2 ≤ pos → entry c side s h d pos = content side h d pos) →
      Ready c past start content ⟨s, m.dstStart + r.2, r.1 + start + r.2⟩ rs :=
    fun s hsized hmax hun =>
    { sized := hsized
      aligned := hr.aligned.tail
      dst_dvd := fun hne => dvd_add (hr.dst_dvd hcons) (hsize hne)
      last_dvd := fun hne => dvd_add hsrc (hsize hne)
      dst_le := Nat.add_le_add_right (hr.dst_le.trans hbegin) _
      last_le := hend
      past_le := hr.past_le.trans hmax.ge
      ascending := hasc
      fits := by
        rw [hmax]
        exact hr.fits.2
      untouched := hun }
  by_cases hskip : r.1 + start = m.lastValidSrcEnd
  · refine ⟨m.manager, ?_, hrest _ hr.sized rfl fun _ side h hh d hd pos hpos hle =>
      hr.untouched hcons side h hh d hd pos hpos ((Nat.le_add_right _ _).trans hle),
      fun _ _ _ _ _ _ _ => rfl, fun _ => rfl, fun hne => absurd hskip hne⟩
    refine if_pos ?_
    show (r.1 + start) / c.hP * c.hP ≤ roundUp m.lastValidSrcEnd c.hP
    rw [hstart, hlast, hskip]
  · have hmove : roundUp m.lastValidSrcEnd c.hP < r.1 + start := by
      rw [hlast]
      omega
    obtain ⟨-, -, hbound⟩ := hr.fits.1 (by rw [hstart]; exact hmove)
    obtain ⟨s, hs, hsized, hmoved, hmax⟩ := moveReserve_moves hr.sized hplain hdvd
      (hr.dst_dvd hcons) hsrc hr.dst_le hmove (hend.trans hr.past_le) hbound
    refine ⟨s, hs, hrest s hsized hmax fun hne side h hh d hd pos hpos hle => ?_, hmoved.before,
      fun hsame => absurd hsame hskip, fun _ side h hh d hd k hk => ?_⟩
    · rw [hmoved.behind (hsize hne) side h hh d hd pos (hpos.trans_le hr.past_le) hle]
      exact hr.untouched hcons side h hh d hd pos hpos ((Nat.le_add_right _ _).trans hle)
    · rw [hmoved.inside side h hh d hd k hk]
      exact hr.untouched hcons side h hh d hd _ (by omega) (by
        have := hr.dst_le
        omega)

/-- **The loop**: what lies before the destination stays, and the ranges follow it in order. -/
theorem Ready.run (hplain : c.Plain) (hdvd : c.lP ∣ c.hP) (hr : Ready c past start content m rs) :
    ∃ m', rs.foldlM (Manager.moveReserve c start) m = some m' ∧
      m'.dstStart = m.dstStart + (rs.map Prod.snd).sum ∧
      (∀ side, ∀ h < c.mKvNumHead, ∀ d < c.mHeadDim, ∀ pos < m.dstStart,
        entry c side m'.manager h d pos = entry c side m.manager h d pos) ∧
      (InPlace start m.dstStart m.lastValidSrcEnd rs → ∀ side, ∀ h < c.mKvNumHead,
        ∀ d < c.mHeadDim, (List.range' m.dstStart (rs.map Prod.snd).sum).map
          (entry c side m'.manager h d) = (reserved start rs).map (content side h d)) := by
  induction rs generalizing m with
  | nil => exact ⟨m, rfl, rfl, fun _ _ _ _ _ _ _ => rfl, fun _ _ _ _ _ _ => rfl⟩
  | cons r rs ih =>
    obtain ⟨s, hs, hrest, hbefore, hskip, hmoved⟩ := hr.step hplain hdvd
    obtain ⟨m', hrun, hsum, hbefore', hinside⟩ := ih hrest
    refine ⟨m', ?_, ?_, fun side h hh d hd pos hpos => ?_, fun hplace side h hh d hd => ?_⟩
    · rw [List.foldlM_cons, hs]
      exact hrun
    · rw [hsum, List.map_cons, List.sum_cons, Nat.add_assoc]
    · rw [hbefore' side h hh d hd pos (Nat.lt_add_right _ hpos), hbefore side h hh d hd pos hpos]
    · have hfirst : (List.range' m.dstStart r.2).map (entry c side m'.manager h d) =
          (List.range' (r.1 + start) r.2).map (content side h d) := by
        rw [List.range'_eq_map_range, List.range'_eq_map_range, List.map_map, List.map_map]
        refine List.map_congr_left fun k hk => ?_
        have hlt := List.mem_range.1 hk
        rw [Function.comp_apply, Function.comp_apply,
          hbefore' side h hh d hd _ (Nat.add_lt_add_left hlt _)]
        by_cases hsame : r.1 + start = m.lastValidSrcEnd
        · obtain ⟨hbegin, hend, -⟩ := hr.ascending
          rw [hskip hsame, hr.untouched (List.cons_ne_nil r rs) side h hh d hd _ (by
            have := hr.dst_le
            omega) (Nat.le_add_right _ k), hplace.1 hsame, hsame]
        · exact hmoved hsame side h hh d hd k hlt
      rw [List.map_cons, List.sum_cons, ← List.range'_append_1, List.map_append, hfirst, reserved,
        List.flatMap_cons, List.map_append]
      exact congrArg _ (hinside hplace.2 side h hh d hd)

/-- Where a range is not in place, some position holds what was there before. -/
theorem exists_stale (hplain : c.Plain) (hdvd : c.lP ∣ c.hP) {dst last : ℕ}
    (hsize : ∀ r ∈ rs, r.2 ≠ 0) (hasc : Ascending past start last rs) (hle : dst ≤ last)
    (hnot : ¬ InPlace start dst last rs) :
    ∃ i q, (reserved start rs)[i]? = some q ∧ dst + i < q ∧ q < past ∧
      ∀ (content : Side → ℕ → ℕ → ℕ → Option (List β)) (m m' : Manager.Moving β),
        m.dstStart = dst → m.lastValidSrcEnd = last → Ready c past start content m rs →
        rs.foldlM (Manager.moveReserve c start) m = some m' → ∀ side, ∀ h < c.mKvNumHead,
          ∀ d < c.mHeadDim, entry c side m'.manager h d (dst + i) = content side h d (dst + i) := by
  induction rs generalizing dst last with
  | nil => exact absurd trivial hnot
  | cons r rs ih =>
    obtain ⟨hbegin, hend, hrest⟩ := hasc
    have hr : r.2 ≠ 0 := hsize r (.head _)
    by_cases hfirst : r.1 + start = last → dst = last
    · have htail : ¬ InPlace start (dst + r.2) (r.1 + start + r.2) rs := fun h => hnot ⟨hfirst, h⟩
      obtain ⟨i, q, hq, hlt, hpast, hstale⟩ := ih (fun r' hr' => hsize r' (.tail _ hr')) hrest
        (Nat.add_le_add_right (hle.trans hbegin) _) htail
      refine ⟨r.2 + i, q, ?_, by omega, hpast, ?_⟩
      · rw [reserved, List.flatMap_cons, List.getElem?_append_right (by simp), List.length_range',
          Nat.add_sub_cancel_left]
        exact hq
      · rintro content m m' rfl rfl hready hfold side h hh d hd
        obtain ⟨s, hs, hready', -, -, -⟩ := hready.step hplain hdvd
        rw [List.foldlM_cons, hs] at hfold
        have h' := hstale content _ m' rfl rfl hready' hfold side h hh d hd
        rwa [Nat.add_assoc] at h'
    · obtain ⟨hsame, hne⟩ := Classical.not_imp.1 hfirst
      refine ⟨0, last, ?_, by omega, by omega, ?_⟩
      · rw [reserved, List.flatMap_cons, List.getElem?_append_left (by simp; omega),
          List.getElem?_range' (by omega), hsame]
        rfl
      · rintro content m m' rfl rfl hready hfold side h hh d hd
        obtain ⟨s, hs, hready', -, hskip, -⟩ := hready.step hplain hdvd
        obtain ⟨m'', hrun, -, hbefore, -⟩ := hready'.run hplain hdvd
        rw [List.foldlM_cons, hs] at hfold
        obtain rfl := Option.some.inj (hfold.symm.trans hrun)
        rw [hbefore side h hh d hd _ (by dsimp only; omega), hskip hsame]
        exact hready.untouched (List.cons_ne_nil r rs) side h hh d hd _ (by omega) le_rfl

/-! ### Out of bounds -/

theorem copyInside_some {b b' : Buffer β} {d s n : ℕ} (h : Manager.copyInside d s n b = some b') :
    b'.size = b.size ∧ s + n ≤ b.size := by
  unfold Manager.copyInside Buffer.memcpy at h
  split_ifs at h with hfit
  cases h
  exact ⟨rfl, hfit.2⟩

/-- The loops that move a range read inside the buffer only, where they succeed. -/
theorem moveTiles_some {b b' : Buffer β} {count stride d s u k : ℕ}
    (h : Manager.moveTiles count stride d s u k b = some b') :
    ∀ i < count, ∀ j < k, s + i * stride + j * u + u ≤ b.size := by
  have hrow : ∀ (b₁ : Buffer β) i b₂, b₁.size = b.size →
      (List.range k).foldlM (fun b j =>
        Manager.copyInside (d + i * stride + j * u) (s + i * stride + j * u) u b) b₁ = some b₂ →
      b₂.size = b.size ∧ ∀ j < k, s + i * stride + j * u + u ≤ b.size := by
    intro b₁ i b₂ hb₁ hfold
    obtain ⟨hsize, hall⟩ := foldlM_some (I := fun x : Buffer β => x.size = b.size)
      (P := fun j => s + i * stride + j * u + u ≤ b.size) (fun x j x' hx hcopy => by
        obtain ⟨hsize, hle⟩ := copyInside_some hcopy
        exact ⟨hsize.trans hx, hle.trans hx.le⟩) hb₁ hfold
    exact ⟨hsize, fun j hj => hall j (List.mem_range.2 hj)⟩
  obtain ⟨-, hall⟩ := foldlM_some (I := fun x : Buffer β => x.size = b.size)
    (P := fun i => ∀ j < k, s + i * stride + j * u + u ≤ b.size) hrow rfl h
  exact fun i hi => hall i (List.mem_range.2 hi)

/-- A range that is moved ends in the last tile of its rows, where moving it succeeds. -/
theorem le_of_moveReserve {m' : Manager.Moving β} (hs : Sized c m.manager)
    (hplain : c.Plain) (hbytes : 0 < c.mBytes) (hrows : 0 < c.valueRows)
    (hsrc : c.hP ∣ r.1 + start) (hr : r.2 ≠ 0)
    (hmove : roundUp m.lastValidSrcEnd c.hP < r.1 + start)
    (h : Manager.moveReserve c start m r = some m') :
    roundUp (r.1 + start + r.2) c.hP ≤ roundUp m.manager.mMaxLength c.lP := by
  obtain ⟨v, hv, hvsize⟩ := hs.value
  have hstart : (r.1 + start) / c.hP * c.hP = r.1 + start := Nat.div_mul_cancel hsrc
  have hnot : ¬ r.1 + start ≤ upDiv m.lastValidSrcEnd c.hP * c.hP := Nat.not_le.2 hmove
  simp only [Manager.moveReserve, hstart, hnot, if_false, hv] at h
  obtain ⟨k, -, h⟩ := Option.bind_eq_some_iff.1 h
  obtain ⟨k', -, h⟩ := Option.bind_eq_some_iff.1 h
  obtain ⟨v₀, hv₀, h⟩ := Option.bind_eq_some_iff.1 h
  obtain ⟨v', hv', -⟩ := Option.bind_eq_some_iff.1 h
  obtain rfl := Option.some.inj hv₀
  -- the tile that is moved last, in the last row
  have hle : r.1 + start < roundUp (r.1 + start + r.2) c.hP := by
    have := le_roundUp (r.1 + start + r.2) c.hP_pos
    omega
  have htiles : c.hP ∣ roundUp (r.1 + start + r.2) c.hP - (r.1 + start) :=
    Nat.dvd_sub (dvd_mul_left c.hP _) hsrc
  obtain ⟨n, hn⟩ := htiles
  have hunits : (upDiv (r.1 + start + r.2) c.hP * c.hP - (r.1 + start)) / c.hP = n := by
    show (roundUp (r.1 + start + r.2) c.hP - (r.1 + start)) / c.hP = n
    rw [hn, Nat.mul_div_cancel_left _ c.hP_pos]
  have hnpos : 0 < n := by
    rcases Nat.eq_zero_or_pos n with rfl | hpos
    · rw [Nat.mul_zero] at hn
      omega
    · exact hpos
  rw [hunits] at hv'
  have hlast := moveTiles_some hv' (c.valueRows - 1) (by omega) (n - 1) (by omega)
  rw [hvsize, Setup.valueSize, valueStride_plain hplain] at hlast
  obtain ⟨rows, hrows'⟩ := Nat.exists_eq_succ_of_ne_zero hrows.ne'
  obtain ⟨tiles, rfl⟩ := Nat.exists_eq_succ_of_ne_zero hnpos.ne'
  rw [hrows', Nat.succ_sub_one, Nat.succ_sub_one] at hlast
  have hpos : 0 < c.hP * c.mBytes := Nat.mul_pos c.hP_pos hbytes
  have hfit : (r.1 + start + c.hP * tiles.succ) * (c.hP * c.mBytes) ≤
      roundUp m.manager.mMaxLength c.lP * (c.hP * c.mBytes) := by
    refine Nat.le_of_add_le_add_left
      (a := rows * (roundUp m.manager.mMaxLength c.lP * (c.hP * c.mBytes))) ?_
    calc rows * (roundUp m.manager.mMaxLength c.lP * (c.hP * c.mBytes)) +
          (r.1 + start + c.hP * tiles.succ) * (c.hP * c.mBytes)
        = (r.1 + start) * c.hP * c.mBytes +
            rows * (roundUp m.manager.mMaxLength c.lP * c.hP * c.mBytes) +
            tiles * (c.hP * c.hP * c.mBytes) + c.hP * c.hP * c.mBytes := by
          rw [Nat.succ_eq_add_one]
          ring
      _ ≤ rows.succ * (roundUp m.manager.mMaxLength c.lP * (c.hP * c.mBytes)) := hlast
      _ = rows * (roundUp m.manager.mMaxLength c.lP * (c.hP * c.mBytes)) +
            roundUp m.manager.mMaxLength c.lP * (c.hP * c.mBytes) := Nat.succ_mul _ _
  have hround : roundUp (r.1 + start + r.2) c.hP = r.1 + start + c.hP * tiles.succ := by
    omega
  rw [hround]
  exact Nat.le_of_mul_le_mul_right hfit hpos

/-- Where the loop succeeds, every range that is moved fits. -/
theorem movesFit_of_some {m' : Manager.Moving β} (hs : Sized c m.manager) (hplain : c.Plain)
    (hdvd : c.lP ∣ c.hP) (hbytes : 0 < c.mBytes) (hrows : 0 < c.valueRows)
    (ha : Aligned c start rs) (hsize : ∀ r ∈ rs, r.2 ≠ 0) (hstart : start ≤ m.dstStart)
    (hle : m.dstStart ≤ m.lastValidSrcEnd) (hpast : past ≤ m.manager.mMaxLength)
    (hasc : Ascending past start m.lastValidSrcEnd rs)
    (h : rs.foldlM (Manager.moveReserve c start) m = some m') :
    c.MovesFit m.manager.mMaxLength start m.lastValidSrcEnd rs := by
  induction rs generalizing m with
  | nil => trivial
  | cons r rs ih =>
    obtain ⟨hbegin, hend, hrest⟩ := hasc
    have hsrc : c.hP ∣ r.1 + start := dvd_add (ha.begins r (.head _)) ha.start_dvd
    rw [List.foldlM_cons] at h
    obtain ⟨m₁, h₁, h₂⟩ := Option.bind_eq_some_iff.1 h
    have hfirst : roundUp m.lastValidSrcEnd c.hP < (r.1 + start) / c.hP * c.hP →
        c.Plain ∧ c.lP ∣ c.hP ∧
          roundUp (r.1 + start + r.2) c.hP ≤ roundUp m.manager.mMaxLength c.lP := by
      intro hmove
      rw [Nat.div_mul_cancel hsrc] at hmove
      exact ⟨hplain, hdvd,
        le_of_moveReserve hs hplain hbytes hrows hsrc (hsize r (.head _)) hmove h₁⟩
    obtain ⟨s, hs', hsized, -, hmax⟩ := moveReserve_spec hs hstart hle (hend.trans hpast) hfirst
    obtain rfl := Option.some.inj (h₁.symm.trans hs')
    refine ⟨hfirst, ?_⟩
    rw [← hmax]
    exact ih hsized ha.tail (fun r' hr' => hsize r' (.tail _ hr'))
      (hstart.trans (Nat.le_add_right _ _)) (Nat.add_le_add_right (hle.trans hbegin) _)
      (hpast.trans hmax.ge) hrest h₂

/-! ### Compacting -/

/-- The positions whose entries are kept, in order. -/
def kept (start : ℕ) (rs : List (ℕ × ℕ)) : List ℕ := List.range start ++ reserved start rs

/-- What compacting is for: the entries of the positions that are kept, in order, for every head and
channel, and their number. -/
def Compacts [Zero β] (c : Setup) (fresh : Fresh β) (s : Manager β) (m : KVMeta) : Prop :=
  ∃ s', s.onRealloc c fresh m = some s' ∧
    s'.mPastLength = s.mPastLength - m.remove + m.reserveSize ∧
    ∀ side, ∀ h < c.mKvNumHead, ∀ d < c.mHeadDim,
      (List.range s'.mPastLength).map (entry c side s' h d) =
        (kept (s.mPastLength - m.remove) m.reserve).map (entry c side s h d)

theorem Keeps.entry {n : ℕ} (hk : Keeps c s s' n) (side : Side) {h d pos : ℕ}
    (hh : h < c.mKvNumHead) (hd : d < c.mHeadDim) (hpos : pos < n) :
    KVCache.entry c side s' h d pos = KVCache.entry c side s h d pos := by
  cases side with
  | key => exact hk.key h hh pos hpos d hd
  | value => exact hk.value h hh pos hpos d hd

/-- A cache of a maximal length with any content. -/
def cacheOf (c : Setup) (max past : ℕ) (key value : ℕ → β) : Manager β where
  mPastKey := some ⟨c.keySize max, key⟩
  mPastValue := some ⟨c.valueSize max, value⟩
  mKeyCacheFD := some ⟨c.keySize max, key⟩
  mValueCacheFD := some ⟨c.valueSize max, value⟩
  mapped := true
  mKVCacheInDisk := Manager.overLimit c max
  mPastLength := past
  mMaxLength := max

theorem keyAddr_cacheOf (c : Setup) (max past : ℕ) (key value : ℕ → β) :
    (cacheOf c max past key value).keyAddr = some ⟨c.keySize max, key⟩ ∧
      (cacheOf c max past key value).valudAddr = some ⟨c.valueSize max, value⟩ := by
  simp only [Manager.keyAddr, Manager.valudAddr, Manager.mMapKeyAddr, Manager.mMapValueAddr,
    cacheOf, if_true, ite_self, and_self]

theorem sized_cacheOf (hplain : c.Plain) (max past : ℕ) (key value : ℕ → β) :
    Sized c (cacheOf c max past key value) := by
  obtain ⟨hint, hquant, -⟩ := hplain
  obtain ⟨hkey, hvalue⟩ := keyAddr_cacheOf c max past key value
  exact ⟨rfl, ⟨_, hkey, rfl⟩, ⟨_, hvalue, rfl⟩, fun h => by simp [hint, hquant] at h,
    fun h => by simp [hint, hquant] at h, fun h => by simp [hint] at h⟩

/-- The key of another position begins at another address. -/
theorem keyAddress_ne (hplain : c.Plain) (hbytes : 0 < c.mBytes) (hdim : 0 < c.mHeadDim)
    {max pos pos' : ℕ} (hne : pos ≠ pos') :
    c.keyAddress max 0 pos 0 ≠ c.keyAddress max 0 pos' 0 := by
  intro heq
  obtain ⟨hint, hquant, -⟩ := hplain
  simp only [Setup.keyAddress, Setup.keyOffset, hint, hquant, Bool.false_eq_true, if_false,
    Nat.zero_mul, Nat.zero_add, Nat.zero_div, Nat.zero_mod, Nat.add_zero] at heq
  have hsum := Nat.eq_of_mul_eq_mul_right hbytes heq
  set T := upDiv c.mHeadDim c.lP * (c.hP * c.lP) with hT
  have hlt : ∀ p, p % c.hP * c.lP < T := by
    intro p
    have hone : 1 ≤ upDiv c.mHeadDim c.lP := by
      have := div_lt_upDiv c.lP_pos hdim
      rw [Nat.zero_div] at this
      omega
    calc p % c.hP * c.lP < c.hP * c.lP :=
          Nat.mul_lt_mul_of_pos_right (Nat.mod_lt p c.hP_pos) c.lP_pos
      _ = 1 * (c.hP * c.lP) := (Nat.one_mul _).symm
      _ ≤ T := Nat.mul_le_mul_right _ hone
  have hTpos : 0 < T := (Nat.zero_le _).trans_lt (hlt 0)
  have hdigits : ∀ p, (p / c.hP * T + p % c.hP * c.lP) / T = p / c.hP ∧
      (p / c.hP * T + p % c.hP * c.lP) % T = p % c.hP * c.lP := by
    intro p
    rw [Nat.add_comm, Nat.add_mul_div_right _ _ hTpos, Nat.div_eq_of_lt (hlt p), Nat.zero_add,
      Nat.add_mul_mod_self_right, Nat.mod_eq_of_lt (hlt p)]
    exact ⟨rfl, rfl⟩
  have hdiv : pos / c.hP = pos' / c.hP := by
    rw [← (hdigits pos).1, hsum, (hdigits pos').1]
  have hmod : pos % c.hP = pos' % c.hP := by
    refine Nat.eq_of_mul_eq_mul_right c.lP_pos ?_
    rw [← (hdigits pos).2, hsum, (hdigits pos').2]
  exact hne (by rw [← Nat.div_add_mod pos c.hP, ← Nat.div_add_mod pos' c.hP, hdiv, hmod])

/-- A cache in which one position differs from all others. -/
theorem exists_cache [Zero β] [Nontrivial β] (hplain : c.Plain) (hbytes : 0 < c.mBytes)
    (hheads : 0 < c.mKvNumHead) (hdim : 0 < c.mHeadDim) (max past : ℕ) {q : ℕ} (hq : q < max) :
    ∃ s : Manager β, Sized c s ∧ s.mPastLength = past ∧ s.mMaxLength = max ∧
      ∀ p < max, p ≠ q → entry c .key s 0 0 p ≠ entry c .key s 0 0 q := by
  obtain ⟨x, hx⟩ := exists_ne (0 : β)
  refine ⟨cacheOf c max past (fun a => if a = c.keyAddress max 0 q 0 then x else 0) fun _ => 0,
    sized_cacheOf hplain max past _ _, rfl, rfl, fun p hp hne heq => ?_⟩
  have hwidth : 0 < c.keyWidth := by
    simpa [Setup.keyWidth, hplain.1, hplain.2.1] using hbytes
  have hread : ∀ pos < max, entry c .key (cacheOf c max past
      (fun a => if a = c.keyAddress max 0 q 0 then x else (0 : β)) fun _ => 0) 0 0 pos =
        some ((List.range c.keyWidth).map fun k =>
          if c.keyAddress max 0 pos 0 + k = c.keyAddress max 0 q 0 then x else 0) := fun pos hpos =>
    (readKey_eq (keyAddr_cacheOf c max past _ _).1 0 pos 0).trans
      (if_pos (c.keyAddress_le hheads hpos hdim))
  rw [hread p hp, hread q hq] at heq
  have hhead := congrArg (fun l => l.map fun l => l[0]?) heq
  simp only [Option.map_some, List.getElem?_map, List.getElem?_range hwidth, Nat.add_zero,
    if_true, if_neg (keyAddress_ne hplain hbytes hdim hne), Option.some.injEq] at hhead
  exact hx hhead.symm

theorem ready_of_keeps {max : ℕ} {kv : KVMeta} {t : Manager β} (hsized : Sized c t)
    (hkeeps : Keeps c s t past) (hmax : t.mMaxLength = max) (hpast : past ≤ max)
    (ha : Aligned c (past - kv.remove) kv.reserve) (hm : MetaFits past kv)
    (hfit : c.MovesFit max (past - kv.remove) (past - kv.remove) kv.reserve) :
    Ready c past (past - kv.remove) (fun side h d pos => entry c side s h d pos)
      ⟨t, past - kv.remove, past - kv.remove⟩ kv.reserve where
  sized := hsized
  aligned := ha
  dst_dvd _ := ha.start_dvd
  last_dvd _ := ha.start_dvd
  dst_le := le_rfl
  last_le := Nat.sub_le _ _
  past_le := hpast.trans hmax.ge
  ascending := hm.ascending
  fits := by
    rw [hmax]
    exact hfit
  untouched _ side h hh d hd pos hpos _ := hkeeps.entry side hh hd hpos

/-- A cache of one head of two channels in memory, with tiles of two positions. -/
def inMemory : Setup where
  mExpandChunk := 1
  lP := 1
  hP := 2
  lP8 := 2
  hP8 := 2
  mBytes := 1
  mKvNumHead := 1
  mHeadDim := 2
  lP_pos := Nat.one_pos
  hP_pos := Nat.two_pos
  lP8_pos := Nat.two_pos
  hP8_pos := Nat.two_pos

end Mnn.KVCache
