import Mnn.Core.KVCacheMoves

/-!
# Growing the key and value cache

* `grow_spec`: growing keeps every entry below the past length, where `GrowFits`;
* `MovesFit`, `moveReserve_spec`: the reserved ranges are moved inside the buffers, and nothing
  below the kept prefix changes;
* `onRealloc_spec`: **reallocating succeeds and keeps the entries, where `ReallocFits`**.
-/

namespace Mnn.KVCache

open Lib

variable {β : Type*} {c : Setup} {s s' t : Manager β} {old max n past : ℕ}

/-! ### Reading after growing -/

theorem readKey_eq {b : Buffer β} (hb : s.keyAddr = some b) (h pos d : ℕ) :
    s.readKey c h pos d = b.read (c.keyAddress s.mMaxLength h pos d) c.keyWidth := by
  simp only [Manager.readKey, hb, Option.bind_eq_bind, Option.bind_some]

theorem readValue_eq {b : Buffer β} (hb : s.valudAddr = some b) (h pos d : ℕ) :
    s.readValue c h pos d = b.read (c.valueAddress s.mMaxLength h pos d) c.valueWidth := by
  simp only [Manager.readValue, hb, Option.bind_eq_bind, Option.bind_some]

/-- Keys and values in blocks that were spread read the same. -/
theorem Grown.read_eq {k v k' v' : Buffer β} (hgrown : Grown c old max k v k' v')
    (hrows : c.RowsFit old ∧ c.RowsFit max) {h pos d : ℕ} (hh : h < c.mKvNumHead) (hpos : pos < old)
    (hd : d < c.mHeadDim) :
    k'.read (c.keyAddress max h pos d) c.keyWidth = k.read (c.keyAddress old h pos d) c.keyWidth ∧
      v'.read (c.valueAddress max h pos d) c.valueWidth =
        v.read (c.valueAddress old h pos d) c.valueWidth := by
  constructor
  · exact hgrown.key.read_eq hh (c.keyOffset_le hpos hd)
  · rw [c.valueAddress_eq hrows.1 hd, c.valueAddress_eq hrows.2 hd]
    exact hgrown.value.read_eq (c.row_lt hh hd) (c.valueOffset_le d hpos)

/-- Reading scales, zero points or sums. -/
theorem ScaleGrown.read_eq {used : Bool} {b b' : Option (Buffer β)}
    (hgrown : ScaleGrown c used s.mMaxLength s'.mMaxLength b b') (hused : used = true) {h pos : ℕ}
    (hh : h < c.mKvNumHead) (hpos : pos < s.mMaxLength) :
    s'.readFrom c b' h pos = s.readFrom c b h pos := by
  obtain ⟨x, x', rfl, rfl, -, hspread⟩ := hgrown hused
  simp only [Manager.readFrom, Option.bind_eq_bind, Option.bind_some, Setup.scaleAddress_eq]
  exact hspread.read_eq hh (c.scaleOffset_le hpos)

theorem ScaleGrown.has {used : Bool} {b b' : Option (Buffer β)}
    (hgrown : ScaleGrown c used old max b b') (hused : used = true) :
    Has b' (c.scaleSize max) := by
  obtain ⟨x, x', -, hx', hsize, -⟩ := hgrown hused
  exact ⟨x', hx', hsize⟩

/-- The result of growing: keys and values moved, and scales copied. -/
structure Grows (c : Setup) (s s' : Manager β) : Prop where
  buffers : ∃ k v k' v', s.keyAddr = some k ∧ s.valudAddr = some v ∧ s'.keyAddr = some k' ∧
    s'.valudAddr = some v' ∧ Grown c s.mMaxLength s'.mMaxLength k v k' v'
  inDisk : s'.mKVCacheInDisk = Manager.overLimit c s'.mMaxLength
  scale : ScaleGrown c (c.mUseInt8Kernel || c.mQuantKey) s.mMaxLength s'.mMaxLength s.mKeyScale
    s'.mKeyScale
  zeroPoint : ScaleGrown c (c.mUseInt8Kernel || c.mQuantKey) s.mMaxLength s'.mMaxLength
    s.mKeyZeroPoint s'.mKeyZeroPoint
  sum : ScaleGrown c c.mUseInt8Kernel s.mMaxLength s'.mMaxLength s.mKeySum s'.mKeySum

theorem Grows.sized (h : Grows c s s') : Sized c s' := by
  obtain ⟨k, v, k', v', -, -, hk', hv', hgrown⟩ := h.buffers
  exact ⟨h.inDisk, ⟨k', hk', hgrown.keySize⟩, ⟨v', hv', hgrown.valueSize⟩, h.scale.has,
    h.zeroPoint.has, h.sum.has⟩

theorem Grows.keeps (h : Grows c s s') (hn : n ≤ s.mMaxLength)
    (hrows : n = 0 ∨ c.RowsFit s.mMaxLength ∧ c.RowsFit s'.mMaxLength) : Keeps c s s' n := by
  rcases hrows with rfl | hrows
  · exact ⟨nofun, nofun, nofun, nofun, nofun⟩
  obtain ⟨k, v, k', v', hk, hv, hk', hv', hgrown⟩ := h.buffers
  refine ⟨fun i hi pos hpos d hd => ?_, fun i hi pos hpos d hd => ?_, fun i hi pos hpos => ?_,
    fun i hi pos hpos => ?_, fun i hi pos hpos => ?_⟩
  · rw [readKey_eq hk', readKey_eq hk]
    exact (hgrown.read_eq hrows hi (hpos.trans_le hn) hd).1
  · rw [readValue_eq hv', readValue_eq hv]
    exact (hgrown.read_eq hrows hi (hpos.trans_le hn) hd).2
  · unfold Manager.readScale
    split
    · next hused => exact h.scale.read_eq hused hi (hpos.trans_le hn)
    · rfl
  · unfold Manager.readZeroPoint
    split
    · next hused => exact h.zeroPoint.read_eq hused hi (hpos.trans_le hn)
    · rfl
  · unfold Manager.readSum
    split
    · next hused => exact h.sum.read_eq hused hi (hpos.trans_le hn)
    · rfl

/-- **Growing keeps the entries.** -/
theorem grow_spec [Zero β] (fresh : Fresh β) (hs : Sized c s) (hlt : s.mMaxLength < n)
    (hfit : c.GrowFits s.mPastLength s.mMaxLength (n + c.mExpandChunk))
    (hpast : s.mPastLength ≤ s.mMaxLength) :
    ∃ s', s.grow c fresh n = some s' ∧ Sized c s' ∧ Keeps c s s' s.mPastLength ∧
      s'.mPastLength = s.mPastLength ∧ s'.mMaxLength = n + c.mExpandChunk := by
  have hle : s.mMaxLength ≤ n + c.mExpandChunk := by omega
  obtain ⟨t, ht, hmoved⟩ := Manager.moveBuffers_spec fresh
    (s := { s with mMaxLength := n + c.mExpandChunk }) hle hs.inDisk hs.key hs.value hfit
  have hmax : t.mMaxLength = n + c.mExpandChunk := hmoved.maxLength
  obtain ⟨x, y, z, hexpand, hx, hy, hz⟩ := Manager.expandScales_spec fresh (s := t)
    (hle.trans hmax.ge) (by rw [hmoved.scale]; exact hs.scale)
    (by rw [hmoved.zeroPoint]; exact hs.zeroPoint) (by rw [hmoved.sum]; exact hs.sum)
  rw [hmoved.scale] at hx
  rw [hmoved.zeroPoint] at hy
  rw [hmoved.sum] at hz
  have hgrows : Grows c s { t with mKeyScale := x, mKeyZeroPoint := y, mKeySum := z } := by
    obtain ⟨k, v, k', v', hk, hv, hk', hv', hgrown⟩ := hmoved.buffers
    refine ⟨⟨k, v, k', v', hk, hv, hk', hv', ?_⟩, ?_, hx, hy, hz⟩
    · rw [← hmax] at hgrown
      exact hgrown
    · exact hmoved.inDisk.trans (congrArg (Manager.overLimit c) hmax.symm)
  refine ⟨_, ?_, hgrows.sized, hgrows.keeps hpast ?_, hmoved.pastLength, hmax⟩
  · simp only [Manager.grow, ht, Option.bind_eq_bind, Option.bind_some]
    exact hexpand
  · refine hfit.1.imp_right fun h => ⟨h.1, ?_⟩
    rw [← hmax] at h
    exact h.2

/-! ### Reserved ranges -/

/-- Neither keys nor values are quantised. -/
def Setup.Plain (c : Setup) : Prop :=
  c.mUseInt8Kernel = false ∧ c.mQuantKey = false ∧ c.mQuantValue = false

/-- The condition on the reserved ranges that are moved: they are moved as tiles of `hP` positions
of numbers, also where the values have tiles of `lP` positions. -/
def Setup.MovesFit (c : Setup) (max start : ℕ) : ℕ → List (ℕ × ℕ) → Prop
  | _, [] => True
  | last, r :: rs =>
    (roundUp last c.hP < (r.1 + start) / c.hP * c.hP →
      c.Plain ∧ c.lP ∣ c.hP ∧ roundUp (r.1 + start + r.2) c.hP ≤ roundUp max c.lP) ∧
    c.MovesFit max start (r.1 + start + r.2) rs

/-- The reserved ranges are in order, and end by `past`. -/
def Ascending (past start : ℕ) : ℕ → List (ℕ × ℕ) → Prop
  | _, [] => True
  | last, r :: rs =>
    last ≤ r.1 + start ∧ r.1 + start + r.2 ≤ past ∧ Ascending past start (r.1 + start + r.2) rs

theorem keyStride_plain (hplain : c.Plain) (n : ℕ) :
    c.keyStride n = roundUp n c.hP * (roundUp c.mHeadDim c.lP * c.mBytes) := by
  obtain ⟨hint, hquant, -⟩ := hplain
  simp only [Setup.keyStride, Setup.keyElements, Setup.keyWidth, hint, hquant, Bool.or_self,
    Bool.false_eq_true, if_false, roundUp]
  ring

theorem valueStride_plain (hplain : c.Plain) (n : ℕ) :
    c.valueStride n = roundUp n c.lP * (c.hP * c.mBytes) := by
  simp only [Setup.valueStride, Setup.valueElements, Setup.valueWidth, hplain.2.2,
    Bool.false_eq_true, if_false, roundUp]
  ring

/-- Moving tiles towards the beginning of each row changes the rows from `dst` on. -/
theorem moveTiles_spec (b : Buffer β) (count : ℕ) {stride dst src unit sizeUnit : ℕ}
    (hdst : dst + sizeUnit * unit ≤ stride) (hsrc : src + sizeUnit * unit ≤ stride)
    (hsize : count * stride ≤ b.size) :
    ∃ b', Manager.moveTiles count stride dst src unit sizeUnit b = some b' ∧
      b.Frame (fun a => ∃ i < count, i * stride + dst ≤ a ∧ a < i * stride + stride) b' := by
  refine Buffer.exists_loop_frame (fun i hi b₁ hb₁ => ?_) rfl
  have hrow := Buffer.block_le (n := stride) hi
  have htiles : ∀ j < sizeUnit, ∀ b₂ : Buffer β, b₂.size = b₁.size → ∃ b₃,
      Manager.copyInside (dst + i * stride + j * unit) (src + i * stride + j * unit) unit b₂ =
        some b₃ ∧ b₂.Frame (fun a => i * stride + dst ≤ a ∧ a < i * stride + stride) b₃ := by
    intro j hj b₂ hb₂
    have htile := Buffer.block_le (n := unit) hj
    obtain ⟨b₃, hb₃, hframe, -⟩ := Buffer.exists_memcpy b₂ b₂ (d := dst + i * stride + j * unit)
      (s := src + i * stride + j * unit) (n := unit) (by omega) (by omega)
    exact ⟨b₃, hb₃, hframe.mono fun a ha => ⟨by omega, by omega⟩⟩
  obtain ⟨b₂, hb₂, hframe⟩ := Buffer.exists_loop_frame htiles rfl
  exact ⟨b₂, hb₂, hframe.mono fun a ha => ⟨i, hi, ha⟩⟩

/-- What lies before `dst` in its row reads the same. -/
theorem read_before {b b' : Buffer β} {count stride dst i x w : ℕ}
    (hframe : b.Frame (fun a => ∃ i < count, i * stride + dst ≤ a ∧ a < i * stride + stride) b')
    (hx : x + w ≤ dst) : b'.read (i * stride + x) w = b.read (i * stride + x) w := by
  refine hframe.read_eq ?_
  rintro k hk ⟨j, -, hle, hlt⟩
  rcases Nat.lt_trichotomy i j with hij | rfl | hij
  · have := Buffer.block_le (n := stride) hij
    omega
  · omega
  · have := Buffer.block_le (n := stride) hij
    omega

/-- The tiles from `q` up to `u` end by tile `u`. -/
theorem tiles_le {q u a : ℕ} (ha : 0 < a) (hqu : q ≤ u) (R : ℕ) :
    q * a * R + (u * a - q * a) / a * (a * R) = u * a * R := by
  rw [← Nat.sub_mul, Nat.mul_div_cancel _ ha, ← Nat.mul_assoc, ← Nat.add_mul, ← Nat.add_mul,
    Nat.add_sub_cancel' hqu]

theorem setBuffers_spec (k' v' : Buffer β) (hs : Sized c s) :
    (s.setBuffers k' v').keyAddr = some k' ∧ (s.setBuffers k' v').valudAddr = some v' := by
  cases hdisk : s.mKVCacheInDisk with
  | true =>
    have hmapped := Manager.mapped_of_has hdisk hs.key
    simp [Manager.setBuffers, Manager.keyAddr, Manager.valudAddr, Manager.mMapKeyAddr,
      Manager.mMapValueAddr, hdisk, hmapped]
  | false => simp [Manager.setBuffers, Manager.keyAddr, Manager.valudAddr, hdisk]

@[simp] theorem setBuffers_mMaxLength (k v : Buffer β) :
    (s.setBuffers k v).mMaxLength = s.mMaxLength := by
  unfold Manager.setBuffers
  split <;> rfl

@[simp] theorem setBuffers_mPastLength (k v : Buffer β) :
    (s.setBuffers k v).mPastLength = s.mPastLength := by
  unfold Manager.setBuffers
  split <;> rfl

@[simp] theorem setBuffers_mKVCacheInDisk (k v : Buffer β) :
    (s.setBuffers k v).mKVCacheInDisk = s.mKVCacheInDisk := by
  unfold Manager.setBuffers
  split <;> rfl

@[simp] theorem setBuffers_mKeyScale (k v : Buffer β) :
    (s.setBuffers k v).mKeyScale = s.mKeyScale := by
  unfold Manager.setBuffers
  split <;> rfl

@[simp] theorem setBuffers_mKeyZeroPoint (k v : Buffer β) :
    (s.setBuffers k v).mKeyZeroPoint = s.mKeyZeroPoint := by
  unfold Manager.setBuffers
  split <;> rfl

@[simp] theorem setBuffers_mKeySum (k v : Buffer β) :
    (s.setBuffers k v).mKeySum = s.mKeySum := by
  unfold Manager.setBuffers
  split <;> rfl

theorem setBuffers_sized {k v : Buffer β} (hs : Sized c s) (hk : k.size = c.keySize s.mMaxLength)
    (hv : v.size = c.valueSize s.mMaxLength) : Sized c (s.setBuffers k v) := by
  obtain ⟨hkey, hvalue⟩ := setBuffers_spec k v hs
  exact ⟨by simpa using hs.inDisk, ⟨k, hkey, by simpa using hk⟩, ⟨v, hvalue, by simpa using hv⟩,
    by simpa using hs.scale, by simpa using hs.zeroPoint, by simpa using hs.sum⟩

/-- One reserved range. -/
theorem moveReserve_spec {m : Manager.Moving β} {r : ℕ × ℕ} {start : ℕ} (hs : Sized c m.manager)
    (hstart : start ≤ m.dstStart) (hdst : m.dstStart ≤ m.lastValidSrcEnd)
    (hstop : r.1 + start + r.2 ≤ m.manager.mMaxLength)
    (hfit : roundUp m.lastValidSrcEnd c.hP < (r.1 + start) / c.hP * c.hP →
      c.Plain ∧ c.lP ∣ c.hP ∧
        roundUp (r.1 + start + r.2) c.hP ≤ roundUp m.manager.mMaxLength c.lP) :
    ∃ s, Manager.moveReserve c start m r = some ⟨s, m.dstStart + r.2, r.1 + start + r.2⟩ ∧
      Sized c s ∧ Keeps c m.manager s start ∧ s.mMaxLength = m.manager.mMaxLength := by
  by_cases hmove : (r.1 + start) / c.hP * c.hP ≤ roundUp m.lastValidSrcEnd c.hP
  · exact ⟨m.manager, if_pos hmove, hs, .refl _, rfl⟩
  obtain ⟨hplain, hdvd, hend⟩ := hfit (Nat.not_le.1 hmove)
  obtain ⟨k, hk, hksize⟩ := hs.key
  obtain ⟨v, hv, hvsize⟩ := hs.value
  -- the destination is before the source
  have hle : roundUp m.dstStart c.hP ≤ (r.1 + start) / c.hP * c.hP :=
    (roundUp_mono _ hdst).trans (Nat.not_le.1 hmove).le
  have hqu : (r.1 + start) / c.hP ≤ upDiv (r.1 + start + r.2) c.hP := by
    refine le_of_mul_le_mul_right ?_ c.hP_pos
    exact (Nat.div_mul_le_self _ _).trans ((Nat.le_add_right _ _).trans (le_roundUp _ c.hP_pos))
  have hbounds : ∀ R T, roundUp (r.1 + start + r.2) c.hP ≤ T →
      roundUp m.dstStart c.hP * R + (upDiv (r.1 + start + r.2) c.hP * c.hP -
        (r.1 + start) / c.hP * c.hP) / c.hP * (c.hP * R) ≤ T * R ∧
      (r.1 + start) / c.hP * c.hP * R + (upDiv (r.1 + start + r.2) c.hP * c.hP -
        (r.1 + start) / c.hP * c.hP) / c.hP * (c.hP * R) ≤ T * R := by
    intro R T hT
    have hsrc := (tiles_le c.hP_pos hqu R).le.trans (Nat.mul_le_mul_right R hT)
    exact ⟨(Nat.add_le_add_right (Nat.mul_le_mul_right R hle) _).trans hsrc, hsrc⟩
  obtain ⟨hkdst, hksrc⟩ := hbounds (roundUp c.mHeadDim c.lP * c.mBytes)
    (roundUp m.manager.mMaxLength c.hP) (roundUp_mono _ hstop)
  obtain ⟨hvdst, hvsrc⟩ := hbounds (c.hP * c.mBytes) (roundUp m.manager.mMaxLength c.lP) hend
  obtain ⟨k', hk', hkframe⟩ := moveTiles_spec k c.mKvNumHead hkdst hksrc (by
    rw [hksize, Setup.keySize, keyStride_plain hplain])
  obtain ⟨v', hv', hvframe⟩ := moveTiles_spec v c.valueRows hvdst hvsrc (by
    rw [hvsize, Setup.valueSize, valueStride_plain hplain])
  have hset := setBuffers_spec k' v' hs
  refine ⟨m.manager.setBuffers k' v', ?_, setBuffers_sized hs (hkframe.size.trans hksize)
    (hvframe.size.trans hvsize), ?_, by simp⟩
  · simp only [roundUp, Nat.mul_assoc] at hmove hk' hv'
    simp only [Manager.moveReserve, roundUp, Nat.mul_assoc, hmove, if_false, hk, hk', hv, hv',
      Option.bind_eq_bind, Option.bind_some]
  · have hfit : c.RowsFit m.manager.mMaxLength := fun h => by simp [hplain.2.2] at h
    refine ⟨fun i hi pos hpos d hd => ?_, fun i hi pos hpos d hd => ?_, ?_, ?_, ?_⟩
    · rw [readKey_eq hset.1, readKey_eq hk, setBuffers_mMaxLength, Setup.keyAddress,
        keyStride_plain hplain]
      refine read_before hkframe ?_
      rw [← keyStride_plain hplain]
      exact c.keyOffset_le (hpos.trans_le hstart) hd
    · rw [readValue_eq hset.2, readValue_eq hv, setBuffers_mMaxLength, c.valueAddress_eq hfit hd,
        valueStride_plain hplain]
      refine read_before hvframe ?_
      have hround : roundUp (roundUp m.dstStart c.hP) c.lP = roundUp m.dstStart c.hP :=
        roundUp_eq_self c.lP_pos (hdvd.trans (Dvd.intro_left _ rfl))
      rw [← hround, ← valueStride_plain hplain]
      exact c.valueOffset_le d ((hpos.trans_le hstart).trans_le (le_roundUp _ c.hP_pos))
    all_goals
      intros
      simp [Manager.readScale, Manager.readZeroPoint, Manager.readSum, hplain.1, hplain.2.1]

/-- The loop over the reserved ranges. -/
theorem moveReserves_spec {start : ℕ} {rs : List (ℕ × ℕ)} {m : Manager.Moving β}
    (hs : Sized c m.manager) (hstart : start ≤ m.dstStart) (hdst : m.dstStart ≤ m.lastValidSrcEnd)
    (hlast : m.lastValidSrcEnd ≤ past) (hpast : past ≤ m.manager.mMaxLength)
    (hasc : Ascending past start m.lastValidSrcEnd rs)
    (hfit : c.MovesFit m.manager.mMaxLength start m.lastValidSrcEnd rs) :
    ∃ m', rs.foldlM (Manager.moveReserve c start) m = some m' ∧ Sized c m'.manager ∧
      Keeps c m.manager m'.manager start ∧ m'.manager.mMaxLength = m.manager.mMaxLength ∧
      m'.dstStart = m.dstStart + (rs.map Prod.snd).sum ∧ m'.dstStart ≤ past := by
  induction rs generalizing m with
  | nil => exact ⟨m, rfl, hs, .refl _, rfl, by simp, hdst.trans hlast⟩
  | cons r rs ih =>
    obtain ⟨hbegin, hend, hasc⟩ := hasc
    obtain ⟨s, hstep, hsized, hkeeps, hmax⟩ :=
      moveReserve_spec hs hstart hdst (hend.trans hpast) hfit.1
    obtain ⟨m', hrun, hsized', hkeeps', hmax', hsum, hle⟩ := ih
      (m := ⟨s, m.dstStart + r.2, r.1 + start + r.2⟩) hsized
      (hstart.trans (Nat.le_add_right _ _)) (Nat.add_le_add_right (hdst.trans hbegin) _) hend
      (hpast.trans hmax.ge) hasc (by rw [hmax]; exact hfit.2)
    refine ⟨m', ?_, hsized', hkeeps.trans hkeeps', hmax'.trans hmax, ?_, hle⟩
    · rw [List.foldlM_cons, hstep]
      exact hrun
    · rw [hsum, List.map_cons, List.sum_cons, Nat.add_assoc]

/-- What `onRealloc` is called with: the length of the cache, and ranges of what it removes. -/
structure MetaFits (past : ℕ) (m : KVMeta) : Prop where
  previous : m.previous = past
  remove : m.remove ≤ past
  nonempty : ∀ r ∈ m.reserve, r.2 ≠ 0
  ascending : Ascending past (past - m.remove) (past - m.remove) m.reserve

/-- The maximal length after `onRealloc`. -/
def maxAfter (c : Setup) (max : ℕ) (m : KVMeta) : ℕ :=
  if max < Manager.kvSeqLen m then Manager.kvSeqLen m + c.mExpandChunk else max

/-- The condition on `onRealloc`. -/
def ReallocFits (c : Setup) (past max : ℕ) (m : KVMeta) : Prop :=
  (max < Manager.kvSeqLen m → c.GrowFits past max (Manager.kvSeqLen m + c.mExpandChunk)) ∧
    c.MovesFit (maxAfter c max m) (past - m.remove) (past - m.remove) m.reserve

theorem kvSeqLen_eq {m : KVMeta} (hm : MetaFits past m) :
    Manager.kvSeqLen m = past - m.remove + m.reserveSize + m.add := by
  have hprevious := hm.previous
  have hremove := hm.remove
  rw [Manager.kvSeqLen, KVMeta.computeReverseSize_eq hm.nonempty]
  omega

/-- `onRealloc` grows where it has to, and then moves the ranges. -/
theorem onRealloc_eq [Zero β] (fresh : Fresh β) {m : KVMeta} (hs : Sized c s)
    (hpast : s.mPastLength ≤ s.mMaxLength)
    (hgrow : s.mMaxLength < Manager.kvSeqLen m →
      c.GrowFits s.mPastLength s.mMaxLength (Manager.kvSeqLen m + c.mExpandChunk)) :
    ∃ t, Sized c t ∧ Keeps c s t s.mPastLength ∧ t.mMaxLength = maxAfter c s.mMaxLength m ∧
      s.onRealloc c fresh m = (m.reserve.foldlM (Manager.moveReserve c (s.mPastLength - m.remove))
        ⟨t, s.mPastLength - m.remove, s.mPastLength - m.remove⟩).bind fun moving =>
          some { moving.manager with mPastLength := moving.dstStart } := by
  by_cases hlt : s.mMaxLength < Manager.kvSeqLen m
  · obtain ⟨t, ht, hsized, hkeeps, htpast, htmax⟩ := grow_spec fresh hs hlt (hgrow hlt) hpast
    refine ⟨t, hsized, hkeeps, by rw [maxAfter, if_pos hlt, htmax], ?_⟩
    simp only [Manager.onRealloc, hlt, if_true, ht, htpast, Option.bind_eq_bind, Option.bind_some]
  · refine ⟨s, hs, .refl s, by rw [maxAfter, if_neg hlt], ?_⟩
    simp only [Manager.onRealloc, hlt, if_false, Option.bind_eq_bind, Option.bind_some]

theorem le_maxAfter (c : Setup) (max : ℕ) (m : KVMeta) :
    max ≤ maxAfter c max m ∧ Manager.kvSeqLen m ≤ maxAfter c max m := by
  unfold maxAfter
  split <;> omega

/-- **Reallocating.**  Without reserved ranges every entry stays, and otherwise those before
them. -/
theorem onRealloc_spec [Zero β] (fresh : Fresh β) {m : KVMeta} (hs : Sized c s)
    (hpast : s.mPastLength ≤ s.mMaxLength) (hm : MetaFits s.mPastLength m)
    (hfit : ReallocFits c s.mPastLength s.mMaxLength m) :
    ∃ s', s.onRealloc c fresh m = some s' ∧ Sized c s' ∧
      Keeps c s s' (if m.reserve = [] then s.mPastLength else s.mPastLength - m.remove) ∧
      s'.mPastLength = s.mPastLength - m.remove + m.reserveSize ∧
      s'.mPastLength + m.add ≤ s'.mMaxLength := by
  have hneed := kvSeqLen_eq hm
  obtain ⟨t, hsized, hkeeps, htmax, heq⟩ := onRealloc_eq fresh hs hpast hfit.1
  have hmax := le_maxAfter c s.mMaxLength m
  rw [← htmax] at hmax
  obtain ⟨m', hmoves, hsized', hkeeps', hmax', hsum, hle⟩ := moveReserves_spec
    (m := ⟨t, s.mPastLength - m.remove, s.mPastLength - m.remove⟩) hsized le_rfl
    le_rfl (Nat.sub_le _ _) (hpast.trans hmax.1) hm.ascending (by
      rw [htmax]
      exact hfit.2)
  have hpastAfter : m'.dstStart = s.mPastLength - m.remove + m.reserveSize := hsum
  refine ⟨{ m'.manager with mPastLength := m'.dstStart }, ?_, ?_, ?_, hpastAfter, ?_⟩
  · rw [heq, hmoves]
    rfl
  · exact ⟨hsized'.inDisk, hsized'.key, hsized'.value, hsized'.scale, hsized'.zeroPoint,
      hsized'.sum⟩
  · have hkeepsAll : Keeps c s m'.manager
        (if m.reserve = [] then s.mPastLength else s.mPastLength - m.remove) := by
      split
      · next hnil =>
        rw [hnil] at hmoves
        cases hmoves
        exact hkeeps
      · exact (hkeeps.mono (Nat.sub_le _ _)).trans hkeeps'
    exact ⟨hkeepsAll.key, hkeepsAll.value, hkeepsAll.scale, hkeepsAll.zeroPoint, hkeepsAll.sum⟩
  · show m'.dstStart + m.add ≤ m'.manager.mMaxLength
    rw [hpastAfter, hmax', ← hneed]
    exact hmax.2

end Mnn.KVCache
