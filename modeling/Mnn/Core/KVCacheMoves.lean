import Mnn.Core.KVCacheLayout

/-!
# The moves of the key and value cache

* `Sized`: the buffers that a configuration uses exist, with the sizes of the current length, in
  files exactly above the limit;
* `Keeps`: every entry below a position reads back the same;
* `ClearsFit`, `AllocFits`, `GrowFits`: the conditions under which the calls stay inside their
  buffers and the copies move every entry to its new address;
* `onAlloc_spec`, `grow_spec`: what allocating and growing do then.
-/

namespace Mnn.KVCache

open Lib

namespace Setup

variable (c : Setup)

/-- The `memset` calls that count an element as `mBytes` bytes stay inside the buffers. -/
def ClearsFit : Prop :=
  (c.mHeadDim % c.lP = 0 ∨ c.mBytes ≤ c.keyWidth) ∧ (c.lP ≤ 1 ∨ c.mBytes ≤ c.valueWidth)

instance : Decidable c.ClearsFit := inferInstanceAs (Decidable (_ ∧ _))

/-- The files have a size that can be set. -/
def FilesFit (max : ℕ) : Prop := c.keySize max < 2 ^ 63 ∧ c.valueSize max < 2 ^ 63

instance (max : ℕ) : Decidable (c.FilesFit max) := inferInstanceAs (Decidable (_ ∧ _))

/-- The condition on `onAlloc`. -/
def AllocFits (max : ℕ) : Prop :=
  if Manager.overLimit c max then c.FilesFit max else c.ClearsFit

instance (max : ℕ) : Decidable (c.AllocFits max) := by
  unfold AllocFits
  infer_instance

/-- The condition on growing from `old` to `max`. -/
def GrowFits (past old max : ℕ) : Prop :=
  (past = 0 ∨ c.RowsFit old ∧ c.RowsFit max) ∧
    if Manager.overLimit c max then
      if Manager.overLimit c old then
        c.ClearsFit ∧ c.keySize max < 2 ^ 31 ∧ c.valueSize max < 2 ^ 31
      else c.mUseInt8Kernel = false ∧ c.FilesFit max
    else True

instance (past old max : ℕ) : Decidable (c.GrowFits past old max) := by
  unfold GrowFits
  infer_instance

variable {c}

theorem ClearsFit.key_le (h : c.ClearsFit) (max : ℕ) (hne : c.mHeadDim % c.lP ≠ 0) :
    c.mKvNumHead * c.keyElements max * c.mBytes ≤ c.keySize max := by
  have hwidth := h.1.resolve_left hne
  calc c.mKvNumHead * c.keyElements max * c.mBytes
      ≤ c.mKvNumHead * c.keyElements max * c.keyWidth := Nat.mul_le_mul_left _ hwidth
    _ = c.keySize max := by rw [keySize, keyStride, Nat.mul_assoc]

theorem ClearsFit.value_le (h : c.ClearsFit) (max : ℕ) (hlt : 1 < c.lP) :
    c.valueRows * c.valueElements max * c.mBytes ≤ c.valueSize max := by
  have hwidth := h.2.resolve_left (Nat.not_le.2 hlt)
  calc c.valueRows * c.valueElements max * c.mBytes
      ≤ c.valueRows * c.valueElements max * c.valueWidth := Nat.mul_le_mul_left _ hwidth
    _ = c.valueSize max := by rw [valueSize, valueStride, Nat.mul_assoc]

theorem overLimit_mono {old max : ℕ} (h : old ≤ max) (hold : Manager.overLimit c old = true) :
    Manager.overLimit c max = true := by
  have hkey := c.keySize_mono h
  have hvalue := c.valueSize_mono h
  unfold Manager.overLimit at *
  cases hlimit : c.mKVCacheSizeLimit with
  | none => simp [hlimit] at hold
  | some limit =>
    simp only [hlimit, decide_eq_true_eq] at *
    omega

end Setup

variable {β : Type*}

/-- The buffer is there, with a size. -/
def Has (b : Option (Buffer β)) (n : ℕ) : Prop := ∃ x, b = some x ∧ x.size = n

/-- The buffers in use. -/
structure Sized (c : Setup) (s : Manager β) : Prop where
  inDisk : s.mKVCacheInDisk = Manager.overLimit c s.mMaxLength
  key : Has s.keyAddr (c.keySize s.mMaxLength)
  value : Has s.valudAddr (c.valueSize s.mMaxLength)
  scale : (c.mUseInt8Kernel || c.mQuantKey) = true → Has s.mKeyScale (c.scaleSize s.mMaxLength)
  zeroPoint : (c.mUseInt8Kernel || c.mQuantKey) = true →
    Has s.mKeyZeroPoint (c.scaleSize s.mMaxLength)
  sum : c.mUseInt8Kernel = true → Has s.mKeySum (c.scaleSize s.mMaxLength)

/-- Every entry below position `n` reads the same in `s'` as in `s`. -/
structure Keeps (c : Setup) (s s' : Manager β) (n : ℕ) : Prop where
  key : ∀ h < c.mKvNumHead, ∀ pos < n, ∀ d < c.mHeadDim, s'.readKey c h pos d = s.readKey c h pos d
  value : ∀ h < c.mKvNumHead, ∀ pos < n, ∀ d < c.mHeadDim,
    s'.readValue c h pos d = s.readValue c h pos d
  scale : ∀ h < c.mKvNumHead, ∀ pos < n, s'.readScale c h pos = s.readScale c h pos
  zeroPoint : ∀ h < c.mKvNumHead, ∀ pos < n, s'.readZeroPoint c h pos = s.readZeroPoint c h pos
  sum : ∀ h < c.mKvNumHead, ∀ pos < n, s'.readSum c h pos = s.readSum c h pos

variable {c : Setup} {s s' s'' : Manager β} {old max n n' : ℕ}

theorem Keeps.refl (s : Manager β) : Keeps c s s n :=
  ⟨fun _ _ _ _ _ _ => rfl, fun _ _ _ _ _ _ => rfl, fun _ _ _ _ => rfl, fun _ _ _ _ => rfl,
    fun _ _ _ _ => rfl⟩

theorem Keeps.mono (h : Keeps c s s' n) (hle : n' ≤ n) : Keeps c s s' n' where
  key h' hh pos hpos := h.key h' hh pos (hpos.trans_le hle)
  value h' hh pos hpos := h.value h' hh pos (hpos.trans_le hle)
  scale h' hh pos hpos := h.scale h' hh pos (hpos.trans_le hle)
  zeroPoint h' hh pos hpos := h.zeroPoint h' hh pos (hpos.trans_le hle)
  sum h' hh pos hpos := h.sum h' hh pos (hpos.trans_le hle)

theorem Keeps.trans (h : Keeps c s s' n) (h' : Keeps c s' s'' n) : Keeps c s s'' n where
  key i hi pos hpos d hd := (h'.key i hi pos hpos d hd).trans (h.key i hi pos hpos d hd)
  value i hi pos hpos d hd := (h'.value i hi pos hpos d hd).trans (h.value i hi pos hpos d hd)
  scale i hi pos hpos := (h'.scale i hi pos hpos).trans (h.scale i hi pos hpos)
  zeroPoint i hi pos hpos := (h'.zeroPoint i hi pos hpos).trans (h.zeroPoint i hi pos hpos)
  sum i hi pos hpos := (h'.sum i hi pos hpos).trans (h.sum i hi pos hpos)

/-! ### Allocating -/

theorem setFileSize_spec [Zero β] (file : Buffer β) {n : ℕ} (h : n < 2 ^ 63) :
    ∃ b, setFileSize file n = some b ∧ b.size = n := ⟨_, if_pos h, rfl⟩

theorem clearIf_spec [Zero β] (cond : Prop) [Decidable cond] {n : ℕ} {b : Buffer β}
    (h : cond → n ≤ b.size) : ∃ b', clearIf cond n b = some b' ∧ b'.size = b.size := by
  by_cases hcond : cond
  · obtain ⟨b', hb', hframe⟩ := Buffer.exists_memset b (d := 0) (n := n) 0
      (by rw [Nat.zero_add]; exact h hcond)
    exact ⟨b', by simpa [clearIf, hcond] using hb', hframe.size⟩
  · exact ⟨b, by simp [clearIf, hcond], rfl⟩

namespace Manager

variable [Zero β] (fresh : Fresh β)

theorem createFiles_spec (s : Manager β) {keySize valueSize : ℕ} (hkey : keySize < 2 ^ 63)
    (hvalue : valueSize < 2 ^ 63) :
    ∃ k v, s.createFiles keySize valueSize =
        some { s with mKeyCacheFD := some k, mValueCacheFD := some v, mapped := true } ∧
      k.size = keySize ∧ v.size = valueSize := by
  obtain ⟨k, hk, hksize⟩ := setFileSize_spec (⟨0, fun _ => 0⟩ : Buffer β) hkey
  obtain ⟨v, hv, hvsize⟩ := setFileSize_spec (⟨0, fun _ => 0⟩ : Buffer β) hvalue
  exact ⟨k, v, by simp [createFiles, hk, hv], hksize, hvsize⟩

theorem allocInMem_spec (s : Manager β) (max : ℕ) (hfit : c.ClearsFit) :
    ∃ k v, s.allocInMem c fresh max = some { s with mPastKey := some k, mPastValue := some v } ∧
      k.size = c.keySize max ∧ v.size = c.valueSize max := by
  obtain ⟨k, hk, hksize⟩ := clearIf_spec _ (b := ⟨c.keySize max, fresh.key⟩) (hfit.key_le max)
  obtain ⟨v, hv, hvsize⟩ := clearIf_spec _ (b := ⟨c.valueSize max, fresh.value⟩)
    (hfit.value_le max)
  refine ⟨k, v, ?_, hksize, hvsize⟩
  simp only [allocInMem, hk, hv, Option.bind_eq_bind, Option.bind_some]

omit [Zero β] in
@[simp] theorem allocScales_mPastLength (s : Manager β) (max : ℕ) :
    (s.allocScales c fresh max).mPastLength = s.mPastLength := by
  unfold allocScales
  split
  · rfl
  · split <;> rfl

omit [Zero β] in
@[simp] theorem allocScales_mMaxLength (s : Manager β) (max : ℕ) :
    (s.allocScales c fresh max).mMaxLength = s.mMaxLength := by
  unfold allocScales
  split
  · rfl
  · split <;> rfl

omit [Zero β] in
/-- The scales that `onAlloc` adds. -/
theorem allocScales_sized (s : Manager β) (hdisk : s.mKVCacheInDisk = overLimit c s.mMaxLength)
    (hkey : Has s.keyAddr (c.keySize s.mMaxLength))
    (hvalue : Has s.valudAddr (c.valueSize s.mMaxLength)) :
    Sized c (s.allocScales c fresh s.mMaxLength) := by
  unfold allocScales
  cases hint : c.mUseInt8Kernel with
  | true => exact ⟨hdisk, hkey, hvalue, fun _ => ⟨_, rfl, rfl⟩, fun _ => ⟨_, rfl, rfl⟩,
      fun _ => ⟨_, rfl, rfl⟩⟩
  | false =>
    cases hquant : c.mQuantKey with
    | true => exact ⟨hdisk, hkey, hvalue, fun _ => ⟨_, rfl, rfl⟩, fun _ => ⟨_, rfl, rfl⟩,
        fun h => by simp [hint] at h⟩
    | false => exact ⟨hdisk, hkey, hvalue, fun h => by simp [hint, hquant] at h,
        fun h => by simp [hint, hquant] at h, fun h => by simp [hint] at h⟩

theorem allocBuffers_spec {s : Manager β} (hdisk : s.mKVCacheInDisk = false)
    (hfit : c.AllocFits max) :
    ∃ s', s.allocBuffers c fresh max = some s' ∧ s'.mKVCacheInDisk = overLimit c max ∧
      Has s'.keyAddr (c.keySize max) ∧ Has s'.valudAddr (c.valueSize max) ∧
      s'.mPastLength = s.mPastLength ∧ s'.mMaxLength = s.mMaxLength := by
  unfold Setup.AllocFits at hfit
  cases hover : overLimit c max with
  | true =>
    rw [if_pos hover] at hfit
    obtain ⟨k, v, hfiles, hk, hv⟩ := createFiles_spec s hfit.1 hfit.2
    refine ⟨{ s with mKeyCacheFD := some k, mValueCacheFD := some v, mapped := true,
                     mKVCacheInDisk := true }, ?_, rfl, ⟨k, rfl, hk⟩, ⟨v, rfl, hv⟩, rfl, rfl⟩
    simp only [allocBuffers, hover, if_true, hfiles, Option.bind_eq_bind, Option.bind_some]
  | false =>
    rw [hover, if_neg Bool.false_ne_true] at hfit
    obtain ⟨k, v, hmem, hk, hv⟩ := allocInMem_spec fresh s max hfit
    refine ⟨{ s with mPastKey := some k, mPastValue := some v }, ?_, hdisk, ⟨k, ?_, hk⟩,
      ⟨v, ?_, hv⟩, rfl, rfl⟩
    · simp only [allocBuffers, hover, Bool.false_eq_true, if_false, hmem]
    · simp [keyAddr, hdisk]
    · simp [valudAddr, hdisk]

/-- Allocating after `onClear`. -/
theorem onAlloc_spec (kvSeqLen : ℕ) (hfit : c.AllocFits (kvSeqLen + c.mExpandChunk)) :
    ∃ s : Manager β, (onClear : Manager β).onAlloc c fresh kvSeqLen = some s ∧ Sized c s ∧
      s.mPastLength = 0 ∧ s.mMaxLength = kvSeqLen + c.mExpandChunk := by
  obtain ⟨s, hs, hdisk, hkey, hvalue, hpast, hmax⟩ := allocBuffers_spec fresh
    (s := { mMaxLength := kvSeqLen + c.mExpandChunk }) rfl hfit
  refine ⟨s.allocScales c fresh s.mMaxLength, ?_, ?_, by simpa using hpast, by simpa using hmax⟩
  · simp only [onAlloc, onClear, hs, Option.bind_eq_bind, Option.bind_some, hmax]
  · rw [← show s.mMaxLength = kvSeqLen + c.mExpandChunk from hmax] at hdisk hkey hvalue
    exact allocScales_sized fresh s hdisk hkey hvalue

end Manager

/-! ### Growing -/

/-- The keys and values of a longer cache. -/
structure Grown (c : Setup) (old max : ℕ) (k v k' v' : Buffer β) : Prop where
  keySize : k'.size = c.keySize max
  valueSize : v'.size = c.valueSize max
  key : Buffer.Spread c.mKvNumHead (c.keyStride max) (c.keyStride old) k k'
  value : Buffer.Spread c.valueRows (c.valueStride max) (c.valueStride old) v v'

/-- A buffer of scales, zero points or sums that a configuration uses, in a longer cache. -/
def ScaleGrown (c : Setup) (used : Bool) (old max : ℕ) (b b' : Option (Buffer β)) : Prop :=
  used = true → ∃ x x', b = some x ∧ b' = some x' ∧ x'.size = c.scaleSize max ∧
    Buffer.Spread c.mKvNumHead (c.scaleStride max) (c.scaleStride old) x x'

namespace Manager

variable [Zero β] (fresh : Fresh β)

/-- The two copies. -/
theorem copy_grown {k v : Buffer β} (k₀ v₀ : Buffer β) (clearKey clearValue : Bool)
    (hle : old ≤ max) (hk : k.size = c.keySize old) (hv : v.size = c.valueSize old)
    (hk₀ : k₀.size = c.keySize max) (hv₀ : v₀.size = c.valueSize max) :
    ∃ k' v', Buffer.copyBlocks clearKey c.mKvNumHead (c.keyStride max) (c.keyStride old) k k₀ =
        some k' ∧
      Buffer.copyBlocks clearValue c.valueRows (c.valueStride max) (c.valueStride old) v v₀ =
        some v' ∧ Grown c old max k v k' v' := by
  obtain ⟨k', hk', hksize, hkey⟩ := Buffer.copyBlocks_spec clearKey k k₀
    (c.keyStride_mono hle) hk₀.ge hk.ge
  obtain ⟨v', hv', hvsize, hvalue⟩ := Buffer.copyBlocks_spec clearValue v v₀
    (c.valueStride_mono hle) hv₀.ge hv.ge
  exact ⟨k', v', hk', hv', hksize.trans hk₀, hvsize.trans hv₀, hkey, hvalue⟩

theorem expandKVCacheInMem_spec {k v : Buffer β} (hle : old ≤ s.mMaxLength)
    (hk : s.mPastKey = some k) (hv : s.mPastValue = some v) (hksize : k.size = c.keySize old)
    (hvsize : v.size = c.valueSize old) :
    ∃ k' v', s.expandKVCacheInMem c fresh old =
        some { s with mPastKey := some k', mPastValue := some v' } ∧
      Grown c old s.mMaxLength k v k' v' := by
  obtain ⟨k', v', hk', hv', hgrown⟩ := copy_grown (c := c)
    ⟨c.keySize s.mMaxLength, fresh.key⟩ ⟨c.valueSize s.mMaxLength, fresh.value⟩
    (!c.mUseInt8Kernel && !c.mQuantKey) (!c.mQuantValue) hle hksize hvsize rfl rfl
  refine ⟨k', v', ?_, hgrown⟩
  simp only [expandKVCacheInMem, hk, hv, hk', hv', Option.bind_eq_bind, Option.bind_some]

theorem moveKVCacheFromMemToDisk_spec {k v k₀ v₀ : Buffer β} (hint : c.mUseInt8Kernel = false)
    (hle : old ≤ s.mMaxLength) (hk : s.mPastKey = some k) (hv : s.mPastValue = some v)
    (hksize : k.size = c.keySize old) (hvsize : v.size = c.valueSize old)
    (hmapped : s.mapped = true) (hkfile : s.mKeyCacheFD = some k₀)
    (hvfile : s.mValueCacheFD = some v₀) (hk₀ : k₀.size = c.keySize s.mMaxLength)
    (hv₀ : v₀.size = c.valueSize s.mMaxLength) :
    ∃ k' v', s.moveKVCacheFromMemToDisk c old =
        some { s with
          mKeyCacheFD := some k', mPastKey := none, mValueCacheFD := some v', mPastValue := none } ∧
      Grown c old s.mMaxLength k v k' v' := by
  -- the elements that are cleared are numbers of `mBytes` bytes here
  obtain ⟨k₁, hk₁, hksize₁⟩ := clearIf_spec (c.mHeadDim % c.lP ≠ 0 ∧ c.mQuantKey = false)
    (n := c.mKvNumHead * c.keyElements s.mMaxLength * c.mBytes) (b := k₀) fun h => by
      rw [hk₀, Setup.keySize, Setup.keyStride, Nat.mul_assoc]
      simp [Setup.keyWidth, hint, h.2]
  obtain ⟨v₁, hv₁, hvsize₁⟩ := clearIf_spec (c.mQuantValue = false ∧ 1 < c.lP)
    (n := c.valueRows * c.valueElements s.mMaxLength * c.mBytes) (b := v₀) fun h => by
      rw [hv₀, Setup.valueSize, Setup.valueStride, Nat.mul_assoc]
      simp [Setup.valueWidth, h.1]
  obtain ⟨k', v', hk', hv', hgrown⟩ := copy_grown (c := c) k₁ v₁ false false hle hksize hvsize
    (hksize₁.trans hk₀) (hvsize₁.trans hv₀)
  refine ⟨k', v', ?_, hgrown⟩
  have hmoveKey : ∀ clear : Bool,
      clear = decide (c.mHeadDim % c.lP ≠ 0 ∧ c.mQuantKey = false) →
      s.moveKey c clear old = some { s with mKeyCacheFD := some k', mPastKey := none } := by
    rintro _ rfl
    simp only [moveKey, mMapKeyAddr, hmapped, if_true, hkfile, hk₁, hk, hk', Option.bind_eq_bind,
      Option.bind_some]
  have hmoveValue : ({ s with mKeyCacheFD := some k', mPastKey := none } : Manager β).moveValue c
      old = some { s with
        mKeyCacheFD := some k', mPastKey := none, mValueCacheFD := some v',
        mPastValue := none } := by
    have hcond : (!c.mQuantValue && decide (1 < c.lP)) =
        decide (c.mQuantValue = false ∧ 1 < c.lP) := by
      cases c.mQuantValue <;> simp
    simp only [moveValue, mMapValueAddr, hmapped, if_true, hvfile, hcond, hv₁, hv, hv',
      Option.bind_eq_bind, Option.bind_some]
  cases hquant : c.mQuantKey with
  | true =>
    simp only [moveKVCacheFromMemToDisk, hint, hquant, Bool.false_eq_true, if_false, if_true,
      hmoveKey false (by simp [hquant]), hmoveValue, Option.bind_eq_bind, Option.bind_some]
  | false =>
    simp only [moveKVCacheFromMemToDisk, hint, hquant, Bool.false_eq_true, if_false,
      hmoveKey _ (show decide (c.mHeadDim % c.lP ≠ 0) = _ by simp [hquant]), hmoveValue,
      Option.bind_eq_bind, Option.bind_some]

theorem throughInt_eq {n : ℕ} (h : n < 2 ^ 31) : throughInt n = n := by
  have : n % 2 ^ 32 = n := Nat.mod_eq_of_lt (by omega)
  rw [throughInt, this, if_pos h]

/-- The temporary copy of a file. -/
theorem copyFile_spec {file : Buffer β} (temp : Buffer β) {cond : Prop} [Decidable cond] {m n : ℕ}
    (hm : cond → m ≤ temp.size) (htemp : temp.size = n) (hfile : file.size = n) :
    ∃ b, (clearIf cond m temp).bind (fun b => b.memcpy 0 file 0 n) = some b ∧ b.size = n ∧
      ∀ x < n, b.data x = file.data x := by
  obtain ⟨b₁, hb₁, hsize₁⟩ := clearIf_spec cond hm
  obtain ⟨b₂, hb₂, hframe, hdata⟩ := Buffer.exists_memcpy b₁ file (d := 0) (s := 0) (n := n)
    (by omega) (by omega)
  refine ⟨b₂, by simp only [hb₁, Option.bind_some, hb₂], ?_, fun x hx => ?_⟩
  · rw [hframe.size, hsize₁, htemp]
  · have := hdata x hx
    rwa [Nat.zero_add] at this

theorem expandKVCacheInDisk_spec {k v : Buffer β} (hfit : c.ClearsFit)
    (hkey : c.keySize s.mMaxLength < 2 ^ 31) (hvalue : c.valueSize s.mMaxLength < 2 ^ 31)
    (hle : old ≤ s.mMaxLength) (hmapped : s.mapped = true) (hk : s.mKeyCacheFD = some k)
    (hv : s.mValueCacheFD = some v) (hksize : k.size = c.keySize old)
    (hvsize : v.size = c.valueSize old) :
    ∃ k' v', s.expandKVCacheInDisk c fresh old (c.keySize old) (c.valueSize old)
        (c.keySize s.mMaxLength) (c.valueSize s.mMaxLength) =
        some { s with mKeyCacheFD := some k', mValueCacheFD := some v' } ∧
      Grown c old s.mMaxLength k v k' v' := by
  have hkeyOld := (c.keySize_mono hle).trans_lt hkey
  have hvalueOld := (c.valueSize_mono hle).trans_lt hvalue
  obtain ⟨k₁, hk₁, hksize₁, hkdata⟩ := copyFile_spec ⟨c.keySize old, fresh.key⟩
    (hfit.key_le old) rfl hksize
  obtain ⟨v₁, hv₁, hvsize₁, hvdata⟩ := copyFile_spec ⟨c.valueSize old, fresh.value⟩
    (hfit.value_le old) rfl hvsize
  obtain ⟨k₂, hk₂, hksize₂⟩ := setFileSize_spec k (n := c.keySize s.mMaxLength) (by omega)
  obtain ⟨v₂, hv₂, hvsize₂⟩ := setFileSize_spec v (n := c.valueSize s.mMaxLength) (by omega)
  obtain ⟨k', v', hk', hv', hgrown⟩ := copy_grown (c := c) k₂ v₂ false false hle hksize₁ hvsize₁
    hksize₂ hvsize₂
  refine ⟨k', v', ?_, hgrown.keySize, hgrown.valueSize, hgrown.key.congr hksize.ge hkdata,
    hgrown.value.congr hvsize.ge hvdata⟩
  obtain ⟨k₀, hk₀, hk₁⟩ := Option.bind_eq_some_iff.1 hk₁
  obtain ⟨v₀, hv₀, hv₁⟩ := Option.bind_eq_some_iff.1 hv₁
  simp only [expandKVCacheInDisk, mMapKeyAddr, mMapValueAddr, hmapped, if_true, hk, hv, hk₀, hv₀,
    throughInt_eq hkeyOld, throughInt_eq hvalueOld, throughInt_eq hkey, throughInt_eq hvalue, hk₁,
    hv₁, hk₂, hv₂, hk', hv', Option.bind_eq_bind, Option.bind_some]

/-- Keys and values are moved, the other members stay. -/
structure Moved (c : Setup) (old : ℕ) (s s' : Manager β) : Prop where
  buffers : ∃ k v k' v', s.keyAddr = some k ∧ s.valudAddr = some v ∧ s'.keyAddr = some k' ∧
    s'.valudAddr = some v' ∧ Grown c old s.mMaxLength k v k' v'
  inDisk : s'.mKVCacheInDisk = overLimit c s.mMaxLength
  scale : s'.mKeyScale = s.mKeyScale
  zeroPoint : s'.mKeyZeroPoint = s.mKeyZeroPoint
  sum : s'.mKeySum = s.mKeySum
  maxLength : s'.mMaxLength = s.mMaxLength
  pastLength : s'.mPastLength = s.mPastLength

omit [Zero β] in
/-- The files in use are mapped. -/
theorem mapped_of_has {s : Manager β} (hdisk : s.mKVCacheInDisk = true) (hkey : Has s.keyAddr n) :
    s.mapped = true := by
  obtain ⟨k, hk, -⟩ := hkey
  cases hmapped : s.mapped with
  | true => rfl
  | false => simp [keyAddr, hdisk, mMapKeyAddr, hmapped] at hk

/-- One of the three moves. -/
theorem moveBuffers_spec {past : ℕ} {s : Manager β} (hle : old ≤ s.mMaxLength)
    (hdisk : s.mKVCacheInDisk = overLimit c old) (hkey : Has s.keyAddr (c.keySize old))
    (hvalue : Has s.valudAddr (c.valueSize old)) (hfit : c.GrowFits past old s.mMaxLength) :
    ∃ s', s.moveBuffers c fresh old = some s' ∧ Moved c old s s' := by
  obtain ⟨k, hk, hksize⟩ := hkey
  obtain ⟨v, hv, hvsize⟩ := hvalue
  cases hover : overLimit c s.mMaxLength with
  | false =>
    have hmem : s.mKVCacheInDisk = false := by
      by_contra hne
      rw [hdisk, Bool.not_eq_false] at hne
      simp [Setup.overLimit_mono hle hne] at hover
    simp only [keyAddr, valudAddr, hmem, Bool.false_eq_true, if_false] at hk hv
    obtain ⟨k', v', hmove, hgrown⟩ := expandKVCacheInMem_spec fresh hle hk hv hksize hvsize
    refine ⟨{ s with mPastKey := some k', mPastValue := some v' }, ?_,
      ⟨k, v, k', v', ?_, ?_, ?_, ?_, hgrown⟩, hmem.trans hover.symm, rfl, rfl, rfl, rfl, rfl⟩
    · simp only [moveBuffers, hover, Bool.not_false, if_true, hmove]
    all_goals simp [keyAddr, valudAddr, hmem, hk, hv]
  | true =>
    have hfit := hfit.2
    rw [if_pos hover] at hfit
    cases hoverOld : overLimit c old with
    | false =>
      rw [hoverOld, if_neg Bool.false_ne_true] at hfit
      have hmem : s.mKVCacheInDisk = false := hdisk.trans hoverOld
      simp only [keyAddr, valudAddr, hmem, Bool.false_eq_true, if_false] at hk hv
      obtain ⟨k₀, v₀, hfiles, hk₀, hv₀⟩ := createFiles_spec s hfit.2.1 hfit.2.2
      obtain ⟨k', v', hmove, hgrown⟩ := moveKVCacheFromMemToDisk_spec (s := { s with
        mKeyCacheFD := some k₀, mValueCacheFD := some v₀, mapped := true }) hfit.1 hle hk hv hksize
        hvsize rfl rfl rfl hk₀ hv₀
      refine ⟨{ s with
        mKeyCacheFD := some k', mValueCacheFD := some v', mPastKey := none, mPastValue := none,
        mapped := true, mKVCacheInDisk := true }, ?_, ⟨k, v, k', v', ?_, ?_, rfl, rfl, hgrown⟩,
        hover.symm, rfl, rfl, rfl, rfl, rfl⟩
      · simp only [moveBuffers, hover, hoverOld, Bool.not_true, Bool.false_eq_true, if_false,
          Bool.not_false, if_true, hfiles, hmove, Option.bind_eq_bind, Option.bind_some]
      all_goals simp [keyAddr, valudAddr, hmem, hk, hv]
    | true =>
      rw [if_pos hoverOld] at hfit
      have hin : s.mKVCacheInDisk = true := hdisk.trans hoverOld
      have hmapped := mapped_of_has hin ⟨k, hk, hksize⟩
      simp only [keyAddr, valudAddr, hin, if_true, mMapKeyAddr, mMapValueAddr, hmapped] at hk hv
      obtain ⟨k', v', hmove, hgrown⟩ := expandKVCacheInDisk_spec fresh hfit.1 hfit.2.1 hfit.2.2 hle
        hmapped hk hv hksize hvsize
      refine ⟨{ s with mKeyCacheFD := some k', mValueCacheFD := some v' }, ?_,
        ⟨k, v, k', v', ?_, ?_, ?_, ?_, hgrown⟩, hin.trans hover.symm, rfl, rfl, rfl, rfl, rfl⟩
      · simp only [moveBuffers, hover, hoverOld, Bool.not_true, Bool.false_eq_true, if_false, hmove]
      all_goals simp [keyAddr, valudAddr, mMapKeyAddr, mMapValueAddr, hin, hmapped, hk, hv]

/-! ### Scales, zero points and sums -/

theorem expandScale_spec {b : Option (Buffer β)} (content : ℕ → β) (hle : old ≤ s.mMaxLength)
    (hb : Has b (c.scaleSize old)) :
    ∃ b', s.expandScale c old content b = some b' ∧ ∀ used,
      ScaleGrown c used old s.mMaxLength b b' := by
  obtain ⟨x, rfl, hsize⟩ := hb
  obtain ⟨x', hx', hsize', hspread⟩ := Buffer.copyBlocks_spec false x
    ⟨c.scaleSize s.mMaxLength, content⟩ (c.scaleStride_mono hle) le_rfl hsize.ge
  refine ⟨some x', ?_, fun _ _ => ⟨x, x', rfl, rfl, hsize', hspread⟩⟩
  simp only [expandScale, hx', Option.bind_eq_bind, Option.bind_some]

theorem expandScales_spec (hle : old ≤ s.mMaxLength)
    (hscale : (c.mUseInt8Kernel || c.mQuantKey) = true → Has s.mKeyScale (c.scaleSize old))
    (hzero : (c.mUseInt8Kernel || c.mQuantKey) = true → Has s.mKeyZeroPoint (c.scaleSize old))
    (hsum : c.mUseInt8Kernel = true → Has s.mKeySum (c.scaleSize old)) :
    ∃ x y z, s.expandScales c fresh old =
        some { s with mKeyScale := x, mKeyZeroPoint := y, mKeySum := z } ∧
      ScaleGrown c (c.mUseInt8Kernel || c.mQuantKey) old s.mMaxLength s.mKeyScale x ∧
      ScaleGrown c (c.mUseInt8Kernel || c.mQuantKey) old s.mMaxLength s.mKeyZeroPoint y ∧
      ScaleGrown c c.mUseInt8Kernel old s.mMaxLength s.mKeySum z := by
  cases hint : c.mUseInt8Kernel with
  | true =>
    simp only [hint, Bool.true_or, forall_const] at hscale hzero hsum
    obtain ⟨x, hx, hgx⟩ := expandScale_spec fresh.scale hle hscale
    obtain ⟨y, hy, hgy⟩ := expandScale_spec fresh.zeroPoint hle hzero
    obtain ⟨z, hz, hgz⟩ := expandScale_spec fresh.sum hle hsum
    refine ⟨x, y, z, ?_, hgx _, hgy _, hgz _⟩
    simp only [expandScales, hint, if_true, hx, hy, hz, Option.bind_eq_bind, Option.bind_some]
  | false =>
    cases hquant : c.mQuantKey with
    | true =>
      simp only [hint, hquant, Bool.or_true, forall_const] at hscale hzero
      obtain ⟨x, hx, hgx⟩ := expandScale_spec fresh.scale hle hscale
      obtain ⟨y, hy, hgy⟩ := expandScale_spec fresh.zeroPoint hle hzero
      refine ⟨x, y, s.mKeySum, ?_, hgx _, hgy _, nofun⟩
      simp only [expandScales, hint, hquant, Bool.false_eq_true, if_false, if_true, hx, hy,
        Option.bind_eq_bind, Option.bind_some]
    | false =>
      refine ⟨s.mKeyScale, s.mKeyZeroPoint, s.mKeySum, ?_, nofun, nofun, nofun⟩
      simp only [expandScales, hint, hquant, Bool.false_eq_true, if_false]

end Manager

end Mnn.KVCache
