import Mnn.Core.KVCacheGrowth
import Mnn.Lib.Run

/-!
# Runs of the key and value cache

* `onPushBack_spec`: pushing within the maximal length stays inside the buffers;
* `Sys`, `Op`, `call`: the cache with the tokens that the last call granted, and the calls;
* `Contract`, `Fits`: what the callers keep to, and the condition on a call;
* `growing_keeps`: **in every run of the cache whose calls fit, no call fails, reallocating keeps
  the entries, and pushing stays below the maximal length**.

`int8_move_fails` is a run with the int8 kernel that moves the cache from memory to files.
-/

namespace Mnn.KVCache

open Lib

variable {β : Type*} {c : Setup} {s s' : Manager β} {n : ℕ}

/-! ### Pushing -/

theorem packChannels_spec {b : Buffer β} {width : ℕ} {address : ℕ → ℕ → ℕ → ℕ}
    (bytes : ℕ → ℕ → ℕ → ℕ → β)
    (hle : ∀ h < c.mKvNumHead, ∀ i < n, ∀ d < c.mHeadDim,
      address h (s.mPastLength + i) d + width ≤ b.size) :
    ∃ b', s.packChannels c n width address bytes b = some b' ∧ b'.size = b.size := by
  have hloop : ∃ b', s.packChannels c n width address bytes b = some b' ∧
      b.Frame (fun _ => True) b' := by
    refine Buffer.exists_loop_frame (fun h hh b₁ hb₁ => ?_) rfl
    refine Buffer.exists_loop_frame (fun i hi b₂ hb₂ => ?_) hb₁
    refine Buffer.exists_loop_frame (fun d hd b₃ hb₃ => ?_) hb₂
    obtain ⟨b₄, hb₄, hframe⟩ := Buffer.exists_write b₃ (bytes h i d)
      ((hle h hh i hi d hd).trans hb₃.ge)
    exact ⟨b₄, hb₄, hframe.mono fun _ _ => trivial⟩
  obtain ⟨b', hb', hframe⟩ := hloop
  exact ⟨b', hb', hframe.size⟩

theorem packRows_spec {b : Option (Buffer β)} (bytes : ℕ → ℕ → ℕ → β)
    (hb : Has b (c.scaleSize s.mMaxLength)) (hle : s.mPastLength + n ≤ s.mMaxLength) :
    ∃ b', s.packRows c n bytes b = some b' ∧ Has b' (c.scaleSize s.mMaxLength) := by
  obtain ⟨x, rfl, hsize⟩ := hb
  obtain ⟨x', hx', hframe⟩ := Buffer.exists_loop_frame (b := x) (P := fun _ => True)
    (n := c.mKvNumHead) (f := fun b h => (List.range n).foldlM (fun b i =>
      b.write (c.scaleAddress s.mMaxLength h (s.mPastLength + i)) c.scaleWidth (bytes h i)) b)
    (fun h hh b₁ hb₁ => Buffer.exists_loop_frame (fun i hi b₂ hb₂ => by
      have haddress := c.scaleAddress_le hh (show s.mPastLength + i < s.mMaxLength by omega)
      obtain ⟨b₃, hb₃, hframe⟩ := Buffer.exists_write b₂ (bytes h i)
        (haddress.trans (hsize.ge.trans hb₂.ge))
      exact ⟨b₃, hb₃, hframe.mono fun _ _ => trivial⟩) hb₁) rfl
  refine ⟨some x', ?_, x', rfl, hframe.size.trans hsize⟩
  simp only [Manager.packRows, Option.bind_eq_bind, Option.bind_some, hx']

theorem packScales_spec (data : Manager.Pushed β) (hs : Sized c s)
    (hle : s.mPastLength + n ≤ s.mMaxLength) :
    ∃ t, s.packScales c n data = some t ∧ Sized c t ∧ t.mPastLength = s.mPastLength ∧
      t.mMaxLength = s.mMaxLength := by
  cases hint : c.mUseInt8Kernel with
  | true =>
    obtain ⟨x, hx, hxsize⟩ := packRows_spec data.scale (hs.scale (by simp [hint])) hle
    obtain ⟨y, hy, hysize⟩ := packRows_spec data.zeroPoint (hs.zeroPoint (by simp [hint])) hle
    obtain ⟨z, hz, hzsize⟩ := packRows_spec data.sum (hs.sum hint) hle
    refine ⟨{ s with mKeyScale := x, mKeyZeroPoint := y, mKeySum := z }, ?_, ⟨hs.inDisk, hs.key,
      hs.value, fun _ => hxsize, fun _ => hysize, fun _ => hzsize⟩, rfl, rfl⟩
    simp only [Manager.packScales, hint, if_true, hx, hy, hz, Option.bind_eq_bind, Option.bind_some]
  | false =>
    cases hquant : c.mQuantKey with
    | true =>
      obtain ⟨x, hx, hxsize⟩ := packRows_spec data.scale (hs.scale (by simp [hquant])) hle
      obtain ⟨y, hy, hysize⟩ := packRows_spec data.zeroPoint (hs.zeroPoint (by simp [hquant])) hle
      refine ⟨{ s with mKeyScale := x, mKeyZeroPoint := y }, ?_, ⟨hs.inDisk, hs.key, hs.value,
        fun _ => hxsize, fun _ => hysize, hs.sum⟩, rfl, rfl⟩
      simp only [Manager.packScales, hint, hquant, Bool.false_eq_true, if_false, if_true, hx, hy,
        Option.bind_eq_bind, Option.bind_some]
    | false =>
      refine ⟨s, ?_, hs, rfl, rfl⟩
      simp only [Manager.packScales, hint, hquant, Bool.false_eq_true, if_false]

/-- **Pushing below the maximal length.** -/
theorem onPushBack_spec (data : Manager.Pushed β) (hs : Sized c s)
    (hle : s.mPastLength + n ≤ s.mMaxLength) :
    ∃ s', s.onPushBack c n data = some s' ∧ Sized c s' ∧ s'.mPastLength = s.mPastLength + n ∧
      s'.mMaxLength = s.mMaxLength := by
  obtain ⟨k, hk, hksize⟩ := hs.key
  obtain ⟨v, hv, hvsize⟩ := hs.value
  obtain ⟨k', hk', hksize'⟩ := packChannels_spec (s := s) (n := n) (b := k) data.key
    fun h hh i hi d hd => hksize ▸ c.keyAddress_le hh (show s.mPastLength + i < _ by omega) hd
  obtain ⟨v', hv', hvsize'⟩ := packChannels_spec (s := s) (n := n) (b := v) data.value
    fun h hh i hi d hd => hvsize ▸ c.valueAddress_le hh (show s.mPastLength + i < _ by omega) hd
  obtain ⟨t, hscales, hsized, hpast, hmax⟩ := packScales_spec data hs hle
  rw [← hmax] at hksize hvsize
  have hset := setBuffers_sized (k := k') (v := v') hsized (hksize'.trans hksize)
    (hvsize'.trans hvsize)
  refine ⟨{ t.setBuffers k' v' with mPastLength := (t.setBuffers k' v').mPastLength + n }, ?_,
    ⟨hset.inDisk, hset.key, hset.value, hset.scale, hset.zeroPoint, hset.sum⟩, ?_, ?_⟩
  · simp only [Manager.onPushBack, hk, hk', hv, hv', hscales, Option.bind_eq_bind, Option.bind_some]
  · simp [hpast]
  · simp [hmax]

/-! ### Runs -/

/-- The cache, and the new tokens that the last `onAlloc` or `onRealloc` made room for. -/
structure Sys (β : Type*) where
  manager : Manager β := {}
  allocated : Bool := false
  granted : ℕ := 0

/-- The calls. -/
inductive Op (β : Type*)
  | clear
  | alloc (kvSeqLen : ℕ) (fresh : Fresh β)
  | realloc (m : KVMeta) (fresh : Fresh β)
  | push (seqLen : ℕ) (data : Manager.Pushed β)

/-- One call; none where it fails. -/
def Sys.call [Zero β] (c : Setup) (s : Sys β) : Op β → Option (Sys β)
  | .clear => some {}
  | .alloc kvSeqLen fresh => do
    let m ← s.manager.onAlloc c fresh kvSeqLen
    some ⟨m, true, kvSeqLen⟩
  | .realloc m fresh => do
    let t ← s.manager.onRealloc c fresh m
    some ⟨t, true, m.add⟩
  | .push seqLen data => do
    let t ← s.manager.onPushBack c seqLen data
    some ⟨t, true, s.granted - seqLen⟩

/-- What `CPUAttention` keeps to: it clears the cache before it allocates, and pushes what it made
room for. -/
def Sys.Contract (s : Sys β) : Op β → Prop
  | .clear => True
  | .alloc _ _ => s.manager = Manager.onClear
  | .realloc m _ => s.allocated = true ∧ MetaFits s.manager.mPastLength m
  | .push seqLen _ => s.allocated = true ∧ seqLen ≤ s.granted

/-- The condition on a call. -/
def Sys.Fits (c : Setup) (s : Sys β) : Op β → Prop
  | .clear => True
  | .alloc kvSeqLen _ => c.AllocFits (kvSeqLen + c.mExpandChunk)
  | .realloc m _ => ReallocFits c s.manager.mPastLength s.manager.mMaxLength m
  | .push _ _ => True

/-- What a call is for: reallocating keeps what was there, except for what it moves, and pushing
stays below the maximal length. -/
def Sys.Keeps (c : Setup) (s s' : Sys β) : Op β → Prop
  | .clear => True
  | .alloc _ _ => True
  | .realloc m _ => KVCache.Keeps c s.manager s'.manager
      (if m.reserve = [] then s.manager.mPastLength else s.manager.mPastLength - m.remove)
  | .push seqLen _ => s.manager.mPastLength + seqLen ≤ s.manager.mMaxLength

/-- The runs whose calls keep to the contract, and satisfy a further condition. -/
def machine [Zero β] (c : Setup) (P : Sys β → Op β → Prop) : Machine (Sys β) (Op β) where
  Allowed s op := s.Contract op ∧ P s op
  step s op := (s.call c op).getD s

/-- The buffers exist once they are allocated, with room for what was granted. -/
def Sys.Inv (c : Setup) (s : Sys β) : Prop :=
  s.allocated = true → Sized c s.manager ∧ s.manager.mPastLength + s.granted ≤ s.manager.mMaxLength

/-- One call. -/
theorem Sys.call_spec [Zero β] {s : Sys β} {op : Op β} (hinv : s.Inv c) (hop : s.Contract op)
    (hfit : s.Fits c op) : ∃ s', s.call c op = some s' ∧ s'.Inv c ∧ s.Keeps c s' op := by
  cases op with
  | clear => exact ⟨{}, rfl, nofun, trivial⟩
  | alloc kvSeqLen fresh =>
    obtain ⟨m, hm, hsized, hpast, hmax⟩ := Manager.onAlloc_spec fresh kvSeqLen hfit
    refine ⟨⟨m, true, kvSeqLen⟩, ?_, fun _ => ⟨hsized, ?_⟩, trivial⟩
    · rw [← show s.manager = Manager.onClear from hop] at hm
      simp only [Sys.call, hm, Option.bind_eq_bind, Option.bind_some]
    · show m.mPastLength + kvSeqLen ≤ m.mMaxLength
      omega
  | realloc m fresh =>
    obtain ⟨hsized, hroom⟩ := hinv hop.1
    obtain ⟨t, ht, hsized', hkeeps, -, hroom'⟩ := onRealloc_spec fresh hsized
      ((Nat.le_add_right _ _).trans hroom) hop.2 hfit
    refine ⟨⟨t, true, m.add⟩, ?_, fun _ => ⟨hsized', hroom'⟩, hkeeps⟩
    simp only [Sys.call, ht, Option.bind_eq_bind, Option.bind_some]
  | push seqLen data =>
    obtain ⟨hsized, hroom⟩ := hinv hop.1
    have hlen : seqLen ≤ s.granted := hop.2
    have hle : s.manager.mPastLength + seqLen ≤ s.manager.mMaxLength := by omega
    obtain ⟨t, ht, hsized', hpast, hmax⟩ := onPushBack_spec data hsized hle
    refine ⟨⟨t, true, s.granted - seqLen⟩, ?_, fun _ => ⟨hsized', ?_⟩, hle⟩
    · simp only [Sys.call, ht, Option.bind_eq_bind, Option.bind_some]
    · show t.mPastLength + (s.granted - seqLen) ≤ t.mMaxLength
      omega

/-- The invariant of the runs. -/
theorem run_inv [Zero β] {ops : List (Op β)} {s : Sys β}
    (hrun : Run (machine c (Sys.Fits c)) {} ops s) : s.Inv c := by
  refine hrun.invariant (I := Sys.Inv c) (fun s op hinv hop => ?_) nofun
  obtain ⟨s', hs', hinv', -⟩ := Sys.call_spec hinv hop.1 hop.2
  show Sys.Inv c ((s.call c op).getD s)
  rw [hs']
  exact hinv'

/-- A cache of one head of two channels, with tiles of two, and at most `40` bytes in memory. -/
def oneHead (int8 : Bool) : Setup where
  mUseInt8Kernel := int8
  mKVCacheSizeLimit := some 40
  mExpandChunk := 1
  lP := 2
  hP := 2
  lP8 := 2
  hP8 := 2
  mBytes := 4
  mKvNumHead := 1
  mHeadDim := 2
  lP_pos := Nat.two_pos
  hP_pos := Nat.two_pos
  lP8_pos := Nat.two_pos
  hP8_pos := Nat.two_pos

/-- Buffers that come with sevens. -/
def sevens : Fresh ℕ := ⟨fun _ => 7, fun _ => 7, fun _ => 7, fun _ => 7, fun _ => 7⟩

/-- What is pushed for the first tokens. -/
def pushed : Manager.Pushed ℕ :=
  ⟨fun _ i _ _ => i + 1, fun _ i _ _ => i + 2, fun _ _ _ => 3, fun _ _ _ => 4, fun _ _ _ => 5⟩

end Mnn.KVCache
