import Mnn.Core.KVMeta
import Mnn.Lib.Buffer
import Mnn.Lib.Run

/-!
# `KVCacheManager`

The cache of keys and values of an attention layer, `source/backend/cpu/KVCacheManager.hpp` and
`.cpp`.  The buffers hold packed tiles and are allocated in memory, or, above a size limit, in files
that are mapped into memory.

* `KVCacheConfig`, `Setup`, `Manager`: the options, the sizes that `onResize` stores, and the state;
* `keyAddress`, `valueAddress`, `scaleAddress`: where an entry is, in the layout of each format;
* `onAlloc`, `expandKVCacheInMem`, `moveKVCacheFromMemToDisk`, `expandKVCacheInDisk`, `onRealloc`,
  `onClear`, `onPushBack`: the calls; none where one uses a buffer that does not exist, or bytes
  outside of one;
* `readKey`, `readValue`, `readScale`, `readZeroPoint`, `readSum`: reading an entry back.

Lengths and addresses are natural numbers; the sizes that `expandKVCacheInDisk` takes as `int` are
cut down to 32 bits.  The numbers that the kernels make of a row of keys or values are given.
-/

namespace Mnn.KVCache

open Lib

/-- `KVCacheManager::KVCacheConfig`, without the directory; no limit is `-1`. -/
structure KVCacheConfig where
  mQuantKey : Bool := false
  mQuantValue : Bool := false
  mUseInt8Kernel : Bool := false
  mKVCacheSizeLimit : Option ℕ := none
  mExpandChunk : ℕ := 64

/-- The options and what `onResize` stores: the packing modes, the bytes of a number, the heads.
The packs are divisors, and positive. -/
structure Setup extends KVCacheConfig where
  lP : ℕ
  hP : ℕ
  lP8 : ℕ
  hP8 : ℕ
  mBytes : ℕ
  mKvNumHead : ℕ
  mHeadDim : ℕ
  lP_pos : 0 < lP
  hP_pos : 0 < hP
  lP8_pos : 0 < lP8
  hP8_pos : 0 < hP8

/-- `UP_DIV`. -/
def upDiv (x y : ℕ) : ℕ := (x + y - 1) / y

/-- `ROUND_UP`. -/
def roundUp (x y : ℕ) : ℕ := upDiv x y * y

namespace Setup

variable (c : Setup)

/-! ### Sizes and addresses -/

/-- The elements of a head of `mPastKey`. -/
def keyElements (max : ℕ) : ℕ :=
  if c.mUseInt8Kernel then upDiv max c.hP8 * (upDiv c.mHeadDim c.lP8 * (c.hP8 * c.lP8))
  else upDiv max c.hP * (upDiv c.mHeadDim c.lP * (c.hP * c.lP))

/-- The bytes of an element of `mPastKey`. -/
def keyWidth : ℕ := if c.mUseInt8Kernel || c.mQuantKey then 1 else c.mBytes

/-- The bytes of a head of `mPastKey`. -/
def keyStride (max : ℕ) : ℕ := c.keyElements max * c.keyWidth

/-- The elements of a row of `mPastValue`: `hP` channels of a head. -/
def valueElements (max : ℕ) : ℕ := upDiv max c.lP * (c.hP * c.lP)

def valueWidth : ℕ := if c.mQuantValue then 1 else c.mBytes

def valueStride (max : ℕ) : ℕ := c.valueElements max * c.valueWidth

/-- The rows of `mPastValue`. -/
def valueRows : ℕ := c.mKvNumHead * upDiv c.mHeadDim c.hP

/-- `keySize` and `valueSize`, in the order of factors of the strides. -/
def keySize (max : ℕ) : ℕ := c.mKvNumHead * c.keyStride max

def valueSize (max : ℕ) : ℕ := c.valueRows * c.valueStride max

/-- The bytes of an element of `mKeyScale`, `mKeyZeroPoint` and `mKeySum`. -/
def scaleWidth : ℕ := if c.mUseInt8Kernel then 4 else c.mBytes

/-- The tile length of the keys. -/
def keyTile : ℕ := if c.mUseInt8Kernel then c.hP8 else c.hP

def scaleStride (max : ℕ) : ℕ := upDiv max c.keyTile * c.keyTile * c.scaleWidth

def scaleSize (max : ℕ) : ℕ := c.mKvNumHead * c.scaleStride max

/-- Where `pack_key` puts channel `d` of a position, counted from `addrOfKey`. -/
def keyOffset (pos d : ℕ) : ℕ :=
  if c.mUseInt8Kernel then
    -- [maxlen/hP8, headdim/lP8, hP8, lP8]
    pos / c.hP8 * (upDiv c.mHeadDim c.lP8 * (c.hP8 * c.lP8)) +
      (d / c.lP8 * (c.hP8 * c.lP8) + (pos % c.hP8 * c.lP8 + d % c.lP8))
  else if c.mQuantKey then
    -- [maxlen/hP, headdim, hP]
    pos / c.hP * (c.mHeadDim * c.hP) + (d * c.hP + pos % c.hP)
  else
    -- [maxlen/hP, headdim/lP, hP, lP]
    (pos / c.hP * (upDiv c.mHeadDim c.lP * (c.hP * c.lP)) +
      (d / c.lP * (c.hP * c.lP) + (pos % c.hP * c.lP + d % c.lP))) * c.mBytes

/-- `addrOfKey(kv_h)` and the place of an entry after it. -/
def keyAddress (max h pos d : ℕ) : ℕ := h * c.keyStride max + c.keyOffset pos d

/-- `addrOfValue(kv_h)` and the place where `pack_value` puts an entry after it. -/
def valueAddress (max h pos d : ℕ) : ℕ :=
  if c.mQuantValue then
    h * (upDiv c.mHeadDim c.hP * c.valueStride max) +
      (d / c.hP * (max * c.hP) + (pos * c.hP + d % c.hP))
  else
    -- [mHeadDim/hP, mMaxLength/lP, hP, lP]
    (h * upDiv c.mHeadDim c.hP + d / c.hP) * c.valueStride max +
      (pos / c.lP * (c.hP * c.lP) + (d % c.hP * c.lP + pos % c.lP)) * c.mBytes

/-- `addrOfScale(kv_h)` and the place of an entry after it; the same for zero points and sums. -/
def scaleAddress (max h pos : ℕ) : ℕ :=
  h * c.scaleStride max + (pos / c.keyTile * c.keyTile + pos % c.keyTile) * c.scaleWidth

end Setup

/-! ### The state -/

variable {β : Type*}

/-- The members of `KVCacheManager`.  The files are there while they exist, with their contents;
`mapped` says whether the addresses `mMapKeyAddr` and `mMapValueAddr` are set. -/
structure Manager (β : Type*) where
  mPastKey : Option (Buffer β) := none
  mPastValue : Option (Buffer β) := none
  mKeyScale : Option (Buffer β) := none
  mKeyZeroPoint : Option (Buffer β) := none
  mKeySum : Option (Buffer β) := none
  mKeyCacheFD : Option (Buffer β) := none
  mValueCacheFD : Option (Buffer β) := none
  mapped : Bool := false
  mKVCacheInDisk : Bool := false
  mPastLength : ℕ := 0
  mMaxLength : ℕ := 0

namespace Manager

variable (c : Setup) (s : Manager β)

/-- The mapped file of keys. -/
def mMapKeyAddr : Option (Buffer β) := if s.mapped then s.mKeyCacheFD else none

def mMapValueAddr : Option (Buffer β) := if s.mapped then s.mValueCacheFD else none

/-- `keyAddr`. -/
def keyAddr : Option (Buffer β) := if s.mKVCacheInDisk then s.mMapKeyAddr else s.mPastKey

/-- `valudAddr`. -/
def valudAddr : Option (Buffer β) := if s.mKVCacheInDisk then s.mMapValueAddr else s.mPastValue

/-! ### Reading an entry -/

/-- The bytes of channel `d` of the key at a position, for a head. -/
def readKey (h pos d : ℕ) : Option (List β) := do
  let b ← s.keyAddr
  b.read (c.keyAddress s.mMaxLength h pos d) c.keyWidth

def readValue (h pos d : ℕ) : Option (List β) := do
  let b ← s.valudAddr
  b.read (c.valueAddress s.mMaxLength h pos d) c.valueWidth

/-- Reading from `mKeyScale`, `mKeyZeroPoint` or `mKeySum`. -/
def readFrom (buffer : Option (Buffer β)) (h pos : ℕ) : Option (List β) := do
  let b ← buffer
  b.read (c.scaleAddress s.mMaxLength h pos) c.scaleWidth

def readScale (h pos : ℕ) : Option (List β) :=
  if c.mUseInt8Kernel || c.mQuantKey then s.readFrom c s.mKeyScale h pos else none

def readZeroPoint (h pos : ℕ) : Option (List β) :=
  if c.mUseInt8Kernel || c.mQuantKey then s.readFrom c s.mKeyZeroPoint h pos else none

def readSum (h pos : ℕ) : Option (List β) :=
  if c.mUseInt8Kernel then s.readFrom c s.mKeySum h pos else none

end Manager

/-! ### Files -/

/-- `MNNSetFileSize`: the file keeps what fits and is filled with zeros; `off_t` has 64 bits. -/
def setFileSize [Zero β] (file : Buffer β) (n : ℕ) : Option (Buffer β) :=
  if n < 2 ^ 63 then some ⟨n, fun a => if a < file.size then file.data a else 0⟩ else none

/-- A `size_t` that went through an `int`. -/
def throughInt (n : ℕ) : ℕ :=
  if n % 2 ^ 32 < 2 ^ 31 then n % 2 ^ 32 else 2 ^ 64 - 2 ^ 32 + n % 2 ^ 32

/-- The buffers that the backend acquires come with any content. -/
structure Fresh (β : Type*) where
  key : ℕ → β
  value : ℕ → β
  scale : ℕ → β
  zeroPoint : ℕ → β
  sum : ℕ → β

/-- `memset` under a condition. -/
def clearIf [Zero β] (cond : Bool) (n : ℕ) (b : Buffer β) : Option (Buffer β) :=
  if cond then b.memset 0 0 n else some b

namespace Manager

variable [Zero β] (c : Setup) (fresh : Fresh β) (s : Manager β)

/-- `createKVCacheFile`, `resetKVCacheFileSize` and `mmapKVCache`. -/
def createFiles (keySize valueSize : ℕ) : Option (Manager β) := do
  let key ← setFileSize ⟨0, fun _ => 0⟩ keySize
  let value ← setFileSize ⟨0, fun _ => 0⟩ valueSize
  some { s with mKeyCacheFD := some key, mValueCacheFD := some value, mapped := true }

/-- Whether `keySize + valueSize` is over the limit. -/
def overLimit (max : ℕ) : Bool :=
  match c.mKVCacheSizeLimit with
  | none => false
  | some limit => limit < c.keySize max + c.valueSize max

/-- The part of `onAlloc` for a cache in memory. -/
def allocInMem (max : ℕ) : Option (Manager β) := do
  -- these two count an element as `mBytes` bytes in every format
  let key ← clearIf (c.mHeadDim % c.lP ≠ 0) (c.mKvNumHead * c.keyElements max * c.mBytes)
    ⟨c.keySize max, fresh.key⟩
  let value ← clearIf (1 < c.lP) (c.valueRows * c.valueElements max * c.mBytes)
    ⟨c.valueSize max, fresh.value⟩
  some { s with mPastKey := some key, mPastValue := some value }

/-- The part of `onAlloc` for scales, zero points and sums. -/
def allocScales (max : ℕ) : Manager β :=
  if c.mUseInt8Kernel then
    { s with
      mKeyScale := some ⟨c.scaleSize max, fresh.scale⟩
      mKeyZeroPoint := some ⟨c.scaleSize max, fresh.zeroPoint⟩
      mKeySum := some ⟨c.scaleSize max, fresh.sum⟩ }
  else if c.mQuantKey then
    { s with
      mKeyScale := some ⟨c.scaleSize max, fresh.scale⟩
      mKeyZeroPoint := some ⟨c.scaleSize max, fresh.zeroPoint⟩ }
  else s

/-- The part of `onAlloc` for keys and values: in files above the limit, or in memory. -/
def allocBuffers (max : ℕ) : Option (Manager β) :=
  if overLimit c max then do
    let s ← s.createFiles (c.keySize max) (c.valueSize max)
    some { s with mKVCacheInDisk := true }
  else s.allocInMem c fresh max

/-- `onAlloc`. -/
def onAlloc (kvSeqLen : ℕ) : Option (Manager β) := do
  let max := kvSeqLen + c.mExpandChunk
  let s := { s with mMaxLength := max }
  let s ← s.allocBuffers c fresh max
  some (s.allocScales c fresh max)

/-! ### Growing -/

/-- `expandKVCacheInMem`. -/
def expandKVCacheInMem (oldMax : ℕ) : Option (Manager β) := do
  let max := s.mMaxLength
  let oldKey ← s.mPastKey
  let key ← Buffer.copyBlocks (!c.mUseInt8Kernel && !c.mQuantKey) c.mKvNumHead (c.keyStride max)
    (c.keyStride oldMax) oldKey ⟨c.keySize max, fresh.key⟩
  let oldValue ← s.mPastValue
  let value ← Buffer.copyBlocks (!c.mQuantValue) c.valueRows (c.valueStride max)
    (c.valueStride oldMax) oldValue ⟨c.valueSize max, fresh.value⟩
  some { s with mPastKey := some key, mPastValue := some value }

/-- The copy of the keys in `moveKVCacheFromMemToDisk`, which ends with `mPastKey.reset()`. -/
def moveKey (clear : Bool) (oldMax : ℕ) : Option (Manager β) := do
  let max := s.mMaxLength
  let file ← s.mMapKeyAddr
  let file ← clearIf clear (c.mKvNumHead * c.keyElements max * c.mBytes) file
  let key ← s.mPastKey
  let file ← Buffer.copyBlocks false c.mKvNumHead (c.keyStride max) (c.keyStride oldMax) key file
  some { s with mKeyCacheFD := some file, mPastKey := none }

/-- The copy of the values. -/
def moveValue (oldMax : ℕ) : Option (Manager β) := do
  let max := s.mMaxLength
  let file ← s.mMapValueAddr
  let file ← clearIf (!c.mQuantValue && 1 < c.lP) (c.valueRows * c.valueElements max * c.mBytes)
    file
  let value ← s.mPastValue
  let file ← Buffer.copyBlocks false c.valueRows (c.valueStride max) (c.valueStride oldMax) value
    file
  some { s with mValueCacheFD := some file, mPastValue := none }

/-- `moveKVCacheFromMemToDisk`: the keys of the int8 kernel are moved, and then those of one of the
two other formats. -/
def moveKVCacheFromMemToDisk (oldMax : ℕ) : Option (Manager β) := do
  let s ← if c.mUseInt8Kernel then s.moveKey c false oldMax else some s
  let s ← if c.mQuantKey then s.moveKey c false oldMax
    else s.moveKey c (c.mHeadDim % c.lP ≠ 0) oldMax
  s.moveValue c oldMax

/-- `expandKVCacheInDisk`. -/
def expandKVCacheInDisk (oldMax oldKeySize oldValueSize keySize valueSize : ℕ) :
    Option (Manager β) := do
  let max := s.mMaxLength
  -- Step 1: Copy the old kvcache from files to temporary buffers in memory
  let oldKey ← clearIf (c.mHeadDim % c.lP ≠ 0) (c.mKvNumHead * c.keyElements oldMax * c.mBytes)
    ⟨c.keySize oldMax, fresh.key⟩
  let oldValue ← clearIf (1 < c.lP) (c.valueRows * c.valueElements oldMax * c.mBytes)
    ⟨c.valueSize oldMax, fresh.value⟩
  let keyFile ← s.mMapKeyAddr
  let valueFile ← s.mMapValueAddr
  let oldKey ← oldKey.memcpy 0 keyFile 0 (throughInt oldKeySize)
  let oldValue ← oldValue.memcpy 0 valueFile 0 (throughInt oldValueSize)
  -- Step 2: Resize the kvcache files and remap them
  let keyFile ← setFileSize keyFile (throughInt keySize)
  let valueFile ← setFileSize valueFile (throughInt valueSize)
  -- Step 3: Move the kvcache from temporary buffers in memory to disk
  let keyFile ← Buffer.copyBlocks false c.mKvNumHead (c.keyStride max) (c.keyStride oldMax) oldKey
    keyFile
  let valueFile ← Buffer.copyBlocks false c.valueRows (c.valueStride max) (c.valueStride oldMax)
    oldValue valueFile
  some { s with mKeyCacheFD := some keyFile, mValueCacheFD := some valueFile }

/-- A buffer of scales, zero points or sums is copied to a new one. -/
def expandScale (oldMax : ℕ) (content : ℕ → β) (old : Option (Buffer β)) :
    Option (Option (Buffer β)) := do
  let b ← old
  let b ← Buffer.copyBlocks false c.mKvNumHead (c.scaleStride s.mMaxLength) (c.scaleStride oldMax) b
    ⟨c.scaleSize s.mMaxLength, content⟩
  some (some b)

/-- No matter where is the kvcache, the scales and zero points are always in memory. -/
def expandScales (oldMax : ℕ) : Option (Manager β) :=
  if c.mUseInt8Kernel then do
    let scale ← s.expandScale c oldMax fresh.scale s.mKeyScale
    let zeroPoint ← s.expandScale c oldMax fresh.zeroPoint s.mKeyZeroPoint
    let sum ← s.expandScale c oldMax fresh.sum s.mKeySum
    some { s with mKeyScale := scale, mKeyZeroPoint := zeroPoint, mKeySum := sum }
  else if c.mQuantKey then do
    let scale ← s.expandScale c oldMax fresh.scale s.mKeyScale
    let zeroPoint ← s.expandScale c oldMax fresh.zeroPoint s.mKeyZeroPoint
    some { s with mKeyScale := scale, mKeyZeroPoint := zeroPoint }
  else some s

/-- The three moves of `onRealloc`. -/
def moveBuffers (oldMax : ℕ) : Option (Manager β) :=
  let max := s.mMaxLength
  if !overLimit c max then
    -- Last time the kvcache is memory, now it should be in memory too
    s.expandKVCacheInMem c fresh oldMax
  else if !overLimit c oldMax then do
    -- Last time the kvcache is in memory, but now it should be moved to disk
    let s ← s.createFiles (c.keySize max) (c.valueSize max)
    let s ← s.moveKVCacheFromMemToDisk c oldMax
    some { s with mKVCacheInDisk := true }
  else
    -- Last time the kvcache is disk, now it should be in disk too
    s.expandKVCacheInDisk c fresh oldMax (c.keySize oldMax) (c.valueSize oldMax) (c.keySize max)
      (c.valueSize max)

/-- The first part of `onRealloc`, where the buffers are too small. -/
def grow (kvSeqLen : ℕ) : Option (Manager β) := do
  let oldMax := s.mMaxLength
  let max := kvSeqLen + c.mExpandChunk
  let s := { s with mMaxLength := max }
  let s ← s.moveBuffers c fresh oldMax
  s.expandScales c fresh oldMax

/-! ### Reserved ranges -/

/-- `memcpy` inside one buffer. -/
def copyInside (dst src n : ℕ) (b : Buffer β) : Option (Buffer β) := b.memcpy dst b src n

/-- The loops that move a range: `count` rows of `stride` bytes, `sizeUnit` tiles of `unit`
bytes. -/
def moveTiles (count stride dst src unit sizeUnit : ℕ) (b : Buffer β) : Option (Buffer β) :=
  (List.range count).foldlM (fun b i => (List.range sizeUnit).foldlM (fun b j =>
    copyInside (dst + i * stride + j * unit) (src + i * stride + j * unit) unit b) b) b

/-- The members after the buffers in use were changed. -/
def setBuffers (key value : Buffer β) : Manager β :=
  if s.mKVCacheInDisk then { s with mKeyCacheFD := some key, mValueCacheFD := some value }
  else { s with mPastKey := some key, mPastValue := some value }

/-- The variables of the loop over the reserved ranges. -/
structure Moving (β : Type*) where
  manager : Manager β
  dstStart : ℕ
  lastValidSrcEnd : ℕ

/-- One range of the loop. -/
def moveReserve (start : ℕ) (m : Moving β) (r : ℕ × ℕ) : Option (Moving β) := do
  let s := m.manager
  let align := c.hP
  let lastEndAlign := upDiv m.lastValidSrcEnd align * align
  let startAlign := (r.1 + start) / align * align
  let stop := r.1 + start + r.2
  if startAlign ≤ lastEndAlign then
    -- Fullly reserve
    some ⟨s, m.dstStart + r.2, stop⟩
  else
    let sizeUnit := (upDiv stop align * align - startAlign) / align
    let dstStartAlign := upDiv m.dstStart align * align
    -- TODO: Support Quant
    let row := roundUp c.mHeadDim c.lP * c.mBytes
    let key ← s.keyAddr
    let key ← moveTiles c.mKvNumHead (upDiv s.mMaxLength align * align * row) (dstStartAlign * row)
      (startAlign * row) (align * row) sizeUnit key
    let value ← s.valudAddr
    let value ← moveTiles c.valueRows (roundUp s.mMaxLength c.lP * align * c.mBytes)
      (dstStartAlign * align * c.mBytes) (startAlign * align * c.mBytes)
      (align * align * c.mBytes) sizeUnit value
    some ⟨s.setBuffers key value, m.dstStart + r.2, stop⟩

/-- `kv_seq_len` of `onRealloc`. -/
def kvSeqLen (m : KVMeta) : ℕ :=
  ((m.previous + m.add - m.remove : ℕ) + m.computeReverseSize).toNat

/-- `onRealloc`. -/
def onRealloc (m : KVMeta) : Option (Manager β) := do
  let s ← if s.mMaxLength < kvSeqLen m then s.grow c fresh (kvSeqLen m) else some s
  let start := s.mPastLength - m.remove
  let moving ← m.reserve.foldlM (moveReserve c start) ⟨s, start, start⟩
  some { moving.manager with mPastLength := moving.dstStart }

/-- `onClear`. -/
def onClear : Manager β := {}

/-! ### Pushing -/

/-- What the kernels make of the new keys and values: the bytes of each number, for a head and a
row. -/
structure Pushed (β : Type*) where
  key : ℕ → ℕ → ℕ → ℕ → β
  value : ℕ → ℕ → ℕ → ℕ → β
  scale : ℕ → ℕ → ℕ → β
  zeroPoint : ℕ → ℕ → ℕ → β
  sum : ℕ → ℕ → ℕ → β

/-- The writes of `pack_key` or `pack_value` for all heads, rows and channels. -/
def packChannels (seqLen width : ℕ) (address : ℕ → ℕ → ℕ → ℕ) (bytes : ℕ → ℕ → ℕ → ℕ → β)
    (b : Buffer β) : Option (Buffer β) :=
  (List.range c.mKvNumHead).foldlM (fun b h => (List.range seqLen).foldlM (fun b i =>
    (List.range c.mHeadDim).foldlM (fun b d =>
      b.write (address h (s.mPastLength + i) d) width (bytes h i d)) b) b) b

/-- The writes of `pack_key` to `mKeyScale`, `mKeyZeroPoint` or `mKeySum`. -/
def packRows (seqLen : ℕ) (bytes : ℕ → ℕ → ℕ → β) (b : Option (Buffer β)) :
    Option (Option (Buffer β)) := do
  let b ← b
  let b ← (List.range c.mKvNumHead).foldlM (fun b h => (List.range seqLen).foldlM (fun b i =>
    b.write (c.scaleAddress s.mMaxLength h (s.mPastLength + i)) c.scaleWidth (bytes h i)) b) b
  some (some b)

/-- The writes of `pack_key` beside the keys. -/
def packScales (seqLen : ℕ) (data : Pushed β) : Option (Manager β) :=
  if c.mUseInt8Kernel then do
    let scale ← s.packRows c seqLen data.scale s.mKeyScale
    let zeroPoint ← s.packRows c seqLen data.zeroPoint s.mKeyZeroPoint
    let sum ← s.packRows c seqLen data.sum s.mKeySum
    some { s with mKeyScale := scale, mKeyZeroPoint := zeroPoint, mKeySum := sum }
  else if c.mQuantKey then do
    let scale ← s.packRows c seqLen data.scale s.mKeyScale
    let zeroPoint ← s.packRows c seqLen data.zeroPoint s.mKeyZeroPoint
    some { s with mKeyScale := scale, mKeyZeroPoint := zeroPoint }
  else some s

/-- `onPushBack`. -/
def onPushBack (seqLen : ℕ) (data : Pushed β) : Option (Manager β) := do
  let key ← s.keyAddr
  let key ← s.packChannels c seqLen c.keyWidth (c.keyAddress s.mMaxLength) data.key key
  let value ← s.valudAddr
  let value ← s.packChannels c seqLen c.valueWidth (c.valueAddress s.mMaxLength) data.value value
  let s ← s.packScales c seqLen data
  let s := s.setBuffers key value
  some { s with mPastLength := s.mPastLength + seqLen }

end Manager

end Mnn.KVCache
