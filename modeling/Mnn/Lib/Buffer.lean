import Mathlib.Data.List.Basic
import Mathlib.Tactic.Ring
import Mathlib.Tactic.Linarith

/-!
# Buffers of bytes

* `Buffer`: a size and the bytes; `memcpy`, `memset`, `write` and `read` fail outside of it;
* `Frame`: what an operation leaves alone;
* `exists_loop`: a loop whose steps succeed, and keep apart what they write, succeeds, and leaves
  what its steps wrote;
* `copyBlocks`: a buffer copied block by block to blocks of another size, `copyBlocks_spec`, and
  what is read of it then, `Spread.read_eq`;
* `shift`: bytes moved inside a buffer, `shift_shift`; `Tiled`: places that repeat tile by tile,
  `Tiled.read_shifted`: what is read where whole tiles were moved in every row.
-/

namespace Lib

/-- A buffer of `size` bytes. -/
@[ext] structure Buffer (β : Type*) where
  size : ℕ
  data : ℕ → β

namespace Buffer

variable {β : Type*}

/-- Copies `n` bytes from `s` on to `d` on. -/
def memcpy (dst : Buffer β) (d : ℕ) (src : Buffer β) (s n : ℕ) : Option (Buffer β) :=
  if d + n ≤ dst.size ∧ s + n ≤ src.size then
    some { dst with
      data := fun a => if d ≤ a ∧ a < d + n then src.data (s + (a - d)) else dst.data a }
  else none

/-- Sets `n` bytes from `d` on. -/
def memset (dst : Buffer β) (d : ℕ) (v : β) (n : ℕ) : Option (Buffer β) :=
  if d + n ≤ dst.size then
    some { dst with data := fun a => if d ≤ a ∧ a < d + n then v else dst.data a }
  else none

/-- Writes the `n` bytes `v 0`, `v 1` and so on from `d` on. -/
def write (dst : Buffer β) (d n : ℕ) (v : ℕ → β) : Option (Buffer β) :=
  if d + n ≤ dst.size then
    some { dst with data := fun a => if d ≤ a ∧ a < d + n then v (a - d) else dst.data a }
  else none

/-- The `n` bytes from `a` on. -/
def read (b : Buffer β) (a n : ℕ) : Option (List β) :=
  if a + n ≤ b.size then some ((List.range n).map fun k => b.data (a + k)) else none

/-- Only the bytes in `P` may differ. -/
structure Frame (P : ℕ → Prop) (b b' : Buffer β) : Prop where
  size : b'.size = b.size
  data : ∀ a, ¬ P a → b'.data a = b.data a

variable {b b' b'' dst src : Buffer β} {P Q : ℕ → Prop}

theorem Frame.refl (P : ℕ → Prop) (b : Buffer β) : Frame P b b := ⟨rfl, fun _ _ => rfl⟩

theorem Frame.trans (h : Frame P b b') (h' : Frame P b' b'') : Frame P b b'' :=
  ⟨h'.size.trans h.size, fun a ha => (h'.data a ha).trans (h.data a ha)⟩

theorem Frame.mono (h : Frame P b b') (hPQ : ∀ a, P a → Q a) : Frame Q b b' :=
  ⟨h.size, fun a ha => h.data a fun hP => ha (hPQ a hP)⟩

/-- What is read outside of the bytes that may differ. -/
theorem Frame.read_eq (h : Frame P b b') {a n : ℕ} (hout : ∀ k < n, ¬ P (a + k)) :
    b'.read a n = b.read a n := by
  have hdata : (List.range n).map (fun k => b'.data (a + k)) =
      (List.range n).map fun k => b.data (a + k) :=
    List.map_congr_left fun k hk => h.data _ (hout k (List.mem_range.1 hk))
  rw [read, read, h.size, hdata]

theorem exists_memcpy (dst src : Buffer β) {d s n : ℕ} (hd : d + n ≤ dst.size)
    (hs : s + n ≤ src.size) :
    ∃ b, dst.memcpy d src s n = some b ∧ Frame (fun a => d ≤ a ∧ a < d + n) dst b ∧
      ∀ x < n, b.data (d + x) = src.data (s + x) := by
  refine ⟨_, if_pos ⟨hd, hs⟩, ⟨rfl, fun a ha => if_neg ha⟩, fun x hx => ?_⟩
  dsimp only
  rw [if_pos ⟨by omega, by omega⟩, Nat.add_sub_cancel_left]

theorem exists_memset (dst : Buffer β) {d n : ℕ} (v : β) (hd : d + n ≤ dst.size) :
    ∃ b, dst.memset d v n = some b ∧ Frame (fun a => d ≤ a ∧ a < d + n) dst b :=
  ⟨_, if_pos hd, rfl, fun _ ha => if_neg ha⟩

theorem exists_write (dst : Buffer β) {d n : ℕ} (v : ℕ → β) (hd : d + n ≤ dst.size) :
    ∃ b, dst.write d n v = some b ∧ Frame (fun a => d ≤ a ∧ a < d + n) dst b :=
  ⟨_, if_pos hd, rfl, fun _ ha => if_neg ha⟩

theorem size_of_write {d n : ℕ} {v : ℕ → β} (h : b.write d n v = some b') : b'.size = b.size := by
  unfold write at h
  split_ifs at h
  cases h
  rfl

theorem exists_write_one (dst : Buffer β) {d : ℕ} (v : β) (hd : d < dst.size) :
    ∃ b, (dst.write d 1 fun _ => v) = some b ∧ Frame (fun a => a = d) dst b ∧ b.data d = v :=
  ⟨_, if_pos hd, ⟨rfl, fun a ha => if_neg fun h => ha (by omega)⟩,
    if_pos ⟨le_rfl, Nat.lt_succ_self d⟩⟩

/-- **The loop rule.**  Step `i` may change the bytes in `P i` and leaves what `C i` says; later
steps keep away from that. -/
theorem exists_loop {f : Buffer β → ℕ → Option (Buffer β)} {size n : ℕ} {P : ℕ → ℕ → Prop}
    {C : ℕ → ℕ → β → Prop}
    (hstep : ∀ i < n, ∀ b : Buffer β, b.size = size → ∃ b', f b i = some b' ∧ Frame (P i) b b' ∧
      ∀ a v, C i a v → b'.data a = v)
    (hapart : ∀ i j, i < j → ∀ a v, C i a v → ¬ P j a) (hb : b.size = size) :
    ∃ b', (List.range n).foldlM f b = some b' ∧ Frame (fun a => ∃ i < n, P i a) b b' ∧
      ∀ i < n, ∀ a v, C i a v → b'.data a = v := by
  induction n with
  | zero => exact ⟨b, rfl, .refl _ _, fun i hi => absurd hi (Nat.not_lt_zero i)⟩
  | succ n ih =>
    obtain ⟨b₁, hf₁, hframe₁, hdata₁⟩ := ih fun i hi => hstep i (Nat.lt_succ_of_lt hi)
    obtain ⟨b₂, hf₂, hframe₂, hdata₂⟩ := hstep n (Nat.lt_succ_self n) b₁ (hframe₁.size.trans hb)
    refine ⟨b₂, ?_, ?_, fun i hi a v hC => ?_⟩
    · rw [List.range_succ, List.foldlM_append, hf₁]
      simp [hf₂]
    · refine (hframe₁.mono ?_).trans (hframe₂.mono fun a ha => ⟨n, Nat.lt_succ_self n, ha⟩)
      rintro a ⟨i, hi, ha⟩
      exact ⟨i, Nat.lt_succ_of_lt hi, ha⟩
    · rcases Nat.lt_succ_iff_lt_or_eq.1 hi with hi | rfl
      · rw [hframe₂.data a (hapart i n hi a v hC), hdata₁ i hi a v hC]
      · exact hdata₂ a v hC

/-- The loop rule without contents. -/
theorem exists_loop_frame {f : Buffer β → ℕ → Option (Buffer β)} {size n : ℕ} {P : ℕ → Prop}
    (hstep : ∀ i < n, ∀ b : Buffer β, b.size = size → ∃ b', f b i = some b' ∧ Frame P b b')
    (hb : b.size = size) : ∃ b', (List.range n).foldlM f b = some b' ∧ Frame P b b' := by
  obtain ⟨b', hf, hframe, -⟩ := exists_loop (P := fun _ => P) (C := fun _ _ _ => False)
    (fun i hi b hb => by
      obtain ⟨b', h⟩ := hstep i hi b hb
      exact ⟨b', h.1, h.2, fun _ _ h => h.elim⟩) (fun _ _ _ _ _ h => h.elim) hb
  exact ⟨b', hf, hframe.mono fun _ ⟨_, _, ha⟩ => ha⟩

/-! ### Blocks of another size -/

/-- Copies `count` blocks of `s` bytes to the beginnings of blocks of `d` bytes; with `clear`, the
rest of each block is set. -/
def copyBlocks [Zero β] (clear : Bool) (count d s : ℕ) (src dst : Buffer β) : Option (Buffer β) :=
  (List.range count).foldlM (fun dst h => do
    let dst ← dst.memcpy (h * d) src (h * s) s
    if clear then dst.memset (h * d + s) 0 (d - s) else some dst) dst

theorem block_le {i count n : ℕ} (hi : i < count) : i * n + n ≤ count * n := by
  have := Nat.mul_le_mul_right n hi
  rwa [Nat.succ_mul] at this

/-- The blocks of `s` bytes of `b` are the beginnings of the blocks of `d` bytes of `b'`. -/
structure Spread (count d s : ℕ) (b b' : Buffer β) : Prop where
  le : s ≤ d
  src : count * s ≤ b.size
  dst : count * d ≤ b'.size
  data : ∀ i < count, ∀ x < s, b'.data (i * d + x) = b.data (i * s + x)

/-- What lies inside a block is read back. -/
theorem Spread.read_eq {count d s i x n : ℕ} (h : Spread count d s b b') (hi : i < count)
    (hx : x + n ≤ s) : b'.read (i * d + x) n = b.read (i * s + x) n := by
  have hle := h.le
  have hsrc := h.src
  have hdst := h.dst
  have hs := block_le (n := s) hi
  have hd := block_le (n := d) hi
  have hdata : (List.range n).map (fun k => b'.data (i * d + x + k)) =
      (List.range n).map fun k => b.data (i * s + x + k) :=
    List.map_congr_left fun k hk => by
      have := List.mem_range.1 hk
      rw [Nat.add_assoc, Nat.add_assoc, h.data i hi _ (by omega)]
  rw [read, read, if_pos (by omega), if_pos (by omega), hdata]

/-- Another buffer with the same blocks. -/
theorem Spread.congr {count d s : ℕ} (h : Spread count d s b b') (hsrc : count * s ≤ b''.size)
    (hdata : ∀ x < count * s, b.data x = b''.data x) : Spread count d s b'' b' := by
  refine ⟨h.le, hsrc, h.dst, fun i hi x hx => ?_⟩
  have := block_le (n := s) hi
  rw [h.data i hi x hx, hdata _ (by omega)]

theorem copyBlocks_spec [Zero β] (clear : Bool) (src dst : Buffer β) {count d s : ℕ} (hds : s ≤ d)
    (hdst : count * d ≤ dst.size) (hsrc : count * s ≤ src.size) :
    ∃ b, copyBlocks clear count d s src dst = some b ∧ b.size = dst.size ∧
      Spread count d s src b := by
  have hstep : ∀ i < count, ∀ b : Buffer β, b.size = dst.size → ∃ b',
      (do
        let dst ← b.memcpy (i * d) src (i * s) s
        if clear then dst.memset (i * d + s) 0 (d - s) else some dst) = some b' ∧
      Frame (fun a => i * d ≤ a ∧ a < i * d + d) b b' ∧
      ∀ a v, (∃ x < s, a = i * d + x ∧ v = src.data (i * s + x)) → b'.data a = v := by
    intro i hi b hb
    have h1 := block_le (n := d) hi
    have h2 := block_le (n := s) hi
    obtain ⟨b₁, hf₁, hframe₁, hdata₁⟩ := exists_memcpy b src (d := i * d) (s := i * s) (n := s)
      (by omega) (by omega)
    cases clear with
    | false =>
      refine ⟨b₁, by simp [hf₁], hframe₁.mono fun a ha => ⟨ha.1, by omega⟩, ?_⟩
      rintro a v ⟨x, hx, rfl, rfl⟩
      exact hdata₁ x hx
    | true =>
      obtain ⟨b₂, hf₂, hframe₂⟩ := exists_memset b₁ (d := i * d + s) (n := d - s) 0
        (by rw [hframe₁.size]; omega)
      refine ⟨b₂, by simp [hf₁, hf₂], (hframe₁.mono fun a ha => ⟨ha.1, by omega⟩).trans
        (hframe₂.mono fun a ha => ⟨by omega, by omega⟩), ?_⟩
      rintro a v ⟨x, hx, rfl, rfl⟩
      rw [hframe₂.data _ (by omega), hdata₁ x hx]
  obtain ⟨b, hf, hframe, hdata⟩ := exists_loop hstep (by
    rintro i j hij a v ⟨x, hx, rfl, -⟩ ⟨hle, -⟩
    have := block_le (n := d) hij
    omega) (rfl : dst.size = dst.size)
  exact ⟨b, hf, hframe.size, hds, hsrc, by rw [hframe.size]; exact hdst,
    fun i hi x hx => hdata i hi _ _ ⟨x, hx, rfl, rfl⟩⟩

/-! ### Moving inside a buffer -/

/-- `n` bytes from `s` on, moved to `d`. -/
def shift (d s n : ℕ) (b : Buffer β) : Buffer β :=
  { b with data := fun a => if d ≤ a ∧ a < d + n then b.data (s + (a - d)) else b.data a }

theorem memcpy_self {d s n : ℕ} (hd : d + n ≤ b.size) (hs : s + n ≤ b.size) :
    b.memcpy d b s n = some (b.shift d s n) := if_pos ⟨hd, hs⟩

theorem shift_zero (d s : ℕ) (b : Buffer β) : b.shift d s 0 = b := by
  have hdata : (b.shift d s 0).data = b.data := by
    funext a
    exact if_neg fun h => by omega
  exact Buffer.ext rfl hdata

/-- Towards the beginning, what comes next is not written yet. -/
theorem shift_shift {d s : ℕ} (hds : d ≤ s) (m n : ℕ) (b : Buffer β) :
    (b.shift d s m).shift (d + m) (s + m) n = b.shift d s (m + n) := by
  have hdata : ((b.shift d s m).shift (d + m) (s + m) n).data = (b.shift d s (m + n)).data := by
    funext a
    simp only [shift]
    by_cases hnew : d + m ≤ a ∧ a < d + m + n
    · rw [if_pos hnew, if_neg (by omega), if_pos (by omega)]
      congr 1
      omega
    · rw [if_neg hnew]
      by_cases hold : d ≤ a ∧ a < d + m
      · rw [if_pos hold, if_pos (by omega)]
      · rw [if_neg hold, if_neg (by omega)]
  exact Buffer.ext rfl hdata

/-- `n` bytes were moved in each of `count` rows. -/
structure Shifted (count stride d s n : ℕ) (b b' : Buffer β) : Prop where
  size : b'.size = b.size
  row : ∀ i < count, s + i * stride + n ≤ b.size
  before : ∀ i < count, ∀ x < stride, x < d ∨ d + n ≤ x →
    b'.data (i * stride + x) = b.data (i * stride + x)
  inside : ∀ i < count, ∀ x < n, b'.data (i * stride + (d + x)) = b.data (i * stride + (s + x))

/-- Places with `w` bytes each that repeat every `h` positions, `h * u` bytes later. -/
structure Tiled (h u w : ℕ) (place : ℕ → ℕ) : Prop where
  next : ∀ q k, place (q * h + k) = q * h * u + place k
  tile : ∀ k < h, place k + w ≤ h * u

namespace Tiled

variable {h u w : ℕ} {place : ℕ → ℕ}

theorem place_add (ht : Tiled h u w place) {m : ℕ} (hm : h ∣ m) (k : ℕ) :
    place (m + k) = m * u + place k := by
  obtain ⟨q, rfl⟩ := hm
  rw [Nat.mul_comm h q, ht.next]

/-- Positions before a multiple are placed before it. -/
theorem place_le (ht : Tiled h u w place) (hh : 0 < h) {m : ℕ} (hm : h ∣ m) {pos : ℕ}
    (hpos : pos < m) : place pos + w ≤ m * u := by
  obtain ⟨q, rfl⟩ := hm
  have hdiv : pos / h < q := (Nat.div_lt_iff_lt_mul hh).2 (by rwa [Nat.mul_comm])
  have htile := ht.tile (pos % h) (Nat.mod_lt pos hh)
  have hplace : place pos = pos / h * h * u + place (pos % h) := by
    rw [← ht.next, Nat.mul_comm, Nat.div_add_mod]
  have hblock := block_le (n := h * u) hdiv
  rw [← Nat.mul_assoc, ← Nat.mul_assoc] at hblock
  rw [Nat.mul_comm h q]
  omega

theorem le_place (ht : Tiled h u w place) {m : ℕ} (hm : h ∣ m) {pos : ℕ} (hpos : m ≤ pos) :
    m * u ≤ place pos := by
  have hadd := ht.place_add hm (pos - m)
  rw [Nat.add_sub_cancel' hpos] at hadd
  omega

/-- **Whole tiles were moved in every row.** -/
theorem read_shifted (ht : Tiled h u w place) (hh : 0 < h) {count stride dst src n : ℕ}
    (hdst : h ∣ dst) (hsrc : h ∣ src) (hn : h ∣ n) (hds : dst ≤ src)
    (hs : Shifted count stride (dst * u) (src * u) (n * u) b b') {i : ℕ} (hi : i < count) :
    (∀ pos, place pos + w ≤ stride → pos < dst ∨ dst + n ≤ pos →
      b'.read (i * stride + place pos) w = b.read (i * stride + place pos) w) ∧
    ∀ k < n, place (dst + k) + w ≤ stride →
      b'.read (i * stride + place (dst + k)) w = b.read (i * stride + place (src + k)) w := by
  constructor
  · intro pos hpos hout
    have hdata : ∀ x < w, b'.data (i * stride + place pos + x) =
        b.data (i * stride + place pos + x) := by
      intro x hx
      rw [Nat.add_assoc]
      refine hs.before i hi _ (by omega) ?_
      rcases hout with hlt | hle
      · have := ht.place_le hh hdst hlt
        exact .inl (by omega)
      · have := ht.le_place ((Nat.dvd_add_right hdst).2 hn) hle
        rw [Nat.add_mul] at this
        exact .inr (by omega)
    rw [read, read, hs.size]
    split_ifs
    · exact congrArg some (List.map_congr_left fun x hx => hdata x (List.mem_range.1 hx))
    · rfl
  · intro k hk hpos
    have hle := ht.place_le hh hn hk
    have hrow := hs.row i hi
    rw [ht.place_add hdst] at hpos ⊢
    rw [ht.place_add hsrc]
    have hdata : ∀ x < w, b'.data (i * stride + (dst * u + place k) + x) =
        b.data (i * stride + (src * u + place k) + x) := by
      intro x hx
      rw [Nat.add_assoc, Nat.add_assoc, Nat.add_assoc, Nat.add_assoc]
      exact hs.inside i hi _ (by omega)
    have hu := Nat.mul_le_mul_right u hds
    rw [read, read, hs.size, if_pos (by omega), if_pos (by omega)]
    exact congrArg some (List.map_congr_left fun x hx => hdata x (List.mem_range.1 hx))

end Tiled

end Buffer

end Lib
