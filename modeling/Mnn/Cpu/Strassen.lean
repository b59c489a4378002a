import Mathlib.Algebra.BigOperators.Intervals
import Mathlib.Algebra.BigOperators.Ring.Finset
import Mathlib.Data.List.ProdSigma
import Mathlib.Tactic
import Mnn.Lib.Footprint

/-!
# Strassen's multiplication: the program

`StrassenMatrixComputor` (`source/backend/cpu/compute/StrassenMatmulComputor.cpp`).  `onEncode`
makes a list of functions over a stack of buffers, which `onExecute` calls one after the other; here
the functions are data.  Offsets and strides are in elements, which are of a commutative ring.

* `MatrixInfo`, `leftAt`, `rightAt`: matrices in buffers, with the packed layouts of the left and
  the right operand; results are laid out as left operands;
* `Command`, `exec`: the functions, and what they do to the buffers;
* `generateBasicMatMul`, `construct`, `generateMatMul`: **the plan**;
* `exec_combine`, `exec_matMul`, `exec_post`: what the functions change, and to what.
-/

namespace Mnn.Strassen

open Lib Finset

/-! ### Matrices in buffers -/

/-- The packing of the backend: of results, and of the operands in `MNNGetMatMulPackMode`. -/
structure Core where
  pack : ℕ
  eP : ℕ
  lP : ℕ
  hP : ℕ
  pack_pos : 0 < pack
  eP_pos : 0 < eP
  lP_pos : 0 < lP
  hP_pos : 0 < hP
  h_divides : hP ∣ pack ∨ pack ∣ hP
  l_divides : lP ∣ pack ∨ pack ∣ lP
  fits : max lP pack ≤ 32768 / (eP + hP)

/-- `MatrixInfo`, in elements. -/
structure MatrixInfo where
  stackIndex : ℕ
  offset : ℕ
  lineStride : ℕ

/-- The buffers of `mStack`: an element is found by the number of its buffer and its place there. -/
abbrev Mem (R : Type*) := ℕ × ℕ → R

/-- Element `i` of line `r`. -/
def MatrixInfo.at (v : MatrixInfo) (r i : ℕ) : ℕ × ℕ :=
  (v.stackIndex, v.offset + r * v.lineStride + i)

/-- The matrix that begins `r` lines and `i` elements later. -/
def MatrixInfo.sub (v : MatrixInfo) (r i : ℕ) : MatrixInfo :=
  { v with offset := v.offset + r * v.lineStride + i }

theorem MatrixInfo.sub_at (v : MatrixInfo) (r i r' i' : ℕ) :
    (v.sub r i).at r' i' = v.at (r + r') (i + i') := by
  simp only [MatrixInfo.at, MatrixInfo.sub, Prod.mk.injEq, true_and]
  ring

/-- Lines do not overlap as far as they are as wide as their distance. -/
theorem MatrixInfo.at_inj {v : MatrixInfo} {r i r' i' : ℕ} (hi : i < v.lineStride)
    (hi' : i' < v.lineStride) (h : v.at r i = v.at r' i') : r = r' ∧ i = i' := by
  simp only [MatrixInfo.at, Prod.mk.injEq, true_and] at h
  have hpos : 0 < v.lineStride := by omega
  have hr : (r * v.lineStride + i) / v.lineStride = (r' * v.lineStride + i') / v.lineStride := by
    congr 1
    omega
  rw [mul_comm, mul_comm r', Nat.mul_add_div hpos, Nat.mul_add_div hpos, Nat.div_eq_of_lt hi,
    Nat.div_eq_of_lt hi', add_zero, add_zero] at hr
  subst hr
  exact ⟨rfl, by omega⟩

variable {R : Type*} (core : Core)

/-- Where a left operand or a result has its element in row `x` and column `k`. -/
def leftAt (v : MatrixInfo) (x k : ℕ) : ℕ × ℕ :=
  v.at (k / core.pack) (x * core.pack + k % core.pack)

/-- Where a right operand has its element in row `k` and column `y`. -/
def rightAt (v : MatrixInfo) (k y : ℕ) : ℕ × ℕ :=
  v.at (y / core.hP) (k / core.lP * (core.hP * core.lP) + y % core.hP * core.lP + k % core.lP)

/-! ### Functions -/

/-- The functions of `mFunctions`, taken apart.  A width is a number of elements of a line. -/
inductive Command
  /-- `MNNMATRIX_SUB_MULTITHREAD`. -/
  | matrixSub (c a b : MatrixInfo) (width height : ℕ)
  /-- `MNNMATRIX_ADD_MULTITHREAD`. -/
  | matrixAdd (c a b : MatrixInfo) (width height : ℕ)
  /-- `MNNStrassenMergeCFunction`. -/
  | mergeC (c11 c12 c21 c22 x : MatrixInfo) (width height : ℕ)
  /-- What `_generateTrivalMatMul` makes: `MNNPackedMatMul` for all rows. -/
  | matMul (e l h : ℕ) (a b c : MatrixInfo) (bias : Option MatrixInfo)
  /-- `MNNAxByClampBroadcastUnit`. -/
  | post (c bias : MatrixInfo) (width height : ℕ)

/-- The places of a rectangle, line by line. -/
def rect (width height : ℕ) : List (ℕ × ℕ) := List.range height ×ˢ List.range width

variable [CommRing R] (post : R → R → R) (padding : ℕ → ℕ → R)

/-- `MNNMatrixSub`, `MNNMatrixAdd`. -/
def combine (f : R → R → R) (c a b : MatrixInfo) (width height : ℕ) (m : Mem R) : Mem R :=
  (rect width height).foldl
    (fun m p => Function.update m (c.at p.1 p.2) (f (m (a.at p.1 p.2)) (m (b.at p.1 p.2)))) m

/-- A pass of the loops of `MNNStrassenMergeCFunction`. -/
def mergePass (c11 c12 c21 c22 x : MatrixInfo) (p : ℕ × ℕ) (m : Mem R) : Mem R :=
  let c12v := m (c12.at p.1 p.2) + m (x.at p.1 p.2)
  let c21v := c12v + m (c21.at p.1 p.2)
  let c12v := m (c22.at p.1 p.2) + c12v
  let c22v := m (c22.at p.1 p.2) + c21v
  let c12v := m (c11.at p.1 p.2) + c12v
  Function.update (Function.update (Function.update m (c12.at p.1 p.2) c12v) (c22.at p.1 p.2) c22v)
    (c21.at p.1 p.2) c21v

/-- The element that `MNNPackedMatMul` leaves in place `p` of a result, which has whole packs. -/
def product (l h : ℕ) (a b : MatrixInfo) (bias : Option MatrixInfo) (p : ℕ × ℕ) (m : Mem R) : R :=
  let x := p.2 / core.pack
  let y := p.1 * core.pack + p.2 % core.pack
  if y < h then
    let v := ∑ k ∈ range l, m (leftAt core a x k) * m (rightAt core b k y)
    match bias with
    | none => v
    | some d => post v (m (d.at 0 y))
  else padding x y

/-- What a function does.  `post` is scaling by `postParameters`, adding the bias and clamping;
`padding` is what is left behind the last column. -/
def exec : Command → Mem R → Mem R
  | .matrixSub c a b width height, m => combine (· - ·) c a b width height m
  | .matrixAdd c a b width height, m => combine (· + ·) c a b width height m
  | .mergeC c11 c12 c21 c22 x width height, m =>
    (rect width height).foldl (fun m p => mergePass c11 c12 c21 c22 x p m) m
  | .matMul e l h a b c bias, m =>
    (rect (e * core.pack) ((h + core.pack - 1) / core.pack)).foldl (fun m p =>
      Function.update m (c.at p.1 p.2) (product core post padding l h a b bias p m)) m
  | .post c bias width height, m =>
    (rect width height).foldl (fun m p => Function.update m (c.at p.1 p.2)
      (post (m (c.at p.1 p.2)) (m (bias.at 0 (p.1 * core.pack + p.2 % core.pack))))) m

/-- `onExecute`. -/
def execAll (commands : List Command) (m : Mem R) : Mem R :=
  commands.foldl (fun m command => exec core post padding command m) m

/-! ### The plan -/

/-- `UP_DIV`. -/
def upDiv (x y : ℕ) : ℕ := (x + y - 1) / y

/-- What follows the product where there is a bias. -/
def postCommand (bias : Option MatrixInfo) (c : MatrixInfo) (width height : ℕ) : List Command :=
  match bias with
  | none => []
  | some d => [.post c d width height]

/-- A pass of the loop of `_generateBasicMatMul`, where `n` buffers are on the stack. -/
def basicPass (lLimit e l h : ℕ) (a b c : MatrixInfo) (n i : ℕ) : List Command :=
  let lS := i * lLimit
  let lE := min (lS + lLimit) l
  let cTemp : MatrixInfo := ⟨n, 0, e * core.pack⟩
  if i = 0 then [.matMul e (lE - lS) h a b c none]
  else [.matMul e (lE - lS) h (a.sub (lS / core.pack) 0) (b.sub 0 (lS * core.hP)) cTemp none,
    .matrixAdd c c cTemp (e * core.pack) (upDiv h core.pack)]

/-- `_generateBasicMatMul`: a long inner dimension is cut.  The number is that of the buffers on the
stack, before and after; what is taken from the allocator is there. -/
def generateBasicMatMul (e l h : ℕ) (a b c : MatrixInfo) (bias : Option MatrixInfo) (n : ℕ) :
    List Command × ℕ :=
  let lLimit := 32768 / (min core.eP e + core.hP)
  if l ≤ lLimit then ([.matMul e l h a b c bias], n)
  else
    let lUnit := max core.lP core.pack
    let lLimit := lLimit / lUnit * lUnit
    let unit := upDiv l lLimit
    let cHeight := upDiv h core.pack
    ((List.range unit).flatMap (basicPass core lLimit e l h a b c n) ++
      postCommand bias c (e * core.pack) cHeight, n + 1)

/-- The construct of `_generateMatMul`, where `gen` generates the products of the quarters. -/
def construct (gen : MatrixInfo → MatrixInfo → MatrixInfo → ℕ → List Command × ℕ)
    (eSub lSub hSub : ℕ) (a b c : MatrixInfo) (n : ℕ) : List Command × ℕ :=
  let pack := core.pack
  let bWidth := lSub * core.hP / pack * pack
  let aHeight := lSub / pack
  let cHeight := hSub / pack
  let bHeight := hSub / core.hP
  let y : MatrixInfo := ⟨n, 0, lSub * core.hP⟩
  let x : MatrixInfo := ⟨n + 1, 0, eSub * pack⟩
  let a11 := a
  let a12 := a.sub (lSub / pack) 0
  let a21 := a.sub 0 (eSub * pack)
  let a22 := a.sub (lSub / pack) (eSub * pack)
  let b11 := b
  let b12 := b.sub (hSub / core.hP) 0
  let b21 := b.sub 0 (lSub * core.hP)
  let b22 := b.sub (hSub / core.hP) (lSub * core.hP)
  let c11 := c
  let c12 := c.sub (hSub / pack) 0
  let c21 := c.sub 0 (eSub * pack)
  let c22 := c.sub (hSub / pack) (eSub * pack)
  let width := eSub * pack
  -- S3, T3, P7
  let p7 := gen x y c21 (n + 2)
  -- S1, T1, P5
  let p5 := gen x y c22 p7.2
  -- S2, T2, P6
  let p6 := gen x y c12 p5.2
  -- S4, P3, P1
  let p3 := gen x b22 c11 p6.2
  let p1 := gen a11 b11 x p3.2
  -- T4, P4
  let p4 := gen a22 y c11 p1.2
  -- P2
  let p2 := gen a12 b21 c11 p4.2
  ([.matrixSub x a11 a21 width aHeight, .matrixSub y b22 b12 bWidth bHeight] ++ p7.1 ++
    [.matrixAdd x a21 a22 width aHeight, .matrixSub y b12 b11 bWidth bHeight] ++ p5.1 ++
    [.matrixSub x x a11 width aHeight, .matrixSub y b22 y bWidth bHeight] ++ p6.1 ++
    [.matrixSub x a12 x width aHeight] ++ p3.1 ++ p1.1 ++
    [.mergeC c11 c12 c21 c22 x width cHeight, .matrixSub y y b21 bWidth bHeight] ++ p4.1 ++
    [.matrixSub c21 c21 c11 width cHeight] ++ p2.1 ++
    [.matrixAdd c11 c11 x width cHeight], p2.2)

/-- `_generateMatMul`, for at most `depth` levels more; `worth` is whether `saveCost`, which is
computed from the extents in floats, is positive. -/
def generateMatMul (worth : ℕ → ℕ → ℕ → Bool) (depth : ℕ) (e l h : ℕ) (a b c : MatrixInfo)
    (bias : Option MatrixInfo) (n : ℕ) : List Command × ℕ :=
  match depth with
  | 0 => generateBasicMatMul core e l h a b c bias n
  | depth + 1 =>
    let eSub := e / core.eP / 2 * core.eP
    let hUnit := max core.hP core.pack
    let hSub := h / hUnit / 2 * hUnit
    let remainH := h - hSub * 2
    let remainE := e - eSub * 2
    let packHUnit := if core.hP < core.pack then core.pack / core.hP else 1
    if eSub = 0 ∨ hSub = 0 ∨ l % (2 * core.pack) ≠ 0 ∨ l % (2 * core.lP) ≠ 0 ∨
        l % (2 * packHUnit) ≠ 0 ∨ worth e l h = false then
      generateBasicMatMul core e l h a b c bias n
    else
      let lSub := l / 2
      let quarters := construct core (fun a b c =>
        generateMatMul worth depth eSub lSub hSub a b c none) eSub lSub hSub a b c n
      let rH := if 0 < remainH then
          generateBasicMatMul core (eSub * 2) l remainH a (b.sub (hSub * 2 / core.hP) 0)
            (c.sub (hSub * 2 / core.pack) 0) (bias.map fun d => d.sub 0 (hSub * 2)) quarters.2
        else ([], quarters.2)
      let rE := if 0 < remainE then
          generateBasicMatMul core remainE l h (a.sub 0 (eSub * 2 * core.pack)) b
            (c.sub 0 (eSub * 2 * core.pack)) bias rH.2
        else ([], rH.2)
      (quarters.1 ++ postCommand bias c (eSub * 2 * core.pack) (hSub / core.pack * 2) ++ rH.1 ++
        rE.1, rE.2)

/-- `onEncode`: the operands and the result are the first three buffers, the bias the fourth. -/
def onEncode (worth : ℕ → ℕ → ℕ → Bool) (mMaxDepth e l h as bs cs : ℕ) (useBias : Bool) :
    List Command :=
  (generateMatMul core worth mMaxDepth e l h ⟨0, 0, as⟩ ⟨1, 0, bs⟩ ⟨2, 0, cs⟩
    (if useBias then some ⟨3, 0, 0⟩ else none) (if useBias then 4 else 3)).1

/-! ### What the functions do -/

section Commands

variable {a b c x : MatrixInfo} {width height : ℕ}

theorem mem_rect {p : ℕ × ℕ} : p ∈ rect width height ↔ p.1 < height ∧ p.2 < width := by
  obtain ⟨r, i⟩ := p
  simp [rect]

theorem nodup_rect (width height : ℕ) : (rect width height).Nodup :=
  List.nodup_range.product List.nodup_range

omit [CommRing R] in
/-- A loop over a rectangle that assigns its places in `c`, where what is assigned does not depend
on other places of the rectangle. -/
theorem foldl_rect (hw : width ≤ c.lineStride) {g : ℕ × ℕ → Mem R → R}
    (hg : ∀ p ∈ rect width height, ∀ m m' : Mem R,
      (∀ k : ℕ × ℕ, (∀ r < height, ∀ i < width, k ≠ c.at r i) ∨ k = c.at p.1 p.2 → m k = m' k) →
        g p m = g p m') (m : Mem R) :
    let m' := (rect width height).foldl (fun m p => Function.update m (c.at p.1 p.2) (g p m)) m
    (∀ r < height, ∀ i < width, m' (c.at r i) = g (r, i) m) ∧
      ∀ k, (∀ r < height, ∀ i < width, k ≠ c.at r i) → m' k = m k := by
  have htouches : ∀ p ∈ rect width height,
      Touches (fun m : Mem R => Function.update m (c.at p.1 p.2) (g p m)) (· = c.at p.1 p.2)
        (fun k => (∀ r < height, ∀ i < width, k ≠ c.at r i) ∨ k = c.at p.1 p.2) :=
    fun p hp => touches_update (hg p hp)
  obtain ⟨hin, hout⟩ := foldl_touches htouches ((nodup_rect width height).pairwise_of_forall_ne (by
    intro p hp q hq hne k hk
    obtain ⟨hp₁, hp₂⟩ := mem_rect.1 hp
    have hpq : c.at p.1 p.2 ≠ c.at q.1 q.2 := by
      intro h
      obtain ⟨h₁, h₂⟩ := MatrixInfo.at_inj (hp₂.trans_le hw) ((mem_rect.1 hq).2.trans_le hw) h
      exact hne (Prod.ext h₁ h₂)
    subst hk
    exact ⟨hpq, not_or.2 ⟨fun h => h p.1 hp₁ p.2 hp₂ rfl, hpq⟩⟩)) m
  refine ⟨fun r hr i hi => ?_, fun k hk => hout k fun p hp => ?_⟩
  · rw [hin (r, i) (mem_rect.2 ⟨hr, hi⟩) _ rfl, Function.update_self]
  · exact hk p.1 (mem_rect.1 hp).1 p.2 (mem_rect.1 hp).2

/-- The rectangles of the two matrices have no place in common. -/
def Apart (width height : ℕ) (a c : MatrixInfo) : Prop :=
  ∀ r < height, ∀ i < width, ∀ r' < height, ∀ i' < width, a.at r i ≠ c.at r' i'

/-- Places outside of the buffer of the result are no places of the result. -/
theorem ne_at {k : ℕ × ℕ} (hk : k.1 ≠ c.stackIndex) (r i : ℕ) : k ≠ c.at r i := by
  rintro rfl
  exact hk rfl

theorem apart_of_ne (h : a.stackIndex ≠ c.stackIndex) : Apart width height a c :=
  fun _ _ _ _ _ _ _ _ => ne_at h _ _

omit [CommRing R] in
theorem exec_combine (height : ℕ) (f : R → R → R) (hw : width ≤ c.lineStride)
    (ha : Apart width height a c ∨ a = c) (hb : Apart width height b c ∨ b = c) (m : Mem R) :
    (∀ r < height, ∀ i < width,
      combine f c a b width height m (c.at r i) = f (m (a.at r i)) (m (b.at r i))) ∧
    ∀ k, (∀ r < height, ∀ i < width, k ≠ c.at r i) → combine f c a b width height m k = m k := by
  refine foldl_rect (g := fun p m => f (m (a.at p.1 p.2)) (m (b.at p.1 p.2))) hw
    (fun p hp m m' h => ?_) m
  obtain ⟨hp₁, hp₂⟩ := mem_rect.1 hp
  have hread : ∀ {v : MatrixInfo}, Apart width height v c ∨ v = c →
      m (v.at p.1 p.2) = m' (v.at p.1 p.2) :=
    fun hv => h _ (hv.imp (fun h => h p.1 hp₁ p.2 hp₂) fun heq => by rw [heq])
  rw [hread ha, hread hb]

theorem exec_matMul {e : ℕ} (l h : ℕ) {bias : Option MatrixInfo} (hw : e * core.pack ≤ c.lineStride)
    (ha : a.stackIndex ≠ c.stackIndex) (hb : b.stackIndex ≠ c.stackIndex)
    (hbias : ∀ d ∈ bias, d.stackIndex ≠ c.stackIndex) (m : Mem R) :
    let m' := exec core post padding (.matMul e l h a b c bias) m
    (∀ r < upDiv h core.pack, ∀ i < e * core.pack,
      m' (c.at r i) = product core post padding l h a b bias (r, i) m) ∧
    ∀ k, (∀ r < upDiv h core.pack, ∀ i < e * core.pack, k ≠ c.at r i) → m' k = m k := by
  refine foldl_rect hw (fun p _ m m' hm => ?_) m
  have hread : ∀ k : ℕ × ℕ, k.1 ≠ c.stackIndex → m k = m' k :=
    fun k hk => hm k (.inl fun r _ i _ => ne_at hk r i)
  have hsum : ∀ x y, ∑ k ∈ range l, m (leftAt core a x k) * m (rightAt core b k y) =
      ∑ k ∈ range l, m' (leftAt core a x k) * m' (rightAt core b k y) := fun x y =>
    sum_congr rfl fun k _ => by rw [hread _ ha, hread _ hb]
  unfold product
  cases bias with
  | none => simp only [hsum]
  | some d => simp only [hsum, hread (d.at 0 _) (hbias d rfl)]

theorem exec_post {d : MatrixInfo} (hw : width ≤ c.lineStride) (hd : d.stackIndex ≠ c.stackIndex)
    (m : Mem R) :
    let m' := exec core post padding (.post c d width height) m
    (∀ r < height, ∀ i < width,
      m' (c.at r i) = post (m (c.at r i)) (m (d.at 0 (r * core.pack + i % core.pack)))) ∧
    ∀ k, (∀ r < height, ∀ i < width, k ≠ c.at r i) → m' k = m k :=
  foldl_rect hw (fun _ _ m m' hm => by
    rw [hm _ (.inr rfl), hm _ (.inl fun r _ i _ => ne_at hd r i)]) m

end Commands

end Mnn.Strassen
