import Mnn.Cpu.StrassenPlan

/-!
# Strassen's multiplication: the levels

* `Level`: the extents and operands of a level; `Area`: the matrices that it writes;
* `Level.Holds`: what is in the buffers during a level, and `combine_x`, `combine_y`,
  `combine_quarter`, `multiply`, `merge`: its steps;
* `Level.leaves_construct`: the seven products of a level make the product;
* `generateMatMul_multiplies`, `onEncode_multiplies`: **every plan computes the product**.
-/

namespace Mnn.Strassen

open Lib Finset

variable {R : Type*} {core : Core} {post : R → R → R} {padding : ℕ → ℕ → R}

/-! ### A level -/

/-- A level: `n` buffers are on the stack, and the extents of the quarters are whole packs. -/
structure Level (core : Core) where
  n : ℕ
  eSub : ℕ
  lSub : ℕ
  hSub : ℕ
  a : MatrixInfo
  b : MatrixInfo
  c : MatrixInfo
  a_lt : a.stackIndex < n
  b_lt : b.stackIndex < n
  c_lt : c.stackIndex < n
  a_ne : a.stackIndex ≠ c.stackIndex
  b_ne : b.stackIndex ≠ c.stackIndex
  width : eSub * core.pack + eSub * core.pack ≤ c.lineStride
  l_pack : core.pack ∣ lSub
  l_lP : core.lP ∣ lSub
  h_pack : core.pack ∣ hSub
  h_hP : core.hP ∣ hSub

/-- What a level writes: its two buffers and the quarters of its result. -/
inductive Area | x | y | c11 | c12 | c21 | c22
deriving DecidableEq

namespace Level

variable (L : Level core)

/-- `X`. -/
def x : MatrixInfo := ⟨L.n + 1, 0, L.eSub * core.pack⟩

/-- `Y`. -/
def y : MatrixInfo := ⟨L.n, 0, L.lSub * core.hP⟩

def matrix : Area → MatrixInfo
  | .x => L.x
  | .y => L.y
  | .c11 => L.c
  | .c12 => L.c.sub (L.hSub / core.pack) 0
  | .c21 => L.c.sub 0 (L.eSub * core.pack)
  | .c22 => L.c.sub (L.hSub / core.pack) (L.eSub * core.pack)

/-- Where an area has its element in row `p` and column `q`. -/
def place : Area → ℕ → ℕ → ℕ × ℕ
  | .y, p, q => rightAt core L.y p q
  | t, p, q => leftAt core (L.matrix t) p q

/-- The places of a quarter. -/
def quarter (v : MatrixInfo) (k : ℕ × ℕ) : Prop :=
  ∃ r < L.hSub / core.pack, ∃ i < L.eSub * core.pack, k = v.at r i

/-- The places of an area. -/
def region : Area → ℕ × ℕ → Prop
  | .x, k => k.1 = L.n + 1
  | .y, k => k.1 = L.n
  | t, k => L.quarter (L.matrix t) k

/-- Where a quarter begins. -/
def corner : Area → ℕ × ℕ
  | .x | .y | .c11 => (0, 0)
  | .c12 => (L.hSub / core.pack, 0)
  | .c21 => (0, L.eSub * core.pack)
  | .c22 => (L.hSub / core.pack, L.eSub * core.pack)

/-- The elements of an area, where `w` is the number of columns of what is in `X`. -/
def within (w : ℕ) : Area → ℕ → ℕ → Prop
  | .x, p, q => p < L.eSub ∧ q < w
  | .y, p, q => p < L.lSub ∧ q < L.hSub
  | _, p, q => p < L.eSub ∧ q < L.hSub

/-- What is in the buffers during the level: `F` in the areas, and elsewhere what was there. -/
structure Holds (o : Mem R) (w : ℕ) (F : Area → ℕ → ℕ → R) (m : Mem R) : Prop where
  area : ∀ t p q, L.within w t p q → m (L.place t p q) = F t p q
  rest : ∀ k : ℕ × ℕ, k.1 < L.n → (∀ t, ¬ L.region t k) → m k = o k

variable {L} {t t' : Area} {w w' p q : ℕ} {k : ℕ × ℕ} {o m m' : Mem R} {F : Area → ℕ → ℕ → R}

/-- The areas are in buffers of their own, or are quarters of the result. -/
theorem region_cases (hk : L.region t k) :
    (t = .x ∧ k.1 = L.n + 1) ∨ (t = .y ∧ k.1 = L.n) ∨ (t ≠ .x ∧ t ≠ .y ∧
      ∃ r < L.hSub / core.pack, ∃ i < L.eSub * core.pack,
        k = L.c.at ((L.corner t).1 + r) ((L.corner t).2 + i)) := by
  cases t with
  | x => exact .inl ⟨rfl, hk⟩
  | y => exact .inr (.inl ⟨rfl, hk⟩)
  | c11 =>
    obtain ⟨r, hr, i, hi, rfl⟩ := hk
    exact .inr (.inr ⟨by simp, by simp, r, hr, i, hi, by simp [corner, matrix]⟩)
  | c12 | c21 | c22 =>
    obtain ⟨r, hr, i, hi, rfl⟩ := hk
    exact .inr (.inr ⟨by simp, by simp, r, hr, i, hi, by simp [corner, matrix, MatrixInfo.sub_at]⟩)

theorem region_lt (hk : L.region t k) : k.1 < L.n + 2 := by
  have hc := L.c_lt
  rcases region_cases hk with ⟨-, h⟩ | ⟨-, h⟩ | ⟨-, -, r, -, i, -, rfl⟩
  · omega
  · omega
  · simp only [MatrixInfo.at]
    omega

theorem region_disjoint (hk : L.region t k) (hk' : L.region t' k) : t = t' := by
  have hc := L.c_lt
  have hw := L.width
  rcases region_cases hk with ⟨rfl, h⟩ | ⟨rfl, h⟩ | ⟨hx, hy, r, hr, i, hi, rfl⟩ <;>
    rcases region_cases hk' with ⟨rfl, h'⟩ | ⟨rfl, h'⟩ | ⟨hx', hy', r', hr', i', hi', heq⟩
  case inr.inr.inr.inr =>
    -- quarters begin at different lines or at different distances
    have hcorner : ∀ t, (L.corner t).2 + L.eSub * core.pack ≤ L.c.lineStride := by
      intro t
      cases t <;> simp only [corner] <;> omega
    obtain ⟨h₁, h₂⟩ := MatrixInfo.at_inj
      ((Nat.add_lt_add_left hi _).trans_le (hcorner t))
      ((Nat.add_lt_add_left hi' _).trans_le (hcorner t')) heq
    cases t <;> cases t' <;> simp only [corner] at h₁ h₂ <;> first | rfl | omega | contradiction
  all_goals
    first
      | rfl
      | omega
      | (simp only [MatrixInfo.at] at *; omega)
      | (subst heq; simp only [MatrixInfo.at] at *; omega)

theorem region_place (h : L.within w t p q) : L.region t (L.place t p q) := by
  cases t with
  | x | y => rfl
  | c11 | c12 | c21 | c22 =>
    refine ⟨q / core.pack, ?_, p * core.pack + q % core.pack, place_lt h.1 q, rfl⟩
    exact Nat.div_lt_div_of_lt_of_dvd L.h_pack h.2

theorem holds_self (m : Mem R) (w : ℕ) : L.Holds m w (fun t p q => m (L.place t p q)) m :=
  ⟨fun _ _ _ _ => rfl, fun _ _ _ => rfl⟩

namespace Holds

theorem reads (h : L.Holds o w F m) (hlt : k.1 < L.n) (hne : k.1 ≠ L.c.stackIndex) :
    m k = o k := by
  refine h.rest k hlt fun t ht => ?_
  rcases region_cases ht with ⟨-, hk⟩ | ⟨-, hk⟩ | ⟨-, -, r, -, i, -, rfl⟩
  · omega
  · omega
  · exact hne rfl

/-- A function or a plan that writes one area. -/
theorem write (h : L.Holds o w F m) {G : ℕ → ℕ → R} (hw : t ≠ .x → w' = w)
    (hin : ∀ p q, L.within w' t p q → m' (L.place t p q) = G p q)
    (hout : ∀ k : ℕ × ℕ, k.1 < L.n + 2 → ¬ L.region t k → m' k = m k) :
    L.Holds o w' (Function.update F t G) m' where
  area t' p q hpq := by
    rcases eq_or_ne t' t with rfl | hne
    · rw [Function.update_self]
      exact hin p q hpq
    · have hpq' : L.within w t' p q := by
        cases t' with
        | x => exact hw hne.symm ▸ hpq
        | y | c11 | c12 | c21 | c22 => exact hpq
      have hregion := region_place hpq'
      rw [Function.update_of_ne hne, ← h.area t' p q hpq']
      exact hout _ (region_lt hregion) fun ht => hne (region_disjoint hregion ht)
  rest k hk hno := (hout k (by omega) (hno t)).trans (h.rest k hk hno)

end Holds

/-! What a level reads. -/

variable (L) in
/-- `u` is a left operand with the elements `U`. -/
structure Left (o : Mem R) (w : ℕ) (F : Area → ℕ → ℕ → R) (u : MatrixInfo) (U : ℕ → ℕ → R) :
    Prop where
  stack : u.stackIndex = L.a.stackIndex ∨ u = L.x
  reads : ∀ m, L.Holds o w F m → ∀ p < L.eSub, ∀ q < L.lSub, m (leftAt core u p q) = U p q

variable (L) in
/-- `v` is a right operand with the elements `V`. -/
structure Right (o : Mem R) (w : ℕ) (F : Area → ℕ → ℕ → R) (v : MatrixInfo) (V : ℕ → ℕ → R) :
    Prop where
  stack : v.stackIndex = L.b.stackIndex ∨ v = L.y
  reads : ∀ m, L.Holds o w F m → ∀ p < L.lSub, ∀ q < L.hSub, m (rightAt core v p q) = V p q

theorem left_x : L.Left o L.lSub F L.x (F .x) :=
  ⟨.inr rfl, fun _ h p hp q hq => h.area .x p q ⟨hp, hq⟩⟩

theorem right_y : L.Right o w F L.y (F .y) :=
  ⟨.inr rfl, fun _ h p hp q hq => h.area .y p q ⟨hp, hq⟩⟩

/-- A quarter of the left operand. -/
theorem left_of {i j : ℕ} {u : MatrixInfo} (hstack : u.stackIndex = L.a.stackIndex)
    (hat : ∀ x k, leftAt core u x k = leftAt core L.a (x + i) (k + j)) :
    L.Left o w F u fun x k => o (leftAt core L.a (x + i) (k + j)) :=
  ⟨.inl hstack, fun m h p _ q _ => (congrArg m (hat p q)).trans (h.reads L.a_lt L.a_ne)⟩

/-- A quarter of the right operand. -/
theorem right_of {i j : ℕ} {v : MatrixInfo} (hstack : v.stackIndex = L.b.stackIndex)
    (hat : ∀ k y, rightAt core v k y = rightAt core L.b (k + i) (y + j)) :
    L.Right o w F v fun k y => o (rightAt core L.b (k + i) (y + j)) :=
  ⟨.inl hstack, fun m h p _ q _ => (congrArg m (hat p q)).trans (h.reads L.b_lt L.b_ne)⟩

/-! The steps. -/

variable {u v : MatrixInfo} {U V : ℕ → ℕ → R} (f : R → R → R)

theorem Left.apart (hu : L.Left o w F u U) {width height : ℕ} :
    Apart width height u L.x ∨ u = L.x :=
  hu.stack.imp_left fun h => apart_of_ne (c := L.x)
    (h.trans_ne (L.a_lt.trans (Nat.lt_succ_self _)).ne)

theorem Right.apart (hv : L.Right o w F v V) {width height : ℕ} :
    Apart width height v L.y ∨ v = L.y :=
  hv.stack.imp_left fun h => apart_of_ne (c := L.y) (h.trans_ne L.b_lt.ne)

theorem combine_x (h : L.Holds o L.lSub F m) (hu : L.Left o L.lSub F u U)
    (hv : L.Left o L.lSub F v V) :
    L.Holds o L.lSub (Function.update F .x fun p q => f (U p q) (V p q))
      (combine f L.x u v (L.eSub * core.pack) (L.lSub / core.pack) m) := by
  obtain ⟨hin, hout⟩ := exec_combine (L.lSub / core.pack) f (le_refl (L.eSub * core.pack))
    hu.apart hv.apart m
  refine h.write (fun h => absurd rfl h) (fun p q hpq => ?_) fun k _ hk =>
    hout k fun r _ i _ => ne_at (c := L.x) hk r i
  refine (hin _ (Nat.div_lt_div_of_lt_of_dvd L.l_pack hpq.2) _ (place_lt hpq.1 q)).trans ?_
  exact congrArg₂ f (hu.reads m h p hpq.1 q hpq.2) (hv.reads m h p hpq.1 q hpq.2)

theorem combine_y (h : L.Holds o w F m) (hu : L.Right o w F u U) (hv : L.Right o w F v V) :
    L.Holds o w (Function.update F .y fun p q => f (U p q) (V p q))
      (combine f L.y u v (L.lSub * core.hP / core.pack * core.pack) (L.hSub / core.hP) m) := by
  rw [Nat.div_mul_cancel (L.l_pack.mul_right _)]
  obtain ⟨hin, hout⟩ := exec_combine (L.hSub / core.hP) f (le_refl (L.lSub * core.hP))
    hu.apart hv.apart m
  refine h.write (fun _ => rfl) (fun p q hpq => ?_) fun k _ hk =>
    hout k fun r _ i _ => ne_at (c := L.y) hk r i
  refine (hin _ (Nat.div_lt_div_of_lt_of_dvd L.h_hP hpq.2) _
    (right_place_lt hpq.1 L.l_lP q)).trans ?_
  exact congrArg₂ f (hu.reads m h p hpq.1 q hpq.2) (hv.reads m h p hpq.1 q hpq.2)

theorem place_left (ht : t ≠ .y) (p q : ℕ) : L.place t p q = leftAt core (L.matrix t) p q := by
  cases t with
  | y => exact absurd rfl ht
  | x | c11 | c12 | c21 | c22 => rfl

theorem matrix_width (ht : t ≠ .y) : L.eSub * core.pack ≤ (L.matrix t).lineStride := by
  have hw := L.width
  cases t with
  | y => exact absurd rfl ht
  | x => exact le_rfl
  | c11 | c12 | c21 | c22 => exact (Nat.le_add_right _ _).trans hw

theorem region_matrix {r i : ℕ} (hr : r < L.hSub / core.pack) (hi : i < L.eSub * core.pack) :
    L.region t ((L.matrix t).at r i) := by
  cases t with
  | x | y => rfl
  | c11 | c12 | c21 | c22 => exact ⟨r, hr, i, hi, rfl⟩

/-- Places are equal in one matrix only, and if they are the same. -/
theorem matrix_inj (ht : t ≠ .y) {r s : ℕ × ℕ}
    (hr : r ∈ rect (L.eSub * core.pack) (L.hSub / core.pack))
    (hs : s ∈ rect (L.eSub * core.pack) (L.hSub / core.pack))
    (h : (L.matrix t).at r.1 r.2 = (L.matrix t').at s.1 s.2) : t = t' ∧ r = s := by
  obtain ⟨hr₁, hr₂⟩ := mem_rect.1 hr
  obtain ⟨hs₁, hs₂⟩ := mem_rect.1 hs
  obtain rfl : t = t' := region_disjoint (region_matrix hr₁ hr₂) (h ▸ region_matrix hs₁ hs₂)
  have hw := matrix_width (L := L) ht
  obtain ⟨h₁, h₂⟩ := MatrixInfo.at_inj (hr₂.trans_le hw) (hs₂.trans_le hw) h
  exact ⟨rfl, Prod.ext h₁ h₂⟩

/-- What is outside of an area is outside of its rectangle. -/
theorem ne_matrix (hk : ¬ L.region t k) :
    ∀ r < L.hSub / core.pack, ∀ i < L.eSub * core.pack, k ≠ (L.matrix t).at r i := by
  rintro r hr i hi rfl
  exact hk (region_matrix hr hi)

theorem within_left (ht : t ≠ .y) (hw : t = .x → w = L.hSub) (h : L.within w t p q) :
    p < L.eSub ∧ q < L.hSub := by
  cases t with
  | y => exact absurd rfl ht
  | x => exact hw rfl ▸ h
  | c11 | c12 | c21 | c22 => exact h

theorem left_within (ht : t ≠ .y) (hp : p < L.eSub) (hq : q < L.hSub) : L.within L.hSub t p q := by
  cases t with
  | y => exact absurd rfl ht
  | x | c11 | c12 | c21 | c22 => exact ⟨hp, hq⟩

theorem combine_quarter {s : Area} (h : L.Holds o L.hSub F m) (hne : s ≠ t) (ht : t ≠ .y)
    (hs : s ≠ .y) :
    L.Holds o L.hSub (Function.update F t fun p q => f (F t p q) (F s p q))
      (combine f (L.matrix t) (L.matrix t) (L.matrix s) (L.eSub * core.pack)
        (L.hSub / core.pack) m) := by
  have happart : Apart (L.eSub * core.pack) (L.hSub / core.pack) (L.matrix s) (L.matrix t) :=
    fun r hr i hi => ne_matrix fun hk => hne (region_disjoint (region_matrix hr hi) hk)
  obtain ⟨hin, hout⟩ := exec_combine (L.hSub / core.pack) f (matrix_width ht) (.inr rfl)
    (.inl happart) m
  refine h.write (fun _ => rfl) (fun p q hpq => ?_) fun k _ hk => hout k (ne_matrix hk)
  obtain ⟨hp, hq⟩ := within_left ht (fun _ => rfl) hpq
  have hread := h.area s p q (left_within hs hp hq)
  rw [place_left hs] at hread
  have hold := h.area t p q hpq
  rw [place_left ht] at hold ⊢
  refine (hin _ (Nat.div_lt_div_of_lt_of_dvd L.h_pack hq) _ (place_lt hp q)).trans ?_
  exact congrArg₂ f hold hread

section Steps

variable [CommRing R]

variable (core post padding) in
/-- The functions turn states of `P` to states of `Q`. -/
def Leaves (commands : List Command) (P Q : Mem R → Prop) : Prop :=
  ∀ m, P m → Q (execAll core post padding commands m)

theorem Leaves.append {P Q S : Mem R → Prop} {commands commands' : List Command}
    (h : Leaves core post padding commands P Q) (h' : Leaves core post padding commands' Q S) :
    Leaves core post padding (commands ++ commands') P S := fun m hm => by
  rw [execAll_append]
  exact h' _ (h m hm)

variable (core post padding) in
/-- `gen` generates plans for products of the extents of quarters. -/
def Generates (L : Level core) (gen : MatrixInfo → MatrixInfo → MatrixInfo → ℕ → List Command × ℕ) :
    Prop :=
  ∀ {u v t : MatrixInfo} {n : ℕ}, Fits core n L.eSub u v t none →
    Multiplies core post padding n L.eSub L.lSub L.hSub u v t none (gen u v t n)

variable {gen : MatrixInfo → MatrixInfo → MatrixInfo → ℕ → List Command × ℕ} {n' : ℕ}

/-- A plan for the product of two quarters. -/
theorem leaves_plan {plan : List Command × ℕ} (hn : L.n + 2 ≤ n') (ht : t ≠ .y)
    (hplan : Multiplies core post padding n' L.eSub L.lSub L.hSub u v (L.matrix t) none plan)
    (hu : L.Left o w F u U) (hv : L.Right o w F v V) (hw : t ≠ .x → w' = w)
    (hx : t = .x → w' = L.hSub) :
    Leaves core post padding plan.1 (L.Holds o w F) (L.Holds o w'
      (Function.update F t fun p q => ∑ k ∈ range L.lSub, U p k * V k q)) := by
  intro m h
  refine h.write hw (fun p q hpq => ?_) fun k hk hno => ?_
  · obtain ⟨hp, hq⟩ := within_left ht hx hpq
    rw [place_left ht]
    refine (hplan.value m p q hp hq).trans (sum_congr rfl fun k hk => ?_)
    have hk' := mem_range.1 hk
    rw [hu.reads m h p hp k hk', hv.reads m h k hk' q hq]
  · refine hplan.frame m k (hk.trans_le hn) fun r hr => ne_matrix hno r (hr.trans_eq ?_)
    exact upDiv_of_dvd core.pack_pos L.h_pack

/-- A product in a quarter of the result. -/
theorem multiply (hgen : Generates core post padding L gen) (hn : L.n + 2 ≤ n') (t : Area)
    (hx : t ≠ .x) (hy : t ≠ .y) {U V : (Area → ℕ → ℕ → R) → ℕ → ℕ → R}
    (hu : ∀ F, L.Left o w F u (U F)) (hv : ∀ F, L.Right o w F v (V F)) :
    L.n + 2 ≤ (gen u v (L.matrix t) n').2 ∧ ∀ F,
      Leaves core post padding (gen u v (L.matrix t) n').1 (L.Holds o w F) (L.Holds o w
        (Function.update F t fun p q => ∑ k ∈ range L.lSub, U F p k * V F k q)) := by
  have ha := L.a_lt
  have hb := L.b_lt
  have hc := L.c_lt
  have ht : (L.matrix t).stackIndex = L.c.stackIndex := by
    cases t with
    | x => exact absurd rfl hx
    | y => exact absurd rfl hy
    | c11 | c12 | c21 | c22 => rfl
  have hu' : u.stackIndex < n' ∧ u.stackIndex ≠ L.c.stackIndex := by
    rcases (hu fun _ _ _ => 0).stack with h | rfl
    · exact ⟨by omega, h ▸ L.a_ne⟩
    · simp only [x]
      omega
  have hv' : v.stackIndex < n' ∧ v.stackIndex ≠ L.c.stackIndex := by
    rcases (hv fun _ _ _ => 0).stack with h | rfl
    · exact ⟨by omega, h ▸ L.b_ne⟩
    · simp only [y]
      omega
  have hplan := hgen (⟨hu'.1, hv'.1, by omega, ht ▸ hu'.2, ht ▸ hv'.2, matrix_width hy, by simp⟩ :
    Fits core n' L.eSub u v (L.matrix t) none)
  exact ⟨hn.trans hplan.le, fun F =>
    leaves_plan hn hy hplan (hu F) (hv F) (fun _ => rfl) fun h => absurd h hx⟩

/-- The product that is not in the result: that of the first quarters, in `X`. -/
theorem multiply_x (hgen : Generates core post padding L gen) (hn : L.n + 2 ≤ n') :
    L.n + 2 ≤ (gen L.a L.b L.x n').2 ∧ ∀ F,
      Leaves core post padding (gen L.a L.b L.x n').1 (L.Holds o w F) (L.Holds o L.hSub
        (Function.update F .x fun p q => ∑ k ∈ range L.lSub,
          o (leftAt core L.a p k) * o (rightAt core L.b k q))) := by
  have ha := L.a_lt
  have hb := L.b_lt
  have hfits : Fits core n' L.eSub L.a L.b L.x none := by
    refine ⟨by omega, by omega, ?_, ?_, ?_, le_rfl, by simp⟩ <;> simp only [x] <;> omega
  have hplan := hgen hfits
  exact ⟨hn.trans hplan.le, fun F => leaves_plan (t := .x) hn (by decide) hplan
    (left_of (i := 0) (j := 0) rfl fun _ _ => rfl) (right_of (i := 0) (j := 0) rfl fun _ _ => rfl)
    (fun h => absurd rfl h) fun _ => rfl⟩

/-- What `MNNStrassenMergeCFunction` leaves in the areas. -/
def merged (F : Area → ℕ → ℕ → R) : Area → ℕ → ℕ → R
  | .c12, p, q => F .c11 p q + (F .c22 p q + (F .c12 p q + F .x p q))
  | .c21, p, q => F .c12 p q + F .x p q + F .c21 p q
  | .c22, p, q => F .c22 p q + (F .c12 p q + F .x p q + F .c21 p q)
  | t, p, q => F t p q

variable (L) in
/-- A pass over the quarters. -/
theorem touches_mergePass (p : ℕ × ℕ) :
    Touches (mergePass (R := R) (L.matrix .c11) (L.matrix .c12) (L.matrix .c21) (L.matrix .c22)
        L.x p)
      (fun k => ∃ t ∈ [Area.c12, .c21, .c22], k = (L.matrix t).at p.1 p.2)
      (fun k => ∃ t, t ≠ .y ∧ k = (L.matrix t).at p.1 p.2) where
  frame m k hk := by
    simp only [List.mem_cons, List.not_mem_nil, or_false, exists_eq_or_imp, exists_eq_left,
      not_or] at hk
    simp only [mergePass]
    rw [Function.update_of_ne hk.2.1, Function.update_of_ne hk.2.2, Function.update_of_ne hk.1]
  congr m m' h k hk := by
    have hread : ∀ t : Area, t ≠ .y →
        m ((L.matrix t).at p.1 p.2) = m' ((L.matrix t).at p.1 p.2) := fun t ht => h _ ⟨t, ht, rfl⟩
    have hx : m (L.x.at p.1 p.2) = m' (L.x.at p.1 p.2) := hread .x (by decide)
    simp only [mergePass, hread .c11 (by decide), hread .c12 (by decide), hread .c21 (by decide),
      hread .c22 (by decide), hx, Function.update_apply]
    simp only [List.mem_cons, List.not_mem_nil, or_false, exists_eq_or_imp, exists_eq_left] at hk
    rcases hk with rfl | rfl | rfl <;> simp

variable (post padding) in
theorem merge : Leaves core post padding [.mergeC (L.matrix .c11) (L.matrix .c12) (L.matrix .c21)
      (L.matrix .c22) L.x (L.eSub * core.pack) (L.hSub / core.pack)]
    (L.Holds o L.hSub F) (L.Holds o L.hSub (merged F)) := by
  intro m h
  set foldl := execAll (R := R) core post padding [.mergeC (L.matrix .c11) (L.matrix .c12)
    (L.matrix .c21) (L.matrix .c22) L.x (L.eSub * core.pack) (L.hSub / core.pack)]
  obtain ⟨hin, hout⟩ := foldl_touches (fun p (_ : p ∈ rect (L.eSub * core.pack)
    (L.hSub / core.pack)) => touches_mergePass (R := R) L p)
    ((nodup_rect _ _).pairwise_of_forall_ne (by
      rintro p hp q hq hne k ⟨t, ht, rfl⟩
      have hy : t ≠ .y := by
        rintro rfl
        simp at ht
      constructor
      · rintro ⟨t', -, heq⟩
        exact hne (matrix_inj hy hp hq heq).2
      · rintro ⟨t', -, heq⟩
        exact hne (matrix_inj hy hp hq heq).2)) m
  have hkeep : ∀ k, (∀ t ∈ [Area.c12, .c21, .c22], ¬ L.region t k) → foldl m k = m k :=
    fun k hk => hout k fun r hr ⟨t, ht, heq⟩ =>
      hk t ht (heq ▸ region_matrix (mem_rect.1 hr).1 (mem_rect.1 hr).2)
  refine ⟨fun t p q hpq => ?_, fun k hk hno => (hkeep k fun t _ => hno t).trans (h.rest k hk hno)⟩
  have hkept : t ∉ [Area.c12, .c21, .c22] → foldl m (L.place t p q) = F t p q := fun ht =>
    (hkeep _ fun t' ht' hk => ht (region_disjoint (region_place hpq) hk ▸ ht')).trans
      (h.area t p q hpq)
  cases t with
  | x | y | c11 => exact hkept (by decide)
  | c12 | c21 | c22 =>
    obtain ⟨hp, hq⟩ := hpq
    have hs : (q / core.pack, p * core.pack + q % core.pack) ∈ rect (L.eSub * core.pack)
        (L.hSub / core.pack) :=
      mem_rect.2 ⟨Nat.div_lt_div_of_lt_of_dvd L.h_pack hq, place_lt hp q⟩
    have hread : ∀ t : Area, t ≠ .y →
        m ((L.matrix t).at (q / core.pack) (p * core.pack + q % core.pack)) = F t p q :=
      fun t ht => (congrArg m (place_left ht p q)).symm.trans
        (h.area t p q (left_within ht hp hq))
    have hne : ∀ t t' : Area, t ≠ t' → t ≠ .y →
        (L.matrix t).at (q / core.pack) (p * core.pack + q % core.pack) ≠
          (L.matrix t').at (q / core.pack) (p * core.pack + q % core.pack) :=
      fun t t' hne ht heq => hne (matrix_inj ht hs hs heq).1
    refine (hin _ hs _ ⟨_, by decide, rfl⟩).trans ?_
    have hx : m (L.x.at (q / core.pack) (p * core.pack + q % core.pack)) = F .x p q :=
      hread .x (by decide)
    simp only [mergePass, Function.update_apply, hread .c11 (by decide), hread .c12 (by decide),
      hread .c21 (by decide), hread .c22 (by decide), hx, hne .c12 .c21 (by decide) (by decide),
      hne .c12 .c22 (by decide) (by decide), hne .c22 .c21 (by decide) (by decide), if_true,
      if_false]
    rfl

end Steps

variable [CommRing R]

variable (L) in
/-- The element of the product of what the operands had. -/
def product (o : Mem R) (p q : ℕ) : R :=
  ∑ k ∈ range (L.lSub + L.lSub), o (leftAt core L.a p k) * o (rightAt core L.b k q)

variable (L) in
/-- The quarters of the result have the product. -/
def Done (o m : Mem R) : Prop :=
  ∃ G, L.Holds o L.hSub G m ∧ ∀ p q, G .c11 p q = L.product o p q ∧
    G .c12 p q = L.product o p (q + L.hSub) ∧ G .c21 p q = L.product o (p + L.eSub) q ∧
    G .c22 p q = L.product o (p + L.eSub) (q + L.hSub)

/-- **A level**, whatever generates its seven products. -/
theorem leaves_construct (hgen : Generates core post padding L gen) (F : Area → ℕ → ℕ → R) :
    L.n + 2 ≤ (construct core gen L.eSub L.lSub L.hSub L.a L.b L.c L.n).2 ∧
      Leaves core post padding (construct core gen L.eSub L.lSub L.hSub L.a L.b L.c L.n).1
        (L.Holds o L.lSub F) (L.Done o) := by
  have ha := L.a_lt
  have hb := L.b_lt
  -- the quarters of the operands
  have l11 {w F} : L.Left o w F L.a _ := left_of (i := 0) (j := 0) rfl fun _ _ => rfl
  have l12 {w F} : L.Left o w F (L.a.sub (L.lSub / core.pack) 0) _ :=
    left_of (i := 0) rfl fun x k => leftAt_lines L.a x k L.l_pack
  have l21 {w F} : L.Left o w F (L.a.sub 0 (L.eSub * core.pack)) _ :=
    left_of (j := 0) rfl fun x k => leftAt_rows L.a x k L.eSub
  have l22 {w F} : L.Left o w F (L.a.sub (L.lSub / core.pack) (L.eSub * core.pack)) _ :=
    left_of rfl fun x k => leftAt_sub L.a x k L.eSub L.l_pack
  have r11 {w F} : L.Right o w F L.b _ := right_of (i := 0) (j := 0) rfl fun _ _ => rfl
  have r12 {w F} : L.Right o w F (L.b.sub (L.hSub / core.hP) 0) _ :=
    right_of (i := 0) rfl fun k y => rightAt_lines L.b k y L.h_hP
  have r21 {w F} : L.Right o w F (L.b.sub 0 (L.lSub * core.hP)) _ :=
    right_of (j := 0) rfl fun k y => rightAt_rows L.b k y L.l_lP
  have r22 {w F} : L.Right o w F (L.b.sub (L.hSub / core.hP) (L.lSub * core.hP)) _ :=
    right_of rfl fun k y => rightAt_sub L.b k y L.l_lP L.h_hP
  -- the products
  obtain ⟨hn₇, m7⟩ := multiply hgen le_rfl .c21 (by decide) (by decide) (fun _ => left_x)
    fun _ => right_y (o := o)
  obtain ⟨hn₅, m5⟩ := multiply hgen hn₇ .c22 (by decide) (by decide) (fun _ => left_x)
    fun _ => right_y (o := o)
  obtain ⟨hn₆, m6⟩ := multiply hgen hn₅ .c12 (by decide) (by decide) (fun _ => left_x)
    fun _ => right_y (o := o)
  obtain ⟨hn₃, m3⟩ := multiply hgen hn₆ .c11 (by decide) (by decide) (fun _ => left_x (o := o))
    fun _ => r22
  obtain ⟨hn₁, m1⟩ := multiply_x (o := o) (w := L.lSub) hgen hn₃
  obtain ⟨hn₄, m4⟩ := multiply (w := L.hSub) hgen hn₁ .c11 (by decide) (by decide) (fun _ => l22)
    fun _ => right_y (o := o)
  obtain ⟨hn₂, m2⟩ := multiply (o := o) (w := L.hSub) hgen hn₄ .c11 (by decide) (by decide)
    (fun _ => l12) fun _ => r21
  -- what is between them
  have s7 (F) : Leaves core post padding [.matrixSub L.x _ _ _ _, .matrixSub L.y _ _ _ _]
      (L.Holds o L.lSub F) (L.Holds o L.lSub _) :=
    fun m h => combine_y (· - ·) (combine_x (· - ·) h l11 l21) r22 r12
  have s5 (F) : Leaves core post padding [.matrixAdd L.x _ _ _ _, .matrixSub L.y _ _ _ _]
      (L.Holds o L.lSub F) (L.Holds o L.lSub _) :=
    fun m h => combine_y (· - ·) (combine_x (· + ·) h l21 l22) r12 r11
  have s6 (F) : Leaves core post padding [.matrixSub L.x _ _ _ _, .matrixSub L.y _ _ _ _]
      (L.Holds o L.lSub F) (L.Holds o L.lSub _) :=
    fun m h => combine_y (· - ·) (combine_x (· - ·) h left_x l11) r22 right_y
  have s3 (F) : Leaves core post padding [.matrixSub L.x _ _ _ _]
      (L.Holds o L.lSub F) (L.Holds o L.lSub _) :=
    fun m h => combine_x (· - ·) h l12 left_x
  have s4 (F) : Leaves core post padding [.mergeC _ _ _ _ L.x _ _, .matrixSub L.y _ _ _ _]
      (L.Holds o L.hSub F) (L.Holds o L.hSub _) :=
    fun m h => combine_y (· - ·) (merge post padding m h) right_y r21
  have s2 (F) : Leaves core post padding [.matrixSub (L.matrix .c21) _ _ _ _]
      (L.Holds o L.hSub F) (L.Holds o L.hSub _) :=
    fun m h => combine_quarter (s := .c11) (· - ·) h (by decide) (by decide) (by decide)
  have s1 (F) : Leaves core post padding [.matrixAdd (L.matrix .c11) _ _ _ _]
      (L.Holds o L.hSub F) (L.Holds o L.hSub _) :=
    fun m h => combine_quarter (s := .x) (· + ·) h (by decide) (by decide) (by decide)
  have hall := ((((((((((((((s7 F).append (m7 _)).append (s5 _)).append (m5 _)).append
    (s6 _)).append (m6 _)).append (s3 _)).append (m3 _)).append (m1 _)).append (s4 _)).append
    (m4 _)).append (s2 _)).append (m2 _)).append (s1 _))
  refine ⟨hn₂, fun m hm => ⟨_, hall m hm, fun p q => ?_⟩⟩
  -- sums over the two halves of the inner dimension
  have hsplit : ∀ p q, L.product o p q =
      ∑ k ∈ range L.lSub, (o (leftAt core L.a p k) * o (rightAt core L.b k q) +
        o (leftAt core L.a p (k + L.lSub)) * o (rightAt core L.b (k + L.lSub) q)) := by
    intro p q
    simp only [product, sum_range_add, sum_add_distrib, add_comm L.lSub]
  simp only [hsplit, Function.update_self, Function.update_of_ne, merged, ne_eq, reduceCtorEq,
    not_false_eq_true, ← sum_add_distrib, ← sum_sub_distrib, add_zero]
  refine ⟨sum_congr rfl fun k _ => ?_, sum_congr rfl fun k _ => ?_, sum_congr rfl fun k _ => ?_,
    sum_congr rfl fun k _ => ?_⟩
  · ring
  · ring
  · ring
  · ring

/-- The quarters together are the result. -/
theorem Done.value (h : L.Done o m) {x y : ℕ} (hx : x < L.eSub * 2) (hy : y < L.hSub * 2) :
    m (leftAt core L.c x y) = L.product o x y := by
  obtain ⟨G, hG, hproduct⟩ := h
  have hread : ∀ t, t ≠ .y → ∀ p q, p < L.eSub → q < L.hSub → m (L.place t p q) = G t p q :=
    fun t ht p q hp hq => hG.area t p q (left_within ht hp hq)
  rcases lt_or_ge x L.eSub with hx' | hx' <;> rcases lt_or_ge y L.hSub with hy' | hy'
  · exact (hread .c11 (by decide) x y hx' hy').trans (hproduct x y).1
  · obtain ⟨q, rfl⟩ := Nat.exists_eq_add_of_le' hy'
    rw [← (hproduct x q).2.1, ← hread .c12 (by decide) x q hx' (by omega)]
    simp only [place, matrix]
    rw [leftAt_lines L.c x q L.h_pack]
  · obtain ⟨p, rfl⟩ := Nat.exists_eq_add_of_le' hx'
    rw [← (hproduct p y).2.2.1, ← hread .c21 (by decide) p y (by omega) hy']
    simp only [place, matrix]
    rw [leftAt_rows]
  · obtain ⟨p, rfl⟩ := Nat.exists_eq_add_of_le' hx'
    obtain ⟨q, rfl⟩ := Nat.exists_eq_add_of_le' hy'
    rw [← (hproduct p q).2.2.2, ← hread .c22 (by decide) p q (by omega) (by omega)]
    simp only [place, matrix]
    rw [leftAt_sub L.c p q L.eSub L.h_pack]

theorem Done.frame (h : L.Done o m) (hk : k.1 < L.n)
    (hno : ∀ r < L.hSub / core.pack * 2, ∀ i < L.eSub * 2 * core.pack, k ≠ L.c.at r i) :
    m k = o k := by
  obtain ⟨G, hG, -⟩ := h
  refine hG.rest k hk fun t ht => ?_
  rcases region_cases ht with ⟨-, h⟩ | ⟨-, h⟩ | ⟨-, -, r, hr, i, hi, heq⟩
  · omega
  · omega
  · refine hno _ ?_ _ ?_ heq
    · cases t <;> simp only [corner] <;> omega
    · rw [Nat.mul_right_comm]
      cases t <;> simp only [corner] <;> omega

/-- A level and what follows its product. -/
theorem multiplies {bias : Option MatrixInfo}
    {gen : MatrixInfo → MatrixInfo → MatrixInfo → ℕ → List Command × ℕ}
    (hbias : ∀ d ∈ bias, d.stackIndex < L.n ∧ d.stackIndex ≠ L.c.stackIndex)
    (hgen : Generates core post padding L gen) :
    let quarters := construct core gen L.eSub L.lSub L.hSub L.a L.b L.c L.n
    Multiplies core post padding L.n (L.eSub * 2) (L.lSub + L.lSub) (L.hSub * 2) L.a L.b L.c bias
      (quarters.1 ++ postCommand bias L.c (L.eSub * 2 * core.pack) (L.hSub / core.pack * 2),
        quarters.2) := by
  intro quarters
  have hdone : ∀ m, L.Done m (execAll core post padding quarters.1 m) :=
    fun m => (leaves_construct hgen _).2 m (holds_self m _)
  have hn : L.n ≤ quarters.2 := by
    have h := (leaves_construct (o := fun _ => 0) hgen fun _ _ _ => 0).1
    exact (Nat.le_add_right L.n 2).trans h
  have hlines : upDiv (L.hSub * 2) core.pack = L.hSub / core.pack * 2 := by
    rw [upDiv_of_dvd core.pack_pos (L.h_pack.mul_right 2), Nat.mul_comm,
      Nat.mul_div_assoc _ L.h_pack, Nat.mul_comm]
  have hw : L.eSub * 2 * core.pack ≤ L.c.lineStride := by
    rw [Nat.mul_right_comm, Nat.mul_two]
    exact L.width
  refine ⟨hn, fun m x y hx hy => ?_, fun m k hk hno => ?_⟩
  · obtain ⟨hin, -⟩ := exec_postCommand core post padding (L.hSub / core.pack * 2) hw
      (fun d hd => (hbias d hd).2) (execAll core post padding quarters.1 m)
    have hline : y / core.pack < L.hSub / core.pack * 2 := hlines ▸ line_lt hy
    rw [execAll_append]
    refine (hin _ hline _ (place_lt hx y)).trans ?_
    rw [line_place, ← leftAt, (hdone m).value hx hy]
    obtain ⟨G, hG, -⟩ := hdone m
    exact finish_congr y _ fun d hd => hG.reads (hbias d hd).1 (hbias d hd).2
  · rw [hlines] at hno
    rw [execAll_append]
    exact ((exec_postCommand core post padding _ hw (fun d hd => (hbias d hd).2) _).2 k hno).trans
      ((hdone m).frame hk hno)

end Level

/-! ### All levels -/

section Whole

variable [CommRing R] {n e l h : ℕ} {a b c : MatrixInfo} {bias : Option MatrixInfo}

theorem halves_le (x u : ℕ) : x / u / 2 * u * 2 ≤ x := by
  calc x / u / 2 * u * 2 = x / u / 2 * 2 * u := by ring
    _ ≤ x / u * u := Nat.mul_le_mul_right u (Nat.div_mul_le_self _ 2)
    _ ≤ x := Nat.div_mul_le_self x u

theorem half_dvd {d l : ℕ} (h : l % (2 * d) = 0) : d ∣ l / 2 := by
  obtain ⟨q, rfl⟩ := Nat.dvd_of_mod_eq_zero h
  rw [mul_assoc, Nat.mul_div_cancel_left _ two_pos]
  exact Dvd.intro q rfl

theorem half_add_half {d l : ℕ} (h : l % (2 * d) = 0) : l / 2 + l / 2 = l := by
  obtain ⟨q, rfl⟩ := Nat.dvd_of_mod_eq_zero h
  rw [mul_assoc, Nat.mul_div_cancel_left _ two_pos, two_mul]

/-- **Every plan multiplies**, wherever the levels end. -/
theorem generateMatMul_multiplies (worth : ℕ → ℕ → ℕ → Bool) (depth : ℕ) :
    ∀ {n e l h : ℕ} {a b c : MatrixInfo} {bias : Option MatrixInfo}, Fits core n e a b c bias →
      Multiplies core post padding n e l h a b c bias
        (generateMatMul core worth depth e l h a b c bias n) := by
  induction depth with
  | zero =>
    intro n e l h a b c bias hfits
    exact basic_multiplies hfits l h
  | succ depth ih =>
    intro n e l h a b c bias hfits
    rw [generateMatMul]
    dsimp only
    generalize (if core.hP < core.pack then core.pack / core.hP else 1) = packHUnit
    split
    case isTrue => exact basic_multiplies hfits l h
    case isFalse hgo =>
      simp only [not_or, not_not] at hgo
      obtain ⟨-, -, hlpack, hllP, -, -⟩ := hgo
      have heSub := halves_le e core.eP
      have hhSub := halves_le h (max core.hP core.pack)
      obtain ⟨hhP, hpack⟩ := dvd_max core.hP_pos core.pack_pos core.h_divides
      have hhpack := hpack.mul_left (h / max core.hP core.pack / 2)
      have hhhP := hhP.mul_left (h / max core.hP core.pack / 2)
      have hl := half_add_half hlpack
      have hlSub := half_dvd hlpack
      have hlSub' := half_dvd hllP
      generalize e / core.eP / 2 * core.eP = eSub at heSub ⊢
      generalize h / max core.hP core.pack / 2 * max core.hP core.pack = hSub at hhSub hhpack hhhP ⊢
      generalize l / 2 = lSub at hl hlSub hlSub' ⊢
      have hwidth : eSub * core.pack + eSub * core.pack ≤ c.lineStride := by
        rw [← Nat.two_mul, ← mul_assoc, mul_comm 2]
        exact (Nat.mul_le_mul_right _ heSub).trans hfits.width
      let L : Level core := ⟨n, eSub, lSub, hSub, a, b, c, hfits.a_lt, hfits.b_lt, hfits.c_lt,
        hfits.a_ne, hfits.b_ne, hwidth, hlSub, hlSub', hhpack, hhhP⟩
      have hgen : Level.Generates core post padding L fun a b c =>
          generateMatMul core worth depth eSub lSub hSub a b c none := fun hfits => ih hfits
      have hlevel := L.multiplies hfits.bias_lt hgen
      obtain ⟨remainE, rfl⟩ := Nat.exists_eq_add_of_le heSub
      obtain ⟨remainH, rfl⟩ := Nat.exists_eq_add_of_le hhSub
      subst hl
      rw [Nat.add_sub_cancel_left, Nat.add_sub_cancel_left]
      have hfits₁ : Fits core n (eSub * 2) a b c bias :=
        { hfits with
          width := (Nat.mul_le_mul_right _ (Nat.le_add_right _ remainE)).trans hfits.width }
      exact multiplies_remainE hfits (multiplies_remainH hfits₁ (hhpack.mul_right 2)
        (hhhP.mul_right 2) hlevel)

/-- Without packs. -/
def single : Core :=
  ⟨1, 1, 1, 1, Nat.one_pos, Nat.one_pos, Nat.one_pos, Nat.one_pos, .inl dvd_rfl, .inl dvd_rfl,
    Nat.le_of_ble_eq_true rfl⟩

end Whole

end Mnn.Strassen
