import Mnn.Cpu.Strassen

/-!
# Strassen's multiplication: plans

* `Multiplies`: what a plan is for, and what it leaves as it is;
* `basic_multiplies`: **the plan with a cut inner dimension**;
* `multiplies_below`, `multiplies_beside`: a plan after another, for the rest of the result.
-/

namespace Mnn.Strassen

open Lib Finset

variable {R : Type*} {core : Core} {post : R → R → R} {padding : ℕ → ℕ → R}

/-! ### Layouts -/

section Layout

variable {v : MatrixInfo} {e h x y k r₀ i₀ : ℕ}

theorem MatrixInfo.sub_zero (v : MatrixInfo) : v.sub 0 0 = v := by
  simp [MatrixInfo.sub]

theorem line_lt (hy : y < h) : y / core.pack < upDiv h core.pack := by
  have hpos := core.pack_pos
  rw [upDiv, Nat.div_lt_iff_lt_mul hpos]
  have hlt := Nat.lt_div_mul_add hpos (a := h + core.pack - 1)
  omega

theorem dvd_max {p q : ℕ} (hp : 0 < p) (hq : 0 < q) (h : p ∣ q ∨ q ∣ p) :
    p ∣ max p q ∧ q ∣ max p q := by
  rcases h with h | h
  · rw [max_eq_right (Nat.le_of_dvd hq h)]
    exact ⟨h, dvd_rfl⟩
  · rw [max_eq_left (Nat.le_of_dvd hp h)]
    exact ⟨dvd_rfl, h⟩

theorem upDiv_add {p x : ℕ} (hpos : 0 < p) (hx : p ∣ x) (y : ℕ) :
    upDiv (x + y) p = x / p + upDiv y p := by
  obtain ⟨q, rfl⟩ := hx
  rw [upDiv, upDiv, Nat.mul_div_cancel_left q hpos, add_assoc, Nat.add_sub_assoc (by omega),
    Nat.mul_add_div hpos]

theorem upDiv_of_dvd {p x : ℕ} (hpos : 0 < p) (hx : p ∣ x) : upDiv x p = x / p := by
  have hadd := upDiv_add hpos hx 0
  rwa [add_zero, upDiv.eq_1 0, zero_add, Nat.div_eq_of_lt (by omega : p - 1 < p), add_zero] at hadd

theorem place_lt (hx : x < e) (k : ℕ) : x * core.pack + k % core.pack < e * core.pack := by
  have hmod := Nat.mod_lt k core.pack_pos
  have hmul := Nat.mul_le_mul_right core.pack (Nat.succ_le_of_lt hx)
  rw [Nat.succ_mul] at hmul
  omega

theorem leftAt_sub (v : MatrixInfo) (x k i : ℕ) {j : ℕ} (hk : core.pack ∣ j) :
    leftAt core (v.sub (j / core.pack) (i * core.pack)) x k =
      leftAt core v (x + i) (k + j) := by
  obtain ⟨q, rfl⟩ := hk
  simp only [leftAt, MatrixInfo.sub_at]
  rw [Nat.mul_div_cancel_left q core.pack_pos, Nat.add_mul_div_left k q core.pack_pos,
    Nat.add_mul_mod_self_left]
  congr 1 <;> ring

theorem rightAt_sub (v : MatrixInfo) (k y : ℕ) {i j : ℕ} (hk : core.lP ∣ i) (hy : core.hP ∣ j) :
    rightAt core (v.sub (j / core.hP) (i * core.hP)) k y = rightAt core v (k + i) (y + j) := by
  obtain ⟨q, rfl⟩ := hk
  obtain ⟨t, rfl⟩ := hy
  simp only [rightAt, MatrixInfo.sub_at]
  rw [Nat.mul_div_cancel_left t core.hP_pos, Nat.add_mul_div_left y t core.hP_pos,
    Nat.add_mul_div_left k q core.lP_pos, Nat.add_mul_mod_self_left, Nat.add_mul_mod_self_left]
  congr 1 <;> ring

theorem leftAt_lines (v : MatrixInfo) (x k : ℕ) {j : ℕ} (hk : core.pack ∣ j) :
    leftAt core (v.sub (j / core.pack) 0) x k = leftAt core v x (k + j) := by
  have hsub := leftAt_sub v x k 0 hk
  rwa [zero_mul, add_zero] at hsub

theorem leftAt_rows (v : MatrixInfo) (x k i : ℕ) :
    leftAt core (v.sub 0 (i * core.pack)) x k = leftAt core v (x + i) k := by
  have hsub := leftAt_sub v x k i (dvd_zero core.pack)
  rwa [Nat.zero_div, add_zero] at hsub

theorem rightAt_lines (v : MatrixInfo) (k y : ℕ) {j : ℕ} (hy : core.hP ∣ j) :
    rightAt core (v.sub (j / core.hP) 0) k y = rightAt core v k (y + j) := by
  have hsub := rightAt_sub v k y (dvd_zero core.lP) hy
  rwa [zero_mul, add_zero] at hsub

theorem rightAt_rows (v : MatrixInfo) (k y : ℕ) {i : ℕ} (hk : core.lP ∣ i) :
    rightAt core (v.sub 0 (i * core.hP)) k y = rightAt core v (k + i) y := by
  have hsub := rightAt_sub v k y hk (dvd_zero core.hP)
  rwa [Nat.zero_div, add_zero] at hsub

theorem right_place_lt (hk : k < e) (he : core.lP ∣ e) (y : ℕ) :
    k / core.lP * (core.hP * core.lP) + y % core.hP * core.lP + k % core.lP < e * core.hP := by
  obtain ⟨q, rfl⟩ := he
  have hq : k / core.lP < q := Nat.div_lt_of_lt_mul hk
  have hy := Nat.mod_lt y core.hP_pos
  have hmod := Nat.mod_lt k core.lP_pos
  calc k / core.lP * (core.hP * core.lP) + y % core.hP * core.lP + k % core.lP
      < k / core.lP * (core.hP * core.lP) + (y % core.hP + 1) * core.lP := by
        rw [Nat.add_mul, one_mul]
        omega
    _ ≤ k / core.lP * (core.hP * core.lP) + core.hP * core.lP :=
        Nat.add_le_add_left (Nat.mul_le_mul_right _ hy) _
    _ = (k / core.lP + 1) * (core.hP * core.lP) := by ring
    _ ≤ q * (core.hP * core.lP) := Nat.mul_le_mul_right _ hq
    _ = core.lP * q * core.hP := by ring

end Layout

/-! ### Plans -/

section Plans

variable (post) in
/-- The product with the bias, where there is one. -/
def finish (bias : Option MatrixInfo) (m : Mem R) (y : ℕ) (v : R) : R :=
  match bias with
  | none => v
  | some d => post v (m (d.at 0 y))

theorem finish_congr {bias : Option MatrixInfo} {m m' : Mem R} (y : ℕ) (v : R)
    (h : ∀ d ∈ bias, m (d.at 0 y) = m' (d.at 0 y)) :
    finish post bias m y v = finish post bias m' y v := by
  cases bias with
  | none => rfl
  | some d => simp only [finish, h d rfl]

/-- Operands and result are among the first `n` buffers, the result is in a buffer of its own and
its lines do not overlap. -/
structure Fits (core : Core) (n e : ℕ) (a b c : MatrixInfo) (bias : Option MatrixInfo) : Prop where
  a_lt : a.stackIndex < n
  b_lt : b.stackIndex < n
  c_lt : c.stackIndex < n
  a_ne : a.stackIndex ≠ c.stackIndex
  b_ne : b.stackIndex ≠ c.stackIndex
  width : e * core.pack ≤ c.lineStride
  bias_lt : ∀ d ∈ bias, d.stackIndex < n ∧ d.stackIndex ≠ c.stackIndex

variable [CommRing R]

variable (core post padding) in
/-- The plan leaves the product in the result and changes nothing else in the first `n` buffers. -/
structure Multiplies (n e l h : ℕ) (a b c : MatrixInfo) (bias : Option MatrixInfo)
    (plan : List Command × ℕ) : Prop where
  le : n ≤ plan.2
  value : ∀ (m : Mem R) (x y : ℕ), x < e → y < h →
    execAll core post padding plan.1 m (leftAt core c x y) =
      finish post bias m y (∑ k ∈ range l, m (leftAt core a x k) * m (rightAt core b k y))
  frame : ∀ (m : Mem R) (k : ℕ × ℕ), k.1 < n →
    (∀ r < upDiv h core.pack, ∀ i < e * core.pack, k ≠ c.at r i) →
      execAll core post padding plan.1 m k = m k

variable {n e l h h' : ℕ} {a b c : MatrixInfo} {bias : Option MatrixInfo}

@[simp] theorem execAll_nil (m : Mem R) : execAll core post padding [] m = m := rfl

@[simp] theorem execAll_cons (command : Command) (commands : List Command) (m : Mem R) :
    execAll core post padding (command :: commands) m =
      execAll core post padding commands (exec core post padding command m) := rfl

@[simp] theorem execAll_append (commands commands' : List Command) (m : Mem R) :
    execAll core post padding (commands ++ commands') m =
      execAll core post padding commands' (execAll core post padding commands m) :=
  List.foldl_append

theorem product_at (l : ℕ) {x y : ℕ} (hy : y < h) (a b : MatrixInfo) (bias : Option MatrixInfo)
    (m : Mem R) :
    product core post padding l h a b bias (y / core.pack, x * core.pack + y % core.pack) m =
      finish post bias m y (∑ k ∈ range l, m (leftAt core a x k) * m (rightAt core b k y)) := by
  have hx : (x * core.pack + y % core.pack) / core.pack = x := by
    rw [mul_comm, Nat.mul_add_div core.pack_pos, Nat.div_eq_of_lt (Nat.mod_lt y core.pack_pos),
      add_zero]
  have hy' : y / core.pack * core.pack + (x * core.pack + y % core.pack) % core.pack = y := by
    rw [mul_comm x, Nat.mul_add_mod, Nat.mod_mod, mul_comm, Nat.div_add_mod]
  simp only [product, hx, hy', if_pos hy]
  cases bias <;> rfl

/-- `_generateTrivalMatMul`. -/
theorem trival_multiplies (hfits : Fits core n e a b c bias) (l h : ℕ) :
    Multiplies core post padding n e l h a b c bias ([.matMul e l h a b c bias], n) where
  le := le_rfl
  value m x y hx hy := by
    obtain ⟨hin, -⟩ := exec_matMul core post padding l h hfits.width hfits.a_ne hfits.b_ne
      (fun d hd => (hfits.bias_lt d hd).2) m
    exact (hin _ (line_lt hy) _ (place_lt hx y)).trans (product_at l hy a b bias m)
  frame m k _ hk := (exec_matMul core post padding l h hfits.width hfits.a_ne hfits.b_ne
    (fun d hd => (hfits.bias_lt d hd).2) m).2 k hk

/-- The sum over the next piece is the sum over what was added, as far as it goes. -/
theorem sum_piece (f : ℕ → R) (lLimit l u : ℕ) :
    ∑ k ∈ range (min ((u + 1) * lLimit) l), f k = ∑ k ∈ range (min (u * lLimit) l), f k +
      ∑ k ∈ range (min (u * lLimit + lLimit) l - u * lLimit), f (k + u * lLimit) := by
  rcases le_total (u * lLimit) l with hle | hle
  · rw [min_eq_left hle, add_mul, one_mul]
    obtain ⟨d, hd⟩ : ∃ d, min (u * lLimit + lLimit) l = u * lLimit + d :=
      ⟨min (u * lLimit + lLimit) l - u * lLimit, by omega⟩
    rw [hd, Nat.add_sub_cancel_left, sum_range_add]
    simp only [add_comm]
  · rw [add_mul, one_mul, min_eq_right hle, min_eq_right (by omega), Nat.sub_eq_zero_of_le hle,
      sum_range_zero, add_zero]

variable (core post padding) in
/-- Piece by piece. -/
theorem passes_multiply (hfits : Fits core n e a b c bias) {lLimit : ℕ} (l h : ℕ)
    (hpack : core.pack ∣ lLimit) (hlP : core.lP ∣ lLimit) (u : ℕ) (m : Mem R) :
    let m' := execAll core post padding
      ((List.range (u + 1)).flatMap (basicPass core lLimit e l h a b c n)) m
    (∀ x y : ℕ, x < e → y < h → m' (leftAt core c x y) =
      ∑ k ∈ range (min ((u + 1) * lLimit) l), m (leftAt core a x k) * m (rightAt core b k y)) ∧
    ∀ k : ℕ × ℕ, k.1 < n → (∀ r < upDiv h core.pack, ∀ i < e * core.pack, k ≠ c.at r i) →
      m' k = m k := by
  have hnone : Fits core n e a b c none := { hfits with bias_lt := by simp }
  induction u with
  | zero =>
    have hfirst : Multiplies core post padding n e (min lLimit l) h a b c none _ :=
      trival_multiplies hnone _ h
    have hrange : (List.range (0 + 1)).flatMap (basicPass core lLimit e l h a b c n) =
        [.matMul e (min lLimit l) h a b c none] := by
      simp [basicPass]
    rw [hrange]
    rw [zero_add, one_mul]
    exact ⟨hfirst.value m, hfirst.frame m⟩
  | succ u ih =>
    simp only [List.range_succ (n := u + 1), List.flatMap_append, List.flatMap_singleton,
      execAll_append]
    generalize execAll core post padding
      ((List.range (u + 1)).flatMap (basicPass core lLimit e l h a b c n)) m = m₁ at ih ⊢
    obtain ⟨hvalue, hframe⟩ := ih
    have hsame : ∀ k : ℕ × ℕ, k.1 < n → k.1 ≠ c.stackIndex → m₁ k = m k :=
      fun k hlt hne => hframe k hlt fun r _ i _ => ne_at hne r i
    -- the piece goes to a buffer of its own
    set lS := (u + 1) * lLimit with hlS
    have htemp : Fits core (n + 1) e (a.sub (lS / core.pack) 0) (b.sub 0 (lS * core.hP))
        ⟨n, 0, e * core.pack⟩ none :=
      ⟨Nat.lt_succ_of_lt hfits.a_lt, Nat.lt_succ_of_lt hfits.b_lt, Nat.lt_succ_self n,
        hfits.a_lt.ne, hfits.b_lt.ne, le_rfl, by simp⟩
    have hpiece : Multiplies core post padding (n + 1) e (min (lS + lLimit) l - lS) h _ _ _ none
        _ := trival_multiplies htemp _ h
    simp only [basicPass, Nat.succ_ne_zero, if_false, execAll_cons, execAll_nil]
    have hvalue₂ := hpiece.value m₁
    have hframe₂ := hpiece.frame m₁
    simp only [execAll_cons, execAll_nil] at hvalue₂ hframe₂
    generalize exec core post padding (.matMul e (min (lS + lLimit) l - lS) h
      (a.sub (lS / core.pack) 0) (b.sub 0 (lS * core.hP)) ⟨n, 0, e * core.pack⟩ none) m₁ = m₂
      at hvalue₂ hframe₂ ⊢
    have hkept : ∀ k : ℕ × ℕ, k.1 < n → m₂ k = m₁ k :=
      fun k hlt => hframe₂ k (Nat.lt_succ_of_lt hlt) fun r _ i _ => ne_at hlt.ne r i
    obtain ⟨hin, hout⟩ := exec_combine (upDiv h core.pack) (· + ·) hfits.width
      (.inr rfl) (.inl (apart_of_ne (a := ⟨n, 0, e * core.pack⟩) hfits.c_lt.ne')) m₂
    refine ⟨fun x y hx hy => ?_, fun k hlt hk => ?_⟩
    · refine (hin _ (line_lt hy) _ (place_lt hx y)).trans ?_
      have hold : m₂ (leftAt core c x y) = _ :=
        (hkept _ hfits.c_lt).trans (hvalue x y hx hy)
      have hnew := hvalue₂ x y hx hy
      rw [sum_piece (fun k => m (leftAt core a x k) * m (rightAt core b k y)) lLimit l (u + 1)]
      refine congrArg₂ (· + ·) hold (hnew.trans (sum_congr rfl fun k _ => ?_))
      rw [leftAt_lines a x k (hpack.mul_left _), rightAt_rows b k y (hlP.mul_left _),
        hsame _ hfits.a_lt hfits.a_ne, hsame _ hfits.b_lt hfits.b_ne]
    · exact (hout k hk).trans ((hkept k hlt).trans (hframe k hlt hk))

variable (core post padding) in
theorem exec_postCommand {width : ℕ} (height : ℕ) (hw : width ≤ c.lineStride)
    (hbias : ∀ d ∈ bias, d.stackIndex ≠ c.stackIndex) (m : Mem R) :
    let m' := execAll core post padding (postCommand bias c width height) m
    (∀ r < height, ∀ i < width, m' (c.at r i) =
      finish post bias m (r * core.pack + i % core.pack) (m (c.at r i))) ∧
    ∀ k, (∀ r < height, ∀ i < width, k ≠ c.at r i) → m' k = m k := by
  cases bias with
  | none => exact ⟨fun _ _ _ _ => rfl, fun _ _ => rfl⟩
  | some d => exact exec_post core post padding hw (hbias d rfl) m

/-- The element that a place of the result has. -/
theorem line_place (x y : ℕ) :
    y / core.pack * core.pack + (x * core.pack + y % core.pack) % core.pack = y := by
  rw [mul_comm x, Nat.mul_add_mod, Nat.mod_mod, mul_comm, Nat.div_add_mod]

/-- **The plan with a cut inner dimension.** -/
theorem basic_multiplies (hfits : Fits core n e a b c bias) (l h : ℕ) :
    Multiplies core post padding n e l h a b c bias
      (generateBasicMatMul core e l h a b c bias n) := by
  unfold generateBasicMatMul
  dsimp only
  split_ifs with hl
  · exact trival_multiplies hfits l h
  set lUnit := max core.lP core.pack with hlUnit
  set lLimit := 32768 / (min core.eP e + core.hP) / lUnit * lUnit with hlLimit
  obtain ⟨hlP, hpack⟩ : core.lP ∣ lUnit ∧ core.pack ∣ lUnit :=
    dvd_max core.lP_pos core.pack_pos core.l_divides
  have hpos : 0 < lLimit := by
    have hunit : 0 < lUnit := lt_max_of_lt_left core.lP_pos
    have hmono : 32768 / (core.eP + core.hP) ≤ 32768 / (min core.eP e + core.hP) :=
      Nat.div_le_div_left (Nat.add_le_add_right (min_le_left _ _) _)
        (Nat.add_pos_right _ core.hP_pos)
    exact Nat.mul_pos (Nat.div_pos (core.fits.trans hmono) hunit) hunit
  have hlpos : 0 < l := Nat.pos_of_ne_zero (by
    rintro rfl
    exact hl (Nat.zero_le _))
  obtain ⟨u, hu⟩ : ∃ u, upDiv l lLimit = u + 1 := by
    refine Nat.exists_eq_succ_of_ne_zero (Nat.div_pos ?_ hpos).ne'
    omega
  have hall : min ((u + 1) * lLimit) l = l := by
    rw [← hu, upDiv]
    have hlt := Nat.lt_div_mul_add hpos (a := l + lLimit - 1)
    omega
  rw [hu]
  have hbias : ∀ d ∈ bias, d.stackIndex ≠ c.stackIndex := fun d hd => (hfits.bias_lt d hd).2
  refine ⟨Nat.le_succ n, fun m x y hx hy => ?_, fun m k hlt hk => ?_⟩
  · obtain ⟨hvalue, hframe⟩ := passes_multiply core post padding hfits l h
      (hpack.mul_left _) (hlP.mul_left _) u m
    rw [execAll_append]
    obtain ⟨hin, -⟩ := exec_postCommand core post padding (upDiv h core.pack) hfits.width
      hbias (execAll core post padding
        ((List.range (u + 1)).flatMap (basicPass core lLimit e l h a b c n)) m)
    refine (hin _ (line_lt hy) _ (place_lt hx y)).trans ?_
    rw [line_place, ← leftAt, hvalue x y hx hy, hall]
    refine finish_congr y _ fun d hd => ?_
    exact hframe _ (hfits.bias_lt d hd).1 fun r _ i _ => ne_at (hfits.bias_lt d hd).2 r i
  · obtain ⟨-, hframe⟩ := passes_multiply core post padding hfits l h
      (hpack.mul_left _) (hlP.mul_left _) u m
    rw [execAll_append]
    exact ((exec_postCommand core post padding _ hfits.width hbias _).2 k hk).trans
      (hframe k hlt hk)

/-- The other buffers stay as they are. -/
theorem Multiplies.same {plan : List Command × ℕ}
    (h : Multiplies core post padding n e l h' a b c bias plan) (m : Mem R) {k : ℕ × ℕ}
    (hk : k.1 < n) (hne : k.1 ≠ c.stackIndex) : execAll core post padding plan.1 m k = m k :=
  h.frame m k hk fun r _ i _ => ne_at hne r i

theorem Fits.mono {n' : ℕ} (hfits : Fits core n e a b c bias) (hn : n ≤ n') :
    Fits core n' e a b c bias :=
  { hfits with
    a_lt := hfits.a_lt.trans_le hn
    b_lt := hfits.b_lt.trans_le hn
    c_lt := hfits.c_lt.trans_le hn
    bias_lt := fun d hd => ⟨(hfits.bias_lt d hd).1.trans_le hn, (hfits.bias_lt d hd).2⟩ }

/-- Columns of a result after others. -/
theorem multiplies_below {h₁ h₂ : ℕ} {plan plan' : List Command × ℕ}
    (hfits : Fits core n e a b c bias) (hpack : core.pack ∣ h₁) (hhP : core.hP ∣ h₁)
    (hplan : Multiplies core post padding n e l h₁ a b c bias plan)
    (hplan' : Multiplies core post padding plan.2 e l h₂ a (b.sub (h₁ / core.hP) 0)
      (c.sub (h₁ / core.pack) 0) (bias.map fun d => d.sub 0 h₁) plan') :
    Multiplies core post padding n e l (h₁ + h₂) a b c bias (plan.1 ++ plan'.1, plan'.2) := by
  have hlines := upDiv_add core.pack_pos hpack h₂
  have hlines₁ := upDiv_of_dvd core.pack_pos hpack
  refine ⟨hplan.le.trans hplan'.le, fun m x y hx hy => ?_, fun m k hk hno => ?_⟩
  · rw [execAll_append]
    rcases lt_or_ge y h₁ with hlt | hge
    · rw [hplan'.frame, hplan.value m x y hx hlt]
      · exact hfits.c_lt.trans_le hplan.le
      · intro r _ i hi heq
        -- a later line
        rw [MatrixInfo.sub_at] at heq
        have hline : y / core.pack < h₁ / core.pack := Nat.div_lt_div_of_lt_of_dvd hpack hlt
        have hplace := (place_lt hx y).trans_le hfits.width
        have hi' : 0 + i < c.lineStride := (Nat.zero_add i).symm ▸ hi.trans_le hfits.width
        obtain ⟨h₁', -⟩ := MatrixInfo.at_inj hplace hi' heq
        omega
    · obtain ⟨q, rfl⟩ := Nat.exists_eq_add_of_le' hge
      have hvalue := hplan'.value (execAll core post padding plan.1 m) x q hx (by omega)
      rw [leftAt_lines c x q hpack] at hvalue
      rw [hvalue]
      have hsum : ∀ k ∈ range l, execAll core post padding plan.1 m (leftAt core a x k) *
          execAll core post padding plan.1 m (rightAt core (b.sub (h₁ / core.hP) 0) k q) =
          m (leftAt core a x k) * m (rightAt core b k (q + h₁)) := by
        intro k _
        rw [rightAt_lines b k q hhP, hplan.same m hfits.a_lt hfits.a_ne,
          hplan.same m hfits.b_lt hfits.b_ne]
      rw [sum_congr rfl hsum]
      cases bias with
      | none => rfl
      | some d =>
        obtain ⟨hlt, hne⟩ := hfits.bias_lt d rfl
        simp only [Option.map_some, finish, MatrixInfo.sub_at, zero_add]
        rw [hplan.same m hlt hne, add_comm h₁]
  · rw [execAll_append, hplan'.frame _ _ (hk.trans_le hplan.le) fun r hr i hi => ?_,
      hplan.frame m k hk fun r hr => hno r (by omega)]
    rw [MatrixInfo.sub_at, zero_add]
    exact hno _ (by omega) i hi

/-- Rows of a result after others. -/
theorem multiplies_beside {e₁ e₂ : ℕ} {plan plan' : List Command × ℕ}
    (hfits : Fits core n (e₁ + e₂) a b c bias)
    (hplan : Multiplies core post padding n e₁ l h a b c bias plan)
    (hplan' : Multiplies core post padding plan.2 e₂ l h (a.sub 0 (e₁ * core.pack)) b
      (c.sub 0 (e₁ * core.pack)) bias plan') :
    Multiplies core post padding n (e₁ + e₂) l h a b c bias (plan.1 ++ plan'.1, plan'.2) := by
  have hw := hfits.width
  rw [Nat.add_mul] at hw
  refine ⟨hplan.le.trans hplan'.le, fun m x y hx hy => ?_, fun m k hk hno => ?_⟩
  · rw [execAll_append]
    rcases lt_or_ge x e₁ with hlt | hge
    · rw [hplan'.frame, hplan.value m x y hlt hy]
      · exact hfits.c_lt.trans_le hplan.le
      · intro r _ i hi heq
        -- further on in the line
        rw [MatrixInfo.sub_at] at heq
        have hplace : x * core.pack + y % core.pack < e₁ * core.pack := place_lt hlt y
        obtain ⟨-, h₂⟩ := MatrixInfo.at_inj (by omega) (by omega) heq
        omega
    · obtain ⟨p, rfl⟩ := Nat.exists_eq_add_of_le' hge
      have hvalue := hplan'.value (execAll core post padding plan.1 m) p y (by omega) hy
      rw [leftAt_rows] at hvalue
      rw [hvalue, finish_congr y _ fun d hd =>
        hplan.same m (hfits.bias_lt d hd).1 (hfits.bias_lt d hd).2]
      refine congrArg _ (sum_congr rfl fun k _ => ?_)
      rw [leftAt_rows, hplan.same m hfits.a_lt hfits.a_ne, hplan.same m hfits.b_lt hfits.b_ne]
  · rw [Nat.add_mul] at hno
    rw [execAll_append, hplan'.frame _ _ (hk.trans_le hplan.le) fun r hr i hi => ?_,
      hplan.frame m k hk fun r hr i hi => hno r hr i (by omega)]
    rw [MatrixInfo.sub_at, zero_add]
    exact hno r hr _ (by omega)

/-- The columns after the quarters. -/
theorem multiplies_remainH {h₁ h₂ : ℕ} {plan : List Command × ℕ}
    (hfits : Fits core n e a b c bias) (hpack : core.pack ∣ h₁) (hhP : core.hP ∣ h₁)
    (hplan : Multiplies core post padding n e l h₁ a b c bias plan) :
    let rH := if 0 < h₂ then
        generateBasicMatMul core e l h₂ a (b.sub (h₁ / core.hP) 0) (c.sub (h₁ / core.pack) 0)
          (bias.map fun d => d.sub 0 h₁) plan.2
      else ([], plan.2)
    Multiplies core post padding n e l (h₁ + h₂) a b c bias (plan.1 ++ rH.1, rH.2) := by
  intro rH
  rcases Nat.eq_zero_or_pos h₂ with rfl | hpos
  · simpa [rH] using hplan
  · have hfits' := hfits.mono hplan.le
    simp only [rH, if_pos hpos]
    refine multiplies_below hfits hpack hhP hplan (basic_multiplies ?_ l h₂)
    exact ⟨hfits'.a_lt, hfits'.b_lt, hfits'.c_lt, hfits.a_ne, hfits.b_ne, hfits.width, by
      rintro d hd
      obtain ⟨d', hd', rfl⟩ := Option.mem_map.1 hd
      exact hfits'.bias_lt d' hd'⟩

/-- The rows after the quarters. -/
theorem multiplies_remainE {e₁ e₂ : ℕ} {plan : List Command × ℕ}
    (hfits : Fits core n (e₁ + e₂) a b c bias)
    (hplan : Multiplies core post padding n e₁ l h a b c bias plan) :
    let rE := if 0 < e₂ then
        generateBasicMatMul core e₂ l h (a.sub 0 (e₁ * core.pack)) b (c.sub 0 (e₁ * core.pack)) bias
          plan.2
      else ([], plan.2)
    Multiplies core post padding n (e₁ + e₂) l h a b c bias (plan.1 ++ rE.1, rE.2) := by
  intro rE
  rcases Nat.eq_zero_or_pos e₂ with rfl | hpos
  · simpa [rE] using hplan
  · have hfits' := hfits.mono hplan.le
    simp only [rE, if_pos hpos]
    refine multiplies_beside hfits hplan (basic_multiplies ?_ l h)
    refine ⟨hfits'.a_lt, hfits'.b_lt, hfits'.c_lt, hfits.a_ne, hfits.b_ne, ?_, hfits'.bias_lt⟩
    exact (Nat.mul_le_mul_right _ (Nat.le_add_left e₂ e₁)).trans hfits.width

end Plans

end Mnn.Strassen
