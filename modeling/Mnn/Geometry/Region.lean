import Mnn.Lib.Loops

/-!
# Copy regions

`Tensor::InsideDescribe::Region` (`source/core/TensorUtils.hpp`): a region copies a box of elements
from a strided view of its origin to a strided view of the tensor it belongs to.

* `View`, `Region`, `Region.copy`: the data and the three loops that carry out the copy;
* `Region.Copies`: the same as a relation between origin and output addresses;
* `raster`: the content of a tensor given by a list of regions, copied in order over zeros;
  `raster_of_agree`, `raster_of_last`: its elements;
* `WritesApart`: no output address is written from two places, in which case `raster_eq_iff` says
  what the content is without any order.

Offsets, strides and sizes are integers.
-/

namespace Mnn

/-- `Tensor::InsideDescribe::View`. -/
structure View where
  offset : ℤ := 0
  stride : Fin 3 → ℤ := fun _ => 1
  deriving DecidableEq

/-- `Tensor::InsideDescribe::Region`, with origins of any type. -/
structure Region (τ : Type*) where
  src : View := {}
  dst : View := {}
  size : Fin 3 → ℤ := fun _ => 1
  origin : τ
  deriving DecidableEq

/-- The address of an element of a view. -/
def View.address (v : View) (i : Fin 3 → ℤ) : ℤ :=
  v.offset + i 0 * v.stride 0 + i 1 * v.stride 1 + i 2 * v.stride 2

/-- The indices of a box. -/
def InBox (size i : Fin 3 → ℤ) : Prop := ∀ k, 0 ≤ i k ∧ i k < size k

instance (size i : Fin 3 → ℤ) : Decidable (InBox size i) := inferInstanceAs (Decidable (∀ _, _))

/-- The indices of a box in the order of the loops over `z`, `y` and `x`. -/
def boxIndices (size : Fin 3 → ℤ) : List (Fin 3 → ℤ) :=
  (List.range (size 0).toNat).flatMap fun z : ℕ => (List.range (size 1).toNat).flatMap fun y : ℕ =>
    (List.range (size 2).toNat).map fun x : ℕ => ![(z : ℤ), (y : ℤ), (x : ℤ)]

theorem mem_boxIndices {size i : Fin 3 → ℤ} : i ∈ boxIndices size ↔ InBox size i := by
  simp only [boxIndices, List.mem_flatMap, List.mem_map, List.mem_range]
  constructor
  · rintro ⟨z, hz, y, hy, x, hx, rfl⟩ k
    fin_cases k <;> simp <;> omega
  · intro h
    have h₀ := h 0
    have h₁ := h 1
    have h₂ := h 2
    refine ⟨(i 0).toNat, by omega, (i 1).toNat, by omega, (i 2).toNat, by omega, ?_⟩
    funext k
    fin_cases k <;> simp <;> omega

theorem exists_box {a b c : ℤ} {P : (Fin 3 → ℤ) → Prop} : (∃ i, InBox ![a, b, c] i ∧ P i) ↔
    ∃ z y x, (0 ≤ z ∧ z < a) ∧ (0 ≤ y ∧ y < b) ∧ (0 ≤ x ∧ x < c) ∧ P ![z, y, x] := by
  constructor
  · rintro ⟨i, hi, hP⟩
    have heq : i = ![i 0, i 1, i 2] := by
      funext k
      fin_cases k <;> rfl
    exact ⟨i 0, i 1, i 2, hi 0, hi 1, hi 2, heq ▸ hP⟩
  · rintro ⟨z, y, x, hz, hy, hx, hP⟩
    refine ⟨![z, y, x], fun k => ?_, hP⟩
    fin_cases k
    · exact hz
    · exact hy
    · exact hx

/-- Digits of the base `n`. -/
theorem digits_unique {n o o' r r' : ℤ} (hr : 0 ≤ r) (hrn : r < n) (hr' : 0 ≤ r') (hrn' : r' < n)
    (h : o * n + r = o' * n + r') : o = o' ∧ r = r' := by
  have hn : 0 < n := hr.trans_lt hrn
  have hdiv : ∀ a b : ℤ, 0 ≤ b → b < n → (a * n + b) / n = a := fun a b hb hbn =>
    (Int.ediv_eq_iff_of_pos hn).2 ⟨by omega, by omega⟩
  obtain rfl : o = o' := by rw [← hdiv o r hr hrn, h, hdiv o' r' hr' hrn']
  exact ⟨rfl, by omega⟩

namespace Region

variable {τ V : Type*}

/-- The loops of a copy, from an origin's content into the output's. -/
def copy (r : Region τ) (src dst : ℤ → V) : ℤ → V :=
  (boxIndices r.size).foldl
    (fun dst i => Function.update dst (r.dst.address i) (src (r.src.address i))) dst

/-- The region copies origin address `s` to output address `o`. -/
def Copies (r : Region τ) (s o : ℤ) : Prop :=
  ∃ i, InBox r.size i ∧ r.src.address i = s ∧ r.dst.address i = o

/-- No output address is written from two origin addresses. -/
def Functional (r : Region τ) : Prop := ∀ ⦃s s' o⦄, r.Copies s o → r.Copies s' o → s = s'

theorem copies_iff_mem {r : Region τ} {s o : ℤ} :
    r.Copies s o ↔
      (s, o) ∈ (boxIndices r.size).map fun i => (r.src.address i, r.dst.address i) := by
  simp only [Copies, List.mem_map, mem_boxIndices, Prod.mk.injEq]

theorem not_copies_of_size {r : Region τ} {k : Fin 3} (h : r.size k ≤ 0) (s o : ℤ) :
    ¬ r.Copies s o := by
  rintro ⟨i, hi, -, -⟩
  have := hi k
  omega

/-- Assignments to addresses other than `o` leave `o` alone. -/
theorem foldl_update_of_notMem (l : List (ℤ × ℤ)) (src dst : ℤ → V) {o : ℤ}
    (h : ∀ s, (s, o) ∉ l) :
    l.foldl (fun dst p => Function.update dst p.2 (src p.1)) dst o = dst o :=
  Lib.foldl_update_of_ne l Prod.snd (fun p => src p.1)
    (fun p hp (hpo : p.2 = o) => h p.1 (hpo ▸ hp)) dst

/-- All assignments to `o` assign the same. -/
theorem foldl_update_of_agree (l : List (ℤ × ℤ)) (src dst : ℤ → V) {o : ℤ} {x : V}
    (hex : ∃ s, (s, o) ∈ l) (h : ∀ s, (s, o) ∈ l → src s = x) :
    l.foldl (fun dst p => Function.update dst p.2 (src p.1)) dst o = x := by
  obtain ⟨s, hs⟩ := hex
  exact Lib.foldl_update_of_agree l Prod.snd (fun p => src p.1)
    (fun p hp (hpo : p.2 = o) => h p.1 (hpo ▸ hp)) dst (.inl ⟨(s, o), hs, rfl⟩)

theorem foldl_update_of_mem (l : List (ℤ × ℤ)) (src dst : ℤ → V) {s o : ℤ}
    (h : ∀ s', (s', o) ∈ l → s' = s) (hmem : (s, o) ∈ l) :
    l.foldl (fun dst p => Function.update dst p.2 (src p.1)) dst o = src s :=
  foldl_update_of_agree l src dst ⟨s, hmem⟩ fun s' hs' => congrArg src (h s' hs')

theorem copy_eq_foldl (r : Region τ) (src dst : ℤ → V) :
    r.copy src dst = ((boxIndices r.size).map fun i => (r.src.address i, r.dst.address i)).foldl
      (fun dst p => Function.update dst p.2 (src p.1)) dst := by
  rw [copy, List.foldl_map]

theorem copy_of_copies {r : Region τ} (hr : r.Functional) (src dst : ℤ → V) {s o : ℤ}
    (h : r.Copies s o) : r.copy src dst o = src s := by
  rw [copy_eq_foldl]
  exact foldl_update_of_mem _ src dst (fun s' hs' => hr (copies_iff_mem.2 hs') h)
    (copies_iff_mem.1 h)

theorem copy_of_agree {r : Region τ} (src dst : ℤ → V) {o : ℤ} {x : V} (hex : ∃ s, r.Copies s o)
    (h : ∀ s, r.Copies s o → src s = x) : r.copy src dst o = x := by
  rw [copy_eq_foldl]
  exact foldl_update_of_agree _ src dst (hex.imp fun s hs => copies_iff_mem.1 hs)
    fun s hs => h s (copies_iff_mem.2 hs)

theorem copy_of_not_copies {r : Region τ} (src dst : ℤ → V) {o : ℤ} (h : ∀ s, ¬ r.Copies s o) :
    r.copy src dst o = dst o := by
  rw [copy_eq_foldl]
  exact foldl_update_of_notMem _ src dst fun s hs => h s (copies_iff_mem.2 hs)

end Region

/-! ### Lists of regions -/

section Raster

variable {τ V : Type*} [Zero V]

/-- The content of a tensor with these regions: each is copied in turn over zeros. -/
def raster (regions : List (Region τ)) (value : τ → ℤ → V) : ℤ → V :=
  regions.foldl (fun dst r => r.copy (value r.origin) dst) fun _ => 0

omit [Zero V] in
theorem foldl_copy_of_not_copies (regions : List (Region τ)) (value : τ → ℤ → V) (dst : ℤ → V)
    {o : ℤ} (h : ∀ r ∈ regions, ∀ s, ¬ r.Copies s o) :
    regions.foldl (fun dst r => r.copy (value r.origin) dst) dst o = dst o := by
  induction regions generalizing dst with
  | nil => rfl
  | cons r regions ih =>
    rw [List.foldl_cons, ih _ fun r' hr' => h r' (List.mem_cons_of_mem r hr'),
      Region.copy_of_not_copies _ _ (h r List.mem_cons_self)]

omit [Zero V] in
theorem foldl_copy_of_agree {regions : List (Region τ)} (value : τ → ℤ → V) (dst : ℤ → V) {o : ℤ}
    {x : V} (hex : ∃ r ∈ regions, ∃ s, r.Copies s o)
    (h : ∀ r ∈ regions, ∀ s, r.Copies s o → value r.origin s = x) :
    regions.foldl (fun dst r => r.copy (value r.origin) dst) dst o = x := by
  induction regions generalizing dst with
  | nil => exact absurd hex.choose_spec.1 List.not_mem_nil
  | cons r regions ih =>
    rw [List.foldl_cons]
    by_cases htail : ∃ r ∈ regions, ∃ s, r.Copies s o
    · exact ih _ htail fun r' hr' => h r' (List.mem_cons_of_mem r hr')
    · obtain ⟨r', hr', s, hs⟩ := hex
      have hhead : r' = r := (List.mem_cons.1 hr').resolve_right fun hmem => htail ⟨r', hmem, s, hs⟩
      have hnot : ∀ r ∈ regions, ∀ s, ¬ r.Copies s o := fun r hr s hs => htail ⟨r, hr, s, hs⟩
      rw [foldl_copy_of_not_copies _ _ _ hnot]
      exact Region.copy_of_agree _ _ ⟨s, hhead ▸ hs⟩ (h r List.mem_cons_self)

/-- All copies to an address copy the same. -/
theorem raster_of_agree {regions : List (Region τ)} {value : τ → ℤ → V} {o : ℤ} {x : V}
    (hex : ∃ r ∈ regions, ∃ s, r.Copies s o)
    (h : ∀ r ∈ regions, ∀ s, r.Copies s o → value r.origin s = x) : raster regions value o = x :=
  foldl_copy_of_agree value _ hex h

/-- What an address holds whatever the origins hold, is copied there. -/
theorem exists_copies_of_raster [Nontrivial V] {regions : List (Region τ)} {t : τ} {s o : ℤ}
    (h : ∀ value : τ → ℤ → V, raster regions value o = value t s) :
    ∃ r ∈ regions, r.Copies s o := by
  by_contra hnone
  obtain ⟨x, hx⟩ := exists_ne (0 : V)
  have hvalue := h fun _ a => if a = s then x else 0
  rw [if_pos rfl] at hvalue
  have hzero : raster regions (fun (_ : τ) a => if a = s then x else 0) o = 0 := by
    by_cases hex : ∃ r ∈ regions, ∃ a, r.Copies a o
    · refine raster_of_agree hex fun r hr a ha => if_neg ?_
      rintro rfl
      exact hnone ⟨r, hr, ha⟩
    · exact foldl_copy_of_not_copies regions (fun (_ : τ) a => if a = s then x else 0)
        (fun _ => (0 : V)) fun r hr a ha => hex ⟨r, hr, a, ha⟩
  exact hx (hvalue.symm.trans hzero)

/-- The last copy to an address counts. -/
theorem raster_of_last {pre post : List (Region τ)} {r : Region τ} {value : τ → ℤ → V} {o : ℤ}
    {x : V} (hex : ∃ s, r.Copies s o) (h : ∀ s, r.Copies s o → value r.origin s = x)
    (hpost : ∀ r' ∈ post, ∀ s, ¬ r'.Copies s o) : raster (pre ++ r :: post) value o = x := by
  rw [raster, List.foldl_append, List.foldl_cons, foldl_copy_of_not_copies _ _ _ hpost]
  exact Region.copy_of_agree _ _ hex h

/-- The regions write disjoint parts, and each of them writes an address from one place only. -/
structure WritesApart (regions : List (Region τ)) : Prop where
  functional : ∀ r ∈ regions, r.Functional
  apart : regions.Pairwise fun r r' => ∀ s s' o, r.Copies s o → ¬ r'.Copies s' o

/-- What the regions leave at address `o`: the element copied there, or zero. -/
def Leaves (regions : List (Region τ)) (value : τ → ℤ → V) (o : ℤ) (x : V) : Prop :=
  (∃ r ∈ regions, ∃ s, r.Copies s o ∧ x = value r.origin s) ∨
    ((∀ r ∈ regions, ∀ s, ¬ r.Copies s o) ∧ x = 0)

omit [Zero V] in
theorem foldl_copy_of_copies {regions : List (Region τ)} (hw : WritesApart regions)
    (value : τ → ℤ → V) (dst : ℤ → V) {r : Region τ} (hr : r ∈ regions) {s o : ℤ}
    (h : r.Copies s o) :
    regions.foldl (fun dst r => r.copy (value r.origin) dst) dst o = value r.origin s := by
  induction regions generalizing dst with
  | nil => exact absurd hr List.not_mem_nil
  | cons r' regions ih =>
    obtain ⟨hhead, htail⟩ := List.pairwise_cons.1 hw.apart
    have hw' : WritesApart regions :=
      ⟨fun r hr => hw.functional r (List.mem_cons_of_mem r' hr), htail⟩
    rw [List.foldl_cons]
    rcases List.mem_cons.1 hr with rfl | hr
    · rw [foldl_copy_of_not_copies _ _ _ fun r' hr' s' => hhead r' hr' s s' o h,
        Region.copy_of_copies (hw.functional r List.mem_cons_self) _ _ h]
    · exact ih hw' _ hr

/-- Where the regions write apart, their order does not matter. -/
theorem raster_eq_iff {regions : List (Region τ)} (hw : WritesApart regions)
    (value : τ → ℤ → V) (o : ℤ) (x : V) :
    raster regions value o = x ↔ Leaves regions value o x := by
  by_cases h : ∃ r ∈ regions, ∃ s, r.Copies s o
  · obtain ⟨r, hr, s, hs⟩ := h
    have hcopy := foldl_copy_of_copies hw value (fun _ => 0) hr hs
    rw [raster, hcopy]
    constructor
    · rintro rfl
      exact .inl ⟨r, hr, s, hs, rfl⟩
    · rintro (⟨r', hr', s', hs', rfl⟩ | ⟨hnot, -⟩)
      · rw [← hcopy, foldl_copy_of_copies hw value _ hr' hs']
      · exact absurd hs (hnot r hr s)
  · have hnot : ∀ r ∈ regions, ∀ s, ¬ r.Copies s o := fun r hr s hs => h ⟨r, hr, s, hs⟩
    rw [raster, foldl_copy_of_not_copies _ _ _ hnot]
    constructor
    · rintro rfl
      exact .inr ⟨hnot, rfl⟩
    · rintro (⟨r, hr, s, hs, -⟩ | ⟨-, rfl⟩)
      · exact absurd hs (hnot r hr s)
      · rfl

/-! ### Changing the list -/

omit [Zero V] in
theorem writesApart_perm {l l' : List (Region τ)} (h : l.Perm l') :
    WritesApart l ↔ WritesApart l' := by
  have hsymm : ∀ {r r' : Region τ}, (∀ s s' o, r.Copies s o → ¬ r'.Copies s' o) →
      ∀ s s' o, r'.Copies s o → ¬ r.Copies s' o := fun h s s' o hs hs' => h s' s o hs' hs
  exact ⟨fun hw =>
      ⟨fun r hr => hw.functional r (h.mem_iff.2 hr), (h.pairwise_iff hsymm).1 hw.apart⟩,
    fun hw => ⟨fun r hr => hw.functional r (h.mem_iff.1 hr), (h.pairwise_iff hsymm).2 hw.apart⟩⟩

theorem leaves_congr {l l' : List (Region τ)} (h : ∀ r s o, r.Copies s o → (r ∈ l ↔ r ∈ l'))
    (value : τ → ℤ → V) (o : ℤ) (x : V) : Leaves l value o x ↔ Leaves l' value o x := by
  have key : ∀ {l l' : List (Region τ)}, (∀ r s o, r.Copies s o → (r ∈ l ↔ r ∈ l')) →
      Leaves l value o x → Leaves l' value o x := by
    rintro l l' h (⟨r, hr, s, hs, hx⟩ | ⟨hnot, hx⟩)
    · exact .inl ⟨r, (h r s o hs).1 hr, s, hs, hx⟩
    · exact .inr ⟨fun r hr s hs => hnot r ((h r s o hs).2 hr) s hs, hx⟩
  exact ⟨key h, key fun r s o hs => (h r s o hs).symm⟩

omit [Zero V] in
/-- A region without effect may come and go. -/
theorem writesApart_cons_of_not_copies {r : Region τ} {l : List (Region τ)}
    (h : ∀ s o, ¬ r.Copies s o) : WritesApart (r :: l) ↔ WritesApart l := by
  constructor
  · exact fun hw => ⟨fun r' hr' => hw.functional r' (List.mem_cons_of_mem r hr'),
      (List.pairwise_cons.1 hw.apart).2⟩
  · refine fun hw => ⟨fun r' hr' => ?_, List.pairwise_cons.2
      ⟨fun r' _ s s' o hs => absurd hs (h s o), hw.apart⟩⟩
    rcases List.mem_cons.1 hr' with rfl | hr'
    · exact fun s _ o hs => absurd hs (h s o)
    · exact hw.functional r' hr'

omit [Zero V] in
theorem WritesApart.sublist {l l' : List (Region τ)} (hw : WritesApart l) (h : l'.Sublist l) :
    WritesApart l' :=
  ⟨fun r hr => hw.functional r (h.subset hr), hw.apart.sublist h⟩

/-- The region `c` copies what `b` copies of the part that `a` writes. -/
def Composes (a b c : Region τ) : Prop := ∀ s o, c.Copies s o ↔ ∃ m, a.Copies s m ∧ b.Copies m o

section Inline

variable {b : Region τ} {rest inner : List (Region τ)} {f : Region τ → Region τ}
  (hf : ∀ a ∈ inner, Composes a b (f a)) (hw : WritesApart (b :: rest)) (hinner : WritesApart inner)

include hf hw hinner

omit [Zero V] in
/-- A region may be replaced by its compositions with the regions of its origin. -/
theorem writesApart_inline : WritesApart (inner.map f ++ rest) := by
  have hb : b.Functional := hw.functional b List.mem_cons_self
  obtain ⟨hbrest, hrest⟩ := List.pairwise_cons.1 hw.apart
  refine ⟨fun r hr => ?_, List.pairwise_append.2 ⟨?_, hrest, fun r hr r' hr' s s' o hs hs' => ?_⟩⟩
  · rcases List.mem_append.1 hr with hr | hr
    · obtain ⟨a, ha, rfl⟩ := List.mem_map.1 hr
      intro s s' o hs hs'
      obtain ⟨m, hm, hmo⟩ := (hf a ha s o).1 hs
      obtain ⟨m', hm', hmo'⟩ := (hf a ha s' o).1 hs'
      obtain rfl := hb hmo hmo'
      exact hinner.functional a ha hm hm'
    · exact hw.functional r (List.mem_cons_of_mem b hr)
  · rw [List.pairwise_map]
    refine List.Pairwise.imp_of_mem ?_ hinner.apart
    intro a a' ha ha' hapart s s' o hs hs'
    obtain ⟨m, hm, hmo⟩ := (hf a ha s o).1 hs
    obtain ⟨m', hm', hmo'⟩ := (hf a' ha' s' o).1 hs'
    obtain rfl := hb hmo hmo'
    exact hapart s s' m hm hm'
  · obtain ⟨a, ha, rfl⟩ := List.mem_map.1 hr
    obtain ⟨m, -, hmo⟩ := (hf a ha s o).1 hs
    exact hbrest r' hr' m s' o hmo hs'

theorem leaves_inline (horigin : ∀ a ∈ inner, ∀ s o, (f a).Copies s o → (f a).origin = a.origin)
    (value : τ → ℤ → V) (hvalue : value b.origin = raster inner value) (o : ℤ) (x : V) :
    Leaves (b :: rest) value o x ↔ Leaves (inner.map f ++ rest) value o x := by
  obtain ⟨hbrest, -⟩ := List.pairwise_cons.1 hw.apart
  have hraster := raster_eq_iff hinner value
  have hnot : ∀ {m}, b.Copies m o → (∀ a ∈ inner, ∀ s, ¬ a.Copies s m) →
      ∀ r ∈ inner.map f ++ rest, ∀ s, ¬ r.Copies s o := by
    intro m hmo hunwritten r hr s hs
    rcases List.mem_append.1 hr with hr | hr
    · obtain ⟨a, ha, rfl⟩ := List.mem_map.1 hr
      obtain ⟨m', hm', hmo'⟩ := (hf a ha s o).1 hs
      obtain rfl := hw.functional b List.mem_cons_self hmo hmo'
      exact hunwritten a ha s hm'
    · exact hbrest r hr m s o hmo hs
  constructor
  · rintro (⟨r, hr, m, hm, rfl⟩ | ⟨hnone, rfl⟩)
    · rcases List.mem_cons.1 hr with rfl | hr
      · -- the origin holds what one of its regions left there, or zero
        rcases (hraster m _).1 rfl with ⟨a, ha, s, hs, hx⟩ | ⟨hunwritten, hx⟩
        · have hcopies : (f a).Copies s o := (hf a ha s o).2 ⟨m, hs, hm⟩
          refine .inl ⟨f a, List.mem_append_left _ (List.mem_map_of_mem ha), s, hcopies, ?_⟩
          rw [hvalue, hx, horigin a ha s o hcopies]
        · exact .inr ⟨hnot hm hunwritten, by rw [hvalue, hx]⟩
      · exact .inl ⟨r, List.mem_append_right _ hr, m, hm, rfl⟩
    · refine .inr ⟨fun r hr s hs => ?_, rfl⟩
      rcases List.mem_append.1 hr with hr | hr
      · obtain ⟨a, ha, rfl⟩ := List.mem_map.1 hr
        obtain ⟨m, -, hmo⟩ := (hf a ha s o).1 hs
        exact hnone b List.mem_cons_self m hmo
      · exact hnone r (List.mem_cons_of_mem b hr) s hs
  · rintro (⟨r, hr, s, hs, rfl⟩ | ⟨hnone, rfl⟩)
    · rcases List.mem_append.1 hr with hr | hr
      · obtain ⟨a, ha, rfl⟩ := List.mem_map.1 hr
        obtain ⟨m, hm, hmo⟩ := (hf a ha s o).1 hs
        refine .inl ⟨b, List.mem_cons_self, m, hmo, ?_⟩
        rw [hvalue, horigin a ha s o hs, (hraster m _).2 (.inl ⟨a, ha, s, hm, rfl⟩)]
      · exact .inl ⟨r, List.mem_cons_of_mem b hr, s, hs, rfl⟩
    · by_cases hb : ∃ m, b.Copies m o
      · obtain ⟨m, hm⟩ := hb
        refine .inl ⟨b, List.mem_cons_self, m, hm, ?_⟩
        rw [hvalue, (hraster m 0).2 (.inr ⟨fun a ha s hs => ?_, rfl⟩)]
        exact hnone (f a) (List.mem_append_left _ (List.mem_map_of_mem ha)) s
          ((hf a ha s o).2 ⟨m, hs, hm⟩)
      · refine .inr ⟨fun r hr s hs => ?_, rfl⟩
        rcases List.mem_cons.1 hr with rfl | hr
        · exact hb ⟨s, hs⟩
        · exact hnone r (List.mem_append_right _ hr) s hs

end Inline

end Raster

end Mnn
