import Mathlib.Tactic

/-!
# Doubly linked lists

Links are two functions; a list is in them when following the links visits its members in order.

* `Seg left right prev xs nxt`: `xs` is linked, from `prev` before it to `nxt` after it;
* `seg_append`: a linked list splits anywhere;
* `Seg.reach`: following `right` visits the members;
* `Seg.push`, `Seg.insert`, `Seg.erase`: the link updates of a push, an insertion and a removal.
-/

namespace Lib

variable {ι : Type*} {left right left' right' : ι → Option ι} {prev nxt : Option ι} {xs ys : List ι}

/-- Every member's links name its neighbours in `xs`, and `prev`, `nxt` at the two ends. -/
def Seg (left right : ι → Option ι) : Option ι → List ι → Option ι → Prop
  | _, [], _ => True
  | prev, x :: xs, nxt => left x = prev ∧ right x = xs.head?.or nxt ∧ Seg left right (some x) xs nxt

theorem seg_append : Seg left right prev (xs ++ ys) nxt ↔
    Seg left right prev xs (ys.head?.or nxt) ∧ Seg left right (xs.getLast?.or prev) ys nxt := by
  induction xs generalizing prev with
  | nil => simp [Seg]
  | cons x xs ih =>
    have hlast : ((x :: xs).getLast?).or prev = xs.getLast?.or (some x) := by
      rw [List.getLast?_cons]
      cases xs.getLast? <;> rfl
    simp only [List.cons_append, Seg, ih, hlast, List.head?_append, Option.or_assoc, and_assoc]

/-- Links outside the list do not matter. -/
theorem Seg.congr (h : Seg left right prev xs nxt) (hl : ∀ x ∈ xs, left' x = left x)
    (hr : ∀ x ∈ xs, right' x = right x) : Seg left' right' prev xs nxt := by
  induction xs generalizing prev with
  | nil => trivial
  | cons x xs ih =>
    obtain ⟨h1, h2, h3⟩ := h
    refine ⟨(hl x List.mem_cons_self).trans h1, (hr x List.mem_cons_self).trans h2, ?_⟩
    exact ih h3 (fun y hy => hl y (List.mem_cons_of_mem x hy))
      fun y hy => hr y (List.mem_cons_of_mem x hy)

/-- The neighbours of a member. -/
theorem Seg.neighbours {a b : List ι} {x : ι} (h : Seg left right none (a ++ x :: b) none) :
    left x = a.getLast? ∧ right x = b.head? := by
  have hx := (seg_append.1 h).2
  exact ⟨hx.1.trans (Option.or_none ..), hx.2.1.trans (Option.or_none ..)⟩

/-- A new member at the end. -/
theorem Seg.push {c : ι} (h : Seg left right none xs none) (hnd : xs.Nodup)
    (hl : ∀ x ∈ xs, left' x = left x) (hlc : left' c = xs.getLast?)
    (hr : ∀ x ∈ xs, xs.getLast? ≠ some x → right' x = right x)
    (hrl : ∀ x, xs.getLast? = some x → right' x = some c) (hrc : right' c = none) :
    Seg left' right' none (xs ++ [c]) none := by
  refine seg_append.2 ⟨?_, hlc.trans (Option.or_none ..).symm, hrc, trivial⟩
  rcases List.eq_nil_or_concat xs with rfl | ⟨a, t, rfl⟩
  · trivial
  · rw [List.concat_eq_append] at *
    have hlast : (a ++ [t]).getLast? = some t := List.getLast?_concat ..
    have ht : t ∉ a := fun ht => (List.nodup_append'.1 hnd).2.2 ht List.mem_cons_self
    obtain ⟨ha, ht1, -, -⟩ := seg_append.1 h
    refine seg_append.2 ⟨?_, (hl t (by simp)).trans ht1, hrl t hlast, trivial⟩
    refine ha.congr (fun x hx => hl x (List.mem_append_left _ hx)) fun x hx => ?_
    refine hr x (List.mem_append_left _ hx) ?_
    rw [hlast]
    rintro ⟨⟩
    exact ht hx

/-- Following `right` from the first member visits the members. -/
theorem Seg.reach (h : Seg left right none xs none) {n : ι} :
    (∃ x, xs.head? = some x ∧ Relation.ReflTransGen (fun y z => right y = some z) x n) ↔ n ∈ xs := by
  constructor
  · rintro ⟨x, hx, hr⟩
    induction hr with
    | refl => exact List.mem_of_mem_head? hx
    | tail _ hyz ih =>
      obtain ⟨a, b, rfl⟩ := List.append_of_mem ih
      have hz := h.neighbours.2.symm.trans hyz
      exact List.mem_append_right a (List.mem_cons_of_mem _ (List.mem_of_mem_head? hz))
  · intro hn
    obtain ⟨a, b, rfl⟩ := List.append_of_mem hn
    clear hn
    induction a using List.reverseRecOn generalizing n b with
    | nil => exact ⟨n, rfl, .refl⟩
    | append_singleton a y ih =>
      rw [List.append_assoc, List.singleton_append] at h ⊢
      obtain ⟨x, hx, hr⟩ := ih (n :: b) h
      exact ⟨x, hx, hr.tail h.neighbours.2⟩

variable [DecidableEq ι]

/-- A new member `c` after `p`. -/
theorem Seg.insert {a b : List ι} {p c : ι} (h : Seg left right none (a ++ p :: b) none)
    (hnd : (a ++ p :: b).Nodup) (hl : ∀ x ∈ a ++ [p], left' x = left x)
    (hlb : ∀ x ∈ b, left' x = if b.head? = some x then some c else left x)
    (hlc : left' c = some p) (hr : ∀ x ∈ a ++ b, right' x = right x) (hrp : right' p = some c)
    (hrc : right' c = b.head?) : Seg left' right' none (a ++ p :: c :: b) none := by
  obtain ⟨ha, hp, -, hb⟩ := seg_append.1 h
  refine seg_append.2 ⟨?_, (hl p (by simp)).trans hp, hrp, hlc,
    hrc.trans (Option.or_none ..).symm, ?_⟩
  · exact ha.congr (fun x hx => hl x (List.mem_append_left _ hx))
      fun x hx => hr x (List.mem_append_left _ hx)
  · cases b with
    | nil => trivial
    | cons q b =>
      obtain ⟨hq, hq2, hq3⟩ := hb
      have hqb : q ∉ b := by
        have := (List.nodup_append'.1 hnd).2.1
        simp only [List.nodup_cons] at this
        exact this.2.1
      refine ⟨(hlb q List.mem_cons_self).trans (if_pos rfl), (hr q (by simp)).trans hq2, ?_⟩
      refine hq3.congr (fun x hx => ?_) fun x hx => hr x (by simp [hx])
      rw [hlb x (List.mem_cons_of_mem q hx), if_neg]
      rintro ⟨⟩
      exact hqb hx

/-- The member `r` after `l` is removed. -/
theorem Seg.erase {a b : List ι} {l r : ι} (h : Seg left right none (a ++ l :: r :: b) none)
    (hnd : (a ++ l :: r :: b).Nodup) (hl : ∀ x ∈ a ++ [l], left' x = left x)
    (hlb : ∀ x ∈ b, left' x = if b.head? = some x then some l else left x)
    (hr : ∀ x ∈ a ++ b, right' x = right x) (hrl : right' l = b.head?) :
    Seg left' right' none (a ++ l :: b) none := by
  obtain ⟨ha, hp, -, -, -, hb⟩ := seg_append.1 h
  refine seg_append.2 ⟨?_, (hl l (by simp)).trans hp, hrl.trans (Option.or_none ..).symm, ?_⟩
  · exact ha.congr (fun x hx => hl x (List.mem_append_left _ hx))
      fun x hx => hr x (List.mem_append_left _ hx)
  · cases b with
    | nil => trivial
    | cons q b =>
      obtain ⟨hq, hq2, hq3⟩ := hb
      have hqb : q ∉ b := by
        have := (List.nodup_append'.1 hnd).2.1
        simp only [List.nodup_cons] at this
        exact this.2.2.1
      refine ⟨(hlb q List.mem_cons_self).trans (if_pos rfl), (hr q (by simp)).trans hq2, ?_⟩
      refine hq3.congr (fun x hx => ?_) fun x hx => hr x (by simp [hx])
      rw [hlb x (List.mem_cons_of_mem q hx), if_neg]
      rintro ⟨⟩
      exact hqb hx

end Lib
