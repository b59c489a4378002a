import Mathlib.Data.List.Induction
import Mathlib.Data.Set.Function
import Mathlib.Logic.Function.Basic

/-!
# Names given in one pass

A pass over keys that gives a key a new name where its name is missing or was seen before.

* `visit`, `run`: the pass, for any missing name and any new names; keys may be visited again;
* `ReplacedAt`, `Replaced`: which keys get a new name, by the names at the start;
* `run_spec`: **what was seen, and the name of every key at the end**;
* `injOn_iff`: **the names at the end are distinct exactly if no new name meets another name**.
-/

namespace Lib.FreshNames

variable {κ α : Type*}

/-- The names that were seen, and the names of the keys. -/
structure State (κ α : Type*) where
  seen : List α
  name : κ → α

section Replaced

variable (missing : α) (new : κ → α)

/-- A key gets a new name after these keys, the latest of them first: its name is missing, or one of
them had its name or got it. -/
def ReplacedAt (name : κ → α) : List κ → κ → Prop
  | [], k => name k = missing
  | i :: earlier, k => name i = name k ∨
      (ReplacedAt name earlier i ∧ new i = name k) ∨ ReplacedAt name earlier k

/-- A key gets a new name at one of these keys, the latest of them first. -/
def ReplacedIn (name : κ → α) : List κ → κ → Prop
  | [], _ => False
  | i :: earlier, k => (i = k ∧ ReplacedAt missing new name earlier i) ∨ ReplacedIn name earlier k

/-- A key gets a new name. -/
def Replaced (name : κ → α) (keys : List κ) (k : κ) : Prop :=
  ReplacedIn missing new name keys.reverse k

variable {missing new} {name : κ → α} {keys : List κ} {k k' : κ}

theorem replaced_append_singleton {i : κ} : Replaced missing new name (keys ++ [i]) k ↔
    (i = k ∧ ReplacedAt missing new name keys.reverse i) ∨ Replaced missing new name keys k := by
  rw [Replaced, List.reverse_append]
  rfl

theorem Replaced.mem (h : Replaced missing new name keys k) : k ∈ keys := by
  induction keys using List.reverseRecOn with
  | nil => exact h.elim
  | append_singleton keys i ih =>
    rcases replaced_append_singleton.1 h with ⟨rfl, -⟩ | h
    · exact List.mem_append_right _ List.mem_cons_self
    · exact List.mem_append_left _ (ih h)

/-- What makes a key get a new name. -/
theorem replacedAt_iff : ReplacedAt missing new name keys.reverse k ↔ name k = missing ∨
    (∃ i ∈ keys, name i = name k) ∨ ∃ i, Replaced missing new name keys i ∧ new i = name k := by
  induction keys using List.reverseRecOn generalizing k with
  | nil => simp [ReplacedAt, Replaced, ReplacedIn]
  | append_singleton keys i ih =>
    have hcons : ReplacedAt missing new name (keys ++ [i]).reverse k ↔ name i = name k ∨
        (ReplacedAt missing new name keys.reverse i ∧ new i = name k) ∨
          ReplacedAt missing new name keys.reverse k := by
      rw [List.reverse_append]
      rfl
    rw [hcons, ih (k := k)]
    simp only [replaced_append_singleton, List.mem_append, List.mem_singleton, or_and_right,
      exists_or, exists_eq_left, and_assoc, exists_eq_left']
    constructor
    · rintro (h | h | h | h | h)
      · exact .inr (.inl (.inr h))
      · exact .inr (.inr (.inl h))
      · exact .inl h
      · exact .inr (.inl (.inl h))
      · exact .inr (.inr (.inr h))
    · rintro (h | (h | h) | h | h)
      · exact .inr (.inr (.inl h))
      · exact .inr (.inr (.inr (.inl h)))
      · exact .inl h
      · exact .inr (.inl h)
      · exact .inr (.inr (.inr (.inr h)))

/-- Keys under other names for the keys. -/
theorem replacedAt_map {ι : Type*} {φ : κ → ι} {new' name' : ι → α}
    (hname : ∀ i ∈ k :: keys, name' (φ i) = name i) (hnew : ∀ i ∈ keys, new' (φ i) = new i) :
    ReplacedAt missing new' name' (keys.map φ) (φ k) ↔ ReplacedAt missing new name keys k := by
  induction keys generalizing k with
  | nil => exact iff_of_eq (congrArg (· = missing) (hname k List.mem_cons_self))
  | cons i keys ih =>
    obtain ⟨hk, hi, hrest⟩ := (List.forall_mem_cons.1 hname).imp_right List.forall_mem_cons.1
    obtain ⟨hnewi, hnewRest⟩ := List.forall_mem_cons.1 hnew
    show name' (φ i) = name' (φ k) ∨ (ReplacedAt missing new' name' (keys.map φ) (φ i) ∧
      new' (φ i) = name' (φ k)) ∨ ReplacedAt missing new' name' (keys.map φ) (φ k) ↔ _
    rw [ih (List.forall_mem_cons.2 ⟨hk, hrest⟩) hnewRest,
      ih (List.forall_mem_cons.2 ⟨hi, hrest⟩) hnewRest, hk, hi, hnewi]
    rfl

theorem replaced_map {ι : Type*} {φ : κ → ι} {new' name' : ι → α}
    (hinj : ∀ i ∈ keys, φ i = φ k → i = k) (hname : ∀ i ∈ keys, name' (φ i) = name i)
    (hnew : ∀ i ∈ keys, new' (φ i) = new i) :
    Replaced missing new' name' (keys.map φ) (φ k) ↔ Replaced missing new name keys k := by
  induction keys using List.reverseRecOn with
  | nil => exact Iff.rfl
  | append_singleton keys i ih =>
    have hold : ∀ j ∈ keys, j ∈ keys ++ [i] := fun j hj => List.mem_append_left _ hj
    have hlast : i ∈ keys ++ [i] := List.mem_append_right _ List.mem_cons_self
    have hat : ReplacedAt missing new' name' (keys.reverse.map φ) (φ i) ↔
        ReplacedAt missing new name keys.reverse i :=
      replacedAt_map (List.forall_mem_cons.2 ⟨hname i hlast, fun j hj =>
        hname j (hold j (List.mem_reverse.1 hj))⟩) fun j hj =>
          hnew j (hold j (List.mem_reverse.1 hj))
    rw [List.map_append, List.map_singleton, replaced_append_singleton, replaced_append_singleton,
      ih (fun j hj => hinj j (hold j hj)) (fun j hj => hname j (hold j hj))
        fun j hj => hnew j (hold j hj), ← List.map_reverse, hat]
    exact or_congr_left (and_congr_left' ⟨hinj i hlast, congrArg φ⟩)

end Replaced

section Decidable

variable [DecidableEq κ] [DecidableEq α] (missing : α) (new : κ → α) (name : κ → α)

instance decidableReplacedAt :
    (earlier : List κ) → (k : κ) → Decidable (ReplacedAt missing new name earlier k)
  | [], k => inferInstanceAs (Decidable (name k = missing))
  | i :: earlier, k =>
    have := decidableReplacedAt earlier i
    have := decidableReplacedAt earlier k
    inferInstanceAs (Decidable (name i = name k ∨
      (ReplacedAt missing new name earlier i ∧ new i = name k) ∨
      ReplacedAt missing new name earlier k))

instance decidableReplacedIn :
    (keys : List κ) → (k : κ) → Decidable (ReplacedIn missing new name keys k)
  | [], _ => inferInstanceAs (Decidable False)
  | i :: earlier, k =>
    have := decidableReplacedIn earlier k
    inferInstanceAs (Decidable ((i = k ∧ ReplacedAt missing new name earlier i) ∨
      ReplacedIn missing new name earlier k))

instance (keys : List κ) (k : κ) : Decidable (Replaced missing new name keys k) :=
  inferInstanceAs (Decidable (ReplacedIn missing new name keys.reverse k))

end Decidable

section Run

variable [DecidableEq κ] [DecidableEq α] (missing : α) (new : κ → α)

def visit (s : State κ α) (k : κ) : State κ α :=
  if s.name k = missing ∨ s.name k ∈ s.seen then
    ⟨new k :: s.seen, Function.update s.name k (new k)⟩
  else ⟨s.name k :: s.seen, s.name⟩

def run (name : κ → α) (keys : List κ) : State κ α := keys.foldl (visit missing new) ⟨[], name⟩

variable {missing new} {name : κ → α} {keys : List κ} {k k' : κ}

theorem run_append_singleton : run missing new name (keys ++ [k]) =
    visit missing new (run missing new name keys) k := by
  rw [run, List.foldl_append]
  rfl

/-- A key that is visited gets a new name exactly if `ReplacedAt` says so. -/
theorem visit_condition
    (hseen : ∀ a, a ≠ missing → (a ∈ (run missing new name keys).seen ↔
      (∃ i ∈ keys, name i = a) ∨ ∃ i, Replaced missing new name keys i ∧ new i = a))
    (hname : ∀ k, (run missing new name keys).name k =
      if Replaced missing new name keys k then new k else name k) :
    (run missing new name keys).name k = missing ∨
      (run missing new name keys).name k ∈ (run missing new name keys).seen ↔
        ReplacedAt missing new name keys.reverse k := by
  by_cases hreplaced : Replaced missing new name keys k
  · -- a key that comes again is seen
    refine iff_of_true ?_ (replacedAt_iff.2 (.inr (.inl ⟨k, hreplaced.mem, rfl⟩)))
    rw [hname, if_pos hreplaced]
    by_cases hmissing : new k = missing
    · exact .inl hmissing
    · exact .inr ((hseen _ hmissing).2 (.inr ⟨k, hreplaced, rfl⟩))
  · rw [hname, if_neg hreplaced, replacedAt_iff]
    by_cases hmissing : name k = missing
    · exact iff_of_true (.inl hmissing) (.inl hmissing)
    · rw [hseen _ hmissing]

/-- **What was seen, and the names at the end.** -/
theorem run_spec : (∀ a, a ≠ missing → (a ∈ (run missing new name keys).seen ↔
      (∃ i ∈ keys, name i = a) ∨ ∃ i, Replaced missing new name keys i ∧ new i = a)) ∧
    ∀ k, (run missing new name keys).name k =
      if Replaced missing new name keys k then new k else name k := by
  induction keys using List.reverseRecOn with
  | nil =>
    refine ⟨fun a _ => ?_, fun k => (if_neg fun h : Replaced missing new name [] k => h.elim).symm⟩
    simp [run, Replaced, ReplacedIn]
  | append_singleton keys i ih =>
    obtain ⟨hseen, hname⟩ := ih
    have hcondition := visit_condition (k := i) hseen hname
    rw [run_append_singleton, visit]
    simp only [replaced_append_singleton, List.mem_append, List.mem_singleton]
    by_cases hat : ReplacedAt missing new name keys.reverse i
    · rw [if_pos (hcondition.2 hat)]
      refine ⟨fun a ha => ?_, fun k => ?_⟩
      · rw [List.mem_cons, hseen a ha]
        constructor
        · rintro (rfl | ⟨j, hj, hja⟩ | ⟨j, hj, hja⟩)
          · exact .inr ⟨i, .inl ⟨rfl, hat⟩, rfl⟩
          · exact .inl ⟨j, .inl hj, hja⟩
          · exact .inr ⟨j, .inr hj, hja⟩
        · rintro (⟨j, hj | rfl, rfl⟩ | ⟨j, ⟨rfl, -⟩ | hj, rfl⟩)
          · exact .inr (.inl ⟨j, hj, rfl⟩)
          · exact .inr ((replacedAt_iff.1 hat).resolve_left ha)
          · exact .inl rfl
          · exact .inr (.inr ⟨j, hj, rfl⟩)
      · show Function.update (run missing new name keys).name i (new i) k = _
        by_cases hki : i = k
        · rw [← hki, Function.update_self, if_pos (.inl ⟨rfl, hat⟩)]
        · rw [Function.update_of_ne fun h => hki h.symm, hname]
          simp only [hki, false_and, false_or]
    · rw [if_neg fun h => hat (hcondition.1 h)]
      have hold : (run missing new name keys).name i = name i := by
        rw [hname, if_neg fun h => hat (replacedAt_iff.2 (.inr (.inl ⟨i, h.mem, rfl⟩)))]
      refine ⟨fun a ha => ?_, fun k => ?_⟩
      · rw [List.mem_cons, hseen a ha, hold]
        constructor
        · rintro (rfl | ⟨j, hj, hja⟩ | ⟨j, hj, hja⟩)
          · exact .inl ⟨i, .inr rfl, rfl⟩
          · exact .inl ⟨j, .inl hj, hja⟩
          · exact .inr ⟨j, .inr hj, hja⟩
        · rintro (⟨j, hj | rfl, rfl⟩ | ⟨j, ⟨-, h⟩ | hj, rfl⟩)
          · exact .inr (.inl ⟨j, hj, rfl⟩)
          · exact .inl rfl
          · exact absurd h hat
          · exact .inr (.inr ⟨j, hj, rfl⟩)
      · rw [hname]
        simp only [hat, and_false, false_or]

theorem run_name (k : κ) : (run missing new name keys).name k =
    if Replaced missing new name keys k then new k else name k := run_spec.2 k

omit [DecidableEq κ] [DecidableEq α] in
/-- Keys that keep their names have different ones, and none is missing. -/
theorem keep_of_mem (hk : k ∈ keys) (hkeep : ¬ Replaced missing new name keys k) :
    name k ≠ missing ∧ ∀ k' ∈ keys, ¬ Replaced missing new name keys k' → name k' = name k →
      k' = k := by
  induction keys using List.reverseRecOn with
  | nil => exact absurd hk List.not_mem_nil
  | append_singleton keys i ih =>
    rw [replaced_append_singleton, not_or] at hkeep
    have hlast : ∀ k', ¬ Replaced missing new name (keys ++ [i]) k' →
        i = k' → name i ≠ missing ∧ ∀ j ∈ keys, name j ≠ name i := by
      intro k' hk' hik
      have hat : ¬ ReplacedAt missing new name keys.reverse i := fun hat =>
        hk' (replaced_append_singleton.2 (.inl ⟨hik, hat⟩))
      rw [replacedAt_iff, not_or, not_or] at hat
      exact ⟨hat.1, fun j hj hname => hat.2.1 ⟨j, hj, hname⟩⟩
    have hkeep' : ¬ Replaced missing new name (keys ++ [i]) k := by
      rw [replaced_append_singleton, not_or]
      exact hkeep
    by_cases hmem : k ∈ keys
    · obtain ⟨hmissing, hsame⟩ := ih hmem hkeep.2
      refine ⟨hmissing, fun k' hk' hkeep'' hname => ?_⟩
      rcases List.mem_append.1 hk' with hold | hnew
      · exact hsame k' hold (fun h => hkeep'' (replaced_append_singleton.2 (.inr h))) hname
      · have hik := List.mem_singleton.1 hnew
        exact absurd (hik ▸ hname.symm) ((hlast k' hkeep'' hik.symm).2 k hmem)
    · have hik : k = i := List.mem_singleton.1 ((List.mem_append.1 hk).resolve_left hmem)
      obtain ⟨hmissing, hsame⟩ := hlast k hkeep' hik.symm
      refine ⟨hik ▸ hmissing, fun k' hk' _ hname => ?_⟩
      rcases List.mem_append.1 hk' with hold | hnew
      · exact absurd (hik ▸ hname) (hsame k' hold)
      · exact (List.mem_singleton.1 hnew).trans hik.symm

/-- **The names at the end are distinct exactly if no new name meets another name.** -/
theorem injOn_iff : Set.InjOn (run missing new name keys).name {k | k ∈ keys} ↔
    ∀ k ∈ keys, Replaced missing new name keys k → ∀ k' ∈ keys, k' ≠ k →
      (Replaced missing new name keys k' → new k' ≠ new k) ∧
      (¬ Replaced missing new name keys k' → name k' ≠ new k) := by
  constructor
  · intro hinj k hk hreplaced k' hk' hne
    have hnot : (run missing new name keys).name k' ≠ (run missing new name keys).name k :=
      fun heq => hne (hinj hk' hk heq)
    rw [run_name, run_name, if_pos hreplaced] at hnot
    refine ⟨fun h => ?_, fun h => ?_⟩
    · rwa [if_pos h] at hnot
    · rwa [if_neg h] at hnot
  · intro h k hk k' hk' heq
    by_contra hne
    rw [run_name, run_name] at heq
    by_cases hreplaced : Replaced missing new name keys k
    · obtain ⟨hnew, hold⟩ := h k hk hreplaced k' hk' fun hkk => hne hkk.symm
      rw [if_pos hreplaced] at heq
      split_ifs at heq with hreplaced'
      · exact hnew hreplaced' heq.symm
      · exact hold hreplaced' heq.symm
    · rw [if_neg hreplaced] at heq
      split_ifs at heq with hreplaced'
      · exact (h k' hk' hreplaced' k hk hne).2 hreplaced heq
      · exact hne ((keep_of_mem hk' hreplaced').2 k hk hreplaced heq)

end Run

end Lib.FreshNames
