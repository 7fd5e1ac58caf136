import Mathlib.Data.List.Count
import Mathlib.Logic.Equiv.Basic

set_option autoImplicit false

/-! # Lifetimes of owned resources

A log records what happens to resources that are made, used and destroyed, newest event
first. It is proper if nothing is made twice, and only what is alive is used or destroyed.

Owners, each of which holds at most one resource, account for a log if they hold the resources
that are alive, each of them once (`Owned`). Making, using and destroying a resource through its
owner keeps it, and so does a permutation of what the owners hold. Once nobody holds anything,
everything was destroyed exactly once (`Owned.destroyed_once`).
-/

namespace Lifetime

variable {R ι : Type*}

inductive Event (R : Type*)
  | made (r : R)
  | used (r : R)
  | destroyed (r : R)
  deriving DecidableEq

variable {log : List (Event R)} {r x : R} {e : Event R}

/-- Made, and not destroyed since. -/
def Alive (log : List (Event R)) (r : R) : Prop := .made r ∈ log ∧ .destroyed r ∉ log

/-- What an event asks of the log before it. -/
def Event.Allowed (log : List (Event R)) : Event R → Prop
  | .made r => .made r ∉ log
  | .used r | .destroyed r => Alive log r

/-- Every event was allowed when it happened. -/
def Proper : List (Event R) → Prop
  | [] => True
  | e :: log => e.Allowed log ∧ Proper log

/-! ## Proper logs -/

theorem Proper.made_of_destroyed (h : Proper log) (hr : .destroyed r ∈ log) : .made r ∈ log := by
  induction log with
  | nil => cases hr
  | cons e log ih =>
      obtain ⟨he, hlog⟩ := h
      rcases List.mem_cons.mp hr with rfl | hr
      · exact List.mem_cons_of_mem _ he.1
      · exact List.mem_cons_of_mem _ (ih hlog hr)

/-- What is made last is alive. -/
theorem Proper.alive_made (h : Proper log) (hr : .made r ∉ log) : Alive (.made r :: log) r := by
  refine ⟨List.mem_cons_self, fun hd => ?_⟩
  rcases List.mem_cons.mp hd with hd | hd
  · cases hd
  · exact hr (h.made_of_destroyed hd)

theorem alive_made_of_ne (hx : x ≠ r) : Alive (.made r :: log) x ↔ Alive log x := by
  simp [Alive, hx]

@[simp] theorem alive_used : Alive (.used r :: log) x ↔ Alive log x := by
  simp [Alive]

@[simp] theorem alive_destroyed : Alive (.destroyed r :: log) x ↔ x ≠ r ∧ Alive log x := by
  simp only [Alive, List.mem_cons, not_or, reduceCtorEq, false_or, Event.destroyed.injEq]
  tauto

/-- One event, or none. -/
theorem proper_append_toList {o : Option (Event R)} :
    Proper (o.toList ++ log) ↔ (∀ e ∈ o, e.Allowed log) ∧ Proper log := by
  cases o with
  | none => simp
  | some e => simp [Proper]

theorem Proper.of_append {log' : List (Event R)} (h : Proper (log' ++ log)) : Proper log := by
  induction log' with
  | nil => exact h
  | cons e log' ih => exact ih h.2

/-! ### Uses

What is alive does not depend on the uses. So an account of the resources is one of the log without
its uses, and may be kept when somebody who owns nothing uses what is gone. -/

def Event.isUse : Event R → Bool
  | .used _ => true
  | .made _ | .destroyed _ => false

def withoutUses (log : List (Event R)) : List (Event R) := log.filter fun e => !e.isUse

theorem mem_withoutUses (he : e.isUse = false) : e ∈ withoutUses log ↔ e ∈ log := by
  simp [withoutUses, he]

theorem alive_withoutUses : Alive (withoutUses log) r ↔ Alive log r := by
  rw [Alive, mem_withoutUses rfl, mem_withoutUses rfl, Alive]

section Count

variable [DecidableEq R]

theorem count_withoutUses (he : e.isUse = false) : (withoutUses log).count e = log.count e :=
  List.count_filter (by simp [he])

theorem Proper.count_destroyed_le (h : Proper log) (r : R) :
    log.count (.destroyed r) ≤ 1 := by
  induction log with
  | nil => simp
  | cons e log ih =>
      obtain ⟨he, hlog⟩ := h
      by_cases her : e = .destroyed r
      · subst her
        have hzero : log.count (.destroyed r) = 0 := List.count_eq_zero.mpr he.2
        rw [List.count_cons_self]
        omega
      · rw [List.count_cons_of_ne her]
        exact ih hlog

/-- What was made and is not alive was destroyed once. -/
theorem Proper.destroyed_once (h : Proper log) (hm : .made r ∈ log) (hr : ¬ Alive log r) :
    log.count (.destroyed r) = 1 := by
  have hd : Event.destroyed r ∈ log := by
    by_contra hd
    exact hr ⟨hm, hd⟩
  have hpos : 0 < log.count (.destroyed r) := List.count_pos_iff.mpr hd
  have hle : log.count (.destroyed r) ≤ 1 := h.count_destroyed_le r
  omega

end Count

/-! ## Owners -/

/-- The owners hold the resources that are alive, each of them once. -/
structure Owned (held : ι → Option R) (log : List (Event R)) : Prop where
  proper : Proper log
  alive : ∀ {i r}, held i = some r → Alive log r
  owner : ∀ {r}, Alive log r → ∃ i, held i = some r
  unique : ∀ {i j r}, held i = some r → held j = some r → i = j

variable {held : ι → Option R} {i j : ι}

theorem Owned.nil : Owned (fun _ : ι => none) ([] : List (Event R)) where
  proper := trivial
  alive h := by cases h
  owner h := by cases h.1
  unique h := by cases h

theorem Owned.use (h : Owned held log) (hi : held i = some r) : Owned held (.used r :: log) where
  proper := ⟨h.alive hi, h.proper⟩
  alive hj := alive_used.mpr (h.alive hj)
  owner hx := h.owner (alive_used.mp hx)
  unique := h.unique

/-- Exchanging what the owners hold. -/
theorem Owned.permute (h : Owned held log) (σ : Equiv.Perm ι) :
    Owned (fun k => held (σ k)) log where
  proper := h.proper
  alive hi := h.alive hi
  owner hx := by
    obtain ⟨k, hk⟩ := h.owner hx
    exact ⟨σ.symm k, by rwa [Equiv.apply_symm_apply]⟩
  unique hi hj := σ.injective (h.unique hi hj)

section Update

variable [DecidableEq ι]

theorem Owned.make (h : Owned held log) (hi : held i = none) (hr : .made r ∉ log) :
    Owned (Function.update held i (some r)) (.made r :: log) := by
  -- nobody held `r` before, for what is held was made
  have hne : ∀ {k x}, held k = some x → k ≠ i ∧ x ≠ r := by
    intro k x hk
    constructor
    · rintro rfl
      rw [hi] at hk
      cases hk
    · rintro rfl
      exact hr (h.alive hk).1
  have hheld : ∀ {k x}, Function.update held i (some r) k = some x ↔
      (k = i ∧ x = r) ∨ held k = some x := by
    intro k x
    by_cases hk : k = i
    · subst hk
      rw [Function.update_self, hi]
      simp [eq_comm]
    · rw [Function.update_of_ne hk]
      simp [hk]
  constructor
  case proper => exact ⟨hr, h.proper⟩
  case alive =>
    intro k x hk
    rcases hheld.mp hk with ⟨-, rfl⟩ | hold
    · exact h.proper.alive_made hr
    · exact (alive_made_of_ne (hne hold).2).mpr (h.alive hold)
  case owner =>
    intro x hx
    by_cases hxr : x = r
    · exact ⟨i, hheld.mpr (Or.inl ⟨rfl, hxr⟩)⟩
    · obtain ⟨k, hk⟩ := h.owner ((alive_made_of_ne hxr).mp hx)
      exact ⟨k, hheld.mpr (Or.inr hk)⟩
  case unique =>
    intro k l x hk hl
    rcases hheld.mp hk with ⟨hki, hxr⟩ | hold
    · rcases hheld.mp hl with ⟨hli, -⟩ | hold
      · rw [hki, hli]
      · exact absurd hxr (hne hold).2
    · rcases hheld.mp hl with ⟨-, hxr⟩ | hold'
      · exact absurd hxr (hne hold).2
      · exact h.unique hold hold'

theorem Owned.destroy (h : Owned held log) (hi : held i = some r) :
    Owned (Function.update held i none) (.destroyed r :: log) := by
  have hheld : ∀ {k x}, Function.update held i none k = some x ↔ k ≠ i ∧ held k = some x := by
    intro k x
    by_cases hk : k = i
    · simp [hk]
    · simp [hk]
  constructor
  case proper => exact ⟨h.alive hi, h.proper⟩
  case alive =>
    intro k x hk
    obtain ⟨hki, hk⟩ := hheld.mp hk
    refine alive_destroyed.mpr ⟨?_, h.alive hk⟩
    rintro rfl
    exact hki (h.unique hk hi)
  case owner =>
    intro x hx
    obtain ⟨hxr, hx⟩ := alive_destroyed.mp hx
    obtain ⟨k, hk⟩ := h.owner hx
    refine ⟨k, hheld.mpr ⟨?_, hk⟩⟩
    rintro rfl
    rw [hi] at hk
    exact hxr (Option.some.inj hk).symm
  case unique =>
    intro k l x hk hl
    exact h.unique (hheld.mp hk).2 (hheld.mp hl).2

/-- The owner `i` gives what it holds to `j`, which held nothing. -/
theorem Owned.move (h : Owned held log) (hj : held j = none) :
    Owned (Function.update (Function.update held i none) j (held i)) log := by
  -- `j` holds nothing, so a move is an exchange
  have hswap : Function.update (Function.update held i none) j (held i) =
      fun k => held (Equiv.swap i j k) := by
    funext k
    by_cases hkj : k = j
    · rw [hkj, Function.update_self, Equiv.swap_apply_right]
    · rw [Function.update_of_ne hkj]
      by_cases hki : k = i
      · rw [hki, Function.update_self, Equiv.swap_apply_left, hj]
      · rw [Function.update_of_ne hki, Equiv.swap_apply_of_ne_of_ne hki hkj]
  rw [hswap]
  exact h.permute _

end Update

/-- **No leak and no double destruction.** Once nobody holds anything, everything that was made
was destroyed exactly once. -/
theorem Owned.destroyed_once [DecidableEq R] (h : Owned held log) (hnone : ∀ i, held i = none)
    (hr : .made r ∈ log) : log.count (.destroyed r) = 1 := by
  refine h.proper.destroyed_once hr fun halive => ?_
  obtain ⟨i, hi⟩ := h.owner halive
  rw [hnone i] at hi
  cases hi

end Lifetime
