import Mathlib.Data.Finset.Option
import Mathlib.Data.Fintype.Card
import Mathlib.Data.Fintype.EquivFin
import Mathlib.Data.Fintype.Sets
import Mathlib.Logic.Relation

set_option autoImplicit false

/-! # Counting down a forest

The nodes of a finite forest `A` count down. A node has one share of its own and one for each
of its children, and its counter is the number of shares that are outstanding. A call for a
node gives one share back, with an atomic decrement: the call of a thread the node's own share,
the call that the call for a child makes the share of that child. The call that takes the
counter to zero goes on to the parent, and then releases the node.

A log of such calls, newest event first, is proper if each event is one that a call can get to
(`Event.Allowed`). It does not say which thread does what when. In a proper log a node's counter
reaches zero in one call (`Proper.last_unique`), after the counters of its children did
(`Proper.empty_of_child`), and the node is released by that call, once. If every thread gave its
shares back and every node that reached zero told its parent, then nothing is outstanding
(`outstanding_eq_empty`): this is where the forest has to be finite and without cycles.
-/

namespace Countdown

variable {ν τ : Type*}

inductive Event (ν τ : Type*)
  /-- the thread `t` calls for `a` -/
  | called (t : τ) (a : ν)
  /-- the call for `a`, made by the call for the child `caller`, decremented the counter -/
  | fetchSub (t : τ) (a : ν) (caller : Option ν) (remaining : Nat)
  | released (t : τ) (a : ν) (caller : Option ν)
  | returned (t : τ) (a : ν) (caller : Option ν) (result : Bool)
  deriving DecidableEq

def Event.thread : Event ν τ → τ
  | .called t _ | .fetchSub t _ _ _ | .released t _ _ | .returned t _ _ _ => t

variable {log : List (Event ν τ)} {e : Event ν τ} {a b : ν} {c d : Option ν} {t t' : τ} {r r' : Nat}

/-- The share that the calls for `a` from `c` give back was given back. -/
def Counted (log : List (Event ν τ)) (a : ν) (c : Option ν) : Prop :=
  ∃ t r, .fetchSub t a c r ∈ log

def Released (log : List (Event ν τ)) (a : ν) : Prop := ∃ t c, .released t a c ∈ log

theorem Counted.cons (h : Counted log a c) : Counted (e :: log) a c := by
  obtain ⟨t, r, h⟩ := h
  exact ⟨t, r, List.mem_cons_of_mem _ h⟩

theorem counted_cons : Counted (e :: log) a c ↔ (∃ t r, e = .fetchSub t a c r) ∨ Counted log a c := by
  constructor
  · rintro ⟨t, r, h⟩
    rcases List.mem_cons.mp h with rfl | h
    · exact Or.inl ⟨t, r, rfl⟩
    · exact Or.inr ⟨t, r, h⟩
  · rintro (⟨t, r, rfl⟩ | h)
    · exact ⟨t, r, List.mem_cons_self⟩
    · exact h.cons

theorem Released.cons (h : Released log a) : Released (e :: log) a := by
  obtain ⟨t, c, h⟩ := h
  exact ⟨t, c, List.mem_cons_of_mem _ h⟩

theorem released_cons : Released (e :: log) a ↔ (∃ t c, e = .released t a c) ∨ Released log a := by
  constructor
  · rintro ⟨t, c, h⟩
    rcases List.mem_cons.mp h with rfl | h
    · exact Or.inl ⟨t, c, rfl⟩
    · exact Or.inr ⟨t, c, h⟩
  · rintro (⟨t, c, rfl⟩ | h)
    · exact ⟨t, c, List.mem_cons_self⟩
    · exact h.cons

/-! ## Shares -/

section Shares

variable [DecidableEq ν] {parent : ν → Option ν} {A : Finset ν}

/-- The step from a node to its parent. -/
def Up (parent : ν → Option ν) (a b : ν) : Prop := parent a = some b

def children (parent : ν → Option ν) (A : Finset ν) (a : ν) : Finset ν :=
  A.filter fun c => parent c = some a

/-- The shares of `a`, by the caller that gives them back: its own and one for each child. -/
def shares (parent : ν → Option ν) (A : Finset ν) (a : ν) : Finset (Option ν) :=
  (children parent A a).insertNone

/-- A finite forest, by the parent of each node. -/
structure Forest (parent : ν → Option ν) (A : Finset ν) : Prop where
  closed : ∀ a ∈ A, ∀ p, parent a = some p → p ∈ A
  acyclic : ∀ a ∈ A, ¬ Relation.TransGen (Up parent) a a

theorem mem_children : b ∈ children parent A a ↔ b ∈ A ∧ parent b = some a := Finset.mem_filter

theorem card_shares : (shares parent A a).card = (children parent A a).card + 1 :=
  Finset.card_insertNone _

theorem none_mem_shares : none ∈ shares parent A a := by simp [shares]

theorem some_mem_shares : some b ∈ shares parent A a ↔ b ∈ A ∧ parent b = some a := by
  simp [shares, mem_children]

open Classical in
/-- The shares of `a` that were not given back yet. -/
noncomputable def outstanding (parent : ν → Option ν) (A : Finset ν) (log : List (Event ν τ))
    (a : ν) : Finset (Option ν) :=
  (shares parent A a).filter fun c => ¬ Counted log a c

theorem mem_outstanding :
    c ∈ outstanding parent A log a ↔ c ∈ shares parent A a ∧ ¬ Counted log a c := by
  simp [outstanding]

theorem outstanding_nil : outstanding parent A ([] : List (Event ν τ)) a = shares parent A a := by
  ext c
  simp [mem_outstanding, Counted]

theorem outstanding_subset :
    outstanding parent A (e :: log) a ⊆ outstanding parent A log a := by
  intro c hc
  rw [mem_outstanding] at hc ⊢
  exact ⟨hc.1, fun h => hc.2 h.cons⟩

/-- A decrement gives back its own share and no other one. -/
theorem outstanding_fetchSub :
    outstanding parent A (.fetchSub t a c r :: log) a = (outstanding parent A log a).erase c := by
  ext d
  simp only [Finset.mem_erase, mem_outstanding, counted_cons, Event.fetchSub.injEq, not_or,
    not_exists, not_and]
  constructor
  · rintro ⟨hd, hne, hnot⟩
    exact ⟨fun hdc => hne t r rfl trivial hdc.symm rfl, hd, hnot⟩
  · rintro ⟨hdc, hd, hnot⟩
    exact ⟨hd, fun _ _ _ _ hcd => absurd hcd.symm hdc, hnot⟩

theorem outstanding_of_not_fetchSub (he : ∀ t c r, e ≠ .fetchSub t a c r) :
    outstanding parent A (e :: log) a = outstanding parent A log a := by
  ext d
  have hd : ¬ ∃ t r, e = .fetchSub t a d r := by
    rintro ⟨t, r, h⟩
    exact he t d r h
  simp [mem_outstanding, counted_cons, hd]

theorem card_outstanding_le (parent : ν → Option ν) (log : List (Event ν τ)) (a : ν) :
    (outstanding parent A log a).card ≤ (children parent A a).card + 1 := by
  rw [← card_shares]
  exact Finset.card_le_card fun c hc => (mem_outstanding.mp hc).1

/-! ## Proper logs -/

/-- What lets the thread `t` call for `a`: it does so itself, or in the call for a child that
it took to zero. -/
def Entered (parent : ν → Option ν) (log : List (Event ν τ)) (t : τ) (a : ν) :
    Option ν → Prop
  | none => .called t a ∈ log
  | some b => parent b = some a ∧ ∃ d, .fetchSub t b d 1 ∈ log

omit [DecidableEq ν] in
theorem Entered.cons (h : Entered parent log t a c) : Entered parent (e :: log) t a c := by
  cases c with
  | none => exact List.mem_cons_of_mem _ h
  | some b =>
      obtain ⟨hp, d, hd⟩ := h
      exact ⟨hp, d, List.mem_cons_of_mem _ hd⟩

/-- What an event asks of the log before it. -/
def Event.Allowed (parent : ν → Option ν) (A : Finset ν) (log : List (Event ν τ)) :
    Event ν τ → Prop
  | .called _ a => a ∈ A ∧ ∀ t, .called t a ∉ log
  | .fetchSub t a c r =>
      Entered parent log t a c ∧ ¬ Counted log a c ∧ r = (outstanding parent A log a).card
  | .released t a c =>
      .fetchSub t a c 1 ∈ log ∧ ¬ Released log a ∧ ∀ p, parent a = some p → Counted log p (some a)
  | .returned t a c true => .released t a c ∈ log
  | .returned t a c false => ∃ r, 1 < r ∧ .fetchSub t a c r ∈ log

/-- Every event was allowed when it happened. -/
def Proper (parent : ν → Option ν) (A : Finset ν) : List (Event ν τ) → Prop
  | [] => True
  | e :: log => e.Allowed parent A log ∧ Proper parent A log

section Facts

variable (hF : Forest parent A)

theorem Proper.called_mem (h : Proper parent A log) (hc : .called t a ∈ log) : a ∈ A := by
  induction log with
  | nil => cases hc
  | cons e log ih =>
      rcases List.mem_cons.mp hc with rfl | hc
      · exact h.1.1
      · exact ih h.2 hc

/-- A node is called for by one thread. -/
theorem Proper.called_unique (h : Proper parent A log) (hc : .called t a ∈ log)
    (hc' : .called t' a ∈ log) : t = t' := by
  induction log with
  | nil => cases hc
  | cons e log ih =>
      rcases List.mem_cons.mp hc with rfl | hold
      · rcases List.mem_cons.mp hc' with heq | hold'
        · exact (Event.called.inj heq).1.symm
        · exact absurd hold' (h.1.2 t')
      · rcases List.mem_cons.mp hc' with rfl | hold'
        · exact absurd hold (h.1.2 t)
        · exact ih h.2 hold hold'

theorem Proper.entered_of_fetchSub (h : Proper parent A log) (hf : .fetchSub t a c r ∈ log) :
    Entered parent log t a c := by
  induction log with
  | nil => cases hf
  | cons e log ih =>
      rcases List.mem_cons.mp hf with rfl | hf
      · exact h.1.1.cons
      · exact (ih h.2 hf).cons

/-- Each share is given back in one call. -/
theorem Proper.fetchSub_unique (h : Proper parent A log) (hf : .fetchSub t a c r ∈ log)
    (hf' : .fetchSub t' a c r' ∈ log) : t = t' ∧ r = r' := by
  induction log with
  | nil => cases hf
  | cons e log ih =>
      rcases List.mem_cons.mp hf with rfl | hold
      · rcases List.mem_cons.mp hf' with heq | hold'
        · obtain ⟨rfl, -, -, rfl⟩ := Event.fetchSub.inj heq
          exact ⟨rfl, rfl⟩
        · exact absurd ⟨t', r', hold'⟩ h.1.2.1
      · rcases List.mem_cons.mp hf' with rfl | hold'
        · exact absurd ⟨t, r, hold⟩ h.1.2.1
        · exact ih h.2 hold hold'

include hF in
theorem Proper.fetchSub_mem (h : Proper parent A log) (hf : .fetchSub t a c r ∈ log) : a ∈ A := by
  induction log generalizing t a c r with
  | nil => cases hf
  | cons e log ih =>
      rcases List.mem_cons.mp hf with rfl | hf
      · have henter := h.1.1
        cases c with
        | none => exact h.2.called_mem henter
        | some b =>
            obtain ⟨hp, d, hd⟩ := henter
            exact hF.closed b (ih h.2 hd) a hp
      · exact ih h.2 hf

include hF in
theorem Proper.entered_mem (h : Proper parent A log) (hc : Entered parent log t a c) : a ∈ A := by
  cases c with
  | none => exact h.called_mem hc
  | some b =>
      obtain ⟨hp, d, hd⟩ := hc
      exact hF.closed b (h.fetchSub_mem hF hd) a hp

include hF in
/-- The share that a call gives back is one of the node. -/
theorem Proper.mem_shares (h : Proper parent A log) (hc : Entered parent log t a c) :
    c ∈ shares parent A a := by
  cases c with
  | none => exact none_mem_shares
  | some b =>
      obtain ⟨hp, d, hd⟩ := hc
      exact some_mem_shares.mpr ⟨h.fetchSub_mem hF hd, hp⟩

include hF in
/-- **No counter goes below zero.** A decrement finds its own share outstanding. -/
theorem Proper.remaining_pos (h : Proper parent A log) (hf : .fetchSub t a c r ∈ log) : 0 < r := by
  induction log with
  | nil => cases hf
  | cons e log ih =>
      rcases List.mem_cons.mp hf with rfl | hf
      · obtain ⟨henter, hnot, rfl⟩ := h.1
        exact Finset.card_pos.mpr ⟨c, mem_outstanding.mpr ⟨h.2.mem_shares hF henter, hnot⟩⟩
      · exact ih h.2 hf

include hF in
/-- The decrement that found one share left nothing outstanding. -/
theorem Proper.empty_of_last (h : Proper parent A log) (hf : .fetchSub t a c 1 ∈ log) :
    outstanding parent A log a = ∅ := by
  induction log with
  | nil => cases hf
  | cons e log ih =>
      rcases List.mem_cons.mp hf with rfl | hf
      · obtain ⟨henter, hnot, hcard⟩ := h.1
        have hmem := mem_outstanding.mpr ⟨h.2.mem_shares hF henter, hnot⟩
        have herase := Finset.card_erase_of_mem hmem
        rw [outstanding_fetchSub, ← Finset.card_eq_zero, herase, ← hcard]
      · exact Finset.subset_empty.mp (ih h.2 hf ▸ outstanding_subset)

/-- If nothing is outstanding, then a call found one share. -/
theorem Proper.last_of_empty (h : Proper parent A log) (ha : outstanding parent A log a = ∅) :
    ∃ t c, .fetchSub t a c 1 ∈ log := by
  induction log with
  | nil =>
      rw [outstanding_nil] at ha
      exact absurd ha (Finset.ne_empty_of_mem none_mem_shares)
  | cons e log ih =>
      by_cases hlog : outstanding parent A log a = ∅
      · obtain ⟨t, c, hf⟩ := ih h.2 hlog
        exact ⟨t, c, List.mem_cons_of_mem _ hf⟩
      · by_cases he : ∃ t c r, e = .fetchSub t a c r
        · obtain ⟨t, c, r, rfl⟩ := he
          obtain ⟨-, -, hcard⟩ := h.1
          rw [outstanding_fetchSub] at ha
          have hle : (outstanding parent A log a).card ≤ 1 := by
            have hpred := Finset.pred_card_le_card_erase (a := c) (s := outstanding parent A log a)
            rw [ha, Finset.card_empty] at hpred
            omega
          have hpos : 0 < (outstanding parent A log a).card :=
            Finset.card_pos.mpr (Finset.nonempty_iff_ne_empty.mpr hlog)
          have hr : r = 1 := by omega
          exact ⟨t, c, hr ▸ List.mem_cons_self⟩
        · have hne : ∀ t c r, e ≠ .fetchSub t a c r := fun t c r heq => he ⟨t, c, r, heq⟩
          rw [outstanding_of_not_fetchSub hne] at ha
          exact absurd ha hlog

theorem counted_of_empty (ha : outstanding parent A log a = ∅) (hc : c ∈ shares parent A a) :
    Counted log a c := by
  by_contra hnot
  have hmem := mem_outstanding.mpr ⟨hc, hnot⟩
  rw [ha] at hmem
  cases hmem

include hF in
theorem Proper.called_of_last (h : Proper parent A log) (hf : .fetchSub t a c 1 ∈ log) :
    ∃ t, .called t a ∈ log := by
  obtain ⟨t', r, hown⟩ := counted_of_empty (h.empty_of_last hF hf) none_mem_shares
  exact ⟨t', h.entered_of_fetchSub hown⟩

include hF in
/-- **One call takes the counter to zero.** -/
theorem Proper.last_unique (h : Proper parent A log) (hf : .fetchSub t a c 1 ∈ log)
    (hf' : .fetchSub t' a d 1 ∈ log) : t = t' ∧ c = d := by
  -- the later one of two decrements would have found nothing outstanding
  have hlate : ∀ {log : List (Event ν τ)} {t t' : τ} {c d : Option ν} {r : Nat},
      Proper parent A (.fetchSub t a c r :: log) → .fetchSub t' a d 1 ∈ log → False := by
    intro log t t' c d r h hf
    obtain ⟨henter, hnot, -⟩ := h.1
    exact hnot (counted_of_empty (h.2.empty_of_last hF hf) (h.2.mem_shares hF henter))
  induction log with
  | nil => cases hf
  | cons e log ih =>
      rcases List.mem_cons.mp hf with rfl | hold
      · rcases List.mem_cons.mp hf' with heq | hold'
        · obtain ⟨rfl, -, rfl, -⟩ := Event.fetchSub.inj heq
          exact ⟨rfl, rfl⟩
        · exact (hlate h hold').elim
      · rcases List.mem_cons.mp hf' with rfl | hold'
        · exact (hlate h hold).elim
        · exact ih h.2 hold hold'

include hF in
/-- **Children first.** When a node is at zero, its children are. -/
theorem Proper.empty_of_child (h : Proper parent A log) (ha : outstanding parent A log a = ∅)
    (hb : b ∈ children parent A a) : outstanding parent A log b = ∅ := by
  have hshare : some b ∈ shares parent A a := some_mem_shares.mpr (mem_children.mp hb)
  obtain ⟨t, r, hf⟩ := counted_of_empty ha hshare
  obtain ⟨-, d, hd⟩ := h.entered_of_fetchSub hf
  exact h.empty_of_last hF hd

/-! ### Releasing -/

/-- A node is released by the call that took it to zero, after it told the parent. -/
theorem Proper.last_of_released (h : Proper parent A log) (hr : .released t a c ∈ log) :
    .fetchSub t a c 1 ∈ log ∧ ∀ p, parent a = some p → Counted log p (some a) := by
  induction log with
  | nil => cases hr
  | cons e log ih =>
      rcases List.mem_cons.mp hr with rfl | hr
      · exact ⟨List.mem_cons_of_mem _ h.1.1, fun p hp => (h.1.2.2 p hp).cons⟩
      · obtain ⟨hf, htold⟩ := ih h.2 hr
        exact ⟨List.mem_cons_of_mem _ hf, fun p hp => (htold p hp).cons⟩

include hF in
theorem Proper.called_of_released (h : Proper parent A log) (hr : Released log a) :
    ∃ t, .called t a ∈ log := by
  obtain ⟨t, c, hr⟩ := hr
  exact h.called_of_last hF (h.last_of_released hr).1

def Event.releases (a : ν) : Event ν τ → Bool
  | .released _ b _ => b == a
  | _ => false

theorem releases_iff : e.releases a = true ↔ ∃ t c, e = .released t a c := by
  cases e <;> simp [Event.releases]

/-- **A node is released at most once.** -/
theorem Proper.countP_releases_le (h : Proper parent A log) (a : ν) :
    log.countP (Event.releases a) ≤ 1 := by
  induction log with
  | nil => exact Nat.zero_le _
  | cons e log ih =>
      by_cases he : e.releases a = true
      · obtain ⟨t, c, rfl⟩ := releases_iff.mp he
        have hzero : log.countP (Event.releases a) = 0 := by
          refine List.countP_eq_zero.mpr fun x hx hxa => ?_
          obtain ⟨t', c', rfl⟩ := releases_iff.mp hxa
          exact h.1.2.1 ⟨t', c', hx⟩
        rw [List.countP_cons_of_pos he, hzero]
      · rw [List.countP_cons_of_neg he]
        exact ih h.2

theorem Released.countP_pos (h : Released log a) : 0 < log.countP (Event.releases a) := by
  obtain ⟨t, c, h⟩ := h
  exact List.countP_pos_iff.mpr ⟨_, h, releases_iff.mpr ⟨t, c, rfl⟩⟩

/-! ### What the other threads leave alone -/

include hF in
/-- Calls for the same share are of the same thread. -/
theorem Proper.entered_unique (h : Proper parent A log) (hc : Entered parent log t a c)
    (hc' : Entered parent log t' a c) : t = t' := by
  cases c with
  | none => exact h.called_unique hc hc'
  | some b =>
      obtain ⟨-, d, hd⟩ := hc
      obtain ⟨-, d', hd'⟩ := hc'
      exact (h.last_unique hF hd hd').1

include hF in
theorem Proper.released_thread (h : Proper parent A (e :: log)) (hf : .fetchSub t a c 1 ∈ log)
    (he : e = .released t' a d) : t' = t := by
  subst he
  exact (h.2.last_unique hF h.1.1 hf).1

include hF in
theorem Proper.not_released_cons (h : Proper parent A (e :: log))
    (hf : .fetchSub t a c 1 ∈ log) (he : e.thread ≠ t) (ha : ¬ Released log a) :
    ¬ Released (e :: log) a := by
  rw [released_cons]
  rintro (⟨t', d, heq⟩ | hrel)
  · have ht' : t' = t := h.released_thread hF hf heq
    rw [heq] at he
    exact he ht'
  · exact ha hrel

include hF in
/-- The share that a thread is about to give back is given back by no other one. -/
theorem Proper.not_counted_cons (h : Proper parent A (e :: log))
    (hc : Entered parent log t a c) (he : e.thread ≠ t) (ha : ¬ Counted log a c) :
    ¬ Counted (e :: log) a c := by
  rw [counted_cons]
  rintro (⟨t', r, rfl⟩ | hcounted)
  · exact he (h.2.entered_unique hF h.1.1 hc)
  · exact ha hcounted

/-! ### Returning -/

/-- What a call that returned had done. -/
theorem Proper.fetchSub_of_returned (h : Proper parent A log) {x : Bool}
    (hr : .returned t a c x ∈ log) :
    (x = true ∧ .released t a c ∈ log) ∨ (x = false ∧ ∃ r, 1 < r ∧ .fetchSub t a c r ∈ log) := by
  induction log with
  | nil => cases hr
  | cons e log ih =>
      rcases List.mem_cons.mp hr with rfl | hr
      · cases x with
        | true => exact Or.inl ⟨rfl, List.mem_cons_of_mem _ h.1⟩
        | false =>
            obtain ⟨r, hlt, hf⟩ := h.1
            exact Or.inr ⟨rfl, r, hlt, List.mem_cons_of_mem _ hf⟩
      · rcases ih h.2 hr with ⟨hx, hrel⟩ | ⟨hx, r, hlt, hf⟩
        · exact Or.inl ⟨hx, List.mem_cons_of_mem _ hrel⟩
        · exact Or.inr ⟨hx, r, hlt, List.mem_cons_of_mem _ hf⟩

/-- **The result of a call.** It is true iff the call took the counter to zero, and iff it
released the node. -/
theorem Proper.returned_iff (h : Proper parent A log) {x : Bool}
    (hr : .returned t a c x ∈ log) :
    (x = true ↔ .fetchSub t a c 1 ∈ log) ∧ (x = true ↔ .released t a c ∈ log) := by
  rcases h.fetchSub_of_returned hr with ⟨rfl, hrel⟩ | ⟨rfl, r, hlt, hf⟩
  · exact ⟨iff_of_true rfl (h.last_of_released hrel).1, iff_of_true rfl hrel⟩
  · have hnot : .fetchSub t a c 1 ∉ log := by
      intro hone
      obtain ⟨-, hr1⟩ := h.fetchSub_unique hf hone
      omega
    exact ⟨iff_of_false (by simp) hnot,
      iff_of_false (by simp) (fun hrel => hnot (h.last_of_released hrel).1)⟩

theorem Proper.counted_of_returned (h : Proper parent A log) {x : Bool}
    (hr : .returned t a c x ∈ log) : ∃ r, .fetchSub t a c r ∈ log := by
  rcases h.fetchSub_of_returned hr with ⟨-, hrel⟩ | ⟨-, r, -, hf⟩
  · exact ⟨1, (h.last_of_released hrel).1⟩
  · exact ⟨r, hf⟩

end Facts

/-! ## The end -/

/-- What holds of a node if it holds of its children holds of all nodes. -/
theorem Forest.induction (hF : Forest parent A) {P : ν → Prop}
    (hstep : ∀ a ∈ A, (∀ b ∈ children parent A a, P b) → P a) :
    ∀ a ∈ A, P a := by
  -- the ancestors within `A` are a transitive and irreflexive relation on a finite type
  let R : A → A → Prop := fun x y => Relation.TransGen (Up parent) x y
  have : IsTrans A R := ⟨fun _ _ _ h h' => Relation.TransGen.trans h h'⟩
  have : Std.Irrefl R := ⟨fun x => hF.acyclic x x.2⟩
  have hwf : WellFounded R := Finite.wellFounded_of_trans_of_irrefl R
  intro a ha
  induction h : (⟨a, ha⟩ : A) using hwf.induction generalizing a with
  | _ x ih =>
      subst h
      refine hstep a ha fun b hb => ?_
      obtain ⟨hbA, hbp⟩ := mem_children.mp hb
      exact ih ⟨b, hbA⟩ (Relation.TransGen.single hbp) b hbA rfl

/-- **Nothing stays outstanding** once all own shares were given back, if the nodes at zero
told their parents. -/
theorem outstanding_eq_empty (hF : Forest parent A) (hown : ∀ a ∈ A, Counted log a none)
    (htold : ∀ a ∈ A, outstanding parent A log a = ∅ → ∀ p, parent a = some p →
      Counted log p (some a)) :
    ∀ a ∈ A, outstanding parent A log a = ∅ := by
  refine hF.induction fun a ha hchildren => ?_
  refine Finset.eq_empty_of_forall_notMem fun c hc => ?_
  obtain ⟨hshare, hnot⟩ := mem_outstanding.mp hc
  cases c with
  | none => exact hnot (hown a ha)
  | some b =>
      have hb : b ∈ children parent A a := mem_children.mpr (some_mem_shares.mp hshare)
      obtain ⟨hbA, hbp⟩ := mem_children.mp hb
      exact hnot (htold b hbA (hchildren b hb) a hbp)

end Shares

end Countdown
