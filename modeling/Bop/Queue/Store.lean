import Bop.Basic.IntrusiveList
import Mathlib.Algebra.Group.Nat.Defs

set_option autoImplicit false

/-! # The intrusive queues of the job and task systems

`JobQueue`, `JobQueueNonThreadsafe` (`job/job_queue.cpp`) and `TaskQueue`
(`task/task_queue.cpp`) are the same intrusive FIFO list: a queue object holds `m_Head`,
`m_Tail` and `m_NumEntries`, and the links between the nodes live in the nodes (`m_Next` of a
`Job`, `m_NextLink` of a `Task`). All queues of the program link nodes of one heap, so a
`Store` has the links of all nodes and the queue objects, indexed by `κ`.

Here an operation is one atomic step: `m_Lock` of `JobQueue` and `m_Mutex` of `TaskQueue`
are taken for the whole of it. `Queue/Lock.lean` takes the operations apart into their
statements.
-/

namespace Bop

open IntrusiveList

/-- `++` on a `uint32_t`. -/
def succ32 (n : Nat) : Nat := (n + 1) % 2 ^ 32

/-- `--` on a `uint32_t`. -/
def pred32 (n : Nat) : Nat := (n + (2 ^ 32 - 1)) % 2 ^ 32

theorem pred32_of_pos {n : Nat} (h : 0 < n) (hlt : n ≤ 2 ^ 32) : pred32 n = n - 1 := by
  have hsplit : n + (2 ^ 32 - 1) = (n - 1) + 2 ^ 32 := by omega
  rw [pred32, hsplit, Nat.add_mod_right, Nat.mod_eq_of_lt (by omega)]

/-- An index that is incremented, and set back to `0` at the end. -/
theorem wrap_eq_mod {r n : Nat} (hr : r < n) (hn : n < 2 ^ 32) :
    (if succ32 r ≥ n then 0 else succ32 r) = (r + 1) % n := by
  have hsucc : succ32 r = r + 1 := Nat.mod_eq_of_lt (by omega)
  rw [hsucc]
  split
  case isTrue hge =>
    have hrn : r + 1 = n := by omega
    rw [hrn, Nat.mod_self]
  case isFalse hlt => exact (Nat.mod_eq_of_lt (by omega)).symm

/-- Counting down from a length kept modulo `2 ^ 32`. -/
theorem pred32_succ_mod (n : Nat) : pred32 ((n + 1) % 2 ^ 32) = n % 2 ^ 32 := by
  rw [pred32, Nat.mod_add_mod, show n + 1 + (2 ^ 32 - 1) = n + 2 ^ 32 by omega,
    Nat.add_mod_right]

theorem succ32_mod (n : Nat) : succ32 (n % 2 ^ 32) = (n + 1) % 2 ^ 32 := by
  rw [succ32, Nat.mod_add_mod]

/-- The members of a queue object. -/
structure Header (ν : Type*) where
  head : Option ν := none
  tail : Option ν := none
  numEntries : Nat := 0

/-- The link of every node and the members of every queue. -/
structure Store (κ ν : Type*) where
  next : ν → Option ν
  queue : κ → Header ν

namespace Store

variable {κ ν : Type*} [DecidableEq κ] [DecidableEq ν]

/-! ## The operations -/

def push (st : Store κ ν) (q : κ) (work : ν) : Store κ ν :=
  let h := st.queue q
  let next := Function.update st.next work none -- clear any previous link
  let head := match h.head with
    | none => some work
    | some x => some x
  match h.tail with
  | none =>
      ⟨next, Function.update st.queue q ⟨head, some work, succ32 h.numEntries⟩⟩
  | some t => -- single link push
      ⟨Function.update next t (some work),
        Function.update st.queue q ⟨head, some work, succ32 h.numEntries⟩⟩

def pop (st : Store κ ν) (q : κ) : Option ν × Store κ ν :=
  let h := st.queue q
  match h.head with
  | none => (none, st)
  | some result => -- single link pop
      (some result,
        { st with
          queue := Function.update st.queue q
            ⟨st.next result, if h.tail = some result then none else h.tail,
              pred32 h.numEntries⟩ })

def clear (st : Store κ ν) (q : κ) : Nat × Store κ ν :=
  ((st.queue q).numEntries, { st with queue := Function.update st.queue q ⟨none, none, 0⟩ })

def size (st : Store κ ν) (q : κ) : Nat := (st.queue q).numEntries

/-- `m_Next = nullptr` on a node, as in a constructor or `reset()`. -/
def clearNext (st : Store κ ν) (a : ν) : Store κ ν :=
  { st with next := Function.update st.next a none }

/-! ## What the queues hold -/

/-- The store represents the FIFO lists `content`, one for each queue, with no node in two
of them. Nodes outside every list may have any link. -/
structure Holds (st : Store κ ν) (content : κ → List ν) : Prop where
  repr : ∀ q, Represents st.next (st.queue q).head (st.queue q).tail (content q)
  count : ∀ q, (st.queue q).numEntries = (content q).length % 2 ^ 32
  disjoint : ∀ {q q' a}, a ∈ content q → a ∈ content q' → q = q'

variable {st st' : Store κ ν} {c : κ → List ν} {q q' : κ} {a b : ν} {l : List ν}

theorem push_next : (st.push q a).next = linkAfter st.next (st.queue q).tail a := by
  simp only [push, linkAfter]
  cases (st.queue q).tail <;> rfl

theorem push_queue : (st.push q a).queue = Function.update st.queue q
    ⟨(st.queue q).head.or (some a), some a, succ32 (st.queue q).numEntries⟩ := by
  simp only [push]
  cases (st.queue q).tail <;> cases (st.queue q).head <;> rfl

/-! An operation on a queue does not touch the members of another one. -/

theorem push_queue_of_ne (h : q' ≠ q) : (st.push q a).queue q' = st.queue q' := by
  rw [push_queue, Function.update_of_ne h]

theorem pop_queue_of_ne (h : q' ≠ q) : (st.pop q).2.queue q' = st.queue q' := by
  simp only [pop]
  split
  · rfl
  · exact Function.update_of_ne h ..

omit [DecidableEq ν] in
theorem clear_queue_of_ne (h : q' ≠ q) : (st.clear q).2.queue q' = st.queue q' :=
  Function.update_of_ne h ..

/-- Two queues never share a node with the nodes of a third one's push. -/
theorem Holds.push_frame (h : st.Holds c) (ha : ∀ q', a ∉ c q') (hne : q' ≠ q) :
    ∀ b ∈ c q', (st.push q a).next b = st.next b := by
  intro b hb
  rw [push_next]
  refine linkAfter_of_ne (fun hba => ha q' (hba ▸ hb)) (fun htl => hne ?_)
  have hbq : b ∈ c q := List.mem_of_getLast? ((h.repr q).tail_eq.symm.trans htl)
  exact h.disjoint hb hbq

/-- **Push** appends the node to its queue's list. -/
theorem Holds.push (h : st.Holds c) (ha : ∀ q', a ∉ c q') :
    (st.push q a).Holds (Function.update c q (c q ++ [a])) := by
  refine ⟨fun q' => ?_, fun q' => ?_, fun {q₁ q₂ b} h₁ h₂ => ?_⟩
  · by_cases hq : q' = q
    · subst hq
      rw [push_queue, push_next, Function.update_self, Function.update_self]
      exact (h.repr q').concat (ha q')
    · rw [push_queue, Function.update_of_ne hq, Function.update_of_ne hq]
      exact (h.repr q').congr (h.push_frame ha hq)
  · by_cases hq : q' = q
    · subst hq
      rw [push_queue, Function.update_self, Function.update_self, h.count, succ32_mod,
        List.length_append, List.length_singleton]
    · rw [push_queue, Function.update_of_ne hq, Function.update_of_ne hq, h.count]
  · have hmem : ∀ {x}, b ∈ Function.update c q (c q ++ [a]) x → b ∈ c x ∨ (x = q ∧ b = a) := by
      intro x hx
      by_cases hxq : x = q
      · subst hxq
        rw [Function.update_self, List.mem_append, List.mem_singleton] at hx
        exact hx.imp_right (fun hba => ⟨rfl, hba⟩)
      · rw [Function.update_of_ne hxq] at hx
        exact Or.inl hx
    rcases hmem h₁ with hb₁ | ⟨rfl, rfl⟩
    · rcases hmem h₂ with hb₂ | ⟨rfl, rfl⟩
      · exact h.disjoint hb₁ hb₂
      · exact absurd hb₁ (ha q₁)
    · rcases hmem h₂ with hb₂ | ⟨rfl, -⟩
      · exact absurd hb₂ (ha q₂)
      · rfl

theorem Holds.pop_nil (h : st.Holds c) (hq : c q = []) : st.pop q = (none, st) := by
  simp only [Store.pop, (h.repr q).head_none.mpr hq]

omit [DecidableEq ν] in
/-- Replacing a queue's list by a sublist of it keeps the lists disjoint. -/
theorem Holds.disjoint_update (h : st.Holds c) (hl : ∀ b ∈ l, b ∈ c q) {q₁ q₂ : κ}
    (h₁ : b ∈ Function.update c q l q₁) (h₂ : b ∈ Function.update c q l q₂) : q₁ = q₂ := by
  have hmem : ∀ {x}, b ∈ Function.update c q l x → b ∈ c x := by
    intro x hx
    by_cases hxq : x = q
    · subst hxq
      rw [Function.update_self] at hx
      exact hl b hx
    · rwa [Function.update_of_ne hxq] at hx
  exact h.disjoint (hmem h₁) (hmem h₂)

theorem pop_eq_some (hhead : (st.queue q).head = some a) :
    st.pop q = (some a, ⟨st.next, Function.update st.queue q
      ⟨st.next a, if (st.queue q).tail = some a then none else (st.queue q).tail,
        pred32 (st.queue q).numEntries⟩⟩) := by
  simp only [Store.pop, hhead]

/-- **Pop** returns the oldest node and removes it. -/
theorem Holds.pop_cons (h : st.Holds c) (hq : c q = a :: l) :
    (st.pop q).1 = some a ∧ (st.pop q).2.Holds (Function.update c q l) := by
  have hr := hq ▸ h.repr q
  rw [pop_eq_some hr.head_eq]
  refine ⟨rfl, fun q' => ?_, fun q' => ?_, fun h₁ h₂ => ?_⟩
  · by_cases hq' : q' = q
    · subst hq'
      simp only [Function.update_self]
      exact hr.uncons
    · simp only [Function.update_of_ne hq']
      exact h.repr q'
  · by_cases hq' : q' = q
    · subst hq'
      simp only [Function.update_self]
      rw [h.count, hq, List.length_cons, pred32_succ_mod]
    · simp only [Function.update_of_ne hq', h.count]
  · exact h.disjoint_update (fun b hb => hq ▸ List.mem_cons_of_mem _ hb) h₁ h₂

omit [DecidableEq ν] in
/-- **Clear** returns the length and empties the queue; the links of its nodes stay. -/
theorem Holds.clear (h : st.Holds c) :
    (st.clear q).1 = (c q).length % 2 ^ 32 ∧
      (st.clear q).2.Holds (Function.update c q []) := by
  refine ⟨h.count q, fun q' => ?_, fun q' => ?_, ?_⟩
  · by_cases hq' : q' = q
    · subst hq'
      simp only [Store.clear, Function.update_self]
      exact represents_nil
    · simp only [Store.clear, Function.update_of_ne hq']
      exact h.repr q'
  · by_cases hq' : q' = q
    · subst hq'
      simp only [Store.clear, Function.update_self, List.length_nil, Nat.zero_mod]
    · simp only [Store.clear, Function.update_of_ne hq', h.count]
  · exact fun h₁ h₂ => h.disjoint_update (fun b hb => absurd hb List.not_mem_nil) h₁ h₂

omit [DecidableEq κ] in
/-- Clearing the link of a node that is in no queue. -/
theorem Holds.clearNext (h : st.Holds c) (ha : ∀ q', a ∉ c q') : (st.clearNext a).Holds c := by
  have hne : ∀ q', ∀ b ∈ c q', (st.clearNext a).next b = st.next b := fun q' b hb =>
    Function.update_of_ne (ne_of_mem_of_not_mem hb (ha q')) _ _
  exact ⟨fun q' => (h.repr q').congr (hne q'), h.count, h.disjoint⟩

omit [DecidableEq κ] [DecidableEq ν] in
theorem Holds.size (h : st.Holds c) : st.size q = (c q).length % 2 ^ 32 := h.count q

/-! ## Membership

Most callers do not care for the order of the nodes, only for which queue a node is in. -/

/-- `a` is linked in the queue `q`. -/
def Linked (st : Store κ ν) (q : κ) (a : ν) : Prop := Reaches st.next (st.queue q).head a

/-- The store represents some lists. -/
def WellFormed (st : Store κ ν) : Prop := ∃ c, st.Holds c

omit [DecidableEq κ] [DecidableEq ν] in
theorem Holds.linked_iff (h : st.Holds c) : st.Linked q a ↔ a ∈ c q :=
  ((h.repr q).mem_iff).symm

omit [DecidableEq κ] [DecidableEq ν] in
/-- A node is linked in at most one queue. -/
theorem WellFormed.linked_unique (h : st.WellFormed) (hq : st.Linked q a)
    (hq' : st.Linked q' a) : q = q' := by
  obtain ⟨c, hc⟩ := h
  exact hc.disjoint (hc.linked_iff.mp hq) (hc.linked_iff.mp hq')

theorem WellFormed.push (h : st.WellFormed) (ha : ∀ q', ¬ st.Linked q' a) :
    (st.push q a).WellFormed ∧
      ∀ {q' b}, (st.push q a).Linked q' b ↔ st.Linked q' b ∨ (q' = q ∧ b = a) := by
  obtain ⟨c, hc⟩ := h
  have hpush : (st.push q a).Holds _ := hc.push (fun q' hm => ha q' (hc.linked_iff.mpr hm))
  refine ⟨⟨_, hpush⟩, fun {q' b} => ?_⟩
  rw [hpush.linked_iff, hc.linked_iff]
  by_cases hq : q' = q
  · simp [hq]
  · simp [hq]

theorem WellFormed.pop_some (h : st.WellFormed) (hpop : st.pop q = (some a, st')) :
    st'.WellFormed ∧ st.Linked q a ∧
      ∀ {q' b}, st'.Linked q' b ↔ st.Linked q' b ∧ b ≠ a := by
  obtain ⟨c, hc⟩ := h
  cases hq : c q with
  | nil =>
      rw [hc.pop_nil hq] at hpop
      cases hpop
  | cons x l =>
      obtain ⟨hfst, hsnd⟩ := hc.pop_cons hq
      rw [hpop] at hfst hsnd
      obtain rfl : a = x := Option.some.inj hfst
      have hal : a ∈ c q := by rw [hq]; exact List.mem_cons_self
      refine ⟨⟨_, hsnd⟩, hc.linked_iff.mpr hal, fun {q' b} => ?_⟩
      rw [hsnd.linked_iff, hc.linked_iff]
      by_cases hqq : q' = q
      · subst hqq
        have hnd := (hc.repr q').nodup
        rw [hq] at hnd
        rw [Function.update_self, hq, List.mem_cons]
        constructor
        · intro hb
          exact ⟨Or.inr hb, fun hba => (List.nodup_cons.mp hnd).1 (hba ▸ hb)⟩
        · rintro ⟨hb | hb, hne⟩
          · exact absurd hb hne
          · exact hb
      · rw [Function.update_of_ne hqq]
        constructor
        · intro hb
          exact ⟨hb, fun hba => hqq (hc.disjoint hb (hba ▸ hal))⟩
        · exact And.left

theorem WellFormed.pop_none (h : st.WellFormed) (hpop : st.pop q = (none, st')) :
    st' = st ∧ ∀ b, ¬ st.Linked q b := by
  obtain ⟨c, hc⟩ := h
  cases hq : c q with
  | nil =>
      rw [hc.pop_nil hq] at hpop
      cases hpop
      refine ⟨rfl, fun b hb => ?_⟩
      have hm := hc.linked_iff.mp hb
      rw [hq] at hm
      cases hm
  | cons x l =>
      have hfst := (hc.pop_cons hq).1
      rw [hpop] at hfst
      cases hfst

omit [DecidableEq ν] in
theorem WellFormed.clear (h : st.WellFormed) :
    (st.clear q).2.WellFormed ∧
      ∀ {q' b}, (st.clear q).2.Linked q' b ↔ st.Linked q' b ∧ q' ≠ q := by
  obtain ⟨c, hc⟩ := h
  have hclear := (hc.clear (q := q)).2
  refine ⟨⟨_, hclear⟩, fun {q' b} => ?_⟩
  rw [hclear.linked_iff, hc.linked_iff]
  by_cases hq : q' = q
  · simp [hq]
  · simp [hq]

omit [DecidableEq κ] in
theorem WellFormed.clearNext (h : st.WellFormed) (ha : ∀ q', ¬ st.Linked q' a) :
    (st.clearNext a).WellFormed ∧
      ∀ {q' b}, (st.clearNext a).Linked q' b ↔ st.Linked q' b := by
  obtain ⟨c, hc⟩ := h
  have hclr := hc.clearNext fun q' hm => ha q' (hc.linked_iff.mpr hm)
  refine ⟨⟨_, hclr⟩, fun {q' b} => ?_⟩
  rw [hclr.linked_iff, hc.linked_iff]

end Store

/-! ## The three classes -/

section Classes

variable {κ ν : Type*} [DecidableEq κ] [DecidableEq ν]

/-- `JobQueue::push` -/
def JobQueue.push (st : Store κ ν) (q : κ) (work : ν) : Store κ ν := st.push q work

/-- `JobQueue::pop` -/
def JobQueue.pop (st : Store κ ν) (q : κ) : Option ν × Store κ ν := st.pop q

/-- `JobQueue::clear` -/
def JobQueue.clear (st : Store κ ν) (q : κ) : Nat × Store κ ν := st.clear q

/-- `JobQueue::size` -/
def JobQueue.size (st : Store κ ν) (q : κ) : Nat := st.size q

/-- `JobQueueNonThreadsafe::push` -/
def JobQueueNonThreadsafe.push (st : Store κ ν) (q : κ) (work : ν) : Store κ ν :=
  st.push q work

/-- `JobQueueNonThreadsafe::pop` -/
def JobQueueNonThreadsafe.pop (st : Store κ ν) (q : κ) : Option ν × Store κ ν := st.pop q

/-- `JobQueueNonThreadsafe::clear` -/
def JobQueueNonThreadsafe.clear (st : Store κ ν) (q : κ) : Nat × Store κ ν := st.clear q

/-- `JobQueueNonThreadsafe::size` -/
def JobQueueNonThreadsafe.size (st : Store κ ν) (q : κ) : Nat := st.size q

/-- `TaskQueue::push` -/
def TaskQueue.push (st : Store κ ν) (q : κ) (t : ν) : Store κ ν := st.push q t

/-- `TaskQueue::pop` -/
def TaskQueue.pop (st : Store κ ν) (q : κ) : Option ν × Store κ ν := st.pop q

/-- `TaskQueue::clear` -/
def TaskQueue.clear (st : Store κ ν) (q : κ) : Nat × Store κ ν := st.clear q

/-- `TaskQueue::size` -/
def TaskQueue.size (st : Store κ ν) (q : κ) : Nat := st.size q

end Classes

end Bop
