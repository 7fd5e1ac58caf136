import Bop.Queue.Store
import Mathlib.Data.Finset.Card

set_option autoImplicit false

/-! # The intrusive queues refine FIFO lists

`runOps` executes a sequence of operations on any number of queues of the three classes
over one heap of nodes; `fifoOps` executes it on mathematical lists. As long as a node is
pushed only while it is in no queue, both return the same results, and the store represents
the lists (`queues_refine_fifo`).
-/

namespace Bop

open IntrusiveList

/-- Which of the three queue classes a queue object is of. -/
inductive QueueClass
  | jobQueue
  | jobQueueNonThreadsafe
  | taskQueue
  deriving DecidableEq

inductive QueueOp (κ ν : Type*)
  | push (q : κ) (work : ν)
  | pop (q : κ)
  | clear (q : κ)
  | size (q : κ)
  deriving DecidableEq

inductive QueueResult (ν : Type*)
  | pushed
  | popped (node : Option ν)
  | cleared (n : Nat)
  | entries (n : Nat)
  deriving DecidableEq

variable {κ ν : Type*}

def QueueOp.queue : QueueOp κ ν → κ
  | .push q _ => q
  | .pop q => q
  | .clear q => q
  | .size q => q

/-! ## Two executions -/

section

variable [DecidableEq κ]

/-- One operation on lists: push appends, pop returns and removes the oldest node, clear
returns the length and empties, size is the length. -/
def fifoOp (c : κ → List ν) : QueueOp κ ν → QueueResult ν × (κ → List ν)
  | .push q work => (.pushed, Function.update c q (c q ++ [work]))
  | .pop q => (.popped (c q).head?, Function.update c q (c q).tail)
  | .clear q => (.cleared (c q).length, Function.update c q [])
  | .size q => (.entries (c q).length, c)

def fifoOps (c : κ → List ν) : List (QueueOp κ ν) → List (QueueResult ν) × (κ → List ν)
  | [] => ([], c)
  | op :: ops =>
      let (r, c) := fifoOp c op
      let (rs, c) := fifoOps c ops
      (r :: rs, c)

variable [DecidableEq ν]

/-- One operation of the code, on a queue of the class `cls q`. -/
def applyOp (cls : κ → QueueClass) (st : Store κ ν) :
    QueueOp κ ν → QueueResult ν × Store κ ν
  | .push q work =>
      match cls q with
      | .jobQueue => (.pushed, JobQueue.push st q work)
      | .jobQueueNonThreadsafe => (.pushed, JobQueueNonThreadsafe.push st q work)
      | .taskQueue => (.pushed, TaskQueue.push st q work)
  | .pop q =>
      match cls q with
      | .jobQueue => (.popped (JobQueue.pop st q).1, (JobQueue.pop st q).2)
      | .jobQueueNonThreadsafe =>
          (.popped (JobQueueNonThreadsafe.pop st q).1, (JobQueueNonThreadsafe.pop st q).2)
      | .taskQueue => (.popped (TaskQueue.pop st q).1, (TaskQueue.pop st q).2)
  | .clear q =>
      match cls q with
      | .jobQueue => (.cleared (JobQueue.clear st q).1, (JobQueue.clear st q).2)
      | .jobQueueNonThreadsafe =>
          (.cleared (JobQueueNonThreadsafe.clear st q).1, (JobQueueNonThreadsafe.clear st q).2)
      | .taskQueue => (.cleared (TaskQueue.clear st q).1, (TaskQueue.clear st q).2)
  | .size q =>
      match cls q with
      | .jobQueue => (.entries (JobQueue.size st q), st)
      | .jobQueueNonThreadsafe => (.entries (JobQueueNonThreadsafe.size st q), st)
      | .taskQueue => (.entries (TaskQueue.size st q), st)

def runOps (cls : κ → QueueClass) (st : Store κ ν) :
    List (QueueOp κ ν) → List (QueueResult ν) × Store κ ν
  | [] => ([], st)
  | op :: ops =>
      let (r, st) := applyOp cls st op
      let (rs, st) := runOps cls st ops
      (r :: rs, st)

end

/-! ## The condition on the callers -/

/-- A node is pushed only while it is in no queue. -/
def QueueOp.Allowed (c : κ → List ν) : QueueOp κ ν → Prop
  | .push _ work => ∀ q, work ∉ c q
  | _ => True

/-- Every operation of the sequence is allowed where it is executed. -/
def Admissible [DecidableEq κ] : (κ → List ν) → List (QueueOp κ ν) → Prop
  | _, [] => True
  | c, op :: ops => op.Allowed c ∧ Admissible (fifoOp c op).2 ops

/-- The nodes pushed by an operation. -/
def QueueOp.nodes : QueueOp κ ν → List ν
  | .push _ work => [work]
  | _ => []

/-- Queues without entries over nodes with arbitrary links. -/
def Store.empty (next : ν → Option ν) : Store κ ν := ⟨next, fun _ => {}⟩

theorem Store.empty_holds (next : ν → Option ν) :
    (Store.empty next : Store κ ν).Holds (fun _ => []) :=
  ⟨fun _ => represents_nil, fun _ => rfl, fun h => absurd h List.not_mem_nil⟩

/-! ## The refinement -/

section

variable [DecidableEq κ] {c : κ → List ν} {op : QueueOp κ ν}

/-- An operation on lists leaves the lists of the other queues as they are. -/
theorem fifoOp_frame {q : κ} (hq : q ≠ op.queue) : (fifoOp c op).2 q = c q := by
  cases op with
  | push q' work => exact Function.update_of_ne hq _ _
  | pop q' => exact Function.update_of_ne hq _ _
  | clear q' => exact Function.update_of_ne hq _ _
  | size q' => rfl

/-- An operation brings no node into a list but the one it pushes. -/
theorem mem_fifoOp {q : κ} {a : ν} (ha : a ∈ (fifoOp c op).2 q) :
    a ∈ c q ∨ a ∈ op.nodes := by
  by_cases hq : q = op.queue
  · cases op with
    | push q' work =>
        obtain rfl : q = q' := hq
        simp only [fifoOp, Function.update_self, List.mem_append] at ha
        exact ha
    | pop q' =>
        obtain rfl : q = q' := hq
        simp only [fifoOp, Function.update_self] at ha
        exact Or.inl (List.mem_of_mem_tail ha)
    | clear q' =>
        obtain rfl : q = q' := hq
        simp only [fifoOp, Function.update_self] at ha
        cases ha
    | size q' => exact Or.inl ha
  · rw [fifoOp_frame hq] at ha
    exact Or.inl ha

/-- What an operation does to its queue depends on the list of its queue only. -/
theorem fifoOp_congr {c' : κ → List ν} (h : c' op.queue = c op.queue) :
    (fifoOp c' op).1 = (fifoOp c op).1 ∧
      (fifoOp c' op).2 op.queue = (fifoOp c op).2 op.queue := by
  cases op <;> simp_all [fifoOp, QueueOp.queue]

theorem fifoOps_concat (ops : List (QueueOp κ ν)) : ∀ c : κ → List ν,
    fifoOps c (ops ++ [op]) = ((fifoOps c ops).1 ++ [(fifoOp (fifoOps c ops).2 op).1],
      (fifoOp (fifoOps c ops).2 op).2) := by
  induction ops with
  | nil => exact fun _ => rfl
  | cons op' ops ih =>
      intro c
      simp only [List.cons_append, fifoOps, ih]

theorem fifoOps_length (ops : List (QueueOp κ ν)) : ∀ c : κ → List ν,
    (fifoOps c ops).1.length = ops.length := by
  induction ops with
  | nil => exact fun _ => rfl
  | cons op' ops ih =>
      intro c
      simp only [fifoOps, List.length_cons, ih]

theorem Admissible.concat (ops : List (QueueOp κ ν)) : ∀ {c : κ → List ν},
    Admissible c ops → op.Allowed (fifoOps c ops).2 → Admissible c (ops ++ [op]) := by
  induction ops with
  | nil => exact fun _ hop => ⟨hop, trivial⟩
  | cons op' ops ih => exact fun h hop => ⟨h.1, ih h.2 hop⟩

/-! ## Histories of lists

`history c ops` pairs every operation with the result it has when the operations run one
after the other. -/

/-- The operations with the results of running them one after the other. -/
def history (c : κ → List ν) : List (QueueOp κ ν) → List (QueueOp κ ν × QueueResult ν)
  | [] => []
  | op :: ops => (op, (fifoOp c op).1) :: history (fifoOp c op).2 ops

theorem history_eq_zip (ops : List (QueueOp κ ν)) :
    ∀ c : κ → List ν, history c ops = ops.zip (fifoOps c ops).1 := by
  induction ops with
  | nil => exact fun _ => rfl
  | cons op ops ih =>
      intro c
      rw [history, ih]
      rfl

/-- The lists hold pairwise distinct nodes, and no node is in two of them. -/
structure Separate (c : κ → List ν) : Prop where
  nodup : ∀ q, (c q).Nodup
  disjoint : ∀ {q q' a}, a ∈ c q → a ∈ c q' → q = q'

theorem Separate.fifoOp (h : Separate c) (hop : op.Allowed c) :
    Separate (fifoOp c op).2 := by
  have hout : ∀ {q}, q ≠ op.queue → (Bop.fifoOp c op).2 q = c q := fifoOp_frame
  -- what is in the queue afterwards was in it before, or was in no queue
  have hin : ((Bop.fifoOp c op).2 op.queue).Nodup ∧
      ∀ a ∈ (Bop.fifoOp c op).2 op.queue, a ∈ c op.queue ∨ ∀ q, a ∉ c q := by
    cases op with
    | push q work =>
        simp only [Bop.fifoOp, QueueOp.queue, Function.update_self]
        refine ⟨?_, fun a ha => ?_⟩
        · rw [List.nodup_append]
          refine ⟨h.nodup q, List.nodup_singleton work, fun x hx y hy hxy => hop q ?_⟩
          rw [List.mem_singleton] at hy
          rwa [← hy, ← hxy]
        · rcases List.mem_append.mp ha with ha | ha
          · exact Or.inl ha
          · rw [List.mem_singleton.mp ha]
            exact Or.inr hop
    | pop q =>
        simp only [Bop.fifoOp, QueueOp.queue, Function.update_self]
        exact ⟨(h.nodup q).tail, fun a ha => Or.inl (List.mem_of_mem_tail ha)⟩
    | clear q =>
        simp only [Bop.fifoOp, QueueOp.queue, Function.update_self]
        exact ⟨List.nodup_nil, fun a ha => absurd ha List.not_mem_nil⟩
    | size q => exact ⟨h.nodup q, fun a ha => Or.inl ha⟩
  have hsame : ∀ {q a}, q ≠ op.queue → a ∈ (Bop.fifoOp c op).2 op.queue →
      a ∈ (Bop.fifoOp c op).2 q → False := by
    intro q a hq ha hb
    rw [hout hq] at hb
    rcases hin.2 a ha with ha | ha
    · exact hq (h.disjoint hb ha)
    · exact ha q hb
  constructor
  · intro q
    by_cases hq : q = op.queue
    · rw [hq]
      exact hin.1
    · rw [hout hq]
      exact h.nodup q
  · intro q q' a ha ha'
    by_cases hq : q = op.queue
    · by_cases hq' : q' = op.queue
      · rw [hq, hq']
      · subst hq
        exact absurd ha' (hsame hq' ha)
    · by_cases hq' : q' = op.queue
      · subst hq'
        exact absurd ha (hsame hq ha')
      · rw [hout hq] at ha
        rw [hout hq'] at ha'
        exact h.disjoint ha ha'

/-- A pop returns a node only if it is in the queue or was pushed before. -/
theorem pushed_of_popped {a : ν} {q : κ} :
    ∀ (ops : List (QueueOp κ ν)) (c : κ → List ν) (h₁ h₂ : List (QueueOp κ ν × QueueResult ν)),
      history c ops = h₁ ++ (.pop q, .popped (some a)) :: h₂ → (∀ q', a ∉ c q') →
      ∃ q', (.push q' a, .pushed) ∈ h₁
  | [], c, h₁, h₂, hh, _ => by simp [history] at hh
  | op :: ops, c, h₁, h₂, hh, hc => by
      rw [history] at hh
      cases h₁ with
      | nil =>
          obtain ⟨hop, -⟩ := List.cons.inj hh
          obtain ⟨rfl, hres⟩ := Prod.mk.inj hop
          have hhead : (c q).head? = some a := QueueResult.popped.inj hres
          exact absurd (List.mem_of_head? hhead) (hc q)
      | cons e h₁ =>
          obtain ⟨rfl, hrest⟩ := List.cons.inj hh
          by_cases hpush : ∃ q', op = .push q' a
          · obtain ⟨q', rfl⟩ := hpush
            exact ⟨q', List.mem_cons_self⟩
          · have hc' : ∀ q', a ∉ (fifoOp c op).2 q' := by
              intro q' ha
              rcases mem_fifoOp ha with ha | ha
              · exact hc q' ha
              · cases op with
                | push q'' work => exact hpush ⟨q'', by rw [List.mem_singleton.mp ha]⟩
                | pop _ => cases ha
                | clear _ => cases ha
                | size _ => cases ha
            obtain ⟨q', hq'⟩ := pushed_of_popped ops _ h₁ h₂ hrest hc'
            exact ⟨q', List.mem_cons_of_mem _ hq'⟩

/-- **No node is returned twice.** Between two pops that return the same node it was pushed
again. -/
theorem pushed_between_pops {a : ν} {q q' : κ} :
    ∀ (ops : List (QueueOp κ ν)) (c : κ → List ν)
      (h₁ h₂ h₃ : List (QueueOp κ ν × QueueResult ν)), Separate c → Admissible c ops →
      history c ops = h₁ ++ (.pop q, .popped (some a)) :: h₂ ++
        (.pop q', .popped (some a)) :: h₃ →
      ∃ q'', (.push q'' a, .pushed) ∈ h₂
  | [], c, h₁, h₂, h₃, _, _, hh => by simp [history] at hh
  | op :: ops, c, h₁, h₂, h₃, hsep, hadm, hh => by
      rw [history] at hh
      cases h₁ with
      | nil =>
          obtain ⟨hop, hrest⟩ := List.cons.inj hh
          obtain ⟨rfl, hres⟩ := Prod.mk.inj hop
          have hhead : (c q).head? = some a := QueueResult.popped.inj hres
          refine pushed_of_popped ops _ h₂ h₃ hrest (fun x hx => ?_)
          -- the node was at the head of `q`, so it is in no list any more
          obtain ⟨l, hl⟩ : ∃ l, c q = a :: l := List.head?_eq_some_iff.mp hhead
          by_cases hxq : x = q
          · subst hxq
            simp only [fifoOp, Function.update_self, hl, List.tail_cons] at hx
            have hnd := hsep.nodup x
            rw [hl] at hnd
            exact (List.nodup_cons.mp hnd).1 hx
          · rw [fifoOp_frame hxq] at hx
            exact hxq (hsep.disjoint hx (List.mem_of_head? hhead))
      | cons e h₁ =>
          obtain ⟨-, hrest⟩ := List.cons.inj hh
          exact pushed_between_pops ops _ h₁ h₂ h₃ (hsep.fifoOp hadm.1) hadm.2 hrest

/-- A node in a queue stays there until a pop returns it or the queue is cleared. -/
theorem kept_of_mem {a : ν} {q : κ} :
    ∀ (ops : List (QueueOp κ ν)) (c : κ → List ν), a ∈ c q →
      a ∈ (fifoOps c ops).2 q ∨ (.pop q, .popped (some a)) ∈ history c ops ∨
        ∃ n, (.clear q, .cleared n) ∈ history c ops
  | [], c, ha => Or.inl ha
  | op :: ops, c, ha => by
      have hrec : a ∈ (fifoOp c op).2 q → a ∈ (fifoOps c (op :: ops)).2 q ∨
          (.pop q, .popped (some a)) ∈ history c (op :: ops) ∨
            ∃ n, (.clear q, .cleared n) ∈ history c (op :: ops) := by
        intro ha'
        rcases kept_of_mem ops _ ha' with h | h | ⟨n, h⟩
        · exact Or.inl h
        · exact Or.inr (Or.inl (List.mem_cons_of_mem _ h))
        · exact Or.inr (Or.inr ⟨n, List.mem_cons_of_mem _ h⟩)
      by_cases hq : q = op.queue
      · cases op with
        | push q' work =>
            obtain rfl : q = q' := hq
            exact hrec (by simp [fifoOp, ha])
        | pop q' =>
            obtain rfl : q = q' := hq
            cases hl : c q with
            | nil => rw [hl] at ha; cases ha
            | cons b l =>
                rcases List.mem_cons.mp (hl ▸ ha) with rfl | hb
                · exact Or.inr (Or.inl (by simp [history, fifoOp, hl]))
                · exact hrec (by simp [fifoOp, hl, hb])
        | clear q' =>
            obtain rfl : q = q' := hq
            exact Or.inr (Or.inr ⟨(c q).length, by simp [history, fifoOp]⟩)
        | size q' => exact hrec ha
      · exact hrec (by rw [fifoOp_frame hq]; exact ha)

/-- **No pushed node is lost.** It is still in the queue, or a later pop returned it, or a
later clear dropped it. -/
theorem kept_of_pushed {a : ν} {q : κ} :
    ∀ (ops : List (QueueOp κ ν)) (c : κ → List ν) (h₁ h₂ : List (QueueOp κ ν × QueueResult ν)),
      history c ops = h₁ ++ (.push q a, .pushed) :: h₂ →
      a ∈ (fifoOps c ops).2 q ∨ (.pop q, .popped (some a)) ∈ h₂ ∨
        ∃ n, (.clear q, .cleared n) ∈ h₂
  | [], c, h₁, h₂, hh => by simp [history] at hh
  | op :: ops, c, h₁, h₂, hh => by
      rw [history] at hh
      cases h₁ with
      | nil =>
          obtain ⟨hop, rfl⟩ := List.cons.inj hh
          obtain ⟨rfl, -⟩ := Prod.mk.inj hop
          exact kept_of_mem ops _ (by simp)
      | cons e h₁ =>
          obtain ⟨-, hrest⟩ := List.cons.inj hh
          exact kept_of_pushed ops _ h₁ h₂ hrest

/-! ## The store against the lists -/

variable [DecidableEq ν] {cls : κ → QueueClass} {st : Store κ ν}

/-- The three classes behave alike. -/
theorem applyOp_eq (cls : κ → QueueClass) (st : Store κ ν) (op : QueueOp κ ν) :
    applyOp cls st op = match op with
      | .push q work => (.pushed, st.push q work)
      | .pop q => (.popped (st.pop q).1, (st.pop q).2)
      | .clear q => (.cleared (st.clear q).1, (st.clear q).2)
      | .size q => (.entries (st.size q), st) := by
  cases op with
  | push q work => simp only [applyOp]; cases cls q <;> rfl
  | pop q => simp only [applyOp]; cases cls q <;> rfl
  | clear q => simp only [applyOp]; cases cls q <;> rfl
  | size q => simp only [applyOp]; cases cls q <;> rfl

/-- What a result looks like when lengths are kept in a `uint32_t`. -/
def QueueResult.wrap : QueueResult ν → QueueResult ν
  | .cleared n => .cleared (n % 2 ^ 32)
  | .entries n => .entries (n % 2 ^ 32)
  | r => r

/-- **One operation refines one operation on lists.** -/
theorem applyOp_refines (cls : κ → QueueClass) (h : st.Holds c) (hop : op.Allowed c) :
    (applyOp cls st op).1 = (fifoOp c op).1.wrap ∧
      (applyOp cls st op).2.Holds (fifoOp c op).2 := by
  rw [applyOp_eq]
  cases op with
  | push q work => exact ⟨rfl, h.push hop⟩
  | pop q =>
      cases hq : c q with
      | nil =>
          have hid : Function.update c q [] = c := by rw [← hq, Function.update_eq_self]
          simp only [fifoOp, hq, h.pop_nil hq, List.tail_nil, hid]
          exact ⟨rfl, h⟩
      | cons a l =>
          obtain ⟨hres, hst⟩ := h.pop_cons hq
          simp only [fifoOp, hq, hres, List.tail_cons]
          exact ⟨rfl, hst⟩
  | clear q =>
      obtain ⟨hres, hst⟩ := h.clear (q := q)
      simp only [fifoOp, hres]
      exact ⟨rfl, hst⟩
  | size q => exact ⟨by simp only [fifoOp, QueueResult.wrap, h.size], h⟩

/-- Head, tail and count of every queue agree with its list, the last link is null, the
chain from the head visits the list and ends, and no node is on two chains. -/
structure WellLinked (st : Store κ ν) (c : κ → List ν) : Prop where
  chain : ∀ q, Chain st.next (st.queue q).head (c q)
  acyclic : ∀ q, (c q).Nodup
  disjoint : ∀ q q' a, a ∈ c q → a ∈ c q' → q = q'
  head_tail : ∀ q, (st.queue q).head = none ↔ (st.queue q).tail = none
  tail_count : ∀ q, (st.queue q).tail = none ↔ (st.queue q).numEntries = 0
  count : ∀ q, (st.queue q).numEntries = (c q).length
  last_null : ∀ q t, (st.queue q).tail = some t → st.next t = none

omit [DecidableEq κ] in
/-- Pairwise distinct nodes out of fewer than `2 ^ 32` are fewer than `2 ^ 32`. -/
theorem length_lt_of_nodes {l : List ν} {nodes : Finset ν} (hnd : l.Nodup)
    (hl : ∀ a ∈ l, a ∈ nodes) (hcard : nodes.card < 2 ^ 32) : l.length < 2 ^ 32 := by
  have hsub : l.toFinset ⊆ nodes := fun a ha => hl a (List.mem_toFinset.mp ha)
  have hle := Finset.card_le_card hsub
  rw [List.toFinset_card_of_nodup hnd] at hle
  omega

omit [DecidableEq κ] in
theorem Store.Holds.wellLinked {nodes : Finset ν} (h : st.Holds c)
    (hc : ∀ q, ∀ a ∈ c q, a ∈ nodes) (hcard : nodes.card < 2 ^ 32) : WellLinked st c := by
  have hlen : ∀ q, (c q).length < 2 ^ 32 := fun q =>
    length_lt_of_nodes (h.repr q).nodup (hc q) hcard
  have hcount : ∀ q, (st.queue q).numEntries = (c q).length := fun q => by
    rw [h.count, Nat.mod_eq_of_lt (hlen q)]
  refine ⟨fun q => (h.repr q).chain, fun q => (h.repr q).nodup, fun q q' a => h.disjoint,
    fun q => ?_, fun q => ?_, hcount, fun q t ht => ?_⟩
  · rw [(h.repr q).head_none, (h.repr q).tail_none]
  · rw [(h.repr q).tail_none, hcount, List.length_eq_zero_iff]
  · exact (h.repr q).chain.last_null ((h.repr q).tail_eq.symm.trans ht)

/-- A result whose length is in range is not changed by the wrap. -/
theorem fifoOp_wrap {nodes : Finset ν} (h : st.Holds c) (hc : ∀ q, ∀ a ∈ c q, a ∈ nodes)
    (hcard : nodes.card < 2 ^ 32) : (fifoOp c op).1.wrap = (fifoOp c op).1 := by
  have hlen : ∀ q, (c q).length % 2 ^ 32 = (c q).length := fun q =>
    Nat.mod_eq_of_lt (length_lt_of_nodes (h.repr q).nodup (hc q) hcard)
  cases op with
  | push q work => rfl
  | pop q => rfl
  | clear q => simp only [fifoOp, QueueResult.wrap, hlen]
  | size q => simp only [fifoOp, QueueResult.wrap, hlen]

/-- **The run lemma.** The results agree up to the width of the lengths, and the final store
represents the final lists. -/
theorem runOps_refines (cls : κ → QueueClass) (ops : List (QueueOp κ ν)) :
    ∀ {st : Store κ ν} {c : κ → List ν}, st.Holds c → Admissible c ops →
      (runOps cls st ops).1 = (fifoOps c ops).1.map QueueResult.wrap ∧
        (runOps cls st ops).2.Holds (fifoOps c ops).2 := by
  induction ops with
  | nil => exact fun h _ => ⟨rfl, h⟩
  | cons op ops ih =>
      intro st c h hadm
      obtain ⟨hres, hst⟩ := applyOp_refines cls h hadm.1
      obtain ⟨hrs, hst'⟩ := ih hst hadm.2
      simp only [runOps, fifoOps, List.map_cons]
      exact ⟨by rw [hres, hrs], hst'⟩

/-- With fewer than `2 ^ 32` nodes no length is wrapped. -/
theorem fifoOps_wrap {nodes : Finset ν} (hcard : nodes.card < 2 ^ 32)
    (ops : List (QueueOp κ ν)) (hnodes : ∀ op ∈ ops, ∀ a ∈ op.nodes, a ∈ nodes) :
    ∀ {st : Store κ ν} {c : κ → List ν}, st.Holds c → (∀ q, ∀ a ∈ c q, a ∈ nodes) →
      Admissible c ops →
      (fifoOps c ops).1.map QueueResult.wrap = (fifoOps c ops).1 ∧
        ∀ q, ∀ a ∈ (fifoOps c ops).2 q, a ∈ nodes := by
  induction ops with
  | nil => exact fun _ hc _ => ⟨rfl, hc⟩
  | cons op ops ih =>
      intro st c h hc hadm
      have hst := (applyOp_refines (fun _ => .jobQueue) h hadm.1).2
      have hc' : ∀ q, ∀ a ∈ (fifoOp c op).2 q, a ∈ nodes := by
        intro q a ha
        rcases mem_fifoOp ha with hold | hnew
        · exact hc q a hold
        · exact hnodes op List.mem_cons_self a hnew
      obtain ⟨hrs, hc''⟩ :=
        ih (fun op' hop' => hnodes op' (List.mem_cons_of_mem _ hop')) hst hc' hadm.2
      simp only [fifoOps, List.map_cons]
      exact ⟨by rw [fifoOp_wrap h hc hcard, hrs], hc''⟩

/-- **The intrusive queues refine FIFO lists.** For any number of queues of the three classes
over nodes with arbitrary links, and any sequence of operations that pushes a node only while
it is in no queue: the results are those of the lists, the queues are well linked, and one
more operation leaves the chains of all other queues as they are. -/
theorem queues_refine_fifo (cls : κ → QueueClass) (next : ν → Option ν) (nodes : Finset ν)
    (hcard : nodes.card < 2 ^ 32) (ops : List (QueueOp κ ν))
    (hnodes : ∀ op ∈ ops, ∀ a ∈ op.nodes, a ∈ nodes)
    (hadm : Admissible (fun _ => []) ops) :
    (runOps cls (Store.empty next) ops).1 = (fifoOps (fun _ => []) ops).1 ∧
      WellLinked (runOps cls (Store.empty next) ops).2 (fifoOps (fun _ => []) ops).2 ∧
      ∀ op : QueueOp κ ν, op.Allowed (fifoOps (fun _ => []) ops).2 → ∀ q, q ≠ op.queue →
        Chain (applyOp cls (runOps cls (Store.empty next) ops).2 op).2.next
          ((applyOp cls (runOps cls (Store.empty next) ops).2 op).2.queue q).head
          ((fifoOps (fun _ => []) ops).2 q) := by
  obtain ⟨hres, hst⟩ := runOps_refines cls ops (Store.empty_holds next) hadm
  obtain ⟨hwrap, hc⟩ := fifoOps_wrap hcard ops hnodes (Store.empty_holds next)
    (fun q a ha => absurd ha List.not_mem_nil) hadm
  refine ⟨hres.trans hwrap, hst.wellLinked hc hcard, fun op hop q hq => ?_⟩
  have hop' := ((applyOp_refines cls hst hop).2.repr q).chain
  rwa [fifoOp_frame hq] at hop'

/-- A node that went through one queue and still has its link is pushed to another one. -/
theorem queues_refine_fifo_two :
    (runOps (fun q => if q = 0 then .jobQueue else .jobQueueNonThreadsafe)
        (Store.empty fun _ => some 5)
        ([.push 0 1, .push 0 2, .pop 0, .push 1 1, .size 0, .clear 0, .pop 1, .pop 1] :
          List (QueueOp Nat Nat))).1
      = [.pushed, .pushed, .popped (some 1), .pushed, .entries 1, .cleared 1,
          .popped (some 1), .popped none] :=
  (queues_refine_fifo (fun q => if q = 0 then .jobQueue else .jobQueueNonThreadsafe)
    (fun _ => some 5) {1, 2} (by decide) _
    (by simp [QueueOp.nodes])
    (by simp [Admissible, QueueOp.Allowed, fifoOp, Function.update_apply])).1

end

end Bop
