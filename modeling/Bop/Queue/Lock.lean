import Bop.Basic.Transition
import Bop.Queue.Fifo

set_option autoImplicit false

/-! # The locked queue operations, statement by statement

`JobQueue` and `TaskQueue` guard their operations by an `atomic_flag`. Here every access to
the flag, to `m_Head`, `m_Tail`, `m_NumEntries` and to the link of a node is one step, and
the steps of any number of threads interleave. The two classes execute the same statements
in the same order (`TaskQueue` takes and clears its flag in `LockGuard`).

There is one assertion for each control point inside an operation (`Inside`): what the queue
looks like there, in terms of the list it held when the flag was taken. A statement keeps the
assertion of the thread that executes it (`inside_statement`) and writes nothing that the
assertions of the other threads speak of (`statement_frame`, `Inside.frame`).
`Queue/Linearizable.lean` puts the threads together.
-/

namespace Bop.Lock

open IntrusiveList Transition

variable {τ κ ν : Type*}

/-- Where a thread is in an operation of a queue, with its local variables. -/
inductive Pc (κ ν : Type*)
  | idle
  | acquire (op : QueueOp κ ν)                    -- while (m_Lock.test_and_set());
  -- push
  | pushNext (q : κ) (work : ν)                   -- work->m_Next = nullptr;
  | pushReadHead (q : κ) (work : ν)               -- if (!m_Head)
  | pushHead (q : κ) (work : ν)                   --     m_Head = work;
  | pushReadTail (q : κ) (work : ν)               -- if (!m_Tail)
  | pushTail (q : κ) (work : ν)                   --     m_Tail = work;
  | pushLast (q : κ) (work : ν)                   -- else { m_Tail->
  | pushLink (q : κ) (work t : ν)                 --            m_Next = work;
  | pushNewTail (q : κ) (work : ν)                --     m_Tail = work; }
  | pushReadCount (q : κ) (work : ν)              -- ++m_NumEntries, the read
  | pushCount (q : κ) (work : ν) (n : Nat)        -- ++m_NumEntries, the write
  -- pop
  | popReadHead (q : κ)                           -- auto* result = m_Head;
  | popReadNext (q : κ) (result : ν)              -- result->m_Next
  | popHead (q : κ) (result : ν) (n : Option ν)   -- m_Head = ..
  | popReadCount (q : κ) (result : ν)             -- --m_NumEntries, the read
  | popCount (q : κ) (result : ν) (n : Nat)       -- --m_NumEntries, the write
  | popReadTail (q : κ) (result : ν)              -- if (result == m_Tail)
  | popTail (q : κ) (result : ν)                  --     m_Tail = nullptr;
  -- clear
  | clearReadCount (q : κ)                        -- uint32_t result = m_NumEntries;
  | clearHead (q : κ) (result : Nat)              -- m_Head = nullptr;
  | clearTail (q : κ) (result : Nat)              -- m_Tail = nullptr;
  | clearCount (q : κ) (result : Nat)             -- m_NumEntries = 0;
  -- size
  | sizeReadCount (q : κ)                         -- uint32_t result = m_NumEntries;
  | release (op : QueueOp κ ν) (result : QueueResult ν)  -- m_Lock.clear(); return result;

/-- The first statement of an operation after it took the flag. -/
def entry : QueueOp κ ν → Pc κ ν
  | .push q work => .pushNext q work
  | .pop q => .popReadHead q
  | .clear q => .clearReadCount q
  | .size q => .sizeReadCount q

/-- The operation a thread is executing. -/
def Pc.op : Pc κ ν → Option (QueueOp κ ν)
  | .idle => none
  | .acquire op | .release op _ => some op
  | .pushNext q work | .pushReadHead q work | .pushHead q work | .pushReadTail q work
  | .pushTail q work | .pushLast q work | .pushLink q work _ | .pushNewTail q work
  | .pushReadCount q work | .pushCount q work _ => some (.push q work)
  | .popReadHead q | .popReadNext q _ | .popHead q _ _ | .popReadCount q _ | .popCount q _ _
  | .popReadTail q _ | .popTail q _ => some (.pop q)
  | .clearReadCount q | .clearHead q _ | .clearTail q _ | .clearCount q _ => some (.clear q)
  | .sizeReadCount q => some (.size q)

/-- The operation of a thread that holds the flag. -/
def Pc.held : Pc κ ν → Option (QueueOp κ ν)
  | .acquire _ => none
  | pc => pc.op

section

variable [DecidableEq κ] [DecidableEq ν]

/-- Writing one member of a queue object. -/
def setHeader (st : Store κ ν) (q : κ) (h : Header ν) : Store κ ν :=
  { st with queue := Function.update st.queue q h }

def setNext (st : Store κ ν) (a : ν) (n : Option ν) : Store κ ν :=
  { st with next := Function.update st.next a n }

/-- One statement between taking the flag and clearing it. -/
def statement (st : Store κ ν) : Pc κ ν → Option (Store κ ν × Pc κ ν)
  | .pushNext q work => some (setNext st work none, .pushReadHead q work)
  | .pushReadHead q work =>
      some (st, if (st.queue q).head = none then .pushHead q work else .pushReadTail q work)
  | .pushHead q work =>
      some (setHeader st q { st.queue q with head := some work }, .pushReadTail q work)
  | .pushReadTail q work =>
      some (st, if (st.queue q).tail = none then .pushTail q work else .pushLast q work)
  | .pushTail q work =>
      some (setHeader st q { st.queue q with tail := some work }, .pushReadCount q work)
  | .pushLast q work => (st.queue q).tail.map (fun t => (st, .pushLink q work t))
  | .pushLink q work t => some (setNext st t (some work), .pushNewTail q work)
  | .pushNewTail q work =>
      some (setHeader st q { st.queue q with tail := some work }, .pushReadCount q work)
  | .pushReadCount q work => some (st, .pushCount q work (st.queue q).numEntries)
  | .pushCount q work n =>
      some (setHeader st q { st.queue q with numEntries := succ32 n },
        .release (.push q work) .pushed)
  | .popReadHead q =>
      some (st, match (st.queue q).head with
        | none => .release (.pop q) (.popped none)
        | some result => .popReadNext q result)
  | .popReadNext q result => some (st, .popHead q result (st.next result))
  | .popHead q result n =>
      some (setHeader st q { st.queue q with head := n }, .popReadCount q result)
  | .popReadCount q result => some (st, .popCount q result (st.queue q).numEntries)
  | .popCount q result n =>
      some (setHeader st q { st.queue q with numEntries := pred32 n }, .popReadTail q result)
  | .popReadTail q result =>
      some (st, if (st.queue q).tail = some result then .popTail q result
        else .release (.pop q) (.popped (some result)))
  | .popTail q result =>
      some (setHeader st q { st.queue q with tail := none },
        .release (.pop q) (.popped (some result)))
  | .clearReadCount q => some (st, .clearHead q (st.queue q).numEntries)
  | .clearHead q result =>
      some (setHeader st q { st.queue q with head := none }, .clearTail q result)
  | .clearTail q result =>
      some (setHeader st q { st.queue q with tail := none }, .clearCount q result)
  | .clearCount q result =>
      some (setHeader st q { st.queue q with numEntries := 0 },
        .release (.clear q) (.cleared result))
  | .sizeReadCount q => some (st, .release (.size q) (.entries (st.queue q).numEntries))
  | .idle | .acquire _ | .release _ _ => none

/-- The shared memory, the control points, and a record of what happened: the operations in
the order in which they took their flags, the position of each thread's operation in that
order, the results of the operations that cleared their flags, and what these left in the
queues. -/
structure State (τ κ ν : Type*) where
  flag : κ → Bool
  store : Store κ ν
  pc : τ → Pc κ ν
  acquired : List (QueueOp κ ν)
  ticket : τ → Nat
  returned : List (Nat × QueueResult ν)
  content : κ → List ν

def init (next : ν → Option ν) : State τ κ ν where
  flag := fun _ => false
  store := Store.empty next
  pc := fun _ => .idle
  acquired := []
  ticket := fun _ => 0
  returned := []
  content := fun _ => []

inductive Action (τ κ ν : Type*)
  | call (t : τ) (op : QueueOp κ ν)
  | run (t : τ)

variable [DecidableEq τ]

def step (s : State τ κ ν) : Action τ κ ν → Option (State τ κ ν)
  | .call t op =>
      match s.pc t with
      | .idle => some { s with pc := Function.update s.pc t (.acquire op) }
      | _ => none
  | .run t =>
      match s.pc t with
      | .idle => none
      | .acquire op =>
          if s.flag op.queue then some s -- the attempt failed, try again
          else some { s with
            flag := Function.update s.flag op.queue true
            pc := Function.update s.pc t (entry op)
            acquired := s.acquired ++ [op]
            ticket := Function.update s.ticket t s.acquired.length }
      | .release op result => some { s with
          flag := Function.update s.flag op.queue false
          pc := Function.update s.pc t .idle
          returned := (s.ticket t, result) :: s.returned
          content := (fifoOp s.content op).2 }
      | pc => (statement s.store pc).map (fun (store, pc') =>
          { s with store := store, pc := Function.update s.pc t pc' })

/-- The callers' obligation: a node is pushed by at most one thread at a time, and only
while the finished operations left it in no queue. -/
def Disciplined (s : State τ κ ν) : Action τ κ ν → Prop
  | .call _ (.push _ work) =>
      (∀ q, work ∉ s.content q) ∧ ∀ t' q, (s.pc t').op ≠ some (.push q work)
  | _ => True

end

/-! ## The assertions -/

/-- The queue object and the links represent `l`. -/
def Repr (st : Store κ ν) (q : κ) (l : List ν) : Prop :=
  Represents st.next (st.queue q).head (st.queue q).tail l ∧
    (st.queue q).numEntries = l.length % 2 ^ 32

/-- A push has cleared the link of its node and set the head of an empty queue. -/
structure Headed (st : Store κ ν) (q : κ) (l : List ν) (work : ν) : Prop where
  chain : Chain st.next l.head? l
  null : st.next work = none
  head_eq : (st.queue q).head = l.head?.or (some work)
  tail_eq : (st.queue q).tail = l.getLast?
  count : (st.queue q).numEntries = l.length % 2 ^ 32

/-- A push has linked its node; the count is still the old one. -/
structure Appended (st : Store κ ν) (q : κ) (l : List ν) (work : ν) : Prop where
  chain : Chain st.next (st.queue q).head (l ++ [work])
  tail_eq : (st.queue q).tail = some work
  count : (st.queue q).numEntries = l.length % 2 ^ 32

/-- A pop has moved the head past its result; tail and count are still the old ones. -/
structure Unheaded (st : Store κ ν) (q : κ) (l : List ν) (result : ν) : Prop where
  first : l.head? = some result
  chain : Chain st.next (st.queue q).head l.tail
  tail_eq : (st.queue q).tail = l.getLast?

/-- **The assertions.** What the queue looks like at each control point, where `c` are the
lists the finished operations left. -/
def Inside [DecidableEq κ] (st : Store κ ν) (c : κ → List ν) : Pc κ ν → Prop
  | .idle => True
  | .acquire _ => True
  | .pushNext q _ => Repr st q (c q)
  | .pushReadHead q work => Repr st q (c q) ∧ st.next work = none
  | .pushHead q work => Repr st q (c q) ∧ st.next work = none ∧ c q = []
  | .pushReadTail q work => Headed st q (c q) work
  | .pushTail q work => Headed st q (c q) work ∧ c q = []
  | .pushLast q work => Headed st q (c q) work ∧ c q ≠ []
  | .pushLink q work t => Headed st q (c q) work ∧ (c q).getLast? = some t
  | .pushNewTail q work =>
      Chain st.next (st.queue q).head (c q ++ [work]) ∧
        (st.queue q).numEntries = (c q).length % 2 ^ 32
  | .pushReadCount q work => Appended st q (c q) work
  | .pushCount q work n => Appended st q (c q) work ∧ n = (c q).length % 2 ^ 32
  | .popReadHead q => Repr st q (c q)
  | .popReadNext q result => Repr st q (c q) ∧ (c q).head? = some result
  | .popHead q result n =>
      Repr st q (c q) ∧ (c q).head? = some result ∧ n = st.next result
  | .popReadCount q result =>
      Unheaded st q (c q) result ∧ (st.queue q).numEntries = (c q).length % 2 ^ 32
  | .popCount q result n => Unheaded st q (c q) result ∧ n = (c q).length % 2 ^ 32
  | .popReadTail q result =>
      Unheaded st q (c q) result ∧ (st.queue q).numEntries = (c q).tail.length % 2 ^ 32
  | .popTail q result =>
      Unheaded st q (c q) result ∧ (st.queue q).numEntries = (c q).tail.length % 2 ^ 32 ∧
        c q = [result]
  | .clearReadCount q => Repr st q (c q)
  | .clearHead q result => result = (c q).length % 2 ^ 32
  | .clearTail q result => result = (c q).length % 2 ^ 32 ∧ (st.queue q).head = none
  | .clearCount q result =>
      result = (c q).length % 2 ^ 32 ∧ (st.queue q).head = none ∧ (st.queue q).tail = none
  | .sizeReadCount q => Repr st q (c q)
  | .release op result =>
      Repr st op.queue ((fifoOp c op).2 op.queue) ∧ result = (fifoOp c op).1.wrap

section

variable {st st' : Store κ ν} {c : κ → List ν} {q : κ} {a t work result : ν} {l : List ν}
  {pc pc' : Pc κ ν}

theorem Repr.headed (h : Repr st q l) (hnull : st.next work = none)
    (hne : (st.queue q).head ≠ none) : Headed st q l work := by
  have hhead := h.1.head_eq
  refine ⟨hhead ▸ h.1.chain, hnull, ?_, h.1.tail_eq, h.2⟩
  obtain ⟨x, hx⟩ := Option.ne_none_iff_exists'.mp hne
  rw [← hhead, hx, Option.some_or]

theorem Headed.tail_none (h : Headed st q l work) : (st.queue q).tail = none ↔ l = [] := by
  rw [h.tail_eq, List.getLast?_eq_none_iff]

/-- The node of a push on an empty queue is the whole chain. -/
theorem Headed.alone (h : Headed st q [] work) :
    Chain st.next (st.queue q).head ([] ++ [work]) := by
  rw [h.head_eq]
  exact ⟨rfl, h.null⟩

/-- A pop of the last node leaves the tail pointing to it, one of another node leaves the
tail right. -/
theorem Unheaded.tail_iff (h : Unheaded st q l result) (hnd : l.Nodup) :
    (st.queue q).tail = some result ↔ l = [result] := by
  obtain ⟨l', rfl⟩ := List.head?_eq_some_iff.mp h.first
  rw [h.tail_eq]
  cases l' with
  | nil => simp
  | cons b l' =>
      rw [List.getLast?_cons_cons]
      constructor
      · intro hlast
        exact absurd (List.mem_of_getLast? hlast) (List.nodup_cons.mp hnd).1
      · intro heq
        cases heq

theorem Unheaded.repr (h : Unheaded st q l result) (hnd : l.Nodup)
    (hcount : (st.queue q).numEntries = l.tail.length % 2 ^ 32) (hne : l ≠ [result]) :
    Repr st q l.tail := by
  obtain ⟨l', rfl⟩ := List.head?_eq_some_iff.mp h.first
  refine ⟨⟨h.chain, ?_, hnd.tail⟩, hcount⟩
  rw [h.tail_eq]
  cases l' with
  | nil => exact absurd rfl hne
  | cons b l' => rw [List.getLast?_cons_cons, List.tail_cons]

/-- The length that is written back by a pop. -/
theorem Unheaded.count (h : Unheaded st q l result) {n : Nat} (hn : n = l.length % 2 ^ 32) :
    pred32 n = l.tail.length % 2 ^ 32 := by
  obtain ⟨l', rfl⟩ := List.head?_eq_some_iff.mp h.first
  rw [hn, List.length_cons, pred32_succ_mod, List.tail_cons]

section

variable [DecidableEq ν]

theorem Repr.setNext (h : Repr st q l) (ha : a ∉ l) (n : Option ν) :
    Repr (setNext st a n) q l :=
  ⟨h.1.congr (fun _ hb => Function.update_of_ne (ne_of_mem_of_not_mem hb ha) _ _), h.2⟩

/-- Linking the node behind the last one of a non-empty queue. -/
theorem Headed.link (h : Headed st q l work) (hnd : l.Nodup) (hwork : work ∉ l)
    (ht : l.getLast? = some t) :
    Chain (Lock.setNext st t (some work)).next (st.queue q).head (l ++ [work]) := by
  have hchain := h.chain.concat hnd ht hwork h.null
  have hhead : (st.queue q).head = l.head? := by
    cases l with
    | nil => cases ht
    | cons b l => rw [h.head_eq, List.head?_cons, Option.some_or]
  rw [hhead]
  exact hchain

end

variable [DecidableEq κ]

@[simp] theorem setHeader_next (h : Header ν) : (setHeader st q h).next = st.next := rfl

@[simp] theorem setHeader_queue (h : Header ν) : (setHeader st q h).queue q = h :=
  Function.update_self _ _ _

theorem Appended.repr (h : Appended st q l work) (hnd : l.Nodup) (hwork : work ∉ l)
    (n : Nat) (hn : n = l.length % 2 ^ 32) :
    Repr (setHeader st q { st.queue q with numEntries := succ32 n }) q (l ++ [work]) := by
  refine ⟨⟨?_, ?_, ?_⟩, ?_⟩
  · rw [setHeader_next, setHeader_queue]
    exact h.chain
  · rw [setHeader_queue]
    simpa using h.tail_eq
  · rw [List.nodup_append]
    refine ⟨hnd, List.nodup_singleton work, fun x hx y hy hxy => hwork ?_⟩
    rw [List.mem_singleton] at hy
    rwa [← hy, ← hxy]
  · rw [setHeader_queue, hn, List.length_append, List.length_singleton]
    exact succ32_mod _

theorem Repr.unheaded (h : Repr st q l) (hfirst : l.head? = some result) :
    Unheaded (setHeader st q { st.queue q with head := st.next result }) q l result := by
  obtain ⟨l', rfl⟩ := List.head?_eq_some_iff.mp hfirst
  refine ⟨hfirst, ?_, ?_⟩
  · rw [setHeader_next, setHeader_queue]
    exact h.1.chain.2
  · rw [setHeader_queue]
    exact h.1.tail_eq

variable [DecidableEq ν]

/-- **One statement keeps the assertion** of the thread that executes it. -/
theorem inside_statement (h : Inside st c pc) (hnd : ∀ q, (c q).Nodup)
    (hpush : ∀ q work, pc.op = some (.push q work) → work ∉ c q)
    (hs : statement st pc = some (st', pc')) : Inside st' c pc' := by
  cases pc with
  | idle => cases hs
  | acquire op => cases hs
  | release op r => cases hs
  | pushNext q work =>
      cases hs
      exact ⟨Repr.setNext h (hpush q work rfl) none, Function.update_self _ _ _⟩
  | pushReadHead q work =>
      cases hs
      obtain ⟨hrepr, hnull⟩ := h
      by_cases hhead : (st.queue q).head = none
      · rw [if_pos hhead]
        exact ⟨hrepr, hnull, hrepr.1.head_none.mp hhead⟩
      · rw [if_neg hhead]
        exact hrepr.headed hnull hhead
  | pushHead q work =>
      cases hs
      obtain ⟨hrepr, hnull, hnil⟩ := h
      -- the queue was empty, so the node is its whole chain
      refine ⟨?_, hnull, ?_, ?_, ?_⟩
      · rw [hnil]
        rfl
      · rw [setHeader_queue, hnil]
        rfl
      · rw [setHeader_queue]
        exact hrepr.1.tail_eq
      · rw [setHeader_queue]
        exact hrepr.2
  | pushReadTail q work =>
      cases hs
      by_cases htail : (st.queue q).tail = none
      · rw [if_pos htail]
        exact ⟨h, h.tail_none.mp htail⟩
      · rw [if_neg htail]
        exact ⟨h, fun hnil => htail (h.tail_none.mpr hnil)⟩
  | pushTail q work =>
      cases hs
      obtain ⟨hh, hnil⟩ := h
      refine ⟨?_, by rw [setHeader_queue], ?_⟩
      · rw [setHeader_next, setHeader_queue, hnil]
        exact Headed.alone (hnil ▸ hh)
      · rw [setHeader_queue]
        exact hh.count
  | pushLast q work =>
      obtain ⟨hh, hne⟩ := h
      obtain ⟨t, ht, heq⟩ := Option.map_eq_some_iff.mp hs
      cases heq
      exact ⟨hh, hh.tail_eq.symm.trans ht⟩
  | pushLink q work t =>
      cases hs
      obtain ⟨hh, ht⟩ := h
      exact ⟨hh.link (hnd q) (hpush q work rfl) ht, hh.count⟩
  | pushNewTail q work =>
      cases hs
      refine ⟨?_, by rw [setHeader_queue], ?_⟩
      · rw [setHeader_next, setHeader_queue]
        exact h.1
      · rw [setHeader_queue]
        exact h.2
  | pushReadCount q work =>
      cases hs
      exact ⟨h, h.count⟩
  | pushCount q work n =>
      cases hs
      refine ⟨?_, rfl⟩
      simp only [QueueOp.queue, fifoOp, Function.update_self]
      exact h.1.repr (hnd q) (hpush q work rfl) n h.2
  | popReadHead q =>
      cases hs
      cases hhead : (st.queue q).head with
      | none =>
          have hnil := h.1.head_none.mp hhead
          refine ⟨?_, ?_⟩
          · simp only [QueueOp.queue, fifoOp, Function.update_self, hnil, List.tail_nil]
            exact hnil ▸ h
          · simp only [fifoOp, hnil, List.head?_nil, QueueResult.wrap]
      | some result => exact ⟨h, h.1.head_eq.symm.trans hhead⟩
  | popReadNext q result =>
      cases hs
      exact ⟨h.1, h.2, rfl⟩
  | popHead q result n =>
      cases hs
      obtain ⟨hrepr, hfirst, rfl⟩ := h
      refine ⟨hrepr.unheaded hfirst, ?_⟩
      rw [setHeader_queue]
      exact hrepr.2
  | popReadCount q result =>
      cases hs
      exact h
  | popCount q result n =>
      cases hs
      obtain ⟨hu, hn⟩ := h
      -- what was read in the step before is still the count: no one else may write it
      refine ⟨⟨hu.first, ?_, ?_⟩, ?_⟩
      · rw [setHeader_next, setHeader_queue]
        exact hu.chain
      · rw [setHeader_queue]
        exact hu.tail_eq
      · rw [setHeader_queue]
        exact hu.count hn
  | popReadTail q result =>
      cases hs
      obtain ⟨hu, hcount⟩ := h
      -- the tail is wrong only if the result was the last node
      by_cases htail : (st.queue q).tail = some result
      · rw [if_pos htail]
        exact ⟨hu, hcount, (hu.tail_iff (hnd q)).mp htail⟩
      · rw [if_neg htail]
        refine ⟨?_, ?_⟩
        · simp only [QueueOp.queue, fifoOp, Function.update_self]
          exact hu.repr (hnd q) hcount (fun heq => htail ((hu.tail_iff (hnd q)).mpr heq))
        · simp only [fifoOp, hu.first, QueueResult.wrap]
  | popTail q result =>
      cases hs
      obtain ⟨hu, hcount, heq⟩ := h
      refine ⟨?_, ?_⟩
      · simp only [QueueOp.queue, fifoOp, Function.update_self, heq, List.tail_cons]
        refine ⟨⟨?_, by rw [setHeader_queue]; rfl, List.nodup_nil⟩, ?_⟩
        · rw [setHeader_next, setHeader_queue]
          simpa [heq] using hu.chain
        · rw [setHeader_queue]
          simpa [heq] using hcount
      · simp only [fifoOp, heq, List.head?_cons, QueueResult.wrap]
  | clearReadCount q =>
      cases hs
      exact h.2
  | clearHead q r =>
      cases hs
      exact ⟨h, by rw [setHeader_queue]⟩
  | clearTail q r =>
      cases hs
      refine ⟨h.1, ?_, by rw [setHeader_queue]⟩
      rw [setHeader_queue]
      exact h.2
  | clearCount q r =>
      cases hs
      obtain ⟨hr, hhead, htail⟩ := h
      -- the links are left as they are, but no queue leads to them
      refine ⟨?_, by rw [hr]; rfl⟩
      simp only [QueueOp.queue, fifoOp, Function.update_self]
      refine ⟨?_, by rw [setHeader_queue]; rfl⟩
      rw [setHeader_queue, hhead, htail]
      exact represents_nil
  | sizeReadCount q =>
      cases hs
      exact ⟨h, by rw [h.2]; rfl⟩

end

/-! ## What the other threads leave alone -/

/-- The nodes whose links an operation reads or writes. -/
def Owned (c : κ → List ν) (op : QueueOp κ ν) (a : ν) : Prop :=
  a ∈ c op.queue ∨ a ∈ op.nodes

section

variable {st st' : Store κ ν} {c c' : κ → List ν} {q : κ} {work result : ν} {l : List ν}
  {pc pc' : Pc κ ν} {op : QueueOp κ ν}

theorem Repr.frame (h : Repr st q l) (hqueue : st'.queue q = st.queue q)
    (hnext : ∀ b ∈ l, st'.next b = st.next b) : Repr st' q l := by
  rw [Repr, hqueue]
  exact ⟨h.1.congr hnext, h.2⟩

theorem Headed.frame (h : Headed st q l work) (hqueue : st'.queue q = st.queue q)
    (hnext : ∀ b, b ∈ l ∨ b ∈ [work] → st'.next b = st.next b) : Headed st' q l work := by
  refine ⟨h.chain.congr (fun b hb => hnext b (Or.inl hb)), ?_, ?_, ?_, ?_⟩
  · rw [hnext work (Or.inr List.mem_cons_self), h.null]
  · rw [hqueue, h.head_eq]
  · rw [hqueue, h.tail_eq]
  · rw [hqueue, h.count]

theorem Appended.frame (h : Appended st q l work) (hqueue : st'.queue q = st.queue q)
    (hnext : ∀ b, b ∈ l ∨ b ∈ [work] → st'.next b = st.next b) : Appended st' q l work := by
  refine ⟨?_, by rw [hqueue, h.tail_eq], by rw [hqueue, h.count]⟩
  rw [hqueue]
  exact h.chain.congr (fun b hb => hnext b (List.mem_append.mp hb))

theorem Unheaded.frame (h : Unheaded st q l result) (hqueue : st'.queue q = st.queue q)
    (hnext : ∀ b ∈ l, st'.next b = st.next b) : Unheaded st' q l result := by
  refine ⟨h.first, ?_, by rw [hqueue, h.tail_eq]⟩
  rw [hqueue]
  exact h.chain.congr (fun b hb => hnext b (List.mem_of_mem_tail hb))

variable [DecidableEq κ]

/-- **Frame.** The assertion of a thread that holds a flag depends on the queue, its list
and the links of the operation's own nodes only. -/
theorem Inside.frame (h : Inside st c pc) (hheld : pc.held = some op)
    (hqueue : st'.queue op.queue = st.queue op.queue)
    (hnext : ∀ b, Owned c op b → st'.next b = st.next b)
    (hc : c' op.queue = c op.queue) : Inside st' c' pc := by
  cases pc with
  | idle => trivial
  | acquire _ => trivial
  | release op' r =>
      obtain rfl : op' = op := Option.some.inj hheld
      -- the operation is done, its result and list are fixed by the list it started from
      obtain ⟨hres, hlist⟩ : (fifoOp c' op').1 = (fifoOp c op').1 ∧
          (fifoOp c' op').2 op'.queue = (fifoOp c op').2 op'.queue := fifoOp_congr hc
      refine ⟨?_, by rw [hres]; exact h.2⟩
      rw [hlist]
      exact h.1.frame hqueue (fun b hb => hnext b (mem_fifoOp hb))
  | pushNext q w | popReadHead q | clearReadCount q | sizeReadCount q =>
      cases hheld
      simp only [Inside, QueueOp.queue] at h hc hqueue ⊢
      rw [hc]
      exact h.frame hqueue (fun b hb => hnext b (Or.inl hb))
  | pushReadHead q w =>
      cases hheld
      simp only [Inside, QueueOp.queue] at h hc hqueue ⊢
      rw [hc, hnext w (Or.inr List.mem_cons_self)]
      exact ⟨h.1.frame hqueue (fun b hb => hnext b (Or.inl hb)), h.2⟩
  | pushHead q w =>
      cases hheld
      simp only [Inside, QueueOp.queue] at h hc hqueue ⊢
      rw [hc, hnext w (Or.inr List.mem_cons_self)]
      exact ⟨h.1.frame hqueue (fun b hb => hnext b (Or.inl hb)), h.2⟩
  | pushReadTail q w =>
      cases hheld
      simp only [Inside, QueueOp.queue] at h hc hqueue ⊢
      rw [hc]
      exact h.frame hqueue hnext
  | pushTail q w | pushLast q w =>
      cases hheld
      simp only [Inside, QueueOp.queue] at h hc hqueue ⊢
      rw [hc]
      exact ⟨h.1.frame hqueue hnext, h.2⟩
  | pushLink q w t =>
      cases hheld
      simp only [Inside, QueueOp.queue] at h hc hqueue ⊢
      rw [hc]
      exact ⟨h.1.frame hqueue hnext, h.2⟩
  | pushNewTail q w =>
      cases hheld
      simp only [Inside, QueueOp.queue] at h hc hqueue ⊢
      rw [hc, hqueue]
      exact ⟨h.1.congr (fun b hb => hnext b (List.mem_append.mp hb)), h.2⟩
  | pushReadCount q w =>
      cases hheld
      simp only [Inside, QueueOp.queue] at h hc hqueue ⊢
      rw [hc]
      exact Appended.frame h hqueue hnext
  | pushCount q w n =>
      cases hheld
      simp only [Inside, QueueOp.queue] at h hc hqueue ⊢
      rw [hc]
      exact ⟨Appended.frame h.1 hqueue hnext, h.2⟩
  | popReadNext q r =>
      cases hheld
      simp only [Inside, QueueOp.queue] at h hc hqueue ⊢
      rw [hc]
      exact ⟨h.1.frame hqueue (fun b hb => hnext b (Or.inl hb)), h.2⟩
  | popHead q r n =>
      cases hheld
      simp only [Inside, QueueOp.queue] at h hc hqueue ⊢
      rw [hc, hnext r (Or.inl (List.mem_of_head? h.2.1))]
      exact ⟨h.1.frame hqueue (fun b hb => hnext b (Or.inl hb)), h.2⟩
  | popCount q r n =>
      cases hheld
      simp only [Inside, QueueOp.queue] at h hc hqueue ⊢
      rw [hc]
      exact ⟨h.1.frame hqueue (fun b hb => hnext b (Or.inl hb)), h.2⟩
  | popReadCount q r | popReadTail q r | popTail q r =>
      cases hheld
      simp only [Inside, QueueOp.queue] at h hc hqueue ⊢
      rw [hc, hqueue]
      exact ⟨h.1.frame hqueue (fun b hb => hnext b (Or.inl hb)), h.2⟩
  | clearHead q r | clearTail q r | clearCount q r =>
      cases hheld
      simp only [Inside, QueueOp.queue] at h hc hqueue ⊢
      rw [hc]
      first | exact h | (rw [hqueue]; exact h)

/-- A thread that is between two operations or waits for a flag makes no assertion. -/
theorem inside_of_not_held (h : pc.held = none) : Inside st c pc := by
  cases pc <;> trivial

variable [DecidableEq ν]

/-- **A statement writes its own queue and its own nodes only**, and keeps the flag. -/
theorem statement_frame (hs : statement st pc = some (st', pc')) (h : Inside st c pc) :
    ∃ op, pc.held = some op ∧ pc'.held = some op ∧
      (∀ q, q ≠ op.queue → st'.queue q = st.queue q) ∧
      ∀ b, ¬ Owned c op b → st'.next b = st.next b := by
  have hset : ∀ {q q' : κ} {hd : Header ν}, q' ≠ q →
      (setHeader st q hd).queue q' = st.queue q' := fun hq => Function.update_of_ne hq _ _
  cases pc with
  | idle => cases hs
  | acquire _ => cases hs
  | release _ _ => cases hs
  | pushNext q w =>
      cases hs
      refine ⟨_, rfl, rfl, fun _ _ => rfl, fun b hb => Function.update_of_ne ?_ _ _⟩
      exact fun hbw => hb (Or.inr (by rw [hbw]; exact List.mem_cons_self))
  | pushLink q w t =>
      -- the node that is written is the last one of the queue
      cases hs
      refine ⟨_, rfl, rfl, fun _ _ => rfl, fun b hb => Function.update_of_ne ?_ _ _⟩
      exact fun hbt => hb (Or.inl (by rw [hbt]; exact List.mem_of_getLast? h.2))
  | pushReadHead q w =>
      cases hs
      refine ⟨_, rfl, ?_, fun _ _ => rfl, fun _ _ => rfl⟩
      split <;> rfl
  | pushReadTail q w =>
      cases hs
      refine ⟨_, rfl, ?_, fun _ _ => rfl, fun _ _ => rfl⟩
      split <;> rfl
  | pushLast q w =>
      obtain ⟨t, -, heq⟩ := Option.map_eq_some_iff.mp hs
      cases heq
      exact ⟨_, rfl, rfl, fun _ _ => rfl, fun _ _ => rfl⟩
  | popReadHead q =>
      cases hs
      refine ⟨_, rfl, ?_, fun _ _ => rfl, fun _ _ => rfl⟩
      split <;> rfl
  | popReadTail q r =>
      cases hs
      refine ⟨_, rfl, ?_, fun _ _ => rfl, fun _ _ => rfl⟩
      split <;> rfl
  | pushReadCount q w | popReadNext q r | popReadCount q r | clearReadCount q
  | sizeReadCount q =>
      cases hs
      exact ⟨_, rfl, rfl, fun _ _ => rfl, fun _ _ => rfl⟩
  | pushHead q w | pushTail q w | pushNewTail q w | pushCount q w n | popHead q r n
  | popCount q r n | popTail q r | clearHead q r | clearTail q r | clearCount q r =>
      cases hs
      exact ⟨_, rfl, rfl, fun _ hq => hset hq, fun _ _ => rfl⟩

end

end Bop.Lock
