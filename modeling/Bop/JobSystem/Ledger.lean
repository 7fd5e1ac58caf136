import Bop.JobSystem.State
import Mathlib.Data.List.Range
import Mathlib.Data.List.Nodup
import Mathlib.Tactic.Common

set_option autoImplicit false

/-! # The ledger of the jobs

What the threads do to the jobs, without how they do it. For each storage the ledger says in
which single place its job is: in a queue or a bin, in a call of `schedule` or `Job::then`, at
a worker, or behind the `m_Continuation` of another job. A job goes through six stages:
started, finished, its continuation read, counted off, completed, recycled (`Stage`). The place
determines how many of them it has passed, and each is recorded in the log.

* `Move` lists everything that the threads do while the workers are in their loops, as long as
  no worker has to tell a parent; a worker that left its loop empties its queues and bins by
  `Ledger.free` and `Ledger.drop`.
* `Ledger.InOrder` is the invariant: `Move.inOrder`, `InOrder.free` and `InOrder.clear`.

`Refinement.lean` shows that the steps of the job system are moves of the ledger.
-/

namespace Bop.JobSystem

/-! ## Stages -/

/-- The stages of a job, in their order. -/
inductive Stage
  | started
  | finished
  | continuationRead
  | countedOff
  | completed
  | recycled
  deriving DecidableEq

namespace Stage

/-- The number of the stages before it. -/
def rank : Stage → Nat
  | .started => 0
  | .finished => 1
  | .continuationRead => 2
  | .countedOff => 3
  | .completed => 4
  | .recycled => 5

/-- The stage after it; there is none after the last one. -/
def next : Stage → Stage
  | .started => .finished
  | .finished => .continuationRead
  | .continuationRead => .countedOff
  | .countedOff => .completed
  | .completed | .recycled => .recycled

/-- All of them, in their order. -/
def all : List Stage := [.started, .finished, .continuationRead, .countedOff, .completed, .recycled]

/-- Those before it, in their order. -/
def before (m : Stage) : List Stage := all.take m.rank

@[simp] theorem rank_started : started.rank = 0 := rfl
@[simp] theorem rank_finished : finished.rank = 1 := rfl
@[simp] theorem rank_continuationRead : continuationRead.rank = 2 := rfl
@[simp] theorem rank_countedOff : countedOff.rank = 3 := rfl
@[simp] theorem rank_completed : completed.rank = 4 := rfl
@[simp] theorem rank_recycled : recycled.rank = 5 := rfl

variable {m : Stage} {k : Nat}

theorem rank_le (m : Stage) : m.rank ≤ recycled.rank := by cases m <;> decide

theorem rank_le_next (m : Stage) : m.rank ≤ m.next.rank := by cases m <;> decide

theorem mem_take : m ∈ all.take k ↔ m.rank < k := by
  rcases k with _ | _ | _ | _ | _ | _ | k <;> cases m <;> simp [all]

theorem take_succ (m : Stage) : all.take (m.rank + 1) = all.take m.rank ++ [m] := by
  cases m <;> rfl

theorem mem_all (m : Stage) : m ∈ all := by cases m <;> decide

theorem mem_before {l : Stage} : l ∈ m.before ↔ l.rank < m.rank := mem_take

end Stage

/-- The work whose job passes a stage, and the stage. -/
def Event.mark : Event → Option (Work × Stage)
  | .started w _ _ => some (w, .started)
  | .finished w => some (w, .finished)
  | .continuationRead w => some (w, .continuationRead)
  | .fetchSub w _ _ => some (w, .countedOff)
  | .completed w => some (w, .completed)
  | .recycled w => some (w, .recycled)
  | _ => none

/-- The stages that the job of `w` passed, newest first. -/
def trail (log : List Event) (w : Work) : List Stage :=
  (log.filterMap Event.mark).filterMap fun m => if m.1 = w then some m.2 else none

/-- The first `k` stages, newest first. -/
def passed (k : Nat) : List Stage := (Stage.all.take k).reverse

section Trail

variable {log : List Event} {e : Event} {w v : Work} {m : Stage} {k : Nat}

theorem passed_succ (m : Stage) : passed (m.rank + 1) = m :: passed m.rank := by
  simp [passed, Stage.take_succ]

theorem mem_passed : m ∈ passed k ↔ m.rank < k := by
  rw [passed, List.mem_reverse, Stage.mem_take]

theorem passed_nodup (k : Nat) : (passed k).Nodup :=
  List.nodup_reverse.mpr ((by decide : Stage.all.Nodup).sublist (List.take_sublist k _))

/-- No stage was passed. -/
theorem passed_eq_nil : passed k = [] ↔ k = 0 := by
  rw [passed, List.reverse_eq_nil_iff, List.take_eq_nil_iff]
  exact or_iff_left (List.cons_ne_nil _ _)

theorem trail_unmarked (h : e.mark = none) : trail (e :: log) w = trail log w := by
  simp [trail, h]

theorem trail_marked (h : e.mark = some (v, m)) :
    trail (e :: log) w = if v = w then m :: trail log w else trail log w := by
  by_cases hv : v = w
  · simp [trail, h, hv]
  · simp [trail, h, hv]

theorem mem_trail : m ∈ trail log w ↔ ∃ e ∈ log, e.mark = some (w, m) := by
  simp [trail]

theorem mem_trail_cons (h : m ∈ trail log w) : m ∈ trail (e :: log) w := by
  rw [mem_trail] at h ⊢
  obtain ⟨e', he', hm⟩ := h
  exact ⟨e', List.mem_cons_of_mem _ he', hm⟩

theorem mem_trail_append (es : List Event) (h : m ∈ trail log w) : m ∈ trail (es ++ log) w := by
  induction es with
  | nil => exact h
  | cons e es ih => exact mem_trail_cons ih

theorem started_iff : .started ∈ trail log w ↔ ∃ i via, .started w i via ∈ log := by
  rw [mem_trail]
  constructor
  · rintro ⟨e, he, hm⟩
    cases e <;> simp [Event.mark] at hm
    subst hm
    exact ⟨_, _, he⟩
  · rintro ⟨i, via, he⟩
    exact ⟨_, he, rfl⟩

/-- Where a stage is passed by a single event, the trail has it if the log has the event. -/
theorem mem_trail_of_mark {e₀ : Event} (h : ∀ e, Event.mark e = some (w, m) ↔ e = e₀) :
    m ∈ trail log w ↔ e₀ ∈ log := by
  rw [mem_trail]
  constructor
  · rintro ⟨e, he, hm⟩
    rw [h] at hm
    exact hm ▸ he
  · exact fun he => ⟨e₀, he, (h e₀).mpr rfl⟩

theorem finished_iff : .finished ∈ trail log w ↔ .finished w ∈ log :=
  mem_trail_of_mark fun e => by cases e <;> simp [Event.mark]

theorem continuationRead_iff : .continuationRead ∈ trail log w ↔ .continuationRead w ∈ log :=
  mem_trail_of_mark fun e => by cases e <;> simp [Event.mark]

theorem countedOff_iff : .countedOff ∈ trail log w ↔ ∃ r own, .fetchSub w r own ∈ log := by
  rw [mem_trail]
  constructor
  · rintro ⟨e, he, hm⟩
    cases e <;> simp [Event.mark] at hm
    subst hm
    exact ⟨_, _, he⟩
  · rintro ⟨r, own, he⟩
    exact ⟨_, he, rfl⟩

theorem completed_iff : .completed ∈ trail log w ↔ .completed w ∈ log :=
  mem_trail_of_mark fun e => by cases e <;> simp [Event.mark]

theorem recycled_iff : .recycled ∈ trail log w ↔ .recycled w ∈ log :=
  mem_trail_of_mark fun e => by cases e <;> simp [Event.mark]

/-- The number of times a stage was passed. -/
theorem count_trail (log : List Event) (w : Work) (m : Stage) :
    (trail log w).count m = log.countP fun e => e.mark = some (w, m) := by
  induction log with
  | nil => rfl
  | cons e log ih =>
      rw [List.countP_cons, ← ih]
      cases hm : e.mark with
      | none => simp [trail_unmarked hm]
      | some p =>
          obtain ⟨v, l⟩ := p
          rw [trail_marked hm]
          by_cases hv : v = w
          · simp [hv, List.count_cons]
          · simp [hv]

end Trail

/-! ## Places -/

/-- The job that a call of `schedule` or `Job::then` holds. -/
def Call.job : Call → Option Addr
  | .idle | .reread _ _ => none
  | .route a | .balance a | .pushGlobal a | .pushLocal a | .attach _ _ a => some a

def QueueId.isBin : QueueId → Bool
  | .globalQueue _ | .localQueue _ => false
  | .recyclingBin _ | .garbageBin _ => true

/-- Where a job can be. -/
inductive Place
  | queue (q : QueueId)
  | call (t : Tid) (c : Call)
  | run (i : Nat) (m : Stage) (via : Option Work) -- the current job of worker i, before the stage m
  | next (i : Nat) (via : Option Work)            -- in `continuation` of worker i
  | cont (b : Addr)                               -- in `m_Continuation` of the job in b
  deriving DecidableEq

/-- The number of stages a job in this place has passed. -/
def Place.stage : Place → Nat
  | .queue q => if q.isBin then Stage.all.length else 0
  | .run _ m _ => m.rank
  | .call _ _ | .next _ _ | .cont _ => 0

section Stage

variable (i : Nat) (m : Stage) (t : Tid) (c : Call) (b : Addr) (v : Option Work)

@[simp] theorem stage_globalQueue : (Place.queue (.globalQueue i)).stage = 0 := rfl
@[simp] theorem stage_localQueue : (Place.queue (.localQueue i)).stage = 0 := rfl
@[simp] theorem stage_recyclingBin : (Place.queue (.recyclingBin t)).stage = 6 := rfl
@[simp] theorem stage_garbageBin : (Place.queue (.garbageBin t)).stage = 6 := rfl
@[simp] theorem stage_call : (Place.call t c).stage = 0 := rfl
@[simp] theorem stage_run : (Place.run i m v).stage = m.rank := rfl
@[simp] theorem stage_next : (Place.next i v).stage = 0 := rfl
@[simp] theorem stage_cont : (Place.cont b).stage = 0 := rfl

/-- The jobs in the bins passed all stages. -/
theorem stage_bin {q : QueueId} (h : q.isBin = true) :
    (Place.queue q).stage = Stage.recycled.rank + 1 := by
  rw [Place.stage, if_pos h]
  rfl

end Stage

/-- What `construct` is given for a new job. -/
structure Origin where
  parent : Option (Addr × Work) -- the storage of the parent, and its work at that time
  threadIndex : Option Nat

structure Ledger where
  place : Addr → Option Place
  jobs : Addr → Job
  live : List Addr
  nextWork : Work
  tidx : Tid → Nat
  log : List Event

namespace Ledger

/-- The job in `b` exists and no worker has read its `m_Continuation` yet. -/
def Open (L : Ledger) (b : Addr) : Prop :=
  b ∈ L.live ∧ .continuationRead (L.jobs b).work ∉ L.log

instance (L : Ledger) (b : Addr) : Decidable (L.Open b) :=
  inferInstanceAs (Decidable (_ ∧ _))

/-- **The ledger is in order**: the jobs in the live storages belong to different works, each
has passed exactly the stages of its place, and its counter is `1` until it is counted off. -/
structure Valid (L : Ledger) : Prop where
  nodup : L.live.Nodup
  live : ∀ {a p}, L.place a = some p → a ∈ L.live
  nextWork_pos : 0 < L.nextWork
  work_pos : ∀ {a}, a ∈ L.live → 0 < (L.jobs a).work
  work_lt : ∀ {a}, a ∈ L.live → (L.jobs a).work < L.nextWork
  work_inj : ∀ {a b}, a ∈ L.live → b ∈ L.live → (L.jobs a).work = (L.jobs b).work → a = b
  stage : ∀ {a p}, L.place a = some p → trail L.log (L.jobs a).work = passed p.stage
  stage_le : ∀ w, ∃ k ≤ Stage.all.length, trail L.log w = passed k
  fresh : ∀ {w}, L.nextWork ≤ w → trail L.log w = []
  counter_one : ∀ {a}, a ∈ L.live → .countedOff ∉ trail L.log (L.jobs a).work →
    (L.jobs a).numChildren = 1
  counter_zero : ∀ {a}, a ∈ L.live → .countedOff ∈ trail L.log (L.jobs a).work →
    (L.jobs a).numChildren = 0
  remaining : ∀ {w r own}, .fetchSub w r own ∈ L.log → r = 1 ∧ own = true
  constructed : ∀ {w a p ti}, .constructed w a p ti ∈ L.log → w < L.nextWork ∧
    ∀ b ∈ L.live, (L.jobs b).work = w → b = a ∧ (L.jobs b).threadIndex = ti
  made : ∀ {a}, a ∈ L.live →
    ∃ p, .constructed (L.jobs a).work a p (L.jobs a).threadIndex ∈ L.log
  scheduled : ∀ {w a}, .scheduled w a ∈ L.log → ∃ p ti, .constructed w a p ti ∈ L.log
  returned : ∀ {w r}, .returned w r ∈ L.log → w < L.nextWork

/-- A job is behind the continuation that a worker will read, or not behind any. -/
def Chained (L : Ledger) : Prop :=
  ∀ a b, L.place a = some (.cont b) ↔ L.Open b ∧ (L.jobs b).continuation = some a

/-! ## Changes -/

/-- The job in `a` goes to `p`. -/
def put (L : Ledger) (a : Addr) (p : Place) : Ledger :=
  { L with place := Function.update L.place a (some p) }

/-- The same for a continuation, if there is one. -/
def putCont (L : Ledger) (c : Option Addr) (p : Place) : Ledger :=
  match c with
  | some c => L.put c p
  | none => L

def record (L : Ledger) (e : Event) : Ledger := { L with log := e :: L.log }

def setJob (L : Ledger) (a : Addr) (j : Job) : Ledger :=
  { L with jobs := Function.update L.jobs a j }

/-- The jobs in the places `S` are not in any place any more. -/
def drop (L : Ledger) (S : Place → Prop) [DecidablePred S] : Ledger :=
  { L with place := fun b => (L.place b).filter fun p => ¬ S p }

/-- A new job in the storage `a`, held by `p`. -/
def construct (L : Ledger) (a : Addr) (p : Place) (o : Origin) : Ledger :=
  { L with
    place := Function.update L.place a (some p)
    jobs := Function.update L.jobs a
      { parent := o.parent.map Prod.fst, threadIndex := o.threadIndex, work := L.nextWork }
    live := if a ∈ L.live then L.live else a :: L.live
    nextWork := L.nextWork + 1
    log := .constructed L.nextWork a (o.parent.map Prod.snd) o.threadIndex :: L.log }

/-- The storage `a` is returned, with it the `m_Continuation` in it. -/
def free (L : Ledger) (a : Addr) : Ledger :=
  { L with
    place := fun b => if b = a then none else (L.place b).filter fun p => p ≠ .cont a
    live := L.live.erase a
    log := .deallocated a :: L.log }

/-- `m_Continuation` of the job in `b` becomes the job in `a`, held by a `then`. -/
def attach (L : Ledger) (b : Addr) (of : Work) (a : Addr) : Ledger :=
  { L with
    place := fun x =>
      if x = a then if L.Open b then some (.cont b) else none
      else (L.place x).filter fun p => p ≠ .cont b
    jobs := Function.update L.jobs b { L.jobs b with continuation := some a }
    log := .attached of (L.jobs a).work :: L.log }

/-- The place in the round over the global queues after the one of `t`, for `n` threads. -/
def nextIndex (L : Ledger) (n : Nat) (t : Tid) : Nat :=
  if succ32 (L.tidx t) ≥ n then 0 else succ32 (L.tidx t)

end Ledger

/-! ## Moves -/

/-- Events that are no part of a job's life. -/
def Event.Note (L : Ledger) : Event → Prop
  | .returned w _ => w < L.nextWork
  | .drained _ _ | .saved _ | .shutdownCompleted => True
  | _ => False

/-- The events by which the work `w`, run by `i`, passes a stage without any other change. -/
def Event.Advances (w : Work) (i : Nat) (via : Option Work) (m : Stage) (e : Event) : Prop :=
  (m = .started ∧ e = .started w i via) ∨ (m = .finished ∧ e = .finished w) ∨
    (m = .completed ∧ e = .completed w)

/-- What the threads do in the runs in question: the jobs they schedule, the continuations they
write, and the ones that the workers follow. -/
structure Policy where
  makes : Tid → Origin → Prop
  attaches : Addr → Work → Addr → Prop
  follows : Nat → Addr → Prop

def Policy.any : Policy := ⟨fun _ _ => True, fun _ _ _ => True, fun _ _ => True⟩

/-- What a thread that gets a new job in the storage `a` does next. -/
inductive Call.Begins (P : Policy) (L : Ledger) (t : Tid) (a : Addr) (o : Origin) : Call → Prop
  | schedule : P.makes t o → Begins P L t a o (.route a)
  | jobThen {b : Addr} {of : Work} :
      o.parent = none → of < L.nextWork → Begins P L t a o (.attach b of a)

/-- **What a thread can do to the jobs** while the number of threads is `n`. -/
inductive Move (n : Nat) (P : Policy) (L : Ledger) : Ledger → Prop
  | construct {a : Addr} {t : Tid} {c : Call} {o : Origin} :
      L.place a = some (.queue (.recyclingBin t)) →
      c.Begins P L t a o →
      Move n P L (L.construct a (.call t c) o)
  | allocate {a : Addr} {t : Tid} {c : Call} {o : Origin} :
      a ∉ L.live →
      c.Begins P L t a o →
      Move n P L ((L.record (.allocated a)).construct a (.call t c) o)
  | route {a : Addr} {t : Tid} {c : Call} :
      L.place a = some (.call t (.route a)) →
      (c = .balance a ∧ ∀ k ∈ (L.jobs a).threadIndex, n ≤ k) ∨
        (c = .pushLocal a ∧ ∃ k ∈ (L.jobs a).threadIndex, k < n) →
      Move n P L (L.put a (.call t c))
  | balance {a : Addr} {t : Tid} :
      L.place a = some (.call t (.balance a)) →
      Move n P L { L.put a (.call t (.pushGlobal a)) with
        tidx := Function.update L.tidx t (L.nextIndex n t) }
  | push {a : Addr} {t : Tid} {c : Call} {q : QueueId} :
      L.place a = some (.call t c) →
      (c = .pushGlobal a ∧ q = .globalQueue (L.tidx t)) ∨
        (c = .pushLocal a ∧ q = .localQueue t.threadIndex) →
      Move n P L ((L.put a (.queue q)).record (.scheduled (L.jobs a).work a))
  | attach {a b : Addr} {t : Tid} {of : Work} :
      L.place a = some (.call t (.attach b of a)) →
      P.attaches b of a →
      Move n P L (L.attach b of a)
  | pop {a : Addr} {i : Nat} {q : QueueId} :
      L.place a = some (.queue q) →
      (q = .localQueue i ∨ ∃ j, q = .globalQueue j) →
      Move n P L (L.put a (.run i .started none))
  | advance {a : Addr} {i : Nat} {m : Stage} {via : Option Work} {e : Event} :
      L.place a = some (.run i m via) →
      e.Advances (L.jobs a).work i via m →
      Move n P L ((L.put a (.run i m.next via)).record e)
  | readContinuation {a : Addr} {i : Nat} {via : Option Work} :
      L.place a = some (.run i .continuationRead via) →
      (∀ c, (L.jobs a).continuation = some c → P.follows i c) →
      Move n P L
        (((L.put a (.run i .countedOff (some (L.jobs a).work))).record
            (.continuationRead (L.jobs a).work)).putCont
          (L.jobs a).continuation (.next i (some (L.jobs a).work)))
  | fetchSub {a : Addr} {i : Nat} {via : Option Work} :
      L.place a = some (.run i .countedOff via) →
      Move n P L
        (((L.put a (.run i .completed via)).setJob a { L.jobs a with numChildren := 0 }).record
          (.fetchSub (L.jobs a).work 1 true))
  | recycle {a : Addr} {i : Nat} {via : Option Work} {q : QueueId} {c : Option Addr} :
      L.place a = some (.run i .recycled via) →
      q = .recyclingBin (.worker i) ∨ q = .garbageBin (.worker i) →
      (∀ b, c = some b ↔ L.place b = some (.next i via)) →
      Move n P L
        (((L.put a (.queue q)).record (.recycled (L.jobs a).work)).putCont c (.run i .started via))
  | collect {i : Nat} :
      Move n P L (L.drop fun p => p = .queue (.garbageBin (.worker i)))
  | note {e : Event} : e.Note L → Move n P L (L.record e)

/-! ## The changes keep the ledger valid -/

namespace Ledger

variable {L : Ledger} {a b c : Addr} {p d : Place} {e : Event} {w : Work}

section Fields

@[simp] theorem put_place : (L.put a p).place = Function.update L.place a (some p) := rfl
@[simp] theorem put_jobs : (L.put a p).jobs = L.jobs := rfl
@[simp] theorem put_live : (L.put a p).live = L.live := rfl
@[simp] theorem put_nextWork : (L.put a p).nextWork = L.nextWork := rfl
@[simp] theorem put_log : (L.put a p).log = L.log := rfl
@[simp] theorem putCont_none : L.putCont none p = L := rfl
@[simp] theorem putCont_some : L.putCont (some c) p = L.put c p := rfl
@[simp] theorem record_place : (L.record e).place = L.place := rfl
@[simp] theorem record_jobs : (L.record e).jobs = L.jobs := rfl
@[simp] theorem record_live : (L.record e).live = L.live := rfl
@[simp] theorem record_nextWork : (L.record e).nextWork = L.nextWork := rfl
@[simp] theorem record_log : (L.record e).log = e :: L.log := rfl

variable {j : Job}

@[simp] theorem setJob_place : (L.setJob a j).place = L.place := rfl
@[simp] theorem setJob_jobs : (L.setJob a j).jobs = Function.update L.jobs a j := rfl
@[simp] theorem setJob_live : (L.setJob a j).live = L.live := rfl
@[simp] theorem setJob_nextWork : (L.setJob a j).nextWork = L.nextWork := rfl
@[simp] theorem setJob_log : (L.setJob a j).log = L.log := rfl

variable {S : Place → Prop} [DecidablePred S]

@[simp] theorem drop_jobs : (L.drop S).jobs = L.jobs := rfl
@[simp] theorem drop_live : (L.drop S).live = L.live := rfl
@[simp] theorem drop_nextWork : (L.drop S).nextWork = L.nextWork := rfl
@[simp] theorem drop_log : (L.drop S).log = L.log := rfl

theorem put_place_self : (L.put a p).place a = some p := Function.update_self ..

theorem put_place_of_ne (h : b ≠ a) : (L.put a p).place b = L.place b :=
  Function.update_of_ne h ..

theorem drop_place : (L.drop S).place b = some p ↔ L.place b = some p ∧ ¬ S p := by
  simp [drop, Option.filter_eq_some_iff]

end Fields

section Valid

/-- The change of one job keeps the fields in which the new job is like the old one. -/
theorem update_field {β : Type} (f : Job → β) {jobs : Addr → Job} {j : Job}
    (h : f j = f (jobs a)) (x : Addr) : f (Function.update jobs a j x) = f (jobs x) := by
  by_cases hx : x = a
  · subst hx
    rw [Function.update_self, h]
  · rw [Function.update_of_ne hx]

/-- Two jobs in live storages that are not the same pass their stages separately. -/
theorem Valid.work_ne (h : L.Valid) (ha : a ∈ L.live) (hb : b ∈ L.live) (hab : b ≠ a) :
    (L.jobs a).work ≠ (L.jobs b).work := fun hw => hab (h.work_inj ha hb hw).symm

/-- A job has one stage, so it is started, or recycled, once at most. -/
theorem Valid.count_le (h : L.Valid) (w : Work) (m : Stage) : (trail L.log w).count m ≤ 1 := by
  obtain ⟨k, -, hk⟩ := h.stage_le w
  rw [hk]
  exact List.nodup_iff_count_le_one.mp (passed_nodup k) m

/-- The stages are passed in order. -/
theorem Valid.mem_trail_of_le (h : L.Valid) {l m : Stage} (hm : m ∈ trail L.log w)
    (hl : l.rank ≤ m.rank) : l ∈ trail L.log w := by
  obtain ⟨k, -, hk⟩ := h.stage_le w
  rw [hk, mem_passed] at hm ⊢
  omega

/-- A job in a place has not passed the stages after it. -/
theorem Valid.mem_trail_iff (h : L.Valid) (ha : L.place a = some p) {m : Stage} :
    m ∈ trail L.log (L.jobs a).work ↔ m.rank < p.stage := by
  rw [h.stage ha, mem_passed]

theorem Valid.put (h : L.Valid) (ha : L.place a = some p) (hp : d.stage = p.stage) :
    (L.put a d).Valid := by
  refine { h with live := fun {b r} hb => ?_, stage := fun {b r} hb => ?_ }
  · by_cases hba : b = a
    · subst hba
      exact h.live ha
    · rw [put_place_of_ne hba] at hb
      exact h.live hb
  · by_cases hba : b = a
    · subst hba
      rw [put_place_self] at hb
      rw [← Option.some.inj hb, hp]
      exact h.stage ha
    · rw [put_place_of_ne hba] at hb
      exact h.stage hb

theorem Valid.putCont {c : Option Addr} (h : L.Valid)
    (hc : ∀ a, c = some a → ∃ p, L.place a = some p ∧ d.stage = p.stage) :
    (L.putCont c d).Valid := by
  cases c with
  | none => exact h
  | some a =>
      obtain ⟨p, ha, hp⟩ := hc a rfl
      exact h.put ha hp

/-- An event without a mark leaves all stages as they are. -/
theorem Valid.unmarked (h : L.Valid) (he : e.mark = none)
    (hsch : ∀ v x, e = .scheduled v x → ∃ q ti, .constructed v x q ti ∈ L.log)
    (hret : ∀ v r, e = .returned v r → v < L.nextWork)
    (hcon : ∀ v x q ti, e ≠ .constructed v x q ti) : (L.record e).Valid where
  nodup := h.nodup
  live := h.live
  nextWork_pos := h.nextWork_pos
  work_pos := h.work_pos
  work_lt := h.work_lt
  work_inj := h.work_inj
  stage hb := by rw [Ledger.record, trail_unmarked he]; exact h.stage hb
  stage_le v := by rw [Ledger.record, trail_unmarked he]; exact h.stage_le v
  fresh hv := by rw [Ledger.record, trail_unmarked he]; exact h.fresh hv
  counter_one hb := by rw [Ledger.record, trail_unmarked he]; exact h.counter_one hb
  counter_zero hb := by rw [Ledger.record, trail_unmarked he]; exact h.counter_zero hb
  remaining hf := by
    rcases List.mem_cons.mp hf with rfl | hf
    · cases he
    · exact h.remaining hf
  constructed := by
    intro v x q ti hx
    rcases List.mem_cons.mp hx with rfl | hx
    · exact absurd rfl (hcon v x q ti)
    · exact h.constructed hx
  made hb := (h.made hb).imp fun q hq => List.mem_cons_of_mem _ hq
  scheduled := by
    intro v x hx
    have hold : ∃ q ti, .constructed v x q ti ∈ L.log := by
      rcases List.mem_cons.mp hx with hx | hx
      · exact hsch v x hx.symm
      · exact h.scheduled hx
    obtain ⟨q, ti, hq⟩ := hold
    exact ⟨q, ti, List.mem_cons_of_mem _ hq⟩
  returned := by
    intro v r hr
    rcases List.mem_cons.mp hr with hr | hr
    · exact hret v r hr.symm
    · exact h.returned hr

theorem Valid.note (h : L.Valid) (he : e.Note L) : (L.record e).Valid := by
  cases e with
  | returned v r =>
      exact h.unmarked rfl (by simp) (fun u r hur => by cases hur; exact he) (by simp)
  | drained i r => exact h.unmarked rfl (by simp) (by simp) (by simp)
  | saved i => exact h.unmarked rfl (by simp) (by simp) (by simp)
  | shutdownCompleted => exact h.unmarked rfl (by simp) (by simp) (by simp)
  | _ => exact he.elim

theorem Valid.push (h : L.Valid) (ha : a ∈ L.live) :
    (L.record (.scheduled (L.jobs a).work a)).Valid :=
  h.unmarked rfl (fun v x hvx => by
    cases hvx
    exact (h.made ha).imp fun q hq => ⟨_, hq⟩) (by simp) (by simp)

/-- **Passing a stage.** The job in `a` goes to a place one stage further, and its counter
goes to zero where it is counted off. -/
theorem Valid.pass (h : L.Valid) {n : Nat} {m : Stage} (ha : L.place a = some p)
    (hm : p.stage = m.rank) (hd : d.stage = m.rank + 1)
    (he : e.mark = some ((L.jobs a).work, m))
    (hf : ∀ v r own, e = .fetchSub v r own → r = 1 ∧ own = true)
    (hn : (m.rank < Stage.countedOff.rank → n = 1) ∧ (Stage.countedOff.rank ≤ m.rank → n = 0)) :
    (((L.put a d).setJob a { L.jobs a with numChildren := n }).record e).Valid := by
  have hla := h.live ha
  have htr : trail L.log (L.jobs a).work = passed m.rank := hm ▸ h.stage ha
  -- the jobs keep their works, and only the trail of this one gets longer
  have hwork : ∀ b, (Function.update L.jobs a { L.jobs a with numChildren := n } b).work =
      (L.jobs b).work := update_field Job.work rfl
  have hindex : ∀ b, (Function.update L.jobs a { L.jobs a with numChildren := n } b).threadIndex =
      (L.jobs b).threadIndex := update_field Job.threadIndex rfl
  have hself : trail (e :: L.log) (L.jobs a).work = passed d.stage := by
    rw [trail_marked he, if_pos rfl, htr, hd, passed_succ]
  have hother : ∀ {v}, v ≠ (L.jobs a).work → trail (e :: L.log) v = trail L.log v := by
    intro v hv
    rw [trail_marked he, if_neg hv.symm]
  constructor <;> simp only [record_place, record_jobs, record_live, record_nextWork, record_log,
    setJob_place, setJob_jobs, setJob_live, setJob_nextWork, setJob_log, put_jobs, put_live,
    put_nextWork, put_log]
  case nodup => exact h.nodup
  case live =>
    intro b r hb
    by_cases hba : b = a
    · subst hba
      exact hla
    · rw [put_place_of_ne hba] at hb
      exact h.live hb
  case nextWork_pos => exact h.nextWork_pos
  case work_pos =>
    intro b hb
    rw [hwork]
    exact h.work_pos hb
  case work_lt =>
    intro b hb
    rw [hwork]
    exact h.work_lt hb
  case work_inj =>
    intro b c hb hc hbc
    rw [hwork, hwork] at hbc
    exact h.work_inj hb hc hbc
  case stage =>
    intro b r hb
    rw [hwork]
    by_cases hba : b = a
    · subst hba
      rw [put_place_self] at hb
      rw [hself, Option.some.inj hb]
    · rw [put_place_of_ne hba] at hb
      rw [hother (h.work_ne hla (h.live hb) hba).symm]
      exact h.stage hb
  case stage_le =>
    intro v
    by_cases hv : v = (L.jobs a).work
    · have hle : d.stage ≤ Stage.all.length := hd ▸ Nat.succ_le_succ m.rank_le
      exact ⟨d.stage, hle, hv ▸ hself⟩
    · rw [hother hv]
      exact h.stage_le v
  case fresh =>
    intro v hv
    have hva : v ≠ (L.jobs a).work := ((h.work_lt hla).trans_le hv).ne'
    rw [hother hva]
    exact h.fresh hv
  case counter_one =>
    intro b hb hoff
    rw [hwork] at hoff
    by_cases hba : b = a
    · subst hba
      rw [hself, hd, mem_passed] at hoff
      rw [Function.update_self]
      exact hn.1 (by omega)
    · rw [hother (h.work_ne hla hb hba).symm] at hoff
      rw [Function.update_of_ne hba]
      exact h.counter_one hb hoff
  case counter_zero =>
    intro b hb hoff
    rw [hwork] at hoff
    by_cases hba : b = a
    · subst hba
      rw [hself, hd, mem_passed] at hoff
      rw [Function.update_self]
      exact hn.2 (by omega)
    · rw [hother (h.work_ne hla hb hba).symm] at hoff
      rw [Function.update_of_ne hba]
      exact h.counter_zero hb hoff
  case remaining =>
    intro v r own hv
    rcases List.mem_cons.mp hv with rfl | hv
    · exact hf v r own rfl
    · exact h.remaining hv
  case constructed =>
    intro v x q ti hx
    rcases List.mem_cons.mp hx with rfl | hx
    · cases he
    · obtain ⟨hlt, hb⟩ := h.constructed hx
      refine ⟨hlt, fun b hbl hbw => ?_⟩
      rw [hwork] at hbw
      rw [hindex]
      exact hb b hbl hbw
  case made =>
    intro b hb
    rw [hwork, hindex]
    exact (h.made hb).imp fun q hq => List.mem_cons_of_mem _ hq
  case scheduled =>
    intro v x hx
    rcases List.mem_cons.mp hx with rfl | hx
    · cases he
    · obtain ⟨q, ti, hq⟩ := h.scheduled hx
      exact ⟨q, ti, List.mem_cons_of_mem _ hq⟩
  case returned =>
    intro v r hr
    rcases List.mem_cons.mp hr with rfl | hr
    · cases he
    · exact h.returned hr

/-- Passing one of the other stages, where the counter stays. -/
theorem Valid.pass_keep (h : L.Valid) {m : Stage} (ha : L.place a = some p)
    (hm : p.stage = m.rank) (hd : d.stage = m.rank + 1) (hne : m ≠ .countedOff)
    (he : e.mark = some ((L.jobs a).work, m)) : ((L.put a d).record e).Valid := by
  have hla := h.live ha
  have hoff : .countedOff ∈ trail L.log (L.jobs a).work ↔ Stage.countedOff.rank < m.rank :=
    hm ▸ h.mem_trail_iff ha
  have hrank : m.rank ≠ Stage.countedOff.rank := by
    cases m <;> first | decide | exact absurd rfl hne
  have hpass := h.pass (n := (L.jobs a).numChildren) ha hm hd he
    (fun v r own hev => by
      rw [hev] at he
      exact absurd (congrArg Prod.snd (Option.some.inj he)).symm hne)
    ⟨fun hlt => h.counter_one hla (by rw [hoff]; omega),
      fun hge => h.counter_zero hla (by rw [hoff]; omega)⟩
  have hsame : (L.put a d).setJob a { L.jobs a with numChildren := (L.jobs a).numChildren } =
      L.put a d := by simp [setJob, Ledger.put]
  rwa [hsame] at hpass

/-- **A new job.** Its storage is new, or its last job was recycled. -/
theorem Valid.construct {t : Tid} {c : Call} {o : Origin} (h : L.Valid)
    (ha : a ∈ L.live → trail L.log (L.jobs a).work = passed Stage.all.length) :
    (L.construct a (.call t c) o).Valid := by
  -- the storages other than `a` are as before
  have hlive : ∀ {b}, b ∈ (if a ∈ L.live then L.live else a :: L.live) ↔
      b = a ∨ b ∈ L.live := by
    intro b
    by_cases hla : a ∈ L.live
    · rw [if_pos hla]
      exact ⟨Or.inr, fun hb => hb.elim (fun hba => hba ▸ hla) id⟩
    · rw [if_neg hla, List.mem_cons]
  have htrail : ∀ w, trail (.constructed L.nextWork a (o.parent.map Prod.snd) o.threadIndex ::
      L.log) w = trail L.log w := fun w => trail_unmarked rfl
  have hnew : trail L.log L.nextWork = [] := h.fresh le_rfl
  constructor <;> simp only [Ledger.construct, hlive, htrail]
  case nodup =>
    by_cases hla : a ∈ L.live
    · rw [if_pos hla]
      exact h.nodup
    · rw [if_neg hla]
      exact List.nodup_cons.mpr ⟨hla, h.nodup⟩
  case live =>
    intro b r hb
    by_cases hba : b = a
    · exact Or.inl hba
    · rw [Function.update_of_ne hba] at hb
      exact Or.inr (h.live hb)
  case nextWork_pos => exact Nat.succ_pos _
  case work_pos =>
    intro b hb
    by_cases hba : b = a
    · subst hba
      rw [Function.update_self]
      exact h.nextWork_pos
    · rw [Function.update_of_ne hba]
      exact h.work_pos (hb.resolve_left hba)
  case work_lt =>
    intro b hb
    by_cases hba : b = a
    · subst hba
      rw [Function.update_self]
      exact Nat.lt_succ_self _
    · rw [Function.update_of_ne hba]
      exact Nat.lt_succ_of_lt (h.work_lt (hb.resolve_left hba))
  case work_inj =>
    intro b c hb hc hbc
    by_cases hba : b = a
    · by_cases hca : c = a
      · rw [hba, hca]
      · rw [hba, Function.update_self, Function.update_of_ne hca] at hbc
        exact absurd hbc.symm (h.work_lt (hc.resolve_left hca)).ne
    · by_cases hca : c = a
      · rw [hca, Function.update_self, Function.update_of_ne hba] at hbc
        exact absurd hbc (h.work_lt (hb.resolve_left hba)).ne
      · rw [Function.update_of_ne hba, Function.update_of_ne hca] at hbc
        exact h.work_inj (hb.resolve_left hba) (hc.resolve_left hca) hbc
  case stage =>
    intro b r hb
    by_cases hba : b = a
    · subst hba
      rw [Function.update_self] at hb ⊢
      rw [hnew, ← Option.some.inj hb]
      rfl
    · rw [Function.update_of_ne hba] at hb ⊢
      exact h.stage hb
  case stage_le => exact h.stage_le
  case fresh => exact fun hw => h.fresh (Nat.le_of_succ_le hw)
  case counter_one =>
    intro b hb hoff
    by_cases hba : b = a
    · subst hba
      rw [Function.update_self]
    · rw [Function.update_of_ne hba] at hoff ⊢
      exact h.counter_one (hb.resolve_left hba) hoff
  case counter_zero =>
    intro b hb hoff
    by_cases hba : b = a
    · subst hba
      rw [Function.update_self, hnew] at hoff
      cases hoff
    · rw [Function.update_of_ne hba] at hoff ⊢
      exact h.counter_zero (hb.resolve_left hba) hoff
  case remaining =>
    intro w r own hw
    rcases List.mem_cons.mp hw with hw | hw
    · cases hw
    · exact h.remaining hw
  case constructed =>
    intro w x q ti hx
    rcases List.mem_cons.mp hx with hx | hx
    · cases hx
      refine ⟨Nat.lt_succ_self _, fun b hb hbw => ?_⟩
      by_cases hba : b = a
      · subst hba
        rw [Function.update_self]
        exact ⟨rfl, rfl⟩
      · rw [Function.update_of_ne hba] at hbw
        exact absurd hbw (h.work_lt (hb.resolve_left hba)).ne
    · obtain ⟨hlt, hall⟩ := h.constructed hx
      refine ⟨Nat.lt_succ_of_lt hlt, fun b hb hbw => ?_⟩
      by_cases hba : b = a
      · subst hba
        rw [Function.update_self] at hbw
        exact absurd hbw.symm hlt.ne
      · rw [Function.update_of_ne hba] at hbw ⊢
        exact hall b (hb.resolve_left hba) hbw
  case made =>
    intro b hb
    by_cases hba : b = a
    · subst hba
      rw [Function.update_self]
      exact ⟨_, List.mem_cons_self⟩
    · rw [Function.update_of_ne hba]
      exact (h.made (hb.resolve_left hba)).imp fun q hq => List.mem_cons_of_mem _ hq
  case scheduled =>
    intro w x hx
    rcases List.mem_cons.mp hx with hx | hx
    · cases hx
    · obtain ⟨q, ti, hq⟩ := h.scheduled hx
      exact ⟨q, ti, List.mem_cons_of_mem _ hq⟩
  case returned =>
    intro w r hr
    rcases List.mem_cons.mp hr with hr | hr
    · cases hr
    · exact Nat.lt_succ_of_lt (h.returned hr)

theorem Valid.drop {S : Place → Prop} [DecidablePred S] (h : L.Valid) : (L.drop S).Valid :=
  { h with
    live := fun hb => h.live (drop_place.mp hb).1
    stage := fun hb => h.stage (drop_place.mp hb).1 }

theorem free_place : (L.free a).place b = some p ↔ b ≠ a ∧ L.place b = some p ∧ p ≠ .cont a := by
  by_cases hba : b = a
  · simp [free, hba]
  · simp [free, hba, Option.filter_eq_some_iff]

theorem Valid.free (h : L.Valid) : (L.free a).Valid := by
  have hlive : ∀ {b}, b ∈ L.live.erase a ↔ b ≠ a ∧ b ∈ L.live := h.nodup.mem_erase_iff
  have hrec : (L.record (.deallocated a)).Valid :=
    h.unmarked rfl (by simp) (by simp) (by simp)
  refine { hrec with
    nodup := h.nodup.erase a
    live := fun hb => hlive.mpr ⟨(free_place.mp hb).1, h.live (free_place.mp hb).2.1⟩
    work_pos := fun hb => h.work_pos (hlive.mp hb).2
    work_lt := fun hb => h.work_lt (hlive.mp hb).2
    work_inj := fun hb hc => h.work_inj (hlive.mp hb).2 (hlive.mp hc).2
    stage := fun hb => hrec.stage (free_place.mp hb).2.1
    counter_one := fun hb => hrec.counter_one (hlive.mp hb).2
    counter_zero := fun hb => hrec.counter_zero (hlive.mp hb).2
    constructed := fun hx => ?_
    made := fun hb => hrec.made (hlive.mp hb).2 }
  obtain ⟨hlt, hall⟩ := hrec.constructed hx
  exact ⟨hlt, fun b hb => hall b (hlive.mp hb).2⟩

theorem attach_place {x : Addr} {of : Work} : (L.attach b of a).place x = some p ↔
    (x = a ∧ L.Open b ∧ p = .cont b) ∨ (x ≠ a ∧ L.place x = some p ∧ p ≠ .cont b) := by
  by_cases hx : x = a
  · by_cases hb : L.Open b
    · simp [attach, hx, hb, eq_comm]
    · simp [attach, hx, hb]
  · simp [attach, hx, Option.filter_eq_some_iff]

theorem Valid.attach {t : Tid} {c : Call} {of : Work} (h : L.Valid)
    (ha : L.place a = some (.call t c)) : (L.attach b of a).Valid := by
  have hrec : (L.record (.attached of (L.jobs a).work)).Valid :=
    h.unmarked rfl (by simp) (by simp) (by simp)
  -- only the `continuation` of a job changes
  have hjobs : ∀ x, ∃ c', (L.attach b of a).jobs x = { L.jobs x with continuation := c' } := by
    intro x
    by_cases hx : x = b
    · exact ⟨some a, by simp [Ledger.attach, hx]⟩
    · exact ⟨(L.jobs x).continuation, by simp [Ledger.attach, hx]⟩
  have hwork : ∀ x, ((L.attach b of a).jobs x).work = (L.jobs x).work := by
    intro x
    obtain ⟨c', hc⟩ := hjobs x
    rw [hc]
  constructor
  case nodup => exact h.nodup
  case live =>
    intro x r hx
    rcases attach_place.mp hx with ⟨rfl, -, -⟩ | ⟨-, hx, -⟩
    · exact h.live ha
    · exact h.live hx
  case nextWork_pos => exact h.nextWork_pos
  case work_pos => exact fun {x} hx => (hwork x).symm ▸ h.work_pos hx
  case work_lt => exact fun {x} hx => (hwork x).symm ▸ h.work_lt hx
  case work_inj =>
    intro x y hx hy hxy
    rw [hwork, hwork] at hxy
    exact h.work_inj hx hy hxy
  case stage =>
    intro x r hx
    rw [hwork]
    rcases attach_place.mp hx with ⟨rfl, -, rfl⟩ | ⟨-, hx, -⟩
    · rw [show Place.stage (.cont b) = (Place.call t c).stage from rfl]
      exact hrec.stage ha
    · exact hrec.stage hx
  case stage_le => exact hrec.stage_le
  case fresh => exact hrec.fresh
  case counter_one =>
    intro x hx hoff
    rw [hwork] at hoff
    obtain ⟨c', hc⟩ := hjobs x
    rw [hc]
    exact hrec.counter_one hx hoff
  case counter_zero =>
    intro x hx hoff
    rw [hwork] at hoff
    obtain ⟨c', hc⟩ := hjobs x
    rw [hc]
    exact hrec.counter_zero hx hoff
  case remaining => exact hrec.remaining
  case constructed =>
    intro w x q ti hx
    obtain ⟨hlt, hall⟩ := hrec.constructed hx
    refine ⟨hlt, fun y hy hyw => ?_⟩
    rw [hwork] at hyw
    obtain ⟨c', hc⟩ := hjobs y
    rw [hc]
    exact hall y hy hyw
  case made =>
    intro x hx
    obtain ⟨c', hc⟩ := hjobs x
    rw [hc]
    exact hrec.made hx
  case scheduled => exact hrec.scheduled
  case returned => exact hrec.returned

end Valid

/-! ## The changes keep the continuations -/

section Chained

theorem open_record (he : ∀ v, e ≠ .continuationRead v) :
    (L.record e).Open b ↔ L.Open b := by
  have hne : Event.continuationRead (L.jobs b).work ≠ e := fun h => he _ h.symm
  simp [Open, hne]

/-- A job whose continuation was read is not open. -/
theorem Valid.not_open (h : L.Valid) (ha : L.place a = some p)
    (hp : Stage.continuationRead.rank < p.stage) : ¬ L.Open a := fun ho =>
  ho.2 (continuationRead_iff.mp ((h.mem_trail_iff ha).mpr hp))

theorem Chained.record (h : L.Chained) (he : ∀ v, e ≠ .continuationRead v) :
    (L.record e).Chained := by
  intro x b
  rw [open_record he]
  exact h x b

theorem Chained.put (h : L.Chained) (ha : L.place a = some p) (hp : ∀ b, p ≠ .cont b)
    (hd : ∀ b, d ≠ .cont b) : (L.put a d).Chained := by
  intro x b
  show _ ↔ L.Open b ∧ _
  rw [put_jobs, ← h x b]
  by_cases hx : x = a
  · subst hx
    rw [put_place_self, ha]
    simp [hp b, hd b]
  · rw [put_place_of_ne hx]

theorem Chained.putCont {c : Option Addr} (h : L.Chained)
    (hc : ∀ a, c = some a → ∃ p, L.place a = some p ∧ ∀ b, p ≠ .cont b)
    (hd : ∀ b, d ≠ .cont b) : (L.putCont c d).Chained := by
  cases c with
  | none => exact h
  | some a =>
      obtain ⟨p, ha, hp⟩ := hc a rfl
      exact h.put ha hp hd

/-- The counter of a job is not part of the chain. -/
theorem Chained.setCounter {n : Nat} (h : L.Chained) :
    (L.setJob a { L.jobs a with numChildren := n }).Chained := by
  intro x b
  have hopen : (L.setJob a { L.jobs a with numChildren := n }).Open b ↔ L.Open b := by
    by_cases hb : b = a
    · subst hb
      simp [Open]
    · simp [Open, hb]
  rw [hopen, setJob_place, h x b]
  by_cases hb : b = a
  · subst hb
    simp
  · simp [hb]

theorem Chained.drop {S : Place → Prop} [DecidablePred S] (h : L.Chained)
    (hS : ∀ b, ¬ S (.cont b)) : (L.drop S).Chained := by
  intro x b
  rw [drop_place, h x b]
  exact ⟨And.left, fun hb => ⟨hb, hS b⟩⟩

theorem Chained.construct {t : Tid} {c : Call} {o : Origin} (h : L.Chained)
    (ha : ¬ L.Open a) (hpl : ∀ b, L.place a ≠ some (.cont b)) :
    (L.construct a (.call t c) o).Chained := by
  have hopen : ∀ {b}, b ≠ a → ((L.construct a (.call t c) o).Open b ↔ L.Open b) := by
    intro b hb
    by_cases hla : a ∈ L.live
    · simp [Open, Ledger.construct, hb, hla]
    · simp [Open, Ledger.construct, hb, hla]
  intro x b
  by_cases hb : b = a
  · subst hb
    have hcont : ∀ y, ¬ L.place y = some (.cont b) := fun y hy => ha ((h y b).mp hy).1
    by_cases hx : x = b
    · subst hx
      simp [Ledger.construct]
    · simp [Ledger.construct, hx, hcont x]
  · rw [hopen hb]
    have hjob : ((L.construct a (.call t c) o).jobs b).continuation =
        (L.jobs b).continuation := by simp [Ledger.construct, hb]
    rw [hjob, ← h x b]
    by_cases hx : x = a
    · subst hx
      simp [Ledger.construct, hpl b]
    · simp [Ledger.construct, hx]

theorem Chained.free {q : QueueId} (h : L.Chained) (hv : L.Valid)
    (ha : L.place a = some (.queue q)) : (L.free a).Chained := by
  intro x b
  have hopen : (L.free a).Open b ↔ b ≠ a ∧ L.Open b := by
    have hlive : b ∈ L.live.erase a ↔ b ≠ a ∧ b ∈ L.live := hv.nodup.mem_erase_iff
    simp [Open, Ledger.free, hlive, and_assoc]
  rw [free_place, hopen]
  show _ ↔ _ ∧ (L.jobs b).continuation = some x
  rw [and_assoc, ← h x b]
  constructor
  · rintro ⟨-, hx, hb⟩
    exact ⟨fun hba => hb (hba ▸ rfl), hx⟩
  · rintro ⟨hb, hx⟩
    refine ⟨fun hxa => ?_, hx, fun hba => hb (Place.cont.inj hba)⟩
    rw [hxa, ha] at hx
    cases hx

theorem Chained.attach {t : Tid} {c : Call} {of : Work} (h : L.Chained)
    (ha : L.place a = some (.call t c)) : (L.attach b of a).Chained := by
  intro x d
  have hopen : (L.attach b of a).Open d ↔ L.Open d := by
    by_cases hd : d = b
    · subst hd
      simp [Open, Ledger.attach]
    · simp [Open, Ledger.attach, hd]
  rw [attach_place, hopen]
  by_cases hd : d = b
  · subst hd
    simp [Ledger.attach, and_comm, eq_comm]
  · have hjob : ((L.attach b of a).jobs d).continuation = (L.jobs d).continuation := by
      simp [Ledger.attach, hd]
    rw [hjob, ← h x d]
    constructor
    · rintro (⟨-, -, hdb⟩ | ⟨-, hx, -⟩)
      · exact absurd (Place.cont.inj hdb) hd
      · exact hx
    · intro hx
      refine Or.inr ⟨fun hxa => ?_, hx, fun hdb => hd (Place.cont.inj hdb)⟩
      rw [hxa, ha] at hx
      cases hx

/-- **Reading the continuation.** The job in `a` is not open any more, and the one behind it
goes with the worker. -/
theorem Chained.readContinuation {i : Nat} {v v' : Option Work} (h : L.Chained)
    (hv : L.Valid) (ha : L.place a = some (.run i .continuationRead v)) :
    (((L.put a (.run i .countedOff v')).record (.continuationRead (L.jobs a).work)).putCont
      (L.jobs a).continuation (.next i v')).Chained := by
  have hopen_a : L.Open a := ⟨hv.live ha, fun hr => by
    have hread := (hv.mem_trail_iff ha).mp (continuationRead_iff.mpr hr)
    exact absurd hread (lt_irrefl _)⟩
  have hbehind : ∀ x, L.place x = some (.cont a) ↔ (L.jobs a).continuation = some x :=
    fun x => (h x a).trans (and_iff_right hopen_a)
  -- what is open afterwards
  have hopen : ∀ L' : Ledger, L'.jobs = L.jobs → L'.live = L.live →
      L'.log = .continuationRead (L.jobs a).work :: L.log →
      ∀ b, L'.Open b ↔ b ≠ a ∧ L.Open b := by
    intro L' hj hl hg b
    rw [Open, hj, hl, hg, List.mem_cons, not_or]
    constructor
    · rintro ⟨hb, hne, hb'⟩
      exact ⟨fun hba => hne (by rw [hba]), hb, hb'⟩
    · rintro ⟨hba, hb, hb'⟩
      refine ⟨hb, fun heq => hba ?_, hb'⟩
      exact hv.work_inj hb (hv.live ha) (Event.continuationRead.inj heq)
  cases hc : (L.jobs a).continuation with
  | none =>
      intro x b
      rw [putCont_none, hopen ((L.put a (.run i .countedOff v')).record _) rfl rfl rfl b, and_assoc]
      show Function.update L.place a _ x = _ ↔ _ ∧ L.Open b ∧ (L.jobs b).continuation = some x
      rw [← h x b]
      by_cases hx : x = a
      · subst hx
        simp [ha]
      · rw [Function.update_of_ne hx]
        refine ⟨fun hxb => ⟨fun hba => ?_, hxb⟩, And.right⟩
        rw [hba, hbehind, hc] at hxb
        cases hxb
  | some c =>
      have hca : L.place c = some (.cont a) := (hbehind c).mpr hc
      intro x b
      rw [putCont_some, hopen (((L.put a (.run i .countedOff v')).record _).put c (.next i v'))
        rfl rfl rfl b, and_assoc]
      show Function.update (Function.update L.place a _) c _ x = _ ↔
        _ ∧ L.Open b ∧ (L.jobs b).continuation = some x
      rw [← h x b]
      by_cases hxc : x = c
      · subst hxc
        rw [Function.update_self, hca]
        simp [eq_comm]
      · rw [Function.update_of_ne hxc]
        by_cases hx : x = a
        · subst hx
          simp [ha]
        · rw [Function.update_of_ne hx]
          refine ⟨fun hxb => ⟨fun hba => ?_, hxb⟩, And.right⟩
          rw [hba, hbehind, hc] at hxb
          exact hxc (Option.some.inj hxb).symm

end Chained

/-! ## The moves keep the ledger in order -/

/-- **The ledger is in order.** -/
structure InOrder (L : Ledger) : Prop where
  valid : L.Valid
  chained : L.Chained

end Ledger

section Moves

open Ledger

variable {n : Nat} {P : Policy}
variable {L L' : Ledger} {a : Addr} {i : Nat} {m : Stage} {via : Option Work} {e : Event}

/-- Jobs in different places are in different storages. -/
theorem Ledger.ne_of_place {b : Addr} {p d : Place} (ha : L.place a = some p)
    (hb : L.place b = some d) (hpd : p ≠ d) : b ≠ a := fun hba => by
  rw [hba, ha] at hb
  exact hpd (Option.some.inj hb)

/-- Moving one job leaves a job in another place where it is. -/
theorem Ledger.put_place_keep {b : Addr} {p d r : Place} (ha : L.place a = some p)
    (hb : L.place b = some r) (hpr : p ≠ r) : (L.put a d).place b = some r := by
  rw [put_place_of_ne (ne_of_place ha hb hpr), hb]

/-- What a worker will find in the `m_Continuation` of the job it just ran is behind it. -/
theorem Ledger.InOrder.behind {c : Addr} (h : L.InOrder)
    (ha : L.place a = some (.run i .continuationRead via))
    (hc : (L.jobs a).continuation = some c) : L.place c = some (.cont a) :=
  (h.chained c a).mpr ⟨⟨h.valid.live ha, fun hr => absurd
    ((h.valid.mem_trail_iff ha).mp (continuationRead_iff.mpr hr)) (lt_irrefl _)⟩, hc⟩

/-- A worker runs a job through its stages. -/
theorem Ledger.InOrder.advance (h : L.InOrder) (ha : L.place a = some (.run i m via))
    (he : e.Advances (L.jobs a).work i via m) :
    ((L.put a (.run i m.next via)).record e).InOrder := by
  have hc := h.chained.put ha (d := .run i m.next via) (by simp) (by simp)
  rcases he with ⟨rfl, rfl⟩ | ⟨rfl, rfl⟩ | ⟨rfl, rfl⟩
  · exact ⟨h.valid.pass_keep ha rfl rfl (by simp) rfl, hc.record (by simp)⟩
  · exact ⟨h.valid.pass_keep ha rfl rfl (by simp) rfl, hc.record (by simp)⟩
  · exact ⟨h.valid.pass_keep ha rfl rfl (by simp) rfl, hc.record (by simp)⟩

theorem Ledger.InOrder.readContinuation (h : L.InOrder)
    (ha : L.place a = some (.run i .continuationRead via)) :
    (((L.put a (.run i .countedOff (some (L.jobs a).work))).record
        (.continuationRead (L.jobs a).work)).putCont
      (L.jobs a).continuation (.next i (some (L.jobs a).work))).InOrder := by
  refine ⟨?_, h.chained.readContinuation h.valid ha⟩
  have hv := h.valid.pass_keep (d := .run i .countedOff (some (L.jobs a).work)) ha rfl rfl
    (by simp) (e := .continuationRead (L.jobs a).work) rfl
  exact hv.putCont (fun c hc => ⟨.cont a, put_place_keep ha (h.behind ha hc) (by simp), rfl⟩)

theorem Ledger.InOrder.recycle {q : QueueId} {c : Option Addr} (h : L.InOrder)
    (ha : L.place a = some (.run i .recycled via)) (hq : q.isBin = true)
    (hc : ∀ b, c = some b ↔ L.place b = some (.next i via)) :
    (((L.put a (.queue q)).record (.recycled (L.jobs a).work)).putCont c
      (.run i .started via)).InOrder := by
  have hcont : ∀ b, c = some b → ((L.put a (.queue q)).record
      (.recycled (L.jobs a).work)).place b = some (.next i via) :=
    fun b hb => put_place_keep ha ((hc b).mp hb) (by simp)
  have hv := h.valid.pass_keep ha rfl (stage_bin hq) (by simp)
    (e := .recycled (L.jobs a).work) rfl
  have hch := (h.chained.put ha (d := .queue q) (by simp) (by simp)).record
    (e := .recycled (L.jobs a).work) (by simp)
  exact ⟨hv.putCont (fun b hb => ⟨_, hcont b hb, rfl⟩),
    hch.putCont (fun b hb => ⟨_, hcont b hb, by simp⟩) (by simp)⟩

/-- **Every move keeps the ledger in order.** -/
theorem Move.inOrder (hm : Move n P L L') (h : L.InOrder) : L'.InOrder := by
  have hv := h.valid
  cases hm with
  | @construct a t c o ha _ =>
      have hst : trail L.log (L.jobs a).work = passed Stage.all.length := hv.stage ha
      have hno : ¬ L.Open a := hv.not_open ha (by simp)
      exact ⟨hv.construct (fun _ => hst), h.chained.construct hno (by simp [ha])⟩
  | @allocate a t c o ha _ =>
      have hvr := hv.unmarked (e := .allocated a) rfl (by simp) (by simp) (by simp)
      have hpl : ∀ b, L.place a ≠ some (.cont b) := fun b hb => ha (hv.live hb)
      exact ⟨hvr.construct (fun hla => absurd hla ha),
        (h.chained.record (by simp)).construct (fun ho => ha ho.1) hpl⟩
  | route ha _ => exact ⟨hv.put ha rfl, h.chained.put ha (by simp) (by simp)⟩
  | @balance a t ha =>
      have hp := hv.put ha (d := .call t (.pushGlobal a)) rfl
      have hc := h.chained.put ha (d := .call t (.pushGlobal a)) (by simp) (by simp)
      exact ⟨{ hp with }, hc⟩
  | @push a t c q ha hq =>
      have hst : (Place.queue q).stage = 0 := by
        rcases hq with ⟨-, rfl⟩ | ⟨-, rfl⟩ <;> rfl
      exact ⟨(hv.put ha hst).push (hv.live ha),
        (h.chained.put ha (by simp) (by simp)).record (by simp)⟩
  | attach ha _ => exact ⟨hv.attach ha, h.chained.attach ha⟩
  | @pop a i q ha hq =>
      have hst : (Place.queue q).stage = 0 := by
        rcases hq with rfl | ⟨j, rfl⟩ <;> rfl
      exact ⟨hv.put ha hst.symm, h.chained.put ha (by simp) (by simp)⟩
  | advance ha he => exact h.advance ha he
  | readContinuation ha _ => exact h.readContinuation ha
  | @fetchSub a i via ha =>
      have hc := h.chained.put ha (d := .run i .completed via) (by simp) (by simp)
      exact ⟨hv.pass ha rfl rfl rfl (fun _ _ _ hev => by cases hev; exact ⟨rfl, rfl⟩)
        ⟨fun hlt => absurd hlt (by simp), fun _ => rfl⟩, hc.setCounter.record (by simp)⟩
  | recycle ha hq hc =>
      refine h.recycle ha ?_ hc
      rcases hq with rfl | rfl <;> rfl
  | collect => exact ⟨hv.drop, h.chained.drop (by simp)⟩
  | note he =>
      refine ⟨hv.note he, h.chained.record (fun v hev => ?_)⟩
      rw [hev] at he
      exact he

/-- So does returning the storage of a job in a queue, -/
theorem Ledger.InOrder.free {q : QueueId} (h : L.InOrder) (ha : L.place a = some (.queue q)) :
    (L.free a).InOrder :=
  ⟨h.valid.free, h.chained.free h.valid ha⟩

/-- and clearing a queue. -/
theorem Ledger.InOrder.clear {q : QueueId} (h : L.InOrder) (he : e.Note L) :
    ((L.drop fun p => p = .queue q).record e).InOrder := by
  have hd : (L.drop fun p => p = .queue q).Valid := h.valid.drop
  refine ⟨hd.note ?_, (h.chained.drop (by simp)).record (fun v hev => ?_)⟩
  · cases e <;> exact he
  · rw [hev] at he
    exact he

end Moves

/-! ## What the moves keep -/

section Keeps

variable {n : Nat} {P : Policy}
variable {L L' : Ledger} {a b : Addr} {p d : Place} {e : Event} {w : Work} {m : Stage}

/-- The events about the storage of jobs. -/
def Event.stores : Event → Bool
  | .allocated _ | .deallocated _ | .destroyed _ | .constructed _ _ _ _ => true
  | _ => false

/-- No job is made and no storage is returned. -/
structure Ledger.Keeps (L L' : Ledger) : Prop where
  live : L'.live = L.live
  work : ∀ a, (L'.jobs a).work = (L.jobs a).work
  threadIndex : ∀ a, (L'.jobs a).threadIndex = (L.jobs a).threadIndex
  parent : ∀ a, (L'.jobs a).parent = (L.jobs a).parent
  nextWork : L'.nextWork = L.nextWork
  log : ∃ es, L'.log = es ++ L.log ∧ ∀ e ∈ es, e.stores = false

/-- Changes of the places and the log keep the jobs. -/
theorem Ledger.Keeps.of_jobs (hl : L'.live = L.live) (hj : L'.jobs = L.jobs)
    (hn : L'.nextWork = L.nextWork)
    (hlog : ∃ es, L'.log = es ++ L.log ∧ ∀ e ∈ es, e.stores = false) : L.Keeps L' where
  live := hl
  work a := by rw [hj]
  threadIndex a := by rw [hj]
  parent a := by rw [hj]
  nextWork := hn
  log := hlog

/-- So do changes of one job that keep its work, its thread index and its parent. -/
theorem Ledger.Keeps.of_update {j : Job} (hl : L'.live = L.live)
    (hj : L'.jobs = Function.update L.jobs a j) (hw : j.work = (L.jobs a).work)
    (ht : j.threadIndex = (L.jobs a).threadIndex) (hp : j.parent = (L.jobs a).parent)
    (hn : L'.nextWork = L.nextWork)
    (hlog : ∃ es, L'.log = es ++ L.log ∧ ∀ e ∈ es, e.stores = false) : L.Keeps L' where
  live := hl
  work := hj ▸ Ledger.update_field Job.work hw
  threadIndex := hj ▸ Ledger.update_field Job.threadIndex ht
  parent := hj ▸ Ledger.update_field Job.parent hp
  nextWork := hn
  log := hlog

theorem Ledger.Keeps.mem_trail (h : L.Keeps L') (hm : m ∈ trail L.log w) :
    m ∈ trail L'.log w := by
  obtain ⟨es, hes, -⟩ := h.log
  rw [hes]
  exact mem_trail_append es hm

/-- The ledger before a job is made in the storage `a`. -/
def Ledger.Before (L : Ledger) (a : Addr) (L₁ : Ledger) : Prop :=
  ((∃ t, L.place a = some (.queue (.recyclingBin t))) ∧ L₁ = L) ∨
    (a ∉ L.live ∧ L₁ = L.record (.allocated a))

/-- A move makes a new job, or it keeps the jobs. -/
theorem Move.keeps (hm : Move n P L L') : L.Keeps L' ∨
    ∃ a t c o L₁, L.Before a L₁ ∧ c.Begins P L t a o ∧ L' = L₁.construct a (.call t c) o := by
  have hnone : ∃ es, L.log = es ++ L.log ∧ ∀ e ∈ es, e.stores = false := ⟨[], rfl, by simp⟩
  have hone : ∀ {e₀ : Event}, e₀.stores = false →
      ∃ es, e₀ :: L.log = es ++ L.log ∧ ∀ e ∈ es, e.stores = false :=
    fun {e₀} h => ⟨[e₀], rfl, fun e he => List.mem_singleton.mp he ▸ h⟩
  cases hm with
  | @construct a t c o ha hc => exact Or.inr ⟨a, t, c, o, L, Or.inl ⟨⟨t, ha⟩, rfl⟩, hc, rfl⟩
  | @allocate a t c o ha hc => exact Or.inr ⟨a, t, c, o, _, Or.inr ⟨ha, rfl⟩, hc, rfl⟩
  | route | balance | pop | collect => exact Or.inl (Ledger.Keeps.of_jobs rfl rfl rfl hnone)
  | push => exact Or.inl (Ledger.Keeps.of_jobs rfl rfl rfl (hone rfl))
  | attach | fetchSub => exact Or.inl (Ledger.Keeps.of_update rfl rfl rfl rfl rfl rfl (hone rfl))
  | @advance a i k via e ha he =>
      refine Or.inl (Ledger.Keeps.of_jobs rfl rfl rfl (hone ?_))
      rcases he with ⟨-, rfl⟩ | ⟨-, rfl⟩ | ⟨-, rfl⟩ <;> rfl
  | @readContinuation a i via ha _ =>
      refine Or.inl ?_
      cases (L.jobs a).continuation with
      | none => exact Ledger.Keeps.of_jobs rfl rfl rfl (hone rfl)
      | some c => exact Ledger.Keeps.of_jobs rfl rfl rfl (hone rfl)
  | @recycle a i via q c ha hq hc =>
      refine Or.inl ?_
      cases c with
      | none => exact Ledger.Keeps.of_jobs rfl rfl rfl (hone rfl)
      | some c => exact Ledger.Keeps.of_jobs rfl rfl rfl (hone rfl)
  | @note e he =>
      refine Or.inl (Ledger.Keeps.of_jobs rfl rfl rfl (hone ?_))
      cases e <;> first | rfl | exact he.elim

/-- No job has a parent, and none had one. -/
structure Ledger.Rootless (L : Ledger) : Prop where
  parent : ∀ x, (L.jobs x).parent = none
  constructed : ∀ {w a p ti}, .constructed w a p ti ∈ L.log → p = none

/-- If jobs are made without a parent, then no job has one. -/
theorem Move.rootless (hm : Move n P L L') (h : L.Rootless)
    (hmakes : ∀ {t o}, P.makes t o → o.parent = none) : L'.Rootless := by
  rcases hm.keeps with hk | ⟨a, t, c, o, L₁, hb, hbegins, rfl⟩
  · obtain ⟨es, hes, hno⟩ := hk.log
    refine ⟨fun x => (hk.parent x).trans (h.parent x), fun hc => ?_⟩
    rw [hes] at hc
    exact h.constructed ((List.mem_append.mp hc).resolve_left fun he => by cases hno _ he)
  · have ho : o.parent = none := by
      cases hbegins with
      | schedule hto => exact hmakes hto
      | jobThen ho => exact ho
    have hbase : L₁.jobs = L.jobs ∧
        ∀ {w x p ti}, .constructed w x p ti ∈ L₁.log → .constructed w x p ti ∈ L.log := by
      rcases hb with ⟨-, rfl⟩ | ⟨-, rfl⟩
      · exact ⟨rfl, id⟩
      · exact ⟨rfl, fun hc => by simpa [Ledger.record] using hc⟩
    constructor
    · intro x
      by_cases hx : x = a
      · simp [Ledger.construct, hx, ho]
      · simp [Ledger.construct, hx, hbase.1, h.parent]
    · intro w x p ti hc
      rcases List.mem_cons.mp hc with hc | hc
      · cases hc
        simp [ho]
      · exact h.constructed (hbase.2 hc)

theorem Ledger.Rootless.free (h : L.Rootless) : (L.free a).Rootless :=
  ⟨h.parent, fun hc => h.constructed ((List.mem_cons.mp hc).resolve_left (by simp))⟩

theorem Ledger.Rootless.clear {q : QueueId} (h : L.Rootless) (he : e.Note L) :
    ((L.drop fun p => p = .queue q).record e).Rootless := by
  refine ⟨h.parent, fun hc => h.constructed ((List.mem_cons.mp hc).resolve_left fun hce => ?_)⟩
  rw [← hce] at he
  exact he

end Keeps

end Bop.JobSystem
