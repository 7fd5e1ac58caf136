import Bop.JobSystem.Ownership

set_option autoImplicit false

/-! # Chains of continuations

A worker got a job from a queue, and the continuations behind it are all attached: the inner loop
of `JobSystem::worker` runs them one after the other. The parent of the first one, if there is
one, is handed over from each job to the next; it gains a count with each hand-over and loses it
when the job that handed it over completes.

Other threads go on meanwhile: `Chain.Spares` says what they must leave alone. The works may
schedule jobs without a parent. Where the loop is then is one of the finitely many points of
`Chain.Phase`, and each step of the worker leads to the next.
-/

namespace Bop.JobSystem

/-- What was recorded after `s₀`, newest first. -/
def State.since (s₀ s : State) : List Event := s.log.take (s.log.length - s₀.log.length)

/-- The jobs of the list are each other's continuations, the last one has none. -/
def Links (jobs : Addr → Job) : List Addr → Prop
  | [] => True
  | a :: rest => (jobs a).continuation = rest.head? ∧ Links jobs rest

instance Links.decidable (jobs : Addr → Job) : ∀ l, Decidable (Links jobs l)
  | [] => .isTrue trivial
  | _ :: rest =>
      have := Links.decidable jobs rest
      inferInstanceAs (Decidable (_ ∧ _))

/-- The list is a parent, its parent, and so on. -/
def Ascends (jobs : Addr → Job) : Option Addr → List Addr → Prop
  | o, [] => o = none
  | o, p :: up => o = some p ∧ Ascends jobs (jobs p).parent up

instance Ascends.decidable (jobs : Addr → Job) : ∀ o l, Decidable (Ascends jobs o l)
  | o, [] => inferInstanceAs (Decidable (o = none))
  | _, p :: up =>
      have := Ascends.decidable jobs (jobs p).parent up
      inferInstanceAs (Decidable (_ ∧ _))

/-- The stages of the works one after the other, oldest first. -/
def script (works : List Work) : List (Work × Stage) :=
  works.flatMap fun w => Stage.all.map (w, ·)

/-- The call of a thread is one of `schedule`. -/
def Call.schedules : Call → Bool
  | .attach _ _ _ | .reread _ _ => false
  | _ => true

/-- Each job is in at most one queue, and the queues have jobs in storages that are in use. -/
structure State.Intact (s : State) : Prop where
  wellFormed : s.store.WellFormed
  live : ∀ {q a}, s.store.Linked q a → a ∈ s.live

/-- A worker that has a job, the job with its continuations, and the parent of the job with the
parents of that. -/
structure Chain where
  start : State
  worker : Nat
  jobs : List Addr
  lineage : List Addr

namespace Chain

variable (C : Chain)

def work (a : Addr) : Work := (C.start.jobs a).work

def works : List Work := C.jobs.map C.work

def parent : Option Addr := C.lineage.head?

/-- The counter of the parent at the start. -/
def count : Nat := match C.parent with
  | some p => (C.start.jobs p).numChildren
  | none => 1

def bin : QueueId := .recyclingBin (.worker C.worker)

/-- The stages that the jobs of the chain passed since the start, oldest first. -/
def marks (s : State) : List (Work × Stage) :=
  (((C.start.since s).filterMap Event.mark).filter fun m => m.1 ∈ C.works).reverse

/-- **The chain at its start**: the worker has popped the head, and all continuations are attached. -/
structure Attached : Prop where
  size : C.worker < C.start.size
  pc : (C.start.worker C.worker).pc = .execute C.jobs.head?
  nonempty : C.jobs ≠ []
  call : C.start.call (.worker C.worker) = .idle
  links : Links C.start.jobs C.jobs
  ascends : ∀ a ∈ C.jobs.head?, Ascends C.start.jobs (C.start.jobs a).parent C.lineage
  unparented : ∀ a ∈ C.jobs.tail, (C.start.jobs a).parent = none

instance : Decidable C.Attached :=
  decidable_of_iff (C.worker < C.start.size ∧
      (C.start.worker C.worker).pc = .execute C.jobs.head? ∧ C.jobs ≠ [] ∧
      C.start.call (.worker C.worker) = .idle ∧ Links C.start.jobs C.jobs ∧
      (∀ a ∈ C.jobs.head?, Ascends C.start.jobs (C.start.jobs a).parent C.lineage) ∧
      ∀ a ∈ C.jobs.tail, (C.start.jobs a).parent = none)
    ⟨fun ⟨h₁, h₂, h₃, h₄, h₅, h₆, h₇⟩ => ⟨h₁, h₂, h₃, h₄, h₅, h₆, h₇⟩,
      fun h => ⟨h.size, h.pc, h.nonempty, h.call, h.links, h.ascends, h.unparented⟩⟩

/-- The jobs of the chain have no children, and no one else has them. -/
structure Ready : Prop extends C.Attached where
  counters : ∀ a ∈ C.jobs, (C.start.jobs a).numChildren = 1
  works : ((C.jobs ++ C.lineage).map C.work).Nodup
  live : ∀ a ∈ C.jobs ++ C.lineage, a ∈ C.start.live
  intact : C.start.Intact
  unlinked : ∀ a ∈ C.jobs, ∀ q, ¬ C.start.store.Linked q a
  kept : ∀ a ∈ C.lineage, ¬ C.start.store.Linked C.bin a

/-- The counter of the parent is not zero, and with the count that it gains it is still one of
32 bits. -/
structure Counts : Prop where
  pos : 1 ≤ C.count
  lt : C.count + min 1 C.jobs.tail.length < 2 ^ 32

/-- An event of other threads: it is no stage of a job of the chain, and the parent is not recycled
by it. -/
def Foreign (e : Event) : Prop :=
  (∀ w k, e.mark = some (w, k) → w ∉ C.works ∧ ∀ p ∈ C.parent, (w, k) ≠ (C.work p, .recycled)) ∧
    ∀ w via, e ≠ .started w C.worker via

/-- **What other threads leave alone**: the jobs of the chain until they are recycled, the job that
a work is scheduling, the parent, and the bin of the worker. -/
structure Spares (s s' : State) : Prop where
  jobs : ∀ a ∈ C.jobs, .recycled (C.work a) ∉ C.start.since s →
    s'.jobs a = s.jobs a ∧ ∀ q, s'.store.Linked q a → s.store.Linked q a
  held : ∀ a, (s.call (.worker C.worker)).job = some a →
    ∀ q, s'.store.Linked q a → s.store.Linked q a
  parent : ∀ p ∈ C.parent, (s'.jobs p).numChildren = (s.jobs p).numChildren
  lineage : ∀ p ∈ C.lineage, (s'.jobs p).parent = (s.jobs p).parent ∧
    (s'.jobs p).work = (s.jobs p).work
  live : ∀ a, a ∈ C.lineage ∨ (a ∈ C.jobs ∧ .recycled (C.work a) ∉ C.start.since s) ∨
    (s.call (.worker C.worker)).job = some a → a ∈ s.live → a ∈ s'.live
  bin : ∀ a, s'.store.Linked C.bin a → s.store.Linked C.bin a
  intact : s.Intact → s'.Intact
  log : ∃ es, s'.log = es ++ s.log ∧ ∀ e ∈ es, C.Foreign e

/-- The steps that end a piece of the loop. -/
def own : Action → Bool
  | .work i | .finish i => i = C.worker
  | _ => false

/-- **The steps up to the end of the loop**: those of the worker, with works that schedule jobs
without a parent, and steps of other threads. -/
def Allowed (s : State) (x : Action) : Prop :=
  if C.own x then (s.worker C.worker).pc ≠ .execute none
  else if x.caller = some (.worker C.worker) then x.Parentless ∧ x.NoThen
  else ∀ s', step s x = some s' → C.Spares s s'

/-! ## The points of the loop -/

/-- What is so at a point of the loop. -/
structure Point where
  stage : Stage         -- the next stage of the current job
  counter : Nat         -- its counter
  left : Nat            -- how many steps its completion is away, at most
  handed : Bool         -- its continuation has the parent
  parentCounter : Nat
  recycled : Bool       -- the parent was recycled

/-- What the parent gains in a hand-over. -/
def gain (rest : List Addr) : Nat := min 1 rest.length

/-- **The points of an iteration** for the job `a`, with the continuations `rest`. From the last job
of the chain the completion may go on to the parent and further up. -/
inductive Phase (a : Addr) (rest : List Addr) : Pc → Point → Prop
  | execute : Phase a rest (.execute (some a))
      ⟨.started, 1, 3 * C.lineage.length + 8, false, C.count, false⟩
  | running : Phase a rest (.running a)
      ⟨.finished, 1, 3 * C.lineage.length + 7, false, C.count, false⟩
  | storeTrace : Phase a rest (.storeTrace a)
      ⟨.continuationRead, 1, 3 * C.lineage.length + 6, false, C.count, false⟩
  | readContinuation : Phase a rest (.readContinuation a)
      ⟨.continuationRead, 1, 3 * C.lineage.length + 5, false, C.count, false⟩
  | handOver : Phase a rest (.handOver a rest.head?)
      ⟨.countedOff, 1, 3 * C.lineage.length + 4, false, C.count, false⟩
  | fetchSub : Phase a rest (.complete (.fetchSub a []) rest.head?)
      ⟨.countedOff, 1, 3 * C.lineage.length + 3, true, C.count + gain rest, false⟩
  | ascend : Phase a rest (.complete (.ascend a []) rest.head?)
      ⟨.completed, 0, 3 * C.lineage.length + 2, true, C.count + gain rest, false⟩
  | tell {p : Addr} {up : List Addr} (hp : C.lineage = p :: up) :
      Phase a rest (.complete (.fetchSub p [a]) rest.head?)
        ⟨.completed, 0, 3 * C.lineage.length + 1, true, C.count + gain rest, false⟩
  | climb {below up : List Addr} {x : Addr} (hx : C.lineage = below ++ x :: up)
      (hlast : rest = []) (hone : C.count = 1) :
      Phase a rest (.complete (.ascend x (below.reverse ++ [a])) rest.head?)
        ⟨.recycled, 0, 3 * up.length + below.length + 3, true, 0, false⟩
  | climbTell {below up : List Addr} {x y : Addr} (hx : C.lineage = below ++ y :: x :: up)
      (hlast : rest = []) (hone : C.count = 1) :
      Phase a rest (.complete (.fetchSub x (y :: (below.reverse ++ [a]))) rest.head?)
        ⟨.recycled, 0, 3 * up.length + below.length + 5, true, 0, false⟩
  | unwind {below up : List Addr} {x : Addr} (hx : C.lineage = below ++ x :: up)
      (hlast : rest = []) (hone : C.count = 1) :
      Phase a rest (.complete (.recycle x (below.reverse ++ [a])) rest.head?)
        ⟨.recycled, 0, below.length + 2, true, 0, false⟩
  | recycle : Phase a rest (.complete (.recycle a []) rest.head?)
      ⟨.recycled, 0, 1, true, C.count + gain rest - 1, C.count = 1 ∧ rest = []⟩

/-! ## The invariant -/

/-- The jobs of the chain that are not recycled, and the parents. -/
structure Jobs (jobs : Addr → Job) (a : Addr) (rest : List Addr) (x : Point) : Prop where
  current : jobs a = { C.start.jobs a with numChildren := x.counter, parent := C.parent }
  waiting : ∀ b ∈ rest, jobs b = { C.start.jobs b with
    parent := if x.handed ∧ rest.head? = some b then C.parent else none }
  parent : ∀ p ∈ C.parent, (jobs p).numChildren = x.parentCounter
  lineage : ∀ p ∈ C.lineage, (jobs p).parent = (C.start.jobs p).parent ∧
    (jobs p).work = C.work p

/-- The storages `l` are in no queue, nor is the one that a work is scheduling. -/
structure Apart (s : State) (l : List Addr) : Prop where
  intact : s.Intact
  unlinked : ∀ b ∈ l, ∀ q, ¬ s.store.Linked q b
  kept : ∀ b ∈ C.lineage, ¬ s.store.Linked C.bin b
  held : ∀ b, (s.call (.worker C.worker)).job = some b →
    b ∉ l ∧ b ∉ C.lineage ∧ b ∈ s.live ∧ ∀ q, ¬ s.store.Linked q b

/-- The jobs of the chain passed the stages `l`. -/
structure Logged (s : State) (l : List (Work × Stage)) (recycled : Bool) : Prop where
  suffix : C.start.log <:+ s.log
  marks : C.marks s = l
  started : ∀ w i via, .started w i via ∈ C.start.since s → (i = C.worker ↔ w ∈ C.works)
  parent : ∀ p ∈ C.parent, .recycled (C.work p) ∈ C.start.since s ↔ recycled = true

/-- **The loop in an iteration** for `a`, after the ones for `done`. -/
structure Runs (s : State) (done : List Addr) (a : Addr) (rest : List Addr) (x : Point) :
    Prop where
  split : C.jobs = done ++ a :: rest
  size : C.worker < s.size
  phase : C.Phase a rest (s.worker C.worker).pc x
  schedules : (s.call (.worker C.worker)).schedules = true
  idle : s.call (.worker C.worker) = .idle ∨ (s.worker C.worker).pc = .running a
  jobs : C.Jobs s.jobs a rest x
  live : ∀ b, b ∈ a :: rest ∨ b ∈ C.lineage → b ∈ s.live
  apart : x.stage ≠ .recycled ∨ rest ≠ [] → C.Apart s (a :: rest)
  logged : C.Logged s (script (done.map C.work) ++ x.stage.before.map (C.work a, ·))
    x.recycled

/-- The loop has ended. -/
structure Ended (s : State) : Prop where
  pc : (s.worker C.worker).pc = .execute none
  idle : s.call (.worker C.worker) = .idle
  counter : ∀ p ∈ C.parent, (s.jobs p).numChildren = C.count - 1
  logged : C.Logged s (script C.works) (C.count = 1)

/-- What is so up to the end, with at most `n` steps to go. -/
def Holds (s : State) (n : Nat) : Prop :=
  (∃ done a rest x, C.Runs s done a rest x ∧
    n = x.left + (3 * C.lineage.length + 8) * rest.length) ∨ (C.Ended s ∧ n = 0)

variable {C} {s s' : State} {done rest up : List Addr} {a b p : Addr} {x y : Point}
  {l : List (Work × Stage)} {l' : List Addr} {e : Event} {r : Bool}

/-! ### The record -/

theorem since_append {s₀ s s' : State} {es : List Event} (h : s₀.log <:+ s.log)
    (hs : s'.log = es ++ s.log) : s₀.since s' = es ++ s₀.since s := by
  obtain ⟨l, hl⟩ := h
  simp only [State.since, hs, ← hl, List.length_append]
  rw [show es.length + (l.length + s₀.log.length) - s₀.log.length = (es ++ l).length by
      rw [List.length_append]; omega,
    show l.length + s₀.log.length - s₀.log.length = l.length by omega,
    ← List.append_assoc, List.take_left, List.take_left]

theorem marks_append {es : List Event} (h : C.start.log <:+ s.log) (hs : s'.log = es ++ s.log) :
    C.marks s' = C.marks s ++
      ((es.filterMap Event.mark).filter fun m => m.1 ∈ C.works).reverse := by
  simp only [marks, since_append h hs, List.filterMap_append, List.filter_append,
    List.reverse_append]

/-- The record of other threads. -/
theorem Logged.foreign {es : List Event} (h : C.Logged s l r) (hs : s'.log = es ++ s.log)
    (hes : ∀ e ∈ es, C.Foreign e) : C.Logged s' l r where
  suffix := h.suffix.trans (hs ▸ List.suffix_append _ _)
  marks := by
    have hnone : (es.filterMap Event.mark).filter (fun m => m.1 ∈ C.works) = [] := by
      refine List.filter_eq_nil_iff.mpr fun m hm => ?_
      obtain ⟨e, he, hem⟩ := List.mem_filterMap.mp hm
      simpa using ((hes e he).1 m.1 m.2 hem).1
    rw [marks_append h.suffix hs, hnone, List.reverse_nil, List.append_nil, h.marks]
  started w i via hm := by
    rw [since_append h.suffix hs] at hm
    rcases List.mem_append.mp hm with hm | hm
    · obtain ⟨hmark, hstart⟩ := hes _ hm
      have hw := (hmark w .started rfl).1
      exact ⟨fun hi => absurd (hi ▸ rfl) (hstart w via), fun hw' => absurd hw' hw⟩
    · exact h.started w i via hm
  parent p hp := by
    rw [since_append h.suffix hs, List.mem_append, ← h.parent p hp]
    refine ⟨fun hm => hm.resolve_left fun hm => ?_, Or.inr⟩
    exact ((hes _ hm).1 (C.work p) .recycled rfl).2 p hp rfl

/-- An event that is no stage of a job of the chain. -/
theorem Logged.unmarked (h : C.Logged s l r) (hs : s'.log = e :: s.log) (he : C.Foreign e) :
    C.Logged s' l r :=
  h.foreign (List.singleton_append ▸ hs) fun _ he' => List.mem_singleton.mp he' ▸ he

theorem mem_marks {w : Work} {m : Stage} :
    (w, m) ∈ C.marks s ↔ w ∈ C.works ∧ ∃ e ∈ C.start.since s, e.mark = some (w, m) := by
  simp only [marks, List.mem_reverse, List.mem_filter, List.mem_filterMap, decide_eq_true_eq]
  exact and_comm

theorem mem_script {works : List Work} {w : Work} {m : Stage} :
    (w, m) ∈ script works ↔ w ∈ works := by
  simp only [script, List.mem_flatMap, List.mem_map, Prod.mk.injEq]
  constructor
  · rintro ⟨v, hv, l, -, rfl, -⟩
    exact hv
  · exact fun hw => ⟨w, hw, m, m.mem_all, rfl, rfl⟩

theorem script_append (l m : List Work) : script (l ++ m) = script l ++ script m :=
  List.flatMap_append

theorem script_singleton (w : Work) : script [w] = Stage.all.map (w, ·) := by
  rw [script, List.flatMap_singleton]

/-! ### The jobs are different ones -/

theorem Ready.nodup (hr : C.Ready) : (C.jobs ++ C.lineage).Nodup := hr.works.of_map

theorem Ready.work_inj (hr : C.Ready) (ha : a ∈ C.jobs ++ C.lineage) (hb : b ∈ C.jobs ++ C.lineage)
    (h : C.work a = C.work b) : a = b :=
  List.inj_on_of_nodup_map hr.works ha hb h

theorem Ready.work_lineage (hr : C.Ready) (hp : p ∈ C.lineage) : C.work p ∉ C.works := by
  intro hw
  obtain ⟨a, ha, hap⟩ := List.mem_map.mp hw
  obtain rfl := hr.work_inj (List.mem_append_left _ ha) (List.mem_append_right _ hp) hap
  exact (List.nodup_append.mp hr.nodup).2.2 a ha a hp rfl

theorem mem_lineage (hp : p ∈ C.parent) : p ∈ C.lineage := List.mem_of_head? hp

/-- The stage of a parent that is not the recycling of the first one. -/
theorem Ready.foreign {m : Stage} (hr : C.Ready) (hp : p ∈ C.lineage)
    (he : e.mark = some (C.work p, m)) (hm : m = .recycled → C.parent ≠ some p)
    (hstart : ∀ w via, e ≠ .started w C.worker via) : C.Foreign e := by
  refine ⟨fun w l hl => ?_, hstart⟩
  obtain ⟨rfl, rfl⟩ := Prod.mk.inj (Option.some.inj (he.symm.trans hl))
  refine ⟨hr.work_lineage hp, fun q hq heq => ?_⟩
  obtain ⟨hw, hrec⟩ := Prod.mk.inj heq
  have hpq := hr.work_inj (List.mem_append_right _ hp) (List.mem_append_right _ (mem_lineage hq)) hw
  exact hm hrec (hpq ▸ hq)

/-- The job `a` of the chain passes a stage. -/
theorem Logged.pass {m : Stage} (hr : C.Ready) (h : C.Logged s l r) (hs : s'.log = e :: s.log)
    (ha : a ∈ C.jobs) (he : e.mark = some (C.work a, m))
    (hi : ∀ w i via, e = .started w i via → i = C.worker) :
    C.Logged s' (l ++ [(C.work a, m)]) r := by
  have hw : C.work a ∈ C.works := List.mem_map_of_mem ha
  have hs' : s'.log = [e] ++ s.log := hs
  constructor
  case suffix => exact h.suffix.trans (hs ▸ List.suffix_cons _ _)
  case marks =>
    rw [marks_append h.suffix hs', h.marks, List.filterMap_cons_some he]
    simp [hw]
  case started =>
    intro w i via hm
    rw [since_append h.suffix hs'] at hm
    rcases List.mem_cons.mp hm with hm | hm
    · have hwa : w = C.work a := by
        rw [← hm] at he
        exact congrArg Prod.fst (Option.some.inj he)
      exact ⟨fun _ => hwa ▸ hw, fun _ => hi w i via hm.symm⟩
    · exact h.started w i via hm
  case parent =>
    intro p hp
    rw [since_append h.suffix hs', ← h.parent p hp]
    refine ⟨fun hm => (List.mem_cons.mp hm).resolve_left fun hm => ?_, List.mem_cons_of_mem _⟩
    -- the parent is no job of the chain
    rw [← hm] at he
    have hpa : C.work p = C.work a := congrArg Prod.fst (Option.some.inj he)
    exact hr.work_lineage (mem_lineage hp) (hpa ▸ hw)

/-- The parent is recycled. -/
theorem Logged.recycleParent (hr : C.Ready) (h : C.Logged s l r)
    (hs : s'.log = .recycled (C.work p) :: s.log) (hp : C.parent = some p) :
    C.Logged s' l true := by
  have hs' : s'.log = [.recycled (C.work p)] ++ s.log := hs
  constructor
  case suffix => exact h.suffix.trans (hs ▸ List.suffix_cons _ _)
  case marks =>
    have hw := hr.work_lineage (mem_lineage hp)
    rw [marks_append h.suffix hs', h.marks]
    simp [Event.mark, hw]
  case started =>
    intro w i via hm
    rw [since_append h.suffix hs'] at hm
    rcases List.mem_cons.mp hm with hm | hm
    · cases hm
    · exact h.started w i via hm
  case parent =>
    intro q hq
    obtain rfl : q = p := Option.some.inj (hq.symm.trans hp)
    rw [since_append h.suffix hs']
    exact ⟨fun _ => rfl, fun _ => List.mem_cons_self⟩

theorem links_append {jobs : Addr → Job} {l m : List Addr} (h : Links jobs (l ++ m)) :
    Links jobs m := by
  induction l with
  | nil => exact h
  | cons a l ih => exact ih h.2

theorem ascends_append {jobs : Addr → Job} {o : Option Addr} {below : List Addr} {x : Addr}
    (h : Ascends jobs o (below ++ x :: up)) : (jobs x).parent = up.head? := by
  induction below generalizing o with
  | nil =>
      have hup := h.2
      cases up with
      | nil => exact hup
      | cons p up => exact hup.1
  | cons p below ih => exact ih h.2

theorem Ready.parent (hr : C.Ready) {below : List Addr} {x : Addr}
    (hx : C.lineage = below ++ x :: up) : (C.start.jobs x).parent = up.head? := by
  obtain ⟨a, ha⟩ := Option.ne_none_iff_exists'.mp (mt List.head?_eq_none_iff.mp hr.nonempty)
  exact ascends_append (hx ▸ hr.ascends a ha)

/-- Only the first of the parents is the parent of the chain. -/
theorem Ready.parent_ne (hr : C.Ready) {below : List Addr} {x : Addr}
    (hx : C.lineage = below ++ x :: up) (hb : below ≠ []) : C.parent ≠ some x := by
  have hnd : (below ++ x :: up).Nodup := hx ▸ (List.nodup_append.mp hr.nodup).2.1
  intro hp
  rw [Chain.parent, hx, List.head?_append_of_ne_nil _ hb] at hp
  exact (List.nodup_append.mp hnd).2.2 x (List.mem_of_head? hp) x List.mem_cons_self rfl

/-! ### What an iteration knows -/

theorem Phase.of_eq {pc pc' : Pc} (h : pc' = pc) (hp : C.Phase a rest pc x) :
    C.Phase a rest pc' x := h ▸ hp

section Runs

variable (hr : C.Ready) (h : C.Runs s done a rest x)

include h

theorem Runs.mem_jobs (hb : b ∈ a :: rest) : b ∈ C.jobs := by
  rw [h.split]
  exact List.mem_append_right _ hb

theorem Runs.work : (s.jobs a).work = C.work a := by rw [h.jobs.current]; rfl

include hr

theorem Runs.nodup : (done ++ (a :: rest ++ C.lineage)).Nodup := by
  rw [← List.append_assoc, ← h.split]
  exact hr.nodup

theorem Runs.not_mem_rest : a ∉ rest := by
  have hnd := (List.nodup_append.mp (h.nodup hr)).2.1
  have hnd' := (List.nodup_append.mp hnd).1
  exact (List.nodup_cons.mp hnd').1

theorem Runs.not_mem_lineage (hb : b ∈ a :: rest) : b ∉ C.lineage := by
  have hnd := (List.nodup_append.mp (h.nodup hr)).2.1
  exact fun hl => (List.nodup_append.mp hnd).2.2 b hb b hl rfl

theorem Runs.not_mem_done (hb : b ∈ a :: rest) : b ∉ done := by
  intro hd
  exact (List.nodup_append.mp (h.nodup hr)).2.2 b hd b (List.mem_append_left _ hb) rfl

theorem Runs.continuation : (C.start.jobs a).continuation = rest.head? := by
  have hlinks := hr.links
  rw [h.split] at hlinks
  exact (links_append hlinks).1

/-- The jobs of the chain that are left are not recycled. -/
theorem Runs.not_recycled (hb : b ∈ a :: rest) : .recycled (C.work b) ∉ C.start.since s := by
  intro hm
  have hbj := List.mem_append_left C.lineage (h.mem_jobs hb)
  have hmark : (C.work b, .recycled) ∈ C.marks s :=
    mem_marks.mpr ⟨List.mem_map_of_mem (h.mem_jobs hb), _, hm, rfl⟩
  rw [h.logged.marks, List.mem_append, mem_script] at hmark
  rcases hmark with hw | hmark
  · obtain ⟨d, hd, hdb⟩ := List.mem_map.mp hw
    have hdj : d ∈ C.jobs := by
      rw [h.split]
      exact List.mem_append_left _ hd
    obtain rfl := hr.work_inj (List.mem_append_left _ hdj) hbj hdb
    exact h.not_mem_done hr hb hd
  · -- recycled is before no stage
    obtain ⟨m, hm, heq⟩ := List.mem_map.mp hmark
    obtain rfl : m = .recycled := congrArg Prod.snd heq
    exact absurd (Stage.mem_before.mp hm) (Nat.not_lt.mpr x.stage.rank_le)

end Runs

/-! ### Steps beside the loop -/

/-- What is not the loop's own leaves the point where it is. -/
theorem Runs.keep {es : List Event} (h : C.Runs s done a rest x) (hsize : s'.size = s.size)
    (hworker : s'.worker C.worker = s.worker C.worker)
    (hcall : (s'.call (.worker C.worker)).schedules = true)
    (hidle : s'.call (.worker C.worker) = .idle ∨ (s.worker C.worker).pc = .running a)
    (hjobs : ∀ b ∈ a :: rest, s'.jobs b = s.jobs b)
    (hparent : ∀ p ∈ C.parent, (s'.jobs p).numChildren = (s.jobs p).numChildren)
    (hlineage : ∀ p ∈ C.lineage, (s'.jobs p).parent = (s.jobs p).parent ∧
      (s'.jobs p).work = (s.jobs p).work)
    (hlive : ∀ b, b ∈ a :: rest ∨ b ∈ C.lineage → b ∈ s.live → b ∈ s'.live)
    (hapart : C.Apart s (a :: rest) → C.Apart s' (a :: rest))
    (hlog : s'.log = es ++ s.log) (hes : ∀ e ∈ es, C.Foreign e) : C.Runs s' done a rest x where
  split := h.split
  size := hsize ▸ h.size
  phase := by
    rw [hworker]
    exact h.phase
  schedules := hcall
  idle := by
    rw [hworker]
    exact hidle
  jobs := by
    refine ⟨?_, fun b hb => ?_, fun p hp => ?_, fun p hp => ?_⟩
    · rw [hjobs a List.mem_cons_self, h.jobs.current]
    · rw [hjobs b (List.mem_cons_of_mem _ hb), h.jobs.waiting b hb]
    · rw [hparent p hp, h.jobs.parent p hp]
    · rw [(hlineage p hp).1, (hlineage p hp).2]
      exact h.jobs.lineage p hp
  live b hb := hlive b hb (h.live b hb)
  apart hx := hapart (h.apart hx)
  logged := h.logged.foreign hlog hes

/-- A step of another thread. -/
theorem Runs.spares (hr : C.Ready) (h : C.Runs s done a rest x) (hs : C.Spares s s')
    (hsize : s'.size = s.size) (hworker : s'.worker C.worker = s.worker C.worker)
    (hcall : s'.call (.worker C.worker) = s.call (.worker C.worker)) :
    C.Runs s' done a rest x := by
  obtain ⟨es, hlog, hes⟩ := hs.log
  have hmine : ∀ b ∈ a :: rest, b ∈ C.jobs ∧ .recycled (C.work b) ∉ C.start.since s :=
    fun b hb => ⟨h.mem_jobs hb, h.not_recycled hr hb⟩
  refine h.keep hsize hworker (hcall ▸ h.schedules) (hcall ▸ h.idle)
    (fun b hb => (hs.jobs b (hmine b hb).1 (hmine b hb).2).1) hs.parent hs.lineage ?_ ?_ hlog hes
  · rintro b (hb | hb)
    · exact hs.live b (Or.inr (Or.inl (hmine b hb)))
    · exact hs.live b (Or.inl hb)
  · intro hap
    refine ⟨hs.intact hap.intact, fun b hb q hq => ?_, fun b hb hq => ?_, fun b hb => ?_⟩
    · exact hap.unlinked b hb q ((hs.jobs b (hmine b hb).1 (hmine b hb).2).2 q hq)
    · exact hap.kept b hb (hs.bin b hq)
    · rw [hcall] at hb
      obtain ⟨hbl, hbp, hlive, hun⟩ := hap.held b hb
      exact ⟨hbl, hbp, hs.live b (Or.inr (Or.inr hb)) hlive, fun q hq => hun q (hs.held b hb q hq)⟩

theorem foreign_of_mark (he : e.mark = none) : C.Foreign e := by
  refine ⟨fun w k hm => ?_, fun w via heq => ?_⟩
  · rw [he] at hm
    cases hm
  · rw [heq] at he
    cases he

theorem foreign_ofCall (he : e.ofCall = true) : C.Foreign e := by
  refine foreign_of_mark ?_
  cases e <;> first | rfl | cases he

/-- A work got the storage `b` for a new job: from the bin, or a fresh one. -/
theorem Apart.construct {st : Store QueueId Addr} {c : Call} (h : C.Apart s l')
    (hb : b ∉ l' ∧ b ∉ C.lineage) (hst : st.WellFormed)
    (hlinked : ∀ q d, st.Linked q d → s.store.Linked q d ∧ d ≠ b) (hs : s'.store = st)
    (hlive : ∀ d, d ∈ s'.live ↔ d ∈ s.live ∨ d = b)
    (hcall : s'.call (.worker C.worker) = c) (hc : c.job = some b) : C.Apart s' l' := by
  subst hs
  refine ⟨⟨hst, fun hq => ?_⟩, fun d hd q hq => ?_, fun d hd hq => ?_, fun d hd => ?_⟩
  · exact (hlive _).mpr (Or.inl (h.intact.live (hlinked _ _ hq).1))
  · exact h.unlinked d hd q (hlinked q d hq).1
  · exact h.kept d hd (hlinked _ d hq).1
  · obtain rfl : d = b := Option.some.inj (hd.symm.trans (hcall ▸ hc))
    exact ⟨hb.1, hb.2, (hlive d).mpr (Or.inr rfl), fun q hq => (hlinked q d hq).2 rfl⟩

/-- The job that a work is scheduling goes to a queue. -/
theorem Apart.push {q : QueueId} (h : C.Apart s l')
    (hb : (s.call (.worker C.worker)).job = some b) (hq : q ≠ C.bin)
    (hs : s'.store = s.store.push q b) (hlive : s'.live = s.live)
    (hcall : (s'.call (.worker C.worker)).job = none) : C.Apart s' l' := by
  obtain ⟨hbl, hbp, hblive, hun⟩ := h.held b hb
  obtain ⟨hwf, hlinked⟩ := h.intact.wellFormed.push (q := q) hun
  rw [← hs] at hwf
  simp only [← hs] at hlinked
  refine ⟨⟨hwf, fun hd => ?_⟩, fun d hd q' hq' => ?_, fun d hd hq' => ?_, fun d hd => ?_⟩
  · rw [hlive]
    rcases hlinked.mp hd with hd | ⟨-, rfl⟩
    · exact h.intact.live hd
    · exact hblive
  · rcases hlinked.mp hq' with hq' | ⟨-, rfl⟩
    · exact h.unlinked d hd q' hq'
    · exact hbl hd
  · rcases hlinked.mp hq' with hq' | ⟨hbin, -⟩
    · exact h.kept d hd hq'
    · exact hq hbin.symm
  · rw [hcall] at hd
    cases hd

/-- A call that changes neither the queues nor its job. -/
theorem Apart.congr (h : C.Apart s l') (hs : s'.store = s.store) (hlive : s'.live = s.live)
    (hcall : (s'.call (.worker C.worker)).job = none ∨
      (s'.call (.worker C.worker)).job = (s.call (.worker C.worker)).job) : C.Apart s' l' := by
  refine ⟨⟨hs ▸ h.intact.wellFormed, fun hd => ?_⟩, hs ▸ h.unlinked, hs ▸ h.kept, fun d hd => ?_⟩
  · rw [hs] at hd
    exact hlive ▸ h.intact.live hd
  · rcases hcall with hcall | hcall
    · rw [hcall] at hd
      cases hd
    · rw [hs, hlive]
      exact h.held d (hcall ▸ hd)

theorem Runs.running {c : Addr} (h : C.Runs s done a rest x)
    (hpc : (s.worker C.worker).pc = .running c) : c = a ∧ x.stage = .finished := by
  have hphase := h.phase
  rw [hpc] at hphase
  cases hphase
  exact ⟨rfl, rfl⟩

/-- A work got the storage `b` for a new job, which it is going to schedule. -/
theorem Runs.construct {st : Store QueueId Addr} (h : C.Runs s done a rest x)
    (hpc : (s.worker C.worker).pc = .running a) (hf : CallFrame s s')
    (hb : b ∉ a :: rest ∧ b ∉ C.lineage) (hst : st.WellFormed)
    (hlinked : ∀ q d, st.Linked q d → s.store.Linked q d ∧ d ≠ b) (hs : s'.store = st)
    (hjobs : ∀ d ≠ b, s'.jobs d = s.jobs d) (hlive : ∀ d, d ∈ s'.live ↔ d ∈ s.live ∨ d = b) :
    C.Runs (s'.setCall (.worker C.worker) (.route b)) done a rest x := by
  have hself : ∀ {c}, (s'.setCall (.worker C.worker) c).call (.worker C.worker) = c :=
    Function.update_self ..
  have hne : ∀ {l : List Addr}, b ∉ l → ∀ d ∈ l, s'.jobs d = s.jobs d :=
    fun hbl d hd => hjobs d fun hdb => hbl (hdb ▸ hd)
  obtain ⟨es, hlog, hes⟩ := hf.log
  refine h.keep hf.size (congrFun hf.worker C.worker) ?_ (Or.inr hpc) (hne hb.1) ?_ ?_ ?_ ?_ hlog
    (fun e he => foreign_ofCall (hes e he))
  · rw [hself]
    rfl
  · exact fun p hp => congrArg Job.numChildren (hne hb.2 p (mem_lineage hp))
  · exact fun p hp => ⟨congrArg Job.parent (hne hb.2 p hp), congrArg Job.work (hne hb.2 p hp)⟩
  · exact fun d _ hd => (hlive d).mpr (Or.inl hd)
  · exact fun hap => hap.construct hb hst hlinked hs hlive hself rfl

/-- A call of `schedule` goes on. -/
theorem Runs.callStep (h : C.Runs s done a rest x)
    (hs : JobSystem.callStep s (.worker C.worker) = some s') : C.Runs s' done a rest x := by
  have hf := callStep_frame hs
  obtain ⟨es, hlog, hes⟩ := hf.log
  have hsch := h.schedules
  -- what all steps have in common
  have hkeep : ∀ c, s'.call (.worker C.worker) = c → c.schedules = true →
      s.call (.worker C.worker) ≠ .idle → s'.jobs = s.jobs → s'.live = s.live →
      (C.Apart s (a :: rest) → C.Apart s' (a :: rest)) → C.Runs s' done a rest x := by
    rintro c rfl hc hne hjobs hlive hapart
    refine h.keep hf.size (congrFun hf.worker C.worker) hc (Or.inr (h.idle.resolve_left hne))
      ?_ ?_ ?_ ?_ hapart hlog (fun e he => foreign_ofCall (hes e he))
    · exact fun b _ => congrFun hjobs b
    · exact fun p _ => by rw [hjobs]
    · exact fun p _ => by rw [hjobs]; exact ⟨rfl, rfl⟩
    · exact fun b _ hb => hlive ▸ hb
  have hself : ∀ {c}, Function.update s.call (.worker C.worker) c (.worker C.worker) = c :=
    Function.update_self ..
  -- the call keeps its job, or pushes it
  have hgo : ∀ {c₀ c : Call} {b : Addr}, s.call (.worker C.worker) = c₀ → c₀.job = some b →
      s'.call = Function.update s.call (.worker C.worker) c → c.schedules = true →
      c.job = some b → s'.jobs = s.jobs → s'.live = s.live → s'.store = s.store →
      C.Runs s' done a rest x := by
    intro c₀ c b hcall hjob₀ hcall' hc hjob hjobs hlive hstore
    refine hkeep c (by rw [hcall', hself]) hc ?_ hjobs hlive
      fun hap => hap.congr hstore hlive (Or.inr ?_)
    · rintro hidle
      rw [← hcall, hidle] at hjob₀
      cases hjob₀
    · rw [hcall', hself, hcall, hjob, hjob₀]
  cases callStep_move hs with
  | shared hcall | own hcall | balance hcall => exact hgo hcall rfl rfl rfl rfl rfl rfl rfl
  | @pushGlobal b hcall | @pushLocal b hcall =>
      refine hkeep .idle hself rfl (by rw [hcall]; simp) rfl rfl
        fun hap => hap.push (b := b) (by rw [hcall]; rfl) (fun hq => by cases hq) rfl rfl ?_
      show (Function.update s.call (.worker C.worker) _ (.worker C.worker)).job = _
      rw [hself]
      rfl
  | attach hcall | reread hcall =>
      rw [hcall] at hsch
      cases hsch

/-- A step of a work: it schedules jobs without a parent. -/
theorem Runs.userStep {u : Action} (h : C.Runs s done a rest x)
    (hu : u.caller = some (.worker C.worker)) (hp : u.Parentless ∧ u.NoThen)
    (hs : step s u = some s') : C.Runs s' done a rest x := by
  cases u with
  | finish | work => cases hu
  | jobThen => exact hp.2.elim
  | shutdown t =>
      obtain rfl := Option.some.inj hu
      obtain ⟨-, rfl⟩ := step_shutdown hs
      exact h.keep rfl rfl h.schedules h.idle (fun _ _ => rfl) (fun _ _ => rfl)
        (fun _ _ => ⟨rfl, rfl⟩) (fun _ _ hb => hb) (fun hap => hap.congr rfl rfl (Or.inr rfl))
        (List.nil_append s.log).symm (by simp)
  | schedule t parent threadIndex fresh =>
      obtain rfl := Option.some.inj hu
      obtain rfl : parent = none := hp.1
      obtain ⟨⟨-, -, c, hpc⟩, hfresh, -, rfl⟩ := step_schedule hs
      obtain ⟨rfl, hstage⟩ := h.running hpc
      have hap := h.apart (Or.inl (by simp [hstage]))
      have hf := construct_frame (s := s) (t := .worker C.worker) none threadIndex fresh
      show C.Runs ((JobSystem.construct s (.worker C.worker) none threadIndex fresh).1.setCall
        (.worker C.worker) (.route (JobSystem.construct s (.worker C.worker) none threadIndex
          fresh).2)) done c rest x
      rcases construct_cases s (.worker C.worker) none threadIndex fresh with
        ⟨b, st, hpop, hc⟩ | ⟨st, hpop, hc⟩
      · -- the storage is from the bin, where no job of the chain is
        obtain ⟨hwf, hlb, hiff⟩ := hap.intact.wellFormed.pop_some hpop
        obtain ⟨hwf', hlink⟩ := hwf.clearNext (fun q hq => (hiff.mp hq).2 rfl)
        rw [hc] at hf ⊢
        refine h.construct hpc hf ⟨fun hb => hap.unlinked b hb _ hlb, fun hb => hap.kept b hb hlb⟩
          hwf' (fun q d hd => hiff.mp (hlink.mp hd)) rfl
          (fun d hd => Function.update_of_ne hd ..) (fun d => ?_)
        exact ⟨Or.inl, fun hd => hd.elim id fun hdb => hdb ▸ hap.intact.live hlb⟩
      · -- the storage is a fresh one
        obtain ⟨rfl, -⟩ := hap.intact.wellFormed.pop_none hpop
        have hun : ∀ q, ¬ s.store.Linked q fresh := fun q hq => hfresh (hap.intact.live hq)
        obtain ⟨hwf', hlink⟩ := hap.intact.wellFormed.clearNext hun
        rw [hc] at hf ⊢
        refine h.construct hpc hf ⟨fun hb => hfresh (h.live _ (Or.inl hb)),
          fun hb => hfresh (h.live _ (Or.inr hb))⟩ hwf' (fun q d hd => ?_) rfl
          (fun d hd => Function.update_of_ne hd ..) (fun d => ?_)
        · refine ⟨hlink.mp hd, ?_⟩
          rintro rfl
          exact hun q (hlink.mp hd)
        · rw [List.mem_cons]
          exact or_comm
  | call t =>
      obtain rfl := Option.some.inj hu
      exact h.callStep hs

/-! ### Steps of the loop -/

/-- The current job passes its next stage. -/
theorem Logged.stage {m : Stage} (hr : C.Ready)
    (h : C.Logged s (l ++ m.before.map (C.work a, ·)) r) (hs : s'.log = e :: s.log)
    (ha : a ∈ C.jobs) (he : e.mark = some (C.work a, m))
    (hi : ∀ w i via, e = .started w i via → i = C.worker) :
    C.Logged s' (l ++ (Stage.all.take (m.rank + 1)).map (C.work a, ·)) r := by
  have hpass := h.pass hr hs ha he hi
  rwa [List.append_assoc, ← List.map_singleton, ← List.map_append, Stage.before,
    ← Stage.take_succ] at hpass

theorem Logged.congr (h : C.Logged s l r) (hs : s'.log = s.log) : C.Logged s' l r :=
  h.foreign (hs.trans (List.nil_append s.log).symm) (by simp)

/-- The jobs do not depend on the rest of the point. -/
theorem Jobs.congr {jobs : Addr → Job} (h : C.Jobs jobs a rest x) (hc : y.counter = x.counter)
    (hh : y.handed = x.handed) (hp : y.parentCounter = x.parentCounter) :
    C.Jobs jobs a rest y where
  current := by rw [hc]; exact h.current
  waiting := by rw [hh]; exact h.waiting
  parent := by rw [hp]; exact h.parent
  lineage := h.lineage

/-- The counter of the current job changes. -/
theorem Jobs.setCurrent {jobs : Addr → Job} (h : C.Jobs jobs a rest x) (ha : a ∉ rest)
    (hal : a ∉ C.lineage) (hh : y.handed = x.handed) (hp : y.parentCounter = x.parentCounter) :
    C.Jobs (Function.update jobs a { jobs a with numChildren := y.counter }) a rest y where
  current := by rw [Function.update_self, h.current]
  waiting b hb := by
    rw [Function.update_of_ne (ne_of_mem_of_not_mem hb ha), hh, h.waiting b hb]
  parent p hp' := by
    rw [Function.update_of_ne (ne_of_mem_of_not_mem (mem_lineage hp') hal), hp, h.parent p hp']
  lineage p hp' := by
    rw [Function.update_of_ne (ne_of_mem_of_not_mem hp' hal)]
    exact h.lineage p hp'

/-- The counter of a parent changes. -/
theorem Jobs.setLineage {jobs : Addr → Job} {m : Nat} (h : C.Jobs jobs a rest x)
    (hq : b ∉ a :: rest) (hc : y.counter = x.counter) (hh : y.handed = x.handed)
    (hp : ∀ p ∈ C.parent, y.parentCounter = if p = b then m else x.parentCounter) :
    C.Jobs (Function.update jobs b { jobs b with numChildren := m }) a rest y where
  current := by
    rw [Function.update_of_ne (ne_of_mem_of_not_mem List.mem_cons_self hq), hc, h.current]
  waiting d hd := by
    rw [Function.update_of_ne (ne_of_mem_of_not_mem (List.mem_cons_of_mem _ hd) hq), hh,
      h.waiting d hd]
  parent p hp' := by
    rw [hp p hp']
    by_cases hpb : p = b
    · rw [if_pos hpb, hpb, Function.update_self]
    · rw [if_neg hpb, Function.update_of_ne hpb, h.parent p hp']
  lineage p hp' := by
    by_cases hpb : p = b
    · subst hpb
      rw [Function.update_self]
      exact h.lineage p hp'
    · rw [Function.update_of_ne hpb]
      exact h.lineage p hp'

/-- The loop goes on in the same iteration. -/
theorem Runs.move (h : C.Runs s done a rest x) (hidle : s.call (.worker C.worker) = .idle)
    (hphase : C.Phase a rest (s'.worker C.worker).pc y) (hjobs : C.Jobs s'.jobs a rest y)
    (hlog : C.Logged s' (script (done.map C.work) ++ y.stage.before.map (C.work a, ·))
      y.recycled) (hf : WorkerFrame s C.worker s') (hlive : s'.live = s.live)
    (hapart : y.stage ≠ .recycled ∨ rest ≠ [] → C.Apart s' (a :: rest)) :
    C.Runs s' done a rest y where
  split := h.split
  size := hf.size ▸ h.size
  phase := hphase
  schedules := by rw [hf.call]; exact h.schedules
  idle := Or.inl (by rw [hf.call]; exact hidle)
  jobs := hjobs
  live b hb := hlive ▸ h.live b hb
  apart := hapart
  logged := hlog

/-- The queues are as before. -/
theorem Runs.next (h : C.Runs s done a rest x) (hidle : s.call (.worker C.worker) = .idle)
    (hphase : C.Phase a rest (s'.worker C.worker).pc y) (hjobs : C.Jobs s'.jobs a rest y)
    (hlog : C.Logged s' (script (done.map C.work) ++ y.stage.before.map (C.work a, ·))
      y.recycled) (hf : WorkerFrame s C.worker s') (hstore : s'.store = s.store)
    (hlive : s'.live = s.live) (hstage : x.stage ≠ .recycled ∨ rest ≠ []) :
    C.Runs s' done a rest y :=
  h.move hidle hphase hjobs hlog hf hlive fun _ =>
    (h.apart hstage).congr hstore hlive (Or.inr (by rw [hf.call]))

theorem Runs.execute (hr : C.Ready) (h : C.Runs s done a rest x)
    (hpc : (s.worker C.worker).pc = .execute (some a))
    (hs : workerStep s C.worker = some s') : ∃ y, C.Runs s' done a rest y ∧ y.left < x.left := by
  have hphase := h.phase
  have hf := workerStep_frame hs
  rw [hpc] at hphase
  cases hphase
  simp only [workerStep, hpc] at hs
  obtain rfl := Option.some.inj hs
  refine ⟨_, h.next (h.idle.resolve_right (by simp [hpc])) (.of_eq (goto_pc s C.worker _) .running)
    (h.jobs.congr rfl rfl rfl) (h.logged.stage hr rfl (h.mem_jobs List.mem_cons_self) ?_ ?_) hf
    rfl rfl (Or.inl (by simp)), ?_⟩
  · rw [h.work]
    rfl
  · intro w i via he
    cases he
    rfl
  · exact Nat.lt_succ_self _

theorem Runs.finish (hr : C.Ready) (h : C.Runs s done a rest x)
    (hs : step s (.finish C.worker) = some s') :
    ∃ y, C.Runs s' done a rest y ∧ y.left < x.left := by
  obtain ⟨job, hpc, hidle, -, rfl⟩ := step_finish hs
  obtain ⟨rfl, -⟩ := h.running hpc
  have hphase := h.phase
  rw [hpc] at hphase
  cases hphase
  refine ⟨_, h.next hidle (.of_eq (goto_pc s C.worker _) .storeTrace) (h.jobs.congr rfl rfl rfl)
    (h.logged.stage hr rfl (h.mem_jobs List.mem_cons_self) ?_ ?_)
    ⟨rfl, rfl, rfl, rfl, rfl, fun j hj => Function.update_of_ne hj ..⟩ rfl rfl
    (Or.inl (by simp)), ?_⟩
  · rw [h.work]
    rfl
  · intro w i via he
    cases he
  · exact Nat.lt_succ_self _

theorem Runs.storeTrace (h : C.Runs s done a rest x)
    (hpc : (s.worker C.worker).pc = .storeTrace a) (hs : workerStep s C.worker = some s') :
    ∃ y, C.Runs s' done a rest y ∧ y.left < x.left := by
  have hphase := h.phase
  have hf := workerStep_frame hs
  rw [hpc] at hphase
  cases hphase
  simp only [workerStep, hpc] at hs
  obtain rfl := Option.some.inj hs
  have hself := Function.update_self C.worker
    { s.worker C.worker with pc := .readContinuation a, noWorkCounter := 0 } s.worker
  refine ⟨_, h.next (h.idle.resolve_right (by simp [hpc]))
    (.of_eq (congrArg Worker.pc hself) .readContinuation) (h.jobs.congr rfl rfl rfl)
    (h.logged.congr rfl) hf rfl rfl (Or.inl (by simp)), ?_⟩
  exact Nat.lt_succ_self _

theorem Runs.readContinuation (hr : C.Ready) (h : C.Runs s done a rest x)
    (hpc : (s.worker C.worker).pc = .readContinuation a)
    (hs : workerStep s C.worker = some s') : ∃ y, C.Runs s' done a rest y ∧ y.left < x.left := by
  have hphase := h.phase
  have hf := workerStep_frame hs
  rw [hpc] at hphase
  cases hphase
  simp only [workerStep, hpc] at hs
  obtain rfl := Option.some.inj hs
  have hcont : (s.jobs a).continuation = rest.head? := by
    rw [h.jobs.current]
    exact h.continuation hr
  have hself := Function.update_self C.worker { s.worker C.worker with
    pc := .handOver a (s.jobs a).continuation, via := some (s.jobs a).work } s.worker
  refine ⟨_, h.next (h.idle.resolve_right (by simp [hpc]))
    (.of_eq ((congrArg Worker.pc hself).trans (congrArg (Pc.handOver a) hcont)) .handOver)
    (h.jobs.congr rfl rfl rfl) (h.logged.stage hr rfl (h.mem_jobs List.mem_cons_self) ?_ ?_) hf
    rfl rfl (Or.inl (by simp)), ?_⟩
  · rw [h.work]
    rfl
  · intro w i via he
    cases he
  · exact Nat.lt_succ_self _

/-- The counter that the parent has between the hand-over and the completion. -/
theorem Counts.succ32_count (hc : C.Counts) (h : C.Runs s done a (b :: rest) x) :
    succ32 C.count = C.count + gain (b :: rest) := by
  have hlt := hc.lt
  have htail : 1 ≤ C.jobs.tail.length := by
    rw [List.length_tail, h.split, List.length_append, List.length_cons, List.length_cons]
    omega
  have hgain : gain (b :: rest) = 1 := by
    rw [gain, List.length_cons]
    omega
  rw [hgain, succ32, Nat.mod_eq_of_lt (by omega)]

/-- The parent is handed over to the continuation. -/
theorem Runs.jobs_handOver (hr : C.Ready) (hc : C.Counts) (h : C.Runs s done a rest x)
    (hx : x.handed = false) (hv : x.parentCounter = C.count) (hy : y.counter = x.counter)
    (hyh : y.handed = true) (hyv : y.parentCounter = C.count + gain rest) :
    C.Jobs (JobSystem.handOver s a rest.head?).jobs a rest y := by
  have hparent : (s.jobs a).parent = C.parent := by rw [h.jobs.current]
  cases rest with
  | nil =>
      refine ⟨hy ▸ h.jobs.current, fun b hb => absurd hb List.not_mem_nil, fun p hp => ?_,
        h.jobs.lineage⟩
      rw [hyv]
      exact (h.jobs.parent p hp).trans hv
  | cons b rest =>
      have hwaiting : ∀ d ∈ b :: rest, s.jobs d = { C.start.jobs d with parent := none } := by
        intro d hd
        rw [h.jobs.waiting d hd, hx, if_neg (by simp)]
      cases hp : C.parent with
      | none =>
          have hsame : JobSystem.handOver s a (List.head? (b :: rest)) = s := by
            simp only [JobSystem.handOver, List.head?_cons, hparent, hp]
          rw [hsame]
          refine ⟨hy ▸ h.jobs.current, fun d hd => ?_, fun p hp' => ?_, h.jobs.lineage⟩
          · rw [hwaiting d hd, hp, ite_self]
          · rw [hp] at hp'
            cases hp'
      | some p =>
          have hpl : p ∈ C.lineage := mem_lineage hp
          have hne : ∀ d ∈ a :: b :: rest, d ≠ p := fun d hd hdp =>
            h.not_mem_lineage hr hd (hdp ▸ hpl)
          have hab : a ≠ b := fun hab => h.not_mem_rest hr (hab ▸ List.mem_cons_self)
          have hbp : b ≠ p := hne b (by simp)
          have hjobs : (JobSystem.handOver s a (List.head? (b :: rest))).jobs = Function.update
              (Function.update s.jobs p
                { s.jobs p with numChildren := succ32 (s.jobs p).numChildren })
              b { s.jobs b with parent := some p } := by
            simp only [JobSystem.handOver, List.head?_cons, hparent, hp, State.setJob,
              Function.update_of_ne hbp]
          rw [hjobs]
          refine ⟨?_, fun d hd => ?_, fun q hq => ?_, fun q hq => ?_⟩
          · rw [Function.update_of_ne hab, Function.update_of_ne (hne a List.mem_cons_self), hy,
              h.jobs.current]
          · by_cases hdb : d = b
            · subst hdb
              rw [Function.update_self, hwaiting d hd, hyh, if_pos ⟨rfl, rfl⟩, hp]
            · have hdp : d ≠ p := hne d (List.mem_cons_of_mem _ hd)
              have hhead : ¬ (y.handed = true ∧ List.head? (b :: rest) = some d) :=
                fun hh => hdb (Option.some.inj hh.2).symm
              rw [Function.update_of_ne hdb, Function.update_of_ne hdp, hwaiting d hd,
                if_neg hhead]
          · obtain rfl : q = p := Option.some.inj (hq.symm.trans hp)
            rw [Function.update_of_ne hbp.symm, Function.update_self, hyv, ← hc.succ32_count h, ← hv,
              h.jobs.parent q hp]
          · have hqb : q ≠ b := fun hqb => h.not_mem_lineage hr (by simp) (hqb ▸ hq)
            rw [Function.update_of_ne hqb]
            by_cases hqp : q = p
            · subst hqp
              rw [Function.update_self]
              exact h.jobs.lineage q hq
            · rw [Function.update_of_ne hqp]
              exact h.jobs.lineage q hq

theorem Runs.handOver (hr : C.Ready) (hc : C.Counts) (h : C.Runs s done a rest x) {o : Option Addr}
    (hpc : (s.worker C.worker).pc = .handOver a o)
    (hs : workerStep s C.worker = some s') : ∃ y, C.Runs s' done a rest y ∧ y.left < x.left := by
  have hphase := h.phase
  have hf := workerStep_frame hs
  rw [hpc] at hphase
  cases hphase
  simp only [workerStep, hpc] at hs
  obtain rfl := Option.some.inj hs
  have hsame : ∀ o, (JobSystem.handOver s a o).store = s.store ∧
      (JobSystem.handOver s a o).live = s.live ∧ (JobSystem.handOver s a o).log = s.log := by
    intro o
    unfold JobSystem.handOver
    split
    · exact ⟨rfl, rfl, rfl⟩
    · exact ⟨rfl, rfl, rfl⟩
  obtain ⟨hstore, hlive, hlog⟩ := hsame rest.head?
  refine ⟨_, h.next (h.idle.resolve_right (by simp [hpc])) (.of_eq (goto_pc _ C.worker _) .fetchSub)
    (h.jobs_handOver hr hc rfl rfl rfl rfl rfl) (h.logged.congr hlog) hf hstore hlive
    (Or.inl (by simp)), ?_⟩
  exact Nat.lt_succ_self _

/-- The current job counts itself out: it has no children. -/
theorem Runs.fetchSub (hr : C.Ready)
    (h : C.Runs s done a rest
      ⟨.countedOff, 1, 3 * C.lineage.length + 3, true, C.count + gain rest, false⟩)
    (hpc : (s.worker C.worker).pc = .complete (.fetchSub a []) rest.head?)
    (hs : workerStep s C.worker = some s') :
    C.Runs s' done a rest
      ⟨.completed, 0, 3 * C.lineage.length + 2, true, C.count + gain rest, false⟩ := by
  have hf := workerStep_frame hs
  have hal := h.not_mem_lineage hr (b := a) List.mem_cons_self
  have hone : (s.jobs a).numChildren = 1 := by rw [h.jobs.current]
  have hjobs := h.jobs.setCurrent
    (y := ⟨.completed, 0, 3 * C.lineage.length + 2, true, C.count + gain rest, false⟩)
    (h.not_mem_rest hr) hal rfl rfl
  simp only [workerStep, hpc, completionStep, hone, if_pos (le_refl 1)] at hs
  obtain rfl := Option.some.inj hs
  refine h.next (h.idle.resolve_right (by simp [hpc])) (.of_eq (goto_pc _ C.worker _) .ascend)
    hjobs (h.logged.stage hr rfl (h.mem_jobs List.mem_cons_self) ?_ ?_) hf rfl rfl
    (Or.inl (by simp))
  · rw [h.work]
    rfl
  · intro w i via he
    cases he

/-- A job without a parent is completed. -/
theorem Runs.ascend_none (hr : C.Ready)
    (h : C.Runs s done a rest
      ⟨.completed, 0, 3 * C.lineage.length + 2, true, C.count + gain rest, false⟩)
    (hpc : (s.worker C.worker).pc = .complete (.ascend a []) rest.head?)
    (hp : C.parent = none) (hs : workerStep s C.worker = some s') :
    C.Runs s' done a rest
      ⟨.recycled, 0, 1, true, C.count + gain rest - 1, C.count = 1 ∧ rest = []⟩ := by
  have hf := workerStep_frame hs
  have hparent : (s.jobs a).parent = none := by rw [h.jobs.current, ← hp]
  have hno : ∀ q, q ∉ C.parent := fun q hq => by
    rw [hp] at hq
    cases hq
  simp only [workerStep, hpc, completionStep, hparent] at hs
  obtain rfl := Option.some.inj hs
  have hlog : C.Logged (s.record (.completed (s.jobs a).work))
      (script (done.map C.work) ++ Stage.recycled.before.map (C.work a, ·)) false :=
    h.logged.stage hr rfl (h.mem_jobs List.mem_cons_self) (by rw [h.work]; rfl)
      (fun w i via he => by cases he)
  exact h.next (h.idle.resolve_right (by simp [hpc])) (.of_eq (goto_pc _ C.worker _) .recycle)
    ⟨h.jobs.current, h.jobs.waiting, fun q hq => (hno q hq).elim, h.jobs.lineage⟩
    ⟨hlog.suffix, hlog.marks, hlog.started, fun q hq => (hno q hq).elim⟩ hf rfl rfl
    (Or.inl (by simp))

/-- A job tells its parent. -/
theorem Runs.ascend_some
    (h : C.Runs s done a rest
      ⟨.completed, 0, 3 * C.lineage.length + 2, true, C.count + gain rest, false⟩)
    (hpc : (s.worker C.worker).pc = .complete (.ascend a []) rest.head?)
    (hp : C.lineage = p :: up) (hs : workerStep s C.worker = some s') :
    C.Runs s' done a rest
      ⟨.completed, 0, 3 * C.lineage.length + 1, true, C.count + gain rest, false⟩ := by
  have hf := workerStep_frame hs
  have hparent : (s.jobs a).parent = some p := by
    rw [h.jobs.current]
    show C.parent = _
    rw [Chain.parent, hp]
    rfl
  simp only [workerStep, hpc, completionStep, hparent] at hs
  obtain rfl := Option.some.inj hs
  exact h.next (h.idle.resolve_right (by simp [hpc])) (.of_eq (goto_pc _ C.worker _) (.tell hp))
    (h.jobs.congr rfl rfl rfl) (h.logged.congr rfl) hf rfl rfl (Or.inl (by simp))

/-- The counter of the parent, without its last count. -/
theorem Counts.pred32_count (hc : C.Counts) (h : C.Runs s done a rest x) :
    pred32 (C.count + gain rest) = C.count + gain rest - 1 := by
  have hpos := hc.pos
  have hlt := hc.lt
  have htail : rest.length ≤ C.jobs.tail.length := by
    rw [List.length_tail, h.split, List.length_append, List.length_cons]
    omega
  refine pred32_of_pos (by omega) ?_
  rw [gain]
  omega

/-- The last job of the chain takes the last count of the parent. -/
theorem count_le_one (hc : C.Counts) : C.count + gain rest ≤ 1 ↔ C.count = 1 ∧ rest = [] := by
  have hpos := hc.pos
  rw [gain, ← List.length_eq_zero_iff]
  omega

/-- The parent loses the count, and the job is completed. -/
theorem Runs.tell (hr : C.Ready) (hc : C.Counts)
    (h : C.Runs s done a rest
      ⟨.completed, 0, 3 * C.lineage.length + 1, true, C.count + gain rest, false⟩)
    (hpc : (s.worker C.worker).pc = .complete (.fetchSub p [a]) rest.head?)
    (hp : C.lineage = p :: up) (hs : workerStep s C.worker = some s') :
    ∃ y, C.Runs s' done a rest y ∧ y.left < 3 * C.lineage.length + 1 := by
  have hf := workerStep_frame hs
  have hidle := h.idle.resolve_right (by simp [hpc])
  have hpl : p ∈ C.lineage := hp ▸ List.mem_cons_self
  have hsome : C.parent = some p := by rw [Chain.parent, hp]; rfl
  have hpa : p ∉ a :: rest := fun hm => h.not_mem_lineage hr hm hpl
  have hcount : (s.jobs p).numChildren = C.count + gain rest := h.jobs.parent p hsome
  have hwork : (s.jobs p).work = C.work p := (h.jobs.lineage p hpl).2
  have hjobs : ∀ y : Point, y.counter = 0 → y.handed = true →
      y.parentCounter = C.count + gain rest - 1 →
      C.Jobs (Function.update s.jobs p
        { s.jobs p with numChildren := C.count + gain rest - 1 }) a rest y := by
    intro y hyc hyh hyp
    refine h.jobs.setLineage hpa hyc hyh fun q hq => ?_
    rw [if_pos (Option.some.inj (hq.symm.trans hsome)), hyp]
  have hwork' : (Function.update s.jobs p
      { s.jobs p with numChildren := C.count + gain rest - 1 } a).work = C.work a := by
    rw [(hjobs ⟨.recycled, 0, 0, true, _, false⟩ rfl rfl rfl).current]
    rfl
  -- what is so after both events
  have hlog : ∀ st : State, st.log = .completed (Function.update s.jobs p
        { s.jobs p with numChildren := C.count + gain rest - 1 } a).work ::
      .fetchSub (s.jobs p).work (C.count + gain rest) false :: s.log →
      C.Logged st (script (done.map C.work) ++ Stage.recycled.before.map (C.work a, ·)) false := by
    intro st hst
    rw [hwork, hwork'] at hst
    have htold : C.Logged (s.record (.fetchSub (C.work p) (C.count + gain rest) false))
        (script (done.map C.work) ++ Stage.completed.before.map (C.work a, ·)) false :=
      h.logged.unmarked rfl (hr.foreign hpl rfl (by simp) (by simp))
    exact htold.stage hr hst (h.mem_jobs List.mem_cons_self) rfl (by simp)
  have hpred := hc.pred32_count h
  simp only [workerStep, hpc, completionStep, hcount, hpred] at hs
  by_cases hle : C.count + gain rest ≤ 1
  · -- it was the last count
    obtain ⟨hone, rfl⟩ := (count_le_one hc).mp hle
    rw [if_pos hle] at hs
    obtain rfl := Option.some.inj hs
    have hclimb : C.Phase a [] (.complete (.ascend p [a]) none)
        ⟨.recycled, 0, 3 * up.length + 0 + 3, true, 0, false⟩ :=
      @Phase.climb C a [] [] up p hp rfl hone
    refine ⟨_, h.next hidle (.of_eq (goto_pc _ C.worker _) hclimb)
      (hjobs _ rfl rfl (by simp [hone, gain])) (hlog _ rfl) hf rfl rfl (Or.inl (by simp)), ?_⟩
    show 3 * up.length + 0 + 3 < _
    rw [hp, List.length_cons]
    omega
  · rw [if_neg hle] at hs
    obtain rfl := Option.some.inj hs
    have hnot : ¬ (C.count = 1 ∧ rest = []) := fun hh => hle ((count_le_one hc).mpr hh)
    refine ⟨_, h.next hidle (.of_eq (goto_pc _ C.worker _) .recycle) (hjobs _ rfl rfl rfl)
      (decide_eq_false hnot ▸ hlog _ rfl) hf rfl rfl (Or.inl (by simp)), ?_⟩
    show 1 < 3 * C.lineage.length + 1
    rw [hp, List.length_cons]
    omega

/-! ### The parents -/

section Climb

variable {below : List Addr} {c : Addr} {n : Nat}

/-- The completion of the last job is at one of its parents, which has none or tells it. -/
theorem Runs.climb (hr : C.Ready)
    (h : C.Runs s done a [] ⟨.recycled, 0, 3 * up.length + below.length + 3, true, 0, false⟩)
    (hpc : (s.worker C.worker).pc = .complete (.ascend c (below.reverse ++ [a])) none)
    (hc : C.lineage = below ++ c :: up) (hone : C.count = 1)
    (hs : workerStep s C.worker = some s') :
    ∃ y, C.Runs s' done a [] y ∧ y.left < 3 * up.length + below.length + 3 := by
  have hf := workerStep_frame hs
  have hidle := h.idle.resolve_right (by simp [hpc])
  have hcl : c ∈ C.lineage := by rw [hc]; simp
  have hparent : (s.jobs c).parent = up.head? :=
    (h.jobs.lineage c hcl).1.trans (hr.parent hc)
  have hwork : (s.jobs c).work = C.work c := (h.jobs.lineage c hcl).2
  cases up with
  | nil =>
      simp only [workerStep, hpc, completionStep, hparent, List.head?_nil] at hs
      obtain rfl := Option.some.inj hs
      refine ⟨_, h.move hidle (.of_eq (goto_pc _ C.worker _) (.unwind hc rfl hone))
        (h.jobs.congr rfl rfl rfl) (h.logged.unmarked rfl ?_) hf rfl (by simp), ?_⟩
      · exact hr.foreign hcl (congrArg (fun w => some (w, Stage.completed)) hwork) (by simp)
          (by simp)
      · show below.length + 2 < 3 * 0 + below.length + 3
        omega
  | cons d up =>
      simp only [workerStep, hpc, completionStep, hparent, List.head?_cons] at hs
      obtain rfl := Option.some.inj hs
      refine ⟨_, h.move hidle (.of_eq (goto_pc _ C.worker _) (.climbTell hc rfl hone))
        (h.jobs.congr rfl rfl rfl) (h.logged.congr rfl) hf rfl (by simp), ?_⟩
      show 3 * up.length + below.length + 5 < 3 * (up.length + 1) + below.length + 3
      omega

/-- A parent that is told has no children left, or it has. -/
theorem Runs.climbTell (hr : C.Ready) {d : Addr}
    (h : C.Runs s done a [] ⟨.recycled, 0, 3 * up.length + below.length + 5, true, 0, false⟩)
    (hpc : (s.worker C.worker).pc = .complete (.fetchSub c (d :: (below.reverse ++ [a]))) none)
    (hc : C.lineage = below ++ d :: c :: up) (hone : C.count = 1)
    (hs : workerStep s C.worker = some s') :
    ∃ y, C.Runs s' done a [] y ∧ y.left < 3 * up.length + below.length + 5 := by
  have hf := workerStep_frame hs
  have hidle := h.idle.resolve_right (by simp [hpc])
  have hcl : c ∈ C.lineage := by rw [hc]; simp
  have hdl : d ∈ C.lineage := by rw [hc]; simp
  have hca : c ∉ [a] := fun hm => h.not_mem_lineage hr hm hcl
  have hc' : C.lineage = (below ++ [d]) ++ c :: up := by rw [hc, List.append_assoc]; rfl
  have hne : ∀ p ∈ C.parent, p ≠ c :=
    fun p hp hpc' => hr.parent_ne hc' (by simp) (hpc' ▸ hp)
  have hworkc : (s.jobs c).work = C.work c := (h.jobs.lineage c hcl).2
  have hjobs : ∀ y : Point, y.counter = 0 → y.handed = true → y.parentCounter = 0 →
      C.Jobs (Function.update s.jobs c
        { s.jobs c with numChildren := pred32 (s.jobs c).numChildren }) a [] y := by
    intro y hyc hyh hyp
    exact h.jobs.setLineage hca hyc hyh fun q hq => by rw [if_neg (hne q hq), hyp]
  have hworkd : (Function.update s.jobs c
      { s.jobs c with numChildren := pred32 (s.jobs c).numChildren } d).work = C.work d :=
    ((hjobs ⟨.recycled, 0, 0, true, 0, false⟩ rfl rfl rfl).lineage d hdl).2
  -- what is so after both events
  have hlog : ∀ st : State, st.log = .completed (Function.update s.jobs c
        { s.jobs c with numChildren := pred32 (s.jobs c).numChildren } d).work ::
      .fetchSub (s.jobs c).work (s.jobs c).numChildren false :: s.log →
      C.Logged st (script (done.map C.work) ++ Stage.recycled.before.map (C.work a, ·)) false := by
    intro st hst
    rw [hworkc, hworkd] at hst
    have htold : C.Logged (s.record (.fetchSub (C.work c) (s.jobs c).numChildren false))
        (script (done.map C.work) ++ Stage.recycled.before.map (C.work a, ·)) false :=
      h.logged.unmarked rfl (hr.foreign hcl rfl (by simp) (by simp))
    exact htold.unmarked hst (hr.foreign hdl rfl (by simp) (by simp))
  simp only [workerStep, hpc, completionStep] at hs
  by_cases hle : (s.jobs c).numChildren ≤ 1
  · rw [if_pos hle] at hs
    obtain rfl := Option.some.inj hs
    have hphase := Phase.climb (a := a) hc' rfl hone
    rw [List.reverse_append, List.reverse_singleton] at hphase
    refine ⟨_, h.move hidle (.of_eq (goto_pc _ C.worker _) hphase) (hjobs _ rfl rfl rfl)
      (hlog _ rfl) hf rfl (by simp), ?_⟩
    show 3 * up.length + (below ++ [d]).length + 3 < _
    rw [List.length_append, List.length_singleton]
    omega
  · rw [if_neg hle] at hs
    obtain rfl := Option.some.inj hs
    refine ⟨_, h.move hidle (.of_eq (goto_pc _ C.worker _) (.unwind hc rfl hone))
      (hjobs _ rfl rfl rfl) (hlog _ rfl) hf rfl (by simp), ?_⟩
    show below.length + 2 < _
    omega

/-- A parent is recycled, and then the one below it. -/
theorem Runs.unwind (hr : C.Ready)
    (h : C.Runs s done a [] ⟨.recycled, 0, below.length + 2, true, 0, false⟩)
    (hpc : (s.worker C.worker).pc = .complete (.recycle c (below.reverse ++ [a])) none)
    (hc : C.lineage = below ++ c :: up) (hone : C.count = 1)
    (hs : workerStep s C.worker = some s') :
    ∃ y, C.Runs s' done a [] y ∧ y.left < below.length + 2 := by
  have hf := workerStep_frame hs
  have hidle := h.idle.resolve_right (by simp [hpc])
  have hcl : c ∈ C.lineage := by rw [hc]; simp
  have hwork : (s.jobs c).work = C.work c := (h.jobs.lineage c hcl).2
  obtain ⟨q, -, hrec⟩ := recycle_eq s (.worker C.worker) c
  simp only [workerStep, hpc, completionStep, hrec, hwork] at hs
  rcases List.eq_nil_or_concat below with rfl | ⟨below, d, rfl⟩
  · -- the parent of the chain
    have hsome : C.parent = some c := by rw [Chain.parent, hc]; rfl
    obtain rfl := Option.some.inj hs
    refine ⟨_, h.move hidle (.of_eq (goto_pc _ C.worker _) .recycle) (h.jobs.congr rfl rfl ?_)
      ?_ hf rfl (by simp), ?_⟩
    · simp [hone, gain]
    · simpa [hone] using h.logged.recycleParent hr rfl hsome
    · exact Nat.lt_succ_self _
  · rw [List.concat_eq_append] at hc hs
    rw [List.reverse_append, List.reverse_singleton] at hs
    obtain rfl := Option.some.inj hs
    have hne : C.parent ≠ some c := hr.parent_ne hc (by simp)
    have hc' : C.lineage = below ++ d :: c :: up := by rw [hc, List.append_assoc]; rfl
    refine ⟨_, h.move hidle (.of_eq (goto_pc _ C.worker _) (.unwind hc' rfl hone))
      (h.jobs.congr rfl rfl rfl)
      (h.logged.unmarked rfl (hr.foreign hcl rfl (fun _ => hne) (by simp))) hf rfl (by simp), ?_⟩
    show below.length + 2 < _
    rw [List.length_concat]
    omega

end Climb

/-! ### The next job -/

/-- The storage of the current job goes to a bin; the others of the chain are in no queue yet. -/
theorem Apart.recycle {q : QueueId} (h : C.Apart s (a :: l')) (ha : a ∈ s.live)
    (hal : a ∉ l') (hap : a ∉ C.lineage) (hidle : s.call (.worker C.worker) = .idle)
    (hs : s'.store = s.store.push q a) (hlive : s'.live = s.live)
    (hcall : s'.call = s.call) : C.Apart s' l' := by
  obtain ⟨hwf, hlinked⟩ := h.intact.wellFormed.push (q := q) (h.unlinked a List.mem_cons_self)
  rw [← hs] at hwf
  simp only [← hs] at hlinked
  refine ⟨⟨hwf, fun hd => ?_⟩, fun d hd q' hq' => ?_, fun d hd hq' => ?_, fun d hd => ?_⟩
  · rw [hlive]
    rcases hlinked.mp hd with hd | ⟨-, rfl⟩
    · exact h.intact.live hd
    · exact ha
  · rcases hlinked.mp hq' with hq' | ⟨-, rfl⟩
    · exact h.unlinked d (List.mem_cons_of_mem _ hd) q' hq'
    · exact hal hd
  · rcases hlinked.mp hq' with hq' | ⟨-, rfl⟩
    · exact h.kept d hd hq'
    · exact hap hd
  · rw [hcall, hidle] at hd
    cases hd

/-- The next job of the chain is the current one. -/
theorem Jobs.advance {jobs : Addr → Job} (hr : C.Ready) (hsplit : C.jobs = done ++ a :: b :: rest)
    (h : C.Jobs jobs a (b :: rest) x) (hx : x.handed = true) (hc : y.counter = 1)
    (hh : y.handed = false) (hp : y.parentCounter = x.parentCounter) : C.Jobs jobs b rest y where
  current := by
    have hb : b ∈ C.jobs := by rw [hsplit]; simp
    rw [h.waiting b List.mem_cons_self, hx, if_pos ⟨rfl, rfl⟩, hc, ← hr.counters b hb]
  waiting d hd := by
    have hne : ¬ (x.handed = true ∧ List.head? (b :: rest) = some d) := by
      rintro ⟨-, hbd⟩
      obtain rfl : b = d := Option.some.inj hbd
      have hnd := (List.nodup_append.mp hr.nodup).1
      rw [hsplit] at hnd
      have hnd' := (List.nodup_append.mp hnd).2.1
      exact (List.nodup_cons.mp (List.nodup_cons.mp hnd').2).1 hd
    rw [h.waiting d (List.mem_cons_of_mem _ hd), if_neg hne, hh, if_neg (by simp)]
  parent p hp' := by rw [hp, h.parent p hp']
  lineage := h.lineage

/-- The current job is recycled, and its continuation is the next one. -/
theorem Runs.recycle (hr : C.Ready)
    (h : C.Runs s done a rest
      ⟨.recycled, 0, 1, true, C.count + gain rest - 1, C.count = 1 ∧ rest = []⟩)
    (hpc : (s.worker C.worker).pc = .complete (.recycle a []) rest.head?)
    (hs : workerStep s C.worker = some s') :
    ∃ n, C.Holds s' n ∧ n < 1 + (3 * C.lineage.length + 8) * rest.length := by
  have hf := workerStep_frame hs
  have hidle := h.idle.resolve_right (by simp [hpc])
  obtain ⟨q, -, hrec⟩ := recycle_eq s (.worker C.worker) a
  simp only [workerStep, hpc, completionStep, hrec, JobSystem.unwind] at hs
  obtain rfl := Option.some.inj hs
  have hlog : C.Logged (s.record (.recycled (s.jobs a).work))
      (script (done.map C.work) ++ Stage.all.map (C.work a, ·))
      (C.count = 1 ∧ rest = []) :=
    h.logged.stage hr rfl (h.mem_jobs List.mem_cons_self) (by rw [h.work]; rfl)
      (fun w i via he => by cases he)
  have hscript : script (done.map C.work) ++ Stage.all.map (C.work a, ·) =
      script ((done ++ [a]).map C.work) := by
    rw [List.map_append, script_append, List.map_singleton, script_singleton]
  rw [hscript] at hlog
  cases rest with
  | nil =>
      refine ⟨0, Or.inr ⟨⟨goto_pc _ C.worker _, hidle, fun p hp => ?_, ?_⟩, rfl⟩, by omega⟩
      · exact h.jobs.parent p hp
      · have hend : C.Logged (s.record (.recycled (s.jobs a).work)) (script C.works)
            (C.count = 1) := by
          rw [← h.split] at hlog
          simpa [Chain.works] using hlog
        exact hend.congr rfl
  | cons b rest =>
      have hsplit : C.jobs = (done ++ [a]) ++ b :: rest := by rw [h.split]; simp
      have hrest := h.not_mem_rest hr
      have hal := h.not_mem_lineage hr (b := a) List.mem_cons_self
      refine ⟨_, Or.inl ⟨done ++ [a], b, rest, _, ⟨hsplit, h.size,
        .of_eq (goto_pc _ C.worker _) .execute, h.schedules, Or.inl hidle,
        h.jobs.advance hr h.split rfl rfl rfl (by simp [gain]), fun d hd => h.live d ?_, ?_, ?_⟩,
        rfl⟩, ?_⟩
      · exact hd.imp (List.mem_cons_of_mem _) id
      · exact fun _ => (h.apart (Or.inr (by simp))).recycle (h.live a (by simp)) hrest hal hidle rfl
          rfl rfl
      · have hstart : C.Logged (s.record (.recycled (s.jobs a).work))
            (script ((done ++ [a]).map C.work) ++ Stage.started.before.map (C.work b, ·)) false := by
          simpa [Stage.before] using hlog
        exact hstart.congr rfl
      · show 3 * C.lineage.length + 8 + _ < _
        rw [List.length_cons, Nat.mul_succ]
        omega

/-- **A step of the loop** leads to the next point, or to the next job, or it is the last one. -/
theorem Runs.workStep (hr : C.Ready) (hc : C.Counts) (h : C.Runs s done a rest x)
    (hs : JobSystem.workerStep s C.worker = some s') :
    ∃ n, C.Holds s' n ∧ n < x.left + (3 * C.lineage.length + 8) * rest.length := by
  -- all but the last step stay in the iteration
  have hnext : (∃ y, C.Runs s' done a rest y ∧ y.left < x.left) →
      ∃ n, C.Holds s' n ∧ n < x.left + (3 * C.lineage.length + 8) * rest.length := by
    rintro ⟨y, hy, hlt⟩
    exact ⟨_, Or.inl ⟨done, a, rest, y, hy, rfl⟩, by omega⟩
  have hphase := h.phase
  generalize hpc : (s.worker C.worker).pc = pc at hphase
  cases hphase with
  | execute => exact hnext (h.execute hr hpc hs)
  | running =>
      simp only [JobSystem.workerStep, hpc] at hs
      cases hs
  | storeTrace => exact hnext (h.storeTrace hpc hs)
  | readContinuation => exact hnext (h.readContinuation hr hpc hs)
  | handOver => exact hnext (h.handOver hr hc hpc hs)
  | fetchSub => exact hnext ⟨_, h.fetchSub hr hpc hs, Nat.lt_succ_self _⟩
  | ascend =>
      by_cases hp : C.lineage = []
      · have hnone : C.parent = none := by rw [Chain.parent, hp]; rfl
        refine hnext ⟨_, h.ascend_none hr hpc hnone hs, ?_⟩
        show 1 < 3 * C.lineage.length + 2
        omega
      · obtain ⟨p, up, hp⟩ := List.exists_cons_of_ne_nil hp
        exact hnext ⟨_, h.ascend_some hpc hp hs, Nat.lt_succ_self _⟩
  | tell hp => exact hnext (h.tell hr hc hpc hp hs)
  | climb hx hlast hone =>
      subst hlast
      exact hnext (h.climb hr hpc hx hone hs)
  | climbTell hx hlast hone =>
      subst hlast
      exact hnext (h.climbTell hr hpc hx hone hs)
  | unwind hx hlast hone =>
      subst hlast
      exact hnext (h.unwind hr hpc hx hone hs)
  | recycle => exact h.recycle hr hpc hs

/-! ## Runs -/

section Step

variable {x : Action} {n : Nat}

/-- The worker is where it was, if the step is none of its own. -/
theorem worker_of_not_own (hx : C.own x = false) (hs : step s x = some s') :
    s'.worker C.worker = s.worker C.worker := by
  rcases step_cases hs with ⟨-, hf⟩ | ⟨i, job, rfl, -, -, -, rfl⟩ | ⟨i, rfl, -, hw⟩
  · rw [hf.worker]
  · have hi : C.worker ≠ i := fun hi => by simp [own, hi] at hx
    exact Function.update_of_ne hi ..
  · have hi : C.worker ≠ i := fun hi => by simp [own, hi] at hx
    exact (workerStep_frame hw).worker _ hi

theorem caller_of_own (hx : C.own x = true) : x.caller = none := by
  cases x <;> first | rfl | cases hx

/-- The end of the loop is not touched by the other threads. -/
theorem Ended.spares (h : C.Ended s) (hs : C.Spares s s')
    (hworker : s'.worker C.worker = s.worker C.worker)
    (hcall : s'.call (.worker C.worker) = s.call (.worker C.worker)) : C.Ended s' := by
  obtain ⟨es, hlog, hes⟩ := hs.log
  refine ⟨hworker ▸ h.pc, hcall ▸ h.idle, fun p hp => ?_, h.logged.foreign hlog hes⟩
  rw [hs.parent p hp, h.counter p hp]

/-- A worker that is not in a work calls nothing. -/
theorem Ended.not_caller (h : C.Ended s) (hx : x.caller = some (.worker C.worker)) :
    step s x = none := by
  have huser : ¬ UserCode s (.worker C.worker) := by
    rintro ⟨-, -, job, hpc⟩
    rw [h.pc] at hpc
    cases hpc
  cases x with
  | finish | work => cases hx
  | schedule | jobThen =>
      obtain rfl := Option.some.inj hx
      exact if_neg fun hcond => huser hcond.1
  | shutdown =>
      obtain rfl := Option.some.inj hx
      exact if_neg huser
  | call =>
      obtain rfl := Option.some.inj hx
      simp only [step, callStep, h.idle]

/-- **A step of the system**: the worker gets closer to the end of the loop with its own. -/
theorem Holds.step (hr : C.Ready) (hc : C.Counts) (h : C.Holds s n) (hx : C.Allowed s x)
    (hs : step s x = some s') :
    ∃ n', C.Holds s' n' ∧ n' + (if C.own x then 1 else 0) ≤ n := by
  by_cases hown : C.own x = true
  case pos =>
    rw [if_pos hown]
    rw [Allowed, if_pos hown] at hx
    rcases h with ⟨done, a, rest, y, hruns, rfl⟩ | ⟨hend, -⟩
    case inr => exact absurd hend.pc hx
    case inl =>
      cases x with
      | schedule | jobThen | call | shutdown => cases hown
      | finish i =>
          obtain rfl : i = C.worker := of_decide_eq_true hown
          obtain ⟨z, hz, hlt⟩ := hruns.finish hr hs
          exact ⟨_, Or.inl ⟨done, a, rest, z, hz, rfl⟩, by omega⟩
      | work i =>
          obtain rfl : i = C.worker := of_decide_eq_true hown
          obtain ⟨m, hm, hlt⟩ := hruns.workStep hr hc (step_work hs).2
          exact ⟨m, hm, hlt⟩
  case neg =>
    rw [if_neg hown]
    rw [Allowed, if_neg hown] at hx
    by_cases hcaller : x.caller = some (.worker C.worker)
    · rw [if_pos hcaller] at hx
      rcases h with ⟨done, a, rest, y, hruns, rfl⟩ | ⟨hend, -⟩
      · exact ⟨_, Or.inl ⟨done, a, rest, y, hruns.userStep hcaller hx hs, rfl⟩, le_refl _⟩
      · rw [hend.not_caller hcaller] at hs
        cases hs
    · rw [if_neg hcaller] at hx
      have hsp := hx s' hs
      have hworker := worker_of_not_own (Bool.not_eq_true _ ▸ hown) hs
      have hcall := step_call hcaller hs
      rcases h with ⟨done, a, rest, y, hruns, rfl⟩ | ⟨hend, hn⟩
      · have hruns' := hruns.spares hr hsp (step_size hs) hworker hcall
        exact ⟨_, Or.inl ⟨done, a, rest, y, hruns', rfl⟩, le_refl _⟩
      · exact ⟨n, Or.inr ⟨hend.spares hsp hworker hcall, hn⟩, le_refl _⟩

end Step

/-- Nothing was recorded yet. -/
theorem since_self (s : State) : s.since s = [] := by
  rw [State.since, Nat.sub_self, List.take_zero]

/-- The loop at its start. -/
theorem Ready.holds (hr : C.Ready) :
    C.Holds C.start ((3 * C.lineage.length + 8) * C.jobs.length) := by
  obtain ⟨a, rest, hsplit⟩ := List.exists_cons_of_ne_nil hr.nonempty
  have hhead : C.jobs.head? = some a := by rw [hsplit]; rfl
  have ha : a ∈ C.jobs := by rw [hsplit]; exact List.mem_cons_self
  have hparent : (C.start.jobs a).parent = C.parent := by
    have hasc := hr.ascends a hhead
    cases hl : C.lineage with
    | nil =>
        rw [hl] at hasc
        rw [Chain.parent, hl]
        exact hasc
    | cons p up =>
        rw [hl] at hasc
        rw [Chain.parent, hl]
        exact hasc.1
  have hjobs : C.Jobs C.start.jobs a rest
      ⟨.started, 1, 3 * C.lineage.length + 8, false, C.count, false⟩ := by
    refine ⟨?_, fun b hb => ?_, fun p hp => ?_, fun p _ => ⟨rfl, rfl⟩⟩
    · rw [← hparent, ← hr.counters a ha]
    · have hb' : b ∈ C.jobs.tail := by rw [hsplit]; exact hb
      rw [if_neg (by simp), ← hr.unparented b hb']
    · show _ = C.count
      rw [Chain.count, Option.mem_def.mp hp]
  have hapart : C.Apart C.start (a :: rest) := by
    refine ⟨hr.intact, fun b hb => hr.unlinked b (hsplit ▸ hb), hr.kept, fun b hb => ?_⟩
    rw [hr.call] at hb
    cases hb
  have hlogged : C.Logged C.start [] false := by
    refine ⟨List.suffix_rfl, ?_, ?_, ?_⟩ <;> simp [Chain.marks, since_self]
  refine Or.inl ⟨[], a, rest, _, ⟨hsplit, hr.size, ?_, ?_, Or.inl hr.call, hjobs, ?_, fun _ => hapart,
    hlogged⟩, ?_⟩
  · rw [hr.pc, hhead]
    exact .execute
  · rw [hr.call]
    rfl
  · intro b hb
    rw [← hsplit] at hb
    exact hr.live b (List.mem_append.mpr hb)
  · rw [hsplit, List.length_cons, Nat.mul_succ, Nat.add_comm]

end Chain

end Bop.JobSystem
