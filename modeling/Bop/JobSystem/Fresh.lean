import Bop.JobSystem.Pointers

set_option autoImplicit false

/-! # A job system that does not use storage again

`stepFresh` is the job system with a `create_job` that always allocates. Its jobs are in other
storages: the job of the work `w` is in `name w`, say. `Mirrors` relates its memory to the one of
the job system proper. The storages that hold a job which is not recycled are renamed, nothing is
said about the others.

There is a lemma for each thing that a step does to the memory.
-/

namespace Bop

/-- The job with the pointers renamed. -/
def Job.rename (ρ : Addr → Addr) (j : Job) : Job :=
  { j with
    parent := j.parent.map ρ
    continuation := j.continuation.map ρ }

namespace JobSystem

/-! ## Allocation only -/

/-- `create_job` without a recycling bin. -/
def createJobFresh (s : State) (fresh : Addr) : State × Addr :=
  ({ s with
    store := s.store.clearNext fresh
    jobs := Function.update s.jobs fresh {}
    live := fresh :: s.live
    log := .allocated fresh :: s.log }, fresh)

/-- `construct` with it. -/
def constructFresh (s : State) (parent : Option Addr) (threadIndex : Option Nat)
    (fresh : Addr) : State × Addr :=
  let parentWork := parent.map fun p => (s.jobs p).work
  let (s, result) := createJobFresh s fresh
  ({ s with
    jobs := Function.update s.jobs result
      { s.jobs result with
        parent := parent
        threadIndex := threadIndex
        work := s.nextWork }
    nextWork := s.nextWork + 1
    log := .constructed s.nextWork result parentWork threadIndex :: s.log }, result)

/-- One step of the job system that allocates for each job. -/
def stepFresh (s : State) : Action → Option State
  | .schedule t parent threadIndex fresh =>
      if UserCode s t ∧ fresh ∉ s.live ∧ (∀ p ∈ parent, s.Referenced p.1 p.2) then
        let (s, work) := constructFresh s (parent.map Prod.snd) threadIndex fresh
        some (s.setCall t (.route work))
      else none
  | .jobThen t of job threadIndex fresh =>
      if UserCode s t ∧ fresh ∉ s.live ∧ s.Referenced of job then
        let (s, work) := constructFresh s none threadIndex fresh
        some (s.setCall t (.attach job of work))
      else none
  | .call t => step s (.call t)
  | .shutdown t => step s (.shutdown t)
  | .finish i => step s (.finish i)
  | .work i => step s (.work i)

/-! ## Renaming -/

def Completion.rename (ρ : Addr → Addr) : Completion → Completion
  | .fetchSub job callers => .fetchSub (ρ job) (callers.map ρ)
  | .ascend job callers => .ascend (ρ job) (callers.map ρ)
  | .recycle job callers => .recycle (ρ job) (callers.map ρ)

def Pc.rename (ρ : Addr → Addr) : Pc → Pc
  | .stealCount currentJob => .stealCount (currentJob.map ρ)
  | .stealTest currentJob n => .stealTest (currentJob.map ρ) n
  | .execute currentJob => .execute (currentJob.map ρ)
  | .running currentJob => .running (ρ currentJob)
  | .storeTrace currentJob => .storeTrace (ρ currentJob)
  | .readContinuation currentJob => .readContinuation (ρ currentJob)
  | .handOver currentJob continuation => .handOver (ρ currentJob) (continuation.map ρ)
  | .complete c continuation => .complete (c.rename ρ) (continuation.map ρ)
  | pc => pc

def Worker.rename (ρ : Addr → Addr) (w : Worker) : Worker := { w with pc := w.pc.rename ρ }

/-- The event without the addresses. Storage that is allocated or returned is no event then. -/
def Event.plain : Event → Option Event
  | .allocated _ | .deallocated _ | .destroyed _ => none
  | .constructed w _ parent threadIndex => some (.constructed w 0 parent threadIndex)
  | .scheduled w _ => some (.scheduled w 0)
  | .returned w result => some (.returned w (result.map fun _ => 0))
  | e => some e

/-- The action without the addresses of jobs. -/
def Action.plain : Action → Action
  | .schedule t parent threadIndex _ => .schedule t (parent.map fun p => (p.1, 0)) threadIndex 0
  | .jobThen t of _ threadIndex _ => .jobThen t of 0 threadIndex 0
  | x => x

/-- What the two job systems have of their own. -/
structure Memory where
  jobs : Addr → Job
  store : Store QueueId Addr
  live : List Addr
  log : List Event

def State.memory (s : State) : Memory := ⟨s.jobs, s.store, s.live, s.log⟩

/-- The state with other storages: the workers go on at the same points with the renamed jobs. -/
def State.renamed (s : State) (ρ : Addr → Addr) (call : Tid → Call) (m : Memory) : State :=
  { s with
    jobs := m.jobs
    store := m.store
    live := m.live
    log := m.log
    call := call
    worker := fun i => (s.worker i).rename ρ }

section Renamed

variable {s : State} {ρ ρ' : Addr → Addr} {call : Tid → Call} {m : Memory} {i : Nat}

theorem rename_update (w : Worker) :
    (fun j => (Function.update s.worker i w j).rename ρ) =
      Function.update (fun j => (s.worker j).rename ρ) i (w.rename ρ) := by
  funext j
  by_cases hj : j = i
  · subst hj
    rw [Function.update_self, Function.update_self]
  · rw [Function.update_of_ne hj, Function.update_of_ne hj]

theorem renamed_goto (pc : Pc) :
    (s.renamed ρ call m).goto i (pc.rename ρ) = (s.goto i pc).renamed ρ call m := by
  simp only [State.renamed, State.goto, rename_update]
  rfl

theorem renamed_gotoVia (pc : Pc) (via : Option Work) :
    (s.renamed ρ call m).gotoVia i (pc.rename ρ) via =
      (s.gotoVia i pc via).renamed ρ call m := by
  simp only [State.renamed, State.gotoVia, rename_update]
  rfl

theorem goto_of_renamed {f : State} (pc : Pc) (hf : f = s.renamed ρ call m) :
    f.goto i (pc.rename ρ) = (s.goto i pc).renamed ρ call m := by
  rw [hf, renamed_goto]

/-- A point in the code is renamed by the names of the jobs in it. -/
theorem Pc.rename_congr {pc : Pc} (hcur : ∀ a k, pc.current = some (a, k) → ρ a = ρ' a)
    (hfol : ∀ a, pc.following = some a → ρ a = ρ' a)
    (hcal : ∀ c d, pc = .complete c d → c.callers = []) : pc.rename ρ = pc.rename ρ' := by
  have hmap : ∀ {o : Option Addr}, (∀ a, o = some a → ρ a = ρ' a) → o.map ρ = o.map ρ' := by
    rintro (_ | a) h
    · rfl
    · exact congrArg some (h a rfl)
  cases pc with
  | stealCount o | stealTest o | execute o =>
      cases o with
      | none => rfl
      | some a => simp [Pc.rename, hcur a _ rfl]
  | running a | storeTrace a | readContinuation a => simp [Pc.rename, hcur a _ rfl]
  | handOver a c =>
      have hc : c.map ρ = c.map ρ' := hmap hfol
      simp [Pc.rename, hcur a _ rfl, hc]
  | complete e c =>
      have hc : c.map ρ = c.map ρ' := hmap hfol
      have hnil := hcal e c rfl
      cases e with
      | fetchSub a l | ascend a l | recycle a l =>
          obtain rfl : l = [] := hnil
          simp [Pc.rename, Completion.rename, hcur a _ rfl, hc]
  | _ => rfl

end Renamed

/-! ## The two memories -/

/-- The storage holds a job that is not recycled. -/
def State.Alive (s : State) (a : Addr) : Prop :=
  a ∈ s.live ∧ .recycled (s.jobs a).work ∉ s.log

/-- The jobs are in the storages that `name` has for their works. -/
def State.naming (name : Work → Addr) (s : State) (a : Addr) : Addr := name (s.jobs a).work

/-- A reference to `a` for the job of `w` was returned. -/
def Memory.Referenced (m : Memory) (w : Work) (a : Addr) : Prop :=
  .scheduled w a ∈ m.log ∨ .returned w (some a) ∈ m.log

/-- What the queues hold. In a bin there are recycled jobs. -/
def Alike (name : Work → Addr) (s : State) (c c' : QueueId → List Addr) : Prop :=
  ∀ q, (q.isBin = false → c' q = (c q).map (s.naming name)) ∧
    (q.isBin = true → ∀ x ∈ c' q, ∃ w, .recycled w ∈ s.log ∧ x = name w)

/-- **The memory `m` mirrors the one of `s`**: each job that is not recycled is there, with the
same counter, thread index and work, and with the renamed parent and continuation. -/
structure Mirrors (name : Work → Addr) (s : State) (m : Memory) : Prop where
  jobs : ∀ a, s.Alive a → s.naming name a ∈ m.live ∧
    m.jobs (s.naming name a) = (s.jobs a).rename (s.naming name)
  store : ∃ c c', s.store.Holds c ∧ m.store.Holds c' ∧ Alike name s c c'
  live : ∀ x ∈ m.live, ∃ w < s.nextWork, x = name w
  references : ∀ w a, s.Referenced w a → (s.jobs a).work = w → m.Referenced w (name w)
  log : m.log.filterMap Event.plain = s.log.filterMap Event.plain

section Mirrors

variable {name : Work → Addr} {s s' : State} {m m' : Memory} {place : Addr → Option Place}
variable {a b : Addr} {p : Place} {q q' : QueueId} {c c' : QueueId → List Addr} {l l' : List Addr}

theorem Settled.alive (h : Settled s place) (ha : place a = some p)
    (hp : p.stage ≤ Stage.recycled.rank) :
    s.Alive a := h.inOrder.valid.alive ha hp

theorem Settled.alive_queue (h : Settled s place) (hq : q.isBin = false)
    (ha : s.store.Linked q a) : s.Alive a :=
  h.alive ((h.views.queue q a).mp ha) (by simp [Place.stage, hq])

/-- Different jobs have different names. -/
theorem Settled.naming_inj (h : Settled s place) (hname : Function.Injective name)
    (ha : s.Alive a) (hb : s.Alive b) (hab : s.naming name a = s.naming name b) : a = b :=
  h.inOrder.valid.work_inj ha.1 hb.1 (hname hab)

/-- A queue changes in the same way in both stores. -/
theorem Alike.update (h : Alike name s c c')
    (hl : q.isBin = false → l' = l.map (s.naming name))
    (hbin : q.isBin = true → ∀ x ∈ l', ∃ w, .recycled w ∈ s.log ∧ x = name w) :
    Alike name s (Function.update c q l) (Function.update c' q l') := by
  intro r
  by_cases hr : r = q
  · subst hr
    rw [Function.update_self, Function.update_self]
    exact ⟨hl, hbin⟩
  · rw [Function.update_of_ne hr, Function.update_of_ne hr]
    exact h r

/-- A bin changes, in one of the stores. -/
theorem Alike.update_left (h : Alike name s c c') (hq : q.isBin = true) :
    Alike name s (Function.update c q l) c' := by
  intro r
  by_cases hr : r = q
  · subst hr
    exact ⟨fun hf => absurd (hq.symm.trans hf) (by decide), (h r).2⟩
  · rw [Function.update_of_ne hr]
    exact h r

theorem Alike.update_right (h : Alike name s c c') (hq : q.isBin = true)
    (hl : ∀ x ∈ l, ∃ w, .recycled w ∈ s.log ∧ x = name w) :
    Alike name s c (Function.update c' q l) := by
  intro r
  by_cases hr : r = q
  · subst hr
    rw [Function.update_self]
    exact ⟨fun hf => absurd (hq.symm.trans hf) (by decide), fun _ => hl⟩
  · rw [Function.update_of_ne hr]
    exact h r

theorem Alike.congr (h : Alike name s c c') (hjobs : ∀ q, q.isBin = false → ∀ x ∈ c q,
    s'.naming name x = s.naming name x) (hlog : ∀ w, .recycled w ∈ s.log → .recycled w ∈ s'.log) :
    Alike name s' c c' := by
  refine fun q => ⟨fun hq => ?_, fun hq x hx => ?_⟩
  · rw [(h q).1 hq]
    exact List.map_congr_left fun x hx => (hjobs q hq x hx).symm
  · obtain ⟨w, hw, rfl⟩ := (h q).2 hq x hx
    exact ⟨w, hlog w hw, rfl⟩

/-- The name of a job that is in no queue is in no queue either. -/
theorem Alike.naming_notMem (h : Alike name s c c') (hs : Settled s place)
    (hname : Function.Injective name) (hc : s.store.Holds c) (ha : s.Alive a)
    (hout : ∀ q, ¬ s.store.Linked q a) : ∀ q, s.naming name a ∉ c' q := by
  intro q hq
  cases hbin : q.isBin with
  | false =>
      rw [(h q).1 hbin] at hq
      obtain ⟨b, hb, hba⟩ := List.mem_map.mp hq
      have hlb : s.store.Linked q b := hc.linked_iff.mpr hb
      obtain rfl := hs.naming_inj hname (hs.alive_queue hbin hlb) ha hba
      exact hout q hlb
  | true =>
      obtain ⟨w, hw, hwa⟩ := (h q).2 hbin _ hq
      exact ha.2 (hname hwa ▸ hw)

/-! ## What a step does to the memory -/

theorem Mirrors.congr (h : Mirrors name s m) (hjobs : s'.jobs = s.jobs) (hlive : s'.live = s.live)
    (hlog : s'.log = s.log) (hstore : s'.store = s.store) (hnext : s'.nextWork = s.nextWork) :
    Mirrors name s' m := by
  have hnaming : s'.naming name = s.naming name := by
    funext x
    rw [State.naming, State.naming, hjobs]
  constructor
  case jobs =>
    intro x hx
    rw [hnaming, hjobs]
    refine h.jobs x ?_
    rwa [State.Alive, hlive, hjobs, hlog] at hx
  case store =>
    obtain ⟨c, c', hc, hc', hl⟩ := h.store
    exact ⟨c, c', hstore ▸ hc, hc', hl.congr (fun q _ x _ => by rw [hnaming])
      fun w hw => hlog ▸ hw⟩
  case live => rw [hnext]; exact h.live
  case references =>
    intro w x hx hw
    rw [State.Referenced, hlog] at hx
    exact h.references w x hx (hjobs ▸ hw)
  case log => rw [hlog]; exact h.log

theorem Mirrors.withStore {st st' : Store QueueId Addr} (h : Mirrors name s m) (hc : st.Holds c)
    (hc' : st'.Holds c') (hl : Alike name s c c') :
    Mirrors name { s with store := st } { m with store := st' } :=
  ⟨h.jobs, ⟨c, c', hc, hc', hl⟩, h.live, h.references, h.log⟩

/-- A worker pops a job, or finds the queue empty. -/
theorem Mirrors.pop (h : Mirrors name s m) (hq : q.isBin = false) :
    (m.store.pop q).1 = (s.store.pop q).1.map (s.naming name) ∧
      Mirrors name { s with store := (s.store.pop q).2 } { m with store := (m.store.pop q).2 } := by
  obtain ⟨c, c', hc, hc', hl⟩ := h.store
  have hlq := (hl q).1 hq
  cases hcq : c q with
  | nil =>
      rw [hcq, List.map_nil] at hlq
      rw [hc.pop_nil hcq, hc'.pop_nil hlq]
      exact ⟨rfl, h.withStore hc hc' hl⟩
  | cons a l =>
      rw [hcq, List.map_cons] at hlq
      obtain ⟨hpop, hst⟩ := hc.pop_cons hcq
      obtain ⟨hpop', hst'⟩ := hc'.pop_cons hlq
      rw [hpop, hpop']
      refine ⟨rfl, h.withStore hst hst' (hl.update (fun _ => rfl) fun hf => ?_)⟩
      rw [hq] at hf
      cases hf

/-- A thread pushes its job to a queue. -/
theorem Mirrors.push (h : Mirrors name s m) (hs : Settled s place)
    (hname : Function.Injective name) (hq : q.isBin = false) (ha : s.Alive a)
    (hout : ∀ q, ¬ s.store.Linked q a) :
    Mirrors name { s with store := s.store.push q a }
      { m with store := m.store.push q (s.naming name a) } := by
  obtain ⟨c, c', hc, hc', hl⟩ := h.store
  have hst := hc.push (q := q) fun q' hm => hout q' (hc.linked_iff.mpr hm)
  have hst' := hc'.push (q := q) (hl.naming_notMem hs hname hc ha hout)
  refine h.withStore hst hst' (hl.update (fun _ => ?_) fun hf => ?_)
  · rw [(hl q).1 hq, List.map_append, List.map_singleton]
  · rw [hq] at hf
    cases hf

/-- A worker clears its garbage bin. -/
theorem Mirrors.clear (h : Mirrors name s m) (hq : q.isBin = true) :
    Mirrors name { s with store := (s.store.clear q).2 }
      { m with store := (m.store.clear q).2 } := by
  obtain ⟨c, c', hc, hc', hl⟩ := h.store
  refine h.withStore hc.clear.2 hc'.clear.2 (hl.update (fun hf => ?_) fun _ x hx => ?_)
  · rw [hq] at hf
    cases hf
  · exact absurd hx List.not_mem_nil

/-- An event is recorded, which names the same works. -/
theorem Mirrors.record {e e' : Event} (h : Mirrors name s m) (hplain : e.plain = e'.plain)
    (href : ∀ w a, e = .scheduled w a ∨ e = .returned w (some a) → (s.jobs a).work = w →
      e' = .scheduled w (name w) ∨ e' = .returned w (some (name w))) :
    Mirrors name (s.record e) { m with log := e' :: m.log } := by
  constructor
  case jobs =>
    intro x hx
    exact h.jobs x ⟨hx.1, fun hm => hx.2 (List.mem_cons_of_mem _ hm)⟩
  case store =>
    obtain ⟨c, c', hc, hc', hl⟩ := h.store
    exact ⟨c, c', hc, hc', hl.congr (fun _ _ _ _ => rfl) fun w hw => List.mem_cons_of_mem _ hw⟩
  case live => exact h.live
  case references =>
    intro w x hx hw
    have hold : s.Referenced w x → Memory.Referenced { m with log := e' :: m.log } w (name w) :=
      fun hx => (h.references w x hx hw).imp (List.mem_cons_of_mem _) (List.mem_cons_of_mem _)
    have hnew : (e = .scheduled w x ∨ e = .returned w (some x)) →
        Memory.Referenced { m with log := e' :: m.log } w (name w) := fun he =>
      (href w x he hw).imp (fun hr => List.mem_cons.mpr (Or.inl hr.symm))
        (fun hr => List.mem_cons.mpr (Or.inl hr.symm))
    rcases hx with hx | hx
    · rcases List.mem_cons.mp hx with hx | hx
      · exact hnew (Or.inl hx.symm)
      · exact hold (Or.inl hx)
    · rcases List.mem_cons.mp hx with hx | hx
      · exact hnew (Or.inr hx.symm)
      · exact hold (Or.inr hx)
  case log =>
    show List.filterMap _ (e' :: m.log) = List.filterMap _ (e :: s.log)
    rw [List.filterMap_cons, List.filterMap_cons, ← hplain, h.log]

theorem work_setJob {j : Job} (hj : j.work = (s.jobs a).work) (x : Addr) :
    ((s.setJob a j).jobs x).work = (s.jobs x).work :=
  Ledger.update_field Job.work hj x

theorem naming_setJob {j : Job} (hj : j.work = (s.jobs a).work) :
    (s.setJob a j).naming name = s.naming name := by
  funext x
  rw [State.naming, work_setJob hj]
  rfl

/-- A job changes, but not its work. -/
theorem Mirrors.setJob {j : Job} (h : Mirrors name s m) (hs : Settled s place)
    (hname : Function.Injective name) (ha : s.Alive a) (hj : j.work = (s.jobs a).work) :
    Mirrors name (s.setJob a j) { m with
      jobs := Function.update m.jobs (s.naming name a) (j.rename (s.naming name)) } := by
  have hwork := work_setJob hj
  have hnaming : (s.setJob a j).naming name = s.naming name := naming_setJob hj
  constructor
  case jobs =>
    intro x hx
    rw [State.Alive, hwork] at hx
    obtain ⟨hlive, hjob⟩ := h.jobs x hx
    rw [hnaming]
    refine ⟨hlive, ?_⟩
    show Function.update m.jobs _ _ _ = (Function.update s.jobs a j x).rename _
    by_cases hxa : x = a
    · subst hxa
      rw [Function.update_self, Function.update_self]
    · rw [Function.update_of_ne fun heq => hxa (hs.naming_inj hname hx ha heq),
        Function.update_of_ne hxa, hjob]
  case store =>
    obtain ⟨c, c', hc, hc', hl⟩ := h.store
    exact ⟨c, c', hc, hc', hl.congr (fun _ _ x _ => by rw [hnaming]) fun w hw => hw⟩
  case live => exact h.live
  case references =>
    intro w x hx hw
    rw [hwork] at hw
    exact h.references w x hx hw
  case log => exact h.log

/-- A job goes to a bin, which may be another one in the two memories. -/
theorem Mirrors.recycle (h : Mirrors name s m) (hs : Settled s place)
    (hname : Function.Injective name) (hq : q.isBin = true) (hq' : q'.isBin = true)
    (ha : s.Alive a) (hout : ∀ q, ¬ s.store.Linked q a) :
    Mirrors name { s.record (.recycled (s.jobs a).work) with store := s.store.push q a }
      { m with
        store := m.store.push q' (s.naming name a)
        log := .recycled (s.jobs a).work :: m.log } := by
  obtain ⟨c, c', hc, hc', hl⟩ := h.store
  have hrec : Mirrors name (s.record (.recycled (s.jobs a).work))
      { m with log := .recycled (s.jobs a).work :: m.log } :=
    h.record rfl (by simp)
  have hl' : Alike name (s.record (.recycled (s.jobs a).work)) c c' :=
    hl.congr (fun _ _ _ _ => rfl) fun w hw => List.mem_cons_of_mem _ hw
  refine hrec.withStore (hc.push fun q' hm => hout q' (hc.linked_iff.mpr hm))
    (hc'.push (hl.naming_notMem hs hname hc ha hout))
    ((hl'.update_left hq).update_right hq' fun x hx => ?_)
  rcases List.mem_append.mp hx with hx | hx
  · exact (hl' q').2 hq' x hx
  · exact ⟨(s.jobs a).work, List.mem_cons_self, List.mem_singleton.mp hx⟩

/-- `construct` takes `s` to `s'`: the job has no parent, and its storage `a` held no job that is
not recycled. -/
structure Constructs (s : State) (a : Addr) (threadIndex : Option Nat) (s' : State) : Prop where
  dead : ¬ s.Alive a
  store : ∀ c, s.store.Holds c → ∃ c₁, s'.store.Holds c₁ ∧ ∀ q, q.isBin = false → c₁ q = c q
  jobs : s'.jobs = Function.update s.jobs a { threadIndex := threadIndex, work := s.nextWork }
  live : ∀ x, x ∈ s'.live ↔ x ∈ s.live ∨ x = a
  log : ∃ es, s'.log = .constructed s.nextWork a none threadIndex :: (es ++ s.log) ∧
    ∀ e ∈ es, ∃ x, e = .allocated x
  rest : s' = { s with
    jobs := s'.jobs, store := s'.store, live := s'.live, nextWork := s.nextWork + 1, log := s'.log }

theorem Settled.constructs {t : Tid} {threadIndex : Option Nat} {fresh : Addr}
    (hs : Settled s place) (hfresh : fresh ∉ s.live) :
    Constructs s (construct s t none threadIndex fresh).2 threadIndex
      (construct s t none threadIndex fresh).1 := by
  rcases construct_cases s t none threadIndex fresh with ⟨a, st, hpop, hc⟩ | ⟨st, hpop, hc⟩
  · -- the storage comes out of the recycling bin
    have ha : place a = some (.queue (.recyclingBin t)) := hs.views.popped hpop
    have hlive : a ∈ s.live := hs.inOrder.valid.live ha
    rw [hc]
    refine ⟨fun hl => hl.2 ?_, fun c hcs => ?_, rfl, fun x => ?_, ⟨[], rfl, by simp⟩, rfl⟩
    · exact recycled_iff.mp ((hs.inOrder.valid.mem_trail_iff ha).mpr (by simp))
    · cases hq : c (.recyclingBin t) with
      | nil =>
          rw [hcs.pop_nil hq] at hpop
          cases hpop
      | cons b l =>
          obtain ⟨hfst, hsnd⟩ := hcs.pop_cons hq
          rw [hpop] at hfst hsnd
          obtain rfl : a = b := Option.some.inj hfst
          have hout : ∀ q, a ∉ Function.update c (.recyclingBin t) l q := by
            intro q hm
            have hla := hsnd.linked_iff.mpr hm
            exact ((hs.views.store.pop_some hpop).2.2.mp hla).2 rfl
          refine ⟨_, hsnd.clearNext hout, fun q hbin => Function.update_of_ne ?_ _ _⟩
          rintro rfl
          cases hbin
    · show x ∈ s.live ↔ _
      constructor
      · exact Or.inl
      · rintro (hx | rfl)
        · exact hx
        · exact hlive
  · -- the storage is allocated
    obtain ⟨rfl, -⟩ := hs.views.store.pop_none hpop
    rw [hc]
    refine ⟨fun hl => hfresh hl.1, fun c hcs => ?_, rfl, fun x => ?_,
      ⟨[.allocated fresh], rfl, by simp⟩, rfl⟩
    · refine ⟨c, hcs.clearNext fun q hq => hfresh ?_, fun _ _ => rfl⟩
      exact hs.inOrder.valid.live ((hs.views.queue q fresh).mp (hcs.linked_iff.mpr hq))
    · show x ∈ fresh :: s.live ↔ _
      rw [List.mem_cons, or_comm]

section Constructs

variable {threadIndex : Option Nat}

/-- The other jobs keep their names. -/
theorem Constructs.naming {x : Addr} (hnew : Constructs s a threadIndex s') (hx : s.Alive x) :
    s'.naming name x = s.naming name x := by
  have hxa : x ≠ a := fun hxa => hnew.dead (hxa ▸ hx)
  rw [State.naming, hnew.jobs, Function.update_of_ne hxa]
  rfl

theorem Constructs.naming_self (hnew : Constructs s a threadIndex s') :
    s'.naming name a = name s.nextWork := by
  rw [State.naming, hnew.jobs, Function.update_self]

/-- What was recorded before. -/
theorem Constructs.mem_log {e : Event} (hnew : Constructs s a threadIndex s') (he : e ∈ s.log) :
    e ∈ s'.log := by
  obtain ⟨es, hlog, -⟩ := hnew.log
  rw [hlog]
  exact List.mem_cons_of_mem _ (List.mem_append_right _ he)

theorem Constructs.alive {x : Addr} (hnew : Constructs s a threadIndex s') (hxa : x ≠ a)
    (hx : s'.Alive x) : s.Alive x := by
  refine ⟨((hnew.live x).mp hx.1).resolve_right hxa, fun hm => hx.2 ?_⟩
  rw [hnew.jobs, Function.update_of_ne hxa]
  exact hnew.mem_log hm

/-- No reference is returned. -/
theorem Constructs.referenced {w : Work} {x : Addr} (hnew : Constructs s a threadIndex s')
    (hx : s'.Referenced w x) : s.Referenced w x := by
  obtain ⟨es, hlog, hes⟩ := hnew.log
  have hold : ∀ {e}, e ∈ s'.log → (∀ w x p ti, e ≠ .constructed w x p ti) →
      (∀ x, e ≠ .allocated x) → e ∈ s.log := by
    intro e he hc hal
    rw [hlog] at he
    rcases List.mem_cons.mp he with rfl | he
    · exact absurd rfl (hc _ _ _ _)
    · refine (List.mem_append.mp he).resolve_left fun he => ?_
      obtain ⟨x, rfl⟩ := hes e he
      exact hal x rfl
  exact hx.imp (fun hm => hold hm (by simp) (by simp)) (fun hm => hold hm (by simp) (by simp))

theorem Constructs.plain (hnew : Constructs s a threadIndex s') :
    s'.log.filterMap Event.plain =
      .constructed s.nextWork 0 none threadIndex :: s.log.filterMap Event.plain := by
  obtain ⟨es, hlog, hes⟩ := hnew.log
  have hnone : es.filterMap Event.plain = [] := by
    refine List.filterMap_eq_nil_iff.mpr fun e he => ?_
    obtain ⟨x, rfl⟩ := hes e he
    rfl
  rw [hlog, List.filterMap_cons]
  simp [Event.plain, hnone]

/-- The name of the next job is a new one. -/
theorem Settled.naming_ne (hs : Settled s place) (hname : Function.Injective name)
    (ha : s.Alive a) : s.naming name a ≠ name s.nextWork := by
  intro heq
  have hlt : (s.jobs a).work < s.nextWork := hs.inOrder.valid.work_lt ha.1
  exact absurd (hname heq) (Nat.ne_of_lt hlt)

/-- It is in no queue. -/
theorem Alike.nextWork_notMem (h : Alike name s c c') (hs : Settled s place)
    (hname : Function.Injective name) (hc : s.store.Holds c) : ∀ q, name s.nextWork ∉ c' q := by
  intro q hq
  cases hbin : q.isBin with
  | false =>
      rw [(h q).1 hbin] at hq
      obtain ⟨x, hx, hxa⟩ := List.mem_map.mp hq
      exact hs.naming_ne hname (hs.alive_queue hbin (hc.linked_iff.mpr hx)) hxa
  | true =>
      obtain ⟨w, hw, heq⟩ := (h q).2 hbin _ hq
      have hnil := hs.inOrder.valid.fresh (w := w) (Nat.le_of_eq (hname heq))
      rw [← recycled_iff, show trail s.log w = [] from hnil] at hw
      cases hw

/-- The jobs in the queues are the ones from before. -/
theorem Constructs.alike {c₁ : QueueId → List Addr} (hnew : Constructs s a threadIndex s')
    (hs : Settled s place) (hc : s.store.Holds c) (hsame : ∀ q, q.isBin = false → c₁ q = c q)
    (h : Alike name s c c') : Alike name s' c₁ c' := by
  refine fun q => ⟨fun hq => ?_, fun hq x hx => ?_⟩
  · rw [hsame q hq, (h q).1 hq]
    exact List.map_congr_left fun x hx =>
      (hnew.naming (hs.alive_queue hq (hc.linked_iff.mpr hx))).symm
  · obtain ⟨w, hw, rfl⟩ := (h q).2 hq x hx
    exact ⟨w, hnew.mem_log hw, rfl⟩

/-- A job that is not recycled is the same under its new name: its continuation is not recycled
either, so it is not the new job. -/
theorem Constructs.rename {x : Addr} (hnew : Constructs s a threadIndex s') (hs : Settled s place)
    (hx : s.Alive x) :
    (s.jobs x).rename (s'.naming name) = (s.jobs x).rename (s.naming name) := by
  have hparent : (s.jobs x).parent = none := hs.rootless.parent x
  have hcont : (s.jobs x).continuation.map (s'.naming name) =
      (s.jobs x).continuation.map (s.naming name) := by
    cases hc : (s.jobs x).continuation with
    | none => rfl
    | some d => exact congrArg some (hnew.naming (hs.tied.alive hs.inOrder hx hc))
  simp [Job.rename, hparent, hcont]

/-- **A new job**: in the storage `a`, and in a fresh one. -/
theorem Mirrors.construct (h : Mirrors name s m) (hs : Settled s place)
    (hname : Function.Injective name) (hnew : Constructs s a threadIndex s') :
    Mirrors name s'
      ⟨Function.update m.jobs (name s.nextWork)
          { threadIndex := threadIndex, work := s.nextWork },
        m.store.clearNext (name s.nextWork), name s.nextWork :: m.live,
        .constructed s.nextWork (name s.nextWork) none threadIndex ::
          .allocated (name s.nextWork) :: m.log⟩ := by
  have hnext : s'.nextWork = s.nextWork + 1 := by rw [hnew.rest]
  constructor
  case jobs =>
    intro x hx
    by_cases hxa : x = a
    · subst hxa
      rw [hnew.naming_self, hnew.jobs, Function.update_self]
      exact ⟨List.mem_cons_self, Function.update_self ..⟩
    · have hxl := hnew.alive hxa hx
      obtain ⟨hlive', hjob⟩ := h.jobs x hxl
      rw [hnew.naming hxl, hnew.jobs, Function.update_of_ne hxa, hnew.rename hs hxl]
      exact ⟨List.mem_cons_of_mem _ hlive',
        (Function.update_of_ne (hs.naming_ne hname hxl) ..).trans hjob⟩
  case store =>
    obtain ⟨c, c', hc, hc', hl⟩ := h.store
    obtain ⟨c₁, hc₁, hsame⟩ := hnew.store c hc
    exact ⟨c₁, c', hc₁, hc'.clearNext (hl.nextWork_notMem hs hname hc),
      hnew.alike hs hc hsame hl⟩
  case live =>
    intro x hx
    rw [hnext]
    rcases List.mem_cons.mp hx with rfl | hx
    · exact ⟨s.nextWork, Nat.lt_succ_self _, rfl⟩
    · obtain ⟨w, hw, rfl⟩ := h.live x hx
      exact ⟨w, Nat.lt_succ_of_lt hw, rfl⟩
  case references =>
    intro w x hx hw
    have hx' := hnew.referenced hx
    have hxa : x ≠ a := by
      rintro rfl
      rw [hnew.jobs, Function.update_self] at hw
      exact absurd (hs.inOrder.valid.referenced_lt hx') (hw ▸ lt_irrefl _)
    rw [hnew.jobs, Function.update_of_ne hxa] at hw
    exact (h.references w x hx' hw).imp
      (fun hm => List.mem_cons_of_mem _ (List.mem_cons_of_mem _ hm))
      (fun hm => List.mem_cons_of_mem _ (List.mem_cons_of_mem _ hm))
  case log =>
    rw [hnew.plain, ← h.log]
    rfl

end Constructs

end Mirrors

end JobSystem

end Bop
