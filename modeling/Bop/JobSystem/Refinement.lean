import Bop.JobSystem.Ledger
import Bop.JobSystem.Frame

set_option autoImplicit false

/-! # The job system refines the ledger

`Views s place` says that `place` is where the jobs are in the state `s`: in the queue they are
linked in, in the call or at the worker that has them in a local variable. As long as no worker
completes a job with a parent, each step of the job system leaves the ledger as it is or is a
`Move` of it, and a worker that left its loop frees and drops the jobs in its queues
(`step_simulated`). The invariant of the ledger holds therefore in every such run, and so in
every run in which jobs are scheduled without a parent (`exists_ledger`).
-/

namespace Bop.JobSystem

/-! ## The local variables of a thread -/

def Completion.callers : Completion → List Addr
  | .fetchSub _ callers | .ascend _ callers | .recycle _ callers => callers

/-- The current job of a worker, with its next stage. -/
def Pc.current : Pc → Option (Addr × Stage)
  | .stealCount (some a) | .stealTest (some a) _ | .execute (some a) => some (a, .started)
  | .running a => some (a, .finished)
  | .storeTrace a | .readContinuation a => some (a, .continuationRead)
  | .handOver a _ | .complete (.fetchSub a _) _ => some (a, .countedOff)
  | .complete (.ascend a _) _ => some (a, .completed)
  | .complete (.recycle a _) _ => some (a, .recycled)
  | _ => none

/-- The local variable `continuation` of a worker. -/
def Pc.following : Pc → Option Addr
  | .handOver _ continuation | .complete _ continuation => continuation
  | _ => none

/-- The action does not schedule a job with a parent. -/
def Action.Parentless : Action → Prop
  | .schedule _ parent _ _ => parent = none
  | _ => True

instance : DecidablePred Action.Parentless
  | .schedule _ parent _ _ => inferInstanceAs (Decidable (parent = none))
  | .jobThen _ _ _ _ _ | .call _ | .shutdown _ | .finish _ | .work _ => .isTrue trivial

/-- The job whose `m_Parent` a worker reads next. -/
def Pc.tells : Pc → Option Addr
  | .handOver a _ | .complete (.ascend a _) _ => some a
  | _ => none

theorem Pc.current_of_tells {pc : Pc} {a : Addr} (h : a ∈ pc.tells) :
    ∃ k, pc.current = some (a, k) := by
  cases pc with
  | handOver b c =>
      obtain rfl : b = a := Option.some.inj h
      exact ⟨.countedOff, rfl⟩
  | complete c d =>
      cases c with
      | ascend b callers =>
          obtain rfl : b = a := Option.some.inj h
          exact ⟨.completed, rfl⟩
      | fetchSub | recycle => cases h
  | _ => cases h

/-- The action is not a step of a worker that hands over or tells a parent. -/
def State.NoneToTell (s : State) : Action → Prop
  | .work i => ∀ a ∈ (s.worker i).pc.tells, (s.jobs a).parent = none
  | _ => True

instance (s : State) : DecidablePred s.NoneToTell
  | .work i => inferInstanceAs (Decidable (∀ a ∈ (s.worker i).pc.tells, _))
  | .schedule _ _ _ _ | .jobThen _ _ _ _ _ | .call _ | .shutdown _ | .finish _ => .isTrue trivial

/-- What `construct` makes of the arguments of `schedule`. -/
def State.origin (s : State) (parent : Option Addr) (threadIndex : Option Nat) : Origin :=
  ⟨parent.map fun p => (p, (s.jobs p).work), threadIndex⟩

/-- The policy allows the action. -/
structure Policy.Admits (P : Policy) (s : State) (x : Action) : Prop where
  makes : ∀ {t parent threadIndex fresh}, x = .schedule t parent threadIndex fresh →
    P.makes t (s.origin (parent.map Prod.snd) threadIndex)
  attaches : ∀ {t b of a}, x = .call t → s.call t = .attach b of a → P.attaches b of a
  follows : ∀ {i a c}, x = .work i → (s.worker i).pc = .readContinuation a →
    (s.jobs a).continuation = some c → P.follows i c

theorem Policy.any_admits (s : State) (x : Action) : Policy.any.Admits s x :=
  ⟨fun _ => trivial, fun _ _ => trivial, fun _ _ _ => trivial⟩

/-! ## Views -/

/-- The ledger of a state, for jobs in the places `place`. -/
def State.ledger (s : State) (place : Addr → Option Place) : Ledger :=
  ⟨place, s.jobs, s.live, s.nextWork, s.tidx, s.log⟩

theorem State.ledger_congr {s s' : State} {place : Addr → Option Place} (hjobs : s'.jobs = s.jobs)
    (hlive : s'.live = s.live) (hnext : s'.nextWork = s.nextWork) (htidx : s'.tidx = s.tidx)
    (hlog : s'.log = s.log) : s'.ledger place = s.ledger place := by
  rw [ledger, ledger, hjobs, hlive, hnext, htidx, hlog]

/-- **The jobs are where `place` says.** -/
structure Views (s : State) (place : Addr → Option Place) : Prop where
  store : s.store.WellFormed
  queue : ∀ q a, s.store.Linked q a ↔ place a = some (.queue q)
  call : ∀ t c a, (s.call t = c ∧ c.job = some a) ↔ place a = some (.call t c)
  run : ∀ i a k v, ((s.worker i).pc.current = some (a, k) ∧ (s.worker i).via = v) ↔
    place a = some (.run i k v)
  next : ∀ i a v, ((s.worker i).pc.following = some a ∧ (s.worker i).via = v) ↔
    place a = some (.next i v)
  callers : ∀ i c d, (s.worker i).pc = .complete c d → c.callers = []
  reread : ∀ t b w, s.call t = .reread b w → w < s.nextWork

section Views

variable {s s' : State} {place : Addr → Option Place} {a b c : Addr} {p d r : Place}
variable {i : Nat} {k : Stage} {t : Tid} {w : Worker}

/-- Moving a job does not change who is in the other places. -/
theorem update_place_iff (ha : place a = some p) (hp : p ≠ r) (hd : d ≠ r) :
    Function.update place a (some d) b = some r ↔ place b = some r := by
  by_cases hb : b = a
  · subst hb
    simp [ha, hp, hd]
  · rw [Function.update_of_ne hb]

/-- The worker `i` goes on at `w`, and the jobs are in `place'` then. -/
theorem Views.worker {place' : Addr → Option Place} (h : Views s place)
    (hstore : s'.store.WellFormed)
    (hqueue : ∀ q a, s'.store.Linked q a ↔ place' a = some (.queue q))
    (hcall : s'.call = s.call)
    (hcallp : ∀ t c a, place' a = some (.call t c) ↔ place a = some (.call t c))
    (hnext : s'.nextWork = s.nextWork) (hw : s'.worker = Function.update s.worker i w)
    (hrun : ∀ a k v, (w.pc.current = some (a, k) ∧ w.via = v) ↔ place' a = some (.run i k v))
    (hfol : ∀ a v, (w.pc.following = some a ∧ w.via = v) ↔ place' a = some (.next i v))
    (hother : ∀ j ≠ i, ∀ a, (∀ k v, place' a = some (.run j k v) ↔ place a = some (.run j k v)) ∧
      ∀ v, place' a = some (.next j v) ↔ place a = some (.next j v))
    (hcal : ∀ c d, w.pc = .complete c d → c.callers = []) : Views s' place' where
  store := hstore
  queue := hqueue
  call t c a := by
    rw [hcall, hcallp]
    exact h.call t c a
  run j a k v := by
    rw [hw]
    by_cases hj : j = i
    · subst hj
      rw [Function.update_self]
      exact hrun a k v
    · rw [Function.update_of_ne hj, (hother j hj a).1]
      exact h.run j a k v
  next j a v := by
    rw [hw]
    by_cases hj : j = i
    · subst hj
      rw [Function.update_self]
      exact hfol a v
    · rw [Function.update_of_ne hj, (hother j hj a).2]
      exact h.next j a v
  callers j c d hj := by
    rw [hw] at hj
    by_cases hji : j = i
    · subst hji
      rw [Function.update_self] at hj
      exact hcal c d hj
    · rw [Function.update_of_ne hji] at hj
      exact h.callers j c d hj
  reread t b v hr := by
    rw [hnext]
    exact h.reread t b v (hcall ▸ hr)

/-- The worker `i` goes on with the jobs it has. -/
theorem Views.quiet (h : Views s place) (hstore : s'.store = s.store) (hcall : s'.call = s.call)
    (hnext : s'.nextWork = s.nextWork) (hw : s'.worker = Function.update s.worker i w)
    (hcur : w.pc.current = (s.worker i).pc.current)
    (hfol : w.pc.following = (s.worker i).pc.following)
    (hvia : w.via = (s.worker i).via ∨ (w.pc.current = none ∧ w.pc.following = none))
    (hcal : ∀ c d, w.pc = .complete c d → c.callers = []) : Views s' place := by
  refine h.worker (hstore ▸ h.store) (fun q a => hstore ▸ h.queue q a) hcall
    (fun _ _ _ => Iff.rfl) hnext hw (fun a k v => ?_) (fun a v => ?_)
    (fun _ _ _ => ⟨fun _ _ => Iff.rfl, fun _ => Iff.rfl⟩) hcal
  · rw [← h.run i a k v, ← hcur]
    rcases hvia with hvia | ⟨hnone, -⟩
    · rw [hvia]
    · simp [hnone]
  · rw [← h.next i a v, ← hfol]
    rcases hvia with hvia | ⟨-, hnone⟩
    · rw [hvia]
    · simp [hnone]

theorem Views.current (h : Views s place) (hcur : (s.worker i).pc.current = some (a, k)) :
    place a = some (.run i k (s.worker i).via) := (h.run i a k _).mp ⟨hcur, rfl⟩

theorem Views.popped {q : QueueId} {st : Store QueueId Addr} (h : Views s place)
    (hpop : s.store.pop q = (some a, st)) : place a = some (.queue q) :=
  (h.queue q a).mp (h.store.pop_some hpop).2.1

/-- A worker without a job takes one out of a queue. -/
theorem Views.pop {q : QueueId} {st : Store QueueId Addr} (h : Views s place)
    (hpop : s.store.pop q = (some a, st)) (hcur : (s.worker i).pc.current = none)
    (hfol : (s.worker i).pc.following = none)
    (hstore : s'.store = st) (hcall : s'.call = s.call) (hnext : s'.nextWork = s.nextWork)
    (hw : s'.worker = Function.update s.worker i w) (hcur' : w.pc.current = some (a, .started))
    (hfol' : w.pc.following = none) (hvia : w.via = none)
    (hcal : ∀ c d, w.pc = .complete c d → c.callers = []) :
    Views s' (Function.update place a (some (.run i .started none))) := by
  obtain ⟨hwf, -, hiff⟩ := h.store.pop_some hpop
  have ha : place a = some (.queue q) := h.popped hpop
  refine h.worker (hstore ▸ hwf) (fun q' b => ?_) hcall
    (fun t c b => update_place_iff ha (by simp) (by simp)) hnext hw (fun b k v => ?_)
    (fun b v => ?_) (fun j hj b => ⟨fun k v => ?_, fun v => ?_⟩) hcal
  · rw [hstore, hiff, h.queue]
    by_cases hb : b = a
    · subst hb
      simp
    · simp [hb]
  · rw [hcur', hvia]
    by_cases hb : b = a
    · subst hb
      simp
    · rw [Function.update_of_ne hb, ← h.run, hcur]
      simp [Ne.symm hb]
  · rw [hfol', update_place_iff ha (by simp) (by simp), ← h.next, hfol]
    simp
  · exact update_place_iff ha (by simp) (by simp [Ne.symm hj])
  · exact update_place_iff ha (by simp) (by simp)

/-- The current job of a worker passes a stage. -/
theorem Views.advance {m : Stage} {v v' : Option Work} (h : Views s place)
    (ha : place a = some (.run i k v)) (hstore : s'.store = s.store) (hcall : s'.call = s.call)
    (hnext : s'.nextWork = s.nextWork) (hw : s'.worker = Function.update s.worker i w)
    (hcur : w.pc.current = some (a, m)) (hvia : w.via = v')
    (hfol : w.pc.following = (s.worker i).pc.following)
    (hsame : v' = v ∨ w.pc.following = none)
    (hcal : ∀ c d, w.pc = .complete c d → c.callers = []) :
    Views s' (Function.update place a (some (.run i m v'))) := by
  obtain ⟨hcur₀, hvia₀⟩ := (h.run i a k v).mpr ha
  refine h.worker (hstore ▸ h.store) (fun q b => ?_) hcall
    (fun t c b => update_place_iff ha (by simp) (by simp)) hnext hw (fun b l u => ?_)
    (fun b u => ?_) (fun j hj b => ⟨fun l u => ?_, fun u => ?_⟩) hcal
  · rw [hstore, h.queue, update_place_iff ha (by simp) (by simp)]
  · rw [hcur, hvia]
    by_cases hb : b = a
    · subst hb
      simp
    · rw [Function.update_of_ne hb, ← h.run, hcur₀]
      simp [Ne.symm hb]
  · rw [update_place_iff ha (by simp) (by simp), ← h.next, ← hfol, hvia, hvia₀]
    rcases hsame with rfl | hnone
    · rfl
    · simp [hnone]
  · exact update_place_iff ha (by simp [Ne.symm hj]) (by simp [Ne.symm hj])
  · exact update_place_iff ha (by simp) (by simp)

/-- A worker gets hold of the job behind the one it just ran. -/
theorem Views.follow (h : Views s place) (hc : place c = some (.cont b))
    (hfol : (s.worker i).pc.following = none) (hstore : s'.store = s.store)
    (hcall : s'.call = s.call) (hnext : s'.nextWork = s.nextWork)
    (hw : s'.worker = Function.update s.worker i w)
    (hcur : w.pc.current = (s.worker i).pc.current) (hvia : w.via = (s.worker i).via)
    (hfol' : w.pc.following = some c)
    (hcal : ∀ c d, w.pc = .complete c d → c.callers = []) :
    Views s' (Function.update place c (some (.next i w.via))) := by
  refine h.worker (hstore ▸ h.store) (fun q x => ?_) hcall
    (fun u e x => update_place_iff hc (by simp) (by simp)) hnext hw (fun x l u => ?_)
    (fun x u => ?_) (fun j hj x => ⟨fun l u => ?_, fun u => ?_⟩) hcal
  · rw [hstore, h.queue, update_place_iff hc (by simp) (by simp)]
  · rw [update_place_iff hc (by simp) (by simp), ← h.run, hcur, hvia]
  · rw [hfol']
    by_cases hx : x = c
    · subst hx
      simp
    · rw [Function.update_of_ne hx, ← h.next, hfol]
      simp [Ne.symm hx]
  · exact update_place_iff hc (by simp) (by simp)
  · exact update_place_iff hc (by simp) (by simp [Ne.symm hj])

/-- A worker is done with its job, puts it into a bin and goes on with the continuation. -/
theorem Views.recycle {place' : Addr → Option Place} {q : QueueId} {v : Option Work}
    {c : Option Addr} (h : Views s place)
    (ha : place a = some (.run i .recycled v)) (hc : (s.worker i).pc.following = c)
    (hstore : s'.store = s.store.push q a) (hcall : s'.call = s.call)
    (hnext : s'.nextWork = s.nextWork) (hw : s'.worker = Function.update s.worker i w)
    (hcur : w.pc = .execute c) (hvia : w.via = v)
    (ha' : place' a = some (.queue q)) (hc' : ∀ b, c = some b → place' b = some (.run i .started v))
    (hb' : ∀ b ≠ a, c ≠ some b → place' b = place b) : Views s' place' := by
  obtain ⟨hcur₀, hvia₀⟩ := (h.run i a .recycled v).mpr ha
  have hnext_iff : ∀ b, c = some b ↔ place b = some (.next i v) := by
    intro b
    rw [← h.next, hc]
    exact (and_iff_left hvia₀).symm
  obtain ⟨hwf, hlink⟩ := h.store.push (q := q) (a := a) (fun q' hq' => by
    rw [(h.queue q' a).mp hq'] at ha
    cases ha)
  -- a place that is none of the two jobs' keeps its job
  have hkeep : ∀ {r : Place}, r ≠ .run i .recycled v → r ≠ .next i v → r ≠ .queue q →
      r ≠ .run i .started v → ∀ b, place' b = some r ↔ place b = some r := by
    intro r h₁ h₂ h₃ h₄ b
    by_cases hb : b = a
    · subst hb
      rw [ha', ha]
      simp [Ne.symm h₁, Ne.symm h₃]
    · by_cases hcb : c = some b
      · rw [hc' b hcb, (hnext_iff b).mp hcb]
        simp [Ne.symm h₂, Ne.symm h₄]
      · rw [hb' b hb hcb]
  refine h.worker (hstore ▸ hwf) (fun q' b => ?_) hcall
    (fun t e b => hkeep (by simp) (by simp) (by simp) (by simp) b) hnext hw
    (fun b l u => ?_) (fun b u => ?_)
    (fun j hj b => ⟨fun l u => ?_, fun u => ?_⟩) (by simp [hcur])
  · rw [hstore, hlink, h.queue]
    by_cases hb : b = a
    · subst hb
      rw [ha, ha']
      simp [eq_comm]
    · by_cases hcb : c = some b
      · rw [hc' b hcb, (hnext_iff b).mp hcb]
        simp [hb]
      · rw [hb' b hb hcb]
        simp [hb]
  · rw [hcur, hvia]
    by_cases hb : b = a
    · subst hb
      have hne : c ≠ some b := fun hcb => by
        rw [(hnext_iff b).mp hcb] at ha
        cases ha
      cases c with
      | none => simp [Pc.current, ha']
      | some x =>
          have hxb : x ≠ b := fun hx => hne (congrArg some hx)
          simp [Pc.current, ha', hxb]
    · by_cases hcb : c = some b
      · rw [hc' b hcb]
        simp [hcb, Pc.current]
      · rw [hb' b hb hcb, ← h.run, hcur₀]
        cases c with
        | none => simp [Pc.current, Ne.symm hb]
        | some x =>
            have hxb : x ≠ b := fun hx => hcb (congrArg some hx)
            simp [Pc.current, Ne.symm hb, hxb]
  · rw [hcur]
    by_cases hb : b = a
    · subst hb
      simp [Pc.following, ha']
    · by_cases hcb : c = some b
      · simp [Pc.following, hc' b hcb]
      · rw [hb' b hb hcb, ← h.next, hc]
        simp [Pc.following, hcb]
  · exact hkeep (by simp [hj]) (by simp) (by simp) (by simp [hj]) b
  · exact hkeep (by simp) (by simp [hj]) (by simp) (by simp) b

/-- A worker without a job clears a queue. -/
theorem Views.clear {q : QueueId} (h : Views s place) (hcur : (s.worker i).pc.current = none)
    (hfol : (s.worker i).pc.following = none) (hstore : s'.store = (s.store.clear q).2)
    (hcall : s'.call = s.call) (hnext : s'.nextWork = s.nextWork)
    (hw : s'.worker = Function.update s.worker i w) (hcur' : w.pc.current = none)
    (hfol' : w.pc.following = none)
    (hcal : ∀ c d, w.pc = .complete c d → c.callers = []) :
    Views s' ((s.ledger place).drop fun p => p = .queue q).place := by
  obtain ⟨hwf, hlink⟩ := h.store.clear (q := q)
  have hkeep : ∀ {r : Place}, r ≠ .queue q → ∀ b,
      ((s.ledger place).drop fun p => p = .queue q).place b = some r ↔ place b = some r := by
    intro r hr b
    rw [Ledger.drop_place]
    exact and_iff_left hr
  refine h.worker (hstore ▸ hwf) (fun q' b => ?_) hcall (fun t c b => hkeep (by simp) b) hnext
    hw (fun b l u => ?_) (fun b u => ?_)
    (fun j hj b => ⟨fun l u => hkeep (by simp) b, fun u => hkeep (by simp) b⟩) hcal
  · rw [hstore, hlink, h.queue, Ledger.drop_place]
    simp [State.ledger]
  · rw [hkeep (by simp), ← h.run, hcur, hcur']
    simp
  · rw [hkeep (by simp), ← h.next, hfol, hfol']
    simp

/-- The storage of a job that was popped is returned. -/
theorem Views.free {q : QueueId} {st : Store QueueId Addr} (h : Views s place)
    (hpop : s.store.pop q = (some a, st)) (hstore : s'.store = st) (hcall : s'.call = s.call)
    (hnext : s'.nextWork = s.nextWork) (hw : s'.worker = s.worker) :
    Views s' ((s.ledger place).free a).place := by
  obtain ⟨hwf, -, hiff⟩ := h.store.pop_some hpop
  have ha : place a = some (.queue q) := h.popped hpop
  have hkeep : ∀ {r : Place}, r ≠ .queue q → r ≠ .cont a → ∀ b,
      ((s.ledger place).free a).place b = some r ↔ place b = some r := by
    intro r hr hr' b
    rw [Ledger.free_place]
    refine ⟨fun hb => hb.2.1, fun hb => ⟨fun hba => ?_, hb, hr'⟩⟩
    rw [hba, ha] at hb
    exact hr (Option.some.inj hb).symm
  refine ⟨hstore ▸ hwf, fun q' b => ?_, fun t c b => ?_, fun j b l u => ?_, fun j b u => ?_,
    fun j c d hj => ?_, fun t b w hr => ?_⟩
  · rw [hstore, hiff, h.queue, Ledger.free_place, and_comm]
    simp [State.ledger]
  · rw [hcall, hkeep (by simp) (by simp)]
    exact h.call t c b
  · rw [hw, hkeep (by simp) (by simp)]
    exact h.run j b l u
  · rw [hw, hkeep (by simp) (by simp)]
    exact h.next j b u
  · exact h.callers j c d (hw ▸ hj)
  · rw [hnext]
    exact h.reread t b w (hcall ▸ hr)

/-- The thread `t` goes on at `e` in its call, and the jobs are in `place'` then. -/
theorem Views.onCall {place' : Addr → Option Place} {e : Call} (h : Views s place)
    (hstore : s'.store.WellFormed)
    (hqueue : ∀ q a, s'.store.Linked q a ↔ place' a = some (.queue q))
    (hcall : s'.call = Function.update s.call t e)
    (hself : ∀ b e', (e = e' ∧ e'.job = some b) ↔ place' b = some (.call t e'))
    (hother : ∀ u ≠ t, ∀ b e', place' b = some (.call u e') ↔ place b = some (.call u e'))
    (hw : s'.worker = s.worker)
    (hrun : ∀ b j k v, place' b = some (.run j k v) ↔ place b = some (.run j k v))
    (hfol : ∀ b j v, place' b = some (.next j v) ↔ place b = some (.next j v))
    (hnext : s.nextWork ≤ s'.nextWork)
    (hread : ∀ b w, e = .reread b w → w < s'.nextWork) : Views s' place' where
  store := hstore
  queue := hqueue
  call u e' b := by
    rw [hcall]
    by_cases hu : u = t
    · subst hu
      rw [Function.update_self]
      exact hself b e'
    · rw [Function.update_of_ne hu, hother u hu]
      exact h.call u e' b
  run j b k v := by
    rw [hw, hrun]
    exact h.run j b k v
  next j b v := by
    rw [hw, hfol]
    exact h.next j b v
  callers j c d hj := h.callers j c d (hw ▸ hj)
  reread u b w hr := by
    rw [hcall] at hr
    by_cases hu : u = t
    · subst hu
      rw [Function.update_self] at hr
      exact hread b w hr
    · rw [Function.update_of_ne hu] at hr
      exact (h.reread u b w hr).trans_le hnext

/-- The call goes on with the job it has. -/
theorem Views.callOn {e f : Call} (h : Views s place) (ha : place a = some (.call t e))
    (hstore : s'.store = s.store) (hcall : s'.call = Function.update s.call t f)
    (hjob : f.job = some a) (hw : s'.worker = s.worker) (hnext : s'.nextWork = s.nextWork) :
    Views s' (Function.update place a (some (.call t f))) := by
  obtain ⟨he, -⟩ := (h.call t e a).mpr ha
  refine h.onCall (hstore ▸ h.store) (fun q b => ?_) hcall (fun b g => ?_)
    (fun u hu b g => update_place_iff ha (by simp [Ne.symm hu]) (by simp [Ne.symm hu])) hw
    (fun b j k v => update_place_iff ha (by simp) (by simp))
    (fun b j v => update_place_iff ha (by simp) (by simp)) hnext.ge (fun b w hr => ?_)
  · rw [hstore, h.queue, update_place_iff ha (by simp) (by simp)]
  · by_cases hb : b = a
    · subst hb
      rw [Function.update_self]
      constructor
      · rintro ⟨rfl, -⟩
        rfl
      · intro hg
        obtain rfl : f = g := by simpa using hg
        exact ⟨rfl, hjob⟩
    · rw [Function.update_of_ne hb, ← h.call]
      constructor
      · rintro ⟨rfl, hf⟩
        exact absurd (Option.some.inj (hf.symm.trans hjob)) hb
      · rintro ⟨rfl, hf⟩
        rw [he] at hf
        have hea : e.job = some a := ((h.call t e a).mpr ha).2
        exact absurd (Option.some.inj (hf.symm.trans hea)) hb
  · rw [hr] at hjob
    cases hjob

/-- The call gives its job away and goes on at `e` without one. -/
theorem Views.callEnd {place' : Addr → Option Place} {e e' : Call} (h : Views s place)
    (ha : place a = some (.call t e')) (hstore : s'.store.WellFormed)
    (hqueue : ∀ q b, s'.store.Linked q b ↔ place' b = some (.queue q))
    (hcall : s'.call = Function.update s.call t e) (hjob : e.job = none)
    (hw : s'.worker = s.worker) (hnext : s'.nextWork = s.nextWork)
    (hread : ∀ b w, e = .reread b w → w < s.nextWork)
    (hself : ∀ e', place' a ≠ some (.call t e'))
    (hplace : ∀ b r, (∀ q, r ≠ .queue q) → (∀ x, r ≠ .cont x) → (∀ f, r ≠ .call t f) →
      (place' b = some r ↔ place b = some r))
    (hmine : ∀ b f, b ≠ a → place' b = some (.call t f) → place b = some (.call t f)) :
    Views s' place' := by
  obtain ⟨he, hea⟩ := (h.call t e' a).mpr ha
  refine h.onCall hstore hqueue hcall (fun b f => ?_)
    (fun u hu b f => hplace b _ (by simp) (by simp) (by simp [hu])) hw
    (fun b j k v => hplace b _ (by simp) (by simp) (by simp))
    (fun b j v => hplace b _ (by simp) (by simp) (by simp)) hnext.ge
    (fun b w hr => hnext ▸ hread b w hr)
  constructor
  · rintro ⟨rfl, hf⟩
    rw [hjob] at hf
    cases hf
  · intro hb
    by_cases hba : b = a
    · exact absurd (hba ▸ hb) (hself f)
    · obtain ⟨rfl, hf⟩ := (h.call t f b).mpr (hmine b f hba hb)
      rw [he] at hf
      exact absurd (Option.some.inj (hf.symm.trans hea)) hba

/-- The call pushes its job. -/
theorem Views.push {q : QueueId} {e : Call} (h : Views s place)
    (ha : place a = some (.call t e)) (hstore : s'.store = s.store.push q a)
    (hcall : s'.call = Function.update s.call t .idle) (hw : s'.worker = s.worker)
    (hnext : s'.nextWork = s.nextWork) :
    Views s' (Function.update place a (some (.queue q))) := by
  obtain ⟨hwf, hlink⟩ := h.store.push (q := q) (a := a) (fun q' hq' => by
    rw [(h.queue q' a).mp hq'] at ha
    cases ha)
  refine h.callEnd ha (hstore ▸ hwf) (fun q' b => ?_) hcall rfl hw hnext (by simp) (by simp)
    (fun b r hq hx hf => update_place_iff ha (hf e).symm (hq q).symm) (fun b f hb hbf => ?_)
  · rw [hstore, hlink, h.queue]
    by_cases hb : b = a
    · subst hb
      rw [ha]
      simp [eq_comm]
    · simp [hb]
  · rwa [Function.update_of_ne hb] at hbf

/-- The call writes `m_Continuation`. -/
theorem Views.attach {v : Work} {e : Call} (of : Work) (h : Views s place)
    (ha : place a = some (.call t e)) (hstore : s'.store = s.store)
    (hcall : s'.call = Function.update s.call t (.reread b v)) (hv : v < s.nextWork)
    (hw : s'.worker = s.worker) (hnext : s'.nextWork = s.nextWork) :
    Views s' ((s.ledger place).attach b of a).place := by
  have hplace : ∀ x r, (∀ y, r ≠ .cont y) →
      (((s.ledger place).attach b of a).place x = some r ↔ x ≠ a ∧ place x = some r) := by
    intro x r hr
    rw [Ledger.attach_place]
    constructor
    · rintro (⟨-, -, hrb⟩ | ⟨hx, hxr, -⟩)
      · exact absurd hrb (hr b)
      · exact ⟨hx, hxr⟩
    · rintro ⟨hx, hxr⟩
      exact Or.inr ⟨hx, hxr, hr b⟩
  have hkeep : ∀ x r, r ≠ .call t e → (∀ y, r ≠ .cont y) →
      (((s.ledger place).attach b of a).place x = some r ↔ place x = some r) := by
    intro x r hr hr'
    rw [hplace x r hr']
    refine ⟨And.right, fun hx => ⟨fun hxa => ?_, hx⟩⟩
    rw [hxa, ha] at hx
    exact hr (Option.some.inj hx).symm
  refine h.callEnd ha (hstore ▸ h.store) (fun q x => ?_) hcall rfl hw hnext (fun x u hx => ?_)
    (fun f hf => ?_) (fun x r _ hx hf => hkeep x r (hf e) hx) (fun x f hx hxf => ?_)
  · rw [hstore, h.queue, hkeep x _ (by simp) (by simp)]
  · obtain ⟨-, rfl⟩ := Call.reread.inj hx
    exact hv
  · exact ((hplace a _ (by simp)).mp hf).1 rfl
  · exact ((hplace x _ (by simp)).mp hxf).2

/-- A thread that is in no call gets a job for a new one. -/
theorem Views.construct {e : Call} {st : Store QueueId Addr} (h : Views s place)
    (hidle : s.call t = .idle) (hwf : st.WellFormed)
    (hlink : ∀ q b, st.Linked q b ↔ s.store.Linked q b ∧ b ≠ a)
    (ha : ∀ p, place a = some p → ∃ q, p = .queue q)
    (hstore : s'.store = st) (hcall : s'.call = Function.update s.call t e)
    (hjob : e.job = some a) (hw : s'.worker = s.worker)
    (hnext : s'.nextWork = s.nextWork + 1) :
    Views s' (Function.update place a (some (.call t e))) := by
  have hkeep : ∀ {r : Place}, (∀ q, r ≠ .queue q) → r ≠ .call t e → ∀ b,
      Function.update place a (some (.call t e)) b = some r ↔ place b = some r := by
    intro r hr hr' b
    by_cases hb : b = a
    · subst hb
      rw [Function.update_self]
      constructor
      · intro hcr
        exact absurd (Option.some.inj hcr).symm hr'
      · intro hbr
        obtain ⟨q, hq⟩ := ha r hbr
        exact absurd hq (hr q)
    · rw [Function.update_of_ne hb]
  refine h.onCall (hstore ▸ hwf) (fun q b => ?_) hcall (fun b f => ?_)
    (fun u hu b f => hkeep (by simp) (by simp [hu]) b) hw
    (fun b j k v => hkeep (by simp) (by simp) b) (fun b j v => hkeep (by simp) (by simp) b)
    (hnext ▸ Nat.le_succ _) (fun b w hr => ?_)
  · rw [hstore, hlink, h.queue]
    by_cases hb : b = a
    · subst hb
      simp
    · simp [hb]
  · by_cases hb : b = a
    · subst hb
      rw [Function.update_self]
      constructor
      · rintro ⟨rfl, -⟩
        rfl
      · intro hf
        obtain rfl : e = f := by simpa using hf
        exact ⟨rfl, hjob⟩
    · rw [Function.update_of_ne hb, ← h.call, hidle]
      constructor
      · rintro ⟨rfl, hf⟩
        exact absurd (Option.some.inj (hf.symm.trans hjob)) hb
      · rintro ⟨rfl, hf⟩
        cases hf
  · rw [hr] at hjob
    cases hjob

end Views

/-! ## Every step is a move -/

section Steps

variable {P : Policy}
variable {s s' : State} {place : Addr → Option Place} {i : Nat} {t : Tid} {x : Action}

/-- **What the ledger does** when the action `x` takes the state `s`, with the jobs in `place`,
to `s'`. -/
inductive Simulated (P : Policy) (s : State) (place : Addr → Option Place) (x : Action)
    (s' : State) : Prop
  | stutter (h : Views s' place) (hl : s'.ledger place = s.ledger place)
  | move {place' : Addr → Option Place} (h : Views s' place')
      (hm : Move s.numThreads P (s.ledger place) (s'.ledger place'))
  | free {place' : Addr → Option Place} {i : Nat} {r : Resource} {a : Addr} (h : Views s' place')
      (hx : x = .work i) (hpc : (s.worker i).pc = .drain r)
      (ha : place a = some (.queue (r.queue i)))
      (hl : s'.ledger place' = (s.ledger place).free a)
  | clear {place' : Addr → Option Place} {i : Nat} {r : Resource} {e : Event}
      (h : Views s' place') (hx : x = .work i) (hpc : (s.worker i).pc = .drainClear r)
      (he : e.Note (s.ledger place))
      (hl : s'.ledger place' =
        ((s.ledger place).drop fun p => p = .queue (r.queue i)).record e)

/-- `construct` and the begin of the call that it is for. -/
theorem construct_simulated {parent : Option Addr} {threadIndex : Option Nat} {fresh : Addr}
    {e : Addr → Call} (h : Views s place) (ho : (s.ledger place).InOrder)
    (hidle : s.call t = .idle) (hfresh : fresh ∉ s.live) (hjob : ∀ a, (e a).job = some a)
    (he : ∀ a, (e a).Begins P (s.ledger place) t a (s.origin parent threadIndex)) :
    Simulated P s place x
      ((construct s t parent threadIndex fresh).1.setCall t
        (e (construct s t parent threadIndex fresh).2)) := by
  rcases construct_cases s t parent threadIndex fresh with ⟨a, st, hpop, hs⟩ | ⟨st, hpop, hs⟩
  · -- a recycled storage is used again
    obtain ⟨hwf, hla, hiff⟩ := h.store.pop_some hpop
    have ha : place a = some (.queue (.recyclingBin t)) := (h.queue _ a).mp hla
    have hout : ∀ q, ¬ st.Linked q a := fun q hq => (hiff.mp hq).2 rfl
    obtain ⟨hwf', hlink⟩ := hwf.clearNext hout
    rw [hs]
    refine Simulated.move (h.construct (a := a) hidle hwf' (fun q b => hlink.trans hiff)
      (fun p hp => ⟨_, Option.some.inj (hp.symm.trans ha)⟩) rfl rfl (hjob a) rfl rfl) ?_
    have hm : Move s.numThreads P (s.ledger place)
        ((s.ledger place).construct a (.call t (e a)) (s.origin parent threadIndex)) :=
      Move.construct ha (he a)
    have hlive : a ∈ s.live := ho.valid.live ha
    simpa [Ledger.construct, Ledger.record, State.ledger, State.setCall, State.origin,
      Function.comp_def, hlive] using hm
  · -- the bin is empty: the storage `fresh` is allocated
    obtain ⟨rfl, -⟩ := h.store.pop_none hpop
    have hnone : ∀ p, place fresh ≠ some p := fun p hp => hfresh (ho.valid.live hp)
    have hout : ∀ q, ¬ s.store.Linked q fresh := fun q hq => hnone _ ((h.queue q fresh).mp hq)
    obtain ⟨hwf, hlink⟩ := h.store.clearNext hout
    rw [hs]
    refine Simulated.move (h.construct (a := fresh) hidle hwf (fun q b => ?_)
      (fun p hp => absurd hp (hnone p)) rfl rfl (hjob fresh) rfl rfl) ?_
    · rw [hlink]
      exact ⟨fun hb => ⟨hb, fun hba => hout q (hba ▸ hb)⟩, And.left⟩
    · have hm : Move s.numThreads P (s.ledger place)
          (((s.ledger place).record (.allocated fresh)).construct fresh (.call t (e fresh))
            (s.origin parent threadIndex)) := Move.allocate hfresh (he fresh)
      simpa [Ledger.construct, Ledger.record, State.ledger, State.setCall, State.origin,
        Function.comp_def, hfresh] using hm

/-- The rest of `schedule_work` and of `Job::then`. -/
theorem callStep_simulated (h : Views s place) (ho : (s.ledger place).InOrder)
    (hatt : ∀ {b of a}, s.call t = .attach b of a → P.attaches b of a)
    (hs : callStep s t = some s') : Simulated P s place x s' := by
  have hheld : ∀ {e a}, s.call t = e → e.job = some a → place a = some (.call t e) :=
    fun he ha => (h.call t _ _).mp ⟨he, ha⟩
  cases callStep_move hs with
  | @shared a hc hti =>
      exact Simulated.move (h.callOn (f := .balance a) (hheld hc rfl) rfl rfl rfl rfl rfl)
        (Move.route (hheld hc rfl) (Or.inl ⟨rfl, hti⟩))
  | @own a hc hti =>
      exact Simulated.move (h.callOn (f := .pushLocal a) (hheld hc rfl) rfl rfl rfl rfl rfl)
        (Move.route (hheld hc rfl) (Or.inr ⟨rfl, hti⟩))
  | @balance a hc =>
      exact Simulated.move (h.callOn (f := .pushGlobal a) (hheld hc rfl) rfl rfl rfl rfl rfl)
        (Move.balance (hheld hc rfl))
  | pushGlobal hc =>
      exact Simulated.move (h.push (hheld hc rfl) rfl rfl rfl rfl)
        (Move.push (hheld hc rfl) (Or.inl ⟨rfl, rfl⟩))
  | pushLocal hc =>
      exact Simulated.move (h.push (hheld hc rfl) rfl rfl rfl rfl)
        (Move.push (hheld hc rfl) (Or.inr ⟨rfl, rfl⟩))
  | @attach a b of hc =>
      have ha : place a = some (.call t (.attach b of a)) := hheld hc rfl
      have hlt : (s.jobs a).work < s.nextWork := ho.valid.work_lt (ho.valid.live ha)
      exact Simulated.move (h.attach of ha rfl rfl hlt rfl rfl) (Move.attach ha (hatt hc))
  | @reread b w hc =>
      have hnote : (Event.returned w (s.jobs b).continuation).Note (s.ledger place) :=
        h.reread t b w hc
      refine Simulated.move (h := ?_) (Move.note hnote)
      refine h.onCall h.store h.queue rfl (fun a f => ?_) (fun _ _ _ _ => Iff.rfl) rfl
        (fun _ _ _ _ => Iff.rfl) (fun _ _ _ => Iff.rfl) le_rfl (by simp)
      show _ ↔ place a = _
      rw [← h.call, hc]
      constructor
      · rintro ⟨rfl, hf⟩
        cases hf
      · rintro ⟨rfl, hf⟩
        cases hf

/-- A worker without a job tries to take one out of a queue. -/
theorem pop_simulated {q : QueueId} {o : Option Addr} {st : Store QueueId Addr} {w : Worker}
    (h : Views s place) (hcur : (s.worker i).pc.current = none)
    (hfol : (s.worker i).pc.following = none)
    (hq : q = .localQueue i ∨ ∃ k, q = .globalQueue k) (hpop : s.store.pop q = (o, st))
    (hcur' : w.pc.current = o.map fun a => (a, .started)) (hfol' : w.pc.following = none)
    (hvia : ∀ a, o = some a → w.via = none) (hcal : ∀ c d, w.pc ≠ .complete c d) :
    Simulated P s place x
      { s with worker := Function.update s.worker i w, store := st } := by
  have hcallers : ∀ c d, w.pc = .complete c d → c.callers = [] :=
    fun c d hcd => absurd hcd (hcal c d)
  cases o with
  | none =>
      -- the queue is empty, and stays as it is
      obtain ⟨rfl, -⟩ := h.store.pop_none hpop
      exact Simulated.stutter (h.quiet rfl rfl rfl rfl (hcur'.trans hcur.symm)
        (hfol'.trans hfol.symm) (Or.inr ⟨hcur', hfol'⟩) hcallers) rfl
  | some a =>
      exact Simulated.move (h.pop hpop hcur hfol rfl rfl rfl rfl hcur' hfol' (hvia a rfl)
        hcallers) (Move.pop (h.popped hpop) hq)

/-- `l_CurrentJob->m_Continuation` -/
theorem readContinuation_simulated {a : Addr} (h : Views s place)
    (ho : (s.ledger place).InOrder) (hpc : (s.worker i).pc = .readContinuation a)
    (hfollows : ∀ c, (s.jobs a).continuation = some c → P.follows i c)
    (hs : workerStep s i = some s') : Simulated P s place x s' := by
  have ha : place a = some (.run i .continuationRead (s.worker i).via) :=
    h.current (by rw [hpc]; rfl)
  have hfol : (s.worker i).pc.following = none := by rw [hpc]; rfl
  simp only [workerStep, hpc] at hs
  obtain rfl := Option.some.inj hs
  have hm : Move s.numThreads P (s.ledger place)
      (((s.ledger place).put a (.run i .countedOff (some (s.jobs a).work))).record
        (.continuationRead (s.jobs a).work) |>.putCont (s.jobs a).continuation
          (.next i (some (s.jobs a).work))) := Move.readContinuation ha hfollows
  cases hc : (s.jobs a).continuation with
  | none =>
      rw [hc, Ledger.putCont_none] at hm
      exact Simulated.move (h.advance ha rfl rfl rfl rfl rfl rfl hfol.symm (Or.inr rfl) (by simp))
        hm
  | some c =>
      rw [hc, Ledger.putCont_some] at hm
      -- first the stage, then the job that was behind `a`
      have hadv : Views (s.gotoVia i (.handOver a none) (some (s.jobs a).work))
          (Function.update place a (some (.run i .countedOff (some (s.jobs a).work)))) :=
        h.advance ha rfl rfl rfl rfl rfl rfl hfol.symm (Or.inr rfl) (by simp)
      have hca : place c = some (.cont a) := ho.behind ha hc
      have hca' : Function.update place a (some (.run i .countedOff (some (s.jobs a).work))) c =
          some (.cont a) := Ledger.put_place_keep (L := s.ledger place) ha hca (by simp)
      refine Simulated.move (hadv.follow (w := { s.worker i with
        pc := .handOver a (some c), via := some (s.jobs a).work }) hca' ?_ rfl rfl rfl ?_
        ?_ ?_ rfl (by simp)) hm
      · simp [State.gotoVia, Pc.following]
      · simp [State.gotoVia, State.record]
      · simp [State.gotoVia, Pc.current]
      · simp [State.gotoVia]

/-- `job_completed(l_CurrentJob)`, for a job without a parent. -/
theorem complete_simulated {c : Completion} {d : Option Addr} (h : Views s place)
    (ho : (s.ledger place).InOrder) (hpc : (s.worker i).pc = .complete c d)
    (htell : ∀ a ∈ (s.worker i).pc.tells, (s.jobs a).parent = none)
    (hs : workerStep s i = some s') : Simulated P s place x s' := by
  have hcal := h.callers i c d hpc
  have hfol : (s.worker i).pc.following = d := by rw [hpc]; rfl
  cases c with
  | fetchSub a callers =>
      obtain rfl : callers = [] := hcal
      have ha : place a = some (.run i .countedOff (s.worker i).via) := h.current (by rw [hpc]; rfl)
      -- the job was not counted off before
      have hone : (s.jobs a).numChildren = 1 := ho.valid.counter_one (ho.valid.live ha)
        (fun hoff => lt_irrefl _ ((ho.valid.mem_trail_iff ha).mp hoff))
      simp only [workerStep, hpc, completionStep, hone] at hs
      obtain rfl := Option.some.inj hs
      refine Simulated.move (h.advance (m := .completed) ha rfl rfl rfl rfl rfl rfl
        (by rw [hfol]; rfl) (Or.inl rfl) ?_) (Move.fetchSub ha)
      rintro c d hcd
      cases hcd
      rfl
  | ascend a callers =>
      obtain rfl : callers = [] := hcal
      have ha : place a = some (.run i .completed (s.worker i).via) := h.current (by rw [hpc]; rfl)
      have hpar : (s.jobs a).parent = none := htell a (by rw [hpc]; rfl)
      simp only [workerStep, hpc, completionStep, hpar] at hs
      obtain rfl := Option.some.inj hs
      refine Simulated.move (h.advance (m := .recycled) ha rfl rfl rfl rfl rfl rfl
        (by rw [hfol]; rfl) (Or.inl rfl) ?_)
        (Move.advance ha (Or.inr (Or.inr ⟨rfl, rfl⟩)))
      rintro c d hcd
      cases hcd
      rfl
  | recycle a callers =>
      obtain rfl : callers = [] := hcal
      have ha : place a = some (.run i .recycled (s.worker i).via) := h.current (by rw [hpc]; rfl)
      have hnext : ∀ b, d = some b ↔ (s.ledger place).place b = some (.next i (s.worker i).via) := by
        intro b
        show _ ↔ place b = _
        rw [← h.next, hfol]
        exact (and_iff_left rfl).symm
      obtain ⟨q, hq, hrec⟩ := recycle_eq s (.worker i) a
      simp only [workerStep, hpc, completionStep, hrec, unwind] at hs
      obtain rfl := Option.some.inj hs
      have hm : Move s.numThreads P (s.ledger place)
          ((((s.ledger place).put a (.queue q)).record (.recycled (s.jobs a).work)).putCont d
            (.run i .started (s.worker i).via)) := Move.recycle ha hq hnext
      refine Simulated.move ?_ (show Move _ _ _ (State.ledger _ (((s.ledger place).put a
        (.queue q)).record (.recycled (s.jobs a).work) |>.putCont d
          (.run i .started (s.worker i).via)).place) by cases d <;> exact hm)
      refine h.recycle (q := q) (c := d) ha hfol rfl rfl rfl rfl rfl rfl ?_ ?_ ?_
      · cases d with
        | none => simp [State.ledger, Ledger.put, Ledger.record, Ledger.putCont]
        | some x =>
            have hne : a ≠ x := (Ledger.ne_of_place ha ((hnext x).mp rfl) (by simp)).symm
            simp [State.ledger, Ledger.put, Ledger.record, Ledger.putCont, hne]
      · rintro b rfl
        simp [State.ledger, Ledger.put, Ledger.record, Ledger.putCont]
      · intro b hb hd
        cases d with
        | none => simp [State.ledger, Ledger.put, Ledger.record, Ledger.putCont, hb]
        | some x =>
            have hx : b ≠ x := fun hbx => hd (congrArg some hbx.symm)
            simp [State.ledger, Ledger.put, Ledger.record, Ledger.putCont, hb, hx]

/-- The steps in which a worker only changes its own variables and the atomic flags. -/
theorem quiet_simulated {w : Worker} {pc : Pc} (h : Views s place) (hpc : (s.worker i).pc = pc)
    (hstore : s'.store = s.store) (hcall : s'.call = s.call)
    (hw : s'.worker = Function.update s.worker i w) (hcur : w.pc.current = pc.current)
    (hfol : w.pc.following = pc.following) (hvia : w.via = (s.worker i).via)
    (hcal : ∀ c d, w.pc = .complete c d → c.callers = [])
    (hl : s'.ledger place = s.ledger place ∨
      ∃ e, e.Note (s.ledger place) ∧ s'.ledger place = (s.ledger place).record e) :
    Simulated P s place x s' := by
  have hnext : s'.nextWork = s.nextWork := by
    rcases hl with hl | ⟨e, -, hl⟩
    · exact congrArg Ledger.nextWork hl
    · exact congrArg Ledger.nextWork hl
  subst hpc
  have hv : Views s' place := h.quiet hstore hcall hnext hw hcur hfol (Or.inl hvia) hcal
  rcases hl with hl | ⟨e, he, hl⟩
  · exact Simulated.stutter hv hl
  · exact Simulated.move hv (hl ▸ Move.note he)

/-- **One step of a worker.** -/
theorem workerStep_simulated (h : Views s place) (ho : (s.ledger place).InOrder)
    (htell : ∀ a ∈ (s.worker i).pc.tells, (s.jobs a).parent = none)
    (hfollows : ∀ {a c}, (s.worker i).pc = .readContinuation a →
      (s.jobs a).continuation = some c → P.follows i c)
    (hs : workerStep s i = some s') : Simulated P s place (.work i) s' := by
  cases workerStep_move hs with
  | start hpc | arrive hpc | released hpc | stealInit hpc | stay hpc | leave hpc | hasJob hpc
  | stealOn hpc | stealEnd hpc | stealNext hpc | noJob hpc | storeTrace hpc | idle hpc =>
      exact quiet_simulated h hpc rfl rfl rfl rfl rfl rfl (by simp) (Or.inl rfl)
  | spin => exact Simulated.stutter h rfl
  | @stealCount o hpc =>
      refine quiet_simulated h hpc rfl rfl rfl ?_ rfl rfl (by simp) (Or.inl rfl)
      cases o <;> rfl
  | countdown hpc =>
      refine quiet_simulated h hpc rfl rfl rfl ?_ ?_ rfl ?_
        (Or.inl (State.ledger_congr rfl rfl rfl rfl rfl))
      all_goals by_cases hone : s.numThreads = 1 <;> simp [hone, Pc.current, Pc.following]
  | saveTracelog hpc =>
      exact quiet_simulated h hpc rfl rfl rfl rfl rfl rfl (by simp)
        (Or.inr ⟨.saved i, trivial, rfl⟩)
  | setComplete hpc =>
      exact quiet_simulated h hpc rfl rfl rfl rfl rfl rfl (by simp)
        (Or.inr ⟨.shutdownCompleted, trivial, rfl⟩)
  | noLocal hpc hpop | popLocal hpc hpop =>
      exact pop_simulated h (by rw [hpc]; rfl) (by rw [hpc]; rfl) (Or.inl rfl) hpop rfl rfl
        (by simp) (by simp)
  | @popGlobal o st hpc hpop =>
      refine pop_simulated h (by rw [hpc]; rfl) (by rw [hpc]; rfl) (Or.inr ⟨i, rfl⟩) hpop ?_ rfl
        (by simp) (by simp)
      cases o <;> rfl
  | @stealPop n o st hpc hpop =>
      refine pop_simulated h (by rw [hpc]; rfl) (by rw [hpc]; rfl) (Or.inr ⟨_, rfl⟩) hpop ?_ rfl
        (by simp) (by simp)
      cases o <;> rfl
  | execute hpc =>
      exact Simulated.move (h.advance (h.current (by rw [hpc]; rfl)) rfl rfl rfl rfl rfl rfl
        (by rw [hpc]; rfl) (Or.inl rfl) (by simp))
        (Move.advance (h.current (by rw [hpc]; rfl)) (Or.inl ⟨rfl, rfl⟩))
  | readContinuation hpc => exact readContinuation_simulated h ho hpc (fun c => hfollows hpc) hs
  | @handOver a c hpc =>
      -- the job has no parent to hand over
      have hpar : handOver s a c = s := by
        have hnone : (s.jobs a).parent = none := htell a (by rw [hpc]; rfl)
        cases c <;> simp [handOver, hnone]
      rw [hpar]
      refine quiet_simulated h hpc rfl rfl rfl rfl rfl rfl ?_ (Or.inl rfl)
      rintro c d hcd
      cases hcd
      rfl
  | complete hpc | completed hpc => exact complete_simulated h ho hpc htell hs
  | collect hpc =>
      exact Simulated.move (h.clear (by rw [hpc]; rfl) (by rw [hpc]; rfl) rfl rfl rfl rfl rfl
        rfl (by simp)) Move.collect
  | drain hpc hpop =>
      exact Simulated.free (h.free hpop rfl rfl rfl rfl) rfl hpc (h.popped hpop) rfl
  | @drained r st hpc hpop =>
      obtain ⟨rfl, -⟩ := h.store.pop_none hpop
      exact quiet_simulated h hpc rfl rfl rfl rfl rfl rfl (by simp) (Or.inl rfl)
  | @drainClear r hpc =>
      refine Simulated.clear (h.clear (by rw [hpc]; rfl) (by rw [hpc]; rfl) rfl rfl rfl rfl
        ?_ ?_ ?_) rfl hpc (e := .drained i r) trivial rfl
      · cases r <;> rfl
      · cases r <;> rfl
      · cases r <;> simp [Resource.next]

theorem UserCode.idle (h : UserCode s t) : s.call t = .idle := by
  cases t with
  | worker i => exact h.1
  | client c => exact h

theorem Ledger.Valid.referenced_lt {L : Ledger} {w : Work} {a : Addr} (h : L.Valid)
    (hr : .scheduled w a ∈ L.log ∨ .returned w (some a) ∈ L.log) : w < L.nextWork := by
  rcases hr with hr | hr
  · obtain ⟨p, ti, hti⟩ := h.scheduled hr
    exact (h.constructed hti).1
  · exact h.returned hr

/-- **Refinement.** As long as no worker completes a job with a parent, every step of the job
system is a step of the ledger, or none. -/
theorem step_simulated (h : Views s place) (ho : (s.ledger place).InOrder)
    (hx : s.NoneToTell x) (hP : P.Admits s x) (hs : step s x = some s') :
    Simulated P s place x s' := by
  cases x with
  | schedule t parent threadIndex fresh =>
      obtain ⟨hcode, hfresh, -, rfl⟩ := step_schedule hs
      exact construct_simulated (e := .route) h ho hcode.idle hfresh (fun _ => rfl)
        (fun _ => .schedule (hP.makes rfl))
  | jobThen t of job threadIndex fresh =>
      obtain ⟨hcode, hfresh, href, rfl⟩ := step_jobThen hs
      have hlt : of < s.nextWork := ho.valid.referenced_lt href
      exact construct_simulated (e := .attach job of) h ho hcode.idle hfresh (fun _ => rfl)
        (fun _ => .jobThen rfl hlt)
  | call t => exact callStep_simulated h ho (fun hc => hP.attaches rfl hc) hs
  | shutdown t =>
      obtain ⟨-, rfl⟩ := step_shutdown hs
      exact Simulated.stutter { h with } rfl
  | finish i =>
      obtain ⟨job, hpc, -, -, rfl⟩ := step_finish hs
      have ha : place job = some (.run i .finished (s.worker i).via) := h.current (by rw [hpc]; rfl)
      exact Simulated.move (h.advance ha rfl rfl rfl rfl rfl rfl (by rw [hpc]; rfl)
        (Or.inl rfl) (by simp)) (Move.advance ha (Or.inr (Or.inl ⟨rfl, rfl⟩)))
  | work i => exact workerStep_simulated h ho hx (hP.follows rfl) (step_work hs).2

end Steps

/-! ## Runs -/

theorem views_init (n : Nat) : Views (init n) fun _ => none where
  store := ⟨fun _ => [], fun _ => IntrusiveList.represents_nil, fun _ => rfl,
    fun h => absurd h List.not_mem_nil⟩
  queue q a := by
    simp only [reduceCtorEq, iff_false]
    intro hr
    cases hr
  call t c a := by
    simp only [init, reduceCtorEq, iff_false, not_and]
    rintro rfl
    simp [Call.job]
  run i a k v := by simp [init, Pc.current]
  next i a v := by simp [init, Pc.following]
  callers i c d := by simp [init]
  reread t b w := by simp [init]

theorem inOrder_init (n : Nat) : ((init n).ledger fun _ => none).InOrder where
  valid := by
    constructor <;> simp [State.ledger, init, trail]
    case stage_le => exact ⟨0, Nat.zero_le _, rfl⟩
  chained := by
    intro a b
    simp [State.ledger, init, Ledger.Open]

/-- The jobs are accounted for by a ledger in order. -/
def Accounted (s : State) : Prop :=
  ∃ place, Views s place ∧ (s.ledger place).InOrder

theorem accounted_init (n : Nat) : Accounted (init n) :=
  ⟨_, views_init n, inOrder_init n⟩

/-- What the ledger does keeps it in order. -/
theorem Simulated.accounted {P : Policy} {s s' : State} {place : Addr → Option Place}
    {x : Action} (h : Simulated P s place x s') (ho : (s.ledger place).InOrder) :
    ∃ place', Views s' place' ∧ (s'.ledger place').InOrder := by
  cases h with
  | stutter hv hl => exact ⟨_, hv, hl ▸ ho⟩
  | move hv hm => exact ⟨_, hv, hm.inOrder ho⟩
  | free hv _ _ ha hl => exact ⟨_, hv, hl ▸ ho.free ha⟩
  | clear hv _ _ he hl => exact ⟨_, hv, hl ▸ ho.clear he⟩

theorem Accounted.step {s s' : State} {x : Action} (h : Accounted s) (hx : s.NoneToTell x)
    (hs : step s x = some s') : Accounted s' := by
  obtain ⟨place, hv, ho⟩ := h
  exact (step_simulated hv ho hx (Policy.any_admits s x) hs).accounted ho

/-! ## Runs without parents -/

/-- No job has a parent, and none had one. -/
def State.Rootless (s : State) : Prop := (s.ledger fun _ => none).Rootless

theorem rootless_init (n : Nat) : (init n).Rootless :=
  ⟨fun _ => rfl, fun hc => by cases hc⟩

theorem State.Rootless.ledger {s : State} {place : Addr → Option Place} (h : s.Rootless) :
    (s.ledger place).Rootless := ⟨h.parent, h.constructed⟩

theorem State.Rootless.noneToTell {s : State} (h : s.Rootless) (x : Action) : s.NoneToTell x := by
  cases x with
  | work i => exact fun a _ => h.parent a
  | schedule | jobThen | call | shutdown | finish => trivial

theorem Simulated.rootless {P : Policy} {s s' : State} {place : Addr → Option Place} {x : Action}
    (h : Simulated P s place x s') (hr : s.Rootless)
    (hmakes : ∀ {t o}, P.makes t o → o.parent = none) : s'.Rootless := by
  have hr' : (s.ledger place).Rootless := hr.ledger
  have hback : ∀ {place' : Addr → Option Place}, (s'.ledger place').Rootless → s'.Rootless :=
    fun h' => ⟨h'.parent, h'.constructed⟩
  cases h with
  | stutter _ hl => exact hback (hl ▸ hr')
  | move _ hm => exact hback (hm.rootless hr' hmakes)
  | free _ _ _ _ hl => exact hback (hl ▸ hr'.free)
  | clear _ _ _ he hl => exact hback (hl ▸ hr'.clear he)

/-- A step that schedules no job with a parent. -/
theorem Accounted.step_rootless {s s' : State} {x : Action} (h : Accounted s)
    (hr : s.Rootless) (hx : x.Parentless) (hs : JobSystem.step s x = some s') : s'.Rootless := by
  obtain ⟨place, hv, ho⟩ := h
  have hP : Policy.Admits { Policy.any with makes := fun _ o => o.parent = none } s x := by
    refine ⟨fun hxs => ?_, fun _ _ => trivial, fun _ _ _ => trivial⟩
    subst hxs
    obtain rfl := hx
    rfl
  exact (step_simulated hv ho (hr.noneToTell x) hP hs).rootless hr id

/-- **Every run is accounted for**, and no job has a parent in it. -/
theorem run_rootless {n : Nat} {tr : List (State × Action)} {s : State}
    (h : Transition.Run step (init n) tr s) (hx : ∀ p ∈ tr, p.2.Parentless) :
    ∀ x ∈ Transition.visited tr s, Accounted x ∧ x.Rootless :=
  h.invariant_visited (I := fun s => Accounted s ∧ s.Rootless) (C := fun _ x => x.Parentless)
    ⟨accounted_init n, rootless_init n⟩
    (fun {_ x _} hI hx hs => ⟨hI.1.step (hI.2.noneToTell x) hs, hI.1.step_rootless hI.2 hx hs⟩) hx

theorem exists_ledger {n : Nat} {tr : List (State × Action)} {s : State}
    (h : Transition.Run step (init n) tr s) (hx : ∀ p ∈ tr, p.2.Parentless) : Accounted s :=
  (run_rootless h hx s (Transition.mem_visited_self tr s)).1

/-- So there is never a parent to tell. -/
theorem run_noneToTell {n : Nat} {tr : List (State × Action)} {s : State}
    (h : Transition.Run step (init n) tr s) (hx : ∀ p ∈ tr, p.2.Parentless) :
    ∀ p ∈ tr, p.1.NoneToTell p.2 := by
  intro p hp
  have hvis : p.1 ∈ Transition.visited tr s :=
    List.mem_cons_of_mem _ (List.mem_map_of_mem hp)
  exact (run_rootless h hx p.1 hvis).2.noneToTell p.2

end Bop.JobSystem
