import Bop.Basic.Behaviour
import Bop.JobSystem.Barrier
import Bop.JobSystem.Waiting
import Mathlib.Algebra.Order.BigOperators.Group.Finset
import Mathlib.Data.Set.Finite.Basic

set_option autoImplicit false

/-! # Fair runs

Each worker gets its turns, each call does, and each work returns that does not go on calling; jobs
are made finitely often. Then all that the threads have begun comes to an end: the load of the
job system goes down with each step in which a call or a job gets on, and never up
(`load_step`). From some time on no thread is in a call and all workers rest (`FairRun.rests`).
-/

namespace Bop.JobSystem

open Transition

/-! ## The load -/

/-- The action makes a new job. -/
def Action.Creates : Action → Prop
  | .schedule _ _ _ _ | .jobThen _ _ _ _ _ => True
  | .call _ | .shutdown _ | .finish _ | .work _ => False

/-- How many steps a call takes at most. -/
def Call.rank : Call → Nat
  | .idle => 0
  | .pushGlobal _ | .pushLocal _ | .reread _ _ => 1
  | .balance _ | .attach _ _ _ => 2
  | .route _ => 3

/-- How many steps a worker is away from its loop, or from the end of its job. -/
def Pc.rank : Pc → Nat
  | .start | .handOver _ _ => 4
  | .arrive | .complete (.fetchSub _ _) _ => 3
  | .spin | .complete (.ascend _ _) _ => 2
  | .stealInit | .complete (.recycle _ _) _ => 1
  | .running _ => 7
  | .storeTrace _ => 6
  | .readContinuation _ => 5
  | _ => 0

/-- The step of a worker here brings it into its loop, or its job nearer to the end. -/
def Pc.settling : Pc → Bool
  | .start | .arrive | .spin | .stealInit | .execute (some _) | .storeTrace _
  | .readContinuation _ | .handOver _ _ | .complete _ _ => true
  | _ => false

def Event.starting : Event → Bool
  | .started _ _ _ => true
  | _ => false

/-- The number of the works that have not been started, but one. -/
def State.unstarted (s : State) : Nat := s.nextWork - s.log.countP Event.starting

/-- What the `n` workers and the calls of the threads `S` have left to do. -/
def State.load (s : State) (n : Nat) (S : Finset Tid) : Nat :=
  8 * s.unstarted + (Finset.range n).sum (fun i => (s.worker i).pc.rank) +
    S.sum fun t => (s.call t).rank

/-- The steps in which a call or a job gets on. A worker that waits for the others in vain does
not. -/
def State.Settles (s : State) : Action → Prop
  | .work i => (s.worker i).pc.settling = true ∧
      ¬ ((s.worker i).pc = .spin ∧ s.remainingWorkers.getD 0 > 0)
  | .finish _ | .call _ => True
  | .schedule _ _ _ _ | .jobThen _ _ _ _ _ | .shutdown _ => False

section Load

variable {s s' : State} {i n : Nat} {t : Tid} {x : Action} {place : Addr → Option Place}

/-- One summand changes. -/
theorem sum_change {ι : Type} [DecidableEq ι] {S : Finset ι} {f g : ι → Nat} {i : ι} (hi : i ∈ S)
    (h : ∀ j ≠ i, g j = f j) : S.sum g + f i = S.sum f + g i := by
  have hrest : (S.erase i).sum g = (S.erase i).sum f :=
    Finset.sum_congr rfl fun j hj => h j (Finset.ne_of_mem_erase hj)
  calc S.sum g + f i
      = g i + (S.erase i).sum g + f i := by rw [← Finset.add_sum_erase S g hi]
    _ = f i + (S.erase i).sum f + g i := by omega
    _ = S.sum f + g i := by rw [← Finset.add_sum_erase S f hi]

/-- The works are started once, so not more of them than there are. -/
theorem Ledger.Valid.starting_le {L : Ledger} (h : L.Valid) :
    L.log.countP Event.starting ≤ L.nextWork := by
  let work : Event → Option Work := fun e => match e with
    | .started w _ _ => some w
    | _ => none
  have hlen : L.log.countP Event.starting = (L.log.filterMap work).length := by
    rw [List.length_filterMap_eq_countP]
    congr 1
    funext e
    cases e <;> rfl
  have hnodup : (L.log.filterMap work).Nodup := by
    refine List.nodup_iff_count_le_one.mpr fun w => ?_
    rw [List.count_filterMap]
    refine le_of_eq_of_le ?_ (h.started_le w)
    congr 1
    funext e
    cases e <;> simp [work, Event.starts, beq_eq_decide]
  have hlt : ∀ w ∈ L.log.filterMap work, w < L.nextWork := by
    intro w hw
    obtain ⟨e, he, hwe⟩ := List.mem_filterMap.mp hw
    by_contra hge
    have hno := h.fresh (Nat.not_lt.mp hge)
    cases e <;> simp [work] at hwe
    subst hwe
    have hbegan := started_iff.mpr ⟨_, _, he⟩
    rw [hno] at hbegan
    cases hbegan
  rw [hlen, ← List.toFinset_card_of_nodup hnodup]
  calc (L.log.filterMap work).toFinset.card
      ≤ (Finset.range L.nextWork).card :=
        Finset.card_le_card fun w hw => Finset.mem_range.mpr (hlt w (List.mem_toFinset.mp hw))
    _ = L.nextWork := Finset.card_range _

/-- A step that starts no work. -/
theorem starting_append {l : List Event} (hlog : s'.log = l ++ s.log)
    (hl : ∀ e ∈ l, e.starting = false) :
    s'.log.countP Event.starting = s.log.countP Event.starting := by
  have hzero : l.countP Event.starting = 0 :=
    List.countP_eq_zero.mpr fun e he => by simp [hl e he]
  rw [hlog, List.countP_append, hzero, Nat.zero_add]

theorem CallFrame.starting (h : CallFrame s s') :
    s'.log.countP Event.starting = s.log.countP Event.starting := by
  obtain ⟨es, hes, hcall⟩ := h.log
  refine starting_append hes fun e he => ?_
  have hof := hcall e he
  cases e <;> first | rfl | cases hof

/-- The call of `t` gets on, -/
theorem callStep_rank (hs : callStep s t = some s') : (s'.call t).rank < (s.call t).rank := by
  have hgo : ∀ {c d : Call}, s.call t = c → s'.call = Function.update s.call t d →
      d.rank < c.rank → (s'.call t).rank < (s.call t).rank := by
    intro c d hc hd hlt
    rw [hc, hd, Function.update_self]
    exact hlt
  cases callStep_move hs with
  | shared hc => exact hgo hc rfl (Nat.lt_succ_self 2)
  | own hc => exact hgo hc rfl (Nat.lt_of_succ_le (Nat.le_succ 2))
  | balance hc | attach hc => exact hgo hc rfl (Nat.lt_succ_self 1)
  | pushGlobal hc | pushLocal hc | reread hc => exact hgo hc rfl Nat.zero_lt_one

/-- and can always do so. -/
theorem callStep_isSome (h : s.call t ≠ .idle) : (callStep s t).isSome := by
  unfold callStep
  cases hc : s.call t with
  | idle => exact absurd hc h
  | route a =>
      simp only
      cases (s.jobs a).threadIndex <;> rfl
  | balance | pushGlobal | pushLocal | attach | reread => rfl

/-- A worker has a next step, unless a work has its turn. -/
theorem workerStep_isSome (h : ∀ job, (s.worker i).pc ≠ .running job)
    (hdone : (s.worker i).pc ≠ .done) : (workerStep s i).isSome := by
  cases hpc : (s.worker i).pc with
  | running job => exact absurd hpc (h job)
  | done => exact absurd hpc hdone
  | popLocal =>
      simp only [workerStep, hpc]
      split <;> rfl
  | stealTest o n => cases o <;> simp [workerStep, hpc]
  | execute o => cases o <;> simp [workerStep, hpc]
  | complete c o =>
      simp only [workerStep, hpc]
      split <;> rfl
  | idle =>
      simp only [workerStep, hpc]
      split <;> rfl
  | drain r =>
      simp only [workerStep, hpc]
      split <;> rfl
  | _ => simp [workerStep, hpc]

/-- What a step of worker `i` does to the load: it starts a work, or it goes on. -/
inductive Eases (s : State) (i : Nat) (s' : State) : Prop
  | starts {a : Addr} (hpc : (s.worker i).pc = .execute (some a))
      (hpc' : (s'.worker i).pc = .running a)
      (hlog : s'.log.countP Event.starting = s.log.countP Event.starting + 1)
  | goes (hlog : s'.log.countP Event.starting = s.log.countP Event.starting)
      (hle : (s'.worker i).pc.rank ≤ (s.worker i).pc.rank)
      (hlt : s.Settles (.work i) → (s'.worker i).pc.rank < (s.worker i).pc.rank)

theorem Resource.next_rank (r : Resource) : r.next.rank = 0 := by cases r <;> rfl

/-- `job_completed` for a job without a parent comes to its end. -/
theorem completionStep_eases {c : Completion} (hroot : s.Rootless) (hc : c.callers = []) :
    (completionStep s t c).1.log.countP Event.starting = s.log.countP Event.starting ∧
      ∀ o c', (completionStep s t c).2 = some c' →
        (Pc.complete c' o).rank < (Pc.complete c o).rank := by
  cases c with
  | fetchSub a callers =>
      obtain rfl : callers = [] := hc
      refine ⟨starting_append (l := [_]) rfl (by simp [Event.starting]), fun o c' hc' => ?_⟩
      simp only [completionStep, unwind] at hc'
      split at hc' <;> cases hc'
      exact Nat.lt_succ_self 2
  | ascend a callers =>
      obtain rfl : callers = [] := hc
      have hparent : (s.jobs a).parent = none := hroot.parent a
      simp only [completionStep, hparent]
      refine ⟨starting_append (l := [_]) rfl (by simp [Event.starting]), fun o c' hc' => ?_⟩
      obtain rfl := Option.some.inj hc'
      exact Nat.lt_succ_self 1
  | recycle a callers =>
      obtain rfl : callers = [] := hc
      obtain ⟨q, -, hrec⟩ := recycle_eq s t a
      simp only [completionStep, hrec, unwind]
      exact ⟨starting_append (l := [_]) rfl (by simp [Event.starting]), fun o c' hc' => by cases hc'⟩

/-- **A step of a worker**, if no job has a parent. -/
theorem workerStep_eases (hv : Views s place) (hroot : s.Rootless) (hs : workerStep s i = some s') :
    Eases s i s' := by
  -- a step from `pc` that goes on at `w`
  have hgo : ∀ {w : Worker} {pc : Pc}, (s.worker i).pc = pc →
      s'.worker = Function.update s.worker i w →
      s'.log.countP Event.starting = s.log.countP Event.starting →
      w.pc.rank ≤ pc.rank → (pc.settling = true → w.pc.rank < pc.rank) → Eases s i s' := by
    intro w pc hpc hw hlog hle hlt
    have hwi : s'.worker i = w := by rw [hw, Function.update_self]
    refine .goes hlog (by rw [hwi, hpc]; exact hle) fun h => ?_
    rw [hwi, hpc]
    exact hlt (hpc ▸ h.1)
  have hone : ∀ {e : Event}, s'.log = e :: s.log → e.starting = false →
      s'.log.countP Event.starting = s.log.countP Event.starting :=
    fun {e} hl he => starting_append (l := [e]) hl (by simpa using he)
  cases workerStep_move hs with
  | spin hpc hr => exact .goes rfl le_rfl fun h => absurd ⟨hpc, hr⟩ h.2
  | execute hpc => exact .starts hpc (goto_pc s i _) (List.countP_cons_of_pos rfl)
  | readContinuation hpc =>
      exact hgo hpc rfl (hone rfl rfl) (Nat.le_succ 4) fun _ => Nat.lt_succ_self 4
  | @handOver a o hpc =>
      have hparent : (s.jobs a).parent = none := hroot.parent a
      have hsame : JobSystem.handOver s a o = s := by
        unfold JobSystem.handOver
        rw [hparent]
        cases o <;> rfl
      refine hgo hpc (goto_worker (by rw [hsame])) ?_ (Nat.le_succ 3) fun _ => Nat.lt_succ_self 3
      rw [hsame]
      rfl
  | @complete c c' o s₁ hpc hc =>
      obtain ⟨hlog, hrank⟩ := completionStep_eases (t := .worker i) hroot (hv.callers i c o hpc)
      have hw := (completionStep_frame (s := s) (i := i) (t := .worker i) c).2
      rw [hc] at hlog hw hrank
      have hlt := hrank o c' rfl
      exact hgo hpc (goto_worker hw) hlog hlt.le fun _ => hlt
  | @completed c o s₁ hpc hc =>
      obtain ⟨hlog, -⟩ := completionStep_eases (t := .worker i) hroot (hv.callers i c o hpc)
      have hw := (completionStep_frame (s := s) (i := i) (t := .worker i) c).2
      rw [hc] at hlog hw
      have hpos : 0 < (Pc.complete c o).rank := by cases c <;> simp [Pc.rank]
      exact hgo hpc (goto_worker hw) hlog hpos.le fun _ => hpos
  | drain hpc =>
      refine .goes (hone rfl rfl) le_rfl fun h => ?_
      have hset := h.1
      rw [hpc] at hset
      cases hset
  | @drainClear r hpc =>
      have hzero : r.next.rank = 0 := r.next_rank
      exact hgo hpc rfl (hone rfl rfl) hzero.le fun h => by cases h
  | countdown hpc =>
      have hzero : (if s.numThreads = 1 then Pc.saveTracelog else .done).rank = 0 := by
        split <;> rfl
      exact hgo hpc rfl rfl hzero.le fun h => by cases h
  | saveTracelog hpc | setComplete hpc =>
      exact hgo hpc rfl (hone rfl rfl) le_rfl fun h => by cases h
  | start hpc | arrive hpc | released hpc | stealInit hpc | storeTrace hpc =>
      exact hgo hpc rfl rfl (Nat.le_succ _) fun _ => Nat.lt_succ_self _
  | stay hpc | leave hpc | noLocal hpc | popLocal hpc | popGlobal hpc | stealCount hpc
  | hasJob hpc | stealOn hpc | stealEnd hpc | stealNext hpc | stealPop hpc | noJob hpc
  | collect hpc | idle hpc | drained hpc =>
      exact hgo hpc rfl rfl le_rfl fun h => by cases h

theorem sum_worker (hi : i < n) (hother : ∀ j ≠ i, s'.worker j = s.worker j) (f : Pc → Nat) :
    (Finset.range n).sum (fun j => f (s'.worker j).pc) + f (s.worker i).pc =
      (Finset.range n).sum (fun j => f (s.worker j).pc) + f (s'.worker i).pc :=
  sum_change (f := fun j => f (s.worker j).pc) (g := fun j => f (s'.worker j).pc)
    (Finset.mem_range.mpr hi) fun j hj => congrArg (fun w : Worker => f w.pc) (hother j hj)

/-- **The load never goes up** after the last job is made, and goes down with each step in which a
call or a job gets on. -/
theorem load_step {S : Finset Tid} (h : Served s) (hsize : s.size = n)
    (hS : ∀ t, s.call t ≠ .idle → t ∈ S) (hx : ¬ x.Creates) (hs : step s x = some s') :
    s'.load n S ≤ s.load n S ∧ (s.Settles x → s'.load n S < s.load n S) := by
  have hpar : x.Parentless := by
    cases x with
    | schedule => exact absurd trivial hx
    | _ => trivial
  have hnext : s'.nextWork = s.nextWork := by
    refine step_nextWork (fun t p ti f hxs => hx ?_) (fun t w b ti f hxt => hx ?_) hs
    · rw [hxs]
      trivial
    · rw [hxt]
      trivial
  have hunstarted : s'.log.countP Event.starting = s.log.countP Event.starting →
      s'.unstarted = s.unstarted := fun hlog => by rw [State.unstarted, hnext, hlog, State.unstarted]
  cases x with
  | schedule | jobThen => exact absurd trivial hx
  | shutdown t =>
      obtain ⟨-, rfl⟩ := step_shutdown hs
      exact ⟨le_rfl, False.elim⟩
  | call t =>
      have hs' : callStep s t = some s' := hs
      have hbusy : s.call t ≠ .idle := fun hidle => by
        rw [callStep, hidle] at hs'
        cases hs'
      have hrank := callStep_rank hs'
      have hsum : S.sum (fun u => (s'.call u).rank) + (s.call t).rank =
          S.sum (fun u => (s.call u).rank) + (s'.call t).rank :=
        sum_change (f := fun u => (s.call u).rank) (g := fun u => (s'.call u).rank) (hS t hbusy)
          fun u hu => congrArg Call.rank (step_others hs (Ne.symm hu)).1
      have hf := callStep_frame hs'
      have hun := hunstarted hf.starting
      simp only [State.load, hf.worker, hun]
      omega
  | finish i =>
      obtain ⟨job, hpc, -, hi, rfl⟩ := step_finish hs
      set s' : State := (s.goto i (.storeTrace job)).record (.finished (s.jobs job).work) with hs'
      have hpc' : (s'.worker i).pc = .storeTrace job := goto_pc s i _
      have hother : ∀ j ≠ i, s'.worker j = s.worker j := fun j hj => Function.update_of_ne hj ..
      have hsum := sum_worker (hsize ▸ hi) hother Pc.rank
      have hun := hunstarted (starting_append (l := [_]) rfl (by simp [Event.starting]))
      rw [hpc, hpc', show (Pc.running job).rank = 7 from rfl,
        show (Pc.storeTrace job).rank = 6 from rfl] at hsum
      have hcall : s'.call = s.call := rfl
      simp only [State.load, hun, hcall]
      omega
  | work i =>
      obtain ⟨hi, hw⟩ := step_work hs
      have hf := workerStep_frame hw
      obtain ⟨place, hv, -⟩ := h.ledger
      have hsum := sum_worker (hsize ▸ hi) hf.worker Pc.rank
      cases workerStep_eases hv h.rootless hw with
      | @starts job hpc hpc' hlog =>
          -- a work was started, so one less is left
          obtain ⟨place', -, ho'⟩ := (h.step hpar hs).accounted
          have hle : s'.log.countP Event.starting ≤ s'.nextWork := ho'.valid.starting_le
          rw [hpc, hpc', show (Pc.execute (some job)).rank = 0 from rfl,
            show (Pc.running job).rank = 7 from rfl] at hsum
          simp only [State.load, State.unstarted, hf.call, hlog, hnext] at hle ⊢
          omega
      | goes hlog hle hlt =>
          have hun := hunstarted hlog
          simp only [State.load, hun, hf.call]
          exact ⟨by omega, fun hset => by have := hlt hset; omega⟩

end Load

/-! ## Fair runs -/

/-- **The executions that the liveness results are about.** Each worker gets its turns, and so
does each call; a work that is not in a call returns sometime, unless it calls the job system
again; and the threads call `schedule` and `then` finitely often. -/
structure FairRun (n : Nat) (x : Nat → State) (a : Nat → Option Action) : Prop where
  behaviour : Behaviour step (init n) x a
  work : ∀ i < n, Fair step x a (.work i)
  finish : ∀ i < n, Fair step x a (.finish i)
  call : ∀ t, Fair step x a (.call t)
  parentless : ∀ k b, a k = some b → b.Parentless
  finite : ∃ K, ∀ k ≥ K, ∀ b, a k = some b → ¬ b.Creates

section Fair

variable {n k K i : Nat} {x : Nat → State} {a : Nat → Option Action} {b : Action} {t : Tid}

theorem FairRun.run (h : FairRun n x a) (k : Nat) : ∃ tr, Run step (init n) tr (x k) := by
  obtain ⟨tr, hrun, -⟩ := h.behaviour.run k
  exact ⟨tr, hrun⟩

theorem FairRun.served (h : FairRun n x a) (k : Nat) : Served (x k) :=
  h.behaviour.invariant (C := fun _ b => b.Parentless) (served_init n)
    (fun hI hx hs => hI.step hx hs) h.parentless k

theorem FairRun.size (h : FairRun n x a) (k : Nat) : (x k).size = n := by
  obtain ⟨tr, hrun⟩ := h.run k
  exact (worker_outside hrun).1

/-- The calls that are open belong to finitely many threads. -/
theorem FairRun.calls_finite (h : FairRun n x a) (k : Nat) : {t | (x k).call t ≠ .idle}.Finite := by
  refine h.behaviour.invariant (I := fun s => {t | s.call t ≠ .idle}.Finite)
    (C := fun _ _ => True) (by simp [init]) (fun {s b s'} hfin _ hs => ?_) (fun _ _ _ => trivial) k
  refine (hfin.insert b.thread).subset fun t ht => ?_
  by_cases htb : b.thread = t
  · exact Or.inl htb.symm
  · exact Or.inr fun hidle => ht (by rw [(step_others hs htb).1, hidle])

/-- Without a new job no call is begun. -/
theorem call_idle {s s' : State} {b : Action} (hb : ¬ b.Creates) (hs : step s b = some s')
    (hidle : s.call t = .idle) : s'.call t = .idle := by
  cases b with
  | schedule | jobThen => exact absurd trivial hb
  | shutdown u =>
      obtain ⟨-, rfl⟩ := step_shutdown hs
      exact hidle
  | call u =>
      by_cases hut : u = t
      · subst hut
        simp only [step, callStep, hidle] at hs
        cases hs
      · rw [(step_others hs hut).1, hidle]
  | finish | work => rw [step_call (by simp [Action.caller]) hs, hidle]

/-- From `K` on no job is made, and no call and no job gets on any more. -/
def AtRest (x : Nat → State) (a : Nat → Option Action) (K : Nat) : Prop :=
  ∀ k ≥ K, ∀ b, a k = some b → ¬ b.Creates ∧ ¬ (x k).Settles b

/-- **All steps in which something gets on come to an end.** -/
theorem FairRun.settles (h : FairRun n x a) : ∃ K, AtRest x a K := by
  obtain ⟨K₀, hK₀⟩ := h.finite
  set S : Finset Tid := (h.calls_finite K₀).toFinset
  have hS : ∀ k ≥ K₀, ∀ t, (x k).call t ≠ .idle → t ∈ S :=
    h.behaviour.stays (I := fun s => ∀ t, s.call t ≠ .idle → t ∈ S)
      (fun _ => (h.calls_finite K₀).mem_toFinset.mpr)
      (fun k hk b hb hs hI t ht => hI t fun hidle => ht (call_idle (hK₀ k hk b hb) hs hidle))
  obtain ⟨K, hK, hno⟩ := h.behaviour.settles (fun s => s.load n S) State.Settles
    (fun k hk b hb hs => load_step (h.served k) (h.size k) (hS k hk) (hK₀ k hk b hb) hs)
  exact ⟨K, fun k hk b hb => ⟨hK₀ k (hK.trans hk) b hb, hno k hk b hb⟩⟩

/-- No call is open then. -/
theorem FairRun.calls (h : FairRun n x a) (hK : AtRest x a K) :
    ∀ k ≥ K, (x k).call t = .idle := by
  intro k hk
  by_contra hbusy
  refine h.behaviour.never (I := fun s => s.call t ≠ .idle) (h.call t)
    (fun j hj _ hcall => (hK j hj _ hcall).2 trivial)
    (fun j _ hj => callStep_isSome hj) (fun j hj b hb hs hI => ?_) k hk hbusy
  cases b with
  | schedule | jobThen => exact absurd trivial (hK j hj _ hb).1
  | call u => exact absurd trivial (hK j hj _ hb).2
  | finish u => exact absurd trivial (hK j hj _ hb).2
  | shutdown u =>
      obtain ⟨-, hx⟩ := step_shutdown hs
      rw [hx]
      exact hI
  | work j' =>
      rw [step_call (by simp [Action.caller]) hs]
      exact hI

/-- Only its own steps move a worker. -/
theorem AtRest.worker_eq (hK : AtRest x a K) (hk : k ≥ K) (hb : a k = some b)
    (hs : step (x k) b = some (x (k + 1))) (hi : b ≠ .work i) :
    (x (k + 1)).worker i = (x k).worker i := by
  rcases step_cases hs with ⟨-, hf⟩ | ⟨j, job, rfl, -⟩ | ⟨j, rfl, -, hw⟩
  · rw [hf.worker]
  · exact absurd trivial (hK k hk _ hb).2
  · exact (workerStep_frame hw).worker i fun hij => hi (hij ▸ rfl)

/-- No worker is at `pc` then, if its step there would be one in which something gets on. -/
theorem FairRun.not_at (h : FairRun n x a) (hK : AtRest x a K) (hi : i < n) {pc : Pc}
    (hsettles : ∀ k ≥ K, ((x k).worker i).pc = pc → (x k).Settles (.work i))
    (hrun : ∀ job, pc ≠ .running job) (hdone : pc ≠ .done) :
    ∀ k ≥ K, ((x k).worker i).pc ≠ pc := by
  refine h.behaviour.never (I := fun s => (s.worker i).pc = pc) (h.work i hi)
    (fun k hk hpc hw => (hK k hk _ hw).2 (hsettles k hk hpc)) (fun k _ hpc => ?_)
    (fun k hk b hb hs hpc => ?_)
  · have hsome := workerStep_isSome (s := x k) (i := i) (by rw [hpc]; exact hrun) (by rwa [hpc])
    simp only [step, h.size k, hi, if_true]
    exact hsome
  · by_cases hbi : b = .work i
    · subst hbi
      exact absurd (hsettles k hk hpc) (hK k hk _ hb).2
    · rw [hK.worker_eq hk hb hs hbi]
      exact hpc

/-- **All workers rest**: they are past the start, and none has a job that it runs or completes. -/
theorem FairRun.rests (hn : 0 < n) (hlt : n < 2 ^ 32) (h : FairRun n x a) (hK : AtRest x a K)
    (hi : i < n) : ∀ k ≥ K, ((x k).worker i).pc.settling = false ∧
      ∀ job, ((x k).worker i).pc ≠ .running job := by
  have hstep : ∀ {pc : Pc}, pc.settling = true → pc ≠ .spin → ∀ {j}, j < n → ∀ k ≥ K,
      ((x k).worker j).pc ≠ pc := by
    intro pc hset hspin j hj
    refine h.not_at hK hj (fun k _ hpc => ⟨hpc ▸ hset, fun hs => hspin (hpc ▸ hs.1)⟩) ?_ ?_
    · rintro job rfl
      cases hset
    · rintro rfl
      cases hset
  -- all have arrived, so nobody waits for the others
  have hspin : ∀ k ≥ K, ((x k).worker i).pc ≠ .spin := by
    refine h.not_at hK hi (fun k hk hpc => ⟨hpc ▸ rfl, fun hs => ?_⟩) (by simp) (by simp)
    obtain ⟨tr, hrun⟩ := h.run k
    obtain ⟨hsize, hass⟩ := run_assembling hrun hn hlt
    have hempty : (x k).absent = ∅ := by
      refine Finset.eq_empty_of_forall_notMem fun j hj => ?_
      obtain ⟨hj, harr⟩ := mem_absent.mp hj
      have hj' : j < n := hsize ▸ hj
      cases hpc : ((x k).worker j).pc with
      | start => exact hstep rfl (by simp) hj' k hk hpc
      | arrive => exact hstep rfl (by simp) hj' k hk hpc
      | _ =>
          rw [hpc] at harr
          cases harr
    rw [hass.remaining_eq hempty] at hs
    exact lt_irrefl 0 hs.2
  -- a work returns, and its call before
  have hrun : ∀ job, ∀ k ≥ K, ((x k).worker i).pc ≠ .running job := by
    intro job
    refine h.behaviour.never (I := fun s => (s.worker i).pc = .running job) (h.finish i hi)
      (fun k hk _ hf => (hK k hk _ hf).2 trivial) (fun k hk hpc => ?_)
      (fun k hk b hb hs hpc => ?_)
    · simp [step, hpc, h.calls hK k hk, h.size k, hi]
    · have hb' : b ≠ .work i := by
        rintro rfl
        obtain ⟨-, hw⟩ := step_work hs
        simp only [workerStep, hpc] at hw
        cases hw
      rw [hK.worker_eq hk hb hs hb']
      exact hpc
  intro k hk
  refine ⟨?_, fun job => hrun job k hk⟩
  by_contra hset
  have hset' : ((x k).worker i).pc.settling = true := Bool.not_eq_false _ ▸ hset
  exact hstep hset' (hspin k hk) hi k hk rfl

/-- One worker and one client: the client's actions `l`, and then everybody in turn. -/
def turns (l : List Action) (k : Nat) : Action :=
  l[k]?.getD (match k % 3 with
    | 0 => .work 0
    | 1 => .finish 0
    | _ => .call (.client 0))

theorem turns_after {l : List Action} {k : Nat} (hk : k ≥ l.length) :
    turns l k = match k % 3 with
      | 0 => .work 0
      | 1 => .finish 0
      | _ => .call (.client 0) := by
  rw [turns, List.getElem?_eq_none hk]
  rfl

theorem turns_cases (l : List Action) (k : Nat) : (k < l.length ∧ turns l k ∈ l) ∨
    turns l k = .work 0 ∨ turns l k = .finish 0 ∨ turns l k = .call (.client 0) := by
  by_cases hk : k < l.length
  · left
    rw [turns, List.getElem?_eq_getElem hk]
    exact ⟨hk, List.getElem_mem hk⟩
  · right
    rw [turns_after (Nat.not_lt.mp hk)]
    split <;> simp

/-- The client schedules a job. -/
def oneJob : List Action :=
  [.schedule (.client 0) none none 7, .call (.client 0), .call (.client 0), .call (.client 0)]

/-- Nobody but the client calls anything. -/
theorem turns_idle {l : List Action} (hl : ∀ b ∈ l, ∀ t ∈ b.caller, t = .client 0)
    (ht : t ≠ .client 0) (k : Nat) : (play step (init 1) (turns l) k).call t = .idle := by
  refine play_behaviour.invariant (I := fun s : State => s.call t = .idle)
    (C := fun _ (b : Action) => ∀ u ∈ b.caller, u = .client 0) rfl ?_ (fun j b hb => ?_) k
  · intro s b s' hI hC hs
    rw [step_call (fun hu => ht (hC t hu)) hs, hI]
  · rw [eq_of_played hb]
    rcases turns_cases l j with ⟨-, hmem⟩ | hj | hj | hj
    · exact hl _ hmem
    · simp [hj, Action.caller]
    · simp [hj, Action.caller]
    · simp [hj, Action.caller]

/-- There are fair runs: the ones in which everybody gets a turn again and again. -/
theorem turns_fairRun {l : List Action}
    (hl : ∀ b ∈ l, b.Parentless ∧ ∀ t ∈ b.caller, t = .client 0) :
    FairRun 1 (play step (init 1) (turns l)) (played step (init 1) (turns l)) := by
  have hturn : ∀ m ≥ l.length, turns l (3 * m) = .work 0 ∧ turns l (3 * m + 1) = .finish 0 ∧
      turns l (3 * m + 2) = .call (.client 0) := by
    intro m hm
    rw [turns_after (by omega), turns_after (by omega), turns_after (by omega),
      Nat.mul_mod_right, Nat.mul_add_mod, Nat.mul_add_mod]
    exact ⟨rfl, rfl, rfl⟩
  have hoften : ∀ r < 3, ∀ k, ∃ j ≥ k, ∃ m ≥ l.length, j = 3 * m + r :=
    fun r _ k => ⟨3 * (k + l.length) + r, by omega, k + l.length, by omega, rfl⟩
  have hkind : ∀ k b, played step (init 1) (turns l) k = some b → (k < l.length ∧ b ∈ l) ∨
      b = .work 0 ∨ b = .finish 0 ∨ b = .call (.client 0) := by
    intro k b hb
    rw [eq_of_played hb]
    exact turns_cases l k
  constructor
  case behaviour => exact play_behaviour
  case work =>
    intro i hi
    obtain rfl : i = 0 := Nat.lt_one_iff.mp hi
    refine play_fair fun k => ?_
    obtain ⟨j, hj, m, hm, rfl⟩ := hoften 0 (by decide) k
    exact ⟨_, hj, (hturn m hm).1⟩
  case finish =>
    intro i hi
    obtain rfl : i = 0 := Nat.lt_one_iff.mp hi
    refine play_fair fun k => ?_
    obtain ⟨j, hj, m, hm, rfl⟩ := hoften 1 (by decide) k
    exact ⟨_, hj, (hturn m hm).2.1⟩
  case call =>
    intro t
    by_cases ht : t = .client 0
    · subst ht
      refine play_fair fun k => ?_
      obtain ⟨j, hj, m, hm, rfl⟩ := hoften 2 (by decide) k
      exact ⟨_, hj, (hturn m hm).2.2⟩
    · intro k henabled
      have hsome := henabled k le_rfl
      rw [step, callStep, turns_idle (fun b hb => (hl b hb).2) ht k] at hsome
      cases hsome
  case parentless =>
    intro k b hb
    rcases hkind k b hb with ⟨-, hmem⟩ | rfl | rfl | rfl
    · exact (hl b hmem).1
    · trivial
    · trivial
    · trivial
  case finite =>
    refine ⟨l.length, fun k hk b hb hcreates => ?_⟩
    rcases hkind k b hb with ⟨hlt, -⟩ | rfl | rfl | rfl
    · omega
    · exact hcreates
    · exact hcreates
    · exact hcreates

end Fair

end Bop.JobSystem
