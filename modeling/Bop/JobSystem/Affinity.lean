import Bop.JobSystem.Refinement

set_option autoImplicit false

/-! # Thread affinity

A job with an `m_ThreadIndex` below `m_NumThreads` goes to a local queue, which only its worker
pops. But `schedule_work` takes the queue of the thread that calls it and not the one of the
index, and a continuation is run by the worker that ran the job in front of it, whatever its
index. Where both agree with the index (`State.KeepsAffinity`), no work is executed by another
worker than the one it was given to (`thread_affinity`).
-/

namespace Bop.JobSystem

/-! ## Where a job with a thread index may be -/

section Placed

variable {n : Nat} {P : Policy} {L L' L₁ : Ledger} {a b : Addr} {p d r : Place} {w : Work}
variable {i k : Nat} {e : Event}

/-- The places that lead to the worker `k` only. -/
def Place.Leads (k : Nat) : Place → Prop
  | .queue (.globalQueue _) | .call _ (.balance _) | .call _ (.pushGlobal _) => False
  | .queue (.localQueue i) | .run i _ _ | .next i _ => i = k
  | .call t (.route _) | .call t (.pushLocal _) => t.threadIndex = k
  | .queue (.recyclingBin _) | .queue (.garbageBin _) | .cont _ => True
  | .call _ .idle | .call _ (.attach _ _ _) | .call _ (.reread _ _) => True

/-- The job in `a` is given to the worker `k` of `n`. -/
def Ledger.Given (L : Ledger) (n : Nat) (a : Addr) (k : Nat) : Prop :=
  (L.jobs a).threadIndex = some k ∧ k < n

/-- **Works are where their thread index wants them.** -/
structure Ledger.Placed (n : Nat) (L : Ledger) : Prop where
  place : ∀ {a p k}, L.place a = some p → L.Given n a k → p.Leads k
  started : ∀ {w a p k i v}, .constructed w a p (some k) ∈ L.log → k < n →
    .started w i v ∈ L.log → i = k

/-- A job goes from `p` to `d`. -/
theorem Ledger.Placed.put (h : L.Placed n) (ha : L.place a = some p)
    (hd : ∀ {k}, L.Given n a k → p.Leads k → d.Leads k) {x : Addr}
    (hx : Function.update L.place a (some d) x = some r) (hg : L.Given n x k) : r.Leads k := by
  by_cases hxa : x = a
  · subst hxa
    rw [Function.update_self] at hx
    obtain rfl := Option.some.inj hx
    exact hd hg (h.place ha hg)
  · rw [Function.update_of_ne hxa] at hx
    exact h.place hx hg

/-- A job is started from its place at a worker. -/
theorem Move.started (hm : Move n P L L') {v : Option Work} (h : .started w i v ∈ L'.log) :
    .started w i v ∈ L.log ∨ ∃ a, L.place a = some (.run i .started v) ∧ (L.jobs a).work = w := by
  have hcons : ∀ {e : Event}, (∀ w i v, e ≠ .started w i v) →
      .started w i v ∈ e :: L.log → .started w i v ∈ L.log :=
    fun he hmem => (List.mem_cons.mp hmem).resolve_left fun heq => he w i v heq.symm
  cases hm with
  | construct => exact Or.inl (hcons (by simp) h)
  | allocate =>
      exact Or.inl (hcons (by simp) ((List.mem_cons.mp h).resolve_left (by simp)))
  | route | balance | pop | collect => exact Or.inl h
  | push | attach | fetchSub => exact Or.inl (hcons (by simp) h)
  | @advance a j k via e ha he =>
      rcases he with ⟨rfl, rfl⟩ | ⟨rfl, rfl⟩ | ⟨rfl, rfl⟩
      · rcases List.mem_cons.mp h with h | h
        · cases h
          exact Or.inr ⟨a, ha, rfl⟩
        · exact Or.inl h
      · exact Or.inl (hcons (by simp) h)
      · exact Or.inl (hcons (by simp) h)
  | @readContinuation a j via ha _ =>
      refine Or.inl (hcons (e := .continuationRead (L.jobs a).work) (by simp) ?_)
      cases hc : (L.jobs a).continuation with
      | none => rwa [hc] at h
      | some c => rwa [hc] at h
  | @recycle a j via q c ha hq hc =>
      refine Or.inl (hcons (e := .recycled (L.jobs a).work) (by simp) ?_)
      cases c with
      | none => exact h
      | some c => exact h
  | @note e he =>
      refine Or.inl (hcons (fun w i v heq => ?_) h)
      rw [heq] at he
      exact he

/-- A job is made by a thread that may give it to the worker of its index, or for a
continuation. -/
theorem Ledger.Placed.construct {t : Tid} {c : Call} {o : Origin} (h : L.Placed n)
    (ho : L.InOrder) (hb : L.Before a L₁) (hc : c.Begins P L t a o)
    (hmakes : ∀ {t o k}, P.makes t o → o.threadIndex = some k → k < n → t.threadIndex = k) :
    (L₁.construct a (.call t c) o).Placed n := by
  obtain ⟨hplace, hjobs, hnext, hlog⟩ : L₁.place = L.place ∧ L₁.jobs = L.jobs ∧
      L₁.nextWork = L.nextWork ∧ ∀ e, e.stores = false ∨ (∃ w x p ti, e = .constructed w x p ti) →
        (e ∈ L₁.log ↔ e ∈ L.log) := by
    rcases hb with ⟨-, rfl⟩ | ⟨-, rfl⟩
    · exact ⟨rfl, rfl, rfl, fun _ _ => Iff.rfl⟩
    · refine ⟨rfl, rfl, rfl, fun e he => ?_⟩
      rw [record_log, List.mem_cons]
      refine or_iff_right fun heq => ?_
      rcases he with he | ⟨w, x, p, ti, he⟩
      · rw [heq] at he
        cases he
      · rw [heq] at he
        cases he
  have hst : ∀ {w i v}, .started w i v ∈ (L₁.construct a (.call t c) o).log →
      .started w i v ∈ L.log := fun {w i v} hmem =>
    (hlog _ (Or.inl rfl)).mp ((List.mem_cons.mp hmem).resolve_left (by simp))
  constructor
  case place =>
    intro x r k hx hg
    by_cases hxa : x = a
    · subst hxa
      have hr : Place.call t c = r := by simpa [Ledger.construct] using hx
      have hti : o.threadIndex = some k := by simpa [Ledger.construct] using hg.1
      subst hr
      cases hc with
      | schedule hto => exact hmakes hto hti hg.2
      | jobThen => trivial
    · have hx' : L.place x = some r := by simpa [Ledger.construct, hplace, hxa] using hx
      have hg' : L.Given n x k := by
        refine ⟨?_, hg.2⟩
        simpa [Ledger.construct, hjobs, hxa] using hg.1
      exact h.place hx' hg'
  case started =>
    intro w x p k i v hcon hlt hstart
    rcases List.mem_cons.mp hcon with hcon | hcon
    · -- the new work was not started yet
      obtain rfl : w = L₁.nextWork := (Event.constructed.inj hcon).1
      have hbegan := started_iff.mpr ⟨i, v, hst hstart⟩
      rw [hnext, ho.valid.fresh le_rfl] at hbegan
      cases hbegan
    · exact h.started ((hlog _ (Or.inr ⟨w, x, p, _, rfl⟩)).mp hcon) hlt (hst hstart)

/-- **Every move keeps it**, where jobs are made and continuations followed by the right
threads. -/
theorem Move.placed (hm : Move n P L L') (ho : L.InOrder) (h : L.Placed n)
    (hmakes : ∀ {t o k}, P.makes t o → o.threadIndex = some k → k < n → t.threadIndex = k)
    (hfollows : ∀ {i c k}, P.follows i c → L.Given n c k → i = k) : L'.Placed n := by
  rcases hm.keeps with hk | ⟨a, t, c, o, L₁, hb, hc, rfl⟩
  case inr => exact h.construct ho hb hc hmakes
  case inl =>
    have hgiven : ∀ {x k}, L'.Given n x k → L.Given n x k :=
      fun hg => ⟨(hk.threadIndex _).symm.trans hg.1, hg.2⟩
    constructor
    case started =>
      intro w x p k i v hcon hlt hst
      obtain ⟨es, hes, hno⟩ := hk.log
      rw [hes] at hcon
      have hold : .constructed w x p (some k) ∈ L.log :=
        (List.mem_append.mp hcon).resolve_left fun he => by cases hno _ he
      rcases hm.started hst with hst | ⟨b, hb, hbw⟩
      · exact h.started hold hlt hst
      · obtain ⟨rfl, hti⟩ := (ho.valid.constructed hold).2 b (ho.valid.live hb) hbw
        exact h.place hb ⟨hti, hlt⟩
    case place =>
      -- one case for each move; where the job that moves may be given to a worker, its new place
      -- leads to that worker because its old one did
      intro x r k hx hg
      replace hg : L.Given n x k := hgiven hg
      cases hm with
      | construct ha hc => exact absurd hk.nextWork (Nat.succ_ne_self _)
      | allocate ha hc => exact absurd hk.nextWork (Nat.succ_ne_self _)
      | @route a t c ha hc =>
          refine h.put ha (fun {k} hg hlead => ?_) hx hg
          rcases hc with ⟨rfl, hall⟩ | ⟨rfl, -⟩
          · exact absurd hg.2 (Nat.not_lt.mpr (hall k hg.1))
          · exact hlead
      | balance ha =>
          refine h.put ha (fun _ hlead => ?_) hx hg
          exact hlead
      | push ha hq =>
          refine h.put ha (fun _ hlead => ?_) hx hg
          rcases hq with ⟨rfl, rfl⟩ | ⟨rfl, rfl⟩
          · exact hlead
          · exact hlead
      | attach ha hab =>
          rcases Ledger.attach_place.mp hx with ⟨-, -, rfl⟩ | ⟨-, hx, -⟩
          · trivial
          · exact h.place hx hg
      | pop ha hq =>
          refine h.put ha (fun _ hlead => ?_) hx hg
          rcases hq with rfl | ⟨j, rfl⟩
          · exact hlead
          · exact hlead.elim
      | advance ha he =>
          refine h.put ha (fun _ hlead => ?_) hx hg
          exact hlead
      | @readContinuation a i via ha hf =>
          cases hc : (L.jobs a).continuation with
          | none =>
              rw [hc] at hx
              exact h.put (d := .run i .countedOff _) ha (fun _ => id) hx hg
          | some c =>
              rw [hc] at hx
              by_cases hxc : x = c
              · subst hxc
                obtain rfl := Option.some.inj (hx.symm.trans (Function.update_self ..))
                exact hfollows (hf x hc) hg
              · have hx' := (Function.update_of_ne hxc _ _).symm.trans hx
                exact h.put (d := .run i .countedOff _) ha (fun _ => id) hx' hg
      | fetchSub ha =>
          refine h.put ha (fun _ hlead => ?_) hx hg
          exact hlead
      | @recycle a i via q c ha hq hc =>
          have hbin : ∀ k, (Place.queue q).Leads k := fun k => by
            rcases hq with rfl | rfl <;> trivial
          cases c with
          | none => exact h.put ha (fun {k} _ _ => hbin k) hx hg
          | some c =>
              by_cases hxc : x = c
              · subst hxc
                obtain rfl := Option.some.inj (hx.symm.trans (Function.update_self ..))
                have hlead : i = k := h.place ((hc x).mp rfl) hg
                exact hlead
              · have hx' := (Function.update_of_ne hxc _ _).symm.trans hx
                exact h.put ha (fun {k} _ _ => hbin k) hx' hg
      | collect => exact h.place (Ledger.drop_place.mp hx).1 hg
      | note he => exact h.place hx hg

theorem Ledger.Placed.free (h : L.Placed n) : (L.free a).Placed n :=
  ⟨fun hx hg => h.place (free_place.mp hx).2.1 hg, fun hcon hlt hst =>
    h.started ((List.mem_cons.mp hcon).resolve_left (by simp)) hlt
      ((List.mem_cons.mp hst).resolve_left (by simp))⟩

theorem Ledger.Placed.clear {q : QueueId} (h : L.Placed n) (he : e.Note L) :
    ((L.drop fun p => p = .queue q).record e).Placed n := by
  have hold : ∀ {e' : Event}, ¬ e'.Note L → e' ∈ e :: L.log → e' ∈ L.log :=
    fun hno hmem => (List.mem_cons.mp hmem).resolve_left fun heq => hno (heq ▸ he)
  exact ⟨fun hx hg => h.place (drop_place.mp hx).1 hg,
    fun hcon hlt hst => h.started (hold id hcon) hlt (hold id hst)⟩

end Placed

/-! ## Where the code agrees with the thread index -/

/-- The continuation that a worker reads in its next step. -/
def State.finds (s : State) (i : Nat) : Option Addr :=
  match (s.worker i).pc with
  | .readContinuation a => (s.jobs a).continuation
  | _ => none

/-- A thread schedules for its own index only, and a worker does not find a continuation that
was given to another worker. -/
def State.KeepsAffinity (n : Nat) (s : State) : Action → Prop
  | .schedule t _ (some k) _ => k < n → t.threadIndex = k
  | .work i => ∀ c ∈ s.finds i, ∀ k ∈ (s.jobs c).threadIndex, k < n → i = k
  | _ => True

instance (n : Nat) (s : State) : DecidablePred (s.KeepsAffinity n)
  | .schedule t _ (some k) _ => inferInstanceAs (Decidable (k < n → t.threadIndex = k))
  | .work i =>
      inferInstanceAs (Decidable (∀ c ∈ s.finds i, ∀ k ∈ (s.jobs c).threadIndex, k < n → i = k))
  | .schedule _ _ none _ | .jobThen _ _ _ _ _ | .call _ | .shutdown _ | .finish _ =>
      .isTrue trivial

/-- **Thread affinity**: a work with a thread index below `n` was started by that worker, if by
any. -/
def State.Affine (n : Nat) (s : State) : Prop :=
  ∀ w a p k i v, .constructed w a p (some k) ∈ s.log → k < n → .started w i v ∈ s.log → i = k

section Runs

variable {s s' : State} {x : Action} {n : Nat} {tr : List (State × Action)}

/-- What the threads do in a step that keeps the affinity. -/
def Policy.affine (n : Nat) (s : State) : Policy where
  makes t o := ∀ k, o.threadIndex = some k → k < n → t.threadIndex = k
  attaches _ _ _ := True
  follows i c := ∀ k, (s.jobs c).threadIndex = some k → k < n → i = k

theorem State.KeepsAffinity.admits (h : s.KeepsAffinity n x) : (Policy.affine n s).Admits s x where
  makes := by
    rintro t parent ti fresh rfl k hti hlt
    obtain rfl : ti = some k := hti
    exact h hlt
  attaches _ _ := trivial
  follows := by
    rintro i a c rfl hpc hc k hti hlt
    have hfinds : s.finds i = some c := by simp only [finds, hpc, hc]
    exact h c hfinds k hti hlt

/-- The invariant of the runs that keep the affinity. -/
def Bound (n : Nat) (s : State) : Prop :=
  ∃ place, Views s place ∧ (s.ledger place).InOrder ∧ (s.ledger place).Placed n

theorem bound_init (n : Nat) : Bound n (init n) :=
  ⟨_, views_init n, inOrder_init n, by constructor <;> simp [State.ledger, init]⟩

theorem Bound.step (h : Bound n s) (hn : s.numThreads = n) (hx : s.NoneToTell x)
    (hk : s.KeepsAffinity n x) (hs : step s x = some s') : Bound n s' := by
  obtain ⟨place, hv, ho, hp⟩ := h
  have hsim := step_simulated hv ho hx hk.admits hs
  cases hsim with
  | stutter hv' hl => exact ⟨_, hv', hl ▸ ho, hl ▸ hp⟩
  | move hv' hm =>
      rw [hn] at hm
      refine ⟨_, hv', hm.inOrder ho, hm.placed ho hp (fun hto hti hlt => ?_) fun hf hg => ?_⟩
      · exact hto _ hti hlt
      · exact hf _ hg.1 hg.2
  | free hv' _ _ ha hl => exact ⟨_, hv', hl ▸ ho.free ha, hl ▸ hp.free⟩
  | clear hv' _ _ he hl => exact ⟨_, hv', hl ▸ ho.clear he, hl ▸ hp.clear he⟩

theorem Bound.affine (h : Bound n s) : s.Affine n := by
  obtain ⟨place, -, -, hp⟩ := h
  intro w a p k i v hcon hlt hst
  exact hp.started hcon hlt hst

/-- **When the affinity is kept.** Take a run of `n` workers before any of them is counted down,
in which no worker completes a job with a parent. If each job with a thread index is scheduled by
the thread of that index, and no worker finds a continuation that was given to another one, then
no work is executed by another worker than the one it was given to, in any state of the run. -/
theorem thread_affinity (h : Transition.Run step (init n) tr s)
    (hn : ∀ p ∈ tr, p.1.numThreads = n) (hx : ∀ p ∈ tr, p.1.NoneToTell p.2)
    (hk : ∀ p ∈ tr, p.1.KeepsAffinity n p.2) : ∀ x ∈ Transition.visited tr s, x.Affine n := by
  have hall : ∀ p ∈ tr, p.1.numThreads = n ∧ p.1.NoneToTell p.2 ∧ p.1.KeepsAffinity n p.2 :=
    fun p hp => ⟨hn p hp, hx p hp, hk p hp⟩
  intro y hy
  exact (h.invariant_visited
    (C := fun s x => s.numThreads = n ∧ s.NoneToTell x ∧ s.KeepsAffinity n x) (bound_init n)
    (fun hI hC hs => hI.step hC.1 hC.2.1 hC.2.2 hs) hall y hy).affine

/-- A client gives a job and its continuation to the first of two workers. -/
theorem thread_affinity_first : ∃ tr s, Transition.Run step (init 2) tr s ∧
    .constructed 1 7 none (some 0) ∈ s.log ∧ .started 1 0 none ∈ s.log ∧
    .constructed 2 8 none (some 0) ∈ s.log ∧ .started 2 0 (some 1) ∈ s.log ∧
    ∀ x ∈ Transition.visited tr s, x.Affine 2 := by
  have hexec : ((Transition.exec step
      (fun s x => s.numThreads = 2 ∧ s.NoneToTell x ∧ s.KeepsAffinity 2 x) (init 2)
      ([Action.schedule (.client 0) none (some 0) 7, .call (.client 0), .call (.client 0),
        .jobThen (.client 0) 1 7 (some 0) 8, .call (.client 0), .call (.client 0),
        .work 0, .work 0, .work 1, .work 1] ++ List.replicate 7 (.work 0) ++ [Action.finish 0] ++
        List.replicate 7 (.work 0))).any fun s =>
      decide (.constructed 1 7 none (some 0) ∈ s.log ∧ .started 1 0 none ∈ s.log ∧
        .constructed 2 8 none (some 0) ∈ s.log ∧ .started 2 0 (some 1) ∈ s.log)) = true := by
    decide
  obtain ⟨tr, s, hrun, -, hx, hs⟩ := Transition.exists_run_of_exec hexec
  obtain ⟨hcon, hst, hcon', hst'⟩ := of_decide_eq_true hs
  exact ⟨tr, s, hrun, hcon, hst, hcon', hst', thread_affinity hrun (fun p hp => (hx p hp).1)
    (fun p hp => (hx p hp).2.1) (fun p hp => (hx p hp).2.2)⟩

/-- **Counterexamples**, for two workers. A client schedules a job for the worker `1`, and the
worker `0` runs it. A client attaches a continuation for the worker `0` to a job that the worker
`1` runs. And with a parent the affinity is lost even where the code agrees with the thread
index: the worker `0` recycles the parent, which is still in a queue, makes a job for itself in
its storage, and the worker `1` pops and runs that one. -/
theorem not_thread_affinity :
    (∃ tr s, Transition.Run step (init 2) tr s ∧
      (∀ p ∈ tr, p.1.numThreads = 2 ∧ p.2.Parentless) ∧
      .constructed 1 7 none (some 1) ∈ s.log ∧ .started 1 0 none ∈ s.log ∧ ¬ s.Affine 2) ∧
    (∃ tr s, Transition.Run step (init 2) tr s ∧
      (∀ p ∈ tr, p.1.numThreads = 2 ∧ p.2.Parentless) ∧
      .constructed 2 8 none (some 0) ∈ s.log ∧ .started 2 1 (some 1) ∈ s.log ∧ ¬ s.Affine 2) ∧
    ∃ tr s, Transition.Run step (init 2) tr s ∧
      (∀ p ∈ tr, p.1.numThreads = 2 ∧ p.1.KeepsAffinity 2 p.2) ∧
      .constructed 4 7 none (some 0) ∈ s.log ∧ .started 4 1 none ∈ s.log ∧ ¬ s.Affine 2 := by
  refine ⟨?_, ?_, ?_⟩
  · have hexec : ((Transition.exec step (fun s x => s.numThreads = 2 ∧ x.Parentless) (init 2)
        ([Action.schedule (.client 0) none (some 1) 7, .call (.client 0), .call (.client 0),
          .work 0, .work 0, .work 1, .work 1] ++ List.replicate 7 (.work 0))).any fun s =>
        decide (.constructed 1 7 none (some 1) ∈ s.log ∧ .started 1 0 none ∈ s.log)) = true := by
      decide
    obtain ⟨tr, s, hrun, -, hx, hs⟩ := Transition.exists_run_of_exec hexec
    obtain ⟨hcon, hst⟩ := of_decide_eq_true hs
    refine ⟨tr, s, hrun, hx, hcon, hst, fun ha => ?_⟩
    cases ha 1 7 none 1 0 none hcon (by decide) hst
  · have hexec : ((Transition.exec step (fun s x => s.numThreads = 2 ∧ x.Parentless) (init 2)
        ([Action.schedule (.client 0) none none 7, .call (.client 0), .call (.client 0),
          .call (.client 0), .jobThen (.client 0) 1 7 (some 0) 8, .call (.client 0),
          .call (.client 0), .work 0, .work 0, .work 1, .work 1] ++
          List.replicate 8 (.work 1) ++ [Action.finish 1] ++ List.replicate 7 (.work 1))).any fun s =>
        decide (.constructed 2 8 none (some 0) ∈ s.log ∧ .started 2 1 (some 1) ∈ s.log)) =
          true := by
      decide
    obtain ⟨tr, s, hrun, -, hx, hs⟩ := Transition.exists_run_of_exec hexec
    obtain ⟨hcon, hst⟩ := of_decide_eq_true hs
    refine ⟨tr, s, hrun, hx, hcon, hst, fun ha => ?_⟩
    cases ha 2 8 none 0 1 (some 1) hcon (by decide) hst
  · have hexec : ((Transition.exec step (fun s x => s.numThreads = 2 ∧ s.KeepsAffinity 2 x)
        (init 2)
        ([Action.schedule (.client 0) none none 7, .call (.client 0), .call (.client 0),
          .call (.client 0), .schedule (.client 0) (some (1, 7)) none 8, .call (.client 0),
          .call (.client 0), .call (.client 0), .work 0, .work 0, .work 1, .work 1] ++
          List.replicate 8 (.work 0) ++ [Action.finish 0] ++ List.replicate 9 (.work 0) ++
          [Action.schedule (.client 0) none (some 0) 9, .call (.client 0), .call (.client 0)] ++
          List.replicate 7 (.work 0) ++ [Action.schedule (.worker 0) none (some 0) 10] ++
          List.replicate 8 (.work 1))).any fun s =>
        decide (.constructed 4 7 none (some 0) ∈ s.log ∧ .started 4 1 none ∈ s.log)) = true := by
      decide
    obtain ⟨tr, s, hrun, -, hx, hs⟩ := Transition.exists_run_of_exec hexec
    obtain ⟨hcon, hst⟩ := of_decide_eq_true hs
    refine ⟨tr, s, hrun, hx, hcon, hst, fun ha => ?_⟩
    cases ha 4 7 none 0 1 none hcon (by decide) hst

end Runs

end Bop.JobSystem
