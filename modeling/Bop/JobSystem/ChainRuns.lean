import Bop.JobSystem.Chain
import Bop.JobSystem.Beside

set_option autoImplicit false

/-! # Runs with a chain

What the inner loop of a worker does with a chain of continuations, in each state of a run
(`chain_in_order`), and where such chains come from: in a system in which no job tells a parent,
the jobs that are linked by `m_Continuation` behind the job of a worker are a chain
(`Accounted.ready`).
-/

namespace Bop.JobSystem

namespace Chain

variable {C : Chain} {s s' : State} {done rest : List Addr} {a b p : Addr} {x : Point}

/-- **What the loop does**, in each state on its way: it runs the works in the order of the chain, on
this worker, and ends after the last one. It is stopped by nothing, and the parent keeps its count
until the last work has run. -/
structure Follows (C : Chain) (s : State) : Prop where
  order : C.marks s <+: script C.works
  worker : ∀ w i via, .started w i via ∈ C.start.since s → (i = C.worker ↔ w ∈ C.works)
  goesOn : (s.worker C.worker).pc ≠ .execute none →
    (step s (.work C.worker)).isSome ∨ (step s (.finish C.worker)).isSome ∨
      (step s (.call (.worker C.worker))).isSome
  parent : ∀ p ∈ C.parent, (∀ w ∈ C.works.getLast?, .finished w ∉ C.start.since s) →
    C.count ≤ (s.jobs p).numChildren
  ended : (s.worker C.worker).pc = .execute none → C.marks s = script C.works ∧
    ∀ p ∈ C.parent, (s.jobs p).numChildren = C.count - 1 ∧
      (.recycled (C.work p) ∈ C.start.since s ↔ C.count = 1)

/-- The stages of a job that is not recycled yet are a part of all its stages. -/
theorem isPrefix_script (m : Stage) :
    script (done.map C.work) ++ m.before.map (C.work a, ·) <+:
      script ((done ++ a :: rest).map C.work) := by
  rw [List.map_append, script_append, List.prefix_append_right_inj, List.map_cons,
    ← List.singleton_append, script_append, script_singleton, Stage.before, List.map_take]
  exact (List.take_prefix _ _).trans (List.prefix_append _ _)

theorem finished_of_mark {w : Work} (h : (w, .finished) ∈ C.marks s) :
    .finished w ∈ C.start.since s := by
  obtain ⟨-, e, he, hm⟩ := mem_marks.mp h
  cases e <;> simp [Event.mark] at hm
  exact hm ▸ he

/-- The parent has its count, or the last work has run. -/
theorem Phase.count_le {pc : Pc} (h : C.Phase a rest pc x) :
    C.count ≤ x.parentCounter ∨ (rest = [] ∧ Stage.finished.rank < x.stage.rank) := by
  cases h
  case climb | climbTell | unwind => exact Or.inr ⟨by assumption, by simp⟩
  case recycle =>
    cases rest with
    | nil => exact Or.inr ⟨rfl, by simp⟩
    | cons b rest => exact Or.inl (by simp [gain])
  all_goals exact Or.inl (by simp)

theorem Phase.ne_done {pc : Pc} (h : C.Phase a rest pc x) :
    (∀ job, pc = .running job → job = a) ∧ pc ≠ .done ∧ pc ≠ .execute none := by
  cases h <;> simp

/-- A worker always goes on by itself, unless it is in a work or done. -/
theorem workerStep_isSome {i : Nat} (hrun : ∀ job, (s.worker i).pc ≠ .running job)
    (hdone : (s.worker i).pc ≠ .done) : (JobSystem.workerStep s i).isSome := by
  generalize hpc : (s.worker i).pc = pc at hrun hdone
  simp only [JobSystem.workerStep, hpc]
  cases pc with
  | running job => exact absurd rfl (hrun job)
  | done => exact absurd rfl hdone
  | stealTest currentJob n => cases currentJob <;> rfl
  | execute currentJob => cases currentJob <;> rfl
  | popLocal | complete | idle | drain =>
      dsimp only
      split <;> rfl
  | _ => rfl

/-- The worker or its work can go on. -/
theorem Runs.goesOn (h : C.Runs s done a rest x) :
    (step s (.work C.worker)).isSome ∨ (step s (.finish C.worker)).isSome ∨
      (step s (.call (.worker C.worker))).isSome := by
  by_cases hpc : (s.worker C.worker).pc = .running a
  · right
    by_cases hidle : s.call (.worker C.worker) = .idle
    · left
      simp [step, hpc, hidle, h.size]
    · right
      have hsch := h.schedules
      cases hcall : s.call (.worker C.worker) with
      | idle => exact absurd hcall hidle
      | attach | reread =>
          rw [hcall] at hsch
          cases hsch
      | route b =>
          simp only [step, JobSystem.callStep, hcall]
          split <;> rfl
      | balance | pushGlobal | pushLocal =>
          simp only [step, JobSystem.callStep, hcall]
          rfl
  · left
    obtain ⟨hrun, hdone, -⟩ := h.phase.ne_done
    rw [step, if_pos h.size]
    exact workerStep_isSome (fun job hjob => hpc (hrun job hjob ▸ hjob)) hdone

theorem Runs.follows (h : C.Runs s done a rest x) : C.Follows s where
  order := by
    rw [h.logged.marks, Chain.works, h.split]
    exact isPrefix_script x.stage
  worker := h.logged.started
  goesOn _ := h.goesOn
  parent p hp hlast := by
    rw [h.jobs.parent p hp]
    refine h.phase.count_le.resolve_right ?_
    rintro ⟨rfl, hstage⟩
    have hw : C.works.getLast? = some (C.work a) := by
      rw [Chain.works, h.split, List.map_append, List.map_singleton, List.getLast?_concat]
    refine hlast (C.work a) hw (finished_of_mark ?_)
    rw [h.logged.marks]
    exact List.mem_append_right _ (List.mem_map_of_mem (Stage.mem_before.mpr hstage))
  ended hend := absurd hend h.phase.ne_done.2.2

theorem Ended.follows (hr : C.Ready) (h : C.Ended s) : C.Follows s where
  order := h.logged.marks ▸ List.prefix_rfl
  worker := h.logged.started
  goesOn hpc := absurd h.pc hpc
  parent p hp hlast := by
    -- the last work has run
    have hne : C.works ≠ [] := fun hnil => hr.nonempty (List.map_eq_nil_iff.mp hnil)
    refine absurd (finished_of_mark ?_) (hlast _ (List.getLast?_eq_getLast_of_ne_nil hne))
    rw [h.logged.marks, mem_script]
    exact List.getLast_mem hne
  ended _ := ⟨h.logged.marks, fun p hp => ⟨h.counter p hp, by
    rw [h.logged.parent p hp, decide_eq_true_eq]⟩⟩

end Chain

/-! ## Where chains come from -/

section Accounted

variable {s : State} {place : Addr → Option Place} {a b : Addr} {p : Place} {l : List Addr}

/-- A list in which each element has one predecessor at most, and the first one has none. -/
theorem nodup_of_isChain {α : Type*} {R : α → α → Prop} {l : List α} {a : α}
    (hR : ∀ {x x' y}, R x y → R x' y → x = x') (h : (a :: l).IsChain R) (ha : ∀ x, ¬ R x a) :
    (a :: l).Nodup := by
  have hsucc := List.isChain_iff_getElem.mp h
  refine List.pairwise_iff_getElem.mpr fun i j => ?_
  induction i generalizing j with
  | zero =>
      intro _ hj hij heq
      obtain ⟨j, rfl⟩ := Nat.exists_eq_succ_of_ne_zero (Nat.pos_iff_ne_zero.mp hij)
      exact ha _ (heq ▸ hsucc j hj)
  | succ i ih =>
      intro hi hj hij heq
      obtain ⟨j, rfl⟩ := Nat.exists_eq_succ_of_ne_zero (Nat.pos_iff_ne_zero.mp (by omega : 0 < j))
      exact ih j (by omega) (by omega) (by omega) (hR (hsucc i hi) (heq ▸ hsucc j hj))

theorem exists_of_isChain {α : Type*} {R : α → α → Prop} {l : List α} {a : α}
    (h : (a :: l).IsChain R) : ∀ b ∈ l, ∃ x ∈ a :: l, R x b := by
  induction l generalizing a with
  | nil => exact fun b hb => absurd hb List.not_mem_nil
  | cons c l ih =>
      obtain ⟨hac, hl⟩ := List.isChain_cons_cons.mp h
      intro b hb
      rcases List.mem_cons.mp hb with rfl | hb
      · exact ⟨a, List.mem_cons_self, hac⟩
      · obtain ⟨x, hx, hxb⟩ := ih hl b hb
        exact ⟨x, List.mem_cons_of_mem _ hx, hxb⟩

/-- The jobs behind one whose continuation was not read yet. -/
theorem isChain_place (ho : (s.ledger place).InOrder) (ha : place a = some p)
    (hp : p.stage ≤ Stage.continuationRead.rank) (hl : Links s.jobs (a :: l)) :
    (a :: l).IsChain fun x y => place y = some (.cont x) := by
  induction l generalizing a p with
  | nil => exact List.isChain_singleton a
  | cons b l ih =>
      have hopen : (s.ledger place).Open a := by
        refine ⟨ho.valid.live ha, fun hread => ?_⟩
        have hlt := (ho.valid.mem_trail_iff ha).mp (continuationRead_iff.mpr hread)
        rw [Stage.rank_continuationRead] at hp hlt
        omega
      have hb : place b = some (.cont a) := (ho.chained b a).mpr ⟨hopen, hl.1⟩
      exact List.isChain_cons_cons.mpr ⟨hb, ih hb (Nat.zero_le _) hl.2⟩

/-- **Chains of a system in which no job tells a parent.** What is linked behind the job of a
worker is a chain. -/
theorem Accounted.ready {C : Chain} (h : Accounted C.start) (hatt : C.Attached)
    (hnd : C.lineage.Nodup)
    (hlin : ∀ p ∈ C.lineage, p ∈ C.start.live ∧ .recycled (C.work p) ∉ C.start.log ∧
      p ∉ C.jobs) : C.Ready := by
  obtain ⟨place, hv, ho⟩ := h
  obtain ⟨a, rest, hsplit⟩ := List.exists_cons_of_ne_nil hatt.nonempty
  have hpc := hatt.pc
  have hlinks := hatt.links
  rw [hsplit] at hpc hlinks
  have ha : place a = some (.run C.worker .started (C.start.worker C.worker).via) :=
    (hv.run ..).mp ⟨by rw [hpc]; rfl, rfl⟩
  have hchain := isChain_place ho ha (Nat.zero_le _) hlinks
  -- no job of the chain is in a queue, and none passed a stage
  have hplace : ∀ b ∈ C.jobs, ∃ p, place b = some p ∧ p.stage = 0 ∧ ∀ q, p ≠ .queue q := by
    intro b hb
    rw [hsplit] at hb
    rcases List.mem_cons.mp hb with rfl | hb
    · exact ⟨_, ha, rfl, by simp⟩
    · obtain ⟨x, -, hx⟩ := exists_of_isChain hchain b hb
      exact ⟨_, hx, rfl, by simp⟩
  have hnodup : C.jobs.Nodup := by
    rw [hsplit]
    refine nodup_of_isChain (fun hx hx' => ?_) hchain fun x hx => ?_
    · cases Option.some.inj (hx.symm.trans hx')
      rfl
    · rw [ha] at hx
      cases hx
  have hlive : ∀ b ∈ C.jobs ++ C.lineage, b ∈ C.start.live := by
    intro b hb
    rcases List.mem_append.mp hb with hb | hb
    · obtain ⟨p, hp, -⟩ := hplace b hb
      exact ho.valid.live hp
    · exact (hlin b hb).1
  constructor
  case toAttached => exact hatt
  case live => exact hlive
  case intact => exact ⟨hv.store, fun hq => ho.valid.live ((hv.queue _ _).mp hq)⟩
  case counters =>
    intro b hb
    obtain ⟨p, hp, hstage, -⟩ := hplace b hb
    refine ho.valid.counter_one (ho.valid.live hp) fun hoff => ?_
    have hlt := (ho.valid.mem_trail_iff hp).mp hoff
    omega
  case unlinked =>
    intro b hb q hq
    obtain ⟨p, hp, -, hno⟩ := hplace b hb
    exact hno q (Option.some.inj (hp.symm.trans ((hv.queue q b).mp hq)))
  case kept =>
    intro b hb hq
    have hbin := (hv.queue _ b).mp hq
    refine (hlin b hb).2.1 (recycled_iff.mp ((ho.valid.mem_trail_iff hbin).mpr ?_))
    exact Nat.lt_succ_self _
  case works =>
    refine List.Nodup.map_on (fun b hb d hd hbd => ?_) ?_
    · exact ho.valid.work_inj (hlive b hb) (hlive d hd) hbd
    · exact List.nodup_append.mpr ⟨hnodup, hnd, fun b hb d hd hbd => (hlin d hd).2.2 (hbd ▸ hb)⟩

end Accounted

/-! ## Other threads -/

namespace Chain

variable {C : Chain} {s s' : State} {place place' : Addr → Option Place} {done rest : List Addr}
  {a b : Addr} {x : Point} {y : Action} {n : Nat}

/-- The job is one of the chain that is not recycled yet. -/
def Mine (C : Chain) (s : State) (b : Addr) : Prop :=
  b ∈ C.jobs ∧ .recycled (C.work b) ∉ C.start.since s

/-- No continuation is attached to these. -/
def policy (C : Chain) (s : State) : Policy :=
  { Policy.any with attaches := fun b _ _ => ¬ C.Mine s b }

/-- **Steps in a system without parents**: those of the worker, up to the end of the loop, with works
that schedule jobs, and any of other threads but the write of a continuation of the chain. -/
def Regular (C : Chain) (s : State) (y : Action) : Prop :=
  y.Parentless ∧
    if C.own y then (s.worker C.worker).pc ≠ .execute none
    else if y.caller = some (.worker C.worker) then y.NoThen
    else ∀ t b of a, y = .call t → s.call t = .attach b of a → ¬ C.Mine s b

/-- The jobs of the chain are in the hands of the worker, or behind each other. -/
def Placed (C : Chain) (s : State) (place : Addr → Option Place) : Prop :=
  ∀ b, C.Mine s b → (∃ p, place b = some p ∧ p.Waits C.worker) ∧ (s.jobs b).work = C.work b

theorem links_congr {jobs jobs' : Addr → Job} {l : List Addr}
    (h : ∀ c ∈ l, (jobs' c).continuation = (jobs c).continuation) (hl : Links jobs l) :
    Links jobs' l := by
  induction l with
  | nil => trivial
  | cons c l ih =>
      exact ⟨(h c List.mem_cons_self).trans hl.1,
        ih (fun d hd => h d (List.mem_cons_of_mem _ hd)) hl.2⟩

theorem recycled_of_mark {w : Work} (h : (w, .recycled) ∈ C.marks s) :
    .recycled w ∈ C.start.since s := by
  obtain ⟨-, e, he, hm⟩ := mem_marks.mp h
  cases e <;> simp [Event.mark] at hm
  exact hm ▸ he

theorem Runs.recycled_done (h : C.Runs s done a rest x) (hb : b ∈ done) :
    .recycled (C.work b) ∈ C.start.since s := by
  refine recycled_of_mark ?_
  rw [h.logged.marks]
  exact List.mem_append_left _ (mem_script.mpr (List.mem_map_of_mem hb))

theorem Phase.current {pc : Pc} (hlin : C.lineage = []) (h : C.Phase a rest pc x) :
    pc.current = some (a, x.stage) ∧
      (x.stage.rank ≤ Stage.continuationRead.rank ∨ pc.following = rest.head?) := by
  cases h
  case tell hp | climb hp _ _ | climbTell hp _ _ | unwind hp _ _ => simp [hlin] at hp
  all_goals exact ⟨rfl, by simp [Pc.following]⟩

theorem Runs.placed (h : C.Runs s done a rest x) (hlin : C.lineage = []) (hv : Views s place)
    (ho : (s.ledger place).InOrder) (hr : C.Ready) : C.Placed s place := by
  rintro b ⟨hb, hrec⟩
  rw [h.split] at hb
  have hb' : b ∈ a :: rest :=
    (List.mem_append.mp hb).resolve_left fun hd => hrec (h.recycled_done hd)
  have hjob : ∀ c ∈ a :: rest, (s.jobs c).work = C.work c ∧
      (s.jobs c).continuation = (C.start.jobs c).continuation := by
    intro c hc
    rcases List.mem_cons.mp hc with rfl | hc
    · rw [h.jobs.current]
      exact ⟨rfl, rfl⟩
    · rw [h.jobs.waiting c hc]
      exact ⟨rfl, rfl⟩
  have hlinks : Links s.jobs (a :: rest) := by
    have hstart := hr.links
    rw [h.split] at hstart
    exact links_congr (fun c hc => (hjob c hc).2) (links_append hstart)
  refine ⟨?_, (hjob b hb').1⟩
  -- the current job, and the ones behind it or behind the next one
  obtain ⟨hcur, hfol⟩ := h.phase.current hlin
  have ha : place a = some (.run C.worker x.stage (s.worker C.worker).via) := hv.current hcur
  rcases List.mem_cons.mp hb' with rfl | hb'
  · exact ⟨_, ha, rfl⟩
  · rcases hfol with hstage | hfol
    · obtain ⟨c, -, hc⟩ := exists_of_isChain (isChain_place ho ha hstage hlinks) b hb'
      exact ⟨_, hc, trivial⟩
    · obtain ⟨c, l, rfl⟩ := List.exists_cons_of_ne_nil (List.ne_nil_of_mem hb')
      have hc : place c = some (.next C.worker (s.worker C.worker).via) :=
        (hv.next ..).mp ⟨hfol, rfl⟩
      rcases List.mem_cons.mp hb' with rfl | hb'
      · exact ⟨_, hc, rfl⟩
      · obtain ⟨d, -, hd⟩ := exists_of_isChain (isChain_place ho hc (Nat.zero_le _) hlinks.2) b hb'
        exact ⟨_, hd, trivial⟩

theorem Ended.placed (h : C.Ended s) : C.Placed s place := by
  rintro b ⟨hb, hrec⟩
  refine absurd (recycled_of_mark ?_) hrec
  rw [h.logged.marks]
  exact mem_script.mpr (List.mem_map_of_mem hb)

/-- **What the other threads leave alone** in a system without parents. -/
theorem Placed.spares (hp : C.Placed s place) (hlin : C.lineage = [])
    (hv : Views s place) (ho : (s.ledger place).InOrder)
    (hv' : Views s' place') (ho' : (s'.ledger place').InOrder)
    (hb : (s.ledger place).Beside (C.policy s) C.worker (s'.ledger place'))
    (hcall : s'.call (.worker C.worker) = s.call (.worker C.worker)) : C.Spares s s' := by
  have hparent : C.parent = none := by rw [Chain.parent, hlin]; rfl
  -- what comes into a queue was in none of the worker's hands
  have hout : ∀ {b p q}, place b = some p → p.Waits C.worker → ¬ s'.store.Linked q b := by
    intro b p q hbp hw hq
    rcases hb.queue ((hv'.queue q b).mp hq) with h | ⟨-, t, c, h⟩ | ⟨j, v, hj, h, -⟩
    all_goals
      obtain rfl := Option.some.inj (hbp.symm.trans h)
      first | exact hw | exact hj hw
  have hheld : ∀ {b}, (s.call (.worker C.worker)).job = some b →
      place b = some (.call (.worker C.worker) (s.call (.worker C.worker))) ∧
        place' b = some (.call (.worker C.worker) (s.call (.worker C.worker))) := by
    intro b hb
    exact ⟨(hv.call ..).mp ⟨rfl, hb⟩, (hv'.call ..).mp ⟨hcall, hb⟩⟩
  constructor
  case jobs =>
    intro b hbj hrec
    obtain ⟨⟨p, hbp, hw⟩, -⟩ := hp b ⟨hbj, hrec⟩
    exact ⟨hb.jobs hbp hw fun of a hatt => hatt ⟨hbj, hrec⟩,
      fun q hq => absurd hq (hout hbp hw)⟩
  case held =>
    intro b hbc q hq
    have hpl := (hheld hbc).2
    rw [(hv'.queue q b).mp hq] at hpl
    cases hpl
  case parent => simp [hparent]
  case lineage => simp [hlin]
  case live =>
    rintro b (hbl | ⟨hbj, hrec⟩ | hbc) -
    · simp [hlin] at hbl
    · obtain ⟨⟨p, hbp, hw⟩, -⟩ := hp b ⟨hbj, hrec⟩
      refine hb.live hbp fun q hq => ?_
      subst hq
      exact hw
    · exact hb.live (hheld hbc).1 (by simp)
  case bin =>
    intro b hq
    rcases hb.queue ((hv'.queue _ b).mp hq) with h | ⟨hbin, -⟩ | ⟨j, v, hj, -, h | h⟩
    · exact (hv.queue _ b).mpr h
    · cases hbin
    · exact absurd (Tid.worker.inj (QueueId.recyclingBin.inj h)).symm hj
    · cases h
  case intact =>
    exact fun _ => ⟨hv'.store, fun hq => ho'.valid.live ((hv'.queue _ _).mp hq)⟩
  case log =>
    obtain ⟨es, hlog, hes⟩ := hb.log
    refine ⟨es, hlog, fun e he => ⟨fun w k hm => ⟨fun hw => ?_, by simp [hparent]⟩, (hes e he).2⟩⟩
    obtain ⟨b, j, m, v, hj, hbp, rfl⟩ := (hes e he).1 w k hm
    obtain ⟨c, hc, hcw⟩ := List.mem_map.mp hw
    have hcw' : C.work c = (s.jobs b).work := hcw
    by_cases hrec : .recycled (C.work c) ∈ C.start.since s
    · -- a job at a worker is not recycled
      have htrail : .recycled ∈ trail s.log (s.jobs b).work :=
        recycled_iff.mpr (hcw' ▸ List.mem_of_mem_take hrec)
      have hlt := (ho.valid.mem_trail_iff hbp).mp htrail
      exact absurd hlt (Nat.not_lt.mpr m.rank_le)
    · obtain ⟨⟨p, hcp, hw⟩, hcwork⟩ := hp c ⟨hc, hrec⟩
      obtain rfl := ho.valid.work_inj (ho.valid.live hcp) (ho.valid.live hbp)
        (hcwork.trans hcw')
      obtain rfl := Option.some.inj (hcp.symm.trans hbp)
      exact hj hw

end Chain

/-! ## Chains in order -/

namespace Chain

variable {C : Chain} {s : State} {y : Action} {n : Nat} {tr : List (State × Action)}

/-- The other threads leave alone what `Spares` says. -/
def Undisturbed (C : Chain) (tr : List (State × Action)) : Prop :=
  C.Ready ∧ C.Counts ∧ ∀ p ∈ tr, C.Allowed p.1 p.2

/-- **A chain in a system without parents.** -/
structure Rootless (C : Chain) (tr : List (State × Action)) : Prop where
  attached : C.Attached
  reached : ∃ n tr₀, Transition.Run step (init n) tr₀ C.start ∧ ∀ p ∈ tr₀, p.2.Parentless
  regular : ∀ p ∈ tr, C.Regular p.1 p.2

theorem Regular.allowed (hy : C.Regular s y) (h : C.Holds s n) (hr : C.Ready)
    (hlin : C.lineage = []) (hacc : Accounted s) (hroot : s.Rootless) : C.Allowed s y := by
  obtain ⟨hpar, hy⟩ := hy
  rw [Allowed]
  by_cases hown : C.own y = true
  · rw [if_pos hown] at hy ⊢
    exact hy
  · rw [if_neg hown] at hy ⊢
    by_cases hcaller : y.caller = some (.worker C.worker)
    · rw [if_pos hcaller] at hy ⊢
      exact ⟨hpar, hy⟩
    · rw [if_neg hcaller] at hy ⊢
      intro s' hs
      obtain ⟨place, hv, ho⟩ := hacc
      have hP : (C.policy s).Admits s y :=
        ⟨fun _ => trivial, fun hyt hc => hy _ _ _ _ hyt hc, fun _ _ _ => trivial⟩
      have hsim := step_simulated hv ho (hroot.noneToTell y) hP hs
      obtain ⟨place', hv', ho', hb⟩ := hsim.beside hv ho
        (worker_of_not_own (Bool.not_eq_true _ ▸ hown) hs)
      have hplaced : C.Placed s place := by
        rcases h with ⟨done, a, rest, x, hruns, -⟩ | ⟨hend, -⟩
        · exact hruns.placed hlin hv ho hr
        · exact hend.placed
      exact hplaced.spares hlin hv ho hv' ho' hb (step_call hcaller hs)

/-- The states of a run in which the chain is undisturbed. -/
theorem Ready.holds_visited (hr : C.Ready) (hc : C.Counts) (h : Transition.Run step C.start tr s)
    (hall : ∀ p ∈ tr, C.Allowed p.1 p.2) :
    ∀ x ∈ Transition.visited tr s, ∃ n, C.Holds x n := by
  refine h.invariant_visited (I := fun x => ∃ n, C.Holds x n) (C := C.Allowed) ⟨_, hr.holds⟩ ?_ hall
  intro x y x' hI hCx hs
  obtain ⟨n, hn⟩ := hI
  obtain ⟨n', hn', -⟩ := hn.step hr hc hCx hs
  exact ⟨n', hn'⟩

/-- Up to the end of such a run the chain is undisturbed. -/
theorem Rootless.undisturbed (hC : C.Rootless tr) (h : Transition.Run step C.start tr s) :
    C.Undisturbed tr := by
  obtain ⟨hatt, ⟨m, tr₀, hrun₀, hpar₀⟩, hreg⟩ := hC
  obtain ⟨hacc, hroot⟩ := run_rootless hrun₀ hpar₀ C.start (Transition.mem_visited_self _ _)
  -- the chain has no parent
  have hlin : C.lineage = [] := by
    obtain ⟨a, rest, hsplit⟩ := List.exists_cons_of_ne_nil hatt.nonempty
    have hasc := hatt.ascends a (by rw [hsplit]; rfl)
    have hnone : (C.start.jobs a).parent = none := hroot.parent a
    rw [hnone] at hasc
    cases hl : C.lineage with
    | nil => rfl
    | cons p up =>
        rw [hl] at hasc
        cases hasc.1
  have hr : C.Ready := hacc.ready hatt (by simp [hlin]) (by simp [hlin])
  have hcount : C.count = 1 := by simp [Chain.count, Chain.parent, hlin]
  have hc : C.Counts := ⟨hcount.ge, by omega⟩
  refine ⟨hr, hc, ?_⟩
  induction h with
  | nil => exact fun p hp => absurd hp List.not_mem_nil
  | @snoc tr s s' a hrun hs ih =>
      have hpre := ih fun p hp => hreg p (List.mem_cons_of_mem _ hp)
      obtain ⟨n, hn⟩ := hr.holds_visited hc hrun hpre s (Transition.mem_visited_self tr s)
      have hI : Accounted s ∧ s.Rootless := hrun.invariant (I := fun s => Accounted s ∧ s.Rootless)
        (C := fun _ x => x.Parentless) ⟨hacc, hroot⟩
        (fun hI hx hs => ⟨hI.1.step (hI.2.noneToTell _) hs, hI.1.step_rootless hI.2 hx hs⟩)
        fun p hp => (hreg p (List.mem_cons_of_mem _ hp)).1
      intro p hp
      rcases List.mem_cons.mp hp with rfl | hp
      · exact (hreg _ List.mem_cons_self).allowed hn hr hlin hI.1 hI.2
      · exact hpre p hp

/-- **Continuation chains keep order and keep the parent open.** The loop runs the works of the
chain one after the other, each through all its stages before the next one, it ends after the last
one, and it takes a bounded number of steps for that, whatever the works do in between. So it is
in a system in which no job has a parent, and in another one if the other threads leave the chain
alone. -/
theorem chain_in_order (C : Chain) {tr : List (State × Action)} {s : State}
    (h : Transition.Run step C.start tr s) (hC : C.Rootless tr ∨ C.Undisturbed tr) :
    (∀ x ∈ Transition.visited tr s, C.Follows x) ∧
      tr.countP (fun p => C.own p.2) ≤ (3 * C.lineage.length + 8) * C.jobs.length := by
  obtain ⟨hr, hc, hall⟩ : C.Undisturbed tr := hC.elim (fun hC => hC.undisturbed h) id
  have hfollows : ∀ {x n}, C.Holds x n → C.Follows x := by
    rintro x n (⟨done, a, rest, y, hruns, -⟩ | ⟨hend, -⟩)
    · exact hruns.follows
    · exact hend.follows hr
  constructor
  · intro x hx
    obtain ⟨n, hn⟩ := hr.holds_visited hc h hall x hx
    exact hfollows hn
  · obtain ⟨n, -, hle⟩ := h.countP_add_le (p := fun p => C.own p.2) hr.holds
      (fun hn hCx hs => hn.step hr hc hCx hs) hall
    omega

/-- The steps of the worker up to the end of the loop, with those of its works. -/
theorem allowed_of_alone {C : Chain} {s : State} {x : Action}
    (h : (x = .work C.worker ∨ x = .finish C.worker) ∧ (s.worker C.worker).pc ≠ .execute none ∨
      x.caller = some (.worker C.worker) ∧ x.Parentless ∧ x.NoThen) : C.Allowed s x := by
  rcases h with ⟨rfl | rfl, hpc⟩ | ⟨hcaller, hx⟩
  · rw [Allowed, if_pos (by simp [own])]
    exact hpc
  · rw [Allowed, if_pos (by simp [own])]
    exact hpc
  · have hown : ¬ C.own x = true := fun hown => by
      rw [caller_of_own hown] at hcaller
      cases hcaller
    rw [Allowed, if_neg hown, if_pos hcaller]
    exact hx

/-- Steps of the worker and of threads that only schedule jobs. -/
theorem regular_of_schedules {C : Chain} {s : State} {x : Action}
    (h : (x = .work C.worker ∨ x = .finish C.worker) ∧ (s.worker C.worker).pc ≠ .execute none ∨
      C.own x = false ∧ x.Parentless ∧ x.NoThen ∧ ∀ t ∈ x.caller, (s.call t).schedules = true) :
    C.Regular s x := by
  rcases h with ⟨rfl | rfl, hpc⟩ | ⟨hown, hpar, hthen, hcall⟩
  · exact ⟨trivial, by rw [if_pos (by simp [own])]; exact hpc⟩
  · exact ⟨trivial, by rw [if_pos (by simp [own])]; exact hpc⟩
  · refine ⟨hpar, ?_⟩
    rw [if_neg (by simp [hown])]
    split
    · exact hthen
    · rintro t b of a rfl hc
      have hsch := hcall t rfl
      rw [hc] at hsch
      cases hsch

/-- One worker pops a job with two continuations, and a client and the second work schedule jobs
meanwhile. And it pops a job with a parent and a continuation; the first work schedules a job
meanwhile, and the parent is completed at the end of the chain. -/
theorem chain_in_order_parent :
    (∃ C : Chain, C.jobs = [7, 8, 9] ∧ C.parent = none ∧
      ∃ tr s, Transition.Run step C.start tr s ∧ (s.worker 0).pc = .execute none ∧
        ∀ x ∈ Transition.visited tr s, C.Follows x) ∧
    ∃ C : Chain, (∃ tr, Transition.Run step (init 1) tr C.start) ∧
      C.jobs = [8, 9] ∧ C.parent = some 7 ∧ C.count = 1 ∧
      ∃ tr s, Transition.Run step C.start tr s ∧ (s.worker 0).pc = .execute none ∧
        ∀ x ∈ Transition.visited tr s, C.Follows x := by
  constructor
  · have hexec : ((Transition.exec step (fun _ x => x.Parentless) (init 1)
        ([Action.schedule (.client 0) none (some 0) 7, .call (.client 0), .call (.client 0),
          .jobThen (.client 0) 1 7 none 8, .call (.client 0), .call (.client 0),
          .jobThen (.client 0) 2 8 none 9, .call (.client 0), .call (.client 0)] ++
          List.replicate 8 (.work 0))).any fun s =>
        decide (⟨s, 0, [7, 8, 9], []⟩ : Chain).Attached &&
        (Transition.exec step (fun s x => (x = .work 0 ∨ x = .finish 0) ∧
            (s.worker 0).pc ≠ .execute none ∨
            Chain.own ⟨s, 0, [], []⟩ x = false ∧ x.Parentless ∧ x.NoThen ∧
              ∀ t ∈ x.caller, (s.call t).schedules = true) s
          ([Action.work 0, .schedule (.client 0) none none 10, .finish 0, .call (.client 0)] ++
            List.replicate 7 (.work 0) ++
            [.schedule (.worker 0) none none 11, .call (.worker 0), .call (.worker 0),
              .call (.worker 0), .finish 0] ++ List.replicate 7 (.work 0) ++ [.finish 0] ++
            List.replicate 6 (.work 0))).any fun s => decide ((s.worker 0).pc = .execute none)) =
        true := by decide
    obtain ⟨tr₀, s₀, hrun₀, -, hx₀, hs₀⟩ := Transition.exists_run_of_exec hexec
    obtain ⟨hatt, hexec⟩ := Bool.and_eq_true_iff.mp hs₀
    obtain ⟨tr, s, hrun, -, hx, hpc⟩ := Transition.exists_run_of_exec hexec
    refine ⟨⟨s₀, 0, [7, 8, 9], []⟩, rfl, rfl, tr, s, hrun, of_decide_eq_true hpc, ?_⟩
    exact (chain_in_order _ hrun (Or.inl ⟨of_decide_eq_true hatt, ⟨1, tr₀, hrun₀, hx₀⟩,
      fun p hp => regular_of_schedules (hx p hp)⟩)).1
  · have hexec : ((Transition.exec step (fun s x => s.NoneToTell x) (init 1)
        ([Action.schedule (.client 0) none none 7, .call (.client 0), .call (.client 0),
          .call (.client 0), .schedule (.client 0) (some (1, 7)) (some 0) 8, .call (.client 0),
          .call (.client 0), .jobThen (.client 0) 2 8 none 9, .call (.client 0), .call (.client 0)] ++
          List.replicate 8 (.work 0))).any fun s =>
        decide ((⟨s, 0, [8, 9], [7]⟩ : Chain).Attached ∧ 7 ∈ s.live ∧ (s.jobs 7).work = 1 ∧
          .recycled 1 ∉ s.log ∧ (s.jobs 7).numChildren = 1) &&
        (Transition.exec step (fun s x => (x = .work 0 ∨ x = .finish 0) ∧
            (s.worker 0).pc ≠ .execute none ∨
            x.caller = some (.worker 0) ∧ x.Parentless ∧ x.NoThen) s
          ([Action.work 0, .schedule (.worker 0) none none 10, .call (.worker 0), .call (.worker 0),
            .call (.worker 0), .finish 0] ++ List.replicate 8 (.work 0) ++ [.finish 0] ++
            List.replicate 9 (.work 0))).any fun s => decide ((s.worker 0).pc = .execute none)) =
        true := by decide
    obtain ⟨tr₀, s₀, hrun₀, -, hx₀, hs₀⟩ := Transition.exists_run_of_exec hexec
    obtain ⟨hs₀, hexec⟩ := Bool.and_eq_true_iff.mp hs₀
    obtain ⟨hatt, hlive, hwork, hrec, hcount⟩ := of_decide_eq_true hs₀
    obtain ⟨tr, s, hrun, -, hx, hpc⟩ := Transition.exists_run_of_exec hexec
    have hacc : Accounted s₀ := hrun₀.invariant (C := fun s x => s.NoneToTell x)
      (accounted_init 1) (fun hI hC hs => hI.step hC hs) hx₀
    have hready := hacc.ready hatt (by simp) (by simpa [Chain.work, hwork] using ⟨hlive, hrec⟩)
    refine ⟨⟨s₀, 0, [8, 9], [7]⟩, ⟨tr₀, hrun₀⟩, rfl, rfl, hcount, tr, s, hrun,
      of_decide_eq_true hpc, ?_⟩
    exact (chain_in_order _ hrun (Or.inr ⟨hready, ⟨by simp [Chain.count, Chain.parent, hcount],
      by simp [Chain.count, Chain.parent, hcount]⟩, fun p hp => allowed_of_alone (hx p hp)⟩)).1

/-- **Counterexample.** A job completes before its two children have run, and the first child tells
it nevertheless, which leaves `2 ^ 32 - 1` in its counter. The second child has a continuation: the
count that the parent gains in the hand-over makes its counter zero. And a job in the storage of a
completed one is told by a child of that one, and recycled before it has run: then the first job
that it schedules itself gets its storage, and its continuation is never run. -/
theorem not_chain_in_order :
    (∃ C : Chain, (∃ tr, Transition.Run step (init 1) tr C.start) ∧ C.Attached ∧
      C.jobs = [9, 10] ∧ C.parent = some 7 ∧ C.count = 2 ^ 32 - 1 ∧
      ∃ tr s, Transition.Run step C.start tr s ∧ (∀ p ∈ tr, C.Allowed p.1 p.2) ∧
        .started (C.work 10) 0 (some (C.work 9)) ∉ s.log ∧ (s.jobs 7).numChildren = 0 ∧
        ¬ C.Follows s) ∧
    ∃ C : Chain, (∃ tr, Transition.Run step (init 1) tr C.start) ∧ C.Attached ∧
      C.jobs = [7, 9] ∧ C.parent = none ∧
      ∃ tr s, Transition.Run step C.start tr s ∧ (∀ p ∈ tr, C.Allowed p.1 p.2) ∧
        (s.worker 0).pc = .execute none ∧ .started (C.work 9) 0 (some (C.work 7)) ∉ s.log ∧
        ¬ C.Follows s := by
  constructor
  · have hexec : ((Transition.exec step (fun _ _ => True) (init 1)
        ([Action.schedule (.client 0) none none 7, .call (.client 0), .call (.client 0),
          .call (.client 0), .schedule (.client 0) (some (1, 7)) none 8, .call (.client 0),
          .call (.client 0), .call (.client 0), .schedule (.client 0) (some (1, 7)) none 9,
          .call (.client 0), .call (.client 0), .call (.client 0),
          .jobThen (.client 0) 3 9 none 10, .call (.client 0), .call (.client 0)] ++
          List.replicate 10 (.work 0) ++ [.finish 0] ++ List.replicate 14 (.work 0) ++
          [.finish 0] ++ List.replicate 16 (.work 0))).any fun s =>
        decide ((⟨s, 0, [9, 10], [7]⟩ : Chain).Attached ∧
          (s.jobs 7).numChildren = 2 ^ 32 - 1 ∧ (s.jobs 9).work = 3 ∧ (s.jobs 10).work = 4) &&
        (Transition.exec step (fun s x => (x = .work 0 ∨ x = .finish 0) ∧
            (s.worker 0).pc ≠ .execute none ∨
            x.caller = some (.worker 0) ∧ x.Parentless ∧ x.NoThen) s
          [Action.work 0, .finish 0, .work 0, .work 0, .work 0]).any fun s =>
            decide ((s.jobs 7).numChildren = 0 ∧ .started 4 0 (some 3) ∉ s.log ∧
              .finished 4 ∉ s.log)) = true := by decide
    obtain ⟨tr₀, s₀, hrun₀, -, -, hs₀⟩ := Transition.exists_run_of_exec hexec
    obtain ⟨hs₀, hexec⟩ := Bool.and_eq_true_iff.mp hs₀
    obtain ⟨hatt, hcount, hw9, hw10⟩ := of_decide_eq_true hs₀
    obtain ⟨tr, s, hrun, -, hx, hs⟩ := Transition.exists_run_of_exec hexec
    obtain ⟨hzero, hstarted, hfinished⟩ := of_decide_eq_true hs
    refine ⟨⟨s₀, 0, [9, 10], [7]⟩, ⟨tr₀, hrun₀⟩, hatt, rfl, rfl, hcount, tr, s, hrun,
      fun p hp => allowed_of_alone (hx p hp), by simpa [Chain.work, hw9, hw10] using hstarted,
      hzero, fun hf => ?_⟩
    have hopen := hf.parent 7 rfl fun w hw hm => ?_
    · simp [Chain.count, Chain.parent, hcount, hzero] at hopen
    · obtain rfl : 4 = w := by simpa [Chain.works, Chain.work, hw10] using hw
      exact hfinished (List.mem_of_mem_take hm)
  · have hexec : ((Transition.exec step (fun _ _ => True) (init 1)
        ([Action.schedule (.client 0) none none 7, .call (.client 0), .call (.client 0),
          .call (.client 0), .schedule (.client 0) (some (1, 7)) none 8, .call (.client 0),
          .call (.client 0), .call (.client 0)] ++
          List.replicate 10 (.work 0) ++ [.finish 0] ++ List.replicate 14 (.work 0) ++
          [.schedule (.worker 0) none none 9, .call (.worker 0), .call (.worker 0),
            .call (.worker 0), .jobThen (.worker 0) 3 7 none 9, .call (.worker 0),
            .call (.worker 0), .finish 0] ++ List.replicate 16 (.work 0))).any fun s =>
        decide ((⟨s, 0, [7, 9], []⟩ : Chain).Attached ∧ (s.jobs 7).work = 3 ∧
          (s.jobs 9).work = 4) &&
        (Transition.exec step (fun s x => (x = .work 0 ∨ x = .finish 0) ∧
            (s.worker 0).pc ≠ .execute none ∨
            x.caller = some (.worker 0) ∧ x.Parentless ∧ x.NoThen) s
          ([Action.work 0, .schedule (.worker 0) none none 10, .call (.worker 0),
            .call (.worker 0), .call (.worker 0), .finish 0] ++ List.replicate 6 (.work 0))).any
          fun s => decide ((s.worker 0).pc = .execute none ∧ .started 4 0 (some 3) ∉ s.log ∧
            .finished 4 ∉ s.log)) = true := by decide
    obtain ⟨tr₀, s₀, hrun₀, -, -, hs₀⟩ := Transition.exists_run_of_exec hexec
    obtain ⟨hs₀, hexec⟩ := Bool.and_eq_true_iff.mp hs₀
    obtain ⟨hatt, hw7, hw9⟩ := of_decide_eq_true hs₀
    obtain ⟨tr, s, hrun, -, hx, hs⟩ := Transition.exists_run_of_exec hexec
    obtain ⟨hpc, hstarted, hfinished⟩ := of_decide_eq_true hs
    refine ⟨⟨s₀, 0, [7, 9], []⟩, ⟨tr₀, hrun₀⟩, hatt, rfl, rfl, tr, s, hrun,
      fun p hp => allowed_of_alone (hx p hp), hpc,
      by simpa [Chain.work, hw7, hw9] using hstarted, fun hf => ?_⟩
    -- the stages of the continuation are missing
    have hmark : (4, .finished) ∈ (⟨s₀, 0, [7, 9], []⟩ : Chain).marks s := by
      rw [(hf.ended hpc).1, mem_script]
      simp [Chain.works, Chain.work, hw9]
    exact hfinished (List.mem_of_mem_take (finished_of_mark hmark))

end Chain

end Bop.JobSystem
