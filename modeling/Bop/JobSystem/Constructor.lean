import Bop.Queue.Store
import Bop.Basic.Transition
import Mathlib.Data.List.Perm.Subperm

set_option autoImplicit false

/-! # The constructor of `JobSystem`

Every call of `bop::schedule` constructs a `JobSystem` and calls `schedule` on it. The members
of the class are static, and the first constructor is to initialize them: `m_InitOnce` is tested
and then counted up, and whoever finds `0` there goes on. Here each statement of the constructor
and of the part of `schedule` that uses the members is a step.

The count makes sure that one thread only initializes the members. It does not make the others
wait: they return from the constructor as soon as the first one has counted.
`initialised_first_iff` says that this is what can go wrong, and nothing else.
-/

namespace Bop.JobSystem.Constructor

/-- The arguments of `JobSystem()`, with a memory resource that is not null, and the
`thread_index` of the call of `schedule` that follows. -/
structure Args where
  numThreads : Option Nat
  memoryResource : Nat
  threadIndex : Option Nat
  deriving DecidableEq

/-- Where a thread is in the constructor and in `schedule`. -/
inductive Pc
  | idle                 -- in other code
  | testInitOnce         -- if (m_InitOnce > 0) return;
  | fetchAdd             -- count = m_InitOnce.fetch_add(1); if (count > 0) return;
  | setMemoryResource    -- m_MemoryResource = memory_resource;
  | setNumThreads        -- m_NumThreads = std::thread::hardware_concurrency(); or *num_threads
  | fixNumThreads        -- if (m_NumThreads == 0) m_NumThreads = 1;
  | setApplicationStart  -- m_ApplicationStart = Clock::now();
  | setGlobalQueues      -- m_GlobalQueues = std::make_unique<JobQueue[]>(m_NumThreads);
  | setLocalQueues       -- m_LocalQueues = std::make_unique<JobQueue[]>(m_NumThreads);
  | setMutexes           -- m_Mutexes = std::make_unique<std::mutex[]>(m_NumThreads);
  | setTraces            -- m_Traces.resize(m_NumThreads, ..);
  | launch (i : Nat)     -- for (..; i < m_NumThreads; ++i) { .. }
  | createJob            -- create_job()
  | route                -- the test of m_ThreadIndex in schedule_work
  | balance              -- ++tidx; if (tidx >= m_NumThreads) tidx = 0;
  | pushGlobal           -- m_GlobalQueues[tidx].push(work);
  | pushLocal            -- m_LocalQueues[l_ThreadIndex].push(work);
  deriving DecidableEq

structure Thread where
  pc : Pc := .idle
  args : Args := ⟨none, 0, none⟩
  tidx : Nat := 0
  deriving DecidableEq

/-- The members that `create_job` and `schedule_work` read. -/
inductive Member
  | memoryResource
  | numThreads
  | globalQueues
  | localQueues
  deriving DecidableEq

/-- What happened, for stating properties of runs. -/
inductive Event
  | entered (t : Nat) (count : Nat)             -- the fetch_add found `count`
  | assigned (t : Nat) (m : Member)
  | created (t : Nat) (resource : Option Nat)   -- create_job allocated from `resource`
  | pushedGlobal (t : Nat) (i : Nat) (size : Option Nat) -- to m_GlobalQueues[i]
  | pushedLocal (t : Nat) (i : Nat) (size : Option Nat)  -- to m_LocalQueues[i]
  deriving DecidableEq

structure State where
  initOnce : Nat
  /-- null at first -/
  memoryResource : Option Nat
  numThreads : Nat
  /-- whether `m_ApplicationStart` was set -/
  applicationStart : Bool
  /-- the lengths of the arrays, which are null at first -/
  globalQueues : Option Nat
  localQueues : Option Nat
  mutexes : Option Nat
  traces : Nat
  workerThreads : Nat
  thread : Nat → Thread
  /-- newest first -/
  log : List Event

/-- The values of the static members at program start. -/
def init : State where
  initOnce := 0
  memoryResource := none
  numThreads := 0
  applicationStart := false
  globalQueues := none
  localQueues := none
  mutexes := none
  traces := 0
  workerThreads := 0
  thread := fun _ => {}
  log := []

/-! ## The steps -/

/-- Thread `t` goes on at `pc`. -/
def State.goto (s : State) (t : Nat) (pc : Pc) : State :=
  { s with thread := Function.update s.thread t { s.thread t with pc := pc } }

def State.record (s : State) (e : Event) : State := { s with log := e :: s.log }

/-- The next statement of thread `t`, where `hardware` is what
`std::thread::hardware_concurrency()` returns. -/
def threadStep (hardware : Nat) (s : State) (t : Nat) : Option State :=
  let th := s.thread t
  match th.pc with
  | .idle => none
  | .testInitOnce => some (s.goto t (if s.initOnce > 0 then .createJob else .fetchAdd))
  | .fetchAdd =>
      some ({ s.goto t (if s.initOnce > 0 then .createJob else .setMemoryResource) with
        initOnce := (s.initOnce + 1) % 2 ^ 64 }.record (.entered t s.initOnce))
  | .setMemoryResource =>
      some ({ s.goto t .setNumThreads with
        memoryResource := some th.args.memoryResource }.record (.assigned t .memoryResource))
  | .setNumThreads =>
      some ({ s.goto t .fixNumThreads with
        numThreads := th.args.numThreads.getD hardware }.record (.assigned t .numThreads))
  | .fixNumThreads => -- always have at least one worker
      some { s.goto t .setApplicationStart with
        numThreads := if s.numThreads = 0 then 1 else s.numThreads }
  | .setApplicationStart => some { s.goto t .setGlobalQueues with applicationStart := true }
  | .setGlobalQueues =>
      some ({ s.goto t .setLocalQueues with
        globalQueues := some s.numThreads }.record (.assigned t .globalQueues))
  | .setLocalQueues =>
      some ({ s.goto t .setMutexes with
        localQueues := some s.numThreads }.record (.assigned t .localQueues))
  | .setMutexes => some { s.goto t .setTraces with mutexes := some s.numThreads }
  | .setTraces => some { s.goto t (.launch 0) with traces := s.numThreads }
  | .launch i =>
      if i < s.numThreads then
        some { s.goto t (.launch (i + 1)) with workerThreads := s.workerThreads + 1 }
      else some (s.goto t .createJob)
  | .createJob => some ((s.goto t .route).record (.created t s.memoryResource))
  | .route =>
      match th.args.threadIndex with
      | none => some (s.goto t .balance)
      | some k => some (s.goto t (if k ≥ s.numThreads then .balance else .pushLocal))
  | .balance =>
      let tidx := succ32 th.tidx
      some { s with
        thread := Function.update s.thread t
          { th with pc := .pushGlobal, tidx := if tidx ≥ s.numThreads then 0 else tidx } }
  | .pushGlobal => some ((s.goto t .idle).record (.pushedGlobal t th.tidx s.globalQueues))
  | .pushLocal => -- `l_ThreadIndex` is `0` outside of the workers
      some ((s.goto t .idle).record (.pushedLocal t 0 s.localQueues))

inductive Action
  /-- `JobSystem(num_threads, memory_resource).schedule(fn, parent, thread_index)` -/
  | call (t : Nat) (args : Args)
  /-- the next statement of thread `t` -/
  | next (t : Nat)
  deriving DecidableEq

def Action.thread : Action → Nat
  | .call t _ | .next t => t

def step (hardware : Nat) (s : State) : Action → Option State
  | .call t args =>
      if (s.thread t).pc = .idle then
        some { s with
          thread := Function.update s.thread t
            { s.thread t with pc := .testInitOnce, args := args } }
      else none
  | .next t => threadStep hardware s t

/-! ## Initialisation before use -/

/-- The members that `create_job` and `schedule_work` read are set. -/
def State.Ready (s : State) : Prop :=
  s.memoryResource.isSome = true ∧ 0 < s.numThreads ∧ s.globalQueues = some s.numThreads ∧
    s.localQueues = some s.numThreads

instance (s : State) : Decidable s.Ready := inferInstanceAs (Decidable (_ ∧ _ ∧ _ ∧ _))

/-- The thread is in `schedule`. -/
def Pc.uses : Pc → Bool
  | .createJob | .route | .balance | .pushGlobal | .pushLocal => true
  | _ => false

/-- The thread is between its `fetch_add` and its return, so it is the one that initializes. -/
def Pc.initialises : Pc → Bool
  | .setMemoryResource | .setNumThreads | .fixNumThreads | .setApplicationStart
  | .setGlobalQueues | .setLocalQueues | .setMutexes | .setTraces | .launch _ => true
  | _ => false

/-- A `fetch_add` that found zero. -/
def Event.wins : Event → Bool
  | .entered _ count => count = 0
  | _ => false

/-- **One-time initialisation before every use**: as soon as a constructor counted, exactly one
found zero, all assignments are its own, and no thread is in `schedule` before they are done. -/
structure State.InitialisedFirst (s : State) : Prop where
  once : s.log.countP Event.wins = if s.initOnce = 0 then 0 else 1
  by_winner : ∀ t m, .assigned t m ∈ s.log → .entered t 0 ∈ s.log
  ready : ∀ t, (s.thread t).pc.uses = true → s.Ready

/-- The action returns from the constructor, because another thread counted first, while the
members are not all set. -/
def State.LeavesEarly (s : State) (x : Action) : Prop :=
  ((s.thread x.thread).pc = .testInitOnce ∨ (s.thread x.thread).pc = .fetchAdd) ∧
    0 < s.initOnce ∧ ¬ s.Ready

instance (s : State) (x : Action) : Decidable (s.LeavesEarly x) :=
  inferInstanceAs (Decidable (_ ∧ _ ∧ _))

/-! ## How far the initialisation is -/

/-- The number of statements that the thread has executed, of those up to the assignment of
`m_LocalQueues`. -/
def Pc.stage : Pc → Nat
  | .setMemoryResource => 0
  | .setNumThreads => 1
  | .fixNumThreads => 2
  | .setApplicationStart => 3
  | .setGlobalQueues => 4
  | .setLocalQueues => 5
  | _ => 6

/-- What is set after `k` statements. -/
structure Progress (s : State) (k : Nat) : Prop where
  memoryResource : 1 ≤ k → s.memoryResource.isSome = true
  numThreads : 3 ≤ k → 0 < s.numThreads
  globalQueues : 5 ≤ k → s.globalQueues = some s.numThreads
  localQueues : 6 ≤ k → s.localQueues = some s.numThreads
  unset : k ≤ 5 → s.localQueues = none

section Steps

variable {hardware n : Nat} {s s' : State} {t u w : Nat} {x : Action} {k : Nat}

theorem Progress.ready_iff (h : Progress s k) : s.Ready ↔ 6 ≤ k := by
  constructor
  · intro hr
    by_contra hk
    have hnone := h.unset (by omega)
    rw [hr.2.2.2] at hnone
    cases hnone
  · intro hk
    exact ⟨h.memoryResource (by omega), h.numThreads (by omega), h.globalQueues (by omega),
      h.localQueues hk⟩

/-- The events that are no part of the initialisation. -/
def Event.plain : Event → Bool
  | .entered _ _ | .assigned _ _ => false
  | _ => true

/-- The members that `schedule` reads stay as they are. -/
structure Members (s s' : State) : Prop where
  memoryResource : s'.memoryResource = s.memoryResource
  numThreads : s'.numThreads = s.numThreads
  globalQueues : s'.globalQueues = s.globalQueues
  localQueues : s'.localQueues = s.localQueues

theorem Members.ready (h : Members s s') : s'.Ready ↔ s.Ready := by
  rw [State.Ready, State.Ready, h.memoryResource, h.numThreads, h.globalQueues, h.localQueues]

theorem Members.progress (h : Members s s') (hp : Progress s k) : Progress s' k where
  memoryResource hk := h.memoryResource ▸ hp.memoryResource hk
  numThreads hk := h.numThreads ▸ hp.numThreads hk
  globalQueues hk := by rw [h.globalQueues, h.numThreads, hp.globalQueues hk]
  localQueues hk := by rw [h.localQueues, h.numThreads, hp.localQueues hk]
  unset hk := h.localQueues.trans (hp.unset hk)

/-- Nothing about the initialisation changes. -/
structure Apart (s s' : State) : Prop where
  members : Members s s'
  initOnce : s'.initOnce = s.initOnce
  log : ∃ es, s'.log = es ++ s.log ∧ ∀ e ∈ es, e.plain = true

theorem Apart.goto {pc : Pc} : Apart s (s.goto t pc) :=
  ⟨⟨rfl, rfl, rfl, rfl⟩, rfl, [], rfl, by simp⟩

/-- **What a step of thread `t` does.** -/
inductive Effect (s : State) (t : Nat) (s' : State) : Prop
  | outside (h : Apart s s') (hin : (s.thread t).pc ≠ .testInitOnce ∧ (s.thread t).pc ≠ .fetchAdd)
      (hpc : (s.thread t).pc.initialises = false)
      (hpc' : (s'.thread t).pc.initialises = false) (hne : (s'.thread t).pc ≠ .fetchAdd)
      (huses : (s'.thread t).pc.uses = true → (s.thread t).pc.uses = true)
  | tests (h : Apart s s') (hpc : (s.thread t).pc = .testInitOnce)
      (hpc' : (s'.thread t).pc = if s.initOnce > 0 then .createJob else .fetchAdd)
  | counts (h : Members s s') (hpc : (s.thread t).pc = .fetchAdd)
      (hpc' : (s'.thread t).pc = if s.initOnce > 0 then .createJob else .setMemoryResource)
      (hinit : s'.initOnce = (s.initOnce + 1) % 2 ^ 64)
      (hl : s'.log = .entered t s.initOnce :: s.log)
  | assigns (k : Nat) (hk : k ≤ 5) (hpc : (s.thread t).pc.stage = k)
      (hpc' : (s'.thread t).pc.initialises = true) (hstage : (s'.thread t).pc.stage = k + 1)
      (hinit : s'.initOnce = s.initOnce) (hprogress : Progress s k → Progress s' (k + 1))
      (hl : ∃ es, s'.log = es ++ s.log ∧ ∀ e ∈ es, ∃ m, e = .assigned t m)
  | completes (h : Apart s s') (hpc : (s.thread t).pc.initialises = true)
      (hstage : (s.thread t).pc.stage = 6) (hstage' : (s'.thread t).pc.stage = 6)
      (hpc' : (s'.thread t).pc.initialises = true ∨ (s'.thread t).pc = .createJob)

theorem initialises_of_stage {pc : Pc} (h : pc.stage ≤ 5) : pc.initialises = true := by
  cases pc <;> first | rfl | exact absurd h (by decide)

theorem stage_of_not_initialises {pc : Pc} (h : pc.initialises = false) : pc.stage = 6 := by
  cases pc <;> first | rfl | cases h

theorem goto_pc (s : State) (t : Nat) (pc : Pc) : ((s.goto t pc).thread t).pc = pc := by
  show (Function.update s.thread t _ t).pc = pc
  rw [Function.update_self]

theorem goto_thread (s : State) (pc : Pc) (h : u ≠ t) : (s.goto t pc).thread u = s.thread u :=
  Function.update_of_ne h ..

/-- The statement sets the next one of the members. -/
theorem Effect.assign {pc : Pc} (k : Nat) (hk : k ≤ 5) (hpc : (s.thread t).pc.stage = k)
    (hth : s'.thread = (s.goto t pc).thread) (hstage : pc.stage = k + 1)
    (hpc' : pc.initialises = true) (hinit : s'.initOnce = s.initOnce)
    (hprogress : Progress s k → Progress s' (k + 1))
    (hl : ∃ es, s'.log = es ++ s.log ∧ ∀ e ∈ es, ∃ m, e = .assigned t m) :
    (∀ u ≠ t, s'.thread u = s.thread u) ∧ Effect s t s' := by
  refine ⟨fun u hu => by rw [hth, goto_thread s pc hu], .assigns k hk hpc ?_ ?_ hinit hprogress hl⟩
  · rw [hth, goto_pc, hpc']
  · rw [hth, goto_pc, hstage]

/-- The statement does not touch the members. -/
theorem Effect.elsewhere {pc : Pc} (h : Apart s s') (hth : (s'.thread t).pc = pc)
    (hother : ∀ u ≠ t, s'.thread u = s.thread u)
    (hin : (s.thread t).pc ≠ .testInitOnce ∧ (s.thread t).pc ≠ .fetchAdd)
    (hpc : (s.thread t).pc.initialises = false) (hpc' : pc.initialises = false) (hne : pc ≠ .fetchAdd)
    (huses : pc.uses = true → (s.thread t).pc.uses = true) :
    (∀ u ≠ t, s'.thread u = s.thread u) ∧ Effect s t s' :=
  ⟨hother, .outside h hin hpc (hth ▸ hpc') (hth ▸ hne) (hth ▸ huses)⟩

theorem Effect.complete {pc : Pc} (h : Apart s s') (hth : s'.thread = (s.goto t pc).thread)
    (hpc : (s.thread t).pc.initialises = true) (hstage : (s.thread t).pc.stage = 6)
    (hstage' : pc.stage = 6) (hpc' : pc.initialises = true ∨ pc = .createJob) :
    (∀ u ≠ t, s'.thread u = s.thread u) ∧ Effect s t s' := by
  have hself : (s'.thread t).pc = pc := by rw [hth, goto_pc]
  exact ⟨fun u hu => by rw [hth, goto_thread s pc hu],
    .completes h hpc hstage (hself ▸ hstage') (hself ▸ hpc')⟩

/-- Each statement is one of these, -/
theorem threadStep_effect (hs : threadStep hardware s t = some s') :
    (∀ u ≠ t, s'.thread u = s.thread u) ∧ Effect s t s' := by
  have hquiet : ∀ {e₀ : Event}, e₀.plain = true → ∀ e ∈ [e₀], e.plain = true :=
    fun h e he => (List.mem_singleton.mp he) ▸ h
  -- a fact about what is assigned later says nothing here
  have hno : ∀ {i j : Nat} {P : Prop}, j < i → i ≤ j → P := by
    intro i j P hlt hle
    omega
  cases hpc : (s.thread t).pc with
  | idle =>
      simp only [threadStep, hpc] at hs
      cases hs
  | testInitOnce =>
      simp only [threadStep, hpc] at hs
      obtain rfl := Option.some.inj hs
      exact ⟨fun u hu => goto_thread s _ hu, .tests .goto hpc (goto_pc s t _)⟩
  | fetchAdd =>
      simp only [threadStep, hpc] at hs
      obtain rfl := Option.some.inj hs
      exact ⟨fun u hu => goto_thread s _ hu,
        .counts ⟨rfl, rfl, rfl, rfl⟩ hpc (goto_pc s t _) rfl rfl⟩
  | setMemoryResource =>
      simp only [threadStep, hpc] at hs
      obtain rfl := Option.some.inj hs
      exact Effect.assign 0 (by omega) (by rw [hpc]; rfl) rfl rfl rfl rfl
        (fun hp => ⟨fun _ => rfl, hno (by omega), hno (by omega), hno (by omega),
          fun _ => hp.unset (by omega)⟩) ⟨[_], rfl, by simp⟩
  | setNumThreads =>
      simp only [threadStep, hpc] at hs
      obtain rfl := Option.some.inj hs
      exact Effect.assign 1 (by omega) (by rw [hpc]; rfl) rfl rfl rfl rfl
        (fun hp => ⟨fun _ => hp.memoryResource (by omega), hno (by omega), hno (by omega),
          hno (by omega), fun _ => hp.unset (by omega)⟩) ⟨[_], rfl, by simp⟩
  | fixNumThreads =>
      simp only [threadStep, hpc] at hs
      obtain rfl := Option.some.inj hs
      have hpos : 0 < if s.numThreads = 0 then 1 else s.numThreads := by
        split
        · exact Nat.one_pos
        · omega
      exact Effect.assign 2 (by omega) (by rw [hpc]; rfl) rfl rfl rfl rfl
        (fun hp => ⟨fun _ => hp.memoryResource (by omega), fun _ => hpos, hno (by omega),
          hno (by omega), fun _ => hp.unset (by omega)⟩) ⟨[], rfl, by simp⟩
  | setApplicationStart =>
      simp only [threadStep, hpc] at hs
      obtain rfl := Option.some.inj hs
      exact Effect.assign 3 (by omega) (by rw [hpc]; rfl) rfl rfl rfl rfl
        (fun hp => ⟨fun _ => hp.memoryResource (by omega), fun _ => hp.numThreads (by omega),
          hno (by omega), hno (by omega), fun _ => hp.unset (by omega)⟩) ⟨[], rfl, by simp⟩
  | setGlobalQueues =>
      simp only [threadStep, hpc] at hs
      obtain rfl := Option.some.inj hs
      exact Effect.assign 4 (by omega) (by rw [hpc]; rfl) rfl rfl rfl rfl
        (fun hp => ⟨fun _ => hp.memoryResource (by omega), fun _ => hp.numThreads (by omega),
          fun _ => rfl, hno (by omega), fun _ => hp.unset (by omega)⟩) ⟨[_], rfl, by simp⟩
  | setLocalQueues =>
      simp only [threadStep, hpc] at hs
      obtain rfl := Option.some.inj hs
      exact Effect.assign 5 (by omega) (by rw [hpc]; rfl) rfl rfl rfl rfl
        (fun hp => ⟨fun _ => hp.memoryResource (by omega), fun _ => hp.numThreads (by omega),
          fun _ => hp.globalQueues (by omega), fun _ => rfl, fun hk => absurd hk (by omega)⟩)
        ⟨[_], rfl, by simp⟩
  | setMutexes | setTraces =>
      simp only [threadStep, hpc] at hs
      obtain rfl := Option.some.inj hs
      exact Effect.complete ⟨⟨rfl, rfl, rfl, rfl⟩, rfl, [], rfl, by simp⟩ rfl (by rw [hpc]; rfl)
        (by rw [hpc]; rfl) rfl (Or.inl rfl)
  | launch i =>
      simp only [threadStep, hpc] at hs
      by_cases hi : i < s.numThreads
      · rw [if_pos hi] at hs
        obtain rfl := Option.some.inj hs
        exact Effect.complete ⟨⟨rfl, rfl, rfl, rfl⟩, rfl, [], rfl, by simp⟩ rfl (by rw [hpc]; rfl)
          (by rw [hpc]; rfl) rfl (Or.inl rfl)
      · rw [if_neg hi] at hs
        obtain rfl := Option.some.inj hs
        exact Effect.complete .goto rfl (by rw [hpc]; rfl) (by rw [hpc]; rfl) rfl (Or.inr rfl)
  | createJob =>
      simp only [threadStep, hpc] at hs
      obtain rfl := Option.some.inj hs
      exact Effect.elsewhere ⟨⟨rfl, rfl, rfl, rfl⟩, rfl, [_], rfl, hquiet rfl⟩ (goto_pc s t .route)
        (fun u hu => goto_thread s _ hu) (by simp [hpc]) (by rw [hpc]; rfl) rfl (by simp)
        (fun _ => by rw [hpc]; rfl)
  | route =>
      simp only [threadStep, hpc] at hs
      split at hs
      · obtain rfl := Option.some.inj hs
        exact Effect.elsewhere .goto (goto_pc s t .balance) (fun u hu => goto_thread s _ hu)
          (by simp [hpc]) (by rw [hpc]; rfl) rfl (by simp) (fun _ => by rw [hpc]; rfl)
      · obtain rfl := Option.some.inj hs
        refine Effect.elsewhere .goto (goto_pc s t _) (fun u hu => goto_thread s _ hu)
          (by simp [hpc]) (by rw [hpc]; rfl) ?_ ?_ (fun _ => by rw [hpc]; rfl)
        · split <;> rfl
        · split <;> simp
  | balance =>
      simp only [threadStep, hpc] at hs
      obtain rfl := Option.some.inj hs
      exact Effect.elsewhere ⟨⟨rfl, rfl, rfl, rfl⟩, rfl, [], rfl, by simp⟩
        (congrArg Thread.pc (Function.update_self ..)) (fun u hu => Function.update_of_ne hu ..)
        (by simp [hpc]) (by rw [hpc]; rfl) rfl (by simp) (fun _ => by rw [hpc]; rfl)
  | pushGlobal | pushLocal =>
      simp only [threadStep, hpc] at hs
      obtain rfl := Option.some.inj hs
      exact Effect.elsewhere ⟨⟨rfl, rfl, rfl, rfl⟩, rfl, [_], rfl, hquiet rfl⟩ (goto_pc s t .idle)
        (fun u hu => goto_thread s _ hu) (by simp [hpc]) (by rw [hpc]; rfl) rfl (by simp)
        (fun _ => by rw [hpc]; rfl)

/-- and so is the begin of a call. -/
theorem step_effect (hs : step hardware s x = some s') :
    (∀ u ≠ x.thread, s'.thread u = s.thread u) ∧ Effect s x.thread s' := by
  cases x with
  | call t args =>
      simp only [step] at hs
      split at hs
      case isFalse => cases hs
      case isTrue hidle =>
        obtain rfl := Option.some.inj hs
        exact Effect.elsewhere ⟨⟨rfl, rfl, rfl, rfl⟩, rfl, [], rfl, by simp⟩
          (congrArg Thread.pc (Function.update_self ..)) (fun u hu => Function.update_of_ne hu ..)
          (by show (s.thread t).pc ≠ _ ∧ (s.thread t).pc ≠ _; simp [hidle])
          (by show (s.thread t).pc.initialises = false; rw [hidle]; rfl) rfl (by simp)
          (fun hu => by cases hu)
  | next t => exact threadStep_effect hs

/-! ## The count -/

/-- The thread whose `fetch_add` the event is. -/
def Event.entrant : Event → Option Nat
  | .entered t _ => some t
  | _ => none

/-- The threads that executed their `fetch_add`. -/
def State.entrants (s : State) : List Nat := s.log.filterMap Event.entrant

/-- **The count is the number of the threads that counted**, once each. -/
structure Counted (n : Nat) (s : State) : Prop where
  count : s.initOnce = s.entrants.length
  nodup : s.entrants.Nodup
  lt : ∀ t ∈ s.entrants, t < n
  racing : ∀ t, (s.thread t).pc = .fetchAdd → t ∉ s.entrants

theorem entrants_append {es : List Event} (hl : s'.log = es ++ s.log)
    (hes : ∀ e ∈ es, e.entrant = none) : s'.entrants = s.entrants := by
  unfold State.entrants
  rw [hl, List.filterMap_append, List.filterMap_eq_nil_iff.mpr hes, List.nil_append]

theorem Apart.entrants (h : Apart s s') : s'.entrants = s.entrants := by
  obtain ⟨es, hes, hplain⟩ := h.log
  refine entrants_append hes (fun e he => ?_)
  have hp := hplain e he
  cases e <;> first | rfl | cases hp

/-- Fewer than `2 ^ 64` threads do not let the count overflow. -/
theorem Counted.lt_pow (h : Counted n s) (hn : n < 2 ^ 64) (ht : t < n) (hnew : t ∉ s.entrants) :
    s.initOnce + 1 < 2 ^ 64 := by
  have hnd : (t :: s.entrants).Nodup := List.nodup_cons.mpr ⟨hnew, h.nodup⟩
  have hsub : (t :: s.entrants) ⊆ List.range n := by
    intro u hu
    rw [List.mem_range]
    rcases List.mem_cons.mp hu with rfl | hu
    · exact ht
    · exact h.lt u hu
  have hle := (List.subperm_of_subset hnd hsub).length_le
  rw [List.length_cons, List.length_range, ← h.count] at hle
  omega

theorem Counted.keep (h : Counted n s) (hinit : s'.initOnce = s.initOnce)
    (hent : s'.entrants = s.entrants)
    (hrace : ∀ u, (s'.thread u).pc = .fetchAdd → u ∉ s.entrants) : Counted n s' where
  count := by rw [hinit, hent, h.count]
  nodup := hent ▸ h.nodup
  lt := hent ▸ h.lt
  racing u hu := hent ▸ hrace u hu

theorem Counted.step (h : Counted n s) (hn : n < 2 ^ 64) (ht : x.thread < n)
    (hs : step hardware s x = some s') : Counted n s' := by
  obtain ⟨hother, heff⟩ := step_effect hs
  generalize x.thread = t at hother heff ht
  -- the threads that are about to count are the same ones as before
  have hrace : (s'.thread t).pc ≠ .fetchAdd →
      ∀ u, (s'.thread u).pc = .fetchAdd → u ∉ s.entrants := by
    intro hne u hu
    by_cases hut : u = t
    · exact absurd (hut ▸ hu) hne
    · rw [hother u hut] at hu
      exact h.racing u hu
  cases heff with
  | outside ha _ hpc hpc' hne huses => exact h.keep ha.initOnce ha.entrants (hrace hne)
  | tests ha hpc hpc' =>
      refine h.keep ha.initOnce ha.entrants (fun u hu => ?_)
      by_cases hut : u = t
      · rw [hut, hpc'] at hu
        by_cases hpos : s.initOnce > 0
        · rw [if_pos hpos] at hu
          cases hu
        · -- nobody has counted yet
          have hnil : s.entrants = [] := List.eq_nil_of_length_eq_zero (by rw [← h.count]; omega)
          rw [hnil]
          exact List.not_mem_nil
      · rw [hother u hut] at hu
        exact h.racing u hu
  | counts ha hpc hpc' hinit hl =>
      have hnew : t ∉ s.entrants := h.racing t hpc
      have hlt := h.lt_pow hn ht hnew
      have hent : s'.entrants = t :: s.entrants := by
        unfold State.entrants
        rw [hl]
        rfl
      refine ⟨?_, hent ▸ List.nodup_cons.mpr ⟨hnew, h.nodup⟩, fun u hu => ?_, fun u hu => ?_⟩
      · rw [hinit, hent, Nat.mod_eq_of_lt hlt, h.count, List.length_cons]
      · rw [hent] at hu
        rcases List.mem_cons.mp hu with rfl | hu
        · exact ht
        · exact h.lt u hu
      · have hut : u ≠ t := by
          rintro rfl
          rw [hpc'] at hu
          split at hu <;> cases hu
        rw [hother u hut] at hu
        rw [hent]
        exact fun hmem => (List.mem_cons.mp hmem).elim hut (h.racing u hu)
  | assigns k hk hpc hpc' hstage hinit hprogress hl =>
      obtain ⟨es, hes, hass⟩ := hl
      refine h.keep hinit (entrants_append hes (fun e he => ?_)) (hrace fun hf => ?_)
      · obtain ⟨m, rfl⟩ := hass e he
        rfl
      · rw [hf] at hpc'
        cases hpc'
  | completes ha hpc hstage hstage' hpc' =>
      refine h.keep ha.initOnce ha.entrants (hrace fun hf => ?_)
      rw [hf] at hpc'
      rcases hpc' with hpc' | hpc' <;> cases hpc'

/-! ## The winner -/

/-- Nobody has counted yet. -/
structure Fresh (s : State) : Prop where
  initOnce : s.initOnce = 0
  wins : s.log.filter Event.wins = []
  assigned : ∀ t m, .assigned t m ∉ s.log
  outside : ∀ t, (s.thread t).pc.initialises = false ∧ (s.thread t).pc.uses = false
  unset : s.localQueues = none

/-- Thread `w` found zero: it initializes the members, and nobody else does. -/
structure Won (w : Nat) (s : State) : Prop where
  pos : 0 < s.initOnce
  wins : s.log.filter Event.wins = [.entered w 0]
  assigned : ∀ t m, .assigned t m ∈ s.log → t = w
  winner : ∀ t, (s.thread t).pc.initialises = true → t = w
  progress : Progress s (s.thread w).pc.stage
  ready : ∀ t, (s.thread t).pc.uses = true → s.Ready

theorem wins_append {es : List Event} (hl : s'.log = es ++ s.log)
    (hes : ∀ e ∈ es, e.wins = false) :
    s'.log.filter Event.wins = s.log.filter Event.wins := by
  have hnone : es.filter Event.wins = [] :=
    List.filter_eq_nil_iff.mpr fun e he => by simp [hes e he]
  rw [hl, List.filter_append, hnone, List.nil_append]

theorem Apart.wins (h : Apart s s') : s'.log.filter Event.wins = s.log.filter Event.wins := by
  obtain ⟨es, hes, hplain⟩ := h.log
  refine wins_append hes (fun e he => ?_)
  have hp := hplain e he
  cases e <;> first | rfl | cases hp

theorem Apart.mem_assigned {m : Member} (h : Apart s s') (hm : .assigned t m ∈ s'.log) :
    .assigned t m ∈ s.log := by
  obtain ⟨es, hes, hplain⟩ := h.log
  rw [hes] at hm
  exact (List.mem_append.mp hm).resolve_left fun he => by cases hplain _ he

/-- The first thread counts, or nobody does. -/
theorem Fresh.step (h : Fresh s) (hs : step hardware s x = some s') :
    Fresh s' ∨ Won x.thread s' := by
  obtain ⟨hother, heff⟩ := step_effect hs
  generalize x.thread = t at hother heff
  -- the other threads stay outside
  have houtside : (s'.thread t).pc.initialises = false ∧ (s'.thread t).pc.uses = false →
      ∀ u, (s'.thread u).pc.initialises = false ∧ (s'.thread u).pc.uses = false := by
    intro ht u
    by_cases hut : u = t
    · rw [hut]
      exact ht
    · rw [hother u hut]
      exact h.outside u
  cases heff with
  | outside ha _ hpc hpc' hne huses =>
      refine Or.inl ⟨ha.initOnce.trans h.initOnce, ha.wins.trans h.wins,
        fun u m hm => h.assigned u m (ha.mem_assigned hm), houtside ⟨hpc', ?_⟩,
        ha.members.localQueues.trans h.unset⟩
      by_contra hu
      have hu' := huses (Bool.not_eq_false _ ▸ hu)
      rw [(h.outside t).2] at hu'
      cases hu'
  | tests ha hpc hpc' =>
      refine Or.inl ⟨ha.initOnce.trans h.initOnce, ha.wins.trans h.wins,
        fun u m hm => h.assigned u m (ha.mem_assigned hm), houtside ?_,
        ha.members.localQueues.trans h.unset⟩
      rw [hpc', h.initOnce]
      exact ⟨rfl, rfl⟩
  | counts ha hpc hpc' hinit hl =>
      rw [h.initOnce] at hpc' hinit hl
      have hpc₀ : (s'.thread t).pc = .setMemoryResource := hpc'
      refine Or.inr ⟨?_, ?_, fun u m hm => ?_, fun u hu => ?_, ?_, fun u hu => ?_⟩
      · rw [hinit]
        decide
      · rw [hl, List.filter_cons_of_pos rfl, h.wins]
      · rw [hl] at hm
        exact absurd ((List.mem_cons.mp hm).resolve_left (by simp)) (h.assigned u m)
      · by_contra hut
        rw [hother u hut, (h.outside u).1] at hu
        cases hu
      · rw [hpc₀]
        have hlocal : s'.localQueues = none := ha.localQueues.trans h.unset
        exact ⟨fun hk => absurd hk (by decide), fun hk => absurd hk (by decide),
          fun hk => absurd hk (by decide), fun hk => absurd hk (by decide), fun _ => hlocal⟩
      · by_cases hut : u = t
        · rw [hut, hpc₀] at hu
          cases hu
        · rw [hother u hut, (h.outside u).2] at hu
          cases hu
  | assigns k hk hpc =>
      have hin := initialises_of_stage (hpc ▸ hk : (s.thread t).pc.stage ≤ 5)
      rw [(h.outside t).1] at hin
      cases hin
  | completes ha hpc =>
      rw [(h.outside t).1] at hpc
      cases hpc

theorem uses_of_initialises {pc : Pc} (h : pc.initialises = true) : pc.uses = false := by
  cases pc <;> first | rfl | cases h

/-- A step that leaves the members alone. -/
theorem Won.keep (h : Won w s) (hm : Members s s') (hother : ∀ u ≠ t, s'.thread u = s.thread u)
    (hpos : 0 < s'.initOnce) (hwins : s'.log.filter Event.wins = s.log.filter Event.wins)
    (hass : ∀ u m, .assigned u m ∈ s'.log → .assigned u m ∈ s.log)
    (hstage : (s.thread t).pc.stage = 6) (hstage' : (s'.thread t).pc.stage = 6)
    (hwinner : (s'.thread t).pc.initialises = true → t = w)
    (hready : (s'.thread t).pc.uses = true → s.Ready) : Won w s' where
  pos := hpos
  wins := hwins.trans h.wins
  assigned u m hu := h.assigned u m (hass u m hu)
  winner u hu := by
    by_cases hut : u = t
    · rw [hut] at hu ⊢
      exact hwinner hu
    · rw [hother u hut] at hu
      exact h.winner u hu
  progress := by
    by_cases hwt : w = t
    · have hp := h.progress
      rw [hwt, hstage] at hp
      rw [hwt, hstage']
      exact hm.progress hp
    · rw [hother w hwt]
      exact hm.progress h.progress
  ready u hu := by
    rw [hm.ready]
    by_cases hut : u = t
    · rw [hut] at hu
      exact hready hu
    · rw [hother u hut] at hu
      exact h.ready u hu

/-- The winner goes on, and the others use the members only after it is done. -/
theorem Won.step (h : Won w s) (hcount : Counted n s') (hearly : ¬ s.LeavesEarly x)
    (hs : step hardware s x = some s') : Won w s' := by
  obtain ⟨hother, heff⟩ := step_effect hs
  unfold State.LeavesEarly at hearly
  generalize x.thread = t at hother heff hearly
  -- who leaves the constructor now does so after the winner
  have hleave : (s.thread t).pc = .testInitOnce ∨ (s.thread t).pc = .fetchAdd → s.Ready := by
    intro hpc
    by_contra hr
    exact hearly ⟨hpc, h.pos, hr⟩
  cases heff with
  | outside ha _ hpc hpc' hne huses =>
      refine h.keep ha.members hother (ha.initOnce ▸ h.pos) ha.wins
        (fun u m => ha.mem_assigned) (stage_of_not_initialises hpc)
        (stage_of_not_initialises hpc') (fun hi => ?_) (fun hu => h.ready t (huses hu))
      rw [hpc'] at hi
      cases hi
  | tests ha hpc hpc' =>
      rw [if_pos h.pos] at hpc'
      refine h.keep ha.members hother (ha.initOnce ▸ h.pos) ha.wins
        (fun u m => ha.mem_assigned) (by rw [hpc]; rfl) (by rw [hpc']; rfl) (fun hi => ?_)
        (fun _ => hleave (Or.inl hpc))
      rw [hpc'] at hi
      cases hi
  | counts ha hpc hpc' hinit hl =>
      rw [if_pos h.pos] at hpc'
      have hne : ¬ s.initOnce = 0 := Nat.ne_of_gt h.pos
      refine h.keep ha hother ?_ ?_ (fun u m hm => ?_) (by rw [hpc]; rfl) (by rw [hpc']; rfl)
        (fun hi => ?_) (fun _ => hleave (Or.inr hpc))
      · rw [hcount.count]
        unfold State.entrants
        rw [hl]
        exact Nat.succ_pos _
      · rw [hl, List.filter_cons_of_neg (by simp [Event.wins, hne])]
      · rw [hl] at hm
        exact (List.mem_cons.mp hm).resolve_left (by simp)
      · rw [hpc'] at hi
        cases hi
  | assigns k hk hpc hpc' hstage hinit hprogress hl =>
      obtain ⟨es, hes, hass⟩ := hl
      obtain rfl : t = w := h.winner t (initialises_of_stage (hpc.symm ▸ hk))
      have hp : Progress s k := hpc ▸ h.progress
      -- the members are not all set yet, so nobody uses them
      have hnot : ¬ s.Ready := fun hr => by
        have h6 := hp.ready_iff.mp hr
        omega
      refine ⟨hinit ▸ h.pos, ?_, fun u m hm => ?_, fun u hu => ?_, ?_, fun u hu => ?_⟩
      · refine (wins_append hes (fun e he => ?_)).trans h.wins
        obtain ⟨m, rfl⟩ := hass e he
        rfl
      · rw [hes] at hm
        rcases List.mem_append.mp hm with hm | hm
        · obtain ⟨m', hm'⟩ := hass _ hm
          exact (Event.assigned.inj hm').1
        · exact h.assigned u m hm
      · by_contra hut
        rw [hother u hut] at hu
        exact hut (h.winner u hu)
      · rw [hstage]
        exact hprogress hp
      · by_cases hut : u = t
        · rw [hut, uses_of_initialises hpc'] at hu
          cases hu
        · rw [hother u hut] at hu
          exact absurd (h.ready u hu) hnot
  | completes ha hpc hstage hstage' hpc' =>
      obtain rfl : t = w := h.winner t hpc
      have hr : s.Ready := h.progress.ready_iff.mpr (Nat.le_of_eq hstage.symm)
      exact h.keep ha.members hother (ha.initOnce ▸ h.pos) ha.wins
        (fun u m => ha.mem_assigned) hstage hstage' (fun _ => rfl) (fun _ => hr)

/-! ## The theorem -/

/-- The invariant of the runs in which nobody leaves the constructor early. -/
def Guarded (n : Nat) (s : State) : Prop := Counted n s ∧ (Fresh s ∨ ∃ w, Won w s)

theorem guarded_init (n : Nat) : Guarded n init :=
  ⟨⟨rfl, List.nodup_nil, fun _ => (absurd · List.not_mem_nil), fun _ _ => List.not_mem_nil⟩,
    Or.inl ⟨rfl, rfl, fun _ _ => List.not_mem_nil, fun _ => ⟨rfl, rfl⟩, rfl⟩⟩

theorem Guarded.step (h : Guarded n s) (hn : n < 2 ^ 64) (ht : x.thread < n)
    (hearly : ¬ s.LeavesEarly x) (hs : step hardware s x = some s') : Guarded n s' := by
  have hcount := h.1.step hn ht hs
  rcases h.2 with hf | ⟨w, hw⟩
  · exact ⟨hcount, (hf.step hs).imp id fun hw => ⟨_, hw⟩⟩
  · exact ⟨hcount, Or.inr ⟨w, hw.step hcount hearly hs⟩⟩

theorem Guarded.initialisedFirst (h : Guarded n s) : s.InitialisedFirst := by
  rcases h.2 with hf | ⟨w, hw⟩
  · refine ⟨?_, fun t m hm => absurd hm (hf.assigned t m), fun t ht => ?_⟩
    · rw [if_pos hf.initOnce, List.countP_eq_length_filter, hf.wins]
      rfl
    · rw [(hf.outside t).2] at ht
      cases ht
  · refine ⟨?_, fun t m hm => ?_, hw.ready⟩
    · rw [if_neg (Nat.ne_of_gt hw.pos), List.countP_eq_length_filter, hw.wins]
      rfl
    · have hmem : Event.entered w 0 ∈ s.log.filter Event.wins := by
        rw [hw.wins]
        exact List.mem_cons_self
      rw [hw.assigned t m hm]
      exact List.mem_of_mem_filter hmem

/-- Who leaves early uses what is not set. -/
theorem not_initialisedFirst (hearly : s.LeavesEarly x) (hs : step hardware s x = some s') :
    ¬ s'.InitialisedFirst := by
  obtain ⟨hpc, hpos, hnot⟩ := hearly
  obtain ⟨-, heff⟩ := step_effect hs
  intro hi
  have huses : Members s s' → (s'.thread x.thread).pc = .createJob → False := by
    intro hm hpc'
    exact hnot (hm.ready.mp (hi.ready x.thread (by rw [hpc']; rfl)))
  have hout : (s.thread x.thread).pc.initialises = false := by
    rcases hpc with hpc | hpc <;> rw [hpc] <;> rfl
  cases heff with
  | outside ha hin => exact hpc.elim hin.1 hin.2
  | tests ha hpc₁ hpc' =>
      rw [if_pos hpos] at hpc'
      exact huses ha.members hpc'
  | counts ha hpc₁ hpc' =>
      rw [if_pos hpos] at hpc'
      exact huses ha hpc'
  | assigns k hk hpc₁ =>
      rw [initialises_of_stage (hpc₁.symm ▸ hk)] at hout
      cases hout
  | completes ha hpc₁ =>
      rw [hpc₁] at hout
      cases hout

/-- **When the initialisation comes first.** Take a run of fewer than `2 ^ 64` threads that
construct the `JobSystem` and schedule, as often as they like. In all its states exactly one
constructor has found zero, if any has counted, and no thread is in `schedule` before that one
has set the members, iff no step leaves the constructor early. -/
theorem initialised_first_iff {tr : List (State × Action)} (hn : n < 2 ^ 64)
    (h : Transition.Run (step hardware) init tr s) (ht : ∀ p ∈ tr, p.2.thread < n) :
    (∀ x ∈ Transition.visited tr s, x.InitialisedFirst) ↔ ∀ p ∈ tr, ¬ p.1.LeavesEarly p.2 :=
  h.visited_iff (D := fun _ x => x.thread < n) (C := fun s x => ¬ s.LeavesEarly x)
    (I := Guarded n) ht (guarded_init n) (fun hI hD hC hs => hI.step hn hD hC hs)
    Guarded.initialisedFirst (fun _ _ hC hs => not_initialisedFirst (not_not.mp hC) hs)

/-- Two threads one after the other. -/
theorem initialised_first_iff_sequential : ∃ tr s, Transition.Run (step 4) init tr s ∧
    .pushedGlobal 1 1 (some 4) ∈ s.log ∧
      ∀ x ∈ Transition.visited tr s, x.InitialisedFirst := by
  have hexec : ((Transition.exec (step 4)
      (fun s x => x.thread < 2 ∧ ¬ s.LeavesEarly x) init
      ([Action.call 0 ⟨none, 9, none⟩] ++ List.replicate 19 (.next 0) ++
        [Action.call 1 ⟨none, 9, none⟩] ++ List.replicate 5 (.next 1))).any fun s =>
      decide (.pushedGlobal 1 1 (some 4) ∈ s.log)) = true := by decide
  obtain ⟨tr, s, hrun, -, hx, hs⟩ := Transition.exists_run_of_exec hexec
  exact ⟨tr, s, hrun, of_decide_eq_true hs,
    (initialised_first_iff (n := 2) (by decide) hrun (fun p hp => (hx p hp).1)).mpr
      (fun p hp => (hx p hp).2)⟩

/-- **Counterexample.** Thread `0` has counted and not assigned anything yet. Thread `1` returns
from its constructor, creates a job with a null memory resource and is about to push it to an
element of `m_GlobalQueues`, which is null. -/
theorem not_initialised_first : ∃ tr s, Transition.Run (step 4) init tr s ∧
    (∀ p ∈ tr, p.2.thread < 2) ∧ .created 1 none ∈ s.log ∧ (s.thread 1).pc = .pushGlobal ∧
    s.globalQueues = none ∧ ¬ s.InitialisedFirst := by
  have hexec : ((Transition.exec (step 4) (fun _ x => x.thread < 2) init
      ([Action.call 0 ⟨none, 9, none⟩, .next 0, .next 0, .call 1 ⟨none, 9, none⟩] ++
        List.replicate 4 (.next 1))).any fun s =>
      decide (.created 1 none ∈ s.log ∧ (s.thread 1).pc = .pushGlobal ∧
        s.globalQueues = none)) = true := by decide
  obtain ⟨tr, s, hrun, -, hx, hs⟩ := Transition.exists_run_of_exec hexec
  obtain ⟨hcreated, hpc, hnull⟩ := of_decide_eq_true hs
  refine ⟨tr, s, hrun, hx, hcreated, hpc, hnull, fun hi => ?_⟩
  have hr : s.Ready := hi.ready 1 (by rw [hpc]; rfl)
  rw [hr.2.2.1] at hnull
  cases hnull

end Steps

end Bop.JobSystem.Constructor
