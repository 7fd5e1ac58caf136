import Bop.Basic.Json
import Bop.Basic.Recorder
import Bop.JobSystem.Executions
import Bop.JobSystem.Shutdown
import Mathlib.Data.List.Forall2

set_option autoImplicit false

/-! # The trace log

With `k_EnableProfiling` a worker reads the clock before and after each work and stores the two
readings in its own entry of `m_Traces`; the last worker writes all of them to `tracelog.json`
when the system shuts down. The profiling is a recorder beside the job system: it reads the clock
and writes to nothing that the rest of `job_system.cpp` looks at. The file is a value of
`nlohmann::json`, which is not a part of the repository: it is a parameter with the laws of
`Basic/Json.lean`.

`tracelog_tells` says what is in the file. Each worker has one event for each work it started, in
the order in which it started them, none is missing and none is cut off by the shutdown. If the
clock never goes back, an event is not shorter than its work, up to the rounding, and ends before
the next event of that worker begins.
-/

namespace Bop.JobSystem

open Transition (Run recorded)

/-! ## The profiling -/

/-- `Clock::time_point`, in nanoseconds. -/
abbrev Timepoint := Int

/-- `struct JobTrace` (`job/job_trace.h`) -/
structure JobTrace where
  startTime : Timepoint
  currentTime : Timepoint
  threadIndex : Nat
  deriving DecidableEq

/-- `duration_cast<microseconds>(d).count()`, which truncates toward zero. -/
def microseconds (d : Int) : Int := d.tdiv 1000

/-- The numbers of the object `thread_events` of `save_tracelog`. -/
structure TraceEvent where
  tid : Nat             -- executing thread ID
  ts : Int              -- tracing clock timestamp in microseconds
  dur : Int             -- duration in microseconds
  deriving DecidableEq

/-- The variables of the job system that the profiling uses. -/
structure Profile (J : Type) where
  /-- `m_ApplicationStart` -/
  applicationStart : Timepoint
  /-- the local `job_start` of worker `i` -/
  jobStart : Nat → Timepoint
  /-- `m_Traces[i]`, newest first -/
  traces : Nat → List JobTrace
  /-- what is in `tracelog.json` -/
  tracelog : Option J

/-- What a step sees of the outside: the reading of the clock, and whether `tracelog.json` can be
opened. -/
structure Outside where
  now : Timepoint
  good : Bool := true
  deriving DecidableEq

def traceEvent (applicationStart : Timepoint) (trace : JobTrace) : TraceEvent where
  tid := trace.threadIndex
  ts := microseconds (trace.startTime - applicationStart)
  dur := microseconds (trace.currentTime - trace.startTime)

section Json

variable {J : Type} (L : Json.Library J)

def TraceEvent.fields (e : TraceEvent) : List (String × J) :=
  [("cat", L.ofString "cat"),   -- categories (comma separated)
    ("pid", L.ofInt 0),         -- process ID
    ("tid", L.ofInt e.tid),
    ("ts", L.ofInt e.ts),
    ("dur", L.ofInt e.dur),
    ("ph", L.ofString "X"),     -- program phase - X is 'complete' event
    ("name", L.ofString "-"),   -- display name
    ("args", L.null)]           -- may hold any additional information

/-- The object `thread_events`: the fields are assigned one after the other. -/
def TraceEvent.json (e : TraceEvent) : J := L.object (e.fields L)

def makeEntry (applicationStart : Timepoint) (trace : JobTrace) : J :=
  (traceEvent applicationStart trace).json L

/-- `save_tracelog` up to the write of the file, for the entries of `m_Traces`. -/
def saveTracelog (applicationStart : Timepoint) (traces : List (List JobTrace)) : J :=
  let js := traces.foldl (fun js threadLog =>
    threadLog.foldl (fun js threadEvt =>
      L.pushBack js "traceEvents" (makeEntry L applicationStart threadEvt)) js) L.null
  L.assign js "displayTimeUnit" (L.ofString "ms") -- either "ms" or "ns"

end Json

variable {J : Type} {L : Json.Library J}

def storeTrace (p : Profile J) (jobStart jobCurrent : Timepoint) (executingThreadIndex : Nat) :
    Profile J :=
  { p with
    traces := Function.update p.traces executingThreadIndex
      (⟨jobStart, jobCurrent, executingThreadIndex⟩ :: p.traces executingThreadIndex) }

variable (L) in
/-- What the `if constexpr (k_EnableProfiling)` blocks of `JobSystem::worker` do in a step. -/
def profile (s : State) (x : Action) (o : Outside) (p : Profile J) : Profile J :=
  match x with
  | .work i =>
      match (s.worker i).pc with
      | .execute (some _) => { p with jobStart := Function.update p.jobStart i o.now }
      | .storeTrace _ => storeTrace p (p.jobStart i) o.now i
      | .saveTracelog =>
          if o.good then
            { p with
              tracelog := some (saveTracelog L p.applicationStart
                ((List.range s.size).map fun i => (p.traces i).reverse)) }
          else p -- Failed to create/open tracelog.json
      | _ => p
  | _ => p

/-! ## The record of the executions -/

/-- A work that a worker executed, with the readings of the clock when it was started and when it
ended. -/
structure Execution where
  work : Work
  started : Timepoint
  finished : Timepoint
  deriving DecidableEq

/-- What happened when, for stating properties of the trace log. -/
structure Diary where
  /-- the last reading -/
  clock : Timepoint
  /-- what worker `i` started last, and when -/
  opened : Nat → Work × Timepoint
  /-- what worker `i` executed to the end, newest first -/
  executions : Nat → List Execution

def note (s : State) (x : Action) (o : Outside) (d : Diary) : Diary :=
  match x with
  | .work i =>
      match (s.worker i).pc with
      | .execute (some job) =>
          { d with
            clock := o.now
            opened := Function.update d.opened i ((s.jobs job).work, o.now) }
      | _ => { d with clock := o.now }
  | .finish i =>
      { d with
        clock := o.now
        executions := Function.update d.executions i
          (⟨(d.opened i).1, (d.opened i).2, o.now⟩ :: d.executions i) }
  | _ => { d with clock := o.now }

variable (L) in
/-- The profiling and the record beside the job system. -/
def profiled (s : State) (x : Action) (o : Outside) (g : Profile J × Diary) : Profile J × Diary :=
  (profile L s x o g.1, note s x o g.2)

/-- The constructor read `m_ApplicationStart` and resized `m_Traces`. -/
def profileInit (t₀ : Timepoint) : Profile J × Diary :=
  (⟨t₀, fun _ => 0, fun _ => [], none⟩, ⟨t₀, fun _ => (0, 0), fun _ => []⟩)

/-- The works that worker `i` started, newest first. -/
def startedBy (i : Nat) (log : List Event) : List Work :=
  log.filterMap fun e =>
    match e with
    | .started w j _ => if j = i then some w else none
    | _ => none

/-! ## The file -/

/-- The object has the fields of the event. -/
theorem find_json (hL : L.Lawful) (e : TraceEvent) :
    ∀ field ∈ e.fields L, L.find (e.json L) field.1 = some field.2 :=
  Json.find_object hL (by simp [TraceEvent.fields])

/-- The file says in which unit a viewer shows the times, and has the events under `traceEvents`;
this key is missing if there are none. -/
structure Tracelog (L : Json.Library J) (js : J) (events : List TraceEvent) : Prop where
  unit : L.find js "displayTimeUnit" = some (L.ofString "ms")
  array : L.array js "traceEvents" = some (events.map (TraceEvent.json L))
  missing : L.find js "traceEvents" = none ↔ events = []
  fields : ∀ e ∈ events, ∀ field ∈ e.fields L, L.find (e.json L) field.1 = some field.2

theorem foldl_pushBack (t₀ : Timepoint) (tss : List (List JobTrace)) (js : J) :
    tss.foldl (fun js threadLog => threadLog.foldl (fun js threadEvt =>
      L.pushBack js "traceEvents" (makeEntry L t₀ threadEvt)) js) js =
      L.pushAll js "traceEvents" (tss.flatten.map (makeEntry L t₀)) := by
  rw [Json.Library.pushAll, List.foldl_map, List.foldl_flatten]

/-- **The file**: the events of the threads one after the other, each thread's in order. -/
theorem saveTracelog_tracelog (hL : L.Lawful) (t₀ : Timepoint) (tss : List (List JobTrace)) :
    Tracelog L (saveTracelog L t₀ tss) (tss.flatten.map (traceEvent t₀)) := by
  have hnull : L.array L.null "traceEvents" = some [] := by
    rw [Json.Library.array, hL.find_null]
  obtain ⟨hbuilt, harray, hnone⟩ :=
    Json.pushAll_array hL .null hnull (tss.flatten.map (makeEntry L t₀))
  have hfind : ∀ key, L.find (L.assign (L.pushAll L.null "traceEvents"
      (tss.flatten.map (makeEntry L t₀))) "displayTimeUnit" (L.ofString "ms")) key = _ :=
    hL.find_assign hbuilt
  have hevents : L.find (saveTracelog L t₀ tss) "traceEvents" =
      L.find (L.pushAll L.null "traceEvents" (tss.flatten.map (makeEntry L t₀))) "traceEvents" := by
    rw [saveTracelog, foldl_pushBack, hfind, if_neg (by decide)]
  refine ⟨?_, ?_, ?_, fun e _ => find_json hL e⟩
  · rw [saveTracelog, foldl_pushBack, hfind, if_pos rfl]
  · rw [Json.Library.array, hevents, List.map_map]
    exact harray
  · rw [hevents, hnone, hL.find_null]
    simp

/-! ## One worker -/

/-- What is known of a worker: its phase, its `job_start`, its entry of `m_Traces`, and the
record. -/
structure Account where
  phase : Phase
  start : Timepoint
  traces : List JobTrace
  /-- the entry without the times, as the job system alone has it -/
  indices : List Nat
  opened : Work × Timepoint
  executions : List Execution
  works : List Work

def account (s : State) (g : Profile J × Diary) (i : Nat) : Account where
  phase := (s.worker i).pc.phase
  start := g.1.jobStart i
  traces := g.1.traces i
  indices := s.traces i
  opened := g.2.opened i
  executions := g.2.executions i
  works := startedBy i s.log

/-- **What a step can do to the account of worker `i`**, at the reading `now`. -/
inductive AccountMove (i : Nat) (now : Timepoint) (c : Account) : Account → Prop
  | stay : AccountMove i now c c
  | start {w : Work} (h : c.phase = .between) :
      AccountMove i now c { c with
        phase := .inside
        start := now
        opened := (w, now)
        works := w :: c.works }
  | finish (h : c.phase = .inside) :
      AccountMove i now c { c with
        phase := .after
        executions := ⟨c.opened.1, c.opened.2, now⟩ :: c.executions }
  | store (h : c.phase = .after) :
      AccountMove i now c { c with
        phase := .between
        traces := ⟨c.start, now, i⟩ :: c.traces
        indices := i :: c.indices }

variable {s s' : State} {x : Action} {o : Outside} {g : Profile J × Diary} {i : Nat}

theorem startedBy_append (es : List Event) {l : List Event} (h : ∀ e ∈ es, ∀ w v, e ≠ .started w i v) :
    startedBy i (es ++ l) = startedBy i l := by
  have hnone : startedBy i es = [] := by
    refine List.filterMap_eq_nil_iff.mpr fun e he => ?_
    cases e with
    | started w j v =>
        by_cases hji : j = i
        · exact absurd (by rw [hji]) (h _ he w v)
        · simp [hji]
    | _ => rfl
  show startedBy i (es ++ l) = _
  unfold startedBy at *
  rw [List.filterMap_append, hnone, List.nil_append]

/-- A step that the recorder and worker `i` take no part in. -/
theorem account_stay {g' : Profile J × Diary} (hw : (s'.worker i).pc.phase = (s.worker i).pc.phase)
    (hstart : g'.1.jobStart i = g.1.jobStart i) (htr : g'.1.traces i = g.1.traces i)
    (hidx : s'.traces i = s.traces i) (hop : g'.2.opened i = g.2.opened i)
    (hex : g'.2.executions i = g.2.executions i) (hl : startedBy i s'.log = startedBy i s.log) :
    account s' g' i = account s g i := by
  unfold account
  rw [hw, hstart, htr, hidx, hop, hex, hl]

/-- What the profiling does at a place where it stores nothing. -/
theorem profiled_other (hpc : (s.worker i).pc.phase = .between)
    (hne : ∀ job, (s.worker i).pc ≠ .execute (some job)) :
    (profiled L s (.work i) o g).1.jobStart = g.1.jobStart ∧
      (profiled L s (.work i) o g).1.traces = g.1.traces ∧
      (profiled L s (.work i) o g).2.opened = g.2.opened ∧
      (profiled L s (.work i) o g).2.executions = g.2.executions := by
  unfold profiled profile note
  cases h : (s.worker i).pc with
  | execute job =>
      cases job with
      | none => simp only [h, and_self]
      | some job => exact absurd h (hne job)
  | storeTrace job =>
      rw [h] at hpc
      cases hpc
  | saveTracelog =>
      simp only [h]
      cases o.good <;> simp
  | _ => simp only [h, and_self]

/-- A step of a worker moves its own account only. -/
theorem work_account {j : Nat} (hw : workerStep s j = some s') (i : Nat) :
    AccountMove i o.now (account s g i) (account s' (profiled L s (.work j) o g) i) := by
  have hother : i ≠ j → s'.worker i = s.worker i := (workerStep_frame hw).worker i
  cases workerStep_executes hw with
  | @executes job v hpc hpc' hl htr _ =>
      have hp : profiled L s (.work j) o g =
          ({ g.1 with jobStart := Function.update g.1.jobStart j o.now },
            { g.2 with
              clock := o.now
              opened := Function.update g.2.opened j ((s.jobs job).work, o.now) }) := by
        simp only [profiled, profile, note, hpc]
      by_cases hij : i = j
      · subst hij
        have hin : (account s g i).phase = .between := by
          show (s.worker i).pc.phase = _
          rw [hpc]
          rfl
        have heq : account s' (profiled L s (.work i) o g) i = { account s g i with
            phase := .inside
            start := o.now
            opened := ((s.jobs job).work, o.now)
            works := (s.jobs job).work :: (account s g i).works } := by
          rw [hp]
          simp [account, Pc.phase, hpc', hl, htr, startedBy]
        rw [heq]
        exact .start hin
      · have heq : account s' (profiled L s (.work j) o g) i = account s g i := by
          rw [hp]
          refine account_stay (by rw [hother hij]) ?_ rfl (by rw [htr]) ?_ rfl ?_
          · exact Function.update_of_ne hij ..
          · exact Function.update_of_ne hij ..
          · rw [hl]
            refine startedBy_append [_] fun e he w u => ?_
            rw [List.mem_singleton.mp he]
            simp [Ne.symm hij]
        rw [heq]
        exact .stay
  | @stores job hpc hpc' hl htr =>
      have hp : profiled L s (.work j) o g =
          (storeTrace g.1 (g.1.jobStart j) o.now j, { g.2 with clock := o.now }) := by
        simp only [profiled, profile, note, hpc]
      by_cases hij : i = j
      · subst hij
        have hin : (account s g i).phase = .after := by
          show (s.worker i).pc.phase = _
          rw [hpc]
          rfl
        have heq : account s' (profiled L s (.work i) o g) i = { account s g i with
            phase := .between
            traces := ⟨(account s g i).start, o.now, i⟩ :: (account s g i).traces
            indices := i :: (account s g i).indices } := by
          rw [hp]
          simp [account, storeTrace, hpc', hl, htr]
        rw [heq]
        exact .store hin
      · have heq : account s' (profiled L s (.work j) o g) i = account s g i := by
          rw [hp]
          refine account_stay (by rw [hother hij]) rfl ?_ ?_ rfl rfl (by rw [hl])
          · exact Function.update_of_ne hij ..
          · rw [htr]
            exact Function.update_of_ne hij ..
        rw [heq]
        exact .stay
  | other hpc hpc' hne hl htr =>
      have heq : account s' (profiled L s (.work j) o g) i = account s g i := by
        obtain ⟨hstart, htraces, hop, hex⟩ := profiled_other (o := o) (g := g) hpc hne
        obtain ⟨es, hes, hns⟩ := hl
        refine account_stay ?_ (by rw [hstart]) (by rw [htraces]) (by rw [htr]) (by rw [hop])
          (by rw [hex]) ?_
        · by_cases hij : i = j
          · rw [hij, hpc, hpc']
          · rw [hother hij]
        · rw [hes]
          refine startedBy_append es fun e he w v heq => ?_
          have hex := hns e he
          rw [heq] at hex
          cases hex
      rw [heq]
      exact .stay

/-- **Each step moves each account.** -/
theorem step_account (hs : step s x = some s') (i : Nat) :
    AccountMove i o.now (account s g i) (account s' (profiled L s x o g) i) := by
  rcases step_cases hs with ⟨hx, hf⟩ | ⟨j, job, rfl, hpc, -, -, rfl⟩ | ⟨j, rfl, -, hw⟩
  · have heq : account s' (profiled L s x o g) i = account s g i := by
      obtain ⟨es, hes, hcall⟩ := hf.log
      have hl : startedBy i s'.log = startedBy i s.log := by
        rw [hes]
        refine startedBy_append es fun e he w v heq => ?_
        have hof := hcall e he
        rw [heq] at hof
        cases hof
      refine account_stay (by rw [hf.worker]) ?_ ?_ (by rw [hf.traces]) ?_ ?_ hl <;>
        cases x <;> first | rfl | exact absurd rfl (hx _).1 | exact absurd rfl (hx _).2
    rw [heq]
    exact .stay
  · by_cases hij : i = j
    · subst hij
      have hin : (account s g i).phase = .inside := by
        show (s.worker i).pc.phase = _
        rw [hpc]
        rfl
      have heq : account ((s.goto i (.storeTrace job)).record (.finished (s.jobs job).work))
          (profiled L s (.finish i) o g) i = { account s g i with
            phase := .after
            executions := ⟨(account s g i).opened.1, (account s g i).opened.2, o.now⟩ ::
              (account s g i).executions } := by
        simp [account, profiled, profile, note, State.goto, State.record, Pc.phase, startedBy]
      rw [heq]
      exact .finish hin
    · have heq : account ((s.goto j (.storeTrace job)).record (.finished (s.jobs job).work))
          (profiled L s (.finish j) o g) i = account s g i := by
        refine account_stay ?_ rfl rfl rfl rfl ?_ (startedBy_append [_] (by simp))
        · show (Function.update s.worker j _ i).pc.phase = _
          rw [Function.update_of_ne hij]
        · show Function.update g.2.executions j _ i = _
          rw [Function.update_of_ne hij]
      rw [heq]
      exact .stay
  · exact work_account hw i

/-! ## What the accounts say -/

variable {c c' : Account} {now clock t₀ : Timepoint}

/-- The executions whose trace is stored. -/
def Account.stored (c : Account) : List Execution :=
  if c.phase = .after then c.executions.tail else c.executions

/-- A stored trace starts when its work was started, and no work is left out. -/
structure Account.Matched (i : Nat) (c : Account) : Prop where
  traces : List.Forall₂ (fun x t => t.startTime = x.started) c.stored c.traces
  threads : ∀ t ∈ c.traces, t.threadIndex = i
  indices : c.indices = c.traces.map JobTrace.threadIndex
  works : c.works =
    (if c.phase = .inside then [c.opened.1] else []) ++ c.executions.map Execution.work
  opened : c.phase = .inside → c.opened.2 = c.start
  last : c.phase = .after → ∃ x xs, c.executions = x :: xs ∧ x.started = c.start

theorem Account.Matched.step (h : c.Matched i) (hm : AccountMove i now c c') : c'.Matched i := by
  cases hm with
  | stay => exact h
  | start hp =>
      refine ⟨?_, h.threads, h.indices, ?_, fun _ => rfl, by simp⟩
      · simpa [stored, hp] using h.traces
      · simpa [hp] using h.works
  | finish hp =>
      refine ⟨?_, h.threads, h.indices, ?_, by simp, fun _ => ⟨_, _, rfl, h.opened hp⟩⟩
      · simpa [stored, hp] using h.traces
      · simpa [hp] using h.works
  | store hp =>
      obtain ⟨x, xs, hx, hstart⟩ := h.last hp
      refine ⟨?_, ?_, ?_, ?_, by simp, by simp⟩
      · have htr := h.traces
        simp only [stored, hp, hx, if_true, List.tail_cons] at htr
        simp only [stored, hx, reduceCtorEq, if_false]
        exact .cons hstart.symm htr
      · intro t ht
        rcases List.mem_cons.mp ht with rfl | ht
        · rfl
        · exact h.threads t ht
      · show i :: c.indices = _
        rw [h.indices]
        rfl
      · simpa [hp] using h.works

/-- The traces are ordered by time, and each covers its work, as long as the clock does not go
back. -/
structure Account.Steady (t₀ clock : Timepoint) (c : Account) : Prop where
  spans : ∀ t ∈ c.traces,
    t₀ ≤ t.startTime ∧ t.startTime ≤ t.currentTime ∧ t.currentTime ≤ clock
  apart : c.traces.Pairwise fun u t => t.currentTime ≤ u.startTime
  covered : List.Forall₂ (fun x t => x.finished ≤ t.currentTime ∧ t₀ ≤ t.startTime ∧
    t.startTime ≤ t.currentTime) c.stored c.traces
  pending : c.phase ≠ .between →
    t₀ ≤ c.start ∧ c.start ≤ clock ∧ ∀ t ∈ c.traces, t.currentTime ≤ c.start
  last : c.phase = .after → ∃ x xs, c.executions = x :: xs ∧ x.finished ≤ clock

theorem Account.Steady.step (h : c.Steady t₀ clock) (h₀ : t₀ ≤ clock) (hnow : clock ≤ now)
    (hm : AccountMove i now c c') : c'.Steady t₀ now := by
  have hspans : ∀ t ∈ c.traces,
      t₀ ≤ t.startTime ∧ t.startTime ≤ t.currentTime ∧ t.currentTime ≤ now := by
    intro t ht
    obtain ⟨h₁, h₂, h₃⟩ := h.spans t ht
    exact ⟨h₁, h₂, h₃.trans hnow⟩
  cases hm with
  | stay =>
      refine ⟨hspans, h.apart, h.covered, fun hp => ?_, fun hp => ?_⟩
      · obtain ⟨h₁, h₂, h₃⟩ := h.pending hp
        exact ⟨h₁, h₂.trans hnow, h₃⟩
      · obtain ⟨x, xs, hx, hfin⟩ := h.last hp
        exact ⟨x, xs, hx, hfin.trans hnow⟩
  | start hp =>
      refine ⟨hspans, h.apart, ?_, fun _ => ?_, by simp⟩
      · simpa [stored, hp] using h.covered
      · exact ⟨h₀.trans hnow, le_rfl, fun t ht => (hspans t ht).2.2⟩
  | finish hp =>
      refine ⟨hspans, h.apart, ?_, fun _ => ?_, fun _ => ⟨_, _, rfl, le_rfl⟩⟩
      · simpa [stored, hp] using h.covered
      · obtain ⟨h₁, h₂, h₃⟩ := h.pending (by simp [hp])
        exact ⟨h₁, h₂.trans hnow, h₃⟩
  | store hp =>
      obtain ⟨h₁, h₂, h₃⟩ := h.pending (by simp [hp])
      obtain ⟨x, xs, hx, hfin⟩ := h.last hp
      refine ⟨fun t ht => ?_, ?_, ?_, by simp, by simp⟩
      · rcases List.mem_cons.mp ht with rfl | ht
        · exact ⟨h₁, h₂.trans hnow, le_rfl⟩
        · exact hspans t ht
      · exact List.pairwise_cons.mpr ⟨h₃, h.apart⟩
      · have hcov := h.covered
        simp only [stored, hp, hx, if_true, List.tail_cons] at hcov
        simp only [stored, hx, reduceCtorEq, if_false]
        exact .cons ⟨hfin.trans hnow, h₁, h₂.trans hnow⟩ hcov

/-! ## Runs -/

variable {n : Nat} {tr : List ((State × Profile J × Diary) × (Action × Outside))}

/-- The traces match the executions in every state. -/
theorem run_matched (h : Run (recorded step (profiled L)) (init n, profileInit t₀) tr (s, g)) :
    ∀ i, (account s g i).Matched i := by
  refine h.record_invariant (I := fun _ => True) (C := fun _ _ => True)
    (J := fun s g => ∀ i, (account s g i).Matched i) (fun _ => trivial) ?_ ?_ (fun _ _ => trivial)
  · intro i
    exact ⟨.nil, by simp [account, profileInit], rfl, rfl, nofun, nofun⟩
  · intro s x s' o g _ hJ _ hs i
    exact (hJ i).step (step_account hs i)

/-- The job system keeps the entries of `m_Traces` without the times. -/
theorem run_traces (h : Run (recorded step (profiled L)) (init n, profileInit t₀) tr (s, g)) (i : Nat) :
    s.traces i = (g.1.traces i).map JobTrace.threadIndex := (run_matched h i).indices

/-- **The profiling changes nothing.** Every run of the job system can be profiled, whatever the
clock reads. -/
theorem run_profiled {tr₀ : List (State × Action)} (h : Run step (init n) tr₀ s)
    {os : List Outside} (hlen : os.length = tr₀.length) : ∃ tr g,
      Run (recorded step (profiled L)) (init n, profileInit t₀) tr (s, g) ∧
        Transition.unrecorded tr = tr₀ ∧ tr.map (fun q => q.2.2) = os :=
  h.recorded _ hlen

theorem profiled_clock : (profiled L s x o g).2.clock = o.now := by
  unfold profiled note
  cases x with
  | work i =>
      cases h : (s.worker i).pc with
      | execute job => cases job <;> simp only [h]
      | _ => simp only [h]
  | _ => rfl

/-- The traces are ordered in every state, if the clock does not go back. -/
theorem run_steady (h : Run (recorded step (profiled L)) (init n, profileInit t₀) tr (s, g))
    (hclock : ∀ q ∈ tr, q.1.2.2.clock ≤ q.2.2.now) :
    t₀ ≤ g.2.clock ∧ ∀ i, (account s g i).Steady t₀ g.2.clock := by
  refine h.record_invariant (I := fun _ => True) (C := fun x e => x.2.2.clock ≤ e.2.now)
    (J := fun s g => t₀ ≤ g.2.clock ∧ ∀ i, (account s g i).Steady t₀ g.2.clock)
    (fun _ => trivial) ?_ ?_ hclock
  · refine ⟨le_rfl, fun i => ⟨by simp [account, profileInit], .nil, .nil, fun hp => ?_, nofun⟩⟩
    exact absurd rfl hp
  · rintro s x s' o g - ⟨h₀, hJ⟩ hC hs
    rw [profiled_clock]
    exact ⟨h₀.trans hC, fun i => (hJ i).step h₀ hC (step_account hs i)⟩

/-- The file, once it is written, is about the traces there are: no worker is in its loop any
more. -/
structure Saved (L : Json.Library J) (t₀ : Timepoint) (s : State) (p : Profile J) : Prop where
  start : p.applicationStart = t₀
  file : ∀ js ∈ p.tracelog, (∀ i < s.size, (s.worker i).pc.left = true) ∧
    js = saveTracelog L t₀ ((List.range s.size).map fun i => (p.traces i).reverse)

theorem Pc.phase_of_left {pc : Pc} (h : pc.left = true) : pc.phase = .between := by
  cases pc with
  | running | storeTrace => cases h
  | _ => rfl

/-- A worker outside its loop stores no trace. -/
theorem left_traces (hs : step s x = some s') (h : (s.worker i).pc.left = true) :
    (profiled L s x o g).1.traces i = g.1.traces i := by
  have hp : (account s g i).phase = .between := Pc.phase_of_left h
  have hm := step_account (L := L) (o := o) (g := g) hs i
  generalize hc : account s' (profiled L s x o g) i = c' at hm
  have htr : (profiled L s x o g).1.traces i = c'.traces := by rw [← hc]; rfl
  rw [htr]
  cases hm with
  | stay | start => rfl
  | finish h | store h =>
      rw [hp] at h
      cases h

theorem profiled_tracelog : (profiled L s x o g).1.applicationStart = g.1.applicationStart ∧
    ((profiled L s x o g).1.tracelog = g.1.tracelog ∨
      ∃ i, x = .work i ∧ (s.worker i).pc = .saveTracelog ∧
        (profiled L s x o g).1 = { g.1 with
          tracelog := some (saveTracelog L g.1.applicationStart
            ((List.range s.size).map fun i => (g.1.traces i).reverse)) }) := by
  unfold profiled profile
  cases x with
  | work i =>
      cases hpc : (s.worker i).pc with
      | execute job => cases job <;> simp [hpc]
      | storeTrace => simp [hpc, storeTrace]
      | saveTracelog => cases o.good <;> simp [hpc]
      | _ => simp [hpc]
  | _ => simp

theorem Saved.step (h : Saved L t₀ s g.1) (hw : Winding s) (hs : step s x = some s') :
    Saved L t₀ s' (profiled L s x o g).1 := by
  obtain ⟨hstart, hfile⟩ := profiled_tracelog (s := s) (x := x) (o := o) (g := g)
  refine ⟨hstart.trans h.start, fun js hjs => ?_⟩
  rcases hfile with heq | ⟨i, rfl, hpc, heq⟩
  · rw [heq] at hjs
    obtain ⟨hleft, rfl⟩ := h.file js hjs
    rw [step_size hs]
    refine ⟨fun i hi => left_step hs (hleft i hi), congrArg _ (List.map_congr_left fun i hi => ?_)⟩
    rw [left_traces hs (hleft i (List.mem_range.mp hi))]
  · have hi : i < s.size := (step_work hs).1
    rw [heq] at hjs ⊢
    cases hjs
    rw [h.start, step_size hs]
    refine ⟨fun j hj => left_step hs ?_, rfl⟩
    by_cases hji : j = i
    · rw [hji, hpc]
      rfl
    · rw [hw.alone hi hpc j hj hji]
      rfl

theorem run_saved (hn : 0 < n) (hlt : n < 2 ^ 32)
    (h : Run (recorded step (profiled L)) (init n, profileInit t₀) tr (s, g)) : Saved L t₀ s g.1 := by
  refine h.record_invariant (I := Winding) (C := fun _ _ => True)
    (J := fun s g => Saved L t₀ s g.1) (fun hrun => (run_winding hrun hn hlt).2) ?_ ?_
    (fun _ _ => trivial)
  · exact ⟨rfl, nofun⟩
  · intro s x s' o g hw hJ _ hs
    exact hJ.step hw hs

/-! ## The file again -/

/-- What one thread has in the concatenation of all threads' entries. -/
theorem filter_flatten_range {ev : Type*} (tid : ev → Nat) (f : Nat → List ev)
    (hf : ∀ i, ∀ e ∈ f i, tid e = i) (i : Nat) : ∀ n, i < n →
      ((List.range n).map f).flatten.filter (fun e => tid e = i) = f i := by
  have hnone : ∀ j, j ≠ i → (f j).filter (fun e => tid e = i) = [] := by
    intro j hj
    refine List.filter_eq_nil_iff.mpr fun e he => ?_
    simp [hf j e he, hj]
  intro n
  induction n with
  | zero => intro hi; omega
  | succ n ih =>
      intro hi
      rw [List.range_succ, List.map_append, List.flatten_append, List.filter_append]
      by_cases hin : i = n
      · have hbefore : ((List.range n).map f).flatten.filter (fun e => tid e = i) = [] := by
          refine List.filter_eq_nil_iff.mpr fun e he => ?_
          obtain ⟨l, hl, hel⟩ := List.mem_flatten.mp he
          obtain ⟨j, hj, rfl⟩ := List.mem_map.mp hl
          have hjn := List.mem_range.mp hj
          simp only [hf j e hel, decide_eq_true_eq]
          omega
        rw [hbefore, ← hin]
        simpa using hf i
      · have hafter : (([n].map f).flatten).filter (fun e => tid e = i) = [] := by
          simpa using hnone n (Ne.symm hin)
        rw [hafter, List.append_nil, ih (by omega)]

/-- The events of worker `i`. -/
def eventsOf (events : List TraceEvent) (i : Nat) : List TraceEvent :=
  events.filter fun e => e.tid = i

/-- What the events say about the executions of `n` workers. -/
structure Tells (events : List TraceEvent) (t₀ : Timepoint) (n : Nat) (s : State) (d : Diary) :
    Prop where
  threads : ∀ e ∈ events, e.tid < n
  works : ∀ i < n, (d.executions i).map Execution.work = startedBy i s.log
  starts : ∀ i < n, List.Forall₂ (fun x e => e.ts = microseconds (x.started - t₀))
    (d.executions i).reverse (eventsOf events i)
  missing : events = [] ↔ ∀ i < n, startedBy i s.log = []

/-- What they say about the times. -/
structure Measures (events : List TraceEvent) (n : Nat) (d : Diary) : Prop where
  lasts : ∀ i < n, List.Forall₂
    (fun x e => 0 ≤ e.ts ∧ 0 ≤ e.dur ∧ microseconds (x.finished - x.started) ≤ e.dur)
    (d.executions i).reverse (eventsOf events i)
  apart : ∀ i < n, (eventsOf events i).Pairwise fun e f => e.ts + e.dur ≤ f.ts

/-- The events of a saved file, those of the workers one after the other. -/
def savedEvents (t₀ : Timepoint) (s : State) (p : Profile J) : List TraceEvent :=
  ((List.range s.size).map fun i => (p.traces i).reverse).flatten.map (traceEvent t₀)

/-- The events of a worker are its stored traces. -/
theorem savedEvents_of (hm : ∀ i, (account s g i).Matched i) (hi : i < s.size) :
    eventsOf (savedEvents t₀ s g.1) i = (g.1.traces i).reverse.map (traceEvent t₀) := by
  unfold eventsOf savedEvents
  rw [List.map_flatten, List.map_map]
  refine filter_flatten_range TraceEvent.tid
    (fun i => (g.1.traces i).reverse.map (traceEvent t₀)) (fun j e he => ?_) i s.size hi
  obtain ⟨t, ht, rfl⟩ := List.mem_map.mp he
  exact (hm j).threads t (List.mem_reverse.mp ht)

theorem Saved.tracelog {js : J} (hL : L.Lawful) (h : Saved L t₀ s g.1)
    (hjs : g.1.tracelog = some js) : Tracelog L js (savedEvents t₀ s g.1) := by
  rw [(h.file js hjs).2]
  exact saveTracelog_tracelog hL t₀ _

/-- When the file is saved, all executions are stored. -/
theorem Account.Matched.all_stored (h : c.Matched i) (hp : c.phase = .between) :
    c.stored = c.executions ∧ c.works = c.executions.map Execution.work := by
  refine ⟨?_, ?_⟩
  · simp [stored, hp]
  · rw [h.works]
    simp [hp]

/-- What the saved events say, once there is a file. -/
theorem run_tells {js : J} (hn : 0 < n) (hlt : n < 2 ^ 32)
    (h : Run (recorded step (profiled L)) (init n, profileInit t₀) tr (s, g))
    (hjs : g.1.tracelog = some js) : Tells (savedEvents t₀ s g.1) t₀ n s g.2 := by
  have hsize : s.size = n := (run_winding h.forget hn hlt).1
  have hm := run_matched h
  have hsaved := run_saved hn hlt h
  have hleft := (hsaved.file js hjs).1
  rw [hsize] at hleft
  have hstored : ∀ i < n, (account s g i).stored = g.2.executions i ∧
      startedBy i s.log = (g.2.executions i).map Execution.work :=
    fun i hi => (hm i).all_stored (Pc.phase_of_left (hleft i hi))
  have htraces : ∀ i < n, List.Forall₂ (fun x t => t.startTime = x.started)
      (g.2.executions i) (g.1.traces i) := by
    intro i hi
    rw [← (hstored i hi).1]
    exact (hm i).traces
  refine ⟨fun e he => ?_, fun i hi => (hstored i hi).2.symm, fun i hi => ?_, ?_⟩
  · obtain ⟨t, ht, rfl⟩ := List.mem_map.mp he
    obtain ⟨l, hl, htl⟩ := List.mem_flatten.mp ht
    obtain ⟨i, hi, rfl⟩ := List.mem_map.mp hl
    have htid := (hm i).threads t (List.mem_reverse.mp htl)
    show t.threadIndex < n
    rw [htid, ← hsize]
    exact List.mem_range.mp hi
  · rw [savedEvents_of hm (hsize ▸ hi), List.forall₂_map_right_iff, List.forall₂_reverse_iff]
    refine (htraces i hi).imp fun x t hxt => ?_
    show microseconds (t.startTime - t₀) = _
    rw [hxt]
  · unfold savedEvents
    rw [List.map_eq_nil_iff, List.flatten_eq_nil_iff, hsize]
    constructor
    · intro hnil i hi
      have htr : g.1.traces i = [] := List.reverse_eq_nil_iff.mp
        (hnil _ (List.mem_map.mpr ⟨i, List.mem_range.mpr hi, rfl⟩))
      have hx := htraces i hi
      rw [htr, List.forall₂_nil_right_iff] at hx
      rw [(hstored i hi).2, hx, List.map_nil]
    · intro hnil l hl
      obtain ⟨i, hi, rfl⟩ := List.mem_map.mp hl
      have hi := List.mem_range.mp hi
      have hx : g.2.executions i = [] := by
        have hw := (hstored i hi).2
        rw [hnil i hi] at hw
        exact List.map_eq_nil_iff.mp hw.symm
      have htr := htraces i hi
      rw [hx, List.forall₂_nil_left_iff] at htr
      rw [htr, List.reverse_nil]

theorem microseconds_nonneg {a b : Timepoint} (h : a ≤ b) : 0 ≤ microseconds (b - a) :=
  Int.tdiv_nonneg (Int.sub_nonneg_of_le h) (by decide)

theorem microseconds_le {a b b' : Timepoint} (h : b ≤ b') :
    microseconds (b - a) ≤ microseconds (b' - a) :=
  Int.tdiv_le_tdiv (by decide) (Int.sub_le_sub_right h a)

/-- Rounding the parts of a span does not give more than rounding the whole. -/
theorem microseconds_add_le {a b b' d : Int} (h₁ : a ≤ b) (h₂ : b ≤ b') (h₃ : b' ≤ d) :
    microseconds (b - a) + microseconds (b' - b) ≤ microseconds (d - a) := by
  unfold microseconds
  rw [Int.tdiv_eq_ediv_of_nonneg (Int.sub_nonneg_of_le h₁),
    Int.tdiv_eq_ediv_of_nonneg (Int.sub_nonneg_of_le h₂),
    Int.tdiv_eq_ediv_of_nonneg (Int.sub_nonneg_of_le ((h₁.trans h₂).trans h₃))]
  omega

/-- What the saved events say about the times, as long as the clock does not go back. -/
theorem run_measures {js : J} (hn : 0 < n) (hlt : n < 2 ^ 32)
    (h : Run (recorded step (profiled L)) (init n, profileInit t₀) tr (s, g))
    (hclock : ∀ q ∈ tr, q.1.2.2.clock ≤ q.2.2.now) (hjs : g.1.tracelog = some js) :
    Measures (savedEvents t₀ s g.1) n g.2 := by
  have hsize : s.size = n := (run_winding h.forget hn hlt).1
  have hm := run_matched h
  obtain ⟨-, hsteady⟩ := run_steady h hclock
  have hleft := ((run_saved hn hlt h).file js hjs).1
  rw [hsize] at hleft
  have hstored : ∀ i < n, (account s g i).stored = g.2.executions i :=
    fun i hi => ((hm i).all_stored (Pc.phase_of_left (hleft i hi))).1
  refine ⟨fun i hi => ?_, fun i hi => ?_⟩
  · have hcov := (hsteady i).covered
    have hstart := (hm i).traces
    rw [hstored i hi] at hcov hstart
    rw [savedEvents_of hm (hsize ▸ hi), List.forall₂_map_right_iff, List.forall₂_reverse_iff]
    refine List.Forall₂.mp (fun x t hxt ht => ?_) hstart hcov
    obtain ⟨hfin, h₁, h₂⟩ := ht
    refine ⟨microseconds_nonneg h₁, microseconds_nonneg h₂, ?_⟩
    rw [← hxt]
    exact microseconds_le hfin
  · rw [savedEvents_of hm (hsize ▸ hi), List.pairwise_map, List.pairwise_reverse]
    have hspans := (hsteady i).spans
    refine (hsteady i).apart.imp_of_mem fun {u t} hu ht hut => ?_
    obtain ⟨h₁, h₂, -⟩ := hspans t ht
    exact microseconds_add_le h₁ h₂ hut

/-! ## The file of a run -/

/-- **The trace log is complete.** Take a run of `n` workers in which `tracelog.json` was written,
whatever the threads scheduled, whenever `shutdown` was called and whatever the clock read. The
file has one complete event for each work that a worker started, under the worker's index, in the
order in which the worker started them and with the time of the start; each of these works was
executed to its end. -/
theorem tracelog_tells {js : J} (hL : L.Lawful) (hn : 0 < n) (hlt : n < 2 ^ 32)
    (h : Run (recorded step (profiled L)) (init n, profileInit t₀) tr (s, g))
    (hjs : g.1.tracelog = some js) :
    ∃ events, Tracelog L js events ∧ Tells events t₀ n s g.2 :=
  ⟨_, (run_saved hn hlt h).tracelog hL hjs, run_tells hn hlt h hjs⟩

/-- A client schedules a job, the worker runs it, and then everything up to the end of the
shutdown. -/
def oneTraced : List Action :=
  [.schedule (.client 0) none none 7, .call (.client 0), .call (.client 0), .call (.client 0)] ++
    List.replicate 10 (.work 0) ++ [.shutdown (.client 0), .finish 0] ++ List.replicate 21 (.work 0)

/-- The clock goes on by 1500 nanoseconds with each step. -/
def oneTrace : List (Action × Outside) :=
  oneTraced.zipIdx.map fun q => (q.1, { now := 1500 * (q.2 + 1) })

theorem oneTrace_run : ∃ tr s g, Run (recorded step (profiled Json.values))
    (init 1, profileInit 0) tr (s, g) ∧ (∀ q ∈ tr, q.1.2.2.clock ≤ q.2.2.now) ∧
    g.1.traces 0 = [⟨21000, 25500, 0⟩] ∧ ∃ js, g.1.tracelog = some js := by
  have hexec : ((Transition.exec (recorded step (profiled Json.values))
      (fun x e => x.2.2.clock ≤ e.2.now) (init 1, profileInit 0) oneTrace).any fun x =>
        decide (x.2.1.traces 0 = [⟨21000, 25500, 0⟩] ∧ x.2.1.tracelog.isSome = true)) = true := by
    decide +kernel
  obtain ⟨tr, x, hrun, -, hclock, hx⟩ := Transition.exists_run_of_exec hexec
  obtain ⟨htraces, hjs⟩ := of_decide_eq_true hx
  exact ⟨tr, x.1, x.2, hrun, hclock, htraces, Option.isSome_iff_exists.mp hjs⟩

theorem tracelog_tells_one : ∃ (s : State) (g : Profile Json.Value × Diary) (js : Json.Value)
    (events : List TraceEvent), g.1.tracelog = some js ∧ g.1.traces 0 = [⟨21000, 25500, 0⟩] ∧
    Tracelog Json.values js events ∧ Tells events 0 1 s g.2 := by
  obtain ⟨tr, s, g, hrun, -, htraces, js, hjs⟩ := oneTrace_run
  obtain ⟨events, hlog, htells⟩ := tracelog_tells Json.values_lawful (by decide) (by decide) hrun hjs
  exact ⟨s, g, js, events, hjs, htraces, hlog, htells⟩

/-- **The trace log is accurate.** If moreover the clock never goes back, then no event has a
negative time or duration, its duration is not less than the time that its work took, rounded to
microseconds, and it ends before the next event of its worker begins: the rounding does not make
events overlap. -/
theorem tracelog_measures {js : J} (hL : L.Lawful) (hn : 0 < n) (hlt : n < 2 ^ 32)
    (h : Run (recorded step (profiled L)) (init n, profileInit t₀) tr (s, g))
    (hclock : ∀ q ∈ tr, q.1.2.2.clock ≤ q.2.2.now) (hjs : g.1.tracelog = some js) :
    ∃ events, Tracelog L js events ∧ Tells events t₀ n s g.2 ∧ Measures events n g.2 :=
  ⟨_, (run_saved hn hlt h).tracelog hL hjs, run_tells hn hlt h hjs,
    run_measures hn hlt h hclock hjs⟩

theorem tracelog_measures_one : ∃ (g : Profile Json.Value × Diary) (js : Json.Value)
    (events : List TraceEvent), g.1.tracelog = some js ∧ g.1.traces 0 = [⟨21000, 25500, 0⟩] ∧
    Tracelog Json.values js events ∧ Measures events 1 g.2 := by
  obtain ⟨tr, s, g, hrun, hclock, htraces, js, hjs⟩ := oneTrace_run
  obtain ⟨events, hlog, -, hmeasures⟩ :=
    tracelog_measures Json.values_lawful (by decide) (by decide) hrun hclock hjs
  exact ⟨g, js, events, hjs, htraces, hlog, hmeasures⟩

end Bop.JobSystem
