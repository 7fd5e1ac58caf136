import Bop.JobSystem.Frame
import Mathlib.Data.Finset.Card

set_option autoImplicit false

/-! # The shutdown protocol

A worker that leaves its loop deallocates its four queues and bins and counts itself off in
`m_NumThreads`, the variable that the others still use as the number of threads. The one that
finds `1` there is the last: it saves the trace log and sets `m_ShutdownComplete`.

`Winding` is what this comes to at any time: `m_NumThreads` is the number of the workers that
are not counted off, and once there are none the last one is alone on its way to the end. The
jobs play no part in it, so it holds in all runs, whatever the threads schedule.
-/

namespace Bop.JobSystem

/-- The loop test of `JobSystem::wait_for_shutdown`. -/
def State.waiting (s : State) : Bool := !s.shutdownComplete

/-! ## How far a worker is -/

/-- The order in which the resources are deallocated. -/
def Resource.rank : Resource → Nat
  | .globalQueue => 0
  | .localQueue => 1
  | .recyclingBin => 2
  | .garbageBin => 3

/-- The number of resources that the worker has deallocated. -/
def Pc.cleaned : Pc → Nat
  | .drain r | .drainClear r => r.rank
  | .countdown | .saveTracelog | .setComplete | .done => 4
  | _ => 0

/-- Whether a worker has counted itself off. -/
def Pc.gone : Pc → Bool
  | .saveTracelog | .setComplete | .done => true
  | _ => false

theorem Resource.rank_lt (r : Resource) : r.rank < 4 := by cases r <;> decide

theorem Resource.rank_inj {r r' : Resource} (h : r.rank = r'.rank) : r = r' := by
  cases r <;> cases r' <;> first | rfl | cases h

theorem Resource.next_cleaned (r : Resource) : r.next.cleaned = r.rank + 1 := by
  cases r <;> rfl

theorem Resource.next_gone (r : Resource) : r.next.gone = false := by cases r <;> rfl

/-- The workers that have not counted themselves off. -/
def State.active (s : State) : Finset Nat :=
  (Finset.range s.size).filter fun i => (s.worker i).pc.gone = false

/-- The events of the clean-up, up to the end of the shutdown. -/
def Event.winds : Event → Bool
  | .destroyed _ | .drained _ _ | .saved _ | .shutdownCompleted => true
  | _ => false

/-- The events of the last worker. -/
def Event.ends : Event → Bool
  | .saved _ | .shutdownCompleted => true
  | _ => false

theorem Event.ends_of_winds {e : Event} (h : e.winds = false) : e.ends = false := by
  cases e <;> first | rfl | cases h

/-! ## What a step does to the shutdown -/

section Winds

variable {s s' : State} {i : Nat} {t : Tid} {x : Action}

/-- Nothing about the shutdown changes, and nothing is recorded about it. -/
structure Calm (s s' : State) : Prop where
  numThreads : s'.numThreads = s.numThreads
  shutdownComplete : s'.shutdownComplete = s.shutdownComplete
  size : s'.size = s.size
  log : ∃ es, s'.log = es ++ s.log ∧ ∀ e ∈ es, e.winds = false

theorem Calm.refl (s : State) : Calm s s := ⟨rfl, rfl, rfl, [], rfl, by simp⟩

theorem Calm.mem_log {e : Event} (h : Calm s s') (he : e ∈ s.log) : e ∈ s'.log := by
  obtain ⟨es, hes, -⟩ := h.log
  rw [hes]
  exact List.mem_append_right es he

theorem Calm.ends (h : Calm s s') : s'.log.filter Event.ends = s.log.filter Event.ends := by
  obtain ⟨es, hes, hw⟩ := h.log
  have hnone : es.filter Event.ends = [] :=
    List.filter_eq_nil_iff.mpr fun e he => by simp [Event.ends_of_winds (hw e he)]
  rw [hes, List.filter_append, hnone, List.nil_append]

theorem CallFrame.calm (h : CallFrame s s') : Calm s s' := by
  obtain ⟨es, hes, hcall⟩ := h.log
  refine ⟨h.numThreads, h.shutdownComplete, h.size, es, hes, fun e he => ?_⟩
  have hof := hcall e he
  cases e <;> first | rfl | cases hof

theorem Calm.goto {s₁ : State} {pc : Pc} (h : Calm s s₁) : Calm s (s₁.goto i pc) := { h with }

theorem handOver_calm (a : Addr) (c : Option Addr) : Calm s (handOver s a c) := by
  unfold handOver
  split
  · exact ⟨rfl, rfl, rfl, [], rfl, by simp⟩
  · exact .refl s

theorem completionStep_calm (c : Completion) : Calm s (completionStep s t c).1 := by
  have hone : ∀ {e₀ : Event}, e₀.winds = false → ∀ e ∈ [e₀], e.winds = false :=
    fun h e he => (List.mem_singleton.mp he) ▸ h
  cases c with
  | fetchSub a callers =>
      cases callers with
      | nil => exact ⟨rfl, rfl, rfl, [_], rfl, hone rfl⟩
      | cons b callers =>
          refine ⟨rfl, rfl, rfl, [_, _], rfl, fun e he => ?_⟩
          rcases List.mem_pair.mp he with rfl | rfl
          · rfl
          · rfl
  | ascend a callers =>
      simp only [completionStep]
      split
      · exact .refl s
      · exact ⟨rfl, rfl, rfl, [_], rfl, hone rfl⟩
  | recycle a callers =>
      obtain ⟨q, -, hrec⟩ := recycle_eq s t a
      simp only [completionStep, hrec]
      exact ⟨rfl, rfl, rfl, [_], rfl, hone rfl⟩

/-- **What worker `i` does to the shutdown.** -/
inductive Winds (s : State) (i : Nat) (s' : State) : Prop
  | stays (hcalm : Calm s s') (hgone : (s.worker i).pc.gone = false)
      (hgone' : (s'.worker i).pc.gone = false)
      (hcleaned : (s'.worker i).pc.cleaned = (s.worker i).pc.cleaned)
  | clears (r : Resource) (hpc : (s.worker i).pc = .drainClear r)
      (hpc' : (s'.worker i).pc = r.next) (hn : s'.numThreads = s.numThreads)
      (hc : s'.shutdownComplete = s.shutdownComplete) (hl : s'.log = .drained i r :: s.log)
  | counts (hpc : (s.worker i).pc = .countdown)
      (hpc' : (s'.worker i).pc = if s.numThreads = 1 then .saveTracelog else .done)
      (hn : s'.numThreads = pred32 s.numThreads)
      (hc : s'.shutdownComplete = s.shutdownComplete) (hl : s'.log = s.log)
  | saves (hpc : (s.worker i).pc = .saveTracelog) (hpc' : (s'.worker i).pc = .setComplete)
      (hn : s'.numThreads = s.numThreads) (hc : s'.shutdownComplete = s.shutdownComplete)
      (hl : s'.log = .saved i :: s.log)
  | completes (hpc : (s.worker i).pc = .setComplete) (hpc' : (s'.worker i).pc = .done)
      (hn : s'.numThreads = s.numThreads) (hc : s'.shutdownComplete = true)
      (hl : s'.log = .shutdownCompleted :: s.log)

theorem workerStep_winds (hs : workerStep s i = some s') : Winds s i s' := by
  have hself : ∀ {w : Worker}, Function.update s.worker i w i = w :=
    fun {w} => Function.update_self i w s.worker
  -- the steps that go on at `w`
  have hgo : ∀ {w : Worker}, s'.worker = Function.update s.worker i w → Calm s s' →
      (s.worker i).pc.gone = false → w.pc.gone = false →
      w.pc.cleaned = (s.worker i).pc.cleaned → Winds s i s' := by
    intro w hw hcalm hg hg' hcl
    have hwi : s'.worker i = w := by rw [hw, hself]
    exact .stays hcalm hg (hwi ▸ hg') (hwi ▸ hcl)
  have hone : ∀ {e₀ : Event}, e₀.winds = false → ∀ e ∈ [e₀], e.winds = false :=
    fun h e he => (List.mem_singleton.mp he) ▸ h
  cases workerStep_move hs with
  | spin hpc => exact .stays (.refl s) (by rw [hpc]; rfl) (by rw [hpc]; rfl) rfl
  | readContinuation hpc | execute hpc =>
      exact hgo rfl ⟨rfl, rfl, rfl, [_], rfl, hone rfl⟩ (by rw [hpc]; rfl) rfl (by rw [hpc]; rfl)
  | @handOver a o hpc =>
      have hw := (JobSystem.handOver_frame (s := s) (i := i) a o).2
      refine hgo (w := { (JobSystem.handOver s a o).worker i with
        pc := .complete (.fetchSub a []) o }) ?_ (handOver_calm a o).goto (by rw [hpc]; rfl) rfl
        (by rw [hpc]; rfl)
      show Function.update (JobSystem.handOver s a o).worker i _ = _
      rw [hw]
  | @complete c c' o s₁ hpc hc =>
      have hw := (completionStep_frame (s := s) (i := i) (t := .worker i) c).2
      have hcalm := completionStep_calm (s := s) (t := .worker i) c
      rw [hc] at hw hcalm
      refine hgo (w := { s₁.worker i with pc := .complete c' o }) ?_ hcalm.goto
        (by rw [hpc]; rfl) rfl (by rw [hpc]; rfl)
      show Function.update s₁.worker i _ = _
      rw [hw]
  | @completed c o s₁ hpc hc =>
      have hw := (completionStep_frame (s := s) (i := i) (t := .worker i) c).2
      have hcalm := completionStep_calm (s := s) (t := .worker i) c
      rw [hc] at hw hcalm
      refine hgo (w := { s₁.worker i with pc := .execute o }) ?_ hcalm.goto
        (by rw [hpc]; rfl) rfl (by rw [hpc]; rfl)
      show Function.update s₁.worker i _ = _
      rw [hw]
  | drain hpc =>
      exact .stays ⟨rfl, rfl, rfl, [_], rfl, hone rfl⟩ (by rw [hpc]; rfl)
        (by show (s.worker i).pc.gone = _; rw [hpc]; rfl) rfl
  | drainClear hpc => exact .clears _ hpc (congrArg Worker.pc hself) rfl rfl rfl
  | countdown hpc => exact .counts hpc (congrArg Worker.pc hself) rfl rfl rfl
  | saveTracelog hpc => exact .saves hpc (congrArg Worker.pc hself) rfl rfl rfl
  | setComplete hpc => exact .completes hpc (congrArg Worker.pc hself) rfl rfl rfl
  | start hpc | arrive hpc | released hpc | stealInit hpc | stay hpc | leave hpc | noLocal hpc
  | popLocal hpc | popGlobal hpc | stealCount hpc | hasJob hpc | stealOn hpc | stealEnd hpc
  | stealNext hpc | stealPop hpc | noJob hpc | storeTrace hpc | collect hpc | idle hpc
  | drained hpc =>
      exact hgo rfl ⟨rfl, rfl, rfl, [], rfl, by simp⟩ (by rw [hpc]; rfl) rfl (by rw [hpc]; rfl)

/-- **What a step does to the shutdown**: nothing, or what its worker does. -/
theorem step_winds (hs : step s x = some s') : (s'.worker = s.worker ∧ Calm s s') ∨
    ∃ i < s.size, (∀ j ≠ i, s'.worker j = s.worker j) ∧ Winds s i s' := by
  rcases step_cases hs with ⟨-, hf⟩ | ⟨i, job, -, hpc, -, hi, rfl⟩ | ⟨i, -, hi, hw⟩
  · exact Or.inl ⟨hf.worker, hf.calm⟩
  · refine Or.inr ⟨i, hi, fun j hj => Function.update_of_ne hj .., ?_⟩
    have hpc' : (((s.goto i (.storeTrace job)).record (.finished (s.jobs job).work)).worker i).pc =
        .storeTrace job := by
      show (Function.update s.worker i _ i).pc = _
      rw [Function.update_self]
    exact .stays ⟨rfl, rfl, rfl, [_], rfl, by simp [Event.winds]⟩ (by rw [hpc]; rfl)
      (by rw [hpc']; rfl) (by rw [hpc, hpc']; rfl)
  · exact Or.inr ⟨i, hi, (workerStep_frame hw).worker, workerStep_winds hw⟩

/-- The record only grows. -/
theorem step_log (hs : step s x = some s') {e : Event} (he : e ∈ s.log) : e ∈ s'.log := by
  rcases step_winds hs with ⟨-, hcalm⟩ | ⟨i, -, -, hwind⟩
  · exact hcalm.mem_log he
  · cases hwind with
    | stays hcalm => exact hcalm.mem_log he
    | clears r _ _ _ _ hl => exact hl ▸ List.mem_cons_of_mem _ he
    | counts _ _ _ _ hl => exact hl ▸ he
    | saves _ _ _ _ hl => exact hl ▸ List.mem_cons_of_mem _ he
    | completes _ _ _ _ hl => exact hl ▸ List.mem_cons_of_mem _ he

/-- The clean-up destroys no job. -/
theorem step_destroyed (hs : step s x = some s') {a : Addr} (he : .destroyed a ∈ s'.log) :
    .destroyed a ∈ s.log := by
  have hcalm : Calm s s' → .destroyed a ∈ s.log := by
    intro hcalm
    obtain ⟨es, hes, hw⟩ := hcalm.log
    rw [hes] at he
    exact (List.mem_append.mp he).resolve_left fun he => by cases hw _ he
  rcases step_winds hs with ⟨-, h⟩ | ⟨i, -, -, hwind⟩
  · exact hcalm h
  · cases hwind with
    | stays h => exact hcalm h
    | clears r _ _ _ _ hl => simpa [hl] using he
    | counts _ _ _ _ hl => exact hl ▸ he
    | saves _ _ _ _ hl => simpa [hl] using he
    | completes _ _ _ _ hl => simpa [hl] using he

end Winds

/-! ## The countdown -/

section Winding

variable {s s' : State} {i j : Nat} {x : Action} {n : Nat} {tr : List (State × Action)}

theorem mem_active : i ∈ s.active ↔ i < s.size ∧ (s.worker i).pc.gone = false := by
  simp [State.active]

theorem active_congr (hsize : s'.size = s.size)
    (h : ∀ j, (s'.worker j).pc.gone = (s.worker j).pc.gone) : s'.active = s.active := by
  ext j
  rw [mem_active, mem_active, hsize, h]

/-- A worker counts itself off. -/
theorem active_erase (hsize : s'.size = s.size) (hi : (s'.worker i).pc.gone = true)
    (h : ∀ j ≠ i, s'.worker j = s.worker j) : s'.active = s.active.erase i := by
  ext j
  rw [Finset.mem_erase, mem_active, mem_active, hsize]
  by_cases hji : j = i
  · subst hji
    simp [hi]
  · rw [h j hji]
    simp [hji]

/-- Who finds `1` in the counter is the only one left, -/
theorem active_one (hcount : s.active.card = 1) (hi : i ∈ s.active) (hj : j ∈ s.active) :
    j = i := by
  obtain ⟨k, hk⟩ := Finset.card_eq_one.mp hcount
  rw [hk, Finset.mem_singleton] at hi hj
  rw [hi, hj]

/-- and who finds another value is not. -/
theorem active_more (hcount : s.active.card ≠ 1) (hi : i ∈ s.active) :
    (s.active.erase i).Nonempty := by
  rw [← Finset.card_pos, Finset.card_erase_of_mem hi]
  have hpos : 0 < s.active.card := Finset.card_pos.mpr ⟨i, hi⟩
  omega

/-- The last worker on its way to the end: what it has recorded when it is at `pc`. -/
def State.Finale (s : State) (i : Nat) : Pc → Prop
  | .saveTracelog => s.log.filter Event.ends = [] ∧ s.shutdownComplete = false
  | .setComplete => s.log.filter Event.ends = [.saved i] ∧ s.shutdownComplete = false
  | .done => s.log.filter Event.ends = [.shutdownCompleted, .saved i] ∧ s.shutdownComplete = true
  | _ => False

/-- **The invariant of the shutdown.** -/
structure Winding (s : State) : Prop where
  count : s.numThreads = s.active.card
  cleaned : ∀ i r, r.rank < (s.worker i).pc.cleaned → .drained i r ∈ s.log
  counting : s.active.Nonempty → s.log.filter Event.ends = [] ∧ s.shutdownComplete = false ∧
    ∀ j, (s.worker j).pc.gone = true → (s.worker j).pc = .done
  ended : s.active = ∅ → ∃ i < s.size, (∀ j < s.size, j ≠ i → (s.worker j).pc = .done) ∧
    s.Finale i (s.worker i).pc

theorem active_init (n : Nat) : (init n).active = Finset.range n := by
  ext i
  rw [mem_active, Finset.mem_range]
  exact and_iff_left rfl

theorem winding_init (hn : 0 < n) : Winding (init n) where
  count := by
    rw [active_init, Finset.card_range]
    rfl
  cleaned i r h := absurd h (Nat.not_lt_zero _)
  counting _ := ⟨rfl, rfl, fun j hj => by cases hj⟩
  ended h := by
    rw [active_init, Finset.range_eq_empty_iff] at h
    exact absurd h hn.ne'

theorem Finale.gone {pc : Pc} (h : s.Finale i pc) : pc.gone = true := by
  cases pc <;> first | rfl | exact h.elim

theorem Finale.congr {pc : Pc} (h : s.Finale i pc) (hcalm : Calm s s') : s'.Finale i pc := by
  have hl := hcalm.ends
  have hc := hcalm.shutdownComplete
  cases pc with
  | saveTracelog | setComplete | done => exact ⟨hl.trans h.1, hc.trans h.2⟩
  | _ => exact h.elim

/-- Steps that have nothing to do with the shutdown. -/
theorem Winding.calm (h : Winding s) (hcalm : Calm s s')
    (hgone : ∀ j, (s'.worker j).pc.gone = (s.worker j).pc.gone)
    (hpc : ∀ j, (s.worker j).pc.gone = true → (s'.worker j).pc = (s.worker j).pc)
    (hcl : ∀ j, (s'.worker j).pc.cleaned = (s.worker j).pc.cleaned) : Winding s' := by
  have hact : s'.active = s.active := active_congr hcalm.size hgone
  constructor
  case count => rw [hcalm.numThreads, hact, h.count]
  case cleaned =>
    intro j r hr
    rw [hcl] at hr
    exact hcalm.mem_log (h.cleaned j r hr)
  case counting =>
    intro hne
    rw [hact] at hne
    obtain ⟨hl, hc, hd⟩ := h.counting hne
    refine ⟨hcalm.ends.trans hl, hcalm.shutdownComplete.trans hc, fun j hj => ?_⟩
    rw [hgone] at hj
    rw [hpc j hj]
    exact hd j hj
  case ended =>
    intro he
    rw [hact] at he
    obtain ⟨k, hk, hdone, hfin⟩ := h.ended he
    refine ⟨k, hcalm.size ▸ hk, fun j hj hjk => ?_, ?_⟩
    · have hj' : (s.worker j).pc = .done := hdone j (hcalm.size ▸ hj) hjk
      rw [hpc j (by rw [hj']; rfl), hj']
    · rw [hpc k (Finale.gone hfin)]
      exact Finale.congr hfin hcalm

/-- The resources of the workers stay deallocated, and one more may be. -/
theorem Winding.cleaned_step (h : Winding s) (hl : ∀ e ∈ s.log, e ∈ s'.log)
    (hother : ∀ j ≠ i, s'.worker j = s.worker j)
    (hself : ∀ r, r.rank < (s'.worker i).pc.cleaned →
      r.rank < (s.worker i).pc.cleaned ∨ .drained i r ∈ s'.log) :
    ∀ j r, r.rank < (s'.worker j).pc.cleaned → .drained j r ∈ s'.log := by
  intro j r hr
  by_cases hj : j = i
  · subst hj
    exact (hself r hr).elim (fun hr => hl _ (h.cleaned j r hr)) id
  · rw [hother j hj] at hr
    exact hl _ (h.cleaned j r hr)

/-- The worker counts itself off. -/
theorem Winding.counts (h : Winding s) (hlt : s.size < 2 ^ 32) (hi : i < s.size)
    (hsize : s'.size = s.size) (hother : ∀ j ≠ i, s'.worker j = s.worker j)
    (hpc : (s.worker i).pc = .countdown)
    (hpc' : (s'.worker i).pc = if s.numThreads = 1 then .saveTracelog else .done)
    (hn : s'.numThreads = pred32 s.numThreads)
    (hc : s'.shutdownComplete = s.shutdownComplete) (hl : s'.log = s.log) : Winding s' := by
  have hmem : i ∈ s.active := mem_active.mpr ⟨hi, by rw [hpc]; rfl⟩
  have hgone' : (s'.worker i).pc.gone = true := by
    rw [hpc']
    split <;> rfl
  have hact : s'.active = s.active.erase i := active_erase hsize hgone' hother
  have hpos : 0 < s.active.card := Finset.card_pos.mpr ⟨i, hmem⟩
  have hle : s.active.card ≤ s.size := by
    have hcard := Finset.card_filter_le (Finset.range s.size)
      (fun i => (s.worker i).pc.gone = false)
    rwa [Finset.card_range] at hcard
  obtain ⟨hlog, hcomp, hdone⟩ := h.counting ⟨i, hmem⟩
  constructor
  case count =>
    rw [hn, h.count, hact, Finset.card_erase_of_mem hmem]
    exact pred32_of_pos hpos (by omega)
  case cleaned =>
    refine h.cleaned_step (fun e he => hl ▸ he) hother (fun r _ => Or.inl ?_)
    rw [hpc]
    exact r.rank_lt
  case counting =>
    intro hne
    rw [hact] at hne
    refine ⟨by rw [hl, hlog], hc.trans hcomp, fun j hj => ?_⟩
    by_cases hji : j = i
    · subst hji
      -- another one is left, so the counter was not `1`
      have hone : s.numThreads ≠ 1 := by
        intro h1
        obtain ⟨k, hk⟩ := hne
        rw [Finset.mem_erase] at hk
        exact hk.1 (active_one (h.count ▸ h1) hmem hk.2)
      rw [hpc', if_neg hone]
    · rw [hother j hji] at hj ⊢
      exact hdone j hj
  case ended =>
    intro he
    have hone : s.numThreads = 1 := by
      by_contra h1
      have hmore := active_more (h.count ▸ h1) hmem
      rw [hact] at he
      exact hmore.ne_empty he
    refine ⟨i, hsize ▸ hi, fun j hj hji => ?_, ?_⟩
    · rw [hother j hji]
      refine hdone j ?_
      by_contra hg
      have hj' : j ∈ s.active := mem_active.mpr ⟨hsize ▸ hj, Bool.not_eq_true _ ▸ hg⟩
      exact hji (active_one (h.count ▸ hone) hmem hj')
    · rw [hpc', if_pos hone]
      exact ⟨by rw [hl, hlog], hc.trans hcomp⟩

/-- The last worker goes on. -/
theorem Winding.last (h : Winding s) (hi : i < s.size) (hsize : s'.size = s.size)
    (hother : ∀ j ≠ i, s'.worker j = s.worker j)
    (hpc : (s.worker i).pc.gone = true) (hne : (s.worker i).pc ≠ .done)
    (hgone' : (s'.worker i).pc.gone = true) (hn : s'.numThreads = s.numThreads)
    (hl : ∀ e ∈ s.log, e ∈ s'.log)
    (hfin : s.Finale i (s.worker i).pc → s'.Finale i (s'.worker i).pc) : Winding s' := by
  have hact : s'.active = s.active := by
    refine active_congr hsize (fun j => ?_)
    by_cases hj : j = i
    · subst hj
      rw [hpc, hgone']
    · rw [hother j hj]
  have hempty : s.active = ∅ := by
    by_contra hact
    exact hne ((h.counting (Finset.nonempty_iff_ne_empty.mpr hact)).2.2 i hpc)
  constructor
  case count => rw [hn, hact, h.count]
  case cleaned =>
    refine h.cleaned_step hl hother (fun r _ => Or.inl ?_)
    have hall : ∀ pc : Pc, pc.gone = true → pc.cleaned = 4 := by
      intro pc hg
      cases pc <;> first | rfl | cases hg
    rw [hall _ hpc]
    exact r.rank_lt
  case counting =>
    intro hact'
    rw [hact, hempty] at hact'
    exact absurd hact' Finset.not_nonempty_empty
  case ended =>
    intro _
    obtain ⟨k, hk, hdone, hfk⟩ := h.ended hempty
    obtain rfl : i = k := by
      by_contra hik
      exact hne (hdone i hi hik)
    refine ⟨i, hsize ▸ hk, fun j hj hji => ?_, hfin hfk⟩
    rw [hother j hji]
    exact hdone j (hsize ▸ hj) hji

/-- **Every step keeps it.** -/
theorem Winding.step (h : Winding s) (hlt : s.size < 2 ^ 32) (hs : step s x = some s') :
    Winding s' := by
  have hsize := step_size hs
  rcases step_winds hs with ⟨hw, hcalm⟩ | ⟨i, hi, hother, hwind⟩
  · exact h.calm hcalm (fun j => by rw [hw]) (fun j _ => by rw [hw]) (fun j => by rw [hw])
  · cases hwind with
    | stays hcalm hgone hgone' hcleaned =>
        refine h.calm hcalm (fun j => ?_) (fun j hj => ?_) (fun j => ?_)
        · by_cases hj : j = i
          · rw [hj, hgone, hgone']
          · rw [hother j hj]
        · have hji : j ≠ i := fun hji => by
            rw [hji, hgone] at hj
            cases hj
          rw [hother j hji]
        · by_cases hj : j = i
          · rw [hj, hcleaned]
          · rw [hother j hj]
    | clears r hpc hpc' hn hc hl =>
        have hgone : (s.worker i).pc.gone = false := by rw [hpc]; rfl
        have hgone' : (s'.worker i).pc.gone = false := by rw [hpc', r.next_gone]
        -- worker `i` clears a queue before it counts down, so it is still active
        have hact : s'.active = s.active := by
          refine active_congr hsize (fun j => ?_)
          by_cases hj : j = i
          · rw [hj, hgone, hgone']
          · rw [hother j hj]
        have hends : s'.log.filter Event.ends = s.log.filter Event.ends := by
          rw [hl]
          rfl
        have hmem : i ∈ s.active := mem_active.mpr ⟨hi, hgone⟩
        obtain ⟨hlog, hcomp, hdone⟩ := h.counting ⟨i, hmem⟩
        constructor
        case count => rw [hn, hact, h.count]
        case cleaned =>
          refine h.cleaned_step (fun e he => hl ▸ List.mem_cons_of_mem _ he) hother
            (fun r' hr' => ?_)
          rw [hpc', r.next_cleaned] at hr'
          rw [hpc]
          rcases Nat.lt_succ_iff_lt_or_eq.mp hr' with hr' | hr'
          · exact Or.inl hr'
          · rw [Resource.rank_inj hr', hl]
            exact Or.inr List.mem_cons_self
        case counting =>
          intro _
          refine ⟨hends.trans hlog, hc.trans hcomp, fun j hj => ?_⟩
          have hji : j ≠ i := fun hji => by
            rw [hji, hgone'] at hj
            cases hj
          rw [hother j hji] at hj ⊢
          exact hdone j hj
        case ended =>
          intro he
          rw [hact] at he
          rw [he] at hmem
          exact absurd hmem (Finset.notMem_empty i)
    | counts hpc hpc' hn hc hl => exact h.counts hlt hi hsize hother hpc hpc' hn hc hl
    | saves hpc hpc' hn hc hl =>
        refine h.last hi hsize hother (by rw [hpc]; rfl) (by rw [hpc]; simp) (by rw [hpc']; rfl)
          hn (fun e he => hl ▸ List.mem_cons_of_mem _ he) (fun hfin => ?_)
        rw [hpc] at hfin
        rw [hpc']
        refine ⟨?_, hc.trans hfin.2⟩
        rw [hl, List.filter_cons_of_pos rfl, hfin.1]
    | completes hpc hpc' hn hc hl =>
        refine h.last hi hsize hother (by rw [hpc]; rfl) (by rw [hpc]; simp) (by rw [hpc']; rfl)
          hn (fun e he => hl ▸ List.mem_cons_of_mem _ he) (fun hfin => ?_)
        rw [hpc] at hfin
        rw [hpc']
        refine ⟨?_, hc⟩
        rw [hl, List.filter_cons_of_pos rfl, hfin.1]

theorem run_winding (h : Transition.Run step (init n) tr s) (hn : 0 < n) (hlt : n < 2 ^ 32) :
    s.size = n ∧ Winding s := by
  refine h.invariant (I := fun s => s.size = n ∧ Winding s) (C := fun _ _ => True)
    ⟨rfl, winding_init hn⟩ ?_ (fun _ _ => trivial)
  rintro s x s' ⟨hsize, hw⟩ - hs
  exact ⟨(step_size hs).trans hsize, hw.step (hsize ▸ hlt) hs⟩

/-! ## After the loops -/

/-- A worker that left its loop starts no work and stores no trace. -/
theorem left_quiet (hs : workerStep s i = some s') (h : (s.worker i).pc.left = true) :
    s'.traces = s.traces ∧ ∀ w j v, .started w j v ∈ s'.log → .started w j v ∈ s.log := by
  have hcons : ∀ {e : Event}, (∀ w j v, e ≠ .started w j v) →
      ∀ w j v, .started w j v ∈ e :: s.log → .started w j v ∈ s.log := by
    intro e he w j v hmem
    exact (List.mem_cons.mp hmem).resolve_left fun heq => he w j v heq.symm
  cases workerStep_move hs with
  | drain | drainClear | saveTracelog | setComplete => exact ⟨rfl, hcons (by simp)⟩
  | drained | countdown => exact ⟨rfl, fun _ _ _ => id⟩
  | start hpc | arrive hpc | spin hpc | released hpc | stealInit hpc | stay hpc | leave hpc
  | noLocal hpc | popLocal hpc | popGlobal hpc | stealCount hpc | hasJob hpc | stealOn hpc
  | stealEnd hpc | stealNext hpc | stealPop hpc | noJob hpc | execute hpc | storeTrace hpc
  | readContinuation hpc | handOver hpc | complete hpc | completed hpc | collect hpc | idle hpc =>
      rw [hpc] at h
      cases h

/-- From `x` to `s` no work was started and no trace was stored, if all workers had left their
loops in `x`. -/
def Quiet (x s : State) : Prop :=
  s.size = x.size ∧ ((∀ i < x.size, (x.worker i).pc.left = true) →
    (∀ i < s.size, (s.worker i).pc.left = true) ∧ s.traces = x.traces ∧
      ∀ w j v, .started w j v ∈ s.log → .started w j v ∈ x.log)

theorem Quiet.step {y : State} (h : Quiet y s) (hs : step s x = some s') : Quiet y s' := by
  obtain ⟨hsize, hq⟩ := h
  refine ⟨(step_size hs).trans hsize, fun hleft => ?_⟩
  obtain ⟨hl, htr, hst⟩ := hq hleft
  have hl' : ∀ i < s'.size, (s'.worker i).pc.left = true := by
    intro i hi
    rw [step_size hs] at hi
    exact left_step hs (hl i hi)
  rcases step_cases hs with ⟨-, hf⟩ | ⟨i, job, -, hpc, -, hi, -⟩ | ⟨i, -, hi, hw⟩
  · refine ⟨hl', hf.traces.trans htr, fun w j v hmem => hst w j v ?_⟩
    obtain ⟨es, hes, hcall⟩ := hf.log
    rw [hes] at hmem
    refine (List.mem_append.mp hmem).resolve_left fun he => ?_
    cases hcall _ he
  · have hrun := hl i hi
    rw [hpc] at hrun
    cases hrun
  · obtain ⟨htr', hst'⟩ := left_quiet hw (hl i hi)
    exact ⟨hl', htr'.trans htr, fun w j v hmem => hst w j v (hst' w j v hmem)⟩

theorem run_quiet (h : Transition.Run step (init n) tr s) :
    ∀ x ∈ Transition.visited tr s, Quiet x s :=
  h.visited_rel (fun _ => ⟨rfl, fun hl => ⟨hl, rfl, fun _ _ _ => id⟩⟩) Quiet.step

/-- `m_ShutdownComplete` is not taken back. -/
theorem run_shutdownComplete (h : Transition.Run step (init n) tr s) :
    ∀ x ∈ Transition.visited tr s, x.shutdownComplete = true → s.shutdownComplete = true := by
  refine h.visited_rel (R := fun x s => x.shutdownComplete = true → s.shutdownComplete = true)
    (fun _ => id) (fun {x s a s'} hxs hs hx => ?_)
  rcases step_winds hs with ⟨-, hcalm⟩ | ⟨i, -, -, hwind⟩
  · exact hcalm.shutdownComplete.trans (hxs hx)
  · cases hwind with
    | stays hcalm => exact hcalm.shutdownComplete.trans (hxs hx)
    | clears r _ _ _ hc => exact hc.trans (hxs hx)
    | counts _ _ _ hc => exact hc.trans (hxs hx)
    | saves _ _ _ hc => exact hc.trans (hxs hx)
    | completes _ _ _ hc => exact hc

/-! ## What the workers deallocated -/

/-- Worker `i` deallocated the resource: it popped from it until it found it empty, and each job that
it popped was given back to the memory resource. -/
structure Deallocated (tr : List (State × Action)) (s : State) (i : Nat) (r : Resource) :
    Prop where
  empty : ∃ x st, (x, .work i) ∈ tr ∧ (x.worker i).pc = .drain r ∧
    x.store.pop (r.queue i) = (none, st)
  returned : ∀ x a st, (x, .work i) ∈ tr → (x.worker i).pc = .drain r →
    x.store.pop (r.queue i) = (some a, st) → .deallocated a ∈ s.log

/-- A worker goes on to clear a resource when it finds it empty. -/
theorem drainClear_from {r : Resource} (hs : workerStep s i = some s')
    (h : (s'.worker i).pc = .drainClear r) :
    (s.worker i).pc = .drain r ∧ ∃ st, s.store.pop (r.queue i) = (none, st) := by
  have hgo : ∀ {f : Nat → Worker} {w : Worker}, s'.worker = Function.update f i w →
      w.pc = .drainClear r := by
    intro f w hw
    rw [hw, Function.update_self] at h
    exact h
  cases workerStep_move hs with
  | @drained r' st hpc hpop =>
      obtain rfl : r' = r := Pc.drainClear.inj (hgo rfl)
      exact ⟨hpc, st, hpop⟩
  | spin hpc | drain hpc =>
      have hpc' : (s.worker i).pc = .drainClear r := h
      rw [hpc] at hpc'
      cases hpc'
  | @drainClear r' hpc =>
      have hnext : r'.next = .drainClear r := hgo rfl
      cases r' <;> cases hnext
  | countdown hpc =>
      have hnext : (if s.numThreads = 1 then Pc.saveTracelog else .done) = .drainClear r := hgo rfl
      split at hnext <;> cases hnext
  | start | arrive | released | stealInit | stay | leave | noLocal | popLocal | popGlobal
  | stealCount | hasJob | stealOn | stealEnd | stealNext | stealPop | noJob | execute | storeTrace
  | readContinuation | handOver | complete | completed | collect | idle | saveTracelog
  | setComplete => cases hgo rfl

theorem step_drainClear {r : Resource} (hs : step s x = some s')
    (h : (s'.worker i).pc = .drainClear r) : (s.worker i).pc = .drainClear r ∨
      x = .work i ∧ (s.worker i).pc = .drain r ∧ ∃ st, s.store.pop (r.queue i) = (none, st) := by
  rcases step_cases hs with ⟨-, hf⟩ | ⟨j, job, -, -, -, -, rfl⟩ | ⟨j, rfl, -, hw⟩
  · exact Or.inl (hf.worker ▸ h)
  · have hij : i ≠ j := by
      rintro rfl
      have hpc : (Function.update s.worker i
        { s.worker i with pc := .storeTrace job } i).pc = .drainClear r := h
      rw [Function.update_self] at hpc
      cases hpc
    have hpc : (Function.update s.worker j _ i).pc = .drainClear r := h
    rw [Function.update_of_ne hij] at hpc
    exact Or.inl hpc
  · by_cases hij : i = j
    · subst hij
      exact Or.inr ⟨rfl, drainClear_from hw h⟩
    · rw [(workerStep_frame hw).worker i hij] at h
      exact Or.inl h

/-- It records that it did so when it has cleared the resource. -/
theorem step_drained {r : Resource} (hs : step s x = some s') (h : .drained i r ∈ s'.log) :
    .drained i r ∈ s.log ∨ (s.worker i).pc = .drainClear r := by
  have hcalm : Calm s s' → .drained i r ∈ s.log := by
    intro hcalm
    obtain ⟨es, hes, hw⟩ := hcalm.log
    rw [hes] at h
    exact (List.mem_append.mp h).resolve_left fun he => by cases hw _ he
  rcases step_winds hs with ⟨-, hc⟩ | ⟨j, -, -, hwind⟩
  · exact Or.inl (hcalm hc)
  · cases hwind with
    | stays hc => exact Or.inl (hcalm hc)
    | clears r' hpc _ _ _ hl =>
        rw [hl] at h
        rcases List.mem_cons.mp h with he | h
        · obtain ⟨rfl, rfl⟩ := Event.drained.inj he
          exact Or.inr hpc
        · exact Or.inl h
    | counts _ _ _ _ hl => exact Or.inl (hl ▸ h)
    | saves _ _ _ _ hl | completes _ _ _ _ hl => exact Or.inl (by simpa [hl] using h)

/-- What a worker clears, or has cleared, it found empty. -/
theorem run_emptied {r : Resource} (h : Transition.Run step (init n) tr s)
    (hr : (s.worker i).pc = .drainClear r ∨ .drained i r ∈ s.log) :
    ∃ x st, (x, .work i) ∈ tr ∧ (x.worker i).pc = .drain r ∧
      x.store.pop (r.queue i) = (none, st) := by
  induction h with
  | nil => rcases hr with hr | hr <;> cases hr
  | @snoc tr s s' a hrun hs ih =>
      have hold : (s.worker i).pc = .drainClear r ∨ .drained i r ∈ s.log →
          ∃ x st, (x, .work i) ∈ (s, a) :: tr ∧ (x.worker i).pc = .drain r ∧
            x.store.pop (r.queue i) = (none, st) := by
        intro hr
        obtain ⟨x, st, hx, hpc⟩ := ih hr
        exact ⟨x, st, List.mem_cons_of_mem _ hx, hpc⟩
      rcases hr with hr | hr
      · rcases step_drainClear hs hr with hr | ⟨rfl, hpc, st, hpop⟩
        · exact hold (Or.inl hr)
        · exact ⟨s, st, List.mem_cons_self, hpc, hpop⟩
      · exact hold (step_drained hs hr).symm

/-- What a worker pops from its resource when it deallocates it is given back. -/
theorem run_returned {r : Resource} {a : Addr} {y : State} {st : Store QueueId Addr}
    (h : Transition.Run step (init n) tr s) (hy : (y, .work i) ∈ tr)
    (hpc : (y.worker i).pc = .drain r) (hpop : y.store.pop (r.queue i) = (some a, st)) :
    .deallocated a ∈ s.log := by
  induction h with
  | nil => cases hy
  | @snoc tr s s' x hrun hs ih =>
      rcases List.mem_cons.mp hy with heq | hy
      · obtain ⟨rfl, rfl⟩ := Prod.mk.inj heq
        obtain rfl := Option.some.inj ((WorkerMove.drain hpc hpop).step.symm.trans (step_work hs).2)
        exact List.mem_cons_self
      · exact step_log hs (ih hy)

/-- **What `drained` records.** -/
theorem run_deallocated {r : Resource} (h : Transition.Run step (init n) tr s)
    (hr : .drained i r ∈ s.log) : Deallocated tr s i r where
  empty := run_emptied h (Or.inr hr)
  returned _ _ _ := run_returned h

/-! ## The protocol -/

/-- All `n` workers are through: they left their loops, deallocated their queues and bins
(`run_deallocated`) and run no work, and one of them saved the trace log. -/
structure State.ShutDown (s : State) (n : Nat) : Prop where
  done : ∀ i < n, (s.worker i).pc = .done
  drained : ∀ i < n, ∀ r, .drained i r ∈ s.log
  idle : ∀ i < n, ∀ job, (s.worker i).pc ≠ .running job
  saved : ∃ i < n, s.log.filter Event.ends = [.shutdownCompleted, .saved i]

/-- The worker that saves the trace log is alone. -/
theorem Winding.alone (h : Winding s) (hi : i < s.size)
    (hpc : (s.worker i).pc = .saveTracelog) : ∀ j < s.size, j ≠ i → (s.worker j).pc = .done := by
  have hgone : (s.worker i).pc.gone = true := by rw [hpc]; rfl
  have hempty : s.active = ∅ := by
    by_contra hact
    have hdone := (h.counting (Finset.nonempty_iff_ne_empty.mpr hact)).2.2 i hgone
    rw [hpc] at hdone
    cases hdone
  obtain ⟨k, -, hdone, -⟩ := h.ended hempty
  obtain rfl : i = k := by
    by_contra hik
    have hd := hdone i hi hik
    rw [hpc] at hd
    cases hd
  exact hdone

/-- `m_ShutdownComplete` is set at the very end. -/
theorem Winding.shutDown (h : Winding s) (hc : s.shutdownComplete = true) : s.ShutDown s.size := by
  have hempty : s.active = ∅ := by
    by_contra hact
    have hfalse := (h.counting (Finset.nonempty_iff_ne_empty.mpr hact)).2.1
    rw [hc] at hfalse
    cases hfalse
  obtain ⟨k, hk, hothers, hfin⟩ := h.ended hempty
  have hkdone : (s.worker k).pc = .done := by
    cases hpc : (s.worker k).pc with
    | done => rfl
    | saveTracelog | setComplete =>
        rw [hpc] at hfin
        rw [hfin.2] at hc
        cases hc
    | _ =>
        rw [hpc] at hfin
        exact hfin.elim
  have hdone : ∀ i < s.size, (s.worker i).pc = .done := by
    intro i hi
    by_cases hik : i = k
    · rw [hik, hkdone]
    · exact hothers i hi hik
  refine ⟨hdone, fun i hi r => h.cleaned i r ?_, fun i hi job => ?_, k, hk, ?_⟩
  · rw [hdone i hi]
    exact r.rank_lt
  · rw [hdone i hi]
    simp
  · rw [hkdone] at hfin
    exact hfin.1

/-- What the last worker recorded is at most one `saved` and one `shutdownCompleted`. -/
theorem Winding.ends_sublist (h : Winding s) :
    ∃ i, (s.log.filter Event.ends).Sublist [.shutdownCompleted, .saved i] := by
  by_cases hact : s.active = ∅
  · obtain ⟨k, -, -, hfin⟩ := h.ended hact
    refine ⟨k, ?_⟩
    cases hpc : (s.worker k).pc with
    | done | saveTracelog | setComplete =>
        rw [hpc] at hfin
        simp [hfin.1]
    | _ =>
        rw [hpc] at hfin
        exact hfin.elim
  · refine ⟨0, ?_⟩
    rw [(h.counting (Finset.nonempty_iff_ne_empty.mpr hact)).1]
    exact List.nil_sublist _

/-- **The shutdown protocol.** Take a run of `n` workers, whatever the threads schedule and
whenever they call `shutdown`. `m_ShutdownComplete` is set once at most and not taken back. When
`wait_for_shutdown` returns, all workers are through, each of them found its queues and bins empty
and gave back the jobs it popped from them, and no work is started from then on. The
trace log is saved by one worker, while all others are done, and nobody appends to `m_Traces`
from then on. -/
theorem shutdown_protocol (hn : 0 < n) (hlt : n < 2 ^ 32)
    (h : Transition.Run step (init n) tr s) :
    (∃ i, (s.log.filter Event.ends).Sublist [.shutdownCompleted, .saved i]) ∧
      (s.waiting = false → s.ShutDown n ∧ ∀ i < n, ∀ r, Deallocated tr s i r) ∧
      (∀ x ∈ Transition.visited tr s, x.waiting = false → s.waiting = false ∧
        ∀ w i v, .started w i v ∈ s.log → .started w i v ∈ x.log) ∧
      ∀ x ∈ Transition.visited tr s, ∀ i < n, (x.worker i).pc = .saveTracelog →
        (∀ j < n, j ≠ i → (x.worker j).pc = .done) ∧ s.traces = x.traces := by
  obtain ⟨hsize, hw⟩ := run_winding h hn hlt
  have hcomp : ∀ {y : State}, y.waiting = false → y.shutdownComplete = true := by
    intro y hy
    simpa [State.waiting] using hy
  refine ⟨hw.ends_sublist, fun hwait => ?_, fun x hx hwait => ?_, fun x hx i hi hpc => ?_⟩
  · have hsd : s.ShutDown n := hsize ▸ hw.shutDown (hcomp hwait)
    exact ⟨hsd, fun i hi r => run_deallocated h (hsd.drained i hi r)⟩
  · obtain ⟨tr', hrun, -⟩ := h.of_visited hx
    have hsd := (run_winding hrun hn hlt).2.shutDown (hcomp hwait)
    have hq := (run_quiet h x hx).2 fun i hi => by rw [hsd.done i hi]; rfl
    refine ⟨?_, hq.2.2⟩
    simp [State.waiting, run_shutdownComplete h x hx (hcomp hwait)]
  · obtain ⟨tr', hrun, -⟩ := h.of_visited hx
    obtain ⟨hsize', hw'⟩ := run_winding hrun hn hlt
    have halone := hw'.alone (hsize' ▸ hi) hpc
    refine ⟨fun j hj => halone j (hsize' ▸ hj), ((run_quiet h x hx).2 fun j hj => ?_).2.1⟩
    by_cases hji : j = i
    · rw [hji, hpc]
      rfl
    · rw [halone j hj hji]
      rfl

/-- One worker runs a job, and then everything up to the return of `wait_for_shutdown`. -/
theorem shutdown_protocol_returned : ∃ tr s, Transition.Run step (init 1) tr s ∧
    .finished 1 ∈ s.log ∧ s.waiting = false ∧ s.ShutDown 1 := by
  have hexec : ((Transition.exec step (fun _ _ => True) (init 1)
      ([Action.schedule (.client 0) none none 7, .call (.client 0), .call (.client 0),
        .call (.client 0)] ++ List.replicate 10 (.work 0) ++
        [Action.shutdown (.worker 0), .finish 0] ++ List.replicate 21 (.work 0))).any fun s =>
      decide (.finished 1 ∈ s.log ∧ s.waiting = false)) = true := by decide
  obtain ⟨tr, s, hrun, -, -, hs⟩ := Transition.exists_run_of_exec hexec
  obtain ⟨hfin, hwait⟩ := of_decide_eq_true hs
  exact ⟨tr, s, hrun, hfin, hwait, ((shutdown_protocol (by decide) (by decide) hrun).2.1 hwait).1⟩

end Winding

end Bop.JobSystem
