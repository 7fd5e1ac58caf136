import Bop.Basic.Transition
import Bop.Coroutine.Handle

set_option autoImplicit false

/-! # CoJob

`CoJob<T>` and `CoJob<void>` (`job/co_job.h`, `job/co_job.inl`) own the frame of a coroutine with
the promise of `job/co_job_promise.inl`. The class declares a destructor, which destroys the frame,
and no copy or move operations. So there are implicit copy operations, which copy the handle, and
no move operations: a move is a copy.

`cojob_frames_iff` says exactly when the frames are accounted for: when no CoJob is copied or
moved, and none is assigned to another one.
-/

namespace Bop.CoJob

open Coroutine (Handle Heap Owners held_of_handle resume_isSome done_frame done_of_frame
  resume_of_frame destroy_handle destroy_frame forall_update)
open Lifetime (Event Alive Proper)

/-! ## Promises and frames -/

/-- What the body of a coroutine ends in: `co_return`, or an exception. -/
inductive Outcome (T E : Type)
  | returned (x : T)
  | threw (e : E)
  deriving DecidableEq

/-- `m_Payload` -/
inductive Payload (T E : Type)
  | empty
  | value (x : T)
  | exception (e : E)
  deriving DecidableEq

/-- What `get` ends in. -/
inductive Result (T E : Type)
  | returned (x : T)
  | threw (e : E)
  | emptyState -- std::runtime_error("Job promise is in empty state")
  deriving DecidableEq

/-- What a promise makes of the end of the body (`return_value`, `return_void` and
`unhandled_exception`), and `await_resume` of the payload. -/
structure PromiseType (T E : Type) where
  finish : Outcome T E → Payload T E
  read : Payload T E → Result T E

/-- `CoJobPromise<T>` and `CoJob<T>::await_resume` -/
def promise {T E : Type} : PromiseType T E where
  finish
    | .returned x => .value x
    | .threw e => .exception e
  read
    | .exception e => .threw e
    | .empty => .emptyState
    | .value x => .returned x

/-- `CoJobPromise<void>` and `CoJob<void>::await_resume`; the payload is an optional exception. -/
def promiseVoid {E : Type} : PromiseType Unit E where
  finish
    | .returned _ => .empty
    | .threw e => .exception e
  read
    | .exception e => .threw e
    | _ => .returned ()

/-- The frame of a coroutine. Its body cannot suspend (`await_transform` is deleted and there is
no `yield_value`), so it is at its initial suspension or at its final one. -/
structure Frame (T E : Type) where
  done : Bool := false
  outcome : Outcome T E
  payload : Payload T E := .empty
  deriving DecidableEq

section Job

variable {T E : Type} (P : PromiseType T E)

def Frame.resume (f : Frame T E) : Frame T E :=
  { f with done := true, payload := P.finish f.outcome }

/-- `while (m_Handle && !m_Handle.done()) m_Handle.resume();`, at most so many times. -/
def runToEnd : Nat → Heap (Frame T E) → Handle → Heap (Frame T E)
  | 0, h, _ => h
  | k + 1, h, c =>
      if c.isSome then
        let (done, h) := h.done Frame.done c
        if done then h else runToEnd k (h.resume Frame.done (Frame.resume P) c) c
      else h

/-- `get` and `await_resume`; `none` where the promise is read through a null handle or that of a
destroyed frame. -/
def get (h : Heap (Frame T E)) (c : Handle) : Option (Result T E) × Heap (Frame T E) :=
  let h := runToEnd P 1 h c
  match c.bind h.frame with
  | some f => (some (P.read f.payload), h)
  | none => (none, h.undefined)

variable {P} {h : Heap (Frame T E)} {c : Handle} {n : Nat} {f : Frame T E}

/-- The body runs to its end at once, so the loop resumes it once at most. -/
theorem runToEnd_of_frame (hn : h.frame n = some f) (k : Nat) :
    runToEnd P (k + 1) h (some n) = if f.done then h
      else { h with frame := Function.update h.frame n (some (f.resume P)) } := by
  rw [runToEnd, Option.isSome_some, if_pos rfl, done_of_frame hn]
  by_cases hf : f.done = true
  · simp only [hf, if_true]
  · simp only [hf, Bool.false_eq_true, if_false]
    rw [resume_of_frame hn (Bool.not_eq_true _ ▸ hf)]
    have hdone : Function.update h.frame n (some (f.resume P)) n = some (f.resume P) :=
      Function.update_self ..
    cases k with
    | zero => rfl
    | succ k =>
        rw [runToEnd, Option.isSome_some, if_pos rfl, done_of_frame hdone]
        rfl

theorem runToEnd_isSome (k : Nat) (h : Heap (Frame T E)) (c : Handle) (m : Nat) :
    ((runToEnd P k h c).frame m).isSome = (h.frame m).isSome := by
  induction k generalizing h with
  | zero => rfl
  | succ k ih =>
      rw [runToEnd]
      by_cases hc : c.isSome = true
      · rw [if_pos hc]
        dsimp only
        split
        · rw [done_frame]
        · rw [ih, resume_isSome, done_frame]
      · rw [if_neg hc]

theorem get_isSome (h : Heap (Frame T E)) (c : Handle) (m : Nat) :
    ((get P h c).2.frame m).isSome = (h.frame m).isSome := by
  unfold get
  dsimp only
  split
  · exact runToEnd_isSome 1 h c m
  · exact runToEnd_isSome 1 h c m

/-- What the body of a coroutine ends in is what `get` ends in. -/
def Outcome.result : Outcome T E → Result T E
  | .returned x => .returned x
  | .threw e => .threw e

theorem promise_read (o : Outcome T E) : promise.read (promise.finish o) = o.result := by
  cases o <;> rfl

theorem promiseVoid_read (o : Outcome Unit E) :
    promiseVoid.read (promiseVoid.finish o) = o.result := by
  cases o <;> rfl

/-- A frame has its payload when its coroutine is done. -/
def Frame.Filled (P : PromiseType T E) (f : Frame T E) : Prop :=
  f.done = true → f.payload = P.finish f.outcome

theorem get_eq (hn : h.frame n = some f) (hf : f.Filled P) :
    (get P h (some n)).1 = some (P.read (P.finish f.outcome)) := by
  rw [get, runToEnd_of_frame hn]
  by_cases hdone : f.done = true
  · simp [hdone, hn, hf hdone]
  · simp [hdone, Frame.resume]

theorem runToEnd_filled (hfilled : ∀ m f, h.frame m = some f → f.Filled P) :
    ∀ m f, (runToEnd P 1 h c).frame m = some f → f.Filled P := by
  cases c with
  | none => exact hfilled
  | some n =>
      cases hn : h.frame n with
      | none =>
          have hend : (runToEnd P 1 h (some n)).frame = h.frame := by
            simp [runToEnd, Heap.done, hn, Heap.undefined]
          rw [hend]
          exact hfilled
      | some g =>
          rw [runToEnd_of_frame hn]
          split
          case isTrue => exact hfilled
          case isFalse =>
            refine forall_update hfilled fun f hf => ?_
            obtain rfl := Option.some.inj hf
            exact fun _ => rfl

/-! ## Programs -/

inductive Operation (T E : Type)
  /-- a coroutine is called: `get_return_object` of its promise makes the CoJob `j` -/
  | create (j : Nat) (o : Outcome T E)
  /-- `CoJob(source)`, or `CoJob(std::move(source))` -/
  | copyConstruct (j source : Nat)
  /-- `j = source`, or `j = std::move(source)` -/
  | copyAssign (j source : Nat)
  | get (j : Nat)
  /-- `~CoJob()` -/
  | destruct (j : Nat)

variable (P) in
def step (s : Owners (Frame T E)) : Operation T E → Option (Owners (Frame T E))
  | .create j o =>
      match s.handle j with
      | none => some (s.create j { outcome := o })
      | some _ => none
  | .copyConstruct j source =>
      match s.handle j, s.handle source with
      | none, some c => some (s.set j c)
      | _, _ => none
  | .copyAssign j source =>
      match s.handle j, s.handle source with
      | some _, some c => some (s.set j c)
      | _, _ => none
  | .get j =>
      match s.handle j with
      | some c => some { s with heap := (CoJob.get P s.heap c).2, log := c.toList.map .used ++ s.log }
      | none => none
  | .destruct j =>
      match s.handle j with
      | some c => some ((s.destroy c).remove j)
      | none => none

/-- What an operation does where the program can do it. -/
inductive Effect (P : PromiseType T E) (s : Owners (Frame T E)) :
    Operation T E → Owners (Frame T E) → Prop
  | create {j : Nat} {o : Outcome T E} (hj : s.handle j = none) :
      Effect P s (.create j o) (s.create j { outcome := o })
  | copyConstruct {j source : Nat} {c : Handle} (hj : s.handle j = none)
      (hsource : s.handle source = some c) : Effect P s (.copyConstruct j source) (s.set j c)
  | copyAssign {j source : Nat} {old c : Handle} (hj : s.handle j = some old)
      (hsource : s.handle source = some c) : Effect P s (.copyAssign j source) (s.set j c)
  | get {j : Nat} {c : Handle} (hj : s.handle j = some c) :
      Effect P s (.get j)
        { s with heap := (CoJob.get P s.heap c).2, log := c.toList.map .used ++ s.log }
  | destruct {j : Nat} {c : Handle} (hj : s.handle j = some c) :
      Effect P s (.destruct j) ((s.destroy c).remove j)

theorem step_effect {s s' : Owners (Frame T E)} {x : Operation T E} (hs : step P s x = some s') :
    Effect P s x s' := by
  cases x with
  | create j o | get j | destruct j =>
      simp only [step] at hs
      split at hs
      case h_1 hj =>
        cases hs
        constructor
        exact hj
      case h_2 => cases hs
  | copyConstruct j source | copyAssign j source =>
      simp only [step] at hs
      split at hs
      case h_1 hj hsource =>
        cases hs
        constructor
        · exact hj
        · exact hsource
      case h_2 => cases hs

section Get

variable {s s' : Owners (Frame T E)} {x : Operation T E}

theorem step_filled (hfilled : ∀ m f, s.heap.frame m = some f → f.Filled P)
    (hs : step P s x = some s') : ∀ m f, s'.heap.frame m = some f → f.Filled P := by
  cases step_effect hs with
  | create =>
      -- a new frame is not done
      refine forall_update hfilled fun f hf => ?_
      obtain rfl := Option.some.inj hf
      intro hdone
      cases hdone
  | copyConstruct | copyAssign => exact hfilled
  | @get j c =>
      have hget : (get P s.heap c).2.frame = (runToEnd P 1 s.heap c).frame := by
        unfold get
        dsimp only
        split
        · rfl
        · rfl
      intro m f hm
      exact runToEnd_filled hfilled m f (hget ▸ hm)
  | @destruct j c =>
      cases c with
      | none => exact hfilled
      | some n =>
          show ∀ m f, (s.heap.destroy (some n)).frame m = some f → f.Filled P
          rcases destroy_frame s.heap (some n) with heq | ⟨k, heq⟩
          · rw [heq]
            exact hfilled
          · rw [heq]
            exact forall_update hfilled fun f hf => by cases hf

/-- **What `get` returns**: what the body ended in, however often it is called. -/
theorem run_get {tr : List (Owners (Frame T E) × Operation T E)}
    (h : Transition.Run (step P) Owners.init tr s) {n : Nat} {f : Frame T E}
    (hn : s.heap.frame n = some f) :
    (get P s.heap (some n)).1 = some (P.read (P.finish f.outcome)) := by
  refine get_eq hn (h.invariant (I := fun s => ∀ m f, s.heap.frame m = some f → f.Filled P)
    (C := fun _ _ => True) (fun m f hm => ?_) (fun hI _ hs => step_filled hI hs)
    (fun _ _ => trivial) n f hn)
  cases hm

end Get

/-- A frame exists as long as it has an owner, and was destroyed once when it has none. -/
structure Accounted (s : Owners (Frame T E)) : Prop where
  proper : Proper s.log
  owned : ∀ j n, s.held j = some n → .destroyed n ∉ s.log
  gone : ∀ n, .made n ∈ s.log → (∀ j, s.held j ≠ some n) → s.log.count (.destroyed n) = 1

/-- The frames stay accounted for, however the CoJobs are destroyed. -/
def Safe (P : PromiseType T E) (s : Owners (Frame T E)) : Prop :=
  ∀ tr s', Transition.Run (step P) s tr s' → (∀ p ∈ tr, ∃ j, p.2 = .destruct j) → Accounted s'

/-- No CoJob is copied or moved, and none is assigned to another one. -/
def Operation.Unshared : Operation T E → Prop
  | .copyConstruct _ _ => False
  | .copyAssign j source => j = source
  | .create _ _ | .get _ | .destruct _ => True

/-- The CoJobs own the frames that exist, and none of them is null. -/
structure Sound (s : Owners (Frame T E)) : Prop where
  owners : s.Sound
  handle : ∀ j c, s.handle j = some c → c.isSome = true

variable {s s' : Owners (Frame T E)} {j source : Nat} {x : Operation T E}

theorem sound_init : Sound (Owners.init : Owners (Frame T E)) where
  owners := Owners.sound_init
  handle j c h := by cases h

theorem Sound.accounted (h : Sound s) : Accounted s where
  proper := h.owners.owned.proper
  owned j n hj := (h.owners.owned.alive hj).2
  gone n hn hnone := by
    refine h.owners.owned.proper.destroyed_once hn fun halive => ?_
    obtain ⟨j, hj⟩ := h.owners.owned.owner halive
    exact hnone j hj

theorem Sound.destruct (h : Sound s) (hj : s.handle j = some c) :
    Sound ((s.destroy c).remove j) where
  owners := by
    have hdestroy := h.owners.destroy hj (o := none) rfl
    rwa [← destroy_handle (c := c)] at hdestroy
  handle := by
    rw [Owners.remove, destroy_handle]
    exact forall_update h.handle fun c hc => by cases hc

theorem Sound.step (h : Sound s) (hx : x.Unshared) (hs : CoJob.step P s x = some s') :
    Sound s' := by
  cases step_effect hs with
  | create hj =>
      refine ⟨h.owners.create hj _, forall_update h.handle fun c hc => ?_⟩
      rw [← Option.some.inj hc]
      rfl
  | copyConstruct => cases hx
  | @copyAssign j source old c hj hsource =>
      -- what is left is the assignment of a CoJob to itself, which changes nothing
      obtain rfl : j = source := hx
      have hself : s.set j c = s := by rw [Owners.set, ← hsource, Function.update_eq_self]
      rw [hself]
      exact h
  | @get j c hj =>
      obtain ⟨n, rfl⟩ := Option.isSome_iff_exists.mp (h.handle j c hj)
      exact ⟨h.owners.use (held_of_handle hj) (get_isSome s.heap (some n)), h.handle⟩
  | destruct hj => exact h.destruct hj

theorem Sound.safe (h : Sound s) : Safe P s := by
  intro tr s' hrun hdestruct
  refine (hrun.invariant (C := fun _ x => Operation.Unshared x) h
    (fun hI hC hs => hI.step hC hs) fun p hp => ?_).accounted
  obtain ⟨j, hj⟩ := hdestruct p hp
  rw [hj]
  trivial

/-- Two CoJobs with the same frame: one of them is destroyed, and the other one has a handle to
what is gone. -/
theorem not_safe_of_shared {i n : Nat} (hij : i ≠ j) (hi : s.handle i = some (some n))
    (hj : s.handle j = some (some n)) : ¬ Safe P s := by
  intro hsafe
  have hstep : CoJob.step P s (.destruct i) = some ((s.destroy (some n)).remove i) := by
    simp only [CoJob.step, hi]
  have hheld : ((s.destroy (some n)).remove i).held j = some n := by
    refine held_of_handle ?_
    show Function.update s.handle i none j = _
    rw [Function.update_of_ne hij.symm, hj]
  have hacc := hsafe _ _ (.snoc .nil hstep) fun p hp => by
    rw [List.mem_singleton.mp hp]
    exact ⟨i, rfl⟩
  exact hacc.owned j n hheld List.mem_cons_self

/-- Every other copy or assignment shares a frame. -/
theorem Sound.not_safe (h : Sound s) (hx : ¬ x.Unshared) (hs : CoJob.step P s x = some s') :
    ¬ Safe P s' := by
  have hshared : ∀ {j source c}, source ≠ j → s.handle source = some c → ¬ Safe P (s.set j c) := by
    intro j source c hne hsource
    obtain ⟨n, rfl⟩ := Option.isSome_iff_exists.mp (h.handle source c hsource)
    refine not_safe_of_shared hne ?_ (Function.update_self ..)
    show Function.update s.handle j _ source = _
    rw [Function.update_of_ne hne, hsource]
  cases step_effect hs with
  | create | get | destruct => exact absurd trivial hx
  | copyConstruct hj hsource =>
      refine hshared ?_ hsource
      rintro rfl
      rw [hj] at hsource
      cases hsource
  | copyAssign _ hsource => exact hshared (fun hsj => hx hsj.symm) hsource

/-- **When the frames are accounted for.** Take any program that creates, copies, moves, assigns,
runs and destroys CoJobs, of any type. In all its states every frame is destroyed exactly once,
when its last owner goes away, and not used after that, iff no CoJob is copied or moved and none
is assigned to another one. -/
theorem cojob_frames_iff {tr : List (Owners (Frame T E) × Operation T E)}
    (h : Transition.Run (CoJob.step P) Owners.init tr s) :
    (∀ y ∈ Transition.visited tr s, Safe P y) ↔ ∀ p ∈ tr, p.2.Unshared :=
  h.visited_iff (D := fun _ _ => True) (C := fun _ x => Operation.Unshared x) (I := Sound)
    (fun _ _ => trivial) sound_init (fun hI _ hC hs => hI.step hC hs) Sound.safe
    (fun hI _ hC hs => hI.not_safe hC hs)

end Job

/-- A CoJob that is run twice, assigned to itself and destroyed. -/
theorem cojob_frames_iff_run : ∃ tr s, Transition.Run (CoJob.step promise) Owners.init tr s ∧
    s.log = [.destroyed 0, .used 0, .used 0, .made 0] ∧ Safe (promise (T := Nat) (E := Nat)) s := by
  have hexec : ((Transition.exec (CoJob.step (promise (T := Nat) (E := Nat))) (fun _ _ => True)
      Owners.init [Operation.create 7 (.returned 5), .get 7, .copyAssign 7 7, .get 7,
        .destruct 7]).any
      fun s => decide (s.log = [.destroyed 0, .used 0, .used 0, .made 0])) = true := by decide
  obtain ⟨tr, s, hrun, hacts, -, hs⟩ := Transition.exists_run_of_exec hexec
  refine ⟨tr, s, hrun, of_decide_eq_true hs, (cojob_frames_iff hrun).mpr (fun p hp => ?_) s
    (Transition.mem_visited_self tr s)⟩
  have hmem : p.2 ∈ (tr.map Prod.snd).reverse := List.mem_reverse.mpr (List.mem_map_of_mem hp)
  rw [hacts] at hmem
  simp only [List.mem_cons, List.not_mem_nil, or_false] at hmem
  rcases hmem with h | h | h | h | h <;> rw [h] <;> trivial

/-- A CoJob is copied, and both are destroyed. -/
theorem not_cojob_frames : ∃ tr s, Transition.Run (CoJob.step promiseVoid) Owners.init tr s ∧
    ¬ Safe (promiseVoid (E := Nat)) s ∧
    (tr.map Prod.snd).reverse = [Operation.create 7 (.returned ()), .copyConstruct 8 7] := by
  have hexec : ((Transition.exec (CoJob.step (promiseVoid (E := Nat))) (fun _ _ => True)
      Owners.init [Operation.create 7 (.returned ()), .copyConstruct 8 7]).any
      fun s => decide (s.handle 7 = some (some 0) ∧ s.handle 8 = some (some 0))) = true := by decide
  obtain ⟨tr, s, hrun, hacts, -, hs⟩ := Transition.exists_run_of_exec hexec
  obtain ⟨h7, h8⟩ := of_decide_eq_true hs
  exact ⟨tr, s, hrun, not_safe_of_shared (by decide) h7 h8, hacts⟩

end Bop.CoJob
