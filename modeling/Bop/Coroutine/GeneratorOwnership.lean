import Bop.Coroutine.Generator

set_option autoImplicit false

/-! # Who owns the frame of a generator

A program creates generators, moves them, iterates over them and destroys them, as many as it
likes and in any order. The handle of a generator owns a frame, that of an iterator does not.
`frames_owned` says that every frame has one owner until that owner is destroyed or assigned
over, which destroys the frame, and that no generator does anything to it after that. An iterator
may outlive its frame: `operator++` resumes what it points to, so it says exactly which programs do
that to a frame that is gone.
-/

namespace Bop.Generator

open Coroutine (Handle Heap Owners held_of_handle held_of_none destroy_handle destroy_log
  destroy_of_frame resume_isSome resume_defined done_frame done_defined)
open Lifetime (Event Proper withoutUses mem_withoutUses alive_withoutUses count_withoutUses
  proper_append_toList)

/-- The generators of a program, and the handles of its iterators. -/
structure Program (B T : Type) extends Owners (Frame B T) where
  iter : Nat → Handle

inductive Operation (B : Type)
  /-- a coroutine is called: `get_return_object` of its promise makes the generator `g` -/
  | create (g : Nat) (b : B)
  /-- `Generator()` -/
  | default (g : Nat)
  /-- `Generator(Generator&& source)` -/
  | moveConstruct (g source : Nat)
  /-- `g = std::move(source)` -/
  | moveAssign (g source : Nat)
  /-- `it = g.begin()` -/
  | begin (g it : Nat)
  /-- `++it` -/
  | increment (it : Nat)
  /-- `~Generator()` -/
  | destruct (g : Nat)

section Program

variable {B T : Type} (next : B → Option (T × B))

def Program.init : Program B T := { Owners.init with iter := fun _ => none }

def Program.step (s : Program B T) : Operation B → Option (Program B T)
  | .create g b =>
      match s.handle g with
      | none => some { s with toOwners := s.toOwners.create g { body := b } }
      | some _ => none
  | .default g =>
      match s.handle g with
      | none => some { s with toOwners := s.toOwners.set g none }
      | some _ => none
  | .moveConstruct g source =>
      match s.handle g, s.handle source with
      | none, some c => some { s with toOwners := (s.toOwners.set g c).set source none }
      | _, _ => none
  | .moveAssign g source =>
      match s.handle g, s.handle source with
      | some old, some c =>
          if source ≠ g then
            some { s with toOwners := ((s.toOwners.destroy old).set g c).set source none }
          else some s
      | _, _ => none
  | .begin g it =>
      match s.handle g with
      | some c =>
          let (heap, handle) := Generator.begin next s.heap c
          some { s with
            heap := heap
            iter := Function.update s.iter it handle
            log := c.toList.map .used ++ s.log }
      | none => none
  | .increment it =>
      let (heap, handle) := Iter.increment next s.heap (s.iter it)
      some { s with
        heap := heap
        iter := Function.update s.iter it handle
        log := (s.iter it).toList.map .used ++ s.log }
  | .destruct g =>
      match s.handle g with
      | some c => some { s with toOwners := (s.toOwners.destroy c).remove g }
      | none => none

variable {next} {s s' : Program B T} {g n : Nat} {x : Operation B}

/-! ## One operation -/

/-- What an operation does where the program can do it. -/
inductive Effect (next : B → Option (T × B)) (s : Program B T) : Operation B → Program B T → Prop
  | create {g : Nat} {b : B} (hg : s.handle g = none) :
      Effect next s (.create g b) { s with toOwners := s.toOwners.create g { body := b } }
  | default {g : Nat} (hg : s.handle g = none) :
      Effect next s (.default g) { s with toOwners := s.toOwners.set g none }
  | moveConstruct {g source : Nat} {c : Handle} (hg : s.handle g = none)
      (hsource : s.handle source = some c) :
      Effect next s (.moveConstruct g source)
        { s with toOwners := (s.toOwners.set g c).set source none }
  | moveAssign {g source : Nat} {old c : Handle} (hg : s.handle g = some old)
      (hsource : s.handle source = some c) (hne : source ≠ g) :
      Effect next s (.moveAssign g source)
        { s with toOwners := ((s.toOwners.destroy old).set g c).set source none }
  -- `if (&source != this)` fails
  | moveSelf {g : Nat} : Effect next s (.moveAssign g g) s
  | begin {g it : Nat} {c : Handle} (hg : s.handle g = some c) :
      Effect next s (.begin g it) { s with
        heap := (Generator.begin next s.heap c).1
        iter := Function.update s.iter it (Generator.begin next s.heap c).2
        log := c.toList.map .used ++ s.log }
  -- the handle of an iterator owns nothing, so the frame that this uses may be gone
  | increment {it : Nat} :
      Effect next s (.increment it) { s with
        heap := (Iter.increment next s.heap (s.iter it)).1
        iter := Function.update s.iter it (Iter.increment next s.heap (s.iter it)).2
        log := (s.iter it).toList.map .used ++ s.log }
  | destruct {g : Nat} {c : Handle} (hg : s.handle g = some c) :
      Effect next s (.destruct g) { s with toOwners := (s.toOwners.destroy c).remove g }

theorem step_effect (hs : s.step next x = some s') : Effect next s x s' := by
  cases x with
  | create g b | default g | begin g it | destruct g =>
      simp only [Program.step] at hs
      split at hs
      case h_1 hg =>
        cases hs
        constructor
        exact hg
      case h_2 => cases hs
  | moveConstruct g source =>
      simp only [Program.step] at hs
      split at hs
      case h_1 c hg hsource =>
        cases hs
        exact .moveConstruct hg hsource
      case h_2 => cases hs
  | moveAssign g source =>
      simp only [Program.step] at hs
      split at hs
      case h_1 old c hg hsource =>
        by_cases hne : source ≠ g
        · rw [if_pos hne] at hs
          cases hs
          exact .moveAssign hg hsource hne
        · rw [if_neg hne] at hs
          cases hs
          rw [not_not.mp hne]
          exact .moveSelf
      case h_2 => cases hs
  | increment it =>
      simp only [Program.step] at hs
      cases hs
      exact .increment

/-- As if the generator let its frame go before it takes the other one. -/
theorem moveAssign_sound {o : Owners (Frame B T)} {g source : Nat} {old c : Handle} (h : o.Sound)
    (hg : o.handle g = some old) (hsource : o.handle source = some c) (hne : source ≠ g) :
    (((o.destroy old).set g c).set source none).Sound := by
  have hgone : ((o.destroy old).set g none).Sound := by
    have hdestroy := h.destroy hg (o := some none) rfl
    rwa [← destroy_handle (c := old)] at hdestroy
  have hnone : ((o.destroy old).set g none).held g = none :=
    held_of_handle (Function.update_self ..)
  have hsource' : ((o.destroy old).set g none).handle source = some c := by
    show Function.update (o.destroy old).handle g _ source = _
    rw [Function.update_of_ne hne, destroy_handle, hsource]
  have hset : ((o.destroy old).set g none).set g c = (o.destroy old).set g c := by
    simp only [Owners.set, Function.update_idem]
  have hmove := hgone.move hnone hsource' hne
  rwa [hset] at hmove

/-- The generators and the frames, without what was used: an iterator may use what is gone, which
leaves the account of the frames as it is. -/
def Program.owners (s : Program B T) : Owners (Frame B T) :=
  { s.toOwners with log := withoutUses s.log }

theorem Program.step_sound (h : s.owners.Sound) (hs : s.step next x = some s') :
    s'.owners.Sound := by
  -- the uses that are recorded do not count
  have huses : ∀ c : Handle, withoutUses (c.toList.map .used ++ s.log) = withoutUses s.log := by
    intro c
    cases c <;> rfl
  cases step_effect hs with
  | @create g b hg => exact Owners.Sound.create h hg { body := b }
  | default hg => exact Owners.Sound.put h (held_of_none hg) rfl
  | moveConstruct hg hsource =>
      refine Owners.Sound.move h (held_of_none hg) hsource ?_
      rintro rfl
      rw [hg] at hsource
      cases hsource
  | @moveAssign g source old c hg hsource hne =>
      have hsound := moveAssign_sound (o := s.owners) h hg hsource hne
      cases old <;> exact hsound
  | moveSelf => exact h
  | @begin g it c hg =>
      rw [Program.owners, huses]
      refine Owners.Sound.change h fun m => ?_
      unfold Generator.begin
      split
      · exact resume_isSome s.heap c m
      · rfl
  | @increment it =>
      rw [Program.owners, huses]
      refine Owners.Sound.change h fun m => ?_
      rw [Iter.increment, done_frame]
      exact resume_isSome s.heap (s.iter it) m
  | @destruct g c hg =>
      have hsound := h.destroy (c := c) hg (o := none) rfl
      cases c <;> exact hsound

/-! ## Who uses and destroys a frame -/

/-- The operation ends the ownership of the generator. -/
def Operation.Ends (x : Operation B) (g : Nat) : Prop :=
  x = .destruct g ∨ ∃ source ≠ g, x = .moveAssign g source

/-- An iterator that is advanced is at a frame that a generator owns, or at none. -/
def Operation.Within (s : Program B T) : Operation B → Prop
  | .increment it => ∀ n, s.iter it = some n → ∃ g, s.held g = some n
  | _ => True

/-- A coroutine that is resumed exists, and is not at its end. -/
def Operation.Resumable (s : Program B T) : Operation B → Prop
  | .begin g _ => ∀ n f, s.held g = some n → s.heap.frame n = some f → f.done = false
  | .increment it => ∃ n f, s.iter it = some n ∧ s.heap.frame n = some f ∧ f.done = false
  | _ => True

/-- What an operation does to a frame. -/
def Program.touch (s : Program B T) : Operation B → Option (Event Nat)
  | .create _ _ => some (.made s.nextFrame)
  | .default _ | .moveConstruct _ _ => none
  | .moveAssign g source => if source ≠ g then (s.held g).map .destroyed else none
  | .begin g _ => (s.held g).map .used
  | .increment it => (s.iter it).map .used
  | .destruct g => (s.held g).map .destroyed

theorem step_log (hs : s.step next x = some s') : s'.log = (s.touch x).toList ++ s.log := by
  have hmap : ∀ (c : Handle) (e : Nat → Event Nat), c.toList.map e = (c.map e).toList := by
    intro c e
    cases c <;> rfl
  cases step_effect hs with
  | create | default | moveConstruct => rfl
  | moveSelf => simp [Program.touch]
  | @moveAssign g source old c hg hsource hne =>
      rw [Program.touch, if_pos hne, held_of_handle hg, ← hmap]
      exact destroy_log s.toOwners old
  | @begin g it c hg =>
      rw [Program.touch, held_of_handle hg, ← hmap]
  | increment => rw [Program.touch, ← hmap]
  | @destruct g c hg =>
      rw [Program.touch, held_of_handle hg, ← hmap]
      exact destroy_log s.toOwners c

/-- A frame is destroyed by the end of its ownership, and by nothing else. -/
theorem touch_destroyed (hs : s.step next x = some s') :
    s.touch x = some (.destroyed n) ↔ ∃ g, s.held g = some n ∧ x.Ends g := by
  have hends : ∀ {c : Handle}, c.map Event.destroyed = some (.destroyed n) ↔ c = some n := by
    intro c
    simp
  cases step_effect hs with
  | create | default | moveConstruct => simp [Program.touch, Operation.Ends]
  | begin | increment => simp [Program.touch, Operation.Ends]
  | moveSelf => simp [Program.touch, Operation.Ends]
  | @moveAssign g source old c hg hsource hne =>
      rw [Program.touch, if_pos hne, hends]
      constructor
      · exact fun hn => ⟨g, hn, Or.inr ⟨source, hne, rfl⟩⟩
      · rintro ⟨g', hn, heq | ⟨source', -, heq⟩⟩
        · cases heq
        · cases heq
          exact hn
  | @destruct g c hg =>
      rw [Program.touch, hends]
      constructor
      · exact fun hn => ⟨g, hn, Or.inl rfl⟩
      · rintro ⟨g', hn, heq | ⟨source', -, heq⟩⟩
        · cases heq
          exact hn
        · cases heq

/-- **What an operation does to a frame is allowed**, unless it advances an iterator whose frame is
gone. -/
theorem touch_allowed (h : s.owners.Sound) (hs : s.step next x = some s') :
    (∀ e ∈ s.touch x, e.Allowed s.log) ↔ x.Within s := by
  have halive : ∀ m, Lifetime.Alive s.log m ↔ ∃ g, s.held g = some m := fun m =>
    alive_withoutUses.symm.trans ((h.frame m).symm.trans h.exists_iff)
  have hheld : ∀ {g}, (∀ e ∈ (s.held g).map Event.used, e.Allowed s.log) ∧
      ∀ e ∈ (s.held g).map Event.destroyed, e.Allowed s.log := by
    intro g
    constructor
    · intro e he
      obtain ⟨m, hm, rfl⟩ := Option.map_eq_some_iff.mp he
      exact (halive m).mpr ⟨g, hm⟩
    · intro e he
      obtain ⟨m, hm, rfl⟩ := Option.map_eq_some_iff.mp he
      exact (halive m).mpr ⟨g, hm⟩
  cases x with
  | create g b =>
      refine iff_of_true (fun e he => ?_) trivial
      obtain rfl := Option.some.inj he
      -- the number of the new frame was not used before
      intro hm
      exact Nat.lt_irrefl _ (h.fresh ((mem_withoutUses rfl).mpr hm))
  | default g | moveConstruct g source => exact iff_of_true (fun e he => by cases he) trivial
  | moveAssign g source =>
      refine iff_of_true (fun e he => ?_) trivial
      by_cases hne : source ≠ g
      · rw [Program.touch, if_pos hne] at he
        exact hheld.2 e he
      · rw [Program.touch, if_neg hne] at he
        cases he
  | begin g it => exact iff_of_true hheld.1 trivial
  | destruct g => exact iff_of_true hheld.2 trivial
  | increment it =>
      constructor
      · intro hall m hm
        have hmem : Event.used m ∈ s.touch (Operation.increment it : Operation B) := by
          rw [Program.touch, hm]
          rfl
        exact (halive m).mp (hall _ hmem)
      · intro hw e he
        obtain ⟨m, hm, rfl⟩ := Option.map_eq_some_iff.mp he
        exact (halive m).mpr (hw m hm)

theorem increment_defined (h : Heap (Frame B T)) (it : Handle) :
    (Iter.increment next h it).1.defined = true ↔
      h.defined = true ∧ ∃ n f, it = some n ∧ h.frame n = some f ∧ f.done = false := by
  rw [Iter.increment, done_defined, resume_defined, and_iff_left_iff_imp]
  -- what was resumed is there
  rintro ⟨-, n, f, rfl, hn, -⟩
  rw [Option.bind_some, resume_isSome, hn]
  rfl

/-- **What is undefined**: to resume a coroutine that is gone, or at its end. -/
theorem step_defined (h : s.owners.Sound) (hs : s.step next x = some s') :
    s'.heap.defined = true ↔ s.heap.defined = true ∧ x.Resumable s := by
  have hdestroy : ∀ {g c}, s.handle g = some c →
      (s.toOwners.destroy c).heap.defined = s.heap.defined := by
    intro g c hg
    cases c with
    | none => rfl
    | some m =>
        have hm : (s.heap.frame m).isSome = true := h.exists_iff.mpr ⟨g, held_of_handle hg⟩
        obtain ⟨f, hf⟩ := Option.isSome_iff_exists.mp hm
        show (s.heap.destroy (some m)).defined = _
        rw [destroy_of_frame hf]
  have hsame : ∀ {b}, b = s.heap.defined → (b = true ↔ s.heap.defined = true ∧ True) := by
    rintro b rfl
    rw [and_true]
  cases step_effect hs with
  | create | default | moveConstruct | moveSelf => exact hsame rfl
  | moveAssign hg => exact hsame (hdestroy hg)
  | destruct hg => exact hsame (hdestroy hg)
  | increment => exact increment_defined s.heap _
  | @begin g it c hg =>
      rw [Operation.Resumable, held_of_handle hg]
      cases c with
      | none => exact iff_of_eq (by simp [Generator.begin])
      | some m =>
          have hm : (s.heap.frame m).isSome = true := h.exists_iff.mpr ⟨g, held_of_handle hg⟩
          obtain ⟨f, hf⟩ := Option.isSome_iff_exists.mp hm
          show (s.heap.resume Frame.done (Frame.resume next) (some m)).defined = true ↔ _
          rw [resume_defined]
          refine and_congr_right fun _ => ⟨?_, fun hall => ⟨m, f, rfl, hf, hall m f rfl hf⟩⟩
          rintro ⟨m', f', hm', hf', hdone⟩ n f'' hn hf''
          obtain rfl : m' = n := (Option.some.inj hm').symm.trans (Option.some.inj hn)
          obtain rfl : f' = f'' := Option.some.inj (hf'.symm.trans hf'')
          exact hdone

/-! ## Runs -/

theorem Program.run_sound {tr : List (Program B T × Operation B)}
    (h : Transition.Run (Program.step next) Program.init tr s) : s.owners.Sound :=
  h.invariant (I := fun s => s.owners.Sound) (C := fun _ _ => True) Owners.sound_init
    (fun hI _ hs => step_sound hI hs) (fun _ _ => trivial)

/-- The log is proper as long as no iterator is advanced whose frame is gone. -/
theorem run_proper {tr : List (Program B T × Operation B)}
    (h : Transition.Run (Program.step next) Program.init tr s) :
    Proper s.log ↔ ∀ p ∈ tr, p.2.Within p.1 := by
  induction h with
  | nil => exact iff_of_true trivial (fun p hp => absurd hp List.not_mem_nil)
  | snoc hrun hs ih =>
      rw [step_log hs, proper_append_toList, touch_allowed (Program.run_sound hrun) hs, ih,
        List.forall_mem_cons]

/-- Nothing is undefined as long as no coroutine is resumed that is gone, or at its end. -/
theorem run_defined {tr : List (Program B T × Operation B)}
    (h : Transition.Run (Program.step next) Program.init tr s) :
    s.heap.defined = true ↔ ∀ p ∈ tr, p.2.Resumable p.1 := by
  induction h with
  | nil => exact iff_of_true rfl (fun p hp => absurd hp List.not_mem_nil)
  | snoc hrun hs ih =>
      rw [step_defined (Program.run_sound hrun) hs, ih, List.forall_mem_cons, and_comm]

/-- **Frames have one owner.** Take any program that creates, moves, assigns, iterates over and
destroys generators. A frame has at most one owner at any time, and the frames that exist are those
that have one. A frame is destroyed when its owner is destroyed or assigned over, and only then;
once no generator is left every frame was destroyed exactly once. An operation resumes and destroys
only what exists, unless it advances an iterator whose frame is gone: nothing is done to a frame
after it was destroyed iff no iterator is advanced then. Nothing at all is undefined iff moreover no
coroutine is resumed at its end. -/
theorem frames_owned {tr : List (Program B T × Operation B)}
    (h : Transition.Run (Program.step next) Program.init tr s) :
    (∀ g g' n, s.held g = some n → s.held g' = some n → g = g') ∧
      (∀ n, (s.heap.frame n).isSome = true ↔ ∃ g, s.held g = some n) ∧
      (∀ y ∈ Transition.visited tr s, ∀ x s', y.step next x = some s' →
        (∀ n, Event.destroyed n ∈ s'.log ↔
          .destroyed n ∈ y.log ∨ ∃ g, y.held g = some n ∧ x.Ends g) ∧
        ∃ es, s'.log = es ++ y.log ∧ ((∀ e ∈ es, e.Allowed y.log) ↔ x.Within y)) ∧
      ((∀ g, s.handle g = none) → (∀ n, s.heap.frame n = none) ∧
        ∀ n, .made n ∈ s.log → s.log.count (.destroyed n) = 1) ∧
      (Proper s.log ↔ ∀ p ∈ tr, p.2.Within p.1) ∧
      (s.heap.defined = true ↔ ∀ p ∈ tr, p.2.Resumable p.1) := by
  have hsound : s.owners.Sound := Program.run_sound h
  refine ⟨fun g g' n => hsound.owned.unique, fun n => hsound.exists_iff,
    fun y hy x s' hs => ⟨fun n => ?_, (y.touch x).toList, step_log hs, ?_⟩,
    fun hnone => ⟨fun n => ?_, fun n hn => ?_⟩, run_proper h, run_defined h⟩
  · rw [step_log hs, List.mem_append, Option.mem_toList, touch_destroyed hs, or_comm]
  · obtain ⟨tr', hrun, -⟩ := h.of_visited hy
    rw [← touch_allowed (Program.run_sound hrun) hs]
    simp only [Option.mem_toList, Option.mem_def]
  · refine Option.not_isSome_iff_eq_none.mp fun hn => ?_
    obtain ⟨g, hg⟩ := hsound.exists_iff.mp hn
    have hheld : s.owners.held g = none := held_of_none (hnone g)
    rw [hheld] at hg
    cases hg
  · have hcount := hsound.destroyed_once hnone ((mem_withoutUses rfl).mpr hn)
    exact (count_withoutUses rfl).symm.trans hcount

end Program

/-- An iterator is advanced after its generator was destroyed. -/
theorem not_frames_owned : ∃ (tr : List (Program (List Nat) Nat × Operation (List Nat)))
    (s : Program (List Nat) Nat), Transition.Run (Program.step uncons) Program.init tr s ∧
      (tr.map Prod.snd).reverse = [.create 0 [4, 5], .begin 0 0, .destruct 0, .increment 0] ∧
      s.log = [.used 0, .destroyed 0, .used 0, .made 0] ∧ ¬ Proper s.log ∧
      s.heap.defined = false := by
  have hexec : ((Transition.exec (Program.step uncons) (fun _ _ => True) Program.init
      [Operation.create 0 [4, 5], .begin 0 0, .destruct 0, .increment 0]).any
      fun s => decide (s.log = [.used 0, .destroyed 0, .used 0, .made 0] ∧
        s.heap.defined = false)) = true := by
    decide
  obtain ⟨tr, s, hrun, hacts, -, hs⟩ := Transition.exists_run_of_exec hexec
  obtain ⟨hlog, hdefined⟩ := of_decide_eq_true hs
  refine ⟨tr, s, hrun, hacts, hlog, fun hproper => ?_, hdefined⟩
  rw [hlog] at hproper
  exact hproper.1.2 List.mem_cons_self

/-- A generator is iterated over, assigned over, assigned to itself and moved, and iterated over
again. -/
theorem frames_owned_moved : ∃ (tr : List (Program (List Nat) Nat × Operation (List Nat)))
    (s : Program (List Nat) Nat), Transition.Run (Program.step uncons) Program.init tr s ∧
      s.log = [.destroyed 1, .used 1, .used 1, .destroyed 0, .made 1, .used 0, .used 0, .made 0] ∧
      Proper s.log ∧ ∀ n, (s.heap.frame n).isSome = true ↔ ∃ g, s.held g = some n := by
  have hexec : ((Transition.exec (Program.step uncons)
      (fun s x => (match x with
        | .increment it => decide (s.held it = s.iter it)
        | _ => true) = true) Program.init
      [Operation.create 0 [4, 5], .begin 0 0, .increment 0, .create 1 [6], .moveAssign 0 1,
        .moveAssign 0 0, .default 2, .moveConstruct 3 0, .begin 3 3, .increment 3, .destruct 0,
        .destruct 1, .destruct 2, .destruct 3]).any
      fun s => decide (s.log = [.destroyed 1, .used 1, .used 1, .destroyed 0, .made 1, .used 0,
        .used 0, .made 0])) = true := by
    decide
  obtain ⟨tr, s, hrun, -, hall, hs⟩ := Transition.exists_run_of_exec hexec
  obtain ⟨-, hexists, -, -, hproper, -⟩ := frames_owned hrun
  refine ⟨tr, s, hrun, of_decide_eq_true hs, hproper.mpr fun p hp => ?_, hexists⟩
  obtain ⟨y, x⟩ := p
  have hC := hall _ hp
  cases x with
  | increment it => exact fun n hn => ⟨it, (of_decide_eq_true hC).trans hn⟩
  | _ => trivial

end Bop.Generator
