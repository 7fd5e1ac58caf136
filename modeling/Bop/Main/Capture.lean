import Bop.Basic.Slots
import Bop.Basic.Transition
import Mathlib.Algebra.Group.Nat.Defs

set_option autoImplicit false

/-! # CaptureSlots and CaptureLambda

The classes of `main.cpp` that collect the arguments of a function and then call it. Both have a
slot for each argument and count down the slots that are empty; they differ in `set_arg`. Here
`set_arg<i>(v)` gets a value `v` of the type of the parameter: what it makes of `nullopt` or of an
optional of another type, which may leave the slot empty, is not modelled.

`CaptureSlots` counts after it stored the argument, without a look at the slot:
`captureSlots_correct_iff` says that it is correct as long as no index is set again.
`CaptureLambda` looks at the slot, and counts before it stores the argument:
`captureLambda_correct_iff` says that it is correct as long as no argument of an empty slot throws.
-/

namespace Bop.Main

open Slots (latest Answered)

/-- `size_t` -/
abbrev Size := Fin (2 ^ 64)

theorem val_sub_one (k : Size) : (k - 1).val = (2 ^ 64 - 1 + k.val) % 2 ^ 64 := rfl

theorem val_sub_one_of_pos {k : Size} (h : 0 < k.val) : (k - 1).val = k.val - 1 := by
  have hlt := k.isLt
  rw [val_sub_one]
  omega

theorem val_sub_one_ne (k : Size) : (k - 1).val ≠ k.val := by
  have hlt := k.isLt
  rw [val_sub_one]
  omega

variable {n : Size} {Args : Fin n → Type} {World T : Type}

/-- `apply_unwrap`; undefined where the tuple has an empty optional. -/
def applyUnwrap (fn : ((i : Fin n) → Args i) → T) (tup : Slots Args) : Option T :=
  tup.values.map fn

/-- The members of both classes. -/
structure Capture (Args : Fin n → Type) (T : Type) where
  args : Slots Args -- m_Args, or m_Arguments
  remainingArgs : Size -- m_RemainingArgs
  result : Option T -- m_Result
  /-- no empty optional was dereferenced -/
  defined : Bool
  /-- what was stored and what the calls did, newest first -/
  log : List (Slots.Event Args)

namespace Capture

def init : Capture Args T where
  args := Slots.empty
  remainingArgs := n
  result := none
  defined := true
  log := []

/-- `std::get<Idx>(m_Args) = value` -/
def store (i : Fin n) (v : Args i) (s : Capture Args T) : Capture Args T :=
  { s with args := s.args.set i v, log := .stored i v :: s.log }

/-- `--m_RemainingArgs` -/
def countDown (s : Capture Args T) : Capture Args T :=
  { s with remainingArgs := s.remainingArgs - 1 }

/-- `call`, in the world `w` around the program; there is no `m_Result` if the function returns
`void`. -/
def call (callback : World → ((i : Fin n) → Args i) → T) (isVoid : Bool) (w : World)
    (s : Capture Args T) : Capture Args T :=
  if s.remainingArgs = 0 then
    match applyUnwrap (callback w) s.args with
    | some x =>
        { s with
          result := if isVoid then s.result else some x
          log := .called true s.args.values :: s.log }
    | none => { s with defined := false, log := .called true none :: s.log }
  else { s with log := .called false none :: s.log }

/-- What an object should be: its slots have the values that were stored last, it counts the slots
that are empty, its calls did what they should, and none of them dereferenced an empty optional. -/
structure Correct (s : Capture Args T) : Prop where
  args : s.args = latest s.log
  remaining : s.remainingArgs.val = s.args.missing
  answered : Answered s.log
  defined : s.defined = true

variable {callback : World → ((i : Fin n) → Args i) → T} {isVoid : Bool}
  {s : Capture Args T} {i : Fin n} {v : Args i}

theorem correct_init : (init : Capture Args T).Correct where
  args := rfl
  remaining := by
    show n.val = Slots.missing Slots.empty
    rw [Slots.missing_empty, Fintype.card_fin]
  answered := trivial
  defined := rfl

theorem Correct.set_args (h : s.Correct) (i : Fin n) (v : Args i) :
    s.args.set i v = latest (.stored i v :: s.log) := by
  show _ = (latest s.log).set i v
  rw [h.args]

/-- An empty slot is filled, and the counter counts it. -/
theorem Correct.store_countDown (h : s.Correct) (hi : s.args i = none) :
    (s.countDown.store i v).Correct where
  args := h.set_args i v
  remaining := by
    have hset := Slots.missing_set_of_none (v := v) hi
    show (s.remainingArgs - 1).val = (s.args.set i v).missing
    rw [val_sub_one_of_pos (by rw [h.remaining]; omega), h.remaining]
    omega
  answered := h.answered
  defined := h.defined

/-- A slot that has a value gets another one. -/
theorem Correct.store (h : s.Correct) (hi : (s.args i).isSome) : (s.store i v).Correct where
  args := h.set_args i v
  remaining := by
    show s.remainingArgs.val = (s.args.set i v).missing
    rw [Slots.missing_set_of_isSome hi, h.remaining]
  answered := h.answered
  defined := h.defined

theorem Correct.call (h : s.Correct) (w : World) : (s.call callback isVoid w).Correct := by
  unfold Capture.call
  split
  case isTrue hzero =>
    have hsome : s.args.values.isSome := by
      rw [← Slots.missing_eq_zero, ← h.remaining, hzero]
      rfl
    obtain ⟨x, hx⟩ := Option.isSome_iff_exists.mp hsome
    have hvalues : (latest s.log).values = some x := by rw [← h.args, hx]
    rw [applyUnwrap, hx]
    exact ⟨h.args, h.remaining, ⟨⟨by rw [hvalues]; rfl, hvalues.symm⟩, h.answered⟩, h.defined⟩
  case isFalse hne =>
    have hnone : (latest s.log).values = none := by
      rw [← Option.not_isSome_iff_eq_none, ← Slots.missing_eq_zero, ← h.args, ← h.remaining]
      exact fun hzero => hne (Fin.ext hzero)
    exact ⟨h.args, h.remaining, ⟨⟨by rw [hnone]; rfl, hnone.symm⟩, h.answered⟩, h.defined⟩

end Capture

open Capture (init)

/-! ## CaptureSlots -/

namespace CaptureSlots

inductive Action (Args : Fin n → Type) (World : Type)
  | setArg (i : Fin n) (v : Args i)
  | call (w : World)

def setArg (i : Fin n) (v : Args i) (s : Capture Args T) : Capture Args T :=
  (s.store i v).countDown

def step (callback : World → ((i : Fin n) → Args i) → T) (isVoid : Bool) (s : Capture Args T) :
    Action Args World → Option (Capture Args T)
  | .setArg i v => some (setArg i v s)
  | .call w => some (s.call callback isVoid w)

/-- The index has no value yet. -/
def Fresh (s : Capture Args T) : Action Args World → Prop
  | .setArg i _ => s.args i = none
  | .call _ => True

instance (s : Capture Args T) : (a : Action Args World) → Decidable (Fresh s a)
  | .setArg i _ => inferInstanceAs (Decidable (s.args i = none))
  | .call _ => inferInstanceAs (Decidable True)

variable {callback : World → ((i : Fin n) → Args i) → T} {isVoid : Bool}
  {s s' : Capture Args T} {i : Fin n} {v : Args i} {a : Action Args World}

theorem correct_step (h : s.Correct) (ha : Fresh s a)
    (hs : step callback isVoid s a = some s') : s'.Correct := by
  cases a with
  | setArg i v =>
      obtain rfl := Option.some.inj hs
      exact h.store_countDown ha
  | call w =>
      obtain rfl := Option.some.inj hs
      exact h.call w

/-- An index that is set again is counted again. -/
theorem not_correct_setArg (h : s.Correct) (hi : s.args i ≠ none) :
    ¬ (setArg i v s).Correct := by
  intro hc
  have hrem : (s.remainingArgs - 1).val = (s.args.set i v).missing := hc.remaining
  rw [Slots.missing_set_of_isSome (Option.isSome_iff_ne_none.mpr hi), ← h.remaining] at hrem
  exact val_sub_one_ne s.remainingArgs hrem

/-- **`CaptureSlots` is correct** after each operation iff no index is set that has a value. -/
theorem captureSlots_correct_iff {tr : List (Capture Args T × Action Args World)}
    (h : Transition.Run (step callback isVoid) init tr s) :
    (∀ x ∈ Transition.visited tr s, x.Correct) ↔ ∀ p ∈ tr, Fresh p.1 p.2 := by
  refine h.visited_iff (D := fun _ _ => True) (I := Capture.Correct) (fun _ _ => trivial)
    Capture.correct_init (fun hI _ ha hs => correct_step hI ha hs) (fun hI => hI) ?_
  intro s a s' hI _ ha hs
  cases a with
  | setArg i v =>
      obtain rfl := Option.some.inj hs
      exact not_correct_setArg hI ha
  | call w => exact absurd trivial ha

end CaptureSlots

/-- `int testing_a(int a, int b)`, for mathematical integers -/
def testingA (_ : Unit) (args : (i : Fin (2 : Size)) → Int) : Int :=
  args ⟨0, by decide⟩ * args ⟨1, by decide⟩

namespace CaptureSlots

/-- Both arguments, and a call. -/
theorem captureSlots_correct_iff_testingA : ∃ tr s,
    Transition.Run (step testingA false) init tr s ∧ s.result = some 30 ∧ s.Correct := by
  have hexec : ((Transition.exec (step testingA false) Fresh init
      [.setArg ⟨0, by decide⟩ 5, .setArg ⟨1, by decide⟩ 6, .call ()]).any
      fun s => decide (s.result = some 30)) = true := by decide
  obtain ⟨tr, s, hrun, -, hfresh, hs⟩ := Transition.exists_run_of_exec hexec
  exact ⟨tr, s, hrun, of_decide_eq_true hs,
    (captureSlots_correct_iff hrun).mpr hfresh s (Transition.mem_visited_self tr s)⟩

/-- The first argument twice, and a call: the second argument is dereferenced. -/
theorem not_captureSlots_correct : ∃ tr s,
    Transition.Run (step testingA false) init tr s ∧ s.args ⟨1, by decide⟩ = none ∧
      s.remainingArgs = 0 ∧ ¬ s.Correct := by
  have hexec : ((Transition.exec (step testingA false) (fun _ _ => True) init
      [.setArg ⟨0, by decide⟩ 5, .setArg ⟨0, by decide⟩ 6, .call ()]).any
      fun s => decide (s.args ⟨1, by decide⟩ = none ∧ s.remainingArgs = 0 ∧
        s.defined = false)) = true := by decide
  obtain ⟨tr, s, hrun, -, -, hs⟩ := Transition.exists_run_of_exec hexec
  obtain ⟨hempty, hzero, hundefined⟩ := of_decide_eq_true hs
  refine ⟨tr, s, hrun, hempty, hzero, fun hc => ?_⟩
  rw [hc.defined] at hundefined
  cases hundefined

end CaptureSlots

/-! ## CaptureLambda -/

namespace CaptureLambda

inductive Action (Args : Fin n → Type) (World : Type)
  | setArg (i : Fin n) (v : Args i)
  /-- The assignment throws. An empty slot stays empty; a value becomes `left`. -/
  | setArgThrows (i : Fin n) (left : Args i)
  | call (w : World)

def hasArg (i : Fin n) (s : Capture Args T) : Bool := (s.args i).isSome

/-- `if (!std::get<Idx>(m_Arguments).has_value()) --m_RemainingArgs;` -/
def count (i : Fin n) (s : Capture Args T) : Capture Args T :=
  if hasArg i s then s else s.countDown

def setArg (i : Fin n) (v : Args i) (s : Capture Args T) : Capture Args T := (count i s).store i v

def setArgThrows (i : Fin n) (left : Args i) (s : Capture Args T) : Capture Args T :=
  if hasArg i s then (count i s).store i left else count i s

def step (callback : World → ((i : Fin n) → Args i) → T) (isVoid : Bool) (s : Capture Args T) :
    Action Args World → Option (Capture Args T)
  | .setArg i v => some (setArg i v s)
  | .setArgThrows i left => some (setArgThrows i left s)
  | .call w => some (s.call callback isVoid w)

/-- A `set_arg` that throws leaves the object as it was if the slot is empty. -/
def Unchanged (s : Capture Args T) : Action Args World → Prop
  | .setArgThrows i left => s.args i = none → setArgThrows i left s = s
  | _ => True

/-- A `set_arg` that throws finds a value in the slot. -/
def Safe (s : Capture Args T) : Action Args World → Prop
  | .setArgThrows i _ => (s.args i).isSome
  | _ => True

instance (s : Capture Args T) : (a : Action Args World) → Decidable (Safe s a)
  | .setArgThrows i _ => inferInstanceAs (Decidable ((s.args i).isSome = true))
  | .setArg _ _ | .call _ => inferInstanceAs (Decidable True)

variable {callback : World → ((i : Fin n) → Args i) → T} {isVoid : Bool}
  {s s' : Capture Args T} {i : Fin n} {v : Args i} {a : Action Args World}

theorem correct_setArg (h : s.Correct) (i : Fin n) (v : Args i) : (setArg i v s).Correct := by
  unfold setArg count
  split
  case isTrue hi => exact h.store hi
  case isFalse hi => exact h.store_countDown (Option.not_isSome_iff_eq_none.mp hi)

theorem correct_setArgThrows (h : s.Correct) (hi : (s.args i).isSome) :
    (setArgThrows i v s).Correct := by
  rw [setArgThrows, count, hasArg, if_pos hi, if_pos hi]
  exact h.store hi

theorem correct_step (h : s.Correct) (ha : Safe s a)
    (hs : step callback isVoid s a = some s') : s'.Correct := by
  cases a with
  | setArg i v =>
      obtain rfl := Option.some.inj hs
      exact correct_setArg h i v
  | setArgThrows i left =>
      obtain rfl := Option.some.inj hs
      exact correct_setArgThrows h ha
  | call w =>
      obtain rfl := Option.some.inj hs
      exact h.call w

/-- The argument is counted, and the slot stays empty. -/
theorem not_correct_setArgThrows (h : s.Correct) (hi : ¬ (s.args i).isSome) :
    ¬ (setArgThrows i v s).Correct := by
  intro hc
  rw [setArgThrows, count, hasArg, if_neg hi, if_neg hi] at hc
  have hrem : (s.remainingArgs - 1).val = s.args.missing := hc.remaining
  rw [← h.remaining] at hrem
  exact val_sub_one_ne s.remainingArgs hrem

/-- **`CaptureLambda` is correct** after each operation, and its `set_arg` can be repeated after an
exception, iff no `set_arg` throws while the slot is empty. -/
theorem captureLambda_correct_iff {tr : List (Capture Args T × Action Args World)}
    (h : Transition.Run (step callback isVoid) init tr s) :
    ((∀ x ∈ Transition.visited tr s, x.Correct) ∧ ∀ p ∈ tr, Unchanged p.1 p.2) ↔
      ∀ p ∈ tr, Safe p.1 p.2 := by
  have hiff : (∀ x ∈ Transition.visited tr s, x.Correct) ↔ ∀ p ∈ tr, Safe p.1 p.2 := by
    refine h.visited_iff (D := fun _ _ => True) (I := Capture.Correct) (fun _ _ => trivial)
      Capture.correct_init (fun hI _ ha hs => correct_step hI ha hs) (fun hI => hI) ?_
    intro s a s' hI _ ha hs
    cases a with
    | setArgThrows i left =>
        obtain rfl := Option.some.inj hs
        exact not_correct_setArgThrows hI ha
    | setArg i v | call w => exact absurd trivial ha
  refine ⟨fun hc => hiff.mp hc.1, fun hsafe => ⟨hiff.mpr hsafe, ?_⟩⟩
  rintro ⟨s, a⟩ hp
  cases a with
  | setArgThrows i left =>
      intro hnone
      have hi : (s.args i).isSome := hsafe _ hp
      rw [hnone] at hi
      cases hi
  | setArg i v | call w => trivial

/-- `slots_f` of `main`, with an assignment that throws where there is a value. -/
theorem captureLambda_correct_iff_testingA : ∃ tr s,
    Transition.Run (step testingA false) init tr s ∧ s.result = some 99 ∧ s.Correct := by
  have hexec : ((Transition.exec (step testingA false) Safe init
      [.setArg ⟨0, by decide⟩ 5, .call (), .setArg ⟨0, by decide⟩ 8,
        .setArgThrows ⟨0, by decide⟩ 9, .call (), .setArg ⟨1, by decide⟩ 11, .call ()]).any
      fun s => decide (s.result = some 99)) = true := by decide
  obtain ⟨tr, s, hrun, -, hsafe, hs⟩ := Transition.exists_run_of_exec hexec
  exact ⟨tr, s, hrun, of_decide_eq_true hs,
    ((captureLambda_correct_iff hrun).mpr hsafe).1 s (Transition.mem_visited_self tr s)⟩

/-- The second argument throws; the call dereferences it. -/
theorem not_captureLambda_correct : ∃ tr s,
    Transition.Run (step testingA false) init tr s ∧ s.args ⟨1, by decide⟩ = none ∧
      s.remainingArgs = 0 ∧ ¬ s.Correct := by
  have hexec : ((Transition.exec (step testingA false) (fun _ _ => True) init
      [.setArg ⟨0, by decide⟩ 5, .setArgThrows ⟨1, by decide⟩ 6, .call ()]).any
      fun s => decide (s.args ⟨1, by decide⟩ = none ∧ s.remainingArgs = 0 ∧
        s.defined = false)) = true := by decide
  obtain ⟨tr, s, hrun, -, -, hs⟩ := Transition.exists_run_of_exec hexec
  obtain ⟨hempty, hzero, hundefined⟩ := of_decide_eq_true hs
  refine ⟨tr, s, hrun, hempty, hzero, fun hc => ?_⟩
  rw [hc.defined] at hundefined
  cases hundefined

end CaptureLambda

end Bop.Main
