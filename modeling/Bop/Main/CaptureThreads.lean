import Bop.Main.Capture

set_option autoImplicit false

/-! # Captures that are filled by several threads

`m_RemainingArgs` of both classes is atomic, so that the arguments may come from several threads.
Here each statement of `set_arg` and of `call` is a step (a call gets all arguments in one), and the
steps of any number of threads interleave; each index is set once, to a value of the type of the
parameter (as in `Capture.lean`). `m_RemainingArgs` is the number of the indices that are not counted
yet, and the order of the two statements of `set_arg` decides what a zero is worth:

* `CaptureSlots` counts an argument that is stored, so a call that reads zero has all arguments
  (`captureSlots_threads`).
* `CaptureLambda` counts an argument that is still to be stored: a call that reads zero dereferences
  an empty optional iff some thread is between the two statements (`captureLambda_threads`).
-/

namespace Bop.Main.CaptureThreads

open Slots (latest)

variable {n : Size} {Args : Fin n → Type} {World T τ : Type}

inductive Class
  | captureSlots
  | captureLambda
  deriving DecidableEq

/-- Where a thread is in a call. -/
inductive Pc (Args : Fin n → Type) (World : Type)
  | idle
  | test (i : Fin n) (v : Args i)  -- if (!std::get<Idx>(m_Arguments).has_value())
  | count (i : Fin n) (v : Args i) -- --m_RemainingArgs;
  | store (i : Fin n) (v : Args i) -- std::get<Idx>(m_Args) = value;
  | load (w : World)               -- if (m_RemainingArgs == 0)
  | invoke (w : World)             -- m_Result = apply_unwrap(*m_Callback, m_Args); return true;

/-- The index that a thread sets. -/
def Pc.index : Pc Args World → Option (Fin n)
  | .test i _ | .count i _ | .store i _ => some i
  | .idle | .load _ | .invoke _ => none

/-- The statements of `set_arg`: the first one, -/
def Class.entry : Class → (i : Fin n) → Args i → Pc Args World
  | .captureSlots => .store
  | .captureLambda => .test

/-- what follows the counting, -/
def Class.counted : Class → (i : Fin n) → Args i → Pc Args World
  | .captureSlots => fun _ _ => .idle
  | .captureLambda => .store

/-- and what follows the storing. -/
def Class.stored : Class → (i : Fin n) → Args i → Pc Args World
  | .captureSlots => .count
  | .captureLambda => fun _ _ => .idle

structure State (τ : Type) (Args : Fin n → Type) (World T : Type) where
  base : Capture Args T
  pc : τ → Pc Args World
  /-- the indices that were counted, for stating properties -/
  counted : Slots fun _ : Fin n => Unit

def init : State τ Args World T where
  base := Capture.init
  pc := fun _ => .idle
  counted := Slots.empty

inductive Action (τ : Type) (Args : Fin n → Type) (World : Type)
  | setArg (t : τ) (i : Fin n) (v : Args i)
  | call (t : τ) (w : World)
  /-- the next statement of the call that thread `t` is in -/
  | next (t : τ)

/-- `apply_unwrap`, after `m_RemainingArgs` was zero -/
def invoke (callback : World → ((i : Fin n) → Args i) → T) (isVoid : Bool) (w : World)
    (s : Capture Args T) : Capture Args T :=
  match applyUnwrap (callback w) s.args with
  | some x =>
      { s with
        result := if isVoid then s.result else some x
        log := .called true s.args.values :: s.log }
  | none => { s with defined := false, log := .called true none :: s.log }

def refuse (s : Capture Args T) : Capture Args T := { s with log := .called false none :: s.log }

section

variable [DecidableEq τ]

/-- Thread `t` goes on at `pc`. -/
def State.goto (s : State τ Args World T) (t : τ) (pc : Pc Args World) : State τ Args World T :=
  { s with pc := Function.update s.pc t pc }

variable (cls : Class) (callback : World → ((i : Fin n) → Args i) → T) (isVoid : Bool)

def threadStep (s : State τ Args World T) (t : τ) : Option (State τ Args World T) :=
  match s.pc t with
  | .idle => none
  | .test i v => some (s.goto t (if CaptureLambda.hasArg i s.base then .store i v else .count i v))
  | .count i v =>
      some ({ s with base := s.base.countDown, counted := s.counted.set i () }.goto t
        (cls.counted i v))
  | .store i v => some ({ s with base := s.base.store i v }.goto t (cls.stored i v))
  | .load w =>
      if s.base.remainingArgs.val = 0 then some (s.goto t (.invoke w))
      else some ({ s with base := refuse s.base }.goto t .idle)
  | .invoke w => some ({ s with base := invoke callback isVoid w s.base }.goto t .idle)

def step (s : State τ Args World T) : Action τ Args World → Option (State τ Args World T)
  | .setArg t i v =>
      match s.pc t with
      | .idle => some (s.goto t (cls.entry i v))
      | _ => none
  | .call t w =>
      match s.pc t with
      | .idle => some (s.goto t (.load w))
      | _ => none
  | .next t => threadStep cls callback isVoid s t

end

/-- Each index is set once. -/
def State.Disciplined (s : State τ Args World T) : Action τ Args World → Prop
  | .setArg _ i _ => s.base.args i = none ∧ ∀ u, (s.pc u).index ≠ some i
  | .call _ _ | .next _ => True

instance [Fintype τ] (s : State τ Args World T) : DecidablePred s.Disciplined
  | .setArg _ i _ =>
      inferInstanceAs (Decidable (s.base.args i = none ∧ ∀ u, (s.pc u).index ≠ some i))
  | .call _ _ | .next _ => .isTrue trivial

/-! ## The invariant -/

/-- What has been done for the index that a thread sets. -/
def Pc.Facts (cls : Class) (args : Slots Args) (counted : Slots fun _ : Fin n => Unit) :
    Pc Args World → Prop
  | .idle | .load _ => True
  | .test i _ => args i = none ∧ counted i = none ∧ cls = .captureLambda
  | .count i _ => ((args i).isSome ↔ cls = .captureSlots) ∧ counted i = none
  | .store i _ => args i = none ∧ ((counted i).isSome ↔ cls = .captureLambda)
  | .invoke _ => counted.missing = 0

structure Inv (cls : Class) (s : State τ Args World T) : Prop where
  args : s.base.args = latest s.base.log
  remaining : s.base.remainingArgs.val = s.counted.missing
  facts : ∀ t, (s.pc t).Facts cls s.base.args s.counted
  unique : ∀ {t u i}, (s.pc t).index = some i → (s.pc u).index = some i → t = u
  /-- what nobody is setting is stored and counted, or neither -/
  settled : ∀ i, (∀ t, (s.pc t).index ≠ some i) →
    ((s.base.args i).isSome ↔ (s.counted i).isSome)

variable {cls : Class} {s s' : State τ Args World T} {t u : τ} {p : Pc Args World} {i : Fin n}

theorem init_inv (cls : Class) : Inv cls (init : State τ Args World T) where
  args := rfl
  remaining := Capture.correct_init.remaining.trans (by
    show Slots.missing Slots.empty = Slots.missing Slots.empty
    rw [Slots.missing_empty, Slots.missing_empty])
  facts _ := trivial
  unique h := by cases h
  settled _ _ := iff_of_false Bool.false_ne_true Bool.false_ne_true

theorem Pc.Facts.congr {args args' : Slots Args} {counted counted' : Slots fun _ : Fin n => Unit}
    (h : p.Facts cls args counted)
    (hsame : ∀ j, p.index = some j → args' j = args j ∧ counted' j = counted j)
    (hzero : counted.missing = 0 → counted'.missing = 0) : p.Facts cls args' counted' := by
  cases p with
  | idle | load => trivial
  | invoke w => exact hzero h
  | test i v | count i v | store i v =>
      obtain ⟨hargs, hcounted⟩ := hsame i rfl
      simp only [Pc.Facts, hargs, hcounted]
      exact h

theorem counted_of_missing {counted : Slots fun _ : Fin n => Unit} (h : counted.missing = 0)
    (i : Fin n) : (counted i).isSome :=
  Slots.values_isSome.mp (Slots.missing_eq_zero.mp h) i

section Steps

variable [DecidableEq τ]

/-- A thread goes on, and changes nothing but what belongs to its index. -/
theorem Inv.move (h : Inv cls s) (hpc : s'.pc = Function.update s.pc t p)
    (hsame : ∀ j, (s.pc t).index ≠ some j →
      s'.base.args j = s.base.args j ∧ s'.counted j = s.counted j)
    (hindex : ∀ j, p.index = some j → (s.pc t).index = some j ∨ ∀ u, (s.pc u).index ≠ some j)
    (hfacts : p.Facts cls s'.base.args s'.counted)
    (hsettled : ∀ j, (s.pc t).index = some j → p.index ≠ some j →
      ((s'.base.args j).isSome ↔ (s'.counted j).isSome))
    (hargs : s'.base.args = latest s'.base.log)
    (hrem : s'.base.remainingArgs.val = s'.counted.missing)
    (hzero : s.counted.missing = 0 → s'.counted.missing = 0) : Inv cls s' := by
  have hself : s'.pc t = p := by rw [hpc, Function.update_self]
  have hother : ∀ {u}, u ≠ t → s'.pc u = s.pc u := by
    intro u hu
    rw [hpc, Function.update_of_ne hu]
  -- the index that the thread is about to set is set by no other one
  have hown : ∀ {u j}, u ≠ t → (s'.pc u).index = some j → p.index ≠ some j := by
    intro u j hu huj hp
    rw [hother hu] at huj
    rcases hindex j hp with ht | hnone
    · exact hu (h.unique huj ht)
    · exact hnone u huj
  constructor
  case args => exact hargs
  case remaining => exact hrem
  case facts =>
    intro u
    by_cases hu : u = t
    · rw [hu, hself]
      exact hfacts
    · rw [hother hu]
      exact (h.facts u).congr (fun j hj => hsame j fun ht => hu (h.unique hj ht)) hzero
  case unique =>
    intro u v j huj hvj
    by_cases hu : u = t
    · by_cases hv : v = t
      · rw [hu, hv]
      · rw [hu, hself] at huj
        exact absurd huj (hown hv hvj)
    · by_cases hv : v = t
      · rw [hv, hself] at hvj
        exact absurd hvj (hown hu huj)
      · rw [hother hu] at huj
        rw [hother hv] at hvj
        exact h.unique huj hvj
  case settled =>
    intro j hj
    have hp : p.index ≠ some j := hself ▸ hj t
    by_cases ht : (s.pc t).index = some j
    · exact hsettled j ht hp
    · obtain ⟨hargs, hcounted⟩ := hsame j ht
      rw [hargs, hcounted]
      refine h.settled j fun u => ?_
      by_cases hu : u = t
      · rw [hu]
        exact ht
      · rw [← hother hu]
        exact hj u

/-- The thread only moves. -/
theorem Inv.goto (h : Inv cls s)
    (hindex : ∀ j, p.index = some j → (s.pc t).index = some j ∨ ∀ u, (s.pc u).index ≠ some j)
    (hkeep : ∀ j, (s.pc t).index = some j → p.index = some j)
    (hfacts : p.Facts cls s.base.args s.counted) : Inv cls (s.goto t p) :=
  h.move rfl (fun _ _ => ⟨rfl, rfl⟩) hindex hfacts
    (fun j ht hp => absurd (hkeep j ht) hp) h.args h.remaining id

variable {callback : World → ((i : Fin n) → Args i) → T} {isVoid : Bool}
  {x : Action τ Args World}

/-- `m_Result` and the flag are not among what the invariant speaks of. -/
theorem Inv.answer {b : Capture Args T} (h : Inv cls s) (hidx : (s.pc t).index = none)
    (hargs : b.args = s.base.args) (hrem : b.remainingArgs = s.base.remainingArgs)
    (hlog : latest b.log = latest s.base.log) : Inv cls ({ s with base := b }.goto t .idle) := by
  refine h.move rfl (fun j _ => ⟨congrFun hargs j, rfl⟩) (fun j hj => by cases hj) trivial ?_ ?_ ?_ id
  · intro j ht
    rw [hidx] at ht
    cases ht
  · show b.args = latest b.log
    rw [hlog, hargs, h.args]
  · show b.remainingArgs.val = s.counted.missing
    rw [hrem, h.remaining]

theorem invoke_frame (callback : World → ((i : Fin n) → Args i) → T) (isVoid : Bool) (w : World)
    (b : Capture Args T) :
    (invoke callback isVoid w b).args = b.args ∧
      (invoke callback isVoid w b).remainingArgs = b.remainingArgs ∧
      latest (invoke callback isVoid w b).log = latest b.log := by
  unfold invoke
  split
  · exact ⟨rfl, rfl, rfl⟩
  · exact ⟨rfl, rfl, rfl⟩

/-- An argument is counted. -/
theorem Inv.count {v : Args i} (h : Inv cls s) (hpc : s.pc t = .count i v) :
    Inv cls ({ s with base := s.base.countDown, counted := s.counted.set i () }.goto t
      (cls.counted i v)) := by
  have hf := h.facts t
  rw [hpc] at hf
  have hmiss : (s.counted.set i ()).missing + 1 = s.counted.missing :=
    Slots.missing_set_of_none hf.2
  have hcounted : (s.counted.set i () i).isSome := by simp [Slots.set]
  refine h.move rfl (fun j hj => ⟨rfl, Function.update_of_ne ?_ _ _⟩) ?_ ?_ ?_ h.args ?_ ?_
  · rintro rfl
    exact hj (by rw [hpc]; rfl)
  · intro j hj
    rw [hpc]
    cases cls with
    | captureSlots => cases hj
    | captureLambda => exact Or.inl hj
  · cases cls with
    | captureSlots => trivial
    | captureLambda =>
        have hnone : s.base.args i = none := by simpa using hf.1
        exact ⟨hnone, iff_of_true hcounted rfl⟩
  · intro j hj hpj
    rw [hpc] at hj
    obtain rfl := Option.some.inj hj
    cases cls with
    | captureSlots => exact iff_of_true (hf.1.mpr rfl) hcounted
    | captureLambda => exact absurd rfl hpj
  · show (s.base.remainingArgs - 1).val = (s.counted.set i ()).missing
    rw [val_sub_one_of_pos (by rw [h.remaining]; omega), h.remaining]
    omega
  · intro hz
    omega

/-- An argument is stored. -/
theorem Inv.store {v : Args i} (h : Inv cls s) (hpc : s.pc t = .store i v) :
    Inv cls ({ s with base := s.base.store i v }.goto t (cls.stored i v)) := by
  have hf := h.facts t
  rw [hpc] at hf
  have hset : (s.base.args.set i v i).isSome := by simp [Slots.set]
  refine h.move rfl (fun j hj => ⟨Function.update_of_ne ?_ _ _, rfl⟩) ?_ ?_ ?_ ?_ h.remaining id
  · rintro rfl
    exact hj (by rw [hpc]; rfl)
  · intro j hj
    rw [hpc]
    cases cls with
    | captureSlots => exact Or.inl hj
    | captureLambda => cases hj
  · cases cls with
    | captureSlots =>
        have hnone : s.counted i = none := by simpa using hf.2
        exact ⟨iff_of_true hset rfl, hnone⟩
    | captureLambda => trivial
  · intro j hj hpj
    rw [hpc] at hj
    obtain rfl := Option.some.inj hj
    cases cls with
    | captureSlots => exact absurd rfl hpj
    | captureLambda => exact iff_of_true hset (hf.2.mpr rfl)
  · show s.base.args.set i v = (latest s.base.log).set i v
    rw [h.args]

/-- An argument is given. -/
theorem Inv.setArg {v : Args i} (h : Inv cls s) (hpc : s.pc t = .idle)
    (hnone : s.base.args i = none) (hnobody : ∀ u, (s.pc u).index ≠ some i) :
    Inv cls (s.goto t (cls.entry i v)) := by
  have hcounted : s.counted i = none := by
    refine Option.not_isSome_iff_eq_none.mp fun hs => ?_
    have hargs := (h.settled i hnobody).mpr hs
    rw [hnone] at hargs
    cases hargs
  have hentry : (cls.entry i v : Pc Args World).index = some i := by cases cls <;> rfl
  refine h.goto (fun j hj => Or.inr ?_) (by simp [hpc, Pc.index]) ?_
  · rw [hentry] at hj
    exact Option.some.inj hj ▸ hnobody
  · cases cls with
    | captureSlots => exact ⟨hnone, by simp [hcounted]⟩
    | captureLambda => exact ⟨hnone, hcounted, rfl⟩

theorem Inv.step (h : Inv cls s) (hd : s.Disciplined x)
    (hs : CaptureThreads.step cls callback isVoid s x = some s') : Inv cls s' := by
  cases x with
  | setArg t i v =>
      obtain ⟨hnone, hnobody⟩ := hd
      cases hpc : s.pc t with
      | idle =>
          simp only [CaptureThreads.step, hpc, Option.some.injEq] at hs
          subst hs
          exact h.setArg hpc hnone hnobody
      | _ => simp only [CaptureThreads.step, hpc, reduceCtorEq] at hs
  | call t w =>
      cases hpc : s.pc t with
      | idle =>
          simp only [CaptureThreads.step, hpc, Option.some.injEq] at hs
          subst hs
          exact h.goto (by simp [Pc.index]) (by simp [hpc, Pc.index]) trivial
      | _ => simp only [CaptureThreads.step, hpc, reduceCtorEq] at hs
  | next t =>
      have hf := h.facts t
      cases hpc : s.pc t with
      | idle => simp only [CaptureThreads.step, threadStep, hpc, reduceCtorEq] at hs
      | test i v =>
          rw [hpc] at hf
          simp only [CaptureThreads.step, threadStep, hpc, CaptureLambda.hasArg, hf.1,
            Option.isSome_none, Bool.false_eq_true, if_false, Option.some.injEq] at hs
          subst hs
          refine h.goto (by rw [hpc]; exact fun j hj => Or.inl hj) (by rw [hpc]; exact fun j hj => hj)
            ⟨iff_of_false (by simp [hf.1]) (by simp [hf.2.2]), hf.2.1⟩
      | count i v =>
          simp only [CaptureThreads.step, threadStep, hpc, Option.some.injEq] at hs
          exact hs ▸ h.count hpc
      | store i v =>
          simp only [CaptureThreads.step, threadStep, hpc, Option.some.injEq] at hs
          exact hs ▸ h.store hpc
      | load w =>
          simp only [CaptureThreads.step, threadStep, hpc] at hs
          split at hs
          case isTrue hzero =>
            obtain rfl := Option.some.inj hs
            exact h.goto (by simp [Pc.index]) (by simp [hpc, Pc.index])
              (h.remaining.symm.trans hzero)
          case isFalse =>
            obtain rfl := Option.some.inj hs
            exact h.answer (by rw [hpc]; rfl) rfl rfl rfl
      | invoke w =>
          simp only [CaptureThreads.step, threadStep, hpc, Option.some.injEq] at hs
          subst hs
          obtain ⟨hargs, hrem, hlog⟩ := invoke_frame callback isVoid w s.base
          exact h.answer (by rw [hpc]; rfl) hargs hrem hlog

/-! ## The calls -/

/-- Each call that returned true got all arguments, as they were stored. -/
def Sound : List (Slots.Event Args) → Prop
  | [] => True
  | .stored _ _ :: log => Sound log
  | .called returned received :: log =>
      (returned = true → received.isSome ∧ received = (latest log).values) ∧ Sound log

/-- While a call gets the arguments, nobody is about to store one. -/
def State.Undisturbed (s : State τ Args World T) : Action τ Args World → Prop
  | .next t => ∀ w, s.pc t = .invoke w → ∀ u i v, s.pc u ≠ .store i v
  | .setArg _ _ _ | .call _ _ => True

omit [DecidableEq τ] in
/-- When all arguments are counted, those are stored that nobody is about to store. -/
theorem Inv.values_iff (h : Inv cls s) (hzero : s.counted.missing = 0) :
    s.base.args.values.isSome ↔ ∀ u i v, s.pc u ≠ .store i v := by
  rw [Slots.values_isSome]
  constructor
  · intro hall u i v hpc
    have hf := h.facts u
    rw [hpc] at hf
    have hi := hall i
    rw [hf.1] at hi
    cases hi
  · intro hnot i
    have hcounted := counted_of_missing hzero i
    refine (h.settled i fun u hu => ?_).mpr hcounted
    have hf := h.facts u
    cases hpc : s.pc u with
    | idle | load | invoke =>
        rw [hpc] at hu
        cases hu
    | test j v =>
        rw [hpc] at hu hf
        obtain rfl := Option.some.inj hu
        rw [hf.2.1] at hcounted
        cases hcounted
    | count j v =>
        rw [hpc] at hu hf
        obtain rfl := Option.some.inj hu
        rw [hf.2] at hcounted
        cases hcounted
    | store j v => exact hnot u j v hpc

omit [DecidableEq τ] in
/-- A call that read zero. -/
theorem Inv.invoke {w : World} (h : Inv cls s) (hzero : s.counted.missing = 0) :
    ((CaptureThreads.invoke callback isVoid w s.base).defined = true ∧
      Sound (CaptureThreads.invoke callback isVoid w s.base).log) ↔
    (s.base.defined = true ∧ Sound s.base.log) ∧ ∀ u i v, s.pc u ≠ .store i v := by
  rw [← h.values_iff hzero, CaptureThreads.invoke, applyUnwrap]
  cases hv : s.base.args.values with
  | none => simp
  | some args =>
      have hlatest : (latest s.base.log).values = some args := by rw [← h.args, hv]
      simp [Sound, hlatest]

theorem Inv.step_defined (h : Inv cls s)
    (hs : CaptureThreads.step cls callback isVoid s x = some s') :
    (s'.base.defined = true ∧ Sound s'.base.log) ↔
      (s.base.defined = true ∧ Sound s.base.log) ∧ s.Undisturbed x := by
  cases x with
  | setArg t i v =>
      cases hpc : s.pc t with
      | idle =>
          simp only [CaptureThreads.step, hpc, Option.some.injEq] at hs
          exact hs ▸ (and_iff_left trivial).symm
      | _ => simp only [CaptureThreads.step, hpc, reduceCtorEq] at hs
  | call t w =>
      cases hpc : s.pc t with
      | idle =>
          simp only [CaptureThreads.step, hpc, Option.some.injEq] at hs
          exact hs ▸ (and_iff_left trivial).symm
      | _ => simp only [CaptureThreads.step, hpc, reduceCtorEq] at hs
  | next t =>
      have hquiet : (∀ w, s.pc t ≠ .invoke w) → (s.Undisturbed (.next t) ↔ True) :=
        fun hne => iff_of_true (fun w hw => absurd hw (hne w)) trivial
      cases hpc : s.pc t with
      | idle => simp only [CaptureThreads.step, threadStep, hpc, reduceCtorEq] at hs
      | invoke w =>
          have hf := h.facts t
          rw [hpc] at hf
          simp only [CaptureThreads.step, threadStep, hpc, Option.some.injEq] at hs
          subst hs
          refine (h.invoke hf).trans (and_congr_right fun _ => ?_)
          exact ⟨fun hnot _ _ => hnot, fun hnot => hnot w hpc⟩
      | load w =>
          rw [hquiet (by simp [hpc]), and_true]
          simp only [CaptureThreads.step, threadStep, hpc] at hs
          split at hs
          · exact Option.some.inj hs ▸ Iff.rfl
          · obtain rfl := Option.some.inj hs
            simp [State.goto, refuse, Sound]
      | test | count | store =>
          rw [hquiet (by simp [hpc]), and_true]
          simp only [CaptureThreads.step, threadStep, hpc, Option.some.injEq] at hs
          exact hs ▸ Iff.rfl

omit [DecidableEq τ] in
/-- In `CaptureSlots`, what is about to be stored is not counted. -/
theorem Inv.undisturbed (h : Inv .captureSlots s) : s.Undisturbed x := by
  cases x with
  | setArg | call => trivial
  | next t =>
      intro w hpc u i v hstore
      have ht := h.facts t
      have hu := h.facts u
      rw [hpc] at ht
      rw [hstore] at hu
      cases hu.2.mp (counted_of_missing ht i)

/-! ## Whole runs -/

variable {tr : List (State τ Args World T × Action τ Args World)}

theorem run_inv (h : Transition.Run (step cls callback isVoid) init tr s)
    (hd : ∀ q ∈ tr, q.1.Disciplined q.2) : Inv cls s :=
  h.invariant (init_inv cls) (fun h hd hs => h.step hd hs) hd

/-- The calls are right in the runs in which none is disturbed, and in no others. -/
theorem run_defined (h : Transition.Run (step cls callback isVoid) init tr s)
    (hd : ∀ q ∈ tr, q.1.Disciplined q.2) :
    (s.base.defined = true ∧ Sound s.base.log) ↔ ∀ q ∈ tr, q.1.Undisturbed q.2 := by
  induction h with
  | nil => exact iff_of_true ⟨rfl, trivial⟩ (by simp)
  | @snoc tr s s' x hrun hs ih =>
      have hd' : ∀ q ∈ tr, q.1.Disciplined q.2 := fun q hq => hd q (List.mem_cons_of_mem _ hq)
      rw [(run_inv hrun hd').step_defined hs, ih hd', List.forall_mem_cons, and_comm]

/-- **`CaptureSlots` may be filled by several threads.** In every interleaving of calls of `set_arg`,
one for each index, and of calls of `call`: no call dereferences an empty optional, and each call
that returns true has got all arguments, as they were stored; and when all calls of `set_arg` have
returned, the next call finds that there is nothing to wait for. -/
theorem captureSlots_threads
    (h : Transition.Run (step .captureSlots callback isVoid) init tr s)
    (hd : ∀ q ∈ tr, q.1.Disciplined q.2) :
    s.base.defined = true ∧ Sound s.base.log ∧
      ((∀ i, (s.base.args i).isSome) → (∀ t, (s.pc t).index = none) →
        s.base.remainingArgs = 0) := by
  have hvisited : ∀ x ∈ Transition.visited tr s, Inv .captureSlots x :=
    h.invariant_visited (init_inv _) (fun h hd hs => h.step hd hs) hd
  have hall : ∀ q ∈ tr, q.1.Undisturbed q.2 := fun q hq =>
    (hvisited q.1 (List.mem_cons_of_mem _ (List.mem_map_of_mem hq))).undisturbed
  have hinv := hvisited s (Transition.mem_visited_self tr s)
  obtain ⟨hdefined, hsound⟩ := (run_defined h hd).mpr hall
  refine ⟨hdefined, hsound, fun hargs hnone => Fin.ext ?_⟩
  rw [hinv.remaining]
  refine Slots.missing_eq_zero.mpr (Slots.values_isSome.mpr fun i => ?_)
  exact (hinv.settled i fun t ht => by rw [hnone t] at ht; cases ht).mp (hargs i)

/-- **`CaptureLambda` may be disturbed.** In every interleaving of calls of `set_arg`, one for each
index, and of calls of `call`: no call dereferences an empty optional, and each call that returns
true has got all arguments, as they were stored, iff no call gets the arguments while a thread is
between the two statements of `set_arg`. -/
theorem captureLambda_threads
    (h : Transition.Run (step .captureLambda callback isVoid) init tr s)
    (hd : ∀ q ∈ tr, q.1.Disciplined q.2) :
    (s.base.defined = true ∧ Sound s.base.log) ↔
      ∀ q ∈ tr, ∀ t w, q.2 = .next t → q.1.pc t = .invoke w → ∀ u i v, q.1.pc u ≠ .store i v := by
  rw [run_defined h hd]
  refine forall₂_congr fun q _ => ⟨fun hq t w hnext => ?_, fun hq => ?_⟩
  · rw [hnext] at hq
    exact hq w
  · cases hx : q.2 with
    | setArg | call => trivial
    | next t => exact fun w => hq t w hx

/-! ## Calls without interruption -/

/-- `set_arg` of the sequential objects -/
def Class.setArg : Class → (i : Fin n) → Args i → Capture Args T → Capture Args T
  | .captureSlots => CaptureSlots.setArg
  | .captureLambda => CaptureLambda.setArg

/-- The statements of `set_arg` in one go. -/
theorem setArg_alone (cls : Class) (hpc : s.pc t = .idle) (i : Fin n) (v : Args i) :
    ∃ tr s', Transition.Run (step cls callback isVoid) s tr s' ∧ s'.pc = s.pc ∧
      s'.base = cls.setArg i v s.base := by
  have hback : Function.update s.pc t .idle = s.pc := by rw [← hpc, Function.update_eq_self]
  obtain ⟨as, s', hexec, hs'⟩ : ∃ as s', Transition.exec (step cls callback isVoid)
      (fun _ _ => True) s as = some s' ∧ s'.pc = s.pc ∧ s'.base = cls.setArg i v s.base := by
    cases cls with
    | captureSlots =>
        refine ⟨[.setArg t i v, .next t, .next t],
          { base := CaptureSlots.setArg i v s.base, pc := s.pc, counted := s.counted.set i () },
          ?_, rfl, rfl⟩
        simp [Transition.exec, step, threadStep, State.goto, hpc, Class.entry, Class.stored,
          Class.counted, CaptureSlots.setArg, hback]
    | captureLambda =>
        cases hi : CaptureLambda.hasArg i s.base with
        | true =>
            refine ⟨[.setArg t i v, .next t, .next t],
              { s with base := CaptureLambda.setArg i v s.base }, ?_, rfl, rfl⟩
            simp [Transition.exec, step, threadStep, State.goto, hpc, Class.entry, Class.stored,
              CaptureLambda.setArg, CaptureLambda.count, hi, hback]
        | false =>
            refine ⟨[.setArg t i v, .next t, .next t, .next t],
              { base := CaptureLambda.setArg i v s.base, pc := s.pc,
                counted := s.counted.set i () }, ?_, rfl, rfl⟩
            simp [Transition.exec, step, threadStep, State.goto, hpc, Class.entry, Class.stored,
              Class.counted, CaptureLambda.setArg, CaptureLambda.count, hi, hback]
  obtain ⟨tr, hrun, -⟩ := Transition.exec_run as hexec
  exact ⟨tr, s', hrun, hs'⟩

/-- The statements of `call` in one go. -/
theorem call_alone (cls : Class) (hpc : s.pc t = .idle) (w : World) :
    ∃ tr s', Transition.Run (step cls callback isVoid) s tr s' ∧ s'.pc = s.pc ∧
      s'.base = s.base.call callback isVoid w := by
  have hback : Function.update s.pc t .idle = s.pc := by rw [← hpc, Function.update_eq_self]
  have hcall : s.base.call callback isVoid w = if s.base.remainingArgs = 0 then
      CaptureThreads.invoke callback isVoid w s.base else refuse s.base := rfl
  have hval : s.base.remainingArgs = 0 ↔ s.base.remainingArgs.val = 0 := Fin.ext_iff
  obtain ⟨as, s', hexec, hs'⟩ : ∃ as s', Transition.exec (step cls callback isVoid)
      (fun _ _ => True) s as = some s' ∧ s'.pc = s.pc ∧
        s'.base = s.base.call callback isVoid w := by
    by_cases hzero : s.base.remainingArgs.val = 0
    · refine ⟨[.call t w, .next t, .next t],
        { s with base := CaptureThreads.invoke callback isVoid w s.base }, ?_, rfl, ?_⟩
      · simp [Transition.exec, step, threadStep, State.goto, hpc, hval.mpr hzero, hback]
      · rw [hcall, if_pos (hval.mpr hzero)]
    · refine ⟨[.call t w, .next t], { s with base := refuse s.base }, ?_, rfl, ?_⟩
      · simp [Transition.exec, step, threadStep, State.goto, hpc, hval.not.mpr hzero, hback]
      · rw [hcall, if_neg (hval.not.mpr hzero)]
  obtain ⟨tr, hrun, -⟩ := Transition.exec_run as hexec
  exact ⟨tr, s', hrun, hs'⟩

end Steps

/-! ## Two threads -/

/-- Each argument comes from a thread of its own, and the steps of both interleave. -/
theorem captureSlots_threads_testingA : ∃ (tr : _) (s : State (Fin 3) (fun _ => Int) Unit Int),
    Transition.Run (step .captureSlots testingA false) init tr s ∧ s.base.result = some 30 ∧
      s.base.defined = true ∧ Sound s.base.log := by
  have hexec : ((Transition.exec (step .captureSlots testingA false) State.Disciplined
      (init : State (Fin 3) (fun _ => Int) Unit Int)
      [.setArg 0 ⟨0, by decide⟩ 5, .call 2 (), .setArg 1 ⟨1, by decide⟩ 6, .next 1, .next 0,
        .next 0, .next 2, .next 1, .call 2 (), .next 2, .next 2]).any
      fun s => decide (s.base.result = some 30)) = true := by decide
  obtain ⟨tr, s, hrun, -, hd, hs⟩ := Transition.exists_run_of_exec hexec
  obtain ⟨hdefined, hsound, -⟩ := captureSlots_threads hrun hd
  exact ⟨tr, s, hrun, of_decide_eq_true hs, hdefined, hsound⟩

/-- The second argument is counted, but not stored yet; the call dereferences it. -/
theorem captureLambda_threads_testingA : ∃ (tr : _) (s : State (Fin 3) (fun _ => Int) Unit Int),
    Transition.Run (step .captureLambda testingA false) init tr s ∧
      ¬ ∀ q ∈ tr, ∀ t w, q.2 = .next t → q.1.pc t = .invoke w → ∀ u i v, q.1.pc u ≠ .store i v := by
  have hexec : ((Transition.exec (step .captureLambda testingA false) State.Disciplined
      (init : State (Fin 3) (fun _ => Int) Unit Int)
      [.setArg 0 ⟨0, by decide⟩ 5, .next 0, .next 0, .next 0, .setArg 1 ⟨1, by decide⟩ 6, .next 1,
        .next 1, .call 2 (), .next 2, .next 2]).any
      fun s => decide (s.base.defined = false)) = true := by decide
  obtain ⟨tr, s, hrun, -, hd, hs⟩ := Transition.exists_run_of_exec hexec
  have hundefined : s.base.defined = false := of_decide_eq_true hs
  refine ⟨tr, s, hrun, fun hnot => ?_⟩
  have hdefined := ((captureLambda_threads hrun hd).mpr hnot).1
  rw [hundefined] at hdefined
  cases hdefined

end Bop.Main.CaptureThreads
