import Bop.Util.Function.Lifetime

set_option autoImplicit false

/-! # Copy assignment and nullptr assignment

`operator=(const Function&)` destroys the callable of the target, clones the one of the source and
copies the pointers, in this order. Where the clone comes from the callable that was just
destroyed, or does not come at all, the pointers of the target claim a callable that is gone.
`copyAssign_safe_iff` says exactly when an assignment is safe; `operator=(nullptr)`, which
clears the pointers after the destruction, always is.
-/

namespace Bop.Util

open Lifetime (Event Alive Proper Owned)

variable {maxSize : Nat} {T Args Result : Type} {C : T → Callable maxSize Args Result}
  {s s' : State T} {a b : Address} {F G : Function T} {t : T} {throws : Bool}

/-! ## What an assignment does -/

theorem destroyData_of_empty (hc : F.controller = none) : s.destroyData C a F = s := by
  unfold State.destroyData
  rw [hc]

theorem if_toBool_destroyData :
    (if F.toBool then s.destroyData C a F else s) = s.destroyData C a F := by
  by_cases hF : F.toBool = true
  · rw [if_pos hF]
  · have hc : F.controller = none := by simpa [Function.toBool] using hF
    rw [if_neg hF, destroyData_of_empty hc]

/-- The target after its callable was destroyed, if its pointers were cleared. -/
def State.vacated (C : T → Callable maxSize Args Result) (s : State T) (a : Address)
    (F : Function T) : State T :=
  (s.destroyData C a F).set a { F with invoker := none, controller := none }

theorem Sound.vacated (h : Sound s) (ha : s.function a = some F) : Sound (s.vacated C a F) :=
  h.vacate ha

theorem vacated_function_self : (s.vacated C a F).function a =
    some { F with invoker := none, controller := none } := set_function_self

theorem vacated_function_of_ne (hb : b ≠ a) : (s.vacated C a F).function b = s.function b := by
  rw [State.vacated, set_function_of_ne hb, destroyData_function]

theorem copyAssign_of_empty (hc : G.controller = none) :
    s.copyAssign C a b F G throws = (false, s.vacated C a F) := by
  simp only [State.copyAssign, if_toBool_destroyData, hc, State.vacated]

theorem copyAssign_of_throws (hc : G.controller = some t) :
    s.copyAssign C a b F G true =
      (true, (s.destroyData C a F).record (.used G.storedFn.object)) := by
  simp only [State.copyAssign, if_toBool_destroyData, hc, State.clone, if_true]

/-- A successful assignment constructs a callable in a target that holds none. -/
theorem copyAssign_of_clone (hc : G.controller = some t) (hi : G.invoker = some t) :
    ∃ storage : Storage T, storage.bytes = (C t).copy b G.storedFn.bytes a ∧
      s.copyAssign C a b F G false =
        (false, (((s.vacated C a F).record (.used G.storedFn.object)).placementNew t
          storage.bytes).2.set a
            { invoker := some t, controller := some t, storedFn := storage }) ∧
      storage = (((s.vacated C a F).record (.used G.storedFn.object)).placementNew t
        storage.bytes).1 := by
  refine ⟨(((s.vacated C a F).record (.used G.storedFn.object)).placementNew t
    ((C t).copy b G.storedFn.bytes a)).1, rfl, ?_, rfl⟩
  simp only [State.copyAssign, if_toBool_destroyData, hc, hi, State.clone, State.vacated,
    State.placementNew, State.record, State.set, Function.update_idem, Bool.false_eq_true,
    if_false]

theorem nullAssign_eq : s.nullAssign C a F = if F.toBool then s.vacated C a F else s := rfl

/-! ## Safety -/

/-- However the program goes on, its callables are accounted for. -/
def State.Accounted [DecidableEq T] (C : T → Callable maxSize Args Result) (s : State T) : Prop :=
  ∀ (tr : List (State T × Action T Args)) (s' : State T),
    Transition.Run (step C) s tr s' → s'.Balanced

/-- The callable of a Function, if it has one, is an object at the address of its storage. -/
def Function.Represented (C : T → Callable maxSize Args Result) (F : Function T) (a : Address) :
    Prop := ∀ {t}, F.controller = some t → ∃ v, (C t).Holds a F.storedFn.bytes v

/-- `F = G` is safe: if it returns, both Functions do what `G` did before, and the callables are
accounted for from then on. -/
structure State.CopySafe [DecidableEq T] (C : T → Callable maxSize Args Result) (s : State T)
    (a b : Address) (F G : Function T) (throws : Bool) : Prop where
  target : (s.copyAssign C a b F G throws).1 = false →
    ∀ argss, (s.copyAssign C a b F G throws).2.calls C a argss = s.calls C b argss
  source : (s.copyAssign C a b F G throws).1 = false →
    ∀ argss, (s.copyAssign C a b F G throws).2.calls C b argss = s.calls C b argss
  accounted : (s.copyAssign C a b F G throws).2.Accounted C

/-- `F = nullptr` is safe: `F` is empty and the callables are accounted for from then on. -/
structure State.NullSafe [DecidableEq T] (C : T → Callable maxSize Args Result) (s : State T)
    (a : Address) (F : Function T) : Prop where
  empty : ∃ F', (s.nullAssign C a F).function a = some F' ∧ F'.toBool = false ∧ F'.invoker = none
  accounted : (s.nullAssign C a F).Accounted C

section Safety

variable [DecidableEq T]

theorem Sound.accounted (h : Sound s) : s.Accounted C := fun _ _ hrun => (h.run hrun).balanced

theorem Sound.nullSafe (h : Sound s) (ha : s.function a = some F) : s.NullSafe C a F := by
  by_cases hF : F.toBool = true
  · have hnull : s.nullAssign C a F = s.vacated C a F := by rw [nullAssign_eq, if_pos hF]
    constructor
    case empty =>
      rw [hnull, vacated_function_self]
      exact ⟨_, rfl, rfl, rfl⟩
    case accounted =>
      rw [hnull]
      exact (h.vacated ha).accounted
  · have hnull : s.nullAssign C a F = s := by rw [nullAssign_eq, if_neg hF]
    have hc : F.controller = none := by simpa [Function.toBool] using hF
    constructor
    case empty =>
      rw [hnull]
      exact ⟨F, ha, by simpa using hF, (h.bound ha).invoker.trans hc⟩
    case accounted =>
      rw [hnull]
      exact h.accounted

/-- Assigning an empty Function empties the target. -/
theorem Sound.copySafe_of_empty (h : Sound s) (ha : s.function a = some F)
    (hb : s.function b = some G) (hG : G.toBool = false) : s.CopySafe C a b F G throws := by
  have hc : G.controller = none := by simpa [Function.toBool] using hG
  have hi : G.invoker = none := (h.bound hb).invoker.trans hc
  have heq : s.copyAssign C a b F G throws = (false, s.vacated C a F) := copyAssign_of_empty hc
  constructor
  case target =>
    intro _ argss
    rw [heq, calls_of_empty vacated_function_self rfl, calls_of_empty hb hi]
  case source =>
    intro _ argss
    rw [heq, calls_of_empty hb hi]
    by_cases hab : b = a
    · rw [hab]
      exact calls_of_empty vacated_function_self rfl argss
    · exact calls_of_empty ((vacated_function_of_ne hab).trans hb) hi argss
  case accounted =>
    rw [heq]
    exact (h.vacated ha).accounted

/-- If the target is empty, an exception leaves it so. -/
theorem Sound.copySafe_of_throws (h : Sound s) (hb : s.function b = some G)
    (hF : F.toBool = false) (hc : G.controller = some t) : s.CopySafe C a b F G true := by
  have hFc : F.controller = none := by simpa [Function.toBool] using hF
  have heq : s.copyAssign C a b F G true = (true, s.record (.used G.storedFn.object)) := by
    rw [copyAssign_of_throws hc, destroyData_of_empty hFc]
  constructor
  case target =>
    intro hreturned
    rw [heq] at hreturned
    cases hreturned
  case source =>
    intro hreturned
    rw [heq] at hreturned
    cases hreturned
  case accounted =>
    rw [heq]
    exact (h.use hb ((h.bound hb).invoker.trans hc)).accounted

/-- Different Functions, and no exception. -/
theorem Sound.copySafe_of_ne (h : Sound s) (ha : s.function a = some F)
    (hb : s.function b = some G) (hG : G.Represented C b) (hab : a ≠ b)
    (hc : G.controller = some t) : s.CopySafe C a b F G false := by
  have hi : G.invoker = some t := (h.bound hb).invoker.trans hc
  obtain ⟨v, hv⟩ := hG hc
  obtain ⟨storage, hbytes, heq, hstorage⟩ :=
    copyAssign_of_clone (s := s) (a := a) (b := b) (C := C) (F := F) hc hi
  -- `destroyData` of the target leaves the source alone, so there is something to copy
  have hb' : (s.vacated C a F).function b = some G :=
    (vacated_function_of_ne hab.symm).trans hb
  have hcopy : (C t).Holds a storage.bytes v := hbytes ▸ (C t).copy_holds hv a
  constructor
  case target =>
    intro _ argss
    rw [heq, calls_of_invoker set_function_self rfl, calls_of_invoker hb hi]
    exact ((C t).calls_eq hcopy argss).trans ((C t).calls_eq hv argss).symm
  case source =>
    intro _ argss
    have hkept : (s.copyAssign C a b F G false).2.function b = some G := by
      rw [heq]
      exact (set_function_of_ne hab.symm).trans hb'
    rw [calls_of_invoker hkept hi, calls_of_invoker hb hi]
  case accounted =>
    rw [heq]
    refine Sound.accounted ?_
    have huse : Sound ((s.vacated C a F).record (.used G.storedFn.object)) :=
      (h.vacated ha).use hb' hi
    have hnone : ((s.vacated C a F).record (.used G.storedFn.object)).held a = none :=
      held_of_function vacated_function_self
    have hplace := huse.place (t := t) hnone storage.bytes
    rwa [← hstorage] at hplace

/-- Everything else leaves a record that no program accounts for. -/
theorem not_copySafe (ha : s.function a = some F) (hb : s.function b = some G)
    (hF : F.toBool = true) (hG : G.toBool = true) (hbad : a = b ∨ throws = true) :
    ¬ s.CopySafe C a b F G throws := by
  intro hsafe
  obtain ⟨t, hFc⟩ := Option.isSome_iff_exists.mp hF
  obtain ⟨t', hGc⟩ := Option.isSome_iff_exists.mp hG
  have hdestroy : s.destroyData C a F = s.destroy C t a F.storedFn := by
    unfold State.destroyData
    rw [hFc]
  by_cases hab : a = b
  · -- the clone is made of the callable that was just destroyed
    subst hab
    obtain rfl : F = G := Option.some.inj (ha.symm.trans hb)
    have hlog : ∃ log', (s.copyAssign C a a F F throws).2.log =
        log' ++ .used F.storedFn.object :: .destroyed F.storedFn.object :: s.log := by
      cases throws with
      | true =>
          rw [copyAssign_of_throws hFc, hdestroy]
          exact ⟨[], rfl⟩
      | false =>
          simp only [State.copyAssign, hF, if_true, hFc, hdestroy, State.clone,
            Bool.false_eq_true, if_false]
          exact ⟨[_], rfl⟩
    obtain ⟨log', hlog⟩ := hlog
    have hproper : Proper (s.copyAssign C a a F F throws).2.log :=
      (hsafe.accounted [] _ .nil).proper
    rw [hlog] at hproper
    exact (Lifetime.Proper.of_append hproper).1.2 List.mem_cons_self
  · -- the pointers of the target are still those of the destroyed callable
    obtain rfl : throws = true := hbad.resolve_left hab
    have heq : s.copyAssign C a b F G true =
        (true, (s.destroy C t a F.storedFn).record (.used G.storedFn.object)) := by
      rw [copyAssign_of_throws hGc, hdestroy]
    have hstep : step C (s.copyAssign C a b F G true).2 (.destruct a) =
        some ((s.copyAssign C a b F G true).2.destruct C a F) := by
      have ha' : (s.copyAssign C a b F G true).2.function a = some F := by
        rw [heq]
        exact ha
      simp only [step, ha']
    have hproper : Proper ((s.copyAssign C a b F G true).2.destruct C a F).log :=
      (hsafe.accounted _ _ (.snoc .nil hstep)).proper
    rw [heq] at hproper
    simp only [State.destruct, State.destroyData, hFc] at hproper
    exact hproper.1.2 (List.mem_cons_of_mem _ List.mem_cons_self)

/-- **When the assignments are safe.** Take Functions `F` and `G` of any program, the same or
different ones, where the bytes in `G` are those of an object at its address (`G.Represented C b`:
`binding_iff` says when an earlier swap breaks this), and let the copy constructor of the callable
throw or not. `F = G` and `F = nullptr` are safe iff one of the Functions is empty, or they are
different ones and nothing is thrown. -/
theorem copyAssign_safe_iff (h : Sound s) (ha : s.function a = some F)
    (hb : s.function b = some G) (hG : G.Represented C b) :
    (s.CopySafe C a b F G throws ∧ s.NullSafe C a F) ↔
      (F.toBool = false ∨ G.toBool = false ∨ (a ≠ b ∧ throws = false)) := by
  constructor
  case mp =>
    rintro ⟨hsafe, -⟩
    by_contra hno
    simp only [not_or, not_and, Bool.not_eq_false] at hno
    obtain ⟨hF, hGb, hne⟩ := hno
    refine not_copySafe ha hb hF hGb ?_ hsafe
    by_cases hab : a = b
    · exact Or.inl hab
    · exact Or.inr (hne hab)
  case mpr =>
    intro hcond
    refine ⟨?_, h.nullSafe ha⟩
    cases hc : G.controller with
    | none => exact h.copySafe_of_empty ha hb (by rw [Function.toBool, hc]; rfl)
    | some t =>
        have hGb : G.toBool = true := by rw [Function.toBool, hc]; rfl
        rcases hcond with hF | hempty | ⟨hab, rfl⟩
        · cases throws with
          | true => exact h.copySafe_of_throws hb hF hc
          | false =>
              have hab : a ≠ b := by
                rintro rfl
                rw [Option.some.inj (ha.symm.trans hb), hGb] at hF
                cases hF
              exact h.copySafe_of_ne ha hb hG hab hc
        · rw [hGb] at hempty
          cases hempty
        · exact h.copySafe_of_ne ha hb hG hab hc

end Safety

/-- Two Functions with lambdas of different types. -/
theorem copyAssign_safe_iff_lambdas : ∃ (tr : List (State Bool × Action Bool Nat)) (s : State Bool)
    (F G : Function Bool), Transition.Run
      (step fun square : Bool => lambda fun x : Nat => if square then x * x else x * 2) init tr s ∧
      F.toBool = true ∧ G.toBool = true ∧ s.function 100 = some F ∧ s.function 200 = some G ∧
      s.CopySafe (fun square : Bool => lambda fun x : Nat => if square then x * x else x * 2)
        100 200 F G false := by
  have hexec : ((Transition.exec
      (step fun square : Bool => lambda fun x : Nat => if square then x * x else x * 2)
      (fun _ _ => True) init
      [Action.construct 100 ⟨true, 500, [0]⟩ false, .construct 200 ⟨false, 501, [0]⟩ false]).any
      fun s => decide (s.function 100 = some ⟨some true, some true, [0], 1, some true⟩ ∧
        s.function 200 = some ⟨some false, some false, [0], 2, some false⟩)) = true := by decide
  obtain ⟨tr, s, hrun, -, -, hs⟩ := Transition.exists_run_of_exec hexec
  obtain ⟨hF, hG⟩ := of_decide_eq_true hs
  exact ⟨tr, s, _, _, hrun, rfl, rfl, hF, hG, ((copyAssign_safe_iff (sound_init.run hrun) hF hG
    fun _ => ⟨(), rfl⟩).mpr (Or.inr (Or.inr ⟨by decide, rfl⟩))).1⟩

/-- `F = F` for a Function with a lambda is not safe. -/
theorem not_copyAssign_safe : ∃ (tr : List (State Unit × Action Unit Nat)) (s : State Unit)
    (F : Function Unit), Transition.Run (step fun _ => lambda fun x : Nat => x * x) init tr s ∧
      s.function 100 = some F ∧
      ¬ s.CopySafe (fun _ => lambda fun x : Nat => x * x) 100 100 F F false := by
  have hexec : ((Transition.exec (step fun _ : Unit => lambda fun x : Nat => x * x)
      (fun _ _ => True) init [Action.construct 100 ⟨(), 500, [0]⟩ false]).any
      fun s => decide (s.function 100 = some ⟨some (), some (), [0], 1, some ()⟩)) = true := by
    decide
  obtain ⟨tr, s, hrun, -, -, hs⟩ := Transition.exists_run_of_exec hexec
  have hF := of_decide_eq_true hs
  exact ⟨tr, s, _, hrun, hF, not_copySafe hF hF rfl rfl (Or.inl rfl)⟩

end Bop.Util
