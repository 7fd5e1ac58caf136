import Bop.Util.Function

set_option autoImplicit false

/-! # The lifetimes of the callables

A Function holds the callable in its storage if its pointers are not null (`State.held`). In
every state of a program the Functions hold the callables that are alive, each of them once, and
both pointers are those of the type of the callable (`Sound`): what a swap moves and what the
temporary of an assignment destroys is accounted for by who holds it.
-/

namespace Bop.Util

open Lifetime (Event Alive Proper Owned)

variable {maxSize : Nat} {T Args Result : Type} {C : T → Callable maxSize Args Result}
  {s s' : State T} {a b tmp : Address} {F G : Function T} {fn : Argument T} {args : Args}
  {t : T} {throws : Bool}

/-! ## What a Function holds -/

/-- The callable that the pointers of a Function claim to be in its storage. -/
def Function.held (F : Function T) : Option (Object T) :=
  F.controller.map fun _ => F.storedFn.object

def State.held (s : State T) (a : Address) : Option (Object T) := (s.function a).bind Function.held

/-- Both pointers are null, or both belong to the type of the callable in the storage. -/
structure Function.Bound (F : Function T) : Prop where
  invoker : F.invoker = F.controller
  type : ∀ {t}, F.controller = some t → F.storedFn.object.type = some t

/-- The Functions hold the callables that are alive. -/
structure Sound (s : State T) : Prop where
  owned : Owned s.held s.log
  fresh : ∀ {o}, .made o ∈ s.log → o.number < s.nextObject
  bound : ∀ {a F}, s.function a = some F → F.Bound

theorem held_of_function (h : s.function a = some F) : s.held a = F.held := by
  rw [State.held, h, Option.bind_some]

@[simp] theorem held_set : (s.set a F).held = Function.update s.held a F.held := by
  funext b
  by_cases hb : b = a
  · rw [hb, Function.update_self]
    exact held_of_function set_function_self
  · rw [Function.update_of_ne hb, State.held, State.held, set_function_of_ne hb]

@[simp] theorem held_remove : (s.remove a).held = Function.update s.held a none := by
  funext b
  by_cases hb : b = a
  · rw [hb, Function.update_self, State.held, remove_function_self, Option.bind_none]
  · rw [Function.update_of_ne hb, State.held, State.held, remove_function_of_ne hb]

theorem Function.bound_empty {F : Function T} (hi : F.invoker = none) (hc : F.controller = none) :
    F.Bound where
  invoker := hi.trans hc.symm
  type h := by
    rw [hc] at h
    cases h

/-- Only the Function at one address was written. -/
theorem bound_set (h : ∀ {b G}, s.function b = some G → G.Bound) (hF : F.Bound) {b : Address}
    {G : Function T} (hG : (s.set a F).function b = some G) : G.Bound := by
  by_cases hb : b = a
  · rw [hb, set_function_self] at hG
    rwa [← Option.some.inj hG]
  · rw [set_function_of_ne hb] at hG
    exact h hG

theorem bound_remove (h : ∀ {b G}, s.function b = some G → G.Bound) {b : Address}
    {G : Function T} (hG : (s.remove a).function b = some G) : G.Bound := by
  by_cases hb : b = a
  · rw [hb, remove_function_self] at hG
    cases hG
  · rw [remove_function_of_ne hb] at hG
    exact h hG

theorem sound_init : Sound (init : State T) where
  owned := .nil
  fresh h := by cases h
  bound h := by cases h

/-! ## The operations keep it -/

/-- The next number is new. -/
theorem Sound.not_made (h : Sound s) (t : Option T) :
    .made ⟨s.nextObject, t⟩ ∉ s.log := fun hm => Nat.lt_irrefl _ (h.fresh hm)

theorem Sound.default (h : Sound s) (ha : s.function a = none) : Sound (s.set a {}) where
  owned := by
    have hheld : s.held a = none := by rw [State.held, ha, Option.bind_none]
    have hself : Function.update s.held a none = s.held := by
      rw [← hheld, Function.update_eq_self]
    rw [held_set]
    exact hself.symm ▸ h.owned
  fresh := h.fresh
  bound := bound_set h.bound (Function.bound_empty rfl rfl)

/-- A callable is constructed in the storage of a Function that held none. -/
theorem Sound.place (h : Sound s) (ha : s.held a = none) (bytes : Bytes) :
    Sound ((s.placementNew t bytes).2.set a
      { invoker := some t, controller := some t, storedFn := (s.placementNew t bytes).1 }) where
  owned := by
    rw [held_set]
    exact h.owned.make ha (h.not_made (some t))
  fresh {o} ho := by
    show o.number < s.nextObject + 1
    rcases List.mem_cons.mp ho with ho | ho
    · obtain rfl := Event.made.inj ho
      exact Nat.lt_succ_self _
    · exact Nat.lt_succ_of_lt (h.fresh ho)
  bound := by
    refine bound_set h.bound ⟨rfl, fun ht => ?_⟩
    obtain rfl := Option.some.inj ht
    rfl

theorem Sound.construct (h : Sound s) (ha : s.function a = none)
    (hs : s.construct C a fn throws = some s') : Sound s' := by
  unfold State.construct at hs
  split at hs
  case isTrue => cases hs
  case isFalse =>
    obtain rfl := Option.some.inj hs
    exact h.place (by rw [State.held, ha, Option.bind_none]) _

/-- A swap exchanges what the Functions hold, also if they are the same. -/
theorem Sound.swap (h : Sound s) (ha : s.function a = some F) (hb : s.function b = some G) :
    Sound (s.swap a b F G) where
  owned := by
    have hheld : (s.swap a b F G).held = fun x => s.held (Equiv.swap a b x) := by
      funext x
      rw [State.swap, held_set, held_set]
      by_cases hxb : x = b
      · rw [hxb, Function.update_self, Equiv.swap_apply_right, held_of_function ha]
      · rw [Function.update_of_ne hxb]
        by_cases hxa : x = a
        · rw [hxa, Function.update_self, Equiv.swap_apply_left, held_of_function hb]
        · rw [Function.update_of_ne hxa, Equiv.swap_apply_of_ne_of_ne hxa hxb]
    rw [hheld]
    exact h.owned.permute _
  fresh := h.fresh
  bound := bound_set (bound_set h.bound (h.bound hb)) (h.bound ha)

theorem destroyData_nextObject : (s.destroyData C a F).nextObject = s.nextObject := by
  unfold State.destroyData
  split
  · rfl
  · rfl

/-- What a Function holds is destroyed, and somebody sees to it that the Function does not hold it
any longer. -/
theorem Sound.destroyData (h : Sound s) (ha : s.function a = some F) :
    Owned (Function.update s.held a none) (s.destroyData C a F).log ∧
      ∀ {o}, .made o ∈ (s.destroyData C a F).log →
        o.number < (s.destroyData C a F).nextObject := by
  have hheld : s.held a = F.held := held_of_function ha
  rw [destroyData_nextObject]
  unfold State.destroyData
  split
  case h_1 t hc =>
    have hself : s.held a = some F.storedFn.object := by rw [hheld, Function.held, hc]; rfl
    refine ⟨h.owned.destroy hself, fun ho => ?_⟩
    rcases List.mem_cons.mp ho with ho | ho
    · cases ho
    · exact h.fresh ho
  case h_2 hc =>
    have hself : Function.update s.held a none = s.held := by
      have hnone : s.held a = none := by rw [hheld, Function.held, hc]; rfl
      rw [← hnone, Function.update_eq_self]
    exact ⟨hself.symm ▸ h.owned, h.fresh⟩

theorem destroyData_held : (s.destroyData C a F).held = s.held := by
  funext b
  rw [State.held, State.held, destroyData_function]

theorem Sound.destruct (h : Sound s) (ha : s.function a = some F) : Sound (s.destruct C a F) where
  owned := by
    rw [State.destruct, held_remove, destroyData_held]
    exact (h.destroyData ha).1
  fresh := (h.destroyData ha).2
  bound := bound_remove fun hG => h.bound (destroyData_function ▸ hG)

/-- The Function is empty after its callable was destroyed. -/
theorem Sound.vacate (h : Sound s) (ha : s.function a = some F) :
    Sound ((s.destroyData C a F).set a { F with invoker := none, controller := none }) where
  owned := by
    rw [held_set, destroyData_held]
    exact (h.destroyData ha).1
  fresh := (h.destroyData ha).2
  bound := bound_set (fun hG => h.bound (destroyData_function ▸ hG)) (Function.bound_empty rfl rfl)

/-! ## Assignment of a callable -/

theorem Sound.assign (h : Sound s) (ha : s.function a = some F) (htmp : s.function tmp = none) :
    Sound (s.assign C a F fn tmp throws).2 := by
  have hne : a ≠ tmp := by
    rintro rfl
    rw [htmp] at ha
    cases ha
  cases hc : s.construct C tmp fn throws with
  | none =>
      have hs : s.assign C a F fn tmp throws = (true, s) := by rw [State.assign, hc]
      rw [hs]
      exact h
  | some s₁ =>
      obtain ⟨temporary, htemp, -⟩ := construct_function_self hc
      rw [assign_eq hc htemp]
      have hsound : Sound s₁ := h.construct htmp hc
      have ha₁ : s₁.function a = some F := (construct_function_of_ne hc hne).trans ha
      refine (hsound.swap htemp ha₁).destruct ?_
      rw [State.swap, set_function_of_ne hne.symm, set_function_self]

/-! ## Calls -/

theorem Sound.use (h : Sound s) (ha : s.function a = some F) (hi : F.invoker = some t) :
    Sound (s.record (.used F.storedFn.object)) where
  owned := by
    have hc : F.controller = some t := (h.bound ha).invoker ▸ hi
    have hheld : s.held a = some F.storedFn.object := by
      rw [held_of_function ha, Function.held, hc]
      rfl
    exact h.owned.use hheld
  fresh ho := by
    rcases List.mem_cons.mp ho with ho | ho
    · cases ho
    · exact h.fresh ho
  bound := h.bound

/-- The bytes of a callable do not matter. -/
theorem Sound.write (h : Sound s) (ha : s.function a = some F) (bytes : Bytes) :
    Sound (s.set a { F with storedFn := { F.storedFn with bytes := bytes } }) where
  owned := by
    have hself : Function.update s.held a F.held = s.held := by
      rw [← held_of_function ha, Function.update_eq_self]
    rw [held_set]
    exact hself.symm ▸ h.owned
  fresh := h.fresh
  bound := by
    have hbound : Function.Bound { F with storedFn := { F.storedFn with bytes := bytes } } :=
      ⟨(h.bound ha).invoker, (h.bound ha).type⟩
    intro b G hG
    exact bound_set h.bound hbound hG

theorem Sound.call (h : Sound s) (ha : s.function a = some F) : Sound (s.call C a F args).2 := by
  unfold State.call
  split
  case h_1 => exact h
  case h_2 t hi =>
    have huse : Sound (s.record (.used F.storedFn.object)) := h.use ha hi
    dsimp only
    split
    case h_1 => exact huse.write ha _
    case h_2 => exact ⟨huse.owned, huse.fresh, huse.bound⟩

/-! ## Runs -/

theorem Sound.step (h : Sound s) {x : Action T Args} (hs : Util.step C s x = some s') :
    Sound s' := by
  cases x with
  | default a =>
      simp only [Util.step] at hs
      split at hs
      case h_1 ha =>
        obtain rfl := Option.some.inj hs
        exact h.default ha
      case h_2 => cases hs
  | construct a fn throws =>
      simp only [Util.step] at hs
      split at hs
      case h_1 ha =>
        obtain rfl := Option.some.inj hs
        cases hc : s.construct C a fn throws with
        | none => exact h
        | some s₁ => exact h.construct ha hc
      case h_2 => cases hs
  | assign a fn tmp throws =>
      simp only [Util.step] at hs
      split at hs
      case h_1 F ha htmp =>
        obtain rfl := Option.some.inj hs
        exact h.assign ha htmp
      case h_2 => cases hs
  | swap a b =>
      simp only [Util.step] at hs
      split at hs
      case h_1 F G ha hb =>
        obtain rfl := Option.some.inj hs
        exact h.swap ha hb
      case h_2 => cases hs
  | call a args =>
      simp only [Util.step] at hs
      split at hs
      case h_1 F ha =>
        obtain rfl := Option.some.inj hs
        exact h.call ha
      case h_2 => cases hs
  | destruct a =>
      simp only [Util.step] at hs
      split at hs
      case h_1 F ha =>
        obtain rfl := Option.some.inj hs
        exact h.destruct ha
      case h_2 => cases hs

theorem Sound.run (h : Sound s) {tr : List (State T × Action T Args)}
    (hrun : Transition.Run (Util.step C) s tr s') : Sound s' :=
  hrun.invariant (C := fun _ _ => True) h (fun hI _ hs => hI.step hs) (fun _ _ => trivial)

/-- No callable is destroyed twice, or used or destroyed after it was destroyed, and once there
are no Functions left all were destroyed exactly once. -/
structure State.Balanced [DecidableEq T] (s : State T) : Prop where
  proper : Proper s.log
  gone : (∀ a, s.function a = none) → ∀ o, .made o ∈ s.log → s.log.count (.destroyed o) = 1

theorem Sound.balanced [DecidableEq T] (h : Sound s) : s.Balanced where
  proper := h.owned.proper
  gone hnone _ ho :=
    h.owned.destroyed_once (fun a => by rw [State.held, hnone a, Option.bind_none]) ho

/-- What a Function is when it holds the callable in its storage, or none. -/
def State.Consistent (s : State T) (F : Function T) : Prop :=
  (F.invoker = none ∧ F.controller = none) ∨
    ∃ t, F.invoker = some t ∧ F.controller = some t ∧ F.storedFn.object.type = some t ∧
      Alive s.log F.storedFn.object

theorem Sound.consistent (h : Sound s) (ha : s.function a = some F) : s.Consistent F := by
  have hbound : F.Bound := h.bound ha
  cases hc : F.controller with
  | none => exact Or.inl ⟨hbound.invoker.trans hc, hc⟩
  | some t =>
      refine Or.inr ⟨t, hbound.invoker.trans hc, hc, hbound.type hc, h.owned.alive (i := a) ?_⟩
      rw [held_of_function ha, Function.held, hc]
      rfl

/-- **The lifetimes of the callables.** Take any run of a program that constructs, assigns, swaps,
calls and destroys Functions, where any constructor of a callable may throw. The two pointers of
a Function are null, or belong to the type of the callable in its storage, which is alive. Every
callable is destroyed exactly once by the time all Functions are gone, and not used after that.
A call of an empty Function throws `bad_function_call` and does nothing else, and an assignment
whose callable throws does nothing at all. -/
theorem callables_lifetime [DecidableEq T] {tr : List (State T × Action T Args)}
    (h : Transition.Run (step C) init tr s) :
    (∀ a F, s.function a = some F → s.Consistent F) ∧ s.Balanced ∧
      (∀ a F, s.function a = some F → F.toBool = false → ∀ args,
        s.call C a F args = (.badFunctionCall, s)) ∧
      ∀ a F fn tmp, s.function a = some F → s.assign C a F fn tmp true = (true, s) := by
  have hs : Sound s := sound_init.run h
  refine ⟨fun a F ha => hs.consistent ha, hs.balanced, fun a F ha hempty args => ?_,
    fun a F fn tmp _ => assign_throws⟩
  have hi : F.invoker = none := by
    rw [(hs.bound ha).invoker]
    simpa [Function.toBool] using hempty
  rw [State.call, hi]

/-- `test_store_lambda`, with a second Function that is swapped with the first and destroyed while
an assignment to the first throws. -/
theorem callables_lifetime_lambdas : ∃ tr s,
    Transition.Run (step (fun square : Bool => lambda fun x => if square then x * x else x * 2))
      init tr s ∧
      s.log = [.destroyed ⟨2, some false⟩, .used ⟨2, some false⟩, .destroyed ⟨1, some true⟩,
        .made ⟨2, some false⟩, .used ⟨1, some true⟩, .made ⟨1, some true⟩] ∧ s.Balanced := by
  have hexec : ((Transition.exec
      (step (fun square : Bool => lambda fun x => if square then x * x else x * 2))
      (fun _ _ => True) init
      [Action.construct 100 ⟨true, 500, [0]⟩ false, .call 100 5,
        .assign 100 ⟨false, 501, [0]⟩ 300 false, .default 200, .swap 100 200,
        .assign 100 ⟨true, 500, [0]⟩ 300 true, .destruct 100, .call 200 6, .destruct 200]).any
      fun s => decide (s.log = [.destroyed ⟨2, some false⟩, .used ⟨2, some false⟩,
        .destroyed ⟨1, some true⟩, .made ⟨2, some false⟩, .used ⟨1, some true⟩,
        .made ⟨1, some true⟩])) = true := by decide
  obtain ⟨tr, s, hrun, -, -, hs⟩ := Transition.exists_run_of_exec hexec
  exact ⟨tr, s, hrun, of_decide_eq_true hs, (callables_lifetime hrun).2.1⟩

end Bop.Util
