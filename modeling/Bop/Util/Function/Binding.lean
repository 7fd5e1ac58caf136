import Bop.Util.Function.Copy
import Mathlib.Algebra.Group.Nat.Defs

set_option autoImplicit false

/-! # What a Function is bound to

`operator=(Fn&&)` constructs the callable in the storage of a temporary and swaps the temporary
with the target, and `swap` exchanges the storages by their bytes. So the callables change their
addresses without their copy or move constructors. `binding_iff` says exactly when the Functions
do what they should after that: when the bytes that were moved do at the new address what they do
at the old one. In a program whose callables are all trivially relocatable they always do
(`Intact.binding`).
-/

namespace Bop.Util

variable {maxSize : Nat} {T Args Result : Type} {C : T → Callable maxSize Args Result}
  {s s' : State T} {a b tmp : Address} {F G : Function T} {fn : Argument T} {t : T}

/-! ## What the operations move -/

/-- What a Function holds does at the address `dst` what it does at `src`. -/
def Function.Relocates (C : T → Callable maxSize Args Result) (F : Function T)
    (src dst : Address) : Prop := ∀ t ∈ F.invoker, (C t).Relocates src dst F.storedFn.bytes

/-- What a Function holds can be destroyed at the address. -/
def Function.DestroyableAt (C : T → Callable maxSize Args Result) (F : Function T)
    (dst : Address) : Prop := ∀ t ∈ F.controller, (C t).destroyable dst F.storedFn.bytes = true

/-- The calls of a Function that was moved. -/
theorem Function.relocates_iff : F.Relocates C a b ↔
    ∀ argss, F.calls C b argss = F.calls C a argss := by
  unfold Function.Relocates Function.calls
  cases F.invoker with
  | none => simp
  | some t => simp [Callable.Relocates]

theorem swap_function_right : (s.swap a b F G).function b = some F := set_function_self

theorem swap_function_left (hab : a ≠ b) : (s.swap a b F G).function a = some G := by
  rw [State.swap, set_function_of_ne hab, set_function_self]

theorem destroyData_defined (hs : s.defined = true) :
    (s.destroyData C a F).defined = true ↔ F.DestroyableAt C a := by
  unfold State.destroyData Function.DestroyableAt
  cases F.controller with
  | none => simp [hs]
  | some t => simp [State.destroy, hs]

/-- An assignment that does not throw: the target has the bytes of the callable that was
constructed in the temporary, and the destructor of the temporary takes what the target held. -/
theorem assign_function (fn : Argument T) (ha : s.function a = some F)
    (htmp : s.function tmp = none) :
    ∃ G, (s.assign C a F fn tmp false).2.function a = some G ∧ G.invoker = some fn.type ∧
      G.storedFn.bytes = (C fn.type).copy fn.address fn.bytes tmp ∧
      (s.defined = true → ((s.assign C a F fn tmp false).2.defined = true ↔
        F.DestroyableAt C tmp)) := by
  have hne : a ≠ tmp := by
    rintro rfl
    rw [htmp] at ha
    cases ha
  obtain ⟨s₁, hc⟩ : ∃ s₁, s.construct C tmp fn false = some s₁ := ⟨_, rfl⟩
  obtain ⟨temporary, htemp, hi, hbytes, hdefined⟩ := construct_function_self hc
  have ha' : ((s₁.swap tmp a temporary F).destruct C tmp F).function a = some temporary := by
    rw [State.destruct, remove_function_of_ne hne, destroyData_function]
    exact swap_function_right
  rw [assign_eq hc htemp]
  exact ⟨temporary, ha', hi, hbytes, fun hs => destroyData_defined (hdefined.trans hs)⟩

/-- The bytes of an object are those of an object with its value at every other address. -/
def Callable.TriviallyRelocatable (c : Callable maxSize Args Result) : Prop :=
  ∀ {a b v}, c.Holds a b v → ∀ a', c.Holds a' b v

theorem lambda_triviallyRelocatable (f : Args → Result) : (lambda f).TriviallyRelocatable :=
  fun h _ => h

/-! ## When the Functions do what they should -/

/-- After `F = fn` without an exception, `F` does what a copy of `fn` does, iff the bytes of the copy
in the temporary can be moved to `F`, and what `F` held can be destroyed in the temporary. -/
theorem assign_calls_iff (hs : s.defined = true) (ha : s.function a = some F)
    (htmp : s.function tmp = none) {v : (C fn.type).Value}
    (hfn : (C fn.type).Holds fn.address fn.bytes v) :
    ((s.assign C a F fn tmp false).2.defined = true ∧ ∀ argss,
        (s.assign C a F fn tmp false).2.calls C a argss =
          ((C fn.type).evals v argss).map .returned) ↔
      (C fn.type).Relocates tmp a ((C fn.type).copy fn.address fn.bytes tmp) ∧
        F.DestroyableAt C tmp := by
  obtain ⟨F', ha', hi, hbytes, hdefined⟩ := assign_function (C := C) (s := s) fn ha htmp
  -- in the temporary, the copy does what it should
  have hcopy : ∀ argss, (C fn.type).calls tmp ((C fn.type).copy fn.address fn.bytes tmp) argss =
      ((C fn.type).evals v argss).map .returned :=
    fun argss => (C fn.type).calls_eq ((C fn.type).copy_holds hfn tmp) argss
  have hcalls : ∀ argss, (s.assign C a F fn tmp false).2.calls C a argss =
      (C fn.type).calls a ((C fn.type).copy fn.address fn.bytes tmp) argss := by
    intro argss
    rw [calls_of_invoker ha' hi, hbytes]
  rw [hdefined hs, and_comm]
  refine and_congr_left fun _ => forall_congr' fun argss => ?_
  rw [hcalls, hcopy]

/-- After `F.swap(G)`, `F` does what `G` did and `G` what `F` did, iff what they hold can be moved to
each other's address. -/
theorem swap_calls_iff (ha : s.function a = some F) (hb : s.function b = some G) :
    (∀ argss, (s.swap a b F G).calls C a argss = s.calls C b argss ∧
        (s.swap a b F G).calls C b argss = s.calls C a argss) ↔
      F.Relocates C a b ∧ G.Relocates C b a := by
  have hright : ∀ argss, (s.swap a b F G).calls C b argss = F.calls C b argss :=
    State.calls_eq swap_function_right
  have hleft : ∀ argss, (s.swap a b F G).calls C a argss = G.calls C a argss := by
    by_cases hab : a = b
    · subst hab
      obtain rfl : F = G := Option.some.inj (ha.symm.trans hb)
      exact hright
    · exact State.calls_eq (swap_function_left hab)
  rw [Function.relocates_iff, Function.relocates_iff, and_comm, ← forall_and]
  refine forall_congr' fun argss => ?_
  rw [hleft, hright, State.calls_eq ha, State.calls_eq hb]

/-- **When a Function does what it is bound to.** Take Functions `F` and `G` in any state, and a
callable `fn` of any type that the constructor admits, with the value `v`.

* After `F = fn` without an exception, `F` does what a copy of `fn` does, iff the bytes of the
  copy in the temporary can be moved to `F`, and what `F` held can be destroyed in the temporary.
* After `F.swap(G)`, `F` does what `G` did and `G` what `F` did, iff what they hold can be moved
  to each other's address. -/
theorem binding_iff (hs : s.defined = true) (ha : s.function a = some F)
    (hb : s.function b = some G) (htmp : s.function tmp = none) {v : (C fn.type).Value}
    (hfn : (C fn.type).Holds fn.address fn.bytes v) :
    (((s.assign C a F fn tmp false).2.defined = true ∧ ∀ argss,
        (s.assign C a F fn tmp false).2.calls C a argss =
          ((C fn.type).evals v argss).map .returned) ↔
      (C fn.type).Relocates tmp a ((C fn.type).copy fn.address fn.bytes tmp) ∧
        F.DestroyableAt C tmp) ∧
    ((∀ argss, (s.swap a b F G).calls C a argss = s.calls C b argss ∧
        (s.swap a b F G).calls C b argss = s.calls C a argss) ↔
      F.Relocates C a b ∧ G.Relocates C b a) :=
  ⟨assign_calls_iff hs ha htmp hfn, swap_calls_iff ha hb⟩

/-- `test_store_lambda`: the second lambda is moved from the temporary. -/
theorem binding_iff_lambdas : (((((init.set 100 ⟨some true, some true, [0], 1, some true⟩).assign
    (fun square : Bool => lambda fun x : Nat => if square then x * x else x * 2) 100
    ⟨some true, some true, [0], 1, some true⟩ ⟨false, 501, [0]⟩ 200 false).2.calls
    (fun square : Bool => lambda fun x : Nat => if square then x * x else x * 2) 100 [6]))) =
      [.returned 12] := by
  have hs := @binding_iff _ _ _ _ (fun square : Bool => lambda fun x : Nat =>
    if square then x * x else x * 2) (init.set 100 ⟨some true, some true, [0], 1, some true⟩)
    100 100 200 _ _ ⟨false, 501, [0]⟩ rfl rfl rfl rfl () rfl
  have hlambda : (lambda fun x : Nat => x * 2).Holds 200 [0] () := rfl
  have hmoves : (lambda fun x : Nat => x * 2).Relocates 200 100 [0] :=
    Callable.relocates hlambda (lambda_triviallyRelocatable _ hlambda 100)
  exact (hs.1.mpr ⟨hmoves, fun _ _ => rfl⟩).2 [6]

/-! ## Trivially relocatable callables -/

/-- A program hands over objects. -/
def Action.Represented (C : T → Callable maxSize Args Result) : Action T Args → Prop
  | .construct _ fn _ | .assign _ fn _ _ => ∃ v, (C fn.type).Holds fn.address fn.bytes v
  | _ => True

/-- What the Functions hold are objects at their addresses. -/
structure Intact (C : T → Callable maxSize Args Result) (s : State T) : Prop where
  sound : Sound s
  defined : s.defined = true
  represented : ∀ {a F}, s.function a = some F → F.Represented C a

theorem intact_init : Intact C init := ⟨sound_init, rfl, fun h => nomatch h⟩

theorem destroyableAt_of_represented (h : F.Represented C a) : F.DestroyableAt C a := by
  intro t ht
  obtain ⟨v, hv⟩ := h ht
  exact (C t).destroyable_eq hv

theorem represented_move (hC : ∀ t, (C t).TriviallyRelocatable) (h : F.Represented C a)
    (b : Address) : F.Represented C b := by
  intro t ht
  obtain ⟨v, hv⟩ := h ht
  exact ⟨v, hC t hv b⟩

theorem relocates_of_represented (hC : ∀ t, (C t).TriviallyRelocatable)
    (h : F.Represented C a) (hF : F.Bound) (b : Address) : F.Relocates C a b := by
  intro t ht
  obtain ⟨v, hv⟩ := h (hF.invoker ▸ ht)
  exact Callable.relocates hv (hC t hv b)

/-- Only the Function at one address was written. -/
theorem represented_set (h : ∀ {b G}, s.function b = some G → G.Represented C b)
    (hF : F.Represented C a) {b : Address} {G : Function T}
    (hG : (s.set a F).function b = some G) : G.Represented C b := by
  by_cases hb : b = a
  · subst hb
    rw [set_function_self] at hG
    exact Option.some.inj hG ▸ hF
  · rw [set_function_of_ne hb] at hG
    exact h hG

theorem represented_remove (h : ∀ {b G}, s.function b = some G → G.Represented C b)
    {b : Address} {G : Function T} (hG : (s.remove a).function b = some G) :
    G.Represented C b := by
  by_cases hb : b = a
  · rw [hb, remove_function_self] at hG
    cases hG
  · rw [remove_function_of_ne hb] at hG
    exact h hG

theorem Intact.construct (h : Intact C s) (ha : s.function a = none) {throws : Bool}
    (hfn : ∃ v, (C fn.type).Holds fn.address fn.bytes v)
    (hs : s.construct C a fn throws = some s') : Intact C s' := by
  refine ⟨h.sound.construct ha hs, ?_, ?_⟩
  · obtain ⟨-, -, -, -, hdefined⟩ := construct_function_self hs
    exact hdefined.trans h.defined
  · unfold State.construct at hs
    split at hs
    case isTrue => cases hs
    case isFalse =>
      obtain rfl := Option.some.inj hs
      refine represented_set h.represented fun ht => ?_
      obtain rfl := Option.some.inj ht
      exact hfn.imp fun v hv => (C fn.type).copy_holds hv a

theorem Intact.destruct (h : Intact C s) (ha : s.function a = some F) :
    Intact C (s.destruct C a F) where
  sound := h.sound.destruct ha
  defined := (destroyData_defined h.defined).mpr (destroyableAt_of_represented (h.represented ha))
  represented := represented_remove fun hG => h.represented (destroyData_function ▸ hG)

theorem Intact.swap (hC : ∀ t, (C t).TriviallyRelocatable) (h : Intact C s)
    (ha : s.function a = some F) (hb : s.function b = some G) : Intact C (s.swap a b F G) where
  sound := h.sound.swap ha hb
  defined := h.defined
  represented :=
    represented_set (represented_set h.represented (represented_move hC (h.represented hb) a))
      (represented_move hC (h.represented ha) b)

theorem Intact.assign (hC : ∀ t, (C t).TriviallyRelocatable) (h : Intact C s)
    (ha : s.function a = some F) (htmp : s.function tmp = none) {throws : Bool}
    (hfn : ∃ v, (C fn.type).Holds fn.address fn.bytes v) :
    Intact C (s.assign C a F fn tmp throws).2 := by
  have hne : tmp ≠ a := by
    rintro rfl
    rw [htmp] at ha
    cases ha
  cases hc : s.construct C tmp fn throws with
  | none =>
      have hs : s.assign C a F fn tmp throws = (true, s) := by rw [State.assign, hc]
      rw [hs]
      exact h
  | some s₁ =>
      obtain ⟨temporary, htemp, -⟩ := construct_function_self hc
      rw [assign_eq hc htemp]
      have ha₁ : s₁.function a = some F := (construct_function_of_ne hc hne.symm).trans ha
      exact ((h.construct htmp hfn hc).swap hC htemp ha₁).destruct (swap_function_left hne)

theorem Intact.call (h : Intact C s) (ha : s.function a = some F) (args : Args) :
    Intact C (s.call C a F args).2 := by
  have hsound : Sound (s.call C a F args).2 := h.sound.call ha
  cases hi : F.invoker with
  | none =>
      have hcall : s.call C a F args = (.badFunctionCall, s) := by rw [State.call, hi]
      rw [hcall]
      exact h
  | some t =>
      have hc : F.controller = some t := (h.sound.bound ha).invoker ▸ hi
      obtain ⟨v, hv⟩ := h.represented ha hc
      obtain ⟨bytes, hinvoke, hholds⟩ := (C t).invoke_eq hv args
      have hcall : s.call C a F args = (.returned ((C t).eval v args).1,
          (s.record (.used F.storedFn.object)).set a
            { F with storedFn := { F.storedFn with bytes := bytes } }) := by
        simp only [State.call, hi, hinvoke]
      rw [hcall] at hsound ⊢
      refine ⟨hsound, h.defined, represented_set (s := s.record (.used F.storedFn.object))
        h.represented fun ht => ?_⟩
      obtain rfl := Option.some.inj (hc.symm.trans ht)
      exact ⟨_, hholds⟩

/-- One operation. -/
theorem Intact.step (hC : ∀ t, (C t).TriviallyRelocatable) (h : Intact C s)
    {x : Action T Args} (hx : x.Represented C) (hs : Util.step C s x = some s') :
    Intact C s' := by
  cases x with
  | default a =>
      simp only [Util.step] at hs
      split at hs
      case h_1 ha =>
        obtain rfl := Option.some.inj hs
        exact ⟨h.sound.default ha, h.defined, represented_set h.represented fun ht => by cases ht⟩
      case h_2 => cases hs
  | construct a fn throws =>
      simp only [Util.step] at hs
      split at hs
      case h_1 ha =>
        obtain rfl := Option.some.inj hs
        cases hc : s.construct C a fn throws with
        | none => exact h
        | some s₁ => exact h.construct ha hx hc
      case h_2 => cases hs
  | assign a fn tmp throws =>
      simp only [Util.step] at hs
      split at hs
      case h_1 F ha htmp =>
        obtain rfl := Option.some.inj hs
        exact h.assign hC ha htmp hx
      case h_2 => cases hs
  | swap a b =>
      simp only [Util.step] at hs
      split at hs
      case h_1 F G ha hb =>
        obtain rfl := Option.some.inj hs
        exact h.swap hC ha hb
      case h_2 => cases hs
  | call a args =>
      simp only [Util.step] at hs
      split at hs
      case h_1 F ha =>
        obtain rfl := Option.some.inj hs
        exact h.call ha args
      case h_2 => cases hs
  | destruct a =>
      simp only [Util.step] at hs
      split at hs
      case h_1 F ha =>
        obtain rfl := Option.some.inj hs
        exact h.destruct ha
      case h_2 => cases hs

theorem Intact.run (hC : ∀ t, (C t).TriviallyRelocatable) {tr : List (State T × Action T Args)}
    (hrun : Transition.Run (Util.step C) init tr s) (hx : ∀ p ∈ tr, p.2.Represented C) :
    Intact C s :=
  hrun.invariant (C := fun _ x => x.Represented C) intact_init
    (fun hI hx hs => hI.step hC hx hs) hx

/-- **Trivially relocatable callables.** In a program that hands over only such callables
(`Intact.run`), an assignment and a swap make the Functions do what they should. -/
theorem Intact.binding (hC : ∀ t, (C t).TriviallyRelocatable) (h : Intact C s)
    (ha : s.function a = some F) (hb : s.function b = some G) (htmp : s.function tmp = none)
    {v : (C fn.type).Value} (hfn : (C fn.type).Holds fn.address fn.bytes v) :
    ((s.assign C a F fn tmp false).2.defined = true ∧ ∀ argss,
        (s.assign C a F fn tmp false).2.calls C a argss =
          ((C fn.type).evals v argss).map .returned) ∧
      ∀ argss, (s.swap a b F G).calls C a argss = s.calls C b argss ∧
        (s.swap a b F G).calls C b argss = s.calls C a argss := by
  have hF : F.Represented C a := h.represented ha
  have hG : G.Represented C b := h.represented hb
  constructor
  · have hcopy := (C fn.type).copy_holds hfn tmp
    exact (assign_calls_iff h.defined ha htmp hfn).mpr
      ⟨Callable.relocates hcopy (hC _ hcopy a),
        destroyableAt_of_represented (represented_move hC hF tmp)⟩
  · exact (swap_calls_iff ha hb).mpr ⟨relocates_of_represented hC hF (h.sound.bound ha) b,
      relocates_of_represented hC hG (h.sound.bound hb) a⟩

/-! ## A callable that refers to its own address -/

/-- The bytes of a pointer, the lowest first. -/
def pointer (a : Address) : Bytes := (List.range 8).map fun k => UInt8.ofNat (a / 256 ^ k)

/-- A callable with a pointer to itself, through which it reads its value when it is called; the
copy constructor sets the pointer of the copy. To read through a pointer to another address is
undefined, for no such callable needs to be there. -/
def selfReferential : Callable 64 Unit UInt8 where
  size := 16
  align := 8
  size_le := by decide
  align_le := by decide
  Value := UInt8
  eval v _ := (v, v)
  Holds a b v := b = pointer a ++ v :: List.replicate 7 0
  invoke a b _ := if b.take 8 = pointer a then some ((b.drop 8).headD 0, b) else none
  copy _ b a' := pointer a' ++ b.drop 8
  destroyable _ _ := true
  length_eq h := by simp [h, pointer]
  invoke_eq {a b v} h _ := by
    refine ⟨b, ?_, h⟩
    simp [h, pointer]
  copy_holds {a b v} h a' := by simp [h, pointer]
  destroyable_eq _ := rfl

/-- An empty Function does not do what the callable does that is assigned to it. -/
theorem not_binding : selfReferential.Holds 300 (pointer 300 ++ 5 :: List.replicate 7 0) (5 : UInt8) ∧
    ((init.set 100 {}).assign (fun _ : Unit => selfReferential) 100 {}
      ⟨(), 300, pointer 300 ++ 5 :: List.replicate 7 0⟩ 200 false).2.calls
        (fun _ => selfReferential) 100 [()] ≠ (selfReferential.evals (5 : UInt8) [()]).map .returned :=
  ⟨rfl, by decide⟩

end Bop.Util
