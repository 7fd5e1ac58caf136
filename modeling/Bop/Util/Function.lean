import Bop.Basic.Lifetime
import Bop.Basic.Transition

set_option autoImplicit false

/-! # util::Function

`Function<R(Ts...), N>` (`util/function.h`, `util/function.inl`) stores a callable of any type
that fits in `m_StoredFn`, with two function pointers that know the type: `m_Invoker` to call it
and `m_Controller` to copy and destroy it.

A callable type is a `Callable`: what its special members and its call operator do to the bytes
of an object at an address. The bytes may depend on the address. The state has the Functions of
a program by their addresses, and a record of the callables constructed in a storage, used and
destroyed. `step` runs one operation of a program on its Functions.
-/

namespace Bop.Util

open Lifetime (Event)

/-- The address of a Function, or of the callable that is handed to one. -/
abbrev Address := Nat

abbrev Bytes := List UInt8

/-- `sizeof(Storage)`: `t_MaxSize` less the two function pointers, in units of the alignment. -/
def sizeofStorage (maxSize : Nat) : Nat := (maxSize - 8 - 8 + 7) / 8 * 8

/-- `alignof(Storage)` -/
def alignofStorage : Nat := 8

/-- What a call of a Function ends in. -/
inductive Outcome (Result : Type)
  | returned (r : Result)
  | badFunctionCall
  | undefined
  deriving DecidableEq

/-! ## Callable types -/

/-- A callable type that the two static assertions of the constructor admit. -/
structure Callable (maxSize : Nat) (Args Result : Type) where
  size : Nat
  align : Nat
  size_le : size ≤ sizeofStorage maxSize
  align_le : align ≤ alignofStorage
  /-- what an object holds, wherever it is -/
  Value : Type
  /-- what a call returns and makes of the value -/
  eval : Value → Args → Result × Value
  /-- the bytes are those of an object at the address that holds the value -/
  Holds : Address → Bytes → Value → Prop
  /-- the call operator; `none` where its behavior is undefined -/
  invoke : Address → Bytes → Args → Option (Result × Bytes)
  /-- the bytes of the copy of an object that the copy constructor makes at another address -/
  copy : Address → Bytes → Address → Bytes
  /-- whether the behavior of the destructor is defined -/
  destroyable : Address → Bytes → Bool
  length_eq : ∀ {a b v}, Holds a b v → b.length = size
  invoke_eq : ∀ {a b v}, Holds a b v → ∀ args,
    ∃ b', invoke a b args = some ((eval v args).1, b') ∧ Holds a b' (eval v args).2
  copy_holds : ∀ {a b v}, Holds a b v → ∀ a', Holds a' (copy a b a') v
  destroyable_eq : ∀ {a b v}, Holds a b v → destroyable a b = true

section Callable

variable {maxSize : Nat} {Args Result : Type}

/-- What the calls of an object return, one after the other. -/
def Callable.evals (c : Callable maxSize Args Result) : c.Value → List Args → List Result
  | _, [] => []
  | v, args :: rest => (c.eval v args).1 :: c.evals (c.eval v args).2 rest

/-- The same for the bytes of an object at an address. -/
def Callable.calls (c : Callable maxSize Args Result) (a : Address) :
    Bytes → List Args → List (Outcome Result)
  | _, [] => []
  | b, args :: rest =>
      match c.invoke a b args with
      | some (r, b') => .returned r :: c.calls a b' rest
      | none => .undefined :: c.calls a b rest

/-- The bytes do at the address `dst` what they do at `src`. -/
def Callable.Relocates (c : Callable maxSize Args Result) (src dst : Address) (b : Bytes) :
    Prop := ∀ argss, c.calls dst b argss = c.calls src b argss

variable {c : Callable maxSize Args Result} {a : Address} {b : Bytes} {v : c.Value}

/-- An object does what its value says. -/
theorem Callable.calls_eq (h : c.Holds a b v) (argss : List Args) :
    c.calls a b argss = (c.evals v argss).map .returned := by
  induction argss generalizing b v with
  | nil => rfl
  | cons args rest ih =>
      obtain ⟨b', hinvoke, hb'⟩ := c.invoke_eq h args
      calc c.calls a b (args :: rest)
          = .returned (c.eval v args).1 :: c.calls a b' rest := by
            rw [Callable.calls, hinvoke]
        _ = .returned (c.eval v args).1 :: (c.evals (c.eval v args).2 rest).map .returned := by
            rw [ih hb']
        _ = (c.evals v (args :: rest)).map .returned := rfl

/-- Where the bytes of an object do not depend on its address, they can be moved. -/
theorem Callable.relocates (h : c.Holds a b v) {a' : Address} (h' : c.Holds a' b v) :
    c.Relocates a a' b := by
  intro argss
  rw [c.calls_eq h, c.calls_eq h']

end Callable

/-- The type of a lambda that captures nothing. -/
def lambda {Args Result : Type} (f : Args → Result) : Callable 64 Args Result where
  size := 1
  align := 1
  size_le := by decide
  align_le := by decide
  Value := Unit
  eval _ args := (f args, ())
  Holds _ b _ := b.length = 1
  invoke _ b args := some (f args, b)
  copy _ b _ := b
  destroyable _ _ := true
  length_eq := id
  invoke_eq h _ := ⟨_, rfl, h⟩
  copy_holds h _ := h
  destroyable_eq _ := rfl

/-! ## The state -/

section State

variable {T : Type}

/-- The callable whose bytes are in a storage; the code does not know it. The number `0` stands
for the indeterminate bytes of a storage in which no callable was constructed. -/
structure Object (T : Type) where
  number : Nat := 0
  type : Option T := none
  deriving DecidableEq

structure Storage (T : Type) where
  bytes : Bytes := []
  object : Object T := {}
  deriving DecidableEq

/-- `class Function`; a pointer to `invoke<Fn>` or `control<Fn>` is named by its `Fn`. -/
structure Function (T : Type) where
  invoker : Option T := none
  controller : Option T := none
  storedFn : Storage T := {}
  deriving DecidableEq

/-- `operator bool` -/
def Function.toBool (F : Function T) : Bool := F.controller.isSome

/-- The callable handed to a constructor or an assignment. -/
structure Argument (T : Type) where
  type : T
  address : Address
  bytes : Bytes

structure State (T : Type) where
  function : Address → Option (Function T)
  /-- the number of the next callable constructed in a storage -/
  nextObject : Nat
  /-- no operation so far had undefined behavior -/
  defined : Bool
  /-- newest first -/
  log : List (Event (Object T))

/-- No Function exists. -/
def init : State T := ⟨fun _ => none, 1, true, []⟩

def State.record (s : State T) (e : Event (Object T)) : State T := { s with log := e :: s.log }

def State.set (s : State T) (a : Address) (F : Function T) : State T :=
  { s with function := Function.update s.function a (some F) }

def State.remove (s : State T) (a : Address) : State T :=
  { s with function := Function.update s.function a none }

section

variable {s : State T} {a b : Address} {F : Function T}

@[simp] theorem set_function_self : (s.set a F).function a = some F := Function.update_self ..

@[simp] theorem set_function_of_ne (hb : b ≠ a) : (s.set a F).function b = s.function b :=
  Function.update_of_ne hb ..

@[simp] theorem remove_function_self : (s.remove a).function a = none := Function.update_self ..

@[simp] theorem remove_function_of_ne (hb : b ≠ a) : (s.remove a).function b = s.function b :=
  Function.update_of_ne hb ..

end

/-- `new (&m_StoredFn) Fn(..)`, with the bytes that the constructor writes. -/
def State.placementNew (s : State T) (t : T) (b : Bytes) : Storage T × State T :=
  let object : Object T := ⟨s.nextObject, some t⟩
  (⟨b, object⟩, { s.record (.made object) with nextObject := s.nextObject + 1 })

end State

/-! ## The operations -/

section Operations

variable {maxSize : Nat} {T Args Result : Type} (C : T → Callable maxSize Args Result)

/-- `control<Fn>(src, dst, clone)`; `none` if the copy constructor throws. -/
def State.clone (s : State T) (t : T) (src : Address) (stored : Storage T) (dst : Address)
    (throws : Bool) : Option (Storage T) × State T :=
  let s := s.record (.used stored.object)
  if throws then (none, s)
  else
    let (storage, s) := s.placementNew t ((C t).copy src stored.bytes dst)
    (some storage, s)

/-- `control<Fn>(src, nullptr, destroy)` -/
def State.destroy (s : State T) (t : T) (src : Address) (stored : Storage T) : State T :=
  { s.record (.destroyed stored.object) with
    defined := s.defined && (C t).destroyable src stored.bytes }

/-- `destroy_data`, behind a test of `m_Controller`. -/
def State.destroyData (s : State T) (a : Address) (F : Function T) : State T :=
  match F.controller with
  | some t => s.destroy C t a F.storedFn
  | none => s

/-- `~Function()` -/
def State.destruct (s : State T) (a : Address) (F : Function T) : State T :=
  (s.destroyData C a F).remove a

/-- `Function(Fn&& fn)`; `none` if the constructor of the callable throws. -/
def State.construct (s : State T) (a : Address) (fn : Argument T) (throws : Bool) :
    Option (State T) :=
  if throws then none
  else
    let (storage, s) := s.placementNew fn.type ((C fn.type).copy fn.address fn.bytes a)
    some (s.set a { invoker := some fn.type, controller := some fn.type, storedFn := storage })

/-- `swap`; the three members are exchanged one after the other, `m_StoredFn` by its bytes. -/
def State.swap (s : State T) (a b : Address) (F G : Function T) : State T :=
  (s.set a { invoker := G.invoker, controller := G.controller, storedFn := G.storedFn }).set b
    { invoker := F.invoker, controller := F.controller, storedFn := F.storedFn }

/-- `operator=(Fn&& fn)`, with the temporary at the address `tmp`. -/
def State.assign (s : State T) (a : Address) (F : Function T) (fn : Argument T) (tmp : Address)
    (throws : Bool) : Bool × State T :=
  match s.construct C tmp fn throws with
  | none => (true, s)
  | some s =>
      match s.function tmp with
      | none => (false, s)
      | some temporary =>
          -- Function(std::forward<Fn>(fn)).swap(*this);
          (false, (s.swap tmp a temporary F).destruct C tmp F)

/-- `operator=(const Function& fn)`; `true` if the copy constructor of the callable throws. -/
def State.copyAssign (s : State T) (a b : Address) (F G : Function T) (throws : Bool) :
    Bool × State T :=
  let s := if F.toBool then s.destroyData C a F else s
  match G.controller with
  | some t =>
      match s.clone C t b G.storedFn a throws with
      | (none, s) => (true, s)
      | (some storage, s) =>
          (false, s.set a { invoker := G.invoker, controller := G.controller, storedFn := storage })
  | none => (false, s.set a { F with invoker := none, controller := none })

/-- `operator=(nullptr)` -/
def State.nullAssign (s : State T) (a : Address) (F : Function T) : State T :=
  if F.toBool then
    (s.destroyData C a F).set a { F with invoker := none, controller := none }
  else s

/-- `operator()` -/
def State.call (s : State T) (a : Address) (F : Function T) (args : Args) :
    Outcome Result × State T :=
  match F.invoker with
  | none => (.badFunctionCall, s)
  | some t =>
      let s := s.record (.used F.storedFn.object)
      match (C t).invoke a F.storedFn.bytes args with
      | some (r, b) => (.returned r, s.set a { F with storedFn := { F.storedFn with bytes := b } })
      | none => (.undefined, { s with defined := false })

/-- What the calls of the Function at an address end in, one after the other. -/
def State.calls (s : State T) (a : Address) : List Args → List (Outcome Result)
  | [] => []
  | args :: rest =>
      match s.function a with
      | none => []
      | some F => (s.call C a F args).1 :: (s.call C a F args).2.calls a rest

/-- What they end in, by the pointers and the storage of the Function. -/
def Function.calls (F : Function T) (a : Address) (argss : List Args) : List (Outcome Result) :=
  match F.invoker with
  | none => argss.map fun _ => .badFunctionCall
  | some t => (C t).calls a F.storedFn.bytes argss

section Calls

variable {C} {s : State T} {a : Address} {F : Function T}

theorem calls_of_empty (ha : s.function a = some F) (hi : F.invoker = none)
    (argss : List Args) : s.calls C a argss = argss.map fun _ => .badFunctionCall := by
  induction argss with
  | nil => rfl
  | cons args rest ih =>
      have hcall : s.call C a F args = (.badFunctionCall, s) := by rw [State.call, hi]
      simp only [State.calls, ha, hcall, List.map_cons, ih]

theorem calls_of_invoker {t : T} (ha : s.function a = some F) (hi : F.invoker = some t)
    (argss : List Args) : s.calls C a argss = (C t).calls a F.storedFn.bytes argss := by
  induction argss generalizing s F with
  | nil => rfl
  | cons args rest ih =>
      cases hinvoke : (C t).invoke a F.storedFn.bytes args with
      | none =>
          have hcall : s.call C a F args =
              (.undefined, { s.record (.used F.storedFn.object) with defined := false }) := by
            simp only [State.call, hi, hinvoke]
          simp only [State.calls, ha, hcall, Callable.calls, hinvoke]
          exact congrArg (List.cons _) (ih ha hi)
      | some p =>
          obtain ⟨r, bytes⟩ := p
          have hcall : s.call C a F args = (.returned r, (s.record (.used F.storedFn.object)).set a
              { F with storedFn := { F.storedFn with bytes := bytes } }) := by
            simp only [State.call, hi, hinvoke]
          simp only [State.calls, ha, hcall, Callable.calls, hinvoke]
          exact congrArg (List.cons _) (ih set_function_self hi)

theorem State.calls_eq (ha : s.function a = some F) (argss : List Args) :
    s.calls C a argss = F.calls C a argss := by
  unfold Function.calls
  cases hi : F.invoker with
  | none => exact calls_of_empty ha hi argss
  | some t => exact calls_of_invoker ha hi argss

end Calls

section Assign

variable {C} {s s' : State T} {a b tmp : Address} {F : Function T} {fn : Argument T}
  {throws : Bool}

theorem destroyData_function : (s.destroyData C a F).function = s.function := by
  unfold State.destroyData
  split
  · rfl
  · rfl

theorem construct_function_self (hs : s.construct C a fn throws = some s') :
    ∃ F, s'.function a = some F ∧ F.invoker = some fn.type ∧
      F.storedFn.bytes = (C fn.type).copy fn.address fn.bytes a ∧ s'.defined = s.defined := by
  unfold State.construct at hs
  split at hs
  case isTrue => cases hs
  case isFalse =>
    obtain rfl := Option.some.inj hs
    exact ⟨_, set_function_self, rfl, rfl, rfl⟩

theorem construct_function_of_ne (hs : s.construct C a fn throws = some s') (hb : b ≠ a) :
    s'.function b = s.function b := by
  unfold State.construct at hs
  split at hs
  case isTrue => cases hs
  case isFalse =>
    obtain rfl := Option.some.inj hs
    exact set_function_of_ne hb

/-- The temporary is constructed, swapped with the target and destroyed. -/
theorem assign_eq (hs : s.construct C tmp fn throws = some s') {temporary : Function T}
    (htmp : s'.function tmp = some temporary) : s.assign C a F fn tmp throws =
      (false, (s'.swap tmp a temporary F).destruct C tmp F) := by
  rw [State.assign, hs]
  simp only [htmp]

/-- If the constructor of the callable throws, nothing happened. -/
theorem assign_throws : s.assign C a F fn tmp true = (true, s) := rfl

end Assign

/-! ## Programs -/

/-- What a program does to its Functions. -/
inductive Action (T Args : Type)
  /-- `Function()` -/
  | default (a : Address)
  | construct (a : Address) (fn : Argument T) (throws : Bool)
  | assign (a : Address) (fn : Argument T) (tmp : Address) (throws : Bool)
  | swap (a b : Address)
  | call (a : Address) (args : Args)
  | destruct (a : Address)

/-- One operation, on Functions that exist. -/
def step (s : State T) : Action T Args → Option (State T)
  | .default a =>
      match s.function a with
      | none => some (s.set a {})
      | some _ => none
  | .construct a fn throws =>
      match s.function a with
      | none => some ((s.construct C a fn throws).getD s)
      | some _ => none
  | .assign a fn tmp throws =>
      match s.function a, s.function tmp with
      | some F, none => some (s.assign C a F fn tmp throws).2
      | _, _ => none
  | .swap a b =>
      match s.function a, s.function b with
      | some F, some G => some (s.swap a b F G)
      | _, _ => none
  | .call a args =>
      match s.function a with
      | some F => some (s.call C a F args).2
      | none => none
  | .destruct a =>
      match s.function a with
      | some F => some (s.destruct C a F)
      | none => none

end Operations

end Bop.Util
