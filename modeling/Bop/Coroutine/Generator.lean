import Bop.Basic.Transition
import Bop.Coroutine.Handle

set_option autoImplicit false

/-! # Generators

`Generator<T>` (`job/co_generator.h`, `job/co_generator.inl`) owns the frame of a coroutine that
yields values of `T`, and its iterators resume the coroutine.

The body of a coroutine is what `next` makes of it: from a suspension point it runs to the next
`co_yield`, or it returns.
-/

namespace Bop.Generator

open Coroutine (Handle Heap resume_of_frame done_of_frame)

/-- Where a coroutine is suspended. -/
inductive Point
  | initial     -- initial_suspend
  | yielded     -- yield_value
  | final       -- final_suspend
  deriving DecidableEq

/-- The frame of a coroutine, with its promise. -/
structure Frame (B T : Type) where
  point : Point := .initial
  body : B
  currentValue : Option T := none -- m_CurrentValue
  deriving DecidableEq

section Iter

variable {B T : Type} (next : B → Option (T × B))

def Frame.done (f : Frame B T) : Bool := f.point = .final

/-- The body runs on from its suspension point. -/
def Frame.resume (f : Frame B T) : Frame B T :=
  match next f.body with
  | some (x, b) => { point := .yielded, body := b, currentValue := some x } -- yield_value(x)
  | none => { f with point := .final, currentValue := none } -- return_void()

/-- `Generator::begin`; the iterator has the handle of the generator. -/
def begin (h : Heap (Frame B T)) (c : Handle) : Heap (Frame B T) × Handle :=
  (if c.isSome then h.resume Frame.done (Frame.resume next) c else h, c)

/-- `Iter::operator++` -/
def Iter.increment (h : Heap (Frame B T)) (it : Handle) : Heap (Frame B T) × Handle :=
  let (done, h) := (h.resume Frame.done (Frame.resume next) it).done Frame.done it
  (h, if done then none else it)

/-- `Iter::operator==(std::default_sentinel_t)` -/
def Iter.atEnd (h : Heap (Frame B T)) (it : Handle) : Bool × Heap (Frame B T) :=
  if it.isNone then (true, h) else h.done Frame.done it

/-- `Iter::operator*`; undefined where the promise has no value. -/
def Iter.value (h : Heap (Frame B T)) (it : Handle) : Option T × Heap (Frame B T) :=
  match (it.bind h.frame).bind Frame.currentValue with
  | some x => (some x, h)
  | none => (none, h.undefined)

/-- `Iter::operator->`; a null pointer where the promise has no value. -/
def Iter.arrow (h : Heap (Frame B T)) (it : Handle) : Option T × Heap (Frame B T) :=
  match it.bind h.frame with
  | some f => (f.currentValue, h)
  | none => (none, h.undefined)

/-! ## Bodies that end -/

/-- The body yields the values of the list and returns. -/
def Produces : B → List T → Prop
  | b, [] => next b = none
  | b, x :: xs => ∃ b', next b = some (x, b') ∧ Produces b' xs

variable {next} {h : Heap (Frame B T)} {n : Nat} {f : Frame B T} {x : T} {xs : List T}

theorem value_of_frame (hn : h.frame n = some f) (hx : f.currentValue = some x) :
    Iter.value h (some n) = (some x, h) := by
  simp [Iter.value, hn, hx]

/-! The operations on a coroutine that is not at its end. -/

theorem begin_of_frame (hn : h.frame n = some f) (hf : f.done = false) :
    begin next h (some n) =
      ({ h with frame := Function.update h.frame n (some (f.resume next)) }, some n) := by
  rw [begin, Option.isSome_some, if_pos rfl, resume_of_frame hn hf]

theorem increment_of_frame (hn : h.frame n = some f) (hf : f.done = false) :
    Iter.increment next h (some n) =
      ({ h with frame := Function.update h.frame n (some (f.resume next)) },
        if (f.resume next).done then none else some n) := by
  rw [Iter.increment, resume_of_frame hn hf, done_of_frame (Function.update_self ..)]

theorem atEnd_of_frame (hn : h.frame n = some f) : Iter.atEnd h (some n) = (f.done, h) := by
  rw [Iter.atEnd, Option.isNone_some, if_neg Bool.false_ne_true, done_of_frame hn]

theorem resume_of_produces_nil (h : Produces next f.body []) :
    f.resume next = { f with point := .final, currentValue := none } := by
  have hnone : next f.body = none := h
  rw [Frame.resume, hnone]

theorem resume_of_produces_cons (h : Produces next f.body (x :: xs)) :
    ∃ b, f.resume next = { point := .yielded, body := b, currentValue := some x } ∧
      Produces next b xs := by
  obtain ⟨b, hb, hxs⟩ := h
  refine ⟨b, ?_, hxs⟩
  rw [Frame.resume, hb]

end Iter

/-- The body that yields the values of a list. -/
def uncons {T : Type} : List T → Option (T × List T)
  | [] => none
  | x :: xs => some (x, xs)

end Bop.Generator
