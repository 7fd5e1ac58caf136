import Bop.Coroutine.Generator

set_option autoImplicit false

/-! # The iterators of a generator

The body of a coroutine may throw. `unhandled_exception` throws the exception again, so it leaves
`begin` or `operator++`, and the coroutine is at its final suspension then. Iterators can be copied,
and an old one can be used after a new one was made by `begin`: all of them refer to the same
coroutine.

A `Cursor` says what this amounts to: one sequence that all the iterators read at the same place.
`iterators_follow` says that a program with any number of iterators has no undefined behavior iff
the cursor allows what it does, and that it sees what the cursor shows then.
-/

namespace Bop.Generator.Iterators

open Coroutine (Handle Heap resume_of_frame resume_of_done done_of_frame destroy_of_frame)

/-! ## Bodies that throw -/

/-- How a body that was resumed stops: at a `co_yield`, at its end, or by an exception. -/
inductive Resumption (B T E : Type)
  | yielded (x : T) (b : B)
  | returned
  | threw (e : E)
  deriving DecidableEq

section Operations

variable {B T E : Type} (next : B → Resumption B T E)

/-- The body runs on from its suspension point, and an exception may leave it. -/
def run (f : Frame B T) : Frame B T × Option E :=
  match next f.body with
  | .yielded x b => ({ point := .yielded, body := b, currentValue := some x }, none) -- yield_value
  | .returned => ({ f with point := .final, currentValue := none }, none) -- return_void()
  | .threw e => ({ f with point := .final }, some e) -- unhandled_exception: throw;

/-- `handle.resume()`, with the exception that leaves it. -/
def resume (h : Heap (Frame B T)) (c : Handle) : Heap (Frame B T) × Option E :=
  (h.resume Frame.done (fun f => (run next f).1) c,
    (c.bind h.frame).bind fun f => if f.done then none else (run next f).2)

/-- `Generator::begin`; there is no iterator when the body throws. -/
def begin (h : Heap (Frame B T)) (c : Handle) : Heap (Frame B T) × Except E Handle :=
  if c.isSome then
    match resume next h c with
    | (h, some e) => (h, .error e)
    | (h, none) => (h, .ok c)
  else (h, .ok c)

/-- `Iter::operator++`; the iterator keeps its handle when the body throws. -/
def increment (h : Heap (Frame B T)) (it : Handle) : Heap (Frame B T) × Handle × Option E :=
  match resume next h it with
  | (h, some e) => (h, it, some e)
  | (h, none) =>
      let (done, h) := h.done Frame.done it
      (h, if done then none else it, none)

/-- A body that does not throw. -/
def noThrow (next : B → Option (T × B)) (b : B) : Resumption B T E :=
  match next b with
  | some (x, b) => .yielded x b
  | none => .returned

/-- The body yields the values of the list, and then it returns, or throws `fault`. -/
def Produces (fault : Option E) : B → List T → Prop
  | b, [] => next b = fault.elim .returned .threw
  | b, x :: xs => ∃ b', next b = .yielded x b' ∧ Produces fault b' xs

variable {next} {h : Heap (Frame B T)} {n : Nat} {f : Frame B T} {c : Handle}

theorem resume_frame (hn : h.frame n = some f) (hf : f.done = false) : resume next h (some n) =
    ({ h with frame := Function.update h.frame n (some (run next f).1) }, (run next f).2) := by
  rw [resume, resume_of_frame hn hf]
  simp [hn, hf]

/-- To resume nothing, or a coroutine that is done, is undefined, and nothing is thrown. -/
theorem resume_undefined (hc : ∀ f, c.bind h.frame = some f → f.done = true) :
    resume next h c = (h.undefined, none) := by
  cases c with
  | none => rfl
  | some n =>
      cases hn : h.frame n with
      | none => simp [resume, Heap.resume, hn]
      | some f =>
          have hf : f.done = true := hc f hn
          rw [resume, resume_of_done hn hf]
          simp [hn, hf]

/-! Without exceptions these are the operations of `Generator.lean`. -/

variable {next' : B → Option (T × B)}

theorem run_noThrow (f : Frame B T) : run (E := E) (noThrow next') f = (f.resume next', none) := by
  unfold run noThrow Frame.resume
  cases next' f.body <;> rfl

theorem resume_noThrow (h : Heap (Frame B T)) (c : Handle) :
    resume (E := E) (noThrow next') h c = (h.resume Frame.done (Frame.resume next') c, none) := by
  have hrun : (fun f => (run (E := E) (noThrow next') f).1) = Frame.resume next' :=
    funext fun f => by rw [run_noThrow]
  rw [resume, hrun]
  simp [run_noThrow]

theorem begin_noThrow (h : Heap (Frame B T)) (c : Handle) : begin (E := E) (noThrow next') h c =
    ((Generator.begin next' h c).1, .ok (Generator.begin next' h c).2) := by
  rw [begin, Generator.begin, resume_noThrow]
  cases c <;> rfl

theorem increment_noThrow (h : Heap (Frame B T)) (it : Handle) :
    increment (E := E) (noThrow next') h it =
      ((Iter.increment next' h it).1, (Iter.increment next' h it).2, none) := by
  rw [increment, Iter.increment, resume_noThrow]

end Operations

/-! ## Programs -/

inductive Operation
  /-- `Generator g(std::move(source))` -/
  | move (g source : Nat)
  /-- `k = g.begin()` -/
  | begin (g k : Nat)
  /-- `k = source` -/
  | copy (k source : Nat)
  /-- `++k` -/
  | increment (k : Nat)
  /-- `*k` -/
  | dereference (k : Nat)
  /-- `k.operator->()` -/
  | arrow (k : Nat)
  /-- `k == g.end()` -/
  | atEnd (k : Nat)
  /-- `k == l` -/
  | equal (k l : Nat)
  /-- `~Generator()` of `g` -/
  | destruct (g : Nat)
  deriving DecidableEq

/-- What an operation shows to the program. -/
inductive Result (T E : Type)
  | value (x : T)
  | pointer (x : Option T)
  | truth (b : Bool)
  | threw (e : E)
  deriving DecidableEq

/-- The generators that have, or had, the coroutine, and the iterators, by their numbers. -/
structure Program (B T E : Type) where
  heap : Heap (Frame B T)
  generator : Nat → Option Handle
  iter : Nat → Option Handle
  /-- newest first -/
  log : List (Result T E)

section Program

variable {B T E : Type} (next : B → Resumption B T E)

/-- A coroutine was called; `get_return_object` made the generator `0`. -/
def Program.init (b : B) : Program B T E where
  heap := ⟨fun n => if n = 0 then some { body := b } else none, true⟩
  generator g := if g = 0 then some (some 0) else none
  iter _ := none
  log := []

def Program.step (s : Program B T E) : Operation → Option (Program B T E)
  | .move g source =>
      match s.generator g, s.generator source with
      | none, some c =>
          some { s with
            generator := Function.update (Function.update s.generator g (some c)) source
              (some none) }
      | _, _ => none
  | .begin g k =>
      match s.generator g with
      | some c =>
          match begin next s.heap c with
          | (heap, .ok it) =>
              some { s with heap := heap, iter := Function.update s.iter k (some it) }
          | (heap, .error e) => some { s with heap := heap, log := .threw e :: s.log }
      | none => none
  | .copy k source =>
      match s.iter source with
      | some it => some { s with iter := Function.update s.iter k (some it) }
      | none => none
  | .increment k =>
      match s.iter k with
      | some it =>
          let (heap, it, e) := increment next s.heap it
          some { s with
            heap := heap
            iter := Function.update s.iter k (some it)
            log := e.toList.map .threw ++ s.log }
      | none => none
  | .dereference k =>
      match s.iter k with
      | some it =>
          let (x, heap) := Iter.value s.heap it
          some { s with heap := heap, log := x.toList.map .value ++ s.log }
      | none => none
  | .arrow k =>
      match s.iter k with
      | some it =>
          let (x, heap) := Iter.arrow s.heap it
          some { s with heap := heap, log := .pointer x :: s.log }
      | none => none
  | .atEnd k =>
      match s.iter k with
      | some it =>
          let (b, heap) := Iter.atEnd s.heap it
          some { s with heap := heap, log := .truth b :: s.log }
      | none => none
  | .equal k l =>
      match s.iter k, s.iter l with
      | some it, some it' => some { s with log := .truth (it = it') :: s.log }
      | _, _ => none
  | .destruct g =>
      match s.generator g with
      | some c =>
          some { s with
            heap := if c.isSome then s.heap.destroy c else s.heap
            generator := Function.update s.generator g none }
      | none => none

end Program

/-! ## The cursor -/

/-- A sequence that is read at one place. A generator has it or gave it away, and an iterator is
at it or past its end. -/
structure Cursor (T E : Type) where
  /-- the values so far, newest first -/
  passed : List T := []
  left : List T
  ended : Bool := false
  alive : Bool := true
  generator : Nat → Option Bool
  iter : Nat → Option Bool := fun _ => none
  log : List (Result T E) := []

section Cursor

variable {T E : Type} (fault : Option E)

def Cursor.init (xs : List T) : Cursor T E where
  left := xs
  generator g := if g = 0 then some true else none

def Cursor.record (c : Cursor T E) (r : Result T E) : Cursor T E := { c with log := r :: c.log }

def Cursor.setIter (c : Cursor T E) (k : Nat) (a : Bool) : Cursor T E :=
  { c with iter := Function.update c.iter k (some a) }

/-- The value at the cursor; the last one stays when the sequence ends by an exception. -/
def Cursor.current (c : Cursor T E) : Option T :=
  if c.ended && fault.isNone then none else c.passed.head?

/-- To the next value, or to the end. -/
def Cursor.advance (c : Cursor T E) : Cursor T E :=
  match c.left with
  | x :: xs => { c with passed := x :: c.passed, left := xs }
  | [] => { c with ended := true }

/-- The iterator is at the sequence, and the sequence exists. -/
def Cursor.At (c : Cursor T E) (k : Nat) : Prop := c.iter k = some true ∧ c.alive = true

instance (c : Cursor T E) (k : Nat) : Decidable (c.At k) := inferInstanceAs (Decidable (_ ∧ _))

/-- What the operations are to do; `none` where they have undefined behavior. -/
def Cursor.step (c : Cursor T E) : Operation → Option (Cursor T E)
  | .move g source =>
      match c.generator g, c.generator source with
      | none, some a =>
          some { c with
            generator := Function.update (Function.update c.generator g (some a)) source
              (some false) }
      | _, _ => none
  | .begin g k =>
      match c.generator g with
      | none => none
      | some false => some (c.setIter k false)
      | some true =>
          if c.ended then none
          else if c.advance.ended then
            match fault with
            | some e => some (c.advance.record (.threw e))
            | none => some (c.advance.setIter k true)
          else some (c.advance.setIter k true)
  | .copy k source => (c.iter source).map (c.setIter k)
  | .increment k =>
      if c.At k ∧ c.ended = false then
        if c.advance.ended then
          match fault with
          | some e => some (c.advance.record (.threw e))
          | none => some (c.advance.setIter k false)
        else some c.advance
      else none
  | .dereference k =>
      if c.At k then (c.current fault).map fun x => c.record (.value x) else none
  | .arrow k => if c.At k then some (c.record (.pointer (c.current fault))) else none
  | .atEnd k =>
      match c.iter k with
      | none => none
      | some false => some (c.record (.truth true))
      | some true => if c.alive then some (c.record (.truth c.ended)) else none
  | .equal k l =>
      match c.iter k, c.iter l with
      | some a, some b => some (c.record (.truth (a = b)))
      | _, _ => none
  | .destruct g =>
      (c.generator g).map fun a =>
        { c with generator := Function.update c.generator g none, alive := c.alive && !a }

end Cursor

/-! ## The program follows the cursor -/

section Follows

variable {B T E : Type} (next : B → Resumption B T E) (fault : Option E)

/-- The handle of an object that is, or is not, at the sequence. -/
def handleOf (a : Bool) : Handle := if a then some 0 else none

/-- The coroutine shows what is at the cursor, and goes on with what is left. -/
structure Reads (f : Frame B T) (c : Cursor T E) : Prop where
  done : f.done = c.ended
  current : f.currentValue = c.current fault
  left : c.ended = false → Produces next fault f.body c.left

structure Follows (s : Program B T E) (c : Cursor T E) : Prop where
  defined : s.heap.defined = true
  generator : ∀ g, s.generator g = (c.generator g).map handleOf
  iter : ∀ k, s.iter k = (c.iter k).map handleOf
  owner : ∀ g g', c.generator g = some true → c.generator g' = some true → g = g'
  owned : ∀ g, c.generator g = some true → c.alive = true
  frame : c.alive = true → ∃ f, s.heap.frame 0 = some f ∧ Reads next fault f c
  gone : c.alive = false → s.heap.frame 0 = none
  log : s.log = c.log

variable {next fault} {s s' : Program B T E} {c : Cursor T E} {f : Frame B T} {b : B} {xs : List T}
variable {g k : Nat} {x : Operation}

theorem follows_init (hb : Produces next fault b xs) :
    Follows next fault (Program.init b) (Cursor.init xs) where
  defined := rfl
  generator g := by
    by_cases hg : g = 0
    · simp [Program.init, Cursor.init, hg, handleOf]
    · simp [Program.init, Cursor.init, hg]
  iter k := rfl
  owner g g' h h' := by
    have hzero : ∀ {g}, (Cursor.init xs : Cursor T E).generator g = some true → g = 0 := by
      intro g hg
      by_contra hne
      simp [Cursor.init, hne] at hg
    rw [hzero h, hzero h']
  owned _ _ := rfl
  frame _ := ⟨{ body := b }, rfl, rfl, rfl, fun _ => hb⟩
  gone h := by cases h
  log := rfl

/-! The fields of the cursor that an operation does not touch. -/

@[simp] theorem advance_alive (c : Cursor T E) : c.advance.alive = c.alive := by
  unfold Cursor.advance
  split <;> rfl

@[simp] theorem advance_generator (c : Cursor T E) : c.advance.generator = c.generator := by
  unfold Cursor.advance
  split <;> rfl

@[simp] theorem advance_iter (c : Cursor T E) : c.advance.iter = c.iter := by
  unfold Cursor.advance
  split <;> rfl

@[simp] theorem advance_log (c : Cursor T E) : c.advance.log = c.log := by
  unfold Cursor.advance
  split <;> rfl

/-- **The coroutine is resumed**, and the cursor advances. -/
theorem Reads.run (h : Reads next fault f c) (hended : c.ended = false) :
    Reads next fault (run next f).1 c.advance ∧
      (run next f).2 = if c.advance.ended then fault else none := by
  have hcur : f.currentValue = c.passed.head? := by
    rw [h.current, Cursor.current, hended]
    rfl
  have hbody := h.left hended
  cases hleft : c.left with
  | nil =>
      rw [hleft] at hbody
      have hadv : c.advance = { c with ended := true } := by rw [Cursor.advance, hleft]
      cases hfault : fault with
      | none =>
          have hnext : next f.body = .returned := by rw [hfault] at hbody; exact hbody
          rw [Iterators.run, hnext, hadv]
          exact ⟨⟨rfl, rfl, fun ht => by cases ht⟩, rfl⟩
      | some e =>
          have hnext : next f.body = .threw e := by rw [hfault] at hbody; exact hbody
          rw [Iterators.run, hnext, hadv]
          exact ⟨⟨rfl, hcur, fun ht => by cases ht⟩, rfl⟩
  | cons x xs =>
      rw [hleft] at hbody
      obtain ⟨b, hnext, hxs⟩ := hbody
      have hadv : c.advance = { c with passed := x :: c.passed, left := xs } := by
        rw [Cursor.advance, hleft]
      rw [Iterators.run, hnext, hadv]
      refine ⟨⟨hended.symm, ?_, fun _ => hxs⟩, by simp [hended]⟩
      simp [Cursor.current, hended]

/-- The coroutine is resumed at a cursor that has not ended. -/
theorem Follows.resume (h : Follows next fault s c) (halive : c.alive = true)
    (hended : c.ended = false) : ∃ heap, resume next s.heap (some 0) =
      (heap, if c.advance.ended then fault else none) ∧ heap.defined = true ∧
      ∃ f, heap.frame 0 = some f ∧ Reads next fault f c.advance := by
  obtain ⟨f, hf, hr⟩ := h.frame halive
  obtain ⟨hr', hthrown⟩ := hr.run hended
  rw [resume_frame hf (hr.done.trans hended), hthrown]
  exact ⟨_, rfl, h.defined, (run next f).1, by simp, hr'⟩

/-- The coroutine has ended, or is gone, and is resumed. -/
theorem Follows.resume_bad (h : Follows next fault s c) (hbad : c.alive = true → c.ended = true) :
    Iterators.resume next s.heap (some 0) = (s.heap.undefined, none) := by
  refine resume_undefined fun f hf => ?_
  cases halive : c.alive with
  | true =>
      obtain ⟨f', hf', hr⟩ := h.frame halive
      obtain rfl : f' = f := Option.some.inj (hf'.symm.trans hf)
      exact hr.done.trans (hbad halive)
  | false =>
      have hnone : s.heap.frame 0 = none := h.gone halive
      rw [Option.bind_some, hnone] at hf
      cases hf

/-! ### One operation -/

/-- The operation does what the cursor says, or the cursor says that it is undefined. -/
def Agrees (next : B → Resumption B T E) (fault : Option E) (s' : Program B T E)
    (c' : Option (Cursor T E)) : Prop :=
  (∃ d, c' = some d ∧ Follows next fault s' d) ∨ (c' = none ∧ s'.heap.defined = false)

/-- The handle of one object changes. -/
theorem update_handle {p : Nat → Option Handle} {q : Nat → Option Bool}
    (h : ∀ l, p l = (q l).map handleOf) (k : Nat) (o : Option Bool) (l : Nat) :
    Function.update p k (o.map handleOf) l = (Function.update q k o l).map handleOf := by
  by_cases hl : l = k
  · rw [hl, Function.update_self, Function.update_self]
  · rw [Function.update_of_ne hl, Function.update_of_ne hl]
    exact h l

/-- A generator or an iterator exists in the program iff it does for the cursor. -/
theorem lookup_handle {p : Nat → Option Handle} {q : Nat → Option Bool}
    (h : ∀ l, p l = (q l).map handleOf) (l : Nat) :
    (p l = none ∧ q l = none) ∨ ∃ a, p l = some (handleOf a) ∧ q l = some a := by
  rw [h l]
  cases q l with
  | none => exact Or.inl ⟨rfl, rfl⟩
  | some a => exact Or.inr ⟨a, rfl, rfl⟩

/-- The cursor is where it was, and the coroutine too. -/
theorem Follows.reads {c' : Cursor T E} (h : Follows next fault s c) (halive : c.alive = true)
    (hended : c'.ended = c.ended) (hpassed : c'.passed = c.passed) (hleft : c'.left = c.left) :
    ∃ f, s.heap.frame 0 = some f ∧ Reads next fault f c' := by
  obtain ⟨f, hf, hr⟩ := h.frame halive
  refine ⟨f, hf, hr.done.trans hended.symm, ?_, fun ht => ?_⟩
  · rw [hr.current, Cursor.current, Cursor.current, hended, hpassed]
  · rw [hleft]
    exact hr.left (hended.symm.trans ht)

theorem Follows.shows (h : Follows next fault s c) (r : Result T E) :
    Follows next fault { s with log := r :: s.log } (c.record r) :=
  { h with
    frame := fun ha => h.reads ha rfl rfl rfl
    log := congrArg (r :: ·) h.log }

theorem Follows.setIter (h : Follows next fault s c) (k : Nat) (a : Bool) :
    Follows next fault { s with iter := Function.update s.iter k (some (handleOf a)) }
      (c.setIter k a) :=
  { h with
    iter := update_handle h.iter k (some a)
    frame := fun ha => h.reads ha rfl rfl rfl }

/-- The cursor advanced, and the coroutine with it. -/
theorem Follows.advance {heap : Heap (Frame B T)} (h : Follows next fault s c)
    (halive : c.alive = true) (hdefined : heap.defined = true)
    (hf : ∃ f, heap.frame 0 = some f ∧ Reads next fault f c.advance) :
    Follows next fault { s with heap := heap } c.advance where
  defined := hdefined
  generator g := by rw [advance_generator]; exact h.generator g
  iter k := by rw [advance_iter]; exact h.iter k
  owner g g' := by rw [advance_generator]; exact h.owner g g'
  owned g := by rw [advance_generator, advance_alive]; exact h.owned g
  frame _ := hf
  gone hgone := by
    rw [advance_alive, halive] at hgone
    cases hgone
  log := by rw [advance_log]; exact h.log

theorem Follows.begin (h : Follows next fault s c) (hs : s.step next (.begin g k) = some s') :
    Agrees next fault s' (c.step fault (.begin g k)) := by
  rcases lookup_handle h.generator g with ⟨hgen, -⟩ | ⟨a, hgen, hg⟩
  case inl =>
    simp only [Program.step, hgen] at hs
    cases hs
  case inr =>
    simp only [Program.step, hgen] at hs
    cases a with
    | false =>
        obtain rfl := Option.some.inj hs
        refine Or.inl ⟨c.setIter k false, ?_, h.setIter k false⟩
        simp only [Cursor.step, hg]
    | true =>
        have halive : c.alive = true := h.owned g hg
        simp only [handleOf, if_true, Iterators.begin, Option.isSome_some] at hs
        cases hended : c.ended with
        | true =>
            rw [h.resume_bad fun _ => hended] at hs
            obtain rfl := Option.some.inj hs
            exact Or.inr ⟨by simp only [Cursor.step, hg, hended, if_true], rfl⟩
        | false =>
            obtain ⟨heap, hres, hdefined, hf⟩ := h.resume halive hended
            have hnew := h.advance halive hdefined hf
            rw [hres] at hs
            left
            simp only [Cursor.step, hg, hended, Bool.false_eq_true, if_false]
            cases hend : c.advance.ended with
            | false =>
                simp only [hend, Bool.false_eq_true, if_false] at hs
                obtain rfl := Option.some.inj hs
                exact ⟨_, rfl, hnew.setIter k true⟩
            | true =>
                simp only [hend, if_true] at hs
                cases fault with
                | none =>
                    obtain rfl := Option.some.inj hs
                    exact ⟨_, rfl, hnew.setIter k true⟩
                | some e =>
                    obtain rfl := Option.some.inj hs
                    exact ⟨_, rfl, hnew.shows (.threw e)⟩

theorem Follows.increment (h : Follows next fault s c) (hs : s.step next (.increment k) = some s') :
    Agrees next fault s' (c.step fault (.increment k)) := by
  rcases lookup_handle h.iter k with ⟨hit, -⟩ | ⟨a, hit, hk⟩
  case inl =>
    simp only [Program.step, hit] at hs
    cases hs
  case inr =>
    simp only [Program.step, hit] at hs
    cases a with
    | false =>
        -- past the end
        obtain rfl := Option.some.inj hs
        exact Or.inr ⟨by simp [Cursor.step, Cursor.At, hk], rfl⟩
    | true =>
        have hkeep : Function.update s.iter k (some (some 0)) = s.iter := by
          rw [show some (some 0) = s.iter k from hit.symm, Function.update_eq_self]
        simp only [handleOf, if_true, Iterators.increment] at hs
        by_cases hat : c.alive = true ∧ c.ended = false
        case neg =>
          have hres := h.resume_bad fun ha => by
            by_contra hno
            exact hat ⟨ha, Bool.not_eq_true _ ▸ hno⟩
          rw [hres] at hs
          obtain rfl := Option.some.inj hs
          refine Or.inr ⟨?_, ?_⟩
          · simp only [Cursor.step, Cursor.At, hk, true_and, if_neg hat]
          · unfold Heap.done Heap.undefined
            dsimp only
            split <;> rfl
        case pos =>
          obtain ⟨halive, hended⟩ := hat
          obtain ⟨heap, hres, hdefined, f, hf, hr⟩ := h.resume halive hended
          have hnew := h.advance halive hdefined ⟨f, hf, hr⟩
          rw [hres] at hs
          left
          simp only [Cursor.step, Cursor.At, hk, halive, hended, and_self, if_true]
          cases hend : c.advance.ended with
          | false =>
              simp only [hend, Bool.false_eq_true, if_false, done_of_frame hf, hr.done,
                hkeep] at hs
              obtain rfl := Option.some.inj hs
              exact ⟨_, rfl, hnew⟩
          | true =>
              simp only [hend, if_true] at hs
              cases fault with
              | none =>
                  simp only [done_of_frame hf, hr.done, hend, if_true] at hs
                  obtain rfl := Option.some.inj hs
                  exact ⟨_, rfl, hnew.setIter k false⟩
              | some e =>
                  simp only [hkeep] at hs
                  obtain rfl := Option.some.inj hs
                  exact ⟨_, rfl, hnew.shows (.threw e)⟩

theorem Follows.move {source : Nat} (h : Follows next fault s c)
    (hs : s.step next (.move g source) = some s') :
    Agrees next fault s' (c.step fault (.move g source)) := by
  rcases lookup_handle h.generator g with ⟨hgen, hg⟩ | ⟨a, hgen, -⟩
  case inr =>
    simp only [Program.step, hgen] at hs
    cases hs
  case inl =>
    rcases lookup_handle h.generator source with ⟨hsource, -⟩ | ⟨a, hsource, ha⟩
    case inl =>
      simp only [Program.step, hgen, hsource] at hs
      cases hs
    case inr =>
      simp only [Program.step, hgen, hsource] at hs
      obtain rfl := Option.some.inj hs
      -- who has the sequence after the move
      have hhas : ∀ l, Function.update (Function.update c.generator g (some a)) source
          (some false) l = some true →
          (l = g ∧ c.generator source = some true) ∨
            (c.generator l = some true ∧ l ≠ source) := by
        intro l hl
        by_cases hls : l = source
        · rw [hls, Function.update_self] at hl
          cases hl
        · rw [Function.update_of_ne hls] at hl
          by_cases hlg : l = g
          · rw [hlg, Function.update_self] at hl
            exact Or.inl ⟨hlg, ha.trans hl⟩
          · rw [Function.update_of_ne hlg] at hl
            exact Or.inr ⟨hl, hls⟩
      refine Or.inl ⟨_, by simp only [Cursor.step, hg, ha]; rfl, ?_⟩
      refine { h with
        generator := update_handle (update_handle h.generator g (some a)) source (some false)
        owner := fun l l' hl hl' => ?_
        owned := fun l hl => ?_
        frame := fun halive => h.reads halive rfl rfl rfl }
      · rcases hhas l hl with ⟨hlg, hhad⟩ | ⟨hhad, hls⟩ <;>
          rcases hhas l' hl' with ⟨hlg', hhad'⟩ | ⟨hhad', hls'⟩
        · rw [hlg, hlg']
        · exact absurd (h.owner _ _ hhad' hhad) hls'
        · exact absurd (h.owner _ _ hhad hhad') hls
        · exact h.owner _ _ hhad hhad'
      · rcases hhas l hl with ⟨-, hhad⟩ | ⟨hhad, -⟩
        · exact h.owned _ hhad
        · exact h.owned _ hhad

theorem Follows.copy {source : Nat} (h : Follows next fault s c)
    (hs : s.step next (.copy k source) = some s') :
    Agrees next fault s' (c.step fault (.copy k source)) := by
  rcases lookup_handle h.iter source with ⟨hit, -⟩ | ⟨a, hit, ha⟩
  case inl =>
    simp only [Program.step, hit] at hs
    cases hs
  case inr =>
    simp only [Program.step, hit] at hs
    obtain rfl := Option.some.inj hs
    exact Or.inl ⟨c.setIter k a, by simp only [Cursor.step, ha, Option.map_some],
      h.setIter k a⟩

/-- What an iterator at the sequence finds in the promise of the coroutine. -/
theorem Follows.promise (h : Follows next fault s c) :
    (c.alive = true ∧ ∃ f, s.heap.frame 0 = some f ∧ Reads next fault f c) ∨
      (c.alive = false ∧ s.heap.frame 0 = none) := by
  cases halive : c.alive with
  | true => exact Or.inl ⟨rfl, h.frame halive⟩
  | false => exact Or.inr ⟨rfl, h.gone halive⟩

theorem Follows.dereference (h : Follows next fault s c)
    (hs : s.step next (.dereference k) = some s') :
    Agrees next fault s' (c.step fault (.dereference k)) := by
  rcases lookup_handle h.iter k with ⟨hit, -⟩ | ⟨a, hit, hk⟩
  case inl =>
    simp only [Program.step, hit] at hs
    cases hs
  case inr =>
    simp only [Program.step, hit] at hs
    cases a with
    | false =>
        obtain rfl := Option.some.inj hs
        exact Or.inr ⟨by simp [Cursor.step, Cursor.At, hk], rfl⟩
    | true =>
        rcases h.promise with ⟨halive, f, hf, hr⟩ | ⟨halive, hf⟩
        case inr =>
          simp only [handleOf, if_true, Iter.value, Option.bind_some, hf, Option.bind_none] at hs
          obtain rfl := Option.some.inj hs
          exact Or.inr ⟨by simp [Cursor.step, Cursor.At, halive], rfl⟩
        case inl =>
          simp only [handleOf, if_true, Iter.value, Option.bind_some, hf, hr.current] at hs
          simp only [Cursor.step, Cursor.At, hk, halive, and_self, if_true]
          cases hcur : c.current fault with
          | none =>
              rw [hcur] at hs
              obtain rfl := Option.some.inj hs
              exact Or.inr ⟨rfl, rfl⟩
          | some x =>
              rw [hcur] at hs
              obtain rfl := Option.some.inj hs
              exact Or.inl ⟨_, rfl, h.shows (.value x)⟩

theorem Follows.arrow (h : Follows next fault s c) (hs : s.step next (.arrow k) = some s') :
    Agrees next fault s' (c.step fault (.arrow k)) := by
  rcases lookup_handle h.iter k with ⟨hit, -⟩ | ⟨a, hit, hk⟩
  case inl =>
    simp only [Program.step, hit] at hs
    cases hs
  case inr =>
    simp only [Program.step, hit] at hs
    cases a with
    | false =>
        obtain rfl := Option.some.inj hs
        exact Or.inr ⟨by simp [Cursor.step, Cursor.At, hk], rfl⟩
    | true =>
        rcases h.promise with ⟨halive, f, hf, hr⟩ | ⟨halive, hf⟩
        case inr =>
          simp only [handleOf, if_true, Iter.arrow, Option.bind_some, hf] at hs
          obtain rfl := Option.some.inj hs
          exact Or.inr ⟨by simp [Cursor.step, Cursor.At, halive], rfl⟩
        case inl =>
          simp only [handleOf, if_true, Iter.arrow, Option.bind_some, hf, hr.current] at hs
          obtain rfl := Option.some.inj hs
          refine Or.inl ⟨_, ?_, h.shows (.pointer (c.current fault))⟩
          simp only [Cursor.step, Cursor.At, hk, halive, and_self, if_true]

theorem Follows.atEnd (h : Follows next fault s c) (hs : s.step next (.atEnd k) = some s') :
    Agrees next fault s' (c.step fault (.atEnd k)) := by
  rcases lookup_handle h.iter k with ⟨hit, -⟩ | ⟨a, hit, hk⟩
  case inl =>
    simp only [Program.step, hit] at hs
    cases hs
  case inr =>
    simp only [Program.step, hit] at hs
    cases a with
    | false =>
        obtain rfl := Option.some.inj hs
        exact Or.inl ⟨_, by simp only [Cursor.step, hk], h.shows (.truth true)⟩
    | true =>
        rcases h.promise with ⟨halive, f, hf, hr⟩ | ⟨halive, hf⟩
        case inr =>
          simp only [handleOf, if_true, Iter.atEnd, Option.isNone_some, Bool.false_eq_true,
            if_false, Heap.done, Option.bind_some, hf] at hs
          obtain rfl := Option.some.inj hs
          exact Or.inr ⟨by simp [Cursor.step, hk, halive], rfl⟩
        case inl =>
          simp only [handleOf, if_true, atEnd_of_frame hf, hr.done] at hs
          obtain rfl := Option.some.inj hs
          refine Or.inl ⟨_, ?_, h.shows (.truth c.ended)⟩
          simp only [Cursor.step, hk, halive, if_true]

theorem Follows.equal {l : Nat} (h : Follows next fault s c)
    (hs : s.step next (.equal k l) = some s') :
    Agrees next fault s' (c.step fault (.equal k l)) := by
  rcases lookup_handle h.iter k with ⟨hit, -⟩ | ⟨a, hit, hk⟩
  case inl =>
    simp only [Program.step, hit] at hs
    cases hs
  case inr =>
    rcases lookup_handle h.iter l with ⟨hit', -⟩ | ⟨a', hit', hl⟩
    case inl =>
      simp only [Program.step, hit, hit'] at hs
      cases hs
    case inr =>
      simp only [Program.step, hit, hit'] at hs
      obtain rfl := Option.some.inj hs
      have hsame : (handleOf a = handleOf a') ↔ a = a' := by
        cases a <;> cases a' <;> simp [handleOf]
      refine Or.inl ⟨_, by simp only [Cursor.step, hk, hl]; rfl, ?_⟩
      simp only [hsame]
      exact h.shows (.truth (a = a'))

theorem Follows.destruct (h : Follows next fault s c)
    (hs : s.step next (.destruct g) = some s') :
    Agrees next fault s' (c.step fault (.destruct g)) := by
  rcases lookup_handle h.generator g with ⟨hgen, -⟩ | ⟨a, hgen, hg⟩
  case inl =>
    simp only [Program.step, hgen] at hs
    cases hs
  case inr =>
    simp only [Program.step, hgen] at hs
    have hother : ∀ {l}, Function.update c.generator g none l = some true →
        l ≠ g ∧ c.generator l = some true := by
      intro l hl
      by_cases hlg : l = g
      · rw [hlg, Function.update_self] at hl
        cases hl
      · rw [Function.update_of_ne hlg] at hl
        exact ⟨hlg, hl⟩
    have howner : ∀ l l', Function.update c.generator g none l = some true →
        Function.update c.generator g none l' = some true → l = l' :=
      fun l l' hl hl' => h.owner l l' (hother hl).2 (hother hl').2
    refine Or.inl ⟨_, by simp only [Cursor.step, hg, Option.map_some]; rfl, ?_⟩
    cases a with
    | false =>
        obtain rfl := Option.some.inj hs
        refine { h with
          generator := update_handle h.generator g none
          owner := howner
          owned := fun l hl => ?_
          frame := fun halive => h.reads (by simpa using halive) rfl rfl rfl
          gone := fun hgone => ?_ }
        · simp [h.owned l (hother hl).2]
        · exact h.gone (by simpa using hgone)
    | true =>
        -- the frame goes with its owner
        obtain ⟨f, hf, -⟩ := h.frame (h.owned g hg)
        simp only [handleOf, if_true, Option.isSome_some, destroy_of_frame hf] at hs
        obtain rfl := Option.some.inj hs
        refine { h with
          generator := update_handle h.generator g none
          owner := howner
          owned := fun l hl => ?_
          frame := fun halive => ?_
          gone := fun _ => by simp }
        · exact absurd (h.owner l g (hother hl).2 hg) (hother hl).1
        · simp at halive

/-- **What an operation does** where the program follows the cursor. -/
theorem Follows.step (h : Follows next fault s c) (hs : s.step next x = some s') :
    Agrees next fault s' (c.step fault x) := by
  cases x with
  | move => exact h.move hs
  | begin => exact h.begin hs
  | copy => exact h.copy hs
  | increment => exact h.increment hs
  | dereference => exact h.dereference hs
  | arrow => exact h.arrow hs
  | atEnd => exact h.atEnd hs
  | equal => exact h.equal hs
  | destruct => exact h.destruct hs

end Follows

/-! ## Undefined behavior is not taken back -/

section Undefined

variable {B T E : Type} {next : B → Resumption B T E} {h : Heap (Frame B T)} {c : Handle}
variable {s s' : Program B T E} {x : Operation}

theorem resume_stays (hd : h.defined = false) : (resume next h c).1.defined = false := by
  unfold resume Heap.resume
  dsimp only
  split
  · rfl
  · split
    · rfl
    · split
      · rfl
      · exact hd

theorem done_stays (hd : h.defined = false) : (h.done Frame.done c).2.defined = false := by
  unfold Heap.done
  split
  · exact hd
  · rfl

theorem destroy_stays (hd : h.defined = false) : (h.destroy c).defined = false := by
  unfold Heap.destroy
  split
  · rfl
  · split
    · rfl
    · exact hd

theorem begin_stays (hd : h.defined = false) : (begin next h c).1.defined = false := by
  have hres : (resume next h c).1.defined = false := resume_stays hd
  unfold begin
  split
  · split
    · rename_i heq
      rwa [heq] at hres
    · rename_i heq
      rwa [heq] at hres
  · exact hd

theorem increment_stays (hd : h.defined = false) : (increment next h c).1.defined = false := by
  have hres : (resume next h c).1.defined = false := resume_stays hd
  unfold increment
  split
  · rename_i heq
    rwa [heq] at hres
  · rename_i heq
    rw [heq] at hres
    exact done_stays hres

theorem value_stays (hd : h.defined = false) : (Iter.value h c).2.defined = false := by
  unfold Iter.value
  split
  · exact hd
  · rfl

theorem arrow_stays (hd : h.defined = false) : (Iter.arrow h c).2.defined = false := by
  unfold Iter.arrow
  split
  · exact hd
  · rfl

theorem atEnd_stays (hd : h.defined = false) : (Iter.atEnd h c).2.defined = false := by
  unfold Iter.atEnd
  split
  · exact hd
  · exact done_stays hd

theorem step_stays (hd : s.heap.defined = false) (hs : s.step next x = some s') :
    s'.heap.defined = false := by
  cases x with
  | begin g k =>
      simp only [Program.step] at hs
      split at hs
      case h_2 => cases hs
      case h_1 c hg =>
        have hbegin : (begin next s.heap c).1.defined = false := begin_stays hd
        split at hs <;> rename_i heq <;> rw [heq] at hbegin <;> cases hs <;> exact hbegin
  | increment k =>
      simp only [Program.step] at hs
      split at hs
      case h_1 =>
        obtain rfl := Option.some.inj hs
        exact increment_stays hd
      case h_2 => cases hs
  | dereference k =>
      simp only [Program.step] at hs
      split at hs
      case h_1 =>
        obtain rfl := Option.some.inj hs
        exact value_stays hd
      case h_2 => cases hs
  | arrow k =>
      simp only [Program.step] at hs
      split at hs
      case h_1 =>
        obtain rfl := Option.some.inj hs
        exact arrow_stays hd
      case h_2 => cases hs
  | atEnd k =>
      simp only [Program.step] at hs
      split at hs
      case h_1 =>
        obtain rfl := Option.some.inj hs
        exact atEnd_stays hd
      case h_2 => cases hs
  | destruct g =>
      simp only [Program.step] at hs
      split at hs
      case h_1 =>
        obtain rfl := Option.some.inj hs
        dsimp only
        split
        · exact destroy_stays hd
        · exact hd
      case h_2 => cases hs
  | move g source | equal k l | copy k source =>
      simp only [Program.step] at hs
      split at hs
      case h_1 =>
        obtain rfl := Option.some.inj hs
        exact hd
      case h_2 => cases hs

end Undefined

/-! ## What the iterators read -/

section Order

variable {B T E : Type} {fault : Option E} {c c' : Cursor T E} {x : Operation} {xs : List T}

/-- The value that a result shows. -/
def Result.shown : Result T E → Option T
  | .value x => some x
  | .pointer x => x
  | .truth _ | .threw _ => none

/-- The values that were read, newest first. -/
def shown (log : List (Result T E)) : List T := log.filterMap Result.shown

/-- An operation leaves the cursor where it is, and may show the value there, or it advances the
cursor, and shows none. -/
theorem Cursor.step_sequence (hs : c.step fault x = some c') :
    (c'.passed = c.passed ∧ c'.left = c.left ∧
      (shown c'.log = shown c.log ∨ ∃ x, c.current fault = some x ∧
        shown c'.log = x :: shown c.log)) ∨
    (c'.passed = c.advance.passed ∧ c'.left = c.advance.left ∧ shown c'.log = shown c.log) := by
  have hlog : shown c.advance.log = shown c.log := by rw [advance_log]
  cases x with
  | move g source =>
      simp only [Cursor.step] at hs
      split at hs <;> cases hs
      exact Or.inl ⟨rfl, rfl, Or.inl rfl⟩
  | begin g k =>
      simp only [Cursor.step] at hs
      split at hs
      · cases hs
      · cases hs
        exact Or.inl ⟨rfl, rfl, Or.inl rfl⟩
      · split at hs
        · cases hs
        · right
          split at hs
          · split at hs <;> cases hs <;> exact ⟨rfl, rfl, hlog⟩
          · cases hs
            exact ⟨rfl, rfl, hlog⟩
  | copy k source =>
      obtain ⟨a, -, rfl⟩ := Option.map_eq_some_iff.mp hs
      exact Or.inl ⟨rfl, rfl, Or.inl rfl⟩
  | increment k =>
      simp only [Cursor.step] at hs
      split at hs
      · right
        split at hs
        · split at hs <;> cases hs <;> exact ⟨rfl, rfl, hlog⟩
        · cases hs
          exact ⟨rfl, rfl, hlog⟩
      · cases hs
  | dereference k =>
      simp only [Cursor.step] at hs
      split at hs
      · obtain ⟨y, hy, rfl⟩ := Option.map_eq_some_iff.mp hs
        exact Or.inl ⟨rfl, rfl, Or.inr ⟨y, hy, rfl⟩⟩
      · cases hs
  | arrow k =>
      simp only [Cursor.step] at hs
      split at hs
      · cases hs
        refine Or.inl ⟨rfl, rfl, ?_⟩
        cases hcur : c.current fault with
        | none => exact Or.inl rfl
        | some y => exact Or.inr ⟨y, rfl, rfl⟩
      · cases hs
  | atEnd k =>
      simp only [Cursor.step] at hs
      split at hs
      · cases hs
      · cases hs
        exact Or.inl ⟨rfl, rfl, Or.inl rfl⟩
      · split at hs <;> cases hs
        exact Or.inl ⟨rfl, rfl, Or.inl rfl⟩
  | equal k l =>
      simp only [Cursor.step] at hs
      split at hs <;> cases hs
      exact Or.inl ⟨rfl, rfl, Or.inl rfl⟩
  | destruct g =>
      obtain ⟨a, -, rfl⟩ := Option.map_eq_some_iff.mp hs
      exact Or.inl ⟨rfl, rfl, Or.inl rfl⟩

/-- The values that were read are those at the places `ps`, which do not go back. -/
structure InOrder (xs : List T) (c : Cursor T E) : Prop where
  sequence : c.passed.reverse ++ c.left = xs
  places : ∃ ps : List Nat, ps.Pairwise (· ≥ ·) ∧ (∀ p ∈ ps, p < c.passed.length) ∧
    (shown c.log).map some = ps.map fun p => xs[p]?

theorem InOrder.step (h : InOrder xs c) (hs : c.step fault x = some c') : InOrder xs c' := by
  obtain ⟨ps, hsorted, hlt, hshown⟩ := h.places
  rcases Cursor.step_sequence hs with ⟨hp, hl, hlog⟩ | ⟨hp, hl, hlog⟩
  · refine ⟨by rw [hp, hl]; exact h.sequence, ?_⟩
    rcases hlog with hlog | ⟨y, hcur, hlog⟩
    · exact ⟨ps, hsorted, hp ▸ hlt, hlog ▸ hshown⟩
    · -- the value at the cursor is the last one that was passed
      have hhead : c.passed.head? = some y := by
        unfold Cursor.current at hcur
        split at hcur
        · cases hcur
        · exact hcur
      cases hpassed : c.passed with
      | nil =>
          rw [hpassed] at hhead
          cases hhead
      | cons z zs =>
          rw [hpassed] at hhead
          obtain rfl : z = y := Option.some.inj hhead
          have hat : xs[zs.length]? = some z := by
            rw [← h.sequence, hpassed]
            simp
          refine ⟨zs.length :: ps, ?_, ?_, ?_⟩
          · refine List.pairwise_cons.mpr ⟨fun p hp' => ?_, hsorted⟩
            have := hlt p hp'
            rw [hpassed, List.length_cons] at this
            omega
          · intro p hp'
            rw [hp, hpassed, List.length_cons]
            rcases List.mem_cons.mp hp' with rfl | hp'
            · omega
            · have := hlt p hp'
              rw [hpassed, List.length_cons] at this
              omega
          · rw [hlog, List.map_cons, List.map_cons, hshown, hat]
  · have hadv : c.advance.passed.reverse ++ c.advance.left = xs ∧
        c.passed.length ≤ c.advance.passed.length := by
      rw [← h.sequence]
      unfold Cursor.advance
      cases hleft : c.left with
      | nil => simp
      | cons y ys => simp
    refine ⟨by rw [hp, hl]; exact hadv.1, ps, hsorted, fun p hp' => ?_, hlog ▸ hshown⟩
    rw [hp]
    exact Nat.lt_of_lt_of_le (hlt p hp') hadv.2

end Order

/-! ## All programs -/

section Programs

variable {B T E : Type} {next : B → Resumption B T E} {fault : Option E} {b : B} {xs : List T}
variable {s : Program B T E}

/-- **What iterators do.** Take a body that yields the values `xs` and then returns, or throws
`fault`, and any program that moves and destroys its generator, calls `begin`, and copies,
advances, compares and reads its iterators. Nothing in it is undefined iff a cursor over `xs` can
do the same; then the program sees what the cursor shows, exceptions included, and the values that
it reads, through whatever iterators, do not go back. -/
theorem iterators_follow (hb : Produces next fault b xs)
    {tr : List (Program B T E × Operation)}
    (h : Transition.Run (Program.step next) (Program.init b) tr s) :
    (s.heap.defined = true ↔ ∃ tr' c, Transition.Run (Cursor.step fault) (Cursor.init xs) tr' c ∧
      tr'.map Prod.snd = tr.map Prod.snd ∧ c.log = s.log) ∧
    (s.heap.defined = true → ∃ ps : List Nat, ps.Pairwise (· ≥ ·) ∧
      (shown s.log).map some = ps.map fun p => xs[p]?) := by
  have hstep : ∀ {s : Program B T E} {c : Cursor T E} {x : Operation} {s' : Program B T E},
      Follows next fault s c → s.step next x = some s' →
      (∃ d, c.step fault x = some d ∧ Follows next fault s' d) ∨
        (c.step fault x = none ∧ s'.heap.defined = false) := fun hf hs => hf.step hs
  rcases h.simulated_or (follows_init hb) hstep (fun hd hs => step_stays hd hs) with
    ⟨tr', c, hrun, hops, hf⟩ | ⟨hbad, hno⟩
  · refine ⟨⟨fun _ => ⟨tr', c, hrun, hops, hf.log.symm⟩, fun _ => hf.defined⟩, fun _ => ?_⟩
    have horder : InOrder xs c := hrun.invariant (C := fun _ _ => True)
      ⟨rfl, [], List.Pairwise.nil, by simp, rfl⟩ (fun hI _ hs => hI.step hs) (fun _ _ => trivial)
    obtain ⟨ps, hsorted, -, hshown⟩ := horder.places
    exact ⟨ps, hsorted, by rw [hf.log, hshown]⟩
  · have hundefined : ¬ s.heap.defined = true := by
      rw [hbad]
      exact Bool.false_ne_true
    refine ⟨⟨fun hd => absurd hd hundefined, ?_⟩, fun hd => absurd hd hundefined⟩
    rintro ⟨tr', c, hrun, hops, -⟩
    exact absurd hops (hno tr' c hrun)

end Programs

/-- The body that yields the values of a list and throws. -/
def throwing {T E : Type} (e : E) : List T → Resumption (List T) T E
  | [] => .threw e
  | x :: xs => .yielded x xs

/-- Two iterators of one generator: the old one sees the next value as well, and after the
exception the last value is still there. -/
theorem iterators_follow_stale : ∃ tr s, Transition.Run (Program.step (throwing 7))
    (Program.init [4, 5]) tr s ∧
    s.log = [.value 5, .truth true, .threw 7, .value 5, .value 4] ∧
    ∃ tr' c, Transition.Run (Cursor.step (some 7)) (Cursor.init [4, 5]) tr' c ∧
      tr'.map Prod.snd = tr.map Prod.snd ∧ c.log = s.log := by
  have hexec : ((Transition.exec (Program.step (throwing 7)) (fun _ _ => True)
      (Program.init [4, 5])
      [.begin 0 0, .dereference 0, .copy 1 0, .increment 0, .dereference 1, .increment 0, .atEnd 1,
        .dereference 1]).any fun s => s.heap.defined &&
          decide (s.log = [.value 5, .truth true, .threw 7, .value 5, .value 4])) = true := by
    decide
  obtain ⟨tr, s, hrun, -, -, hs⟩ := Transition.exists_run_of_exec hexec
  obtain ⟨hdefined, hlog⟩ := Bool.and_eq_true_iff.mp hs
  have hbody : Produces (throwing 7) (some 7) [4, 5] [4, 5] := ⟨[5], rfl, [], rfl, rfl⟩
  exact ⟨tr, s, hrun, of_decide_eq_true hlog, (iterators_follow hbody hrun).1.mp hdefined⟩

end Bop.Generator.Iterators
