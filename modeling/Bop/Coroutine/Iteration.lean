import Bop.Coroutine.Generator

set_option autoImplicit false

/-! # Loops over a generator

One program runs range-for loops over the same generator, one after the other, and leaves some of
them by `break`. `begin` resumes the coroutine, so a loop goes on with the values that the loops
before it left over. It does so without a look at the coroutine: after a loop that ran to its
end, `begin` resumes a coroutine at its final suspension. `iteration_iff` says that this is the
only way to go wrong.
-/

namespace Bop.Generator

open Coroutine (Handle Heap resume_of_done)

/-! ## The loops -/

/-- Where the program is in `for (auto x : generator)`. -/
inductive Pc
  | outside                 -- between two loops
  | test (it : Handle)      -- __begin != __end
  | body (it : Handle)      -- the body of the loop
  deriving DecidableEq

/-- The state of the program; its generator has the frame of a coroutine. -/
structure Loops (B T : Type) where
  heap : Heap (Frame B T)
  generator : Handle
  pc : Pc
  /-- the values that the loops visited, oldest first -/
  visited : List T
  /-- some loop ran to its end -/
  ended : Bool

inductive Action
  | start   -- auto __begin = generator.begin(), __end = generator.end();
  | test    -- if (__begin != __end) x = *__begin;
  | next    -- ++__begin
  | leave   -- break;
  deriving DecidableEq

section Loops

variable {B T : Type} (next : B → Option (T × B))

/-- The program before its first loop; `get_return_object` made the generator. -/
def Loops.init (b : B) : Loops B T where
  heap := ⟨fun n => if n = 0 then some { body := b } else none, true⟩
  generator := some 0
  pc := .outside
  visited := []
  ended := false

def Loops.step (s : Loops B T) : Action → Option (Loops B T)
  | .start =>
      match s.pc with
      | .outside =>
          let (heap, it) := begin next s.heap s.generator
          some { s with heap := heap, pc := .test it }
      | _ => none
  | .test =>
      match s.pc with
      | .test it =>
          match Iter.atEnd s.heap it with
          | (true, heap) => some { s with heap := heap, pc := .outside, ended := true }
          | (false, heap) =>
              let (x, heap) := Iter.value heap it
              some { s with heap := heap, pc := .body it, visited := s.visited ++ x.toList }
      | _ => none
  | .next =>
      match s.pc with
      | .body it =>
          let (heap, it) := Iter.increment next s.heap it
          some { s with heap := heap, pc := .test it }
      | _ => none
  | .leave =>
      match s.pc with
      | .body _ => some { s with pc := .outside }
      | _ => none

/-- What the loops should have done. Nothing was resumed that is null or at its final suspension,
and they visited the values in order, all of them once a loop ran to its end. -/
structure Loops.Iterates (xs : List T) (s : Loops B T) : Prop where
  defined : s.heap.defined = true
  visited : s.visited <+: xs
  complete : s.ended = true → s.visited = xs

/-- A loop is not started after one that ran to its end. -/
def Loops.Fresh (s : Loops B T) (a : Action) : Prop := a = .start → s.ended = false

instance (s : Loops B T) (a : Action) : Decidable (s.Fresh a) :=
  inferInstanceAs (Decidable (_ → _))

/-! ## The invariant -/

/-- The coroutine at the control point: what the loops visited, the value at the iterator if it
was not visited yet, and what is left are the values of the body. -/
def Loops.At (s : Loops B T) (f : Frame B T) (rest xs : List T) : Pc → Prop
  | .outside => f.done = s.ended ∧ s.visited ++ rest = xs
  | .test it => s.ended = false ∧
      ((f.done = true ∧ (it = none ∨ it = some 0) ∧ s.visited = xs) ∨
        (f.done = false ∧ it = some 0 ∧
          ∃ x, f.currentValue = some x ∧ s.visited ++ x :: rest = xs))
  | .body it => s.ended = false ∧ f.done = false ∧ it = some 0 ∧ s.visited ++ rest = xs

structure Loops.Iterating (xs : List T) (s : Loops B T) : Prop where
  defined : s.heap.defined = true
  generator : s.generator = some 0
  coroutine : ∃ f rest, s.heap.frame 0 = some f ∧ Produces next f.body rest ∧
    (f.done = true → rest = []) ∧ s.At f rest xs s.pc

variable {next} {s s' : Loops B T} {xs : List T} {a : Action} {b : B}

theorem iterating_init (hb : Produces next b xs) : (Loops.init b).Iterating next xs where
  defined := rfl
  generator := rfl
  coroutine := ⟨{ body := b }, xs, rfl, hb, (fun h => by cases h), rfl, rfl⟩

theorem Loops.Iterating.iterates (h : s.Iterating next xs) : s.Iterates xs := by
  obtain ⟨f, rest, -, -, hdone, hat⟩ := h.coroutine
  refine ⟨h.defined, ?_, fun hended => ?_⟩
  · cases hpc : s.pc with
    | outside =>
        rw [hpc] at hat
        exact ⟨rest, hat.2⟩
    | test it =>
        rw [hpc] at hat
        rcases hat.2 with ⟨-, -, heq⟩ | ⟨-, -, x, -, heq⟩
        · exact heq ▸ List.prefix_rfl
        · exact ⟨x :: rest, heq⟩
    | body it =>
        rw [hpc] at hat
        exact ⟨rest, hat.2.2.2⟩
  · cases hpc : s.pc with
    | outside =>
        rw [hpc] at hat
        have hrest : rest = [] := hdone (hat.1.trans hended)
        rw [← hat.2, hrest, List.append_nil]
    | test it | body it =>
        rw [hpc] at hat
        rw [hat.1] at hended
        cases hended

/-! ## One step -/

/-- The coroutine is resumed: the next value is at the iterator, or the end. -/
theorem resume_at {f : Frame B T} {rest : List T} (hrest : Produces next f.body rest) :
    ∃ rest', Produces next (f.resume next).body rest' ∧
      ((f.resume next).done = true → rest' = []) ∧
      (((f.resume next).done = true ∧ rest = []) ∨
        ((f.resume next).done = false ∧
          ∃ x, (f.resume next).currentValue = some x ∧ rest = x :: rest')) := by
  cases rest with
  | nil =>
      rw [resume_of_produces_nil hrest]
      exact ⟨[], hrest, fun _ => rfl, Or.inl ⟨rfl, rfl⟩⟩
  | cons x xs =>
      obtain ⟨b, hg, hxs⟩ := resume_of_produces_cons hrest
      rw [hg]
      refine ⟨xs, hxs, fun hdone => ?_, Or.inr ⟨rfl, x, rfl, rfl⟩⟩
      cases hdone

theorem Loops.Iterating.start (h : s.Iterating next xs) (hfresh : s.ended = false)
    (hs : s.step next .start = some s') : s'.Iterating next xs := by
  obtain ⟨f, rest, hf, hrest, -, hat⟩ := h.coroutine
  simp only [Loops.step] at hs
  split at hs
  case h_2 => cases hs
  case h_1 hpc =>
    rw [hpc] at hat
    obtain ⟨hended, heq⟩ := hat
    obtain ⟨rest', hrest', hdone', hcase⟩ := resume_at hrest
    have hframe : Function.update s.heap.frame 0 (some (f.resume next)) 0 =
        some (f.resume next) := Function.update_self ..
    rw [h.generator, begin_of_frame hf (hended.trans hfresh)] at hs
    obtain rfl := Option.some.inj hs
    refine ⟨h.defined, rfl, _, rest', hframe, hrest', hdone', hfresh, ?_⟩
    rcases hcase with ⟨hg, rfl⟩ | ⟨hg, x, hx, rfl⟩
    · exact Or.inl ⟨hg, Or.inr rfl, by rwa [List.append_nil] at heq⟩
    · exact Or.inr ⟨hg, rfl, x, hx, heq⟩

theorem Loops.Iterating.increment (h : s.Iterating next xs) (hs : s.step next .next = some s') :
    s'.Iterating next xs := by
  obtain ⟨f, rest, hf, hrest, -, hat⟩ := h.coroutine
  simp only [Loops.step] at hs
  split at hs
  case h_2 => cases hs
  case h_1 it hpc =>
    rw [hpc] at hat
    obtain ⟨hended, hdone, rfl, heq⟩ := hat
    obtain ⟨rest', hrest', hdone', hcase⟩ := resume_at hrest
    have hframe : Function.update s.heap.frame 0 (some (f.resume next)) 0 =
        some (f.resume next) := Function.update_self ..
    rw [increment_of_frame hf hdone] at hs
    obtain rfl := Option.some.inj hs
    refine ⟨h.defined, h.generator, _, rest', hframe, hrest', hdone', hended, ?_⟩
    rcases hcase with ⟨hg, rfl⟩ | ⟨hg, x, hx, rfl⟩
    · exact Or.inl ⟨hg, Or.inl (if_pos hg), by rwa [List.append_nil] at heq⟩
    · exact Or.inr ⟨hg, if_neg (by rw [hg]; exact Bool.false_ne_true), x, hx, heq⟩

theorem Loops.Iterating.test (h : s.Iterating next xs) (hs : s.step next .test = some s') :
    s'.Iterating next xs := by
  obtain ⟨f, rest, hf, hrest, hdone, hat⟩ := h.coroutine
  simp only [Loops.step] at hs
  split at hs
  case h_2 => cases hs
  case h_1 it hpc =>
    rw [hpc] at hat
    obtain ⟨hended, hcase⟩ := hat
    rcases hcase with ⟨hf', hit, heq⟩ | ⟨hf', rfl, x, hx, heq⟩
    · -- the iterator is null, or its coroutine is done
      have hend : Iter.atEnd s.heap it = (true, s.heap) := by
        rcases hit with rfl | rfl
        · rfl
        · rw [atEnd_of_frame hf, hf']
      rw [hend] at hs
      obtain rfl := Option.some.inj hs
      refine ⟨h.defined, h.generator, f, rest, hf, hrest, hdone, hf', ?_⟩
      rw [hdone hf', List.append_nil]
      exact heq
    · have hend : Iter.atEnd s.heap (some 0) = (false, s.heap) := by
        rw [atEnd_of_frame hf, hf']
      rw [hend] at hs
      simp only [value_of_frame hf hx] at hs
      obtain rfl := Option.some.inj hs
      refine ⟨h.defined, h.generator, f, rest, hf, hrest, hdone, hended, hf', rfl, ?_⟩
      calc (s.visited ++ [x]) ++ rest
          = s.visited ++ x :: rest := List.append_cons .. |>.symm
        _ = xs := heq

/-- A loop that is left leaves the other values for the next loop. -/
theorem Loops.Iterating.leave (h : s.Iterating next xs) (hs : s.step next .leave = some s') :
    s'.Iterating next xs := by
  obtain ⟨f, rest, hf, hrest, hdone, hat⟩ := h.coroutine
  simp only [Loops.step] at hs
  split at hs
  case h_2 => cases hs
  case h_1 it hpc =>
    rw [hpc] at hat
    obtain ⟨hended, hf', -, heq⟩ := hat
    obtain rfl := Option.some.inj hs
    exact ⟨h.defined, h.generator, f, rest, hf, hrest, hdone, hf'.trans hended.symm, heq⟩

theorem Loops.Iterating.step (h : s.Iterating next xs) (hC : s.Fresh a)
    (hs : s.step next a = some s') : s'.Iterating next xs := by
  cases a with
  | start => exact h.start (hC rfl) hs
  | test => exact h.test hs
  | next => exact h.increment hs
  | leave => exact h.leave hs

/-- A loop after one that ran to its end resumes the coroutine at its final suspension. -/
theorem Loops.Iterating.undefined (h : s.Iterating next xs) (hended : s.ended = true)
    (hs : s.step next .start = some s') : s'.heap.defined = false := by
  obtain ⟨f, rest, hf, -, -, hat⟩ := h.coroutine
  simp only [Loops.step] at hs
  split at hs
  case h_2 => cases hs
  case h_1 hpc =>
    rw [hpc] at hat
    rw [h.generator, begin, Option.isSome_some, if_pos rfl,
      resume_of_done hf (hat.1.trans hended)] at hs
    obtain rfl := Option.some.inj hs
    rfl

/-! ## All loops -/

/-- **When the loops do what they should.** Take a body that yields the values `xs` and returns,
and any program of loops over the generator, each of which runs to its end or is left anywhere.
In all the states of the program the loops iterate as they should iff no loop is started after
one that ran to its end. -/
theorem iteration_iff (hb : Produces next b xs) {tr : List (Loops B T × Action)}
    (h : Transition.Run (Loops.step next) (Loops.init b) tr s) :
    (∀ y ∈ Transition.visited tr s, y.Iterates xs) ↔ ∀ p ∈ tr, p.1.Fresh p.2 := by
  refine h.visited_iff (D := fun _ _ => True) (I := Loops.Iterating next xs) (fun _ _ => trivial)
    (iterating_init hb) (fun hI _ hC hs => hI.step hC hs) Loops.Iterating.iterates ?_
  rintro s a s' hI - hC hs hP
  have hbad : a = .start ∧ s.ended = true := by
    unfold Loops.Fresh at hC
    push Not at hC
    simpa using hC
  obtain ⟨rfl, hended⟩ := hbad
  have hdefined : s'.heap.defined = true := hP.defined
  rw [hI.undefined hended hs] at hdefined
  cases hdefined

end Loops

/-- Two values: the first loop is left at the first one, the second runs to its end. -/
theorem iteration_iff_two : ∃ tr s, Transition.Run (Loops.step uncons) (Loops.init [4, 5]) tr s ∧
    s.ended = true ∧ s.Iterates [4, 5] := by
  have hexec : ((Transition.exec (Loops.step uncons) Loops.Fresh (Loops.init [4, 5])
      [.start, .test, .leave, .start, .test, .next, .test]).any fun s => s.ended) = true := by
    decide
  obtain ⟨tr, s, hrun, -, hfresh, hs⟩ := Transition.exists_run_of_exec hexec
  refine ⟨tr, s, hrun, hs, (iteration_iff ?_ hrun).mpr hfresh s
    (Transition.mem_visited_self tr s)⟩
  exact ⟨[5], rfl, [], rfl, rfl⟩

/-- A second loop after one that ran to its end. -/
theorem not_iteration : ∃ tr s, Transition.Run (Loops.step uncons) (Loops.init [4]) tr s ∧
    Produces uncons [4] [4] ∧ ¬ s.Iterates [4] := by
  have hexec : ((Transition.exec (Loops.step uncons) (fun _ _ => True) (Loops.init [4])
      [.start, .test, .next, .test, .start]).any fun s => !s.heap.defined) = true := by
    decide
  obtain ⟨tr, s, hrun, -, -, hs⟩ := Transition.exists_run_of_exec hexec
  refine ⟨tr, s, hrun, ⟨[], rfl, rfl⟩, fun hI => ?_⟩
  rw [hI.defined] at hs
  cases hs

end Bop.Generator
