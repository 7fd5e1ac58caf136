import Bop.Coroutine.Iteration

set_option autoImplicit false

/-! # A range-for over a new generator

`for (auto x : generator)` that is not left by `break`: the loops of `Iteration.lean` with one
action at each control point. `visits_iff` says that the statement terminates and visits the
values `xs`, without undefined behavior, iff the body of the coroutine yields these values and
returns.
-/

namespace Bop.Generator

open Coroutine (resume_of_frame done_of_frame)

section RangeFor

variable {B T : Type}

/-- What the statement does next; it is done when there is nothing. -/
def Loops.turn (s : Loops B T) : Option Action :=
  match s.pc with
  | .outside => if s.ended then none else some .start
  | .test _ => some .test
  | .body _ => some .next

variable (next : B → Option (T × B))

/-- The statement terminates, and it visited `xs`. -/
def Visits (b : B) (xs : List T) : Prop :=
  ∃ tr s, Transition.Run (Loops.step next) (Loops.init b) tr s ∧
    (∀ p ∈ tr, p.1.turn = some p.2) ∧ s.turn = none ∧ s.visited = xs ∧ s.heap.defined = true

/-- What the body of the coroutine still yields is what it yields from its start, without the
values that were taken. -/
def Remains (b : B) (taken : List T) (c : B) : Prop :=
  ∀ rest, Produces next c rest → Produces next b (taken ++ rest)

/-- The coroutine during the statement. -/
def Loops.Took (b : B) (s : Loops B T) (f : Frame B T) : Pc → Prop
  | .outside => Remains next b s.visited f.body ∧
      f.done = s.ended ∧ (s.ended = true → next f.body = none)
  | .test it => s.ended = false ∧
      ((f.done = true ∧ next f.body = none ∧ (it = none ∨ it = some 0) ∧
          Remains next b s.visited f.body) ∨
        (f.done = false ∧ it = some 0 ∧
          ∃ x, f.currentValue = some x ∧ Remains next b (s.visited ++ [x]) f.body))
  | .body it => s.ended = false ∧ f.done = false ∧ it = some 0 ∧ Remains next b s.visited f.body

structure Loops.Taking (b : B) (s : Loops B T) : Prop where
  generator : s.generator = some 0
  coroutine : ∃ f, s.heap.frame 0 = some f ∧ s.Took next b f s.pc

variable {next} {s s' : Loops B T} {xs : List T} {a : Action} {b c : B} {taken : List T} {x : T}

theorem Loops.ended_of_turn (h : s.turn = none) : s.pc = .outside ∧ s.ended = true := by
  cases hpc : s.pc with
  | outside =>
      refine ⟨rfl, ?_⟩
      by_contra hno
      simp [Loops.turn, hpc, hno] at h
  | test it | body it =>
      simp only [Loops.turn, hpc] at h
      cases h

theorem Remains.cons (h : Remains next b taken c) {c' : B} (hc : next c = some (x, c')) :
    Remains next b (taken ++ [x]) c' := by
  intro rest hrest
  rw [List.append_assoc]
  exact h (x :: rest) ⟨c', hc, hrest⟩

theorem taking_init (b : B) : (Loops.init b : Loops B T).Taking next b where
  generator := rfl
  coroutine := ⟨{ body := b }, rfl, fun _ hrest => hrest, rfl, fun h => by cases h⟩

/-- The coroutine is resumed: it yields a value more, or it returns. -/
theorem Remains.resume {f : Frame B T} (h : Remains next b taken f.body) :
    ((f.resume next).done = true ∧ next (f.resume next).body = none ∧
      Remains next b taken (f.resume next).body) ∨
    ((f.resume next).done = false ∧ ∃ x, (f.resume next).currentValue = some x ∧
      Remains next b (taken ++ [x]) (f.resume next).body) := by
  cases hf : next f.body with
  | none =>
      rw [show f.resume next = { f with point := .final, currentValue := none } by
        rw [Frame.resume, hf]]
      exact Or.inl ⟨rfl, hf, h⟩
  | some p =>
      obtain ⟨x, c⟩ := p
      rw [show f.resume next = { point := .yielded, body := c, currentValue := some x } by
        rw [Frame.resume, hf]]
      exact Or.inr ⟨rfl, x, rfl, h.cons hf⟩

theorem Loops.Taking.step (h : s.Taking next b) (ha : s.turn = some a)
    (hs : s.step next a = some s') : s'.Taking next b := by
  obtain ⟨f, hf, htook⟩ := h.coroutine
  have hframe : Function.update s.heap.frame 0 (some (f.resume next)) 0 =
      some (f.resume next) := Function.update_self ..
  cases hpc : s.pc with
  | outside =>
      rw [hpc] at htook
      obtain ⟨hrem, hdone, -⟩ := htook
      cases hended : s.ended with
      | true =>
          simp only [Loops.turn, hpc, hended, if_true] at ha
          cases ha
      | false =>
          simp only [Loops.turn, hpc, hended, Bool.false_eq_true, if_false] at ha
          obtain rfl := Option.some.inj ha
          simp only [Loops.step, hpc, h.generator, begin_of_frame hf (hdone.trans hended)] at hs
          obtain rfl := Option.some.inj hs
          refine ⟨rfl, f.resume next, hframe, hended, ?_⟩
          rcases hrem.resume with ⟨hg, hnone, hrem⟩ | ⟨hg, x, hx, hrem⟩
          · exact Or.inl ⟨hg, hnone, Or.inr rfl, hrem⟩
          · exact Or.inr ⟨hg, rfl, x, hx, hrem⟩
  | test it =>
      rw [hpc] at htook
      simp only [Loops.turn, hpc] at ha
      obtain rfl := Option.some.inj ha
      obtain ⟨hended, hcase⟩ := htook
      simp only [Loops.step, hpc] at hs
      rcases hcase with ⟨hdone, hnone, hit, hrem⟩ | ⟨hdone, rfl, x, hx, hrem⟩
      · have hend : Iter.atEnd s.heap it = (true, s.heap) := by
          rcases hit with rfl | rfl
          · rfl
          · rw [atEnd_of_frame hf, hdone]
        rw [hend] at hs
        obtain rfl := Option.some.inj hs
        exact ⟨h.generator, f, hf, hrem, hdone, fun _ => hnone⟩
      · rw [atEnd_of_frame hf, hdone] at hs
        simp only [value_of_frame hf hx] at hs
        obtain rfl := Option.some.inj hs
        exact ⟨h.generator, f, hf, hended, hdone, rfl, hrem⟩
  | body it =>
      rw [hpc] at htook
      simp only [Loops.turn, hpc] at ha
      obtain rfl := Option.some.inj ha
      obtain ⟨hended, hdone, rfl, hrem⟩ := htook
      simp only [Loops.step, hpc, increment_of_frame hf hdone] at hs
      obtain rfl := Option.some.inj hs
      refine ⟨h.generator, f.resume next, hframe, hended, ?_⟩
      rcases hrem.resume with ⟨hg, hnone, hrem⟩ | ⟨hg, x, hx, hrem⟩
      · exact Or.inl ⟨hg, hnone, Or.inl (if_pos hg), hrem⟩
      · exact Or.inr ⟨hg, if_neg (by rw [hg]; exact Bool.false_ne_true), x, hx, hrem⟩

/-- What was visited when the statement is done. -/
theorem Loops.Taking.produces (h : s.Taking next b) (hs : s.turn = none) :
    Produces next b s.visited := by
  obtain ⟨hpc, hended⟩ := Loops.ended_of_turn hs
  obtain ⟨f, -, htook⟩ := h.coroutine
  rw [hpc] at htook
  obtain ⟨hrem, -, hnone⟩ := htook
  have hall := hrem [] (hnone hended)
  rwa [List.append_nil] at hall

/-! ## Termination -/

/-- How many steps the statement takes at most, when it is to visit `xs`. -/
def Loops.todo (xs : List T) (s : Loops B T) : Nat :=
  match s.pc with
  | .outside => if s.ended then 0 else 2 * (xs.length - s.visited.length) + 2
  | .test _ => 2 * (xs.length - s.visited.length) + 1
  | .body _ => 2 * (xs.length - s.visited.length) + 2

theorem Loops.Iterating.progress (h : s.Iterating next xs) (ha : s.turn = some a) :
    ∃ s', s.step next a = some s' ∧ s'.Iterating next xs ∧ s'.todo xs < s.todo xs := by
  cases hpc : s.pc with
  | outside =>
      cases hended : s.ended with
      | true =>
          simp only [Loops.turn, hpc, hended, if_true] at ha
          cases ha
      | false =>
          simp only [Loops.turn, hpc, hended, Bool.false_eq_true, if_false] at ha
          obtain rfl := Option.some.inj ha
          have hs : ∃ s', s.step next .start = some s' ∧ s'.visited = s.visited ∧
              ∃ it, s'.pc = .test it := by
            simp only [Loops.step, hpc]
            exact ⟨_, rfl, rfl, _, rfl⟩
          obtain ⟨s', hs, hvisited, it, hpc'⟩ := hs
          refine ⟨s', hs, h.start hended hs, ?_⟩
          simp [Loops.todo, hpc, hpc', hended, hvisited]
  | test it =>
      simp only [Loops.turn, hpc] at ha
      obtain rfl := Option.some.inj ha
      obtain ⟨f, rest, hf, -, -, hat⟩ := h.coroutine
      rw [hpc] at hat
      rcases hat.2 with ⟨hdone, hit, -⟩ | ⟨hdone, rfl, x, hx, heq⟩
      · have hend : Iter.atEnd s.heap it = (true, s.heap) := by
          rcases hit with rfl | rfl
          · rfl
          · rw [atEnd_of_frame hf, hdone]
        have hs : s.step next .test = some { s with pc := .outside, ended := true } := by
          simp only [Loops.step, hpc, hend]
        refine ⟨_, hs, h.test hs, ?_⟩
        simp [Loops.todo, hpc]
      · have hs : s.step next .test =
            some { s with pc := .body (some 0), visited := s.visited ++ [x] } := by
          simp only [Loops.step, hpc, atEnd_of_frame hf, hdone, value_of_frame hf hx]
          rfl
        refine ⟨_, hs, h.test hs, ?_⟩
        have hlen := congrArg List.length heq
        simp only [List.length_append, List.length_cons] at hlen
        simp only [Loops.todo, hpc, List.length_append, List.length_singleton]
        omega
  | body it =>
      simp only [Loops.turn, hpc] at ha
      obtain rfl := Option.some.inj ha
      have hs : ∃ s', s.step next .next = some s' ∧ s'.visited = s.visited ∧
          ∃ it, s'.pc = .test it := by
        simp only [Loops.step, hpc]
        exact ⟨_, rfl, rfl, _, rfl⟩
      obtain ⟨s', hs, hvisited, it', hpc'⟩ := hs
      refine ⟨s', hs, h.increment hs, ?_⟩
      simp [Loops.todo, hpc, hpc', hvisited]

/-- The statement comes to its end. -/
theorem Loops.Iterating.finishes (h : s.Iterating next xs) :
    ∃ tr s', Transition.Run (Loops.step next) s tr s' ∧ (∀ p ∈ tr, p.1.turn = some p.2) ∧
      s'.turn = none ∧ s'.Iterating next xs := by
  induction hm : s.todo xs using Nat.strongRecOn generalizing s with
  | ind m ih =>
      cases ha : s.turn with
      | none => exact ⟨[], s, .nil, by simp, ha, h⟩
      | some a =>
          obtain ⟨s₁, hs, h₁, hlt⟩ := h.progress ha
          obtain ⟨tr, s', hrun, hturn, hdone, h'⟩ := ih _ (hm ▸ hlt) h₁ rfl
          refine ⟨tr ++ [(s, a)], s', (Transition.Run.nil.snoc hs).append hrun, ?_, hdone, h'⟩
          intro p hp
          rcases List.mem_append.mp hp with hp | hp
          · exact hturn p hp
          · rw [List.mem_singleton.mp hp]
            exact ha

/-- **Total correctness of a range-for**: it terminates, and visits `xs` without undefined
behavior, iff the body of the coroutine yields `xs` and returns. -/
theorem visits_iff : Visits next b xs ↔ Produces next b xs := by
  constructor
  case mp =>
    rintro ⟨tr, s, hrun, hturn, hdone, rfl, -⟩
    refine Loops.Taking.produces (hrun.invariant (I := Loops.Taking next b)
      (C := fun s a => s.turn = some a) (taking_init b) ?_ hturn) hdone
    exact fun hI hC hs => hI.step hC hs
  case mpr =>
    intro hb
    obtain ⟨tr, s, hrun, hturn, hdone, hs⟩ := (iterating_init hb).finishes
    exact ⟨tr, s, hrun, hturn, hdone, hs.iterates.complete (Loops.ended_of_turn hdone).2,
      hs.defined⟩

end RangeFor

end Bop.Generator
