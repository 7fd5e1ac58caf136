import Mathlib.Logic.Function.Basic
import Bop.Basic.Lifetime

set_option autoImplicit false

/-! # Coroutine handles

`std::coroutine_handle` is a pointer to the frame of a coroutine. The frames are in a heap and a
handle is the number of a frame, or null. To resume, to query or to destroy through a null
handle or the handle of a destroyed frame is undefined, and so is to resume a coroutine at its
final suspension; the heap remembers that it happened.

The objects of a class that owns a frame each have a handle (`Owners`). The record has what they
did to the frames. It is kept in order (`Owners.Sound`) by an object that is made for a new
coroutine, that uses its frame, that destroys it and lets it go, and that gives it to an object
without one.
-/

namespace Bop.Coroutine

open Lifetime (Event Alive Proper Owned)

abbrev Handle := Option Nat

/-- What holds for all entries holds after a new one was written. -/
theorem forall_update {α : Type} {Q : α → Prop} {g : Nat → Option α} {n : Nat} {o : Option α}
    (h : ∀ m x, g m = some x → Q x) (ho : ∀ x ∈ o, Q x) :
    ∀ m x, Function.update g n o m = some x → Q x := by
  intro m x hm
  by_cases hmn : m = n
  · rw [hmn, Function.update_self] at hm
    exact ho x hm
  · rw [Function.update_of_ne hmn] at hm
    exact h m x hm

/-! ## Frames -/

/-- The frames of the coroutines; `none` where there is no frame, or was one. -/
structure Heap (F : Type) where
  frame : Nat → Option F
  /-- no operation on a handle so far had undefined behavior -/
  defined : Bool

section Heap

variable {F : Type} (isDone : F → Bool) (run : F → F)

def Heap.undefined (h : Heap F) : Heap F := { h with defined := false }

/-- `handle.resume()` -/
def Heap.resume (h : Heap F) (c : Handle) : Heap F :=
  match c with
  | none => h.undefined
  | some n =>
      match h.frame n with
      | none => h.undefined
      | some f =>
          if isDone f then h.undefined
          else { h with frame := Function.update h.frame n (some (run f)) }

/-- `handle.done()` -/
def Heap.done (h : Heap F) (c : Handle) : Bool × Heap F :=
  match c.bind h.frame with
  | some f => (isDone f, h)
  | none => (true, h.undefined)

/-- `handle.destroy()` -/
def Heap.destroy (h : Heap F) (c : Handle) : Heap F :=
  match c with
  | none => h.undefined
  | some n =>
      match h.frame n with
      | none => h.undefined
      | some _ => { h with frame := Function.update h.frame n none }

variable {isDone run} {h : Heap F} {n : Nat} {f : F}

theorem resume_of_frame (hn : h.frame n = some f) (hf : isDone f = false) :
    h.resume isDone run (some n) =
      { h with frame := Function.update h.frame n (some (run f)) } := by
  simp [Heap.resume, hn, hf]

theorem resume_of_done (hn : h.frame n = some f) (hf : isDone f = true) :
    h.resume isDone run (some n) = h.undefined := by
  simp [Heap.resume, hn, hf]

theorem done_of_frame (hn : h.frame n = some f) : h.done isDone (some n) = (isDone f, h) := by
  simp [Heap.done, hn]

theorem destroy_of_frame (hn : h.frame n = some f) :
    h.destroy (some n) = { h with frame := Function.update h.frame n none } := by
  simp [Heap.destroy, hn]

theorem destroy_frame (h : Heap F) (c : Handle) :
    (h.destroy c).frame = h.frame ∨ ∃ n, (h.destroy c).frame = Function.update h.frame n none := by
  unfold Heap.destroy
  split
  · exact Or.inl rfl
  · split
    · exact Or.inl rfl
    · exact Or.inr ⟨_, rfl⟩

/-! Which operations are defined. -/

theorem resume_defined {c : Handle} : (h.resume isDone run c).defined = true ↔
    h.defined = true ∧ ∃ n f, c = some n ∧ h.frame n = some f ∧ isDone f = false := by
  cases c with
  | none => simp [Heap.resume, Heap.undefined]
  | some n =>
      cases hn : h.frame n with
      | none => simp [Heap.resume, hn, Heap.undefined]
      | some f =>
          by_cases hf : isDone f = true
          · rw [resume_of_done hn hf]
            simp [Heap.undefined, hn, hf]
          · simp [Heap.resume, hn, hf]

theorem done_defined {c : Handle} : (h.done isDone c).2.defined = true ↔
    h.defined = true ∧ (c.bind h.frame).isSome = true := by
  unfold Heap.done
  split
  case h_1 f hf => simp [hf]
  case h_2 hnone => simp [hnone, Heap.undefined]

/-- To resume makes and destroys no frame. -/
theorem resume_isSome (h : Heap F) (c : Handle) (n : Nat) :
    ((h.resume isDone run c).frame n).isSome = (h.frame n).isSome := by
  cases c with
  | none => rfl
  | some m =>
      cases hm : h.frame m with
      | none => simp [Heap.resume, hm, Heap.undefined]
      | some f =>
          by_cases hf : isDone f = true
          · rw [resume_of_done hm hf]
            rfl
          · rw [resume_of_frame hm (Bool.not_eq_true _ ▸ hf)]
            by_cases hn : n = m
            · simp [hn, hm]
            · simp [hn]

theorem done_frame (h : Heap F) (c : Handle) : (h.done isDone c).2.frame = h.frame := by
  unfold Heap.done
  split
  · rfl
  · rfl

end Heap

/-! ## Owners -/

/-- The objects that own frames, by their addresses, and what they did. -/
structure Owners (F : Type) where
  heap : Heap F
  /-- `m_Coroutine` or `m_Handle` of an object; `none` if there is no object -/
  handle : Nat → Option Handle
  /-- the number of the next frame -/
  nextFrame : Nat
  /-- newest first -/
  log : List (Event Nat)

section Owners

variable {F : Type}

def Owners.init : Owners F := ⟨⟨fun _ => none, true⟩, fun _ => none, 0, []⟩

def Owners.set (s : Owners F) (g : Nat) (c : Handle) : Owners F :=
  { s with handle := Function.update s.handle g (some c) }

/-- The object goes away, without a look at its handle. -/
def Owners.remove (s : Owners F) (g : Nat) : Owners F :=
  { s with handle := Function.update s.handle g none }

def Owners.record (s : Owners F) (e : Event Nat) : Owners F := { s with log := e :: s.log }

/-- A coroutine is called: its frame is allocated, and an object is made from its promise. -/
def Owners.create (s : Owners F) (g : Nat) (f : F) : Owners F :=
  { (s.set g (some s.nextFrame)).record (.made s.nextFrame) with
    heap := { s.heap with frame := Function.update s.heap.frame s.nextFrame (some f) }
    nextFrame := s.nextFrame + 1 }

/-- `if (m_Handle) m_Handle.destroy();` -/
def Owners.destroy (s : Owners F) (c : Handle) : Owners F :=
  match c with
  | some n => { s.record (.destroyed n) with heap := s.heap.destroy (some n) }
  | none => s

/-- The frame that an object owns. -/
def Owners.held (s : Owners F) (g : Nat) : Option Nat := (s.handle g).join

/-- The objects own the frames that exist, each of them once. -/
structure Owners.Sound (s : Owners F) : Prop where
  owned : Owned s.held s.log
  fresh : ∀ {n}, .made n ∈ s.log → n < s.nextFrame
  frame : ∀ n, (s.heap.frame n).isSome = true ↔ Alive s.log n

variable {s s' : Owners F} {g source n : Nat} {c : Handle} {o : Option Handle}

theorem held_of_handle (h : s.handle g = some c) : s.held g = c := by
  rw [Owners.held, h, Option.join_some]

theorem held_of_none (h : s.handle g = none) : s.held g = none := by
  rw [Owners.held, h, Option.join_none]

theorem held_update (h : s'.handle = Function.update s.handle g o) :
    s'.held = Function.update s.held g o.join := by
  funext k
  by_cases hk : k = g
  · rw [hk, Function.update_self, Owners.held, h, Function.update_self]
  · rw [Function.update_of_ne hk, Owners.held, h, Function.update_of_ne hk, Owners.held]

theorem destroy_handle : (s.destroy c).handle = s.handle := by
  cases c with
  | none => rfl
  | some n => rfl

theorem destroy_log (s : Owners F) (c : Handle) :
    (s.destroy c).log = (c.toList.map .destroyed) ++ s.log := by
  cases c with
  | none => rfl
  | some n => rfl

theorem Owners.sound_init : (Owners.init : Owners F).Sound where
  owned := .nil
  fresh h := by cases h
  frame n := by simp [Owners.init, Alive]

/-- An object that holds no frame is put where there is none, or where one holds none. -/
theorem Owners.Sound.put (h : s.Sound) (hg : s.held g = none) (ho : o.join = none) :
    Sound { s with handle := Function.update s.handle g o } where
  owned := by
    have hself : Function.update s.held g none = s.held := by
      rw [← hg, Function.update_eq_self]
    rw [held_update rfl, ho, hself]
    exact h.owned
  fresh := h.fresh
  frame := h.frame

theorem Owners.Sound.create (h : s.Sound) (hg : s.handle g = none) (f : F) :
    (s.create g f).Sound := by
  have hnew : .made s.nextFrame ∉ s.log := fun hm => Nat.lt_irrefl _ (h.fresh hm)
  constructor
  case owned =>
    rw [held_update (s := s) (o := some (some s.nextFrame)) rfl]
    exact h.owned.make (held_of_none hg) hnew
  case fresh =>
    intro n hm
    show n < s.nextFrame + 1
    rcases List.mem_cons.mp hm with hm | hm
    · obtain rfl := Event.made.inj hm
      exact Nat.lt_succ_self _
    · exact Nat.lt_succ_of_lt (h.fresh hm)
  case frame =>
    intro n
    show (Function.update s.heap.frame s.nextFrame _ n).isSome = true ↔
      Alive (.made s.nextFrame :: s.log) n
    by_cases hn : n = s.nextFrame
    · rw [hn, Function.update_self]
      exact iff_of_true rfl (h.owned.proper.alive_made hnew)
    · rw [Function.update_of_ne hn, Lifetime.alive_made_of_ne hn, h.frame n]

/-- The frame of an object is destroyed; the object has to let it go. -/
theorem Owners.Sound.destroy (h : s.Sound) (hg : s.handle g = some c) (ho : o.join = none) :
    Sound { s.destroy c with handle := Function.update s.handle g o } := by
  have hheld : s.held g = c := held_of_handle hg
  cases c with
  | none => exact h.put hheld ho
  | some n =>
      constructor
      case owned =>
        rw [held_update (s := s) (o := o) rfl, ho]
        exact h.owned.destroy hheld
      case fresh =>
        intro m hm
        rcases List.mem_cons.mp hm with hm | hm
        · cases hm
        · exact h.fresh hm
      case frame =>
        obtain ⟨f, hf⟩ := Option.isSome_iff_exists.mp ((h.frame n).mpr (h.owned.alive hheld))
        intro m
        show ((s.heap.destroy (some n)).frame m).isSome = true ↔ Alive (.destroyed n :: s.log) m
        rw [destroy_of_frame hf, Lifetime.alive_destroyed, ← h.frame m]
        by_cases hm : m = n
        · simp [hm]
        · simp [hm]

/-- Frames change, and none is made or destroyed. -/
theorem Owners.Sound.change (h : s.Sound) {heap : Heap F}
    (hheap : ∀ m, (heap.frame m).isSome = (s.heap.frame m).isSome) :
    Sound { s with heap := heap } where
  owned := h.owned
  fresh := h.fresh
  frame m := by
    show (heap.frame m).isSome = true ↔ Alive s.log m
    rw [hheap, h.frame m]

/-- An object uses its frame, which makes and destroys no frame. -/
theorem Owners.Sound.use (h : s.Sound) (hg : s.held g = some n) {heap : Heap F}
    (hheap : ∀ m, (heap.frame m).isSome = (s.heap.frame m).isSome) :
    Sound { s.record (.used n) with heap := heap } :=
  have hused : (s.record (.used n)).Sound :=
    { owned := h.owned.use hg
      fresh := fun hm => by
        rcases List.mem_cons.mp hm with hm | hm
        · cases hm
        · exact h.fresh hm
      frame := fun m => by
        show (s.heap.frame m).isSome = true ↔ Alive (.used n :: s.log) m
        rw [Lifetime.alive_used, h.frame m] }
  hused.change hheap

/-- The frames that exist are those that an object owns. -/
theorem Owners.Sound.exists_iff (h : s.Sound) :
    (s.heap.frame n).isSome = true ↔ ∃ g, s.held g = some n := by
  rw [h.frame n]
  exact ⟨h.owned.owner, fun ⟨_, hg⟩ => h.owned.alive hg⟩

/-- The handle of an object is moved to one that holds none. -/
theorem Owners.Sound.move (h : s.Sound) (hg : s.held g = none)
    (hsource : s.handle source = some c) (hne : source ≠ g) :
    ((s.set g c).set source none).Sound where
  owned := by
    have hheld : ((s.set g c).set source none).held =
        Function.update (Function.update s.held source none) g (s.held source) := by
      rw [held_update (s := s.set g c) (o := some none) rfl, held_update (s := s) (o := some c) rfl,
        Function.update_comm hne, held_of_handle hsource]
      rfl
    rw [hheld]
    exact h.owned.move hg
  fresh := h.fresh
  frame := h.frame

/-- Once there is no object, every frame was destroyed exactly once. -/
theorem Owners.Sound.destroyed_once (h : s.Sound) (hnone : ∀ g, s.handle g = none)
    (hn : .made n ∈ s.log) : s.log.count (.destroyed n) = 1 :=
  h.owned.destroyed_once (fun g => held_of_none (hnone g)) hn

end Owners

end Bop.Coroutine
