import Bop.Basic.Transition

set_option autoImplicit false

/-! # curry

`curry(f, args...)` (`util/curry.h`) calls `f` if it can be called with its own parameters, which
are copies of the arguments and lvalues, and captures them otherwise: the partial application takes
more arguments and starts over.

It should not matter how the arguments are grouped, nor what was done with a partial application
before. `curry_grouping_iff` says for which arguments that is so: those that can be passed as
lvalues. A callable that takes an rvalue reference is never called.
-/

namespace Bop.Util

/-- The type of a callable: its objects are `Fn`, and its arguments are of one type here, as the
types of the arguments only decide about the calls there are. -/
structure Invocable (Fn Arg Result : Type) where
  /-- the callable can be called with the arguments as they are given -/
  invocable : List Arg → Bool
  /-- what such a call returns -/
  call : Fn → List Arg → Result
  /-- `requires { std::invoke(callable, initial_args...); }`, for copies that are lvalues -/
  lvalueInvocable : List Arg → Bool
  /-- what that call returns, and what it leaves in the object and in the arguments -/
  invoke : Fn → List Arg → Result × Fn × List Arg

/-- What `curry` returns. -/
inductive Curried (Fn Arg Result : Type)
  | result (x : Result)
  | lambda (callable : Fn) (initialArgs : List Arg)
  deriving DecidableEq

section Curry

variable {Fn Arg Result : Type} (F : Invocable Fn Arg Result)

def curry (callable : Fn) (initialArgs : List Arg) : Curried Fn Arg Result :=
  if F.lvalueInvocable initialArgs then
    -- the parameters are copies: what the call leaves in them is dropped
    .result (F.invoke callable initialArgs).1
  else .lambda callable initialArgs

/-- `operator()` of the lambda, which is const; nothing but a lambda is applied. -/
def Curried.apply : Curried Fn Arg Result → List Arg → Option (Curried Fn Arg Result)
  | .lambda callable initialArgs, extraArgs => some (curry F callable (initialArgs ++ extraArgs))
  | .result _, _ => none

/-- One application after the other. -/
def Curried.applyAll (c : Curried Fn Arg Result) (groups : List (List Arg)) :
    Option (Curried Fn Arg Result) :=
  groups.foldlM (Curried.apply F) c

/-- `curry(f, group_0)(group_1)..` -/
def curryGroups (f : Fn) : List (List Arg) → Option (Curried Fn Arg Result)
  | [] => none
  | group :: groups => (curry F f group).applyAll F groups

/-! ## Programs -/

inductive Curry.Action (Arg : Type)
  | curry (group : List Arg)
  /-- the object with the index `o` is applied -/
  | apply (o : Nat) (group : List Arg)

/-- A program that keeps everything it gets, oldest first. -/
def Curry.step (f : Fn) (s : List (Curried Fn Arg Result)) :
    Action Arg → Option (List (Curried Fn Arg Result))
  | .curry group => some (s ++ [Bop.Util.curry F f group])
  | .apply o group => (s[o]?.bind fun c => c.apply F group).map fun c => s ++ [c]

/-- The arguments that went into each object, for the actions of a program, newest first. -/
def Curry.arguments : List (Action Arg) → List (List Arg)
  | [] => []
  | .curry group :: as => arguments as ++ [group]
  | .apply o group :: as => arguments as ++ [(arguments as)[o]?.getD [] ++ group]

/-- The callable can be called with `n` arguments, in one way or the other, and with no other number
of them. -/
def Invocable.Takes (n : Nat) : Prop :=
  ∀ l, F.invocable l = true ∨ F.lvalueInvocable l = true → l.length = n

/-- **The grouping does not matter** for the arguments `args`: any groups that make them up come to
the value of `f` at the last one, and are captured before. In every program, whatever else it does,
an object that these arguments went into is that value, and one that some of them went into is a
partial application with these. -/
structure Grouped (f : Fn) (args : List Arg) : Prop where
  complete : ∀ before last, last ≠ [] → (before ++ [last]).flatten = args →
    curryGroups F f (before ++ [last]) = some (.result (F.call f args))
  earlier : ∀ groups, groups ≠ [] → groups.flatten <+: args → groups.flatten ≠ args →
    curryGroups F f groups = some (.lambda f groups.flatten)
  again : ∀ tr (s : List (Curried Fn Arg Result)), Transition.Run (Curry.step F f) [] tr s →
    ∀ o : Nat, (Curry.arguments (tr.map Prod.snd))[o]? = some args →
      s[o]? = some (.result (F.call f args))
  partly : ∀ tr (s : List (Curried Fn Arg Result)), Transition.Run (Curry.step F f) [] tr s →
    ∀ (o : Nat) (l : List Arg), (Curry.arguments (tr.map Prod.snd))[o]? = some l → l <+: args →
      l ≠ args → s[o]? = some (.lambda f l)

variable {F} {f : Fn} {n : Nat} {args last : List Arg} {groups before : List (List Arg)}
  {s s' : List (Curried Fn Arg Result)} {tr : List (List (Curried Fn Arg Result) × Curry.Action Arg)}
  {a : Curry.Action Arg}

/-! ## Groups

The groups are captured until they come to what `curry` does with all of them. -/

section

variable (hn : F.Takes n)

include hn

theorem curry_of_lt (h : args.length < n) : curry F f args = .lambda f args := by
  refine if_neg fun hinv => ?_
  have hlen := hn args (Or.inr hinv)
  omega

/-- As long as arguments are missing they are captured. -/
theorem applyAll_of_lt (h : (args ++ groups.flatten).length < n) :
    (Curried.lambda f args).applyAll F groups = some (.lambda f (args ++ groups.flatten)) := by
  induction groups generalizing args with
  | nil =>
      rw [List.flatten_nil, List.append_nil]
      rfl
  | cons group groups ih =>
      rw [List.flatten_cons, ← List.append_assoc] at h ⊢
      have hlt : (args ++ group).length < n := by
        rw [List.length_append] at h
        omega
      rw [← ih h, ← curry_of_lt hn hlt]
      rfl

theorem curryGroups_of_lt (hne : groups ≠ []) (h : groups.flatten.length < n) :
    curryGroups F f groups = some (.lambda f groups.flatten) := by
  cases groups with
  | nil => exact absurd rfl hne
  | cons group groups =>
      rw [List.flatten_cons] at h ⊢
      have hlt : group.length < n := by
        rw [List.length_append] at h
        omega
      rw [curryGroups, curry_of_lt hn hlt]
      exact applyAll_of_lt hn h

/-- The last group decides. -/
theorem curryGroups_complete (hlast : last ≠ [])
    (hlen : (before ++ [last]).flatten.length = n) :
    curryGroups F f (before ++ [last]) = some (curry F f (before ++ [last]).flatten) := by
  have hpos := List.length_pos_of_ne_nil hlast
  cases before with
  | nil => simp [curryGroups, Curried.applyAll]
  | cons group before =>
      simp only [List.cons_append, List.flatten_cons, List.flatten_append, List.flatten_nil,
        List.append_nil, List.length_append] at hlen ⊢
      have hgroup : group.length < n := by omega
      have hbefore : (group ++ before.flatten).length < n := by
        rw [List.length_append]
        omega
      rw [curryGroups, curry_of_lt hn hgroup, Curried.applyAll, List.foldlM_append]
      have hcaptured := applyAll_of_lt (f := f) hn hbefore
      rw [Curried.applyAll] at hcaptured
      rw [hcaptured, ← List.append_assoc]
      rfl

end

/-! ## Programs -/

/-- **An object is what its arguments make it**, whatever happened before and in between. -/
theorem run_objects (h : Transition.Run (Curry.step F f) [] tr s) :
    s = (Curry.arguments (tr.map Prod.snd)).map (curry F f) := by
  induction h with
  | nil => rfl
  | @snoc tr s s' a _ hs ih =>
      cases a with
      | curry group =>
          obtain rfl := Option.some.inj hs
          rw [List.map_cons, Curry.arguments, List.map_append, ← ih]
          rfl
      | apply o group =>
          obtain ⟨d, hd, rfl⟩ := Option.map_eq_some_iff.mp hs
          obtain ⟨c, hc, hcd⟩ := Option.bind_eq_some_iff.mp hd
          -- the object is a partial application of `f` to the arguments that went into it
          rw [ih, List.getElem?_map, Option.map_eq_some_iff] at hc
          obtain ⟨l, hl, rfl⟩ := hc
          have hd' : d = curry F f (l ++ group) := by
            unfold curry at hcd
            split at hcd
            · cases hcd
            · exact (Option.some.inj hcd).symm
          rw [List.map_cons, Curry.arguments, List.map_append, ← ih, hl, hd']
          rfl

/-- **When the grouping does not matter.** Let `f` take `n` arguments, at least one, and be callable
with `args`. They may be grouped in any way, and partial applications used as often as one likes, iff
`f` can be called with these arguments as lvalues, and returns the same for them. -/
theorem curry_grouping_iff (hn : F.Takes n) (hpos : 0 < n) (hargs : F.invocable args = true) :
    Grouped F f args ↔
      F.lvalueInvocable args = true ∧ (F.invoke f args).1 = F.call f args := by
  have hlen : args.length = n := hn args (Or.inl hargs)
  have hshort : ∀ {l : List Arg}, l <+: args → l ≠ args → l.length < n := by
    intro l hpre hne
    have hle := hpre.length_le
    have hlt : l.length ≠ args.length := fun heq => hne (hpre.eq_of_length heq)
    omega
  constructor
  · intro h
    -- all the arguments in one group
    have hne : args ≠ [] := List.ne_nil_of_length_pos (hlen ▸ hpos)
    have hone := h.complete [] args hne (List.append_nil args)
    have hcurry : curry F f args = .result (F.call f args) := Option.some.inj hone
    unfold curry at hcurry
    split at hcurry
    case isTrue hinv => exact ⟨hinv, Curried.result.inj hcurry⟩
    case isFalse => cases hcurry
  · rintro ⟨hinv, hsame⟩
    have hcurry : curry F f args = .result (F.call f args) := by
      rw [curry, if_pos hinv, hsame]
    refine ⟨fun before last hlast hflat => ?_, fun groups hne hpre hnot => ?_,
      fun tr s hrun o ho => ?_, fun tr s hrun o l ho hpre hnot => ?_⟩
    · rw [curryGroups_complete hn hlast (hflat ▸ hlen), hflat, hcurry]
    · exact curryGroups_of_lt hn hne (hshort hpre hnot)
    · rw [run_objects hrun, List.getElem?_map, ho, Option.map_some, hcurry]
    · rw [run_objects hrun, List.getElem?_map, ho, Option.map_some,
        curry_of_lt hn (hshort hpre hnot)]

end Curry

/-- `[](int&& x) { return x + 1; }`, for mathematical integers -/
def plusOne : Invocable Unit Int Int where
  invocable args := args.length = 1
  call _ args := args.headD 0 + 1
  lvalueInvocable _ := false
  invoke f args := (args.headD 0 + 1, f, args)

/-- `curry(f, 5)` with this `f` is a lambda, and stays one. -/
theorem not_curry_grouping : plusOne.Takes 1 ∧ plusOne.invocable [5] = true ∧
    curry plusOne () [5] = .lambda () [5] ∧ ¬ Grouped plusOne () [5] := by
  have htakes : plusOne.Takes 1 := fun l h => of_decide_eq_true (h.resolve_right Bool.false_ne_true)
  refine ⟨htakes, rfl, rfl, fun h => ?_⟩
  have hone := h.complete [] [5] (List.cons_ne_nil _ _) rfl
  cases hone

/-- `[](int a, int b) { return a - b; }` -/
def subtract : Invocable Unit Int Int where
  invocable args := args.length = 2
  call _ args := args.headD 0 - args.getLastD 0
  lvalueInvocable args := args.length = 2
  invoke f args := (args.headD 0 - args.getLastD 0, f, args)

/-- One partial application is applied twice. -/
theorem curry_grouping_iff_subtract : Grouped subtract () [7, 2] ∧ ∃ tr s,
    Transition.Run (Curry.step subtract ()) [] tr s ∧
      s = [.lambda () [7], .result 5, .lambda () [7], .result 4] := by
  have hexec : ((Transition.exec (Curry.step subtract ()) (fun _ _ => True) []
      [.curry [7], .apply 0 [2], .apply 0 [], .apply 2 [3]]).any
      fun s => decide (s = [.lambda () [7], .result 5, .lambda () [7], .result 4])) = true := by
    decide
  obtain ⟨tr, s, hrun, -, -, hs⟩ := Transition.exists_run_of_exec hexec
  have htakes : subtract.Takes 2 := fun l h => h.elim of_decide_eq_true of_decide_eq_true
  exact ⟨(curry_grouping_iff htakes (by decide) rfl).mpr ⟨rfl, rfl⟩, tr, s, hrun,
    of_decide_eq_true hs⟩

end Bop.Util
