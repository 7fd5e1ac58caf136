import Mathlib.Data.List.Nodup
import Mathlib.Logic.Function.Basic
import Mathlib.Tactic.Common

set_option autoImplicit false

/-! # Intrusive singly linked lists

The nodes of an intrusive list carry their own link: `next a` is the link of the node `a`,
and all lists of a program share the one map `next`. `Chain next o l` says that following
links from `o` visits exactly the nodes of `l`, in order, and ends in null; links of nodes
outside `l` are unconstrained, so a chain may be surrounded by stale links. `Represents`
adds the tail pointer of a FIFO list and the absence of cycles.

The frame rule is `Represents.congr`: only the links of the list's own nodes matter. The two
operations of a FIFO list are `Represents.concat` and `Represents.uncons`.
-/

namespace IntrusiveList

variable {ν : Type*} {next next' : ν → Option ν} {o head tail : Option ν} {a b t : ν}
  {l l' : List ν}

/-- Following `next` from `o` visits exactly `l` and ends in null. -/
def Chain (next : ν → Option ν) : Option ν → List ν → Prop
  | o, [] => o = none
  | o, a :: l => o = some a ∧ Chain next (next a) l

/-- `a` is met when following `next` from `o`. -/
inductive Reaches (next : ν → Option ν) : Option ν → ν → Prop
  | here (a : ν) : Reaches next (some a) a
  | there {a b : ν} : Reaches next (next a) b → Reaches next (some a) b

@[simp] theorem chain_nil : Chain next o [] ↔ o = none := Iff.rfl

@[simp] theorem chain_cons : Chain next o (a :: l) ↔ o = some a ∧ Chain next (next a) l :=
  Iff.rfl

theorem Chain.head_eq (h : Chain next o l) : o = l.head? := by
  cases l with
  | nil => exact h
  | cons a l => exact h.1

theorem Chain.congr (h : Chain next o l) (heq : ∀ a ∈ l, next' a = next a) :
    Chain next' o l := by
  induction l generalizing o with
  | nil => exact h
  | cons a l ih =>
      refine ⟨h.1, ?_⟩
      rw [heq a List.mem_cons_self]
      exact ih h.2 (fun b hb => heq b (List.mem_cons_of_mem _ hb))

/-- The nodes on a chain are determined by its start. -/
theorem Chain.unique (h : Chain next o l) (h' : Chain next o l') : l = l' := by
  induction l generalizing o l' with
  | nil =>
      obtain rfl : o = none := h
      cases l' with
      | nil => rfl
      | cons a l' => cases h'.1
  | cons a l ih =>
      obtain ⟨rfl, hl⟩ := h
      cases l' with
      | nil => cases h'
      | cons b l' =>
          obtain ⟨hab, hl'⟩ := h'
          obtain rfl : a = b := Option.some.inj hab
          rw [ih hl hl']

theorem Chain.mem_iff (h : Chain next o l) : a ∈ l ↔ Reaches next o a := by
  induction l generalizing o with
  | nil =>
      obtain rfl : o = none := h
      constructor
      · intro ha; cases ha
      · intro hr; cases hr
  | cons b l ih =>
      obtain ⟨rfl, hl⟩ := h
      rw [List.mem_cons, ih hl]
      constructor
      · rintro (rfl | hr)
        · exact .here a
        · exact .there hr
      · intro hr
        cases hr with
        | here => exact Or.inl rfl
        | there hr => exact Or.inr hr

/-- The last node of a chain has the null link. -/
theorem Chain.last_null (h : Chain next o l) (ht : l.getLast? = some t) : next t = none := by
  induction l generalizing o with
  | nil => cases ht
  | cons a l ih =>
      cases l with
      | nil =>
          obtain rfl : a = t := by simpa using ht
          exact h.2
      | cons b l => exact ih h.2 (by simpa [List.getLast?_cons_cons] using ht)

/-! ## FIFO lists with a tail pointer -/

/-- The head and tail pointers represent the FIFO list `l` of pairwise distinct nodes. -/
structure Represents (next : ν → Option ν) (head tail : Option ν) (l : List ν) : Prop where
  chain : Chain next head l
  tail_eq : tail = l.getLast?
  nodup : l.Nodup

theorem represents_nil : Represents next none none [] := ⟨rfl, rfl, List.nodup_nil⟩

/-- **Frame rule.** Only the links of the list's own nodes matter. -/
theorem Represents.congr (h : Represents next head tail l)
    (heq : ∀ a ∈ l, next' a = next a) : Represents next' head tail l :=
  ⟨h.chain.congr heq, h.tail_eq, h.nodup⟩

theorem Represents.head_eq (h : Represents next head tail l) : head = l.head? :=
  h.chain.head_eq

theorem Represents.mem_iff (h : Represents next head tail l) :
    a ∈ l ↔ Reaches next head a := h.chain.mem_iff

theorem Represents.unique (h : Represents next head tail l)
    (h' : Represents next head tail l') : l = l' := h.chain.unique h'.chain

theorem Represents.head_none (h : Represents next head tail l) : head = none ↔ l = [] := by
  rw [h.head_eq, List.head?_eq_none_iff]

theorem Represents.tail_none (h : Represents next head tail l) : tail = none ↔ l = [] := by
  rw [h.tail_eq, List.getLast?_eq_none_iff]

/-! ## The two operations -/

variable [DecidableEq ν]

/-- Appending a node behind the last one. -/
theorem Chain.concat (h : Chain next o l) (hnd : l.Nodup) (ht : l.getLast? = some t)
    (ha : a ∉ l) (hnull : next a = none) :
    Chain (Function.update next t (some a)) o (l ++ [a]) := by
  induction l generalizing o with
  | nil => cases ht
  | cons b l ih =>
      obtain ⟨rfl, hl⟩ := h
      refine ⟨rfl, ?_⟩
      cases l with
      | nil =>
          obtain rfl : b = t := by simpa using ht
          have hab : a ≠ b := fun hab => ha (by simp [hab])
          simp [Function.update_of_ne hab, hnull]
      | cons c l =>
          have ht' : (c :: l).getLast? = some t := by simpa [List.getLast?_cons_cons] using ht
          have hbt : b ≠ t := by
            rintro rfl
            exact (List.nodup_cons.mp hnd).1 (List.mem_of_getLast? ht')
          rw [Function.update_of_ne hbt]
          exact ih hl (List.nodup_cons.mp hnd).2 ht' (fun hm => ha (List.mem_cons_of_mem _ hm))

/-- The links after `a` was appended behind `tail`: its own link is cleared, and the node at
the tail, if there is one, points to it. -/
def linkAfter (next : ν → Option ν) (tail : Option ν) (a : ν) : ν → Option ν :=
  match tail with
  | none => Function.update next a none
  | some t => Function.update (Function.update next a none) t (some a)

theorem linkAfter_of_ne (hba : b ≠ a) (hbt : tail ≠ some b) :
    linkAfter next tail a b = next b := by
  cases tail with
  | none => exact Function.update_of_ne hba _ _
  | some t =>
      have hne : b ≠ t := fun h => hbt (by rw [h])
      rw [linkAfter, Function.update_of_ne hne, Function.update_of_ne hba]

/-- **Push.** A node outside the list is appended by clearing its link and linking it
behind the tail. -/
theorem Represents.concat (h : Represents next head tail l) (ha : a ∉ l) :
    Represents (linkAfter next tail a) (head.or (some a)) (some a) (l ++ [a]) := by
  refine ⟨?_, by simp, ?_⟩
  · have hclr : Chain (Function.update next a none) head l :=
      h.chain.congr (fun b hb => Function.update_of_ne (ne_of_mem_of_not_mem hb ha) _ _)
    cases htl : tail with
    | none =>
        obtain rfl := h.tail_none.mp htl
        rw [h.head_none.mpr rfl]
        simp [linkAfter, Function.update_self]
    | some t =>
        have ht : l.getLast? = some t := h.tail_eq ▸ htl
        have hne : head ≠ none := fun hn => by
          rw [h.head_none.mp hn] at ht
          cases ht
        obtain ⟨x, hx⟩ := Option.ne_none_iff_exists'.mp hne
        rw [hx, Option.some_or, ← hx]
        exact hclr.concat h.nodup ht ha (Function.update_self _ _ _)
  · rw [List.nodup_append]
    refine ⟨h.nodup, List.nodup_singleton a, fun x hx y hy hxy => ha ?_⟩
    rw [List.mem_singleton] at hy
    rwa [← hy, ← hxy]

/-- **Pop.** Dropping the first node moves the head to its link and clears the tail when it
was the only node. -/
theorem Represents.uncons (h : Represents next head tail (a :: l)) :
    Represents next (next a) (if tail = some a then none else tail) l := by
  refine ⟨h.chain.2, ?_, (List.nodup_cons.mp h.nodup).2⟩
  have htl := h.tail_eq
  cases l with
  | nil => simp [htl]
  | cons b l =>
      rw [List.getLast?_cons_cons] at htl
      have hne : tail ≠ some a := fun hta =>
        (List.nodup_cons.mp h.nodup).1 (List.mem_of_getLast? (htl.symm.trans hta))
      rw [if_neg hne, htl]

end IntrusiveList
