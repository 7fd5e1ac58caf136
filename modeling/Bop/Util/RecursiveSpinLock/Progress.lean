import Bop.Basic.Spinning
import Bop.Util.RecursiveSpinLock

set_option autoImplicit false

/-! # Progress of `RecursiveSpinLock`

Each step of a call brings it nearer to its end, but for those of a thread that waits for the lock
while another one has it (`Advances.nearer`). So every call returns, unless it is a call of `lock`
by a thread that does not have the lock and that the others overtake again and again
(`recursive_progress`). In particular a thread that has the lock never waits for itself.
-/

namespace Bop.RecursiveSpinLock

open Transition

variable {n : Nat} {s s' : State} {t u : Nat} {x : Action}

/-! ## What a step does to a call -/

/-- The thread waits for another one to clear `m_Semaphore`. -/
def Pc.spins : Pc → Bool
  | .lockExchange | .lockSpin => true
  | _ => false

/-- The number of steps until the call returns, if the lock is free or the thread has it. -/
def Pc.distance : Pc → Nat
  | .idle => 0
  | .countWrite _ _ | .unlockStore => 1
  | .countRead _ | .unlockTest => 2
  | .lockExchange | .tryExchange | .unlockWrite _ => 3
  | .lockLoad | .lockSpin | .tryLoad | .unlockRead => 4
  | .hash _ => 5

/-- What thread `t` does in its call. -/
structure Advances (s : State) (t : Nat) (s' : State) : Prop where
  pc : ∀ u ≠ t, s'.pc u = s.pc u
  log : ∃ es, s'.log = es ++ s.log ∧ ∀ e ∈ es, e.thread = t
  depth_le : depth t s.log ≤ depth t s'.log + 1
  taken : s.semaphore = 0 → s'.semaphore ≠ 0 →
    s'.log = .exchanged t :: s.log ∧ ∃ op, s'.pc t = .countRead op
  nearer : s'.pc t = .idle ∨ (depth t s'.log = depth t s.log ∧
    ((s'.pc t).distance < (s.pc t).distance ∨ (s.semaphore ≠ 0 ∧ (s.pc t).spins)))

theorem goto_self (s : State) (t : Nat) (p : Pc) : (s.goto t p).pc t = p :=
  Function.update_self ..

/-- The thread goes on, and nothing is recorded. -/
theorem Advances.goto {p : Pc}
    (hp : p.distance < (s.pc t).distance ∨ (s.semaphore ≠ 0 ∧ (s.pc t).spins)) :
    Advances s t (s.goto t p) where
  pc u hu := Function.update_of_ne hu _ _
  log := ⟨[], rfl, by simp⟩
  depth_le := Nat.le_succ _
  taken hz hne := absurd hz hne
  nearer := Or.inr ⟨rfl, by rwa [goto_self]⟩

/-- The thread returns, and the depth is as it was or one less. -/
theorem Advances.return {op : Op} {result : Bool} : Advances s t (s.return t op result) where
  pc u hu := Function.update_of_ne hu _ _
  log := ⟨[.returned t op result], rfl, by simp [Event.thread]⟩
  depth_le := by
    show _ ≤ depth t (.returned t op result :: s.log) + 1
    cases op <;> cases result <;> simp [depth] <;> omega
  taken hz hne := absurd hz hne
  nearer := Or.inl (goto_self ..)

theorem Advances.exchange {op : Op} (hpc : (s.pc t).distance = 3) :
    Advances s t ({ s.goto t (.countRead op) with semaphore := s.x t }.record (.exchanged t)) where
  pc u hu := Function.update_of_ne hu _ _
  log := ⟨[.exchanged t], rfl, by simp [Event.thread]⟩
  depth_le := Nat.le_succ _
  taken _ _ := ⟨rfl, op, goto_self s t (.countRead op)⟩
  nearer := by
    refine Or.inr ⟨rfl, Or.inl ?_⟩
    show ((s.goto t (.countRead op)).pc t).distance < _
    rw [goto_self, hpc]
    show 2 < 3
    decide

theorem Advances.write {p : Pc} {c : Nat} (hp : p.distance < (s.pc t).distance) :
    Advances s t ({ s.goto t p with count := c }.record (.counted t)) where
  pc u hu := Function.update_of_ne hu _ _
  log := ⟨[.counted t], rfl, by simp [Event.thread]⟩
  depth_le := Nat.le_succ _
  taken hz hne := absurd hz hne
  nearer := Or.inr ⟨rfl, Or.inl (by
    show ((s.goto t p).pc t).distance < _
    rwa [goto_self])⟩

/-- **A step of a call.** -/
theorem Inv.advances (h : Inv n s) (hs : RecursiveSpinLock.threadStep s t = some s') : Advances s t s' := by
  have hf := h.facts t
  cases hpc : s.pc t with
  | idle =>
      simp only [RecursiveSpinLock.threadStep, hpc] at hs
      cases hs
  | hash op =>
      simp only [RecursiveSpinLock.threadStep, hpc] at hs
      obtain rfl := Option.some.inj hs
      obtain ⟨hsem, -, hpcs, hlog⟩ := getLocalHash_frame s t
      refine ⟨fun u hu => ?_, ⟨[], hlog, by simp⟩, ?_, fun hz hne => ?_, ?_⟩
      · show Function.update (getLocalHash s t).pc t _ u = _
        rw [Function.update_of_ne hu, hpcs]
      · show _ ≤ depth t (getLocalHash s t).log + 1
        rw [hlog]
        exact Nat.le_succ _
      · exact absurd hz (hsem ▸ hne)
      · refine Or.inr ⟨congrArg (depth t) hlog, Or.inl ?_⟩
        rw [goto_self, hpc]
        split <;> simp [Pc.distance]
  | lockLoad =>
      simp only [RecursiveSpinLock.threadStep, hpc] at hs
      obtain rfl := Option.some.inj hs
      refine .goto (Or.inl ?_)
      rw [hpc]
      split <;> decide
  | lockExchange =>
      simp only [RecursiveSpinLock.threadStep, hpc] at hs
      split at hs
      case isTrue =>
        obtain rfl := Option.some.inj hs
        exact .exchange (by rw [hpc]; rfl)
      case isFalse hset =>
        obtain rfl := Option.some.inj hs
        exact .goto (Or.inr ⟨hset, by rw [hpc]; rfl⟩)
  | lockSpin =>
      simp only [RecursiveSpinLock.threadStep, hpc] at hs
      obtain rfl := Option.some.inj hs
      split
      case isTrue => exact .goto (Or.inl (by rw [hpc]; decide))
      case isFalse hset =>
        have hspins : (s.pc t).spins := by rw [hpc]; rfl
        exact ⟨fun _ _ => rfl, ⟨[], rfl, by simp⟩, Nat.le_succ _,
          fun hz hne => absurd hz hne, Or.inr ⟨rfl, Or.inr ⟨hset, hspins⟩⟩⟩
  | tryLoad =>
      simp only [RecursiveSpinLock.threadStep, hpc] at hs
      split at hs
      · obtain rfl := Option.some.inj hs
        exact .goto (Or.inl (by rw [hpc]; decide))
      · split at hs
        · obtain rfl := Option.some.inj hs
          exact .goto (Or.inl (by rw [hpc]; decide))
        · obtain rfl := Option.some.inj hs
          exact .return
  | tryExchange =>
      simp only [RecursiveSpinLock.threadStep, hpc] at hs
      split at hs
      · obtain rfl := Option.some.inj hs
        exact .exchange (by rw [hpc]; rfl)
      · obtain rfl := Option.some.inj hs
        exact .return
  | countRead op =>
      simp only [RecursiveSpinLock.threadStep, hpc] at hs
      obtain rfl := Option.some.inj hs
      exact .goto (Or.inl (by simp [hpc, Pc.distance]))
  | countWrite op c =>
      rw [hpc] at hf
      simp only [RecursiveSpinLock.threadStep, hpc] at hs
      obtain rfl := Option.some.inj hs
      have hdepth : depth t (.returned t op true :: .counted t :: s.log) = depth t s.log + 1 := by
        rw [depth_acquired hf.2.2.2.2, depth_counted]
      exact ⟨fun u hu => Function.update_of_ne hu _ _,
        ⟨[.returned t op true, .counted t], rfl, by simp [Event.thread]⟩,
        (Nat.le_succ _).trans (Nat.le_succ_of_le hdepth.ge),
        fun hz hne => absurd hz hne, Or.inl (goto_self ..)⟩
  | unlockRead =>
      simp only [RecursiveSpinLock.threadStep, hpc] at hs
      obtain rfl := Option.some.inj hs
      exact .goto (Or.inl (by simp [hpc, Pc.distance]))
  | unlockWrite c =>
      simp only [RecursiveSpinLock.threadStep, hpc] at hs
      obtain rfl := Option.some.inj hs
      exact .write (by rw [hpc]; simp [Pc.distance])
  | unlockTest =>
      simp only [RecursiveSpinLock.threadStep, hpc] at hs
      split at hs
      · obtain rfl := Option.some.inj hs
        exact .goto (Or.inl (by rw [hpc]; decide))
      · obtain rfl := Option.some.inj hs
        exact .return
  | unlockStore =>
      simp only [RecursiveSpinLock.threadStep, hpc] at hs
      obtain rfl := Option.some.inj hs
      refine ⟨fun u hu => Function.update_of_ne hu _ _,
        ⟨[.returned t .unlock true, .cleared t], rfl, by simp [Event.thread]⟩, ?_,
        fun _ hne => absurd rfl hne, Or.inl (goto_self ..)⟩
      show _ ≤ depth t (.returned t .unlock true :: .cleared t :: s.log) + 1
      rw [depth_unlock, depth_cleared]
      omega

/-- Of the two steps that count an acquisition, the second one adds to the depth. -/
theorem Inv.counts (h : Inv n s) (hs : RecursiveSpinLock.threadStep s t = some s') :
    (∀ op, s.pc t = .countRead op → ∃ c, s'.pc t = .countWrite op c) ∧
      ∀ op c, s.pc t = .countWrite op c → s'.pc t = .idle ∧ 0 < depth t s'.log := by
  refine ⟨fun op hpc => ?_, fun op c hpc => ?_⟩
  · simp only [RecursiveSpinLock.threadStep, hpc] at hs
    obtain rfl := Option.some.inj hs
    exact ⟨_, goto_self ..⟩
  · have hf := h.facts t
    rw [hpc] at hf
    simp only [RecursiveSpinLock.threadStep, hpc] at hs
    obtain rfl := Option.some.inj hs
    refine ⟨goto_self .., ?_⟩
    show 0 < depth t (.returned t op true :: .counted t :: s.log)
    rw [depth_acquired hf.2.2.2.2]
    exact Nat.succ_pos _

theorem Inv.step_pc (h : Inv n s) (hs : RecursiveSpinLock.step s x = some s')
    (hx : x.thread ≠ u) : s'.pc u = s.pc u := by
  cases x with
  | call t op =>
      simp only [RecursiveSpinLock.step, Option.ite_none_right_eq_some, Option.some.injEq] at hs
      obtain ⟨-, rfl⟩ := hs
      exact Function.update_of_ne (Ne.symm hx) _ _
  | next t =>
      have hadv : Advances s t s' := h.advances hs
      exact hadv.pc u (Ne.symm hx)

/-- The steps of the others do not touch a call, and not the depth. -/
theorem Inv.others (h : Inv n s) (hs : RecursiveSpinLock.step s x = some s') (hx : x ≠ .next u) :
    depth u s'.log = depth u s.log ∧ (s.pc u ≠ .idle → s'.pc u = s.pc u) := by
  cases x with
  | call t op =>
      have hcall := hs
      simp only [RecursiveSpinLock.step, Option.ite_none_right_eq_some,
        Option.some.injEq] at hcall
      refine ⟨by rw [← hcall.2]; rfl, fun hne => h.step_pc hs ?_⟩
      rintro rfl
      exact hne hcall.1
  | next t =>
      have htu : t ≠ u := fun htu => hx (congrArg Action.next htu)
      have hadv : Advances s t s' := h.advances hs
      obtain ⟨es, hlog, hes⟩ := hadv.log
      refine ⟨?_, fun _ => h.step_pc hs htu⟩
      rw [hlog, depth_append fun e he heu => htu ((hes e he).symm.trans heu)]

theorem next_enabled (ht : s.pc t ≠ .idle) : (step s (.next t)).isSome := by
  simp only [step]
  cases hpc : s.pc t with
  | idle => exact absurd hpc ht
  | lockExchange | tryLoad | tryExchange | unlockTest =>
      simp only [threadStep, hpc]
      split <;> first | rfl | (split <;> rfl)
  | _ => simp only [threadStep, hpc, Option.isSome_some]

/-! ## Fair runs -/

/-- A run of `n` threads that obey the rules, are scheduled fairly while they are in a call, and
release the lock sometime, unless a call of theirs does not return. -/
structure FairRun (n : Nat) (x : Nat → State) (a : Nat → Option Action) : Prop where
  behaviour : Behaviour step init x a
  few : n < 2 ^ 64
  threads : ∀ k b, a k = some b → b.thread < n
  disciplined : ∀ k b, a k = some b → (x k).Disciplined b
  fair : ∀ t, Fair step x a (.next t)
  releases : ∀ k t, 0 < depth t (x k).log → (∃ j ≥ k, depth t (x j).log = 0) ∨
    ∃ j ≥ k, ∀ i ≥ j, (x i).pc t ≠ .idle

section Fair

variable {x : Nat → State} {a : Nat → Option Action} {K : Nat}

theorem FairRun.inv (h : FairRun n x a) (k : Nat) : Inv n (x k) :=
  h.behaviour.invariant (C := fun s b => b.thread < n ∧ s.Disciplined b) (init_inv n)
    (fun hI hC hs => hI.step h.few hC.1 hC.2 hs)
    (fun k b hb => ⟨h.threads k b hb, h.disciplined k b hb⟩) k

/-- An acquisition that is being counted is counted. -/
theorem FairRun.counted (h : FairRun n x a)
    (ht : (∃ op, (x K).pc t = .countRead op) ∨ ∃ op c, (x K).pc t = .countWrite op c) :
    ∃ k ≥ K, (x k).pc t = .idle ∧ 0 < depth t (x k).log := by
  refine h.behaviour.reaches
    (I := fun s => (∃ op, s.pc t = .countRead op) ∨ ∃ op c, s.pc t = .countWrite op c)
    (Q := fun s => s.pc t = .idle ∧ 0 < depth t s.log) (h.fair t) (fun s => (s.pc t).distance) ht
    (fun k _ hk => next_enabled ?_) fun k _ c hc hs hk => ?_
  · rcases hk with ⟨op, hk⟩ | ⟨op, c, hk⟩ <;> simp [hk]
  · by_cases hct : c = .next t
    · subst hct
      obtain ⟨hread, hwrite⟩ := (h.inv k).counts hs
      rcases hk with ⟨op, hk⟩ | ⟨op, c, hk⟩
      · obtain ⟨c, hc'⟩ := hread op hk
        refine Or.inr ⟨Or.inr ⟨op, c, hc'⟩, ?_⟩
        simp [hk, hc', Pc.distance]
      · exact Or.inl (hwrite op c hk)
    · have hne : (x k).pc t ≠ .idle := by
        rcases hk with ⟨op, hk⟩ | ⟨op, c, hk⟩ <;> simp [hk]
      have hpc := ((h.inv k).others hs hct).2 hne
      rw [hpc]
      exact Or.inr ⟨hk, le_rfl, fun hcb => absurd hcb hct⟩

/-- **Whoever has the lock is not blocked**: its calls return. -/
theorem FairRun.returns_of_depth (h : FairRun n x a) (ht : 0 < depth t (x K).log) :
    ∃ k ≥ K, (x k).pc t = .idle := by
  by_contra hno
  have hne : ∀ k ≥ K, (x k).pc t ≠ .idle := fun k hk hidle => hno ⟨k, hk, hidle⟩
  refine absurd (h.behaviour.reaches (I := fun s => 0 < depth t s.log)
    (Q := fun s => s.pc t = .idle) (h.fair t) (fun s => (s.pc t).distance) ht
    (fun k hk _ => next_enabled (hne k hk)) fun k hk c hc hs hpos => ?_) hno
  by_cases hct : c = .next t
  · subst hct
    rcases ((h.inv k).advances hs).nearer with hidle | ⟨hdepth, hlt | ⟨-, hspins⟩⟩
    · exact Or.inl hidle
    · exact Or.inr ⟨hdepth ▸ hpos, hlt.le, fun _ => hlt⟩
    · -- it has the lock, so it does not wait for it
      have hf := (h.inv k).facts t
      cases hpc : (x k).pc t with
      | lockExchange | lockSpin =>
          rw [hpc] at hf
          exact absurd hf.2.1 hpos.ne'
      | _ =>
          rw [hpc] at hspins
          cases hspins
  · obtain ⟨hdepth, hpc⟩ := (h.inv k).others hs hct
    rw [hpc (hne k hk), hdepth]
    exact Or.inr ⟨hpos, le_rfl, fun hcb => absurd hcb hct⟩

/-- When the depth of a thread becomes zero, the lock is free. -/
theorem FairRun.frees_of_depth (h : FairRun n x a) {j : Nat} (hj : K ≤ j)
    (ht : 0 < depth t (x K).log) (hzero : depth t (x j).log = 0) :
    ∃ k ≥ K, (x k).semaphore = 0 := by
  obtain ⟨k, hk, hpos, hnot⟩ :=
    exists_end (P := fun k => 0 < depth t (x k).log) ht hj (by omega)
  obtain ⟨c, -, hs⟩ := h.behaviour.exists_step (I := fun s => 0 < depth t s.log) hpos hnot
  by_cases hct : c = .next t
  · subst hct
    have hle := ((h.inv k).advances hs).depth_le
    have hfrees := ((h.inv k).respects hs).frees.mpr ⟨t, rfl, by omega, by omega⟩
    exact ⟨k + 1, by omega, hfrees.2⟩
  · rw [((h.inv k).others hs hct).1] at hnot
    exact absurd hpos hnot

/-- The lock is free again and again. -/
theorem FairRun.frees (h : FairRun n x a) (m : Nat) : ∃ k ≥ m, (x k).semaphore = 0 := by
  by_cases hz : (x m).semaphore = 0
  · exact ⟨m, le_rfl, hz⟩
  · obtain ⟨t, ht⟩ := (h.inv m).owned hz
    have hheld : holds t (x m).log = true := ((h.inv m).owner t).mpr ⟨hz, ht⟩
    obtain ⟨m', hm', hpos⟩ : ∃ m' ≥ m, 0 < depth t (x m').log := by
      have hf := (h.inv m).facts t
      cases hpc : (x m).pc t with
      | countRead | countWrite =>
          obtain ⟨k, hk, -, hpos⟩ := h.counted (K := m) (t := t) (by simp [hpc])
          exact ⟨k, hk, hpos⟩
      | idle | hash | lockLoad | tryLoad =>
          rw [hpc] at hf
          exact ⟨m, le_rfl, hf.1.mp hheld⟩
      | lockExchange | lockSpin | tryExchange =>
          rw [hpc, hheld] at hf
          cases hf.1
      | unlockRead =>
          rw [hpc] at hf
          exact ⟨m, le_rfl, hf.2.2.1⟩
      | unlockWrite =>
          rw [hpc] at hf
          exact ⟨m, le_rfl, hf.2.2.2.1⟩
      | unlockTest =>
          rw [hpc] at hf
          exact ⟨m, le_rfl, hf.2.1 ▸ Nat.succ_pos _⟩
      | unlockStore =>
          rw [hpc] at hf
          exact ⟨m, le_rfl, hf.2.2 ▸ Nat.zero_lt_one⟩
    rcases h.releases m' t hpos with ⟨j, hj, hzero⟩ | ⟨j, hj, hstuck⟩
    · obtain ⟨k, hk, hfree⟩ := h.frees_of_depth hj hpos hzero
      exact ⟨k, hm'.trans hk, hfree⟩
    · rcases Nat.eq_zero_or_pos (depth t (x j).log) with hzero | hposj
      · obtain ⟨k, hk, hfree⟩ := h.frees_of_depth hj hpos hzero
        exact ⟨k, hm'.trans hk, hfree⟩
      · obtain ⟨k, hk, hidle⟩ := h.returns_of_depth hposj
        exact absurd hidle (hstuck k hk)

/-- **`RecursiveSpinLock` is free of deadlocks.** In a fair run each call returns, unless it is made
by a thread that does not have the lock, while the other threads get the lock infinitely often. -/
theorem recursive_progress (h : FairRun n x a) (ht : (x K).pc t ≠ .idle) :
    (∃ k ≥ K, (x k).pc t = .idle) ∨ (depth t (x K).log = 0 ∧
      ∀ m, ∃ k ≥ m, ∃ u ≠ t, (x (k + 1)).log = .exchanged u :: (x k).log) := by
  by_cases hret : ∃ k ≥ K, (x k).pc t = .idle
  · exact Or.inl hret
  · have hne : ∀ k ≥ K, (x k).pc t ≠ .idle := fun k hk hidle => hret ⟨k, hk, hidle⟩
    refine Or.inr ⟨?_, fun m => ?_⟩
    · by_contra hpos
      exact hret (h.returns_of_depth (Nat.pos_of_ne_zero hpos))
    obtain ⟨k, hk, hfree, htaken⟩ := h.behaviour.taken (F := fun s => s.semaphore = 0) (h.fair t)
      (fun s => (s.pc t).distance) h.frees (fun k hk => next_enabled (hne k hk))
      (fun k hk c _ hs hfree => by
        by_cases hct : c = .next t
        · subst hct
          rcases ((h.inv k).advances hs).nearer with hidle | ⟨-, hlt | ⟨hset, -⟩⟩
          · exact absurd hidle (hne (k + 1) (Nat.le_succ_of_le hk))
          · exact Or.inr ⟨hlt.le, fun _ => hlt⟩
          · exact absurd hfree hset
        · rw [((h.inv k).others hs hct).2 (hne k hk)]
          exact Or.inr ⟨le_rfl, fun hcb => absurd hcb hct⟩) (max K m)
    obtain ⟨c, -, hs⟩ := h.behaviour.exists_step (I := fun s => s.semaphore = 0) hfree htaken
    cases c with
    | call u op =>
        simp only [step, Option.ite_none_right_eq_some, Option.some.injEq] at hs
        rw [← hs.2] at htaken
        exact absurd hfree htaken
    | next u =>
        obtain ⟨hlog, op, hpc⟩ := ((h.inv k).advances hs).taken hfree htaken
        refine ⟨k, (le_max_right K m).trans hk, u, ?_, hlog⟩
        -- the thread itself would return
        rintro rfl
        obtain ⟨j, hj, hidle, -⟩ := h.counted (Or.inl ⟨op, hpc⟩)
        exact hne j (((le_max_left K m).trans hk).trans (by omega)) hidle

end Fair

/-- Thread `1` calls `lock` while thread `0` has the lock, which locks it once more before it
unlocks it twice. -/
def nestedScript : List Action :=
  [.call 0 .lock, .next 0, .next 0, .next 0, .next 0, .next 0,
    .call 1 .lock, .next 1, .next 1, .next 1,
    .call 0 .lock, .next 0, .next 0, .next 0, .next 0,
    .call 0 .unlock, .next 0, .next 0, .next 0,
    .call 0 .unlock, .next 0, .next 0, .next 0, .next 0,
    .next 1, .next 1, .next 1, .next 1,
    .call 1 .unlock, .next 1, .next 1, .next 1, .next 1]

def nested (k : Nat) : Action := nestedScript[k]?.getD (.next (k % 2))

theorem nested_next {k : Nat} (hk : 33 ≤ k) : nested k = .next (k % 2) := by
  have hlen : nestedScript.length = 33 := rfl
  rw [nested, List.getElem?_eq_none (by omega), Option.getD_none]

theorem nested_threads {k : Nat} {b : Action} (hb : played step init nested k = some b) :
    b.thread < 2 ∧ (play step init nested k).Disciplined b := by
  rw [eq_of_played hb]
  rcases Nat.lt_or_ge k 33 with hk | hk
  · exact (by decide : ∀ k < 33, (nested k).thread < 2 ∧
      (play step init nested k).Disciplined (nested k)) k hk
  · rw [nested_next hk]
    exact ⟨Nat.mod_lt k (by decide), trivial⟩

/-- The other threads do nothing. -/
theorem nested_others (k : Nat) {t : Nat} (ht : 2 ≤ t) :
    (play step init nested k).pc t = .idle ∧ depth t (play step init nested k).log = 0 := by
  refine (play_behaviour.invariant (I := fun s => Inv 2 s ∧ ∀ t ≥ 2, s.pc t = .idle ∧
    depth t s.log = 0) (C := fun s b => b.thread < 2 ∧ s.Disciplined b)
    ⟨init_inv 2, fun _ _ => ⟨rfl, rfl⟩⟩ ?_ (fun _ _ => nested_threads) k).2 t ht
  rintro s b s' ⟨hinv, hrest⟩ ⟨hb, hd⟩ hs
  refine ⟨hinv.step (by decide) hb hd hs, fun u hu => ?_⟩
  have hbu : b.thread ≠ u := by omega
  obtain ⟨hidle, hdepth⟩ := hrest u hu
  refine ⟨(hinv.step_pc hs hbu).trans hidle, ?_⟩
  rw [(hinv.others hs fun hnext => hbu (congrArg Action.thread hnext)).1, hdepth]

/-- At last both threads have unlocked the lock, and nothing happens any more. -/
theorem nested_rests {k : Nat} (hk : k ≥ 33) :
    (∀ t < 2, (play step init nested k).pc t = .idle) ∧
      (play step init nested k).log = (play step init nested 33).log := by
  refine play_behaviour.stays (K := 33) (I := fun s : State => (∀ t < 2, s.pc t = .idle) ∧
    s.log = (play step init nested 33).log) ⟨by decide, rfl⟩ (fun k hk b hb hs hrest => ?_) k hk
  rw [eq_of_played hb, nested_next hk] at hs
  simp only [step, threadStep, hrest.1 (k % 2) (Nat.mod_lt k (by decide)), reduceCtorEq] at hs

theorem nested_fairRun : FairRun 2 (play step init nested) (played step init nested) where
  behaviour := play_behaviour
  few := by decide
  threads _ _ hb := (nested_threads hb).1
  disciplined _ _ hb := (nested_threads hb).2
  fair := by
    intro t
    rcases Nat.lt_or_ge t 2 with ht | ht
    · refine play_fair fun k => ⟨2 * (k + 17) + t, by omega, ?_⟩
      rw [nested_next (by omega), Nat.mul_add_mod, Nat.mod_eq_of_lt ht]
    · intro k henabled
      have hnone := henabled k le_rfl
      simp only [step, threadStep, (nested_others k ht).1, Option.isSome_none,
        Bool.false_eq_true] at hnone
  releases := by
    intro k t _
    refine Or.inl ⟨k + 33, by omega, ?_⟩
    rcases Nat.lt_or_ge t 2 with ht | ht
    · rw [(nested_rests (by omega)).2]
      exact (by decide : ∀ t < 2, depth t (play step init nested 33).log = 0) t ht
    · exact (nested_others _ ht).2

theorem recursive_progress_nested : ∃ k ≥ 7, (play step init nested k).pc 1 = .idle := by
  rcases recursive_progress (K := 7) (t := 1) nested_fairRun (by decide) with hret | ⟨-, hothers⟩
  · exact hret
  · obtain ⟨k, hk, u, -, hlog⟩ := hothers 33
    rw [(nested_rests hk).2, (nested_rests (by omega)).2] at hlog
    exact absurd hlog.symm (List.cons_ne_self _ _)

end Bop.RecursiveSpinLock
