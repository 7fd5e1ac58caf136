import Bop.Basic.Mutex
import Bop.Basic.Spinning
import Mathlib.Data.Fintype.Basic
import Mathlib.Algebra.Group.Nat.Defs

set_option autoImplicit false

/-! # `Spinlock`

The lock of `util/spinlock.cpp` that is not re-entrant: the flag `m_Lock`, of which every access is
a step. `lock` tries to set it and, when it was set already, waits until it reads that it is clear;
`try_lock` tries once; `unlock` clears it. Each thread calls `unlock` only when it has the lock.

`mutual_exclusion` is about the runs of any number of threads, `lock_progress` about their fair
infinite runs.
-/

namespace Bop.Spinlock

open Transition Mutex

variable {τ : Type*}

inductive Op
  | lock
  | tryLock
  | unlock
  deriving DecidableEq

/-- Where a thread is in a call. -/
inductive Pc
  | idle
  | exchange    -- if (!m_Lock.exchange(true)) return;
  | load        -- while (m_Lock.load())
  | tryExchange -- return !m_Lock.exchange(true);
  | store       -- m_Lock.store(false);
  deriving DecidableEq

/-- The first access of a call. -/
def entry : Op → Pc
  | .lock => .exchange
  | .tryLock => .tryExchange
  | .unlock => .store

structure State (τ : Type*) where
  lock : Bool
  pc : τ → Pc
  /-- the calls that returned: `lock` and `unlock`, and `try_lock` with true or with false -/
  log : List (Event τ)

def init : State τ where
  lock := false
  pc := fun _ => .idle
  log := []

inductive Action (τ : Type*)
  /-- thread `t` calls `lock()`, `try_lock()` or `unlock()` -/
  | call (t : τ) (op : Op)
  /-- the next access of the call that thread `t` is in -/
  | next (t : τ)

def Action.thread : Action τ → τ
  | .call t _ | .next t => t

variable [DecidableEq τ]

/-- Thread `t` goes on at `pc`. -/
def State.goto (s : State τ) (t : τ) (pc : Pc) : State τ :=
  { s with pc := Function.update s.pc t pc }

/-- Thread `t` returns from its call. -/
def State.return (s : State τ) (t : τ) (lock : Bool) (e : Event τ) : State τ :=
  { lock := lock, pc := Function.update s.pc t .idle, log := e :: s.log }

def step (s : State τ) : Action τ → Option (State τ)
  | .call t op => if s.pc t = .idle then some (s.goto t (entry op)) else none
  | .next t =>
      match s.pc t with
      | .idle => none
      | .exchange => some (if s.lock then s.goto t .load else s.return t true (.take t))
      | .load => some (if s.lock then s else s.goto t .exchange)
      | .tryExchange => some (s.return t true (if s.lock then .refuse t else .take t))
      | .store => some (s.return t false (.give t))

/-- A thread unlocks only what it locked. -/
def State.Disciplined (s : State τ) : Action τ → Prop
  | .call t .unlock => holds t s.log
  | _ => True

instance (s : State τ) : DecidablePred s.Disciplined
  | .call t .unlock => inferInstanceAs (Decidable (holds t s.log = true))
  | .call _ .lock | .call _ .tryLock => .isTrue trivial
  | .next _ => .isTrue trivial

/-! ## Steps -/

variable {s s' : State τ} {x : Action τ} {t u : τ}

theorem goto_pc (pc : Pc) : (s.goto t pc).pc t = pc := Function.update_self ..

theorem return_pc (lock : Bool) (e : Event τ) : (s.return t lock e).pc t = .idle :=
  Function.update_self ..

/-- What the thread of an action does. -/
inductive Goes (s : State τ) (t : τ) : State τ → Prop
  | call (op : Op) (hpc : s.pc t = .idle) (hd : s.Disciplined (.call t op)) :
      Goes s t (s.goto t (entry op))
  | set (hpc : s.pc t = .exchange) (hlock : s.lock = true) : Goes s t (s.goto t .load)
  | spin (hpc : s.pc t = .load) (hlock : s.lock = true) : Goes s t s
  | again (hpc : s.pc t = .load) (hlock : s.lock = false) : Goes s t (s.goto t .exchange)
  | take (hpc : s.pc t = .exchange ∨ s.pc t = .tryExchange) (hlock : s.lock = false) :
      Goes s t (s.return t true (.take t))
  | refuse (hpc : s.pc t = .tryExchange) (hlock : s.lock = true) :
      Goes s t (s.return t true (.refuse t))
  | give (hpc : s.pc t = .store) : Goes s t (s.return t false (.give t))

theorem step_goes (hs : step s x = some s') (hd : s.Disciplined x) : Goes s x.thread s' := by
  cases x with
  | call t op =>
      simp only [step, Option.ite_none_right_eq_some, Option.some.injEq] at hs
      obtain ⟨hpc, rfl⟩ := hs
      exact .call op hpc hd
  | next t =>
      cases hpc : s.pc t <;> cases hlock : s.lock <;>
        simp only [step, hpc, hlock, reduceCtorEq, Option.some.injEq, if_pos, Bool.false_eq_true,
          if_false] at hs
      case exchange.false => exact hs ▸ .take (Or.inl hpc) hlock
      case exchange.true => exact hs ▸ .set hpc hlock
      case load.false => exact hs ▸ .again hpc hlock
      case load.true => exact hs ▸ .spin hpc hlock
      case tryExchange.false => exact hs ▸ .take (Or.inr hpc) hlock
      case tryExchange.true => exact hs ▸ .refuse hpc hlock
      case store.false | store.true => exact hs ▸ .give hpc

theorem Goes.pc_ne (h : Goes s u s') (htu : t ≠ u) : s'.pc t = s.pc t := by
  cases h with
  | spin => rfl
  | _ => exact Function.update_of_ne htu _ _

/-! ## Mutual exclusion -/

/-- The lock is a mutex, and `m_Lock` says whether somebody has it. -/
structure Inv (s : State τ) : Prop where
  proper : Proper s.log
  lock : s.lock = true ↔ owner s.log ≠ none
  /-- only who has the lock is about to clear it -/
  store : ∀ t, s.pc t = .store → owner s.log = some t

omit [DecidableEq τ] in
theorem init_inv : Inv (init : State τ) where
  proper := trivial
  lock := by simp [init, owner]
  store _ h := by cases h

omit [DecidableEq τ] in
theorem Inv.free (h : Inv s) (hlock : s.lock = false) : owner s.log = none := by
  by_contra hne
  rw [h.lock.mpr hne] at hlock
  cases hlock

theorem Inv.goes (h : Inv s) (hgoes : Goes s t s') : Inv s' := by
  have hstore : s'.pc t ≠ .store → ∀ {u}, s'.pc u = .store → owner s.log = some u ∧ u ≠ t := by
    intro hself u hu
    have hut : u ≠ t := by
      rintro rfl
      exact hself hu
    rw [hgoes.pc_ne hut] at hu
    exact ⟨h.store u hu, hut⟩
  cases hgoes with
  | call op hpc hd =>
      refine ⟨h.proper, h.lock, fun u hu => ?_⟩
      rw [goto_pc] at hstore
      cases op with
      | lock | tryLock => exact (hstore (by decide) hu).1
      | unlock =>
          by_cases hut : u = t
          · rw [hut]
            exact h.proper.holds_iff.mp hd
          · exact h.store u ((Function.update_of_ne hut _ _).symm.trans hu)
  | set hpc hlock | again hpc hlock =>
      rw [goto_pc] at hstore
      exact ⟨h.proper, h.lock, fun u hu => (hstore (by decide) hu).1⟩
  | spin => exact h
  | take hpc hlock =>
      rw [return_pc] at hstore
      refine ⟨⟨h.free hlock, h.proper⟩, by simp [State.return, owner], fun u hu => ?_⟩
      have hown := (hstore (by decide) hu).1
      rw [h.free hlock] at hown
      cases hown
  | refuse hpc hlock =>
      rw [return_pc] at hstore
      exact ⟨⟨h.lock.mp hlock, h.proper⟩, iff_of_true rfl (h.lock.mp hlock),
        fun u hu => (hstore (by decide) hu).1⟩
  | give hpc =>
      rw [return_pc] at hstore
      refine ⟨⟨h.store t hpc, h.proper⟩, by simp [State.return, owner], fun u hu => ?_⟩
      obtain ⟨hown, hut⟩ := hstore (by decide) hu
      rw [h.store t hpc] at hown
      exact absurd (Option.some.inj hown).symm hut

theorem Inv.step (h : Inv s) (hd : s.Disciplined x) (hs : Spinlock.step s x = some s') : Inv s' :=
  h.goes (step_goes hs hd)

variable {tr : List (State τ × Action τ)}

/-- **`Spinlock` is a mutex.** In every run of any number of threads: the calls return as those of
a mutex do, so `try_lock` returns false only while somebody has the lock; nobody gets the lock
before the one who has it unlocks it; and `m_Lock` is set exactly while somebody has the lock, who
is the thread that locked it last. -/
theorem mutual_exclusion (h : Run step (init : State τ) tr s)
    (hd : ∀ p ∈ tr, p.1.Disciplined p.2) :
    Proper s.log ∧ (s.lock = true ↔ ∃ t, holds t s.log) ∧
      (∀ t u, holds t s.log → holds u s.log → t = u) ∧
      ∀ l₁ l₂ l₃ t u, s.log = l₃ ++ .take u :: (l₂ ++ .take t :: l₁) → .give t ∈ l₂ := by
  have hinv : Inv s := h.invariant init_inv (fun h hd hs => h.step hd hs) hd
  refine ⟨hinv.proper, ?_, fun t u ht hu => ?_, fun l₁ l₂ l₃ t u hlog => ?_⟩
  · rw [hinv.lock, Option.ne_none_iff_exists']
    exact exists_congr fun t => hinv.proper.holds_iff.symm
  · rw [hinv.proper.holds_iff] at ht hu
    exact Option.some.inj (ht.symm.trans hu)
  · have hproper := hinv.proper
    rw [hlog] at hproper
    exact hproper.between

/-- Thread `0` locks, thread `1` tries in vain, and gets the lock when it was unlocked. -/
theorem mutual_exclusion_two : ∃ tr s, Run step (init : State (Fin 2)) tr s ∧
    s.log = [.take 1, .give 0, .refuse 1, .take 0] ∧ Proper s.log := by
  have hexec : (exec step State.Disciplined (init : State (Fin 2))
      [.call 0 .lock, .next 0, .call 1 .tryLock, .next 1, .call 0 .unlock, .call 1 .lock, .next 1,
        .next 1, .next 0, .next 1, .next 1]).any (fun s =>
      decide (s.log = [.take 1, .give 0, .refuse 1, .take 0])) = true := by decide
  obtain ⟨tr, s, hrun, -, hd, hs⟩ := exists_run_of_exec hexec
  exact ⟨tr, s, hrun, of_decide_eq_true hs, (mutual_exclusion hrun hd).1⟩

/-! ## Progress -/

/-- The thread is in `lock`. -/
def Pc.spins : Pc → Bool
  | .exchange | .load => true
  | _ => false

/-- The number of reads before the next attempt to take a lock that is free. -/
def Pc.distance : Pc → Nat
  | .load => 1
  | _ => 0

theorem next_enabled (ht : s.pc t ≠ .idle) : (step s (.next t)).isSome := by
  cases hpc : s.pc t with
  | idle => exact absurd hpc ht
  | _ => simp only [step, hpc, Option.isSome_some]

/-- A thread that spins goes on spinning, or returns with the lock. -/
theorem Goes.spins (h : Goes s u s') (ht : (s.pc t).spins) :
    (s'.pc t).spins ∨ s'.pc t = .idle := by
  by_cases htu : t = u
  · subst htu
    cases h with
    | call op hpc | give hpc | refuse hpc =>
        rw [hpc] at ht
        cases ht
    | set | again => exact Or.inl (by rw [goto_pc]; rfl)
    | spin => exact Or.inl ht
    | take => exact Or.inr (return_pc ..)
  · rw [h.pc_ne htu]
    exact Or.inl ht

/-- It comes nearer to taking a lock that is free. -/
theorem Goes.distance (h : Goes s u s') (ht : (s.pc t).spins) (ht' : (s'.pc t).spins)
    (hfree : s.lock = false) :
    (s'.pc t).distance ≤ (s.pc t).distance ∧
      (u = t → (s'.pc t).distance < (s.pc t).distance) := by
  by_cases htu : t = u
  · subst htu
    cases h with
    | call op hpc | give hpc | refuse hpc =>
        rw [hpc] at ht
        cases ht
    | set hpc hlock | spin hpc hlock =>
        rw [hlock] at hfree
        cases hfree
    | again hpc =>
        rw [goto_pc, hpc]
        exact ⟨Nat.zero_le _, fun _ => Nat.zero_lt_one⟩
    | take =>
        rw [return_pc] at ht'
        cases ht'
  · rw [h.pc_ne htu]
    exact ⟨le_rfl, fun hut => absurd hut.symm htu⟩

/-- The lock is set by a thread that gets it, -/
theorem Goes.locks (h : Goes s u s') (hlock : s.lock = false) (hlock' : s'.lock ≠ false) :
    s'.log = .take u :: s.log ∧ s'.pc u = .idle := by
  cases h with
  | take => exact ⟨rfl, return_pc ..⟩
  | refuse hpc hset =>
      rw [hset] at hlock
      cases hlock
  | call | set | spin | again => exact absurd hlock hlock'
  | give => exact absurd rfl hlock'

/-- and cleared at the end of `unlock`. -/
theorem Goes.unlocks (h : Goes s u s') (ht : s.pc t = .store) (ht' : s'.pc t ≠ .store) :
    s'.lock = false := by
  obtain rfl : t = u := by
    by_contra htu
    exact ht' (by rw [h.pc_ne htu, ht])
  cases h with
  | give => rfl
  | spin => exact absurd ht ht'
  | call op hpc | set hpc | again hpc | refuse hpc | take hpc => simp [ht] at hpc

section Fair

variable {x : Nat → State τ} {a : Nat → Option (Action τ)} {K : Nat}

/-- The step of a behaviour at which something ends. -/
theorem goes_of_end {P : State τ → Prop} (h : Behaviour step init x a)
    (hd : ∀ k b, a k = some b → (x k).Disciplined b) {k : Nat} (hP : P (x k))
    (hnot : ¬ P (x (k + 1))) : ∃ u, Goes (x k) u (x (k + 1)) := by
  obtain ⟨c, hc, hs⟩ := h.exists_step hP hnot
  exact ⟨c.thread, step_goes hs (hd k c hc)⟩

/-- A call of `try_lock` or `unlock` returns. -/
theorem returns (h : Behaviour step init x a) (hd : ∀ k b, a k = some b → (x k).Disciplined b)
    (hfair : ∀ t, Fair step x a (.next t)) (ht : (x K).pc t = .tryExchange ∨ (x K).pc t = .store) :
    ∃ k ≥ K, (x k).pc t = .idle := by
  refine h.reaches (I := fun s => s.pc t = .tryExchange ∨ s.pc t = .store)
    (Q := fun s => s.pc t = .idle) (hfair t) (fun _ => 0) ht (fun k _ hk => next_enabled ?_)
    fun k _ c hc hs hk => ?_
  · rcases hk with hk | hk <;> simp [hk]
  · have hgoes := step_goes hs (hd k c hc)
    by_cases htc : t = c.thread
    · refine Or.inl ?_
      rw [htc] at hk ⊢
      generalize x (k + 1) = s' at hgoes ⊢
      cases hgoes with
      | take | refuse | give => exact return_pc ..
      | call op hpc | set hpc | spin hpc | again hpc => rw [hpc] at hk; simp at hk
    · rw [hgoes.pc_ne htc]
      exact Or.inr ⟨hk, le_rfl, fun hcb => absurd (congrArg Action.thread hcb).symm htc⟩

/-- The lock is free again and again, if whoever has it calls `unlock` sometime. -/
theorem lock_frees (h : Behaviour step init x a) (hd : ∀ k b, a k = some b → (x k).Disciplined b)
    (hfair : ∀ t, Fair step x a (.next t))
    (hrel : ∀ k t, holds t (x k).log → ∃ j ≥ k, (x j).pc t = .store) (n : Nat) :
    ∃ k ≥ n, (x k).lock = false := by
  have hinv : ∀ k, Inv (x k) := h.invariant init_inv (fun h hd hs => h.step hd hs) hd
  cases hlock : (x n).lock with
  | false => exact ⟨n, le_rfl, hlock⟩
  | true =>
      obtain ⟨u, hown⟩ := Option.ne_none_iff_exists'.mp ((hinv n).lock.mp hlock)
      obtain ⟨j, hj, hstore⟩ := hrel n u ((hinv n).proper.holds_iff.mpr hown)
      obtain ⟨m, hm, hidle⟩ := returns h hd hfair (Or.inr hstore)
      obtain ⟨k, hk, hold, hnew⟩ := exists_end (P := fun k => (x k).pc u = .store) hstore hm
        (by simp [hidle])
      obtain ⟨v, hgoes⟩ := goes_of_end (P := fun s => s.pc u = .store) h hd hold hnew
      exact ⟨k + 1, by omega, hgoes.unlocks hold hnew⟩

/-- **`Spinlock` is free of deadlocks.** Let a thread call `unlock` only while it has the lock
(`Disciplined`). If each thread is scheduled fairly while it is in a call, and whoever has the lock
calls `unlock` sometime, then a call returns, unless it is a call of `lock` and the other threads get
the lock infinitely often. -/
theorem lock_progress (h : Behaviour step init x a)
    (hd : ∀ k b, a k = some b → (x k).Disciplined b) (hfair : ∀ t, Fair step x a (.next t))
    (hrel : ∀ k t, holds t (x k).log → ∃ j ≥ k, (x j).pc t = .store) (ht : (x K).pc t ≠ .idle) :
    (∃ k ≥ K, (x k).pc t = .idle) ∨
      ((x K).pc t).spins ∧ ∀ n, ∃ k ≥ n, ∃ u ≠ t, (x (k + 1)).log = .take u :: (x k).log := by
  by_cases hret : ∃ k ≥ K, (x k).pc t = .idle
  · exact Or.inl hret
  · have hK : ((x K).pc t).spins := by
      cases hpc : (x K).pc t with
      | idle => exact absurd hpc ht
      | exchange | load => rfl
      | tryExchange => exact absurd (returns h hd hfair (Or.inl hpc)) hret
      | store => exact absurd (returns h hd hfair (Or.inr hpc)) hret
    have hspin : ∀ k ≥ K, ((x k).pc t).spins :=
      h.stays (I := fun s => (s.pc t).spins = true) hK fun k hk c hc hs hI =>
        ((step_goes hs (hd k c hc)).spins hI).resolve_right fun hidle =>
          hret ⟨k + 1, by omega, hidle⟩
    refine Or.inr ⟨hK, fun n => ?_⟩
    have hne : ∀ k ≥ K, (x k).pc t ≠ .idle := fun k hk hidle => hret ⟨k, hk, hidle⟩
    obtain ⟨k, hk, hfree, htaken⟩ := h.taken (F := fun s => s.lock = false) (hfair t)
      (fun s => (s.pc t).distance) (lock_frees h hd hfair hrel) (fun k hk => next_enabled (hne k hk))
      (fun k hk c hc hs hf => by
        have hnear := (step_goes hs (hd k c hc)).distance (hspin k hk) (hspin (k + 1) (by omega)) hf
        exact Or.inr ⟨hnear.1, fun hcb => hnear.2 (congrArg Action.thread hcb)⟩) (max K n)
    obtain ⟨u, hgoes⟩ := goes_of_end (P := fun s => s.lock = false) h hd hfree htaken
    obtain ⟨hlog, hidle⟩ := hgoes.locks hfree htaken
    refine ⟨k, (le_max_right K n).trans hk, u, ?_, hlog⟩
    rintro rfl
    exact hne (k + 1) (Nat.le_succ_of_le ((le_max_left K n).trans hk)) hidle

end Fair

/-- Thread `true` calls `lock` while thread `false` has the lock. -/
def handOverScript : List (Action Bool) :=
  [.call false .lock, .next false, .call true .lock, .next true, .call false .unlock, .next false,
    .next true, .next true, .call true .unlock, .next true]

def handOver (k : Nat) : Action Bool := handOverScript[k]?.getD (.next (k % 2 == 1))

theorem handOver_next {k : Nat} (hk : 10 ≤ k) : handOver k = .next (k % 2 == 1) := by
  have hlen : handOverScript.length = 10 := rfl
  rw [handOver, List.getElem?_eq_none (by omega), Option.getD_none]

theorem handOver_fair (t : Bool) : Fair step (play step init handOver) (played step init handOver)
    (.next t) := by
  refine play_fair fun k => ⟨2 * (k + 5) + t.toNat, by omega, ?_⟩
  rw [handOver_next (by omega), Nat.mul_add_mod]
  cases t <;> rfl

/-- At last both threads have had the lock, and nothing happens any more. -/
theorem handOver_rests {k : Nat} (hk : k ≥ 10) :
    (∀ t, (play step init handOver k).pc t = .idle) ∧
      (play step init handOver k).log = [.give true, .take true, .give false, .take false] := by
  refine play_behaviour.stays (K := 10) (I := fun s : State Bool => (∀ t, s.pc t = .idle) ∧
    s.log = [.give true, .take true, .give false, .take false]) (by decide)
    (fun k hk b hb hs hrest => ?_) k hk
  rw [eq_of_played hb, handOver_next hk] at hs
  simp only [step, hrest.1, reduceCtorEq] at hs

theorem lock_progress_handOver : ∃ k ≥ 3, (play step init handOver k).pc true = .idle := by
  have hd : ∀ k b, played step init handOver k = some b →
      (play step init handOver k).Disciplined b := by
    intro k b hb
    rw [eq_of_played hb]
    rcases Nat.lt_or_ge k 10 with hk | hk
    · exact (by decide : ∀ k < 10, (play step init handOver k).Disciplined (handOver k)) k hk
    · rw [handOver_next hk]
      trivial
  have hrel : ∀ k t, holds t (play step init handOver k).log →
      ∃ j ≥ k, (play step init handOver j).pc t = .store := by
    intro k t hheld
    rcases Nat.lt_or_ge k 10 with hk | hk
    · obtain ⟨j, -, hj⟩ := (by decide : ∀ k < 10, ∀ t, holds t (play step init handOver k).log →
        ∃ j < 10, j ≥ k ∧ (play step init handOver j).pc t = .store) k hk t hheld
      exact ⟨j, hj⟩
    · rw [(handOver_rests hk).2] at hheld
      exact absurd hheld ((by decide : ∀ t : Bool,
        ¬ holds t [.give true, .take true, .give false, .take false]) t)
  rcases lock_progress (K := 3) (t := true) play_behaviour hd handOver_fair hrel (by decide) with
    hret | ⟨-, hothers⟩
  · exact hret
  · obtain ⟨k, hk, u, -, hlog⟩ := hothers 10
    rw [(handOver_rests hk).2, (handOver_rests (by omega)).2] at hlog
    cases hlog

end Bop.Spinlock
