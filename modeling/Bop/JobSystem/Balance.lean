import Bop.Basic.Recorder
import Bop.JobSystem.Refinement
import Mathlib.Algebra.Order.BigOperators.Group.Finset

set_option autoImplicit false

/-! # Load balancing

`schedule_work` puts a job that is bound to no worker into one of the global queues. Each thread
has its own `tidx`, which it increments before each such push and sets back to `0` at the end:
"simplest possible load-balancing". While `m_NumThreads` does not change, each thread deals its
jobs to the queues in turn (`deals_in_turn`), so that all threads together give no queue many
more jobs than another one (`deals_balanced`).
-/

namespace Bop.JobSystem

open Transition (Run recorded)

/-! ## Dealing in turn -/

/-- The places of `m` cards that are dealt to `n` players, beginning with player `1`, the last card
first. -/
def dealt (n : Nat) : Nat → List Nat
  | 0 => []
  | m + 1 => (m + 1) % n :: dealt n m

theorem add_sub_mod_eq_zero {n q r : Nat} (hq : q < n) (hr : r < n) :
    (r + (n - q)) % n = 0 ↔ r = q := by
  rcases Nat.lt_or_ge (r + (n - q)) n with h | h
  · rw [Nat.mod_eq_of_lt h]
    omega
  · rw [Nat.mod_eq_sub_mod h, Nat.mod_eq_of_lt (by omega)]
    omega

/-- Player `q` waits for `(n - q) % n` cards less than a whole round before the first one. -/
theorem count_dealt {n q : Nat} (hq : q < n) (m : Nat) :
    (dealt n m).count q = (m + (n - q) % n) / n := by
  induction m with
  | zero =>
      rw [Nat.zero_add, Nat.div_eq_of_lt (Nat.mod_lt _ (by omega))]
      rfl
  | succ m ih =>
      have hiff : n ∣ m + (n - q) % n + 1 ↔ (m + 1) % n = q := by
        rw [Nat.dvd_iff_mod_eq_zero, Nat.add_right_comm, Nat.add_mod_mod, ← Nat.mod_add_mod]
        exact add_sub_mod_eq_zero hq (Nat.mod_lt _ (by omega))
      rw [dealt, List.count_cons, ih, Nat.add_right_comm, Nat.succ_div]
      by_cases h : (m + 1) % n = q
      · simp [h, hiff.mpr h]
      · have hnd : ¬ n ∣ m + (n - q) % n + 1 := fun hd => h (hiff.mp hd)
        simp [h, hnd]

/-- No player has two cards more than another one. -/
theorem count_dealt_le {n q q' : Nat} (hq : q < n) (hq' : q' < n) (m : Nat) :
    (dealt n m).count q ≤ (dealt n m).count q' + 1 := by
  rw [count_dealt hq, count_dealt hq']
  have hlt : (n - q) % n ≤ n := (Nat.mod_lt _ (by omega)).le
  calc (m + (n - q) % n) / n ≤ (m + n) / n := Nat.div_le_div_right (Nat.add_le_add_left hlt m)
    _ = m / n + 1 := Nat.add_div_right m (by omega)
    _ ≤ (m + (n - q') % n) / n + 1 :=
        Nat.add_le_add_right (Nat.div_le_div_right (Nat.le_add_right m _)) 1

/-! ## The pushes of a thread -/

/-- The global queues that each thread pushed a job to, newest first. -/
def pushes (s : State) (x : Action) (_ : Unit) (d : Tid → List Nat) : Tid → List Nat :=
  match x with
  | .call t =>
      match s.call t with
      | .pushGlobal _ => Function.update d t (s.tidx t :: d t)
      | _ => d
  | _ => d

variable {s s' : State} {x : Action} {d : Tid → List Nat} {n : Nat} {t : Tid}

/-- What is recorded is what is done to the global queues by calls. -/
theorem pushes_store (hs : callStep s t = some s') :
    (pushes s (.call t) () d = d ∧
      (s'.store = s.store ∨ ∃ q a, s'.store = s.store.push (.localQueue q) a)) ∨
    ∃ q a, pushes s (.call t) () d = Function.update d t (q :: d t) ∧
      s'.store = s.store.push (.globalQueue q) a := by
  cases callStep_move hs with
  | shared hc | own hc | attach hc | reread hc | balance hc =>
      exact Or.inl ⟨by simp only [pushes, hc], Or.inl rfl⟩
  | pushLocal hc => exact Or.inl ⟨by simp only [pushes, hc], Or.inr ⟨_, _, rfl⟩⟩
  | pushGlobal hc => exact Or.inr ⟨_, _, by simp only [pushes, hc], rfl⟩

/-- `tidx` is incremented, and the push is still to come. -/
def Call.ahead : Call → Nat
  | .pushGlobal _ => 1
  | _ => 0

/-- Where a thread is in the round over the global queues. -/
def Dealing (n : Nat) (t : Tid) (s : State) (d : Tid → List Nat) : Prop :=
  d t = dealt n (d t).length ∧ s.tidx t = ((d t).length + (s.call t).ahead) % n

theorem dealing_init (n : Nat) (t : Tid) : Dealing n t (init n) fun _ => [] :=
  ⟨rfl, (Nat.zero_mod n).symm⟩

/-- Another thread deals, or none does. -/
theorem Dealing.of_eq {d' : Tid → List Nat} (h : Dealing n t s d) (hd : d' t = d t)
    (hidx : s'.tidx t = s.tidx t) (hcall : (s'.call t).ahead = (s.call t).ahead) :
    Dealing n t s' d' := by
  unfold Dealing
  rw [hd, hidx, hcall]
  exact h

theorem pushes_of_ne {u : Tid} (htu : t ≠ u) : pushes s (.call u) () d t = d t := by
  cases hc : s.call u with
  | pushGlobal a =>
      simp only [pushes, hc]
      exact Function.update_of_ne htu ..
  | _ => simp only [pushes, hc]

/-- The calls of the thread itself. -/
theorem Dealing.call (h : Dealing n t s d) (hn : 0 < n) (hlt : n < 2 ^ 32)
    (hfix : s.numThreads = n) (hs : callStep s t = some s') :
    Dealing n t s' (pushes s (.call t) () d) := by
  have hself : ∀ {c : Call}, Function.update s.call t c t = c := Function.update_self ..
  obtain ⟨hdealt, hidx⟩ := h
  cases callStep_move hs with
  | shared hc | own hc | attach hc | reread hc =>
      have hd : pushes s (.call t) () d = d := by simp only [pushes, hc]
      rw [hd]
      refine Dealing.of_eq ⟨hdealt, hidx⟩ rfl rfl ?_
      show (Function.update s.call t _ t).ahead = _
      rw [hself, hc]
      rfl
  | pushLocal hc =>
      have hd : pushes s (.call t) () d = d := by simp only [pushes, hc]
      rw [hd]
      refine Dealing.of_eq ⟨hdealt, hidx⟩ rfl rfl ?_
      show (Function.update s.call t _ t).ahead = _
      rw [hself, hc]
      rfl
  | @balance a hc =>
      have hd : pushes s (.call t) () d = d := by simp only [pushes, hc]
      rw [hd]
      refine ⟨hdealt, ?_⟩
      show Function.update s.tidx t _ t = ((d t).length + (Function.update s.call t _ t).ahead) % n
      rw [Function.update_self, hself, hfix, hidx, hc]
      calc (if succ32 ((d t).length % n) ≥ n then 0 else succ32 ((d t).length % n))
          = ((d t).length % n + 1) % n := wrap_eq_mod (Nat.mod_lt _ hn) hlt
        _ = ((d t).length + 1) % n := Nat.mod_add_mod ..
  | @pushGlobal a hc =>
      have hd : pushes s (.call t) () d t = s.tidx t :: d t := by
        simp only [pushes, hc, Function.update_self]
      have hidx' : s.tidx t = ((d t).length + 1) % n := by rw [hidx, hc]; rfl
      unfold Dealing
      rw [hd]
      refine ⟨?_, ?_⟩
      · rw [List.length_cons, dealt, ← hidx', ← hdealt]
      · show s.tidx t = ((s.tidx t :: d t).length + (Function.update s.call t _ t).ahead) % n
        rw [hself, hidx', List.length_cons]
        rfl

/-- Work is given to a job system only between two calls, so `Dealing` is kept. -/
theorem Dealing.hand_in {parent : Option Addr} {threadIndex : Option Nat} {fresh : Addr} {c : Call}
    {u : Tid} (h : Dealing n t s d) (hcode : UserCode s u) (hc : c.ahead = 0) :
    Dealing n t ((construct s u parent threadIndex fresh).1.setCall u c) d := by
  refine h.of_eq rfl ?_ ?_
  · show (construct s u parent threadIndex fresh).1.tidx t = _
    rcases construct_cases s u parent threadIndex fresh with ⟨a, st, -, hs⟩ | ⟨st, -, hs⟩
    · rw [hs]
    · rw [hs]
  · show (Function.update (construct s u parent threadIndex fresh).1.call u c t).ahead = _
    rw [construct_call]
    by_cases htu : t = u
    · have hidle : s.call t = .idle := by rw [htu, hcode.idle]
      rw [htu, Function.update_self, hc, ← htu, hidle]
      rfl
    · rw [Function.update_of_ne htu]

theorem Dealing.step (h : Dealing n t s d) (hn : 0 < n) (hlt : n < 2 ^ 32)
    (hfix : s.numThreads = n) (hs : step s x = some s') : Dealing n t s' (pushes s x () d) := by
  cases x with
  | schedule u parent threadIndex fresh =>
      obtain ⟨hcode, -, -, rfl⟩ := step_schedule hs
      exact h.hand_in hcode rfl
  | jobThen u of job threadIndex fresh =>
      obtain ⟨hcode, -, -, rfl⟩ := step_jobThen hs
      exact h.hand_in hcode rfl
  | call u =>
      by_cases htu : t = u
      · subst htu
        exact h.call hn hlt hfix hs
      · obtain ⟨hcall, hidx, -⟩ := step_others (t := t) hs (fun heq => htu heq.symm)
        exact h.of_eq (pushes_of_ne htu) hidx (congrArg Call.ahead hcall)
  | shutdown u =>
      obtain ⟨-, rfl⟩ := step_shutdown hs
      exact h
  | finish i =>
      obtain ⟨job, -, -, -, rfl⟩ := step_finish hs
      exact h
  | work i =>
      have hframe := workerStep_frame (step_work hs).2
      exact h.of_eq rfl (by rw [hframe.tidx]) (by rw [hframe.call])

/-! ## Whole runs -/

variable {tr : List ((State × (Tid → List Nat)) × (Action × Unit))}

/-- **Each thread deals its jobs in turn.** While no worker has left, the global queues that a
thread has pushed jobs to are `1`, `2`, and so on up to `m_NumThreads - 1`, then `0`, and so on
round. -/
theorem deals_in_turn (hn : 0 < n) (hlt : n < 2 ^ 32)
    (h : Run (recorded step pushes) (init n, fun _ => []) tr (s, d))
    (hfix : ∀ r ∈ tr, r.1.1.numThreads = n) (t : Tid) : d t = dealt n (d t).length := by
  have hdeal : Dealing n t s d :=
    h.record_invariant (I := fun _ => True) (J := Dealing n t)
      (C := fun r _ => r.1.numThreads = n) (fun _ => trivial) (dealing_init n t)
      (fun _ hJ hC hs => hJ.step hn hlt hC hs) hfix
  exact hdeal.1

/-- **The global queues are balanced.** While no worker has left, the jobs that any set of threads
has pushed to two global queues differ by at most one job for each of these threads, whatever the
threads do at the same time. -/
theorem deals_balanced (hn : 0 < n) (hlt : n < 2 ^ 32)
    (h : Run (recorded step pushes) (init n, fun _ => []) tr (s, d))
    (hfix : ∀ r ∈ tr, r.1.1.numThreads = n) (threads : Finset Tid) {q q' : Nat} (hq : q < n)
    (hq' : q' < n) :
    ∑ t ∈ threads, (d t).count q ≤ ∑ t ∈ threads, (d t).count q' + threads.card := by
  have hone : ∀ t ∈ threads, (d t).count q ≤ (d t).count q' + 1 := by
    intro t _
    rw [deals_in_turn hn hlt h hfix t]
    exact count_dealt_le hq hq' _
  calc ∑ t ∈ threads, (d t).count q ≤ ∑ t ∈ threads, ((d t).count q' + 1) :=
        Finset.sum_le_sum hone
    _ = ∑ t ∈ threads, (d t).count q' + threads.card := by
        rw [Finset.sum_add_distrib, Finset.card_eq_sum_ones]

/-- Client `0` hands in three jobs and client `1` one, to two workers: queue `1` gets three of them,
so that queue `0` gets one at least. -/
theorem deals_balanced_two : ∃ tr s d, Run (recorded step pushes) (init 2, fun _ => []) tr (s, d) ∧
    (d (.client 0)).count 1 + (d (.client 1)).count 1 = 3 ∧
    1 ≤ (d (.client 0)).count 0 + (d (.client 1)).count 0 := by
  have hexec : ((Transition.exec (recorded step pushes) (fun x _ => x.1.numThreads = 2)
      (init 2, fun _ => []) (([1, 2, 3].flatMap fun fresh =>
          [Action.schedule (.client 0) none none fresh, .call (.client 0), .call (.client 0),
            .call (.client 0)]) ++
        [Action.schedule (.client 1) none none 4, .call (.client 1), .call (.client 1),
          .call (.client 1)] |>.map fun x => (x, ()))).any fun x =>
      decide ((x.2 (.client 0)).count 1 + (x.2 (.client 1)).count 1 = 3)) = true := by decide
  obtain ⟨tr, ⟨s, d⟩, hrun, -, hfix, hx⟩ := Transition.exists_run_of_exec hexec
  have hsum : (d (.client 0)).count 1 + (d (.client 1)).count 1 = 3 := of_decide_eq_true hx
  have hle := deals_balanced (by decide) (by decide) hrun hfix {.client 0, .client 1}
    (show 1 < 2 by decide) (show 0 < 2 by decide)
  rw [Finset.sum_pair (by decide), Finset.sum_pair (by decide), Finset.card_pair (by decide),
    hsum] at hle
  exact ⟨tr, s, d, hrun, hsum, by omega⟩

end Bop.JobSystem
