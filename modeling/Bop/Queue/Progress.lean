import Bop.Basic.Spinning
import Bop.Queue.Guarded

set_option autoImplicit false

/-! # Progress of the locked queues

An operation that took its flag ends (`clears_flag`): nothing blocks its statements, and
`Pc.remaining` counts them. An operation that waits for its flag may be overtaken again and again,
since `test_and_set` is not fair, but it is not blocked: if it never returns, then infinitely many
other operations on the same queue do (`queues_progress`).
-/

namespace Bop.Lock

open IntrusiveList Transition

variable {τ κ ν : Type*} [DecidableEq τ] [DecidableEq κ] [DecidableEq ν]
variable {s s' : State τ κ ν} {t u : τ} {op : QueueOp κ ν} {b : Action τ κ ν}

def Action.thread : Action τ κ ν → τ
  | .call t _ | .run t => t

/-! ## What a step does to the flags -/

/-- The kinds of steps: thread `t` goes on at `p`. -/
inductive Goes (s s' : State τ κ ν) (t : τ) (p : Pc κ ν) : Prop
  | call (op : QueueOp κ ν) (hpc : s.pc t = .idle) (hp : p = .acquire op)
      (hflag : s'.flag = s.flag)
  | spin (op : QueueOp κ ν) (hpc : s.pc t = .acquire op) (hp : p = .acquire op)
      (hq : s.flag op.queue = true) (hflag : s'.flag = s.flag)
  | take (op : QueueOp κ ν) (hpc : s.pc t = .acquire op) (hp : p = entry op)
      (hq : s.flag op.queue = false) (hflag : s'.flag = Function.update s.flag op.queue true)
  | statement (st : Store κ ν) (hst : Lock.statement s.store (s.pc t) = some (st, p))
      (hflag : s'.flag = s.flag)
  | clear (op : QueueOp κ ν) (r : QueueResult ν) (hpc : s.pc t = .release op r) (hp : p = .idle)
      (hflag : s'.flag = Function.update s.flag op.queue false)

theorem step_goes (hs : step s b = some s') :
    ∃ p, s'.pc = Function.update s.pc b.thread p ∧ Goes s s' b.thread p := by
  cases b with
  | call t op =>
      cases hpc : s.pc t with
      | idle =>
          simp only [step, hpc, Option.some.injEq] at hs
          exact ⟨_, by rw [← hs]; rfl, .call op hpc rfl (by rw [← hs])⟩
      | _ => simp only [step, hpc, reduceCtorEq] at hs
  | run t =>
      cases hpc : s.pc t with
      | idle => simp only [step, hpc, reduceCtorEq] at hs
      | acquire op =>
          simp only [step, hpc] at hs
          cases hf : s.flag op.queue with
          | true =>
              rw [hf, if_pos rfl] at hs
              obtain rfl := Option.some.inj hs
              exact ⟨.acquire op, by rw [← hpc]; exact (Function.update_eq_self ..).symm,
                .spin op hpc rfl hf rfl⟩
          | false =>
              rw [hf, if_neg Bool.false_ne_true] at hs
              obtain rfl := Option.some.inj hs
              exact ⟨_, rfl, .take op hpc rfl hf rfl⟩
      | release op r =>
          simp only [step, hpc, Option.some.injEq] at hs
          exact ⟨_, by rw [← hs]; rfl, .clear op r hpc rfl (by rw [← hs])⟩
      | _ =>
          simp only [step, hpc] at hs
          obtain ⟨⟨st, p⟩, hst, rfl⟩ := Option.map_eq_some_iff.mp hs
          exact ⟨p, rfl, .statement st (by rw [← hst]; exact congrArg _ hpc) rfl⟩

/-- The steps of one thread do not move another one. -/
theorem step_pc (hs : step s b = some s') (hb : b.thread ≠ t) : s'.pc t = s.pc t := by
  obtain ⟨p, hp, -⟩ := step_goes hs
  rw [hp, Function.update_of_ne (Ne.symm hb)]

/-- A thread that holds a flag comes nearer to clearing it, or clears it. -/
theorem held_step (h : Inv s) (hs : step s b = some s') (ht : (s.pc t).held = some op) :
    ((s'.pc t).held = some op ∧ (s'.pc t).remaining ≤ (s.pc t).remaining ∧
      (b = .run t → (s'.pc t).remaining < (s.pc t).remaining)) ∨
    (b.thread = t ∧ s'.pc t = .idle ∧ s'.flag op.queue = false ∧ ∃ r, s.pc t = .release op r) := by
  by_cases hb : b.thread = t
  · obtain ⟨p, hp, hgoes⟩ := step_goes hs
    rw [hb] at hp hgoes
    have hself : s'.pc t = p := by rw [hp, Function.update_self]
    cases hgoes with
    | call op' hpc | spin op' hpc | take op' hpc =>
        rw [hpc] at ht
        cases ht
    | statement st hst =>
        obtain ⟨op', hold, hheld, -⟩ := statement_frame hst (h.inside t)
        obtain rfl : op' = op := Option.some.inj (hold.symm.trans ht)
        have hlt := statement_remaining hst
        rw [hself]
        exact Or.inl ⟨hheld, hlt.le, fun _ => hlt⟩
    | clear op' r hpc hidle hflag =>
        rw [hpc] at ht
        obtain rfl : op' = op := Option.some.inj ht
        refine Or.inr ⟨hb, hself.trans hidle, ?_, r, hpc⟩
        rw [hflag, Function.update_self]
  · rw [step_pc hs hb]
    exact Or.inl ⟨ht, le_rfl, fun hrun => absurd (congrArg Action.thread hrun) hb⟩

/-- A thread that waits for a flag takes it, or goes on waiting. -/
theorem waiting_step (hs : step s b = some s') (ht : s.pc t = .acquire op) :
    (s'.pc t = .acquire op ∧ (b = .run t → s.flag op.queue = true)) ∨
      (s'.pc t).held = some op := by
  by_cases hb : b.thread = t
  · obtain ⟨p, hp, hgoes⟩ := step_goes hs
    rw [hb] at hp hgoes
    have hself : s'.pc t = p := by rw [hp, Function.update_self]
    rw [hself]
    cases hgoes with
    | call op' hpc | clear op' r hpc =>
        rw [ht] at hpc
        cases hpc
    | spin op' hpc hp' hq =>
        rw [ht] at hpc
        cases hpc
        exact Or.inl ⟨hp', fun _ => hq⟩
    | take op' hpc hp' =>
        rw [ht] at hpc
        cases hpc
        exact Or.inr (by rw [hp', held_entry])
    | statement st hst =>
        rw [ht] at hst
        cases hst
  · rw [step_pc hs hb]
    exact Or.inl ⟨ht, fun hrun => absurd (congrArg Action.thread hrun) hb⟩

/-- A flag is set by a thread that waits for it. -/
theorem flag_step {q : κ} (hs : step s b = some s') (hq : s.flag q = false)
    (hq' : s'.flag q ≠ false) : ∃ u op, s.pc u = .acquire op ∧ op.queue = q ∧
      (s'.pc u).held = some op := by
  obtain ⟨p, hp, hgoes⟩ := step_goes hs
  cases hgoes with
  | call op hpc hp' hflag | spin op hpc hp' hset hflag | statement st hst hflag =>
      rw [hflag] at hq'
      exact absurd hq hq'
  | take op hpc hp' hfree hflag =>
      rw [hflag] at hq'
      have hqop : op.queue = q := by
        by_contra hne
        exact hq' (by rw [Function.update_of_ne (Ne.symm hne), hq])
      exact ⟨b.thread, op, hpc, hqop, by rw [hp, Function.update_self, hp', held_entry]⟩
  | clear op r hpc hp' hflag =>
      rw [hflag, Function.update_apply] at hq'
      split at hq'
      · exact absurd rfl hq'
      · exact absurd hq hq'

/-! ## Fair runs -/

section Fair

variable {next : ν → Option ν} {x : Nat → State τ κ ν} {a : Nat → Option (Action τ κ ν)} {K : Nat}

/-- The thread returns from an operation. -/
def Completes (x : Nat → State τ κ ν) (k : Nat) (t : τ) (op : QueueOp κ ν) : Prop :=
  (∃ r, (x k).pc t = .release op r) ∧ (x (k + 1)).pc t = .idle

omit [DecidableEq τ] [DecidableEq ν] in
theorem Inv.guarded (h : Inv s) : Guarded s.flag s.store s.pc s.content where
  separate := h.separate
  holder _ := ⟨h.holder, fun ⟨_, _, ht, hq⟩ => hq ▸ h.flag ht⟩
  exclusive := h.exclusive
  free := h.free
  inside := h.inside
  outside := h.outside
  single := h.single

theorem Inv.enabled (h : Inv s) (ht : (s.pc t).held = some op) :
    (Lock.step s (.run t)).isSome := by
  by_cases hrel : ∃ r, s.pc t = .release op r
  · obtain ⟨r, hr⟩ := hrel
    simp only [Lock.step, hr, Option.isSome_some]
  · have hst := h.guarded.enabled ht fun r hr => hrel ⟨r, hr⟩
    cases hpc : s.pc t with
    | idle | acquire =>
        rw [hpc] at ht
        cases ht
    | release op' r =>
        rw [hpc] at ht
        obtain rfl := Option.some.inj ht
        exact absurd ⟨r, hpc⟩ hrel
    | _ =>
        rw [hpc] at hst
        simp only [Lock.step, hpc, Option.isSome_map]
        exact hst

/-- **An operation that took its flag ends**, and clears the flag. -/
theorem clears_flag (h : Behaviour step (init next) x a) (hinv : ∀ k, Inv (x k))
    (hfair : ∀ t, Fair step x a (.run t)) (ht : ((x K).pc t).held = some op) :
    ∃ k ≥ K, Completes x k t op ∧ (x (k + 1)).flag op.queue = false := by
  obtain ⟨j, hj, hend⟩ : ∃ j ≥ K, ((x j).pc t).held ≠ some op := by
    refine h.reaches (I := fun s => (s.pc t).held = some op)
      (Q := fun s => (s.pc t).held ≠ some op) (hfair t) (fun s => (s.pc t).remaining) ht
      (fun k _ hk => (hinv k).enabled hk) fun k _ c _ hs hk => ?_
    rcases held_step (hinv k) hs hk with hnear | ⟨-, hidle, -⟩
    · exact Or.inr hnear
    · refine Or.inl ?_
      rw [hidle]
      exact nofun
  obtain ⟨k, hk, hheld, hnot⟩ :=
    exists_end (P := fun k => ((x k).pc t).held = some op) ht hj hend
  obtain ⟨c, -, hs⟩ := h.exists_step (I := fun s => (s.pc t).held = some op) hheld hnot
  rcases held_step (hinv k) hs hheld with ⟨hheld', -⟩ | ⟨-, hidle, hflag, hr⟩
  · exact absurd hheld' hnot
  · exact ⟨k, hk, ⟨hr, hidle⟩, hflag⟩

/-- Each flag is clear again and again. -/
theorem flag_clears (h : Behaviour step (init next) x a) (hinv : ∀ k, Inv (x k))
    (hfair : ∀ t, Fair step x a (.run t)) (q : κ) (n : Nat) : ∃ k ≥ n, (x k).flag q = false := by
  cases hq : (x n).flag q with
  | false => exact ⟨n, le_rfl, hq⟩
  | true =>
      obtain ⟨u, op, hu, rfl⟩ := (hinv n).holder hq
      obtain ⟨k, hk, -, hflag⟩ := clears_flag h hinv hfair hu
      exact ⟨k + 1, by omega, hflag⟩

/-- A thread that waits for a flag for ever sees the others take it for ever. -/
theorem taken_by_others (h : Behaviour step (init next) x a) (hinv : ∀ k, Inv (x k))
    (hfair : ∀ t, Fair step x a (.run t)) (hwait : ∀ k ≥ K, (x k).pc t = .acquire op) (n : Nat) :
    ∃ k ≥ n, ∃ u op', u ≠ t ∧ op'.queue = op.queue ∧ ((x (k + 1)).pc u).held = some op' := by
  have henabled : ∀ k ≥ K, (step (x k) (.run t)).isSome := by
    intro k hk
    simp only [step, hwait k hk]
    split <;> rfl
  obtain ⟨k, hk, hfree, htaken⟩ := h.taken (F := fun s => s.flag op.queue = false) (hfair t)
    (fun _ => 0) (flag_clears h hinv hfair op.queue) henabled
    (fun k hk c _ hs hf => Or.inr ⟨le_rfl, fun hrun => by
      rcases waiting_step hs (hwait k hk) with ⟨-, hset⟩ | hheld
      · rw [hset hrun] at hf
        cases hf
      · rw [hwait (k + 1) (Nat.le_succ_of_le hk)] at hheld
        cases hheld⟩) (max K n)
  obtain ⟨c, -, hs⟩ := h.exists_step (I := fun s => s.flag op.queue = false) hfree htaken
  obtain ⟨u, op', -, hq, hheld⟩ := flag_step hs hfree htaken
  refine ⟨k, (le_max_right K n).trans hk, u, op', ?_, hq, hheld⟩
  rintro rfl
  have hstill := hwait (k + 1) (Nat.le_succ_of_le ((le_max_left K n).trans hk))
  rw [hstill] at hheld
  cases hheld

/-- **The locked queues are free of deadlocks.** Threads call the operations of any number of
queues as they like, and each thread is scheduled fairly while it is in an operation. An operation
that took its flag ends; and an operation that does not end is overtaken: infinitely many
operations of other threads on the same queue do. -/
theorem queues_progress (h : Behaviour step (init next) x a)
    (hd : ∀ k b, a k = some b → Disciplined (x k) b) (hfair : ∀ t, Fair step x a (.run t))
    (ht : ((x K).pc t).op = some op) :
    (((x K).pc t).held = some op → ∃ k ≥ K, Completes x k t op) ∧
    ((∃ k ≥ K, Completes x k t op) ∨
      ∀ n, ∃ k ≥ n, ∃ u op', u ≠ t ∧ op'.queue = op.queue ∧ Completes x k u op') := by
  have hinv : ∀ k, Inv (x k) := h.invariant (init_inv next) (fun h hd hs => h.step hd hs) hd
  have hends : ∀ {j u op'}, ((x j).pc u).held = some op' → ∃ k ≥ j, Completes x k u op' := by
    intro j u op' hu
    obtain ⟨k, hk, hc, -⟩ := clears_flag h hinv hfair hu
    exact ⟨k, hk, hc⟩
  refine ⟨hends, ?_⟩
  by_cases hret : ∃ k ≥ K, Completes x k t op
  · exact Or.inl hret
  · have hnot : ∀ k ≥ K, ((x k).pc t).held ≠ some op := by
      intro k hk hheld
      obtain ⟨j, hj, hc⟩ := hends hheld
      exact hret ⟨j, hk.trans hj, hc⟩
    have hK : (x K).pc t = .acquire op := by
      have hK := hnot K le_rfl
      cases hpc : (x K).pc t with
      | idle =>
          rw [hpc] at ht
          cases ht
      | acquire op' =>
          rw [hpc] at ht
          exact congrArg Pc.acquire (Option.some.inj ht)
      | _ =>
          rw [hpc] at ht hK
          exact absurd ht hK
    have hwait : ∀ k ≥ K, (x k).pc t = .acquire op :=
      h.stays (I := fun s => s.pc t = .acquire op) hK fun k hk b _ hs hpc =>
        ((waiting_step hs hpc).resolve_right (hnot (k + 1) (by omega))).1
    refine Or.inr fun n => ?_
    obtain ⟨j, hj, u, op', hut, hq, hheld⟩ := taken_by_others h hinv hfair hwait n
    obtain ⟨k, hk, hc⟩ := hends hheld
    exact ⟨k, by omega, u, op', hut, hq, hc⟩

end Fair

/-- Thread `0` pushes a node and thread `1` pops, both for ever in turn. -/
def pushPop : Nat → Action (Fin 2) (Fin 1) Nat
  | 0 => .call 0 (.push 0 7)
  | 1 => .call 1 (.pop 0)
  | k + 2 => .run ⟨k % 2, Nat.mod_lt k (by decide)⟩

/-- The push takes the flag first, and so it ends. -/
theorem queues_progress_pushPop :
    ∃ k ≥ 3, Completes (play step (init fun _ => none) pushPop) k 0 (.push 0 7) := by
  have hd : ∀ k b, played step (init fun _ => none) pushPop k = some b →
      Disciplined (play step (init fun _ => none) pushPop k) b := by
    intro k b hb
    obtain rfl := eq_of_played hb
    match k with
    | 0 => decide
    | 1 => trivial
    | k + 2 => trivial
  have hfair : ∀ t, Fair step (play step (init fun _ => none) pushPop)
      (played step (init fun _ => none) pushPop) (.run t) := by
    refine fun t => play_fair fun k => ⟨2 * k + t.val + 2, by omega, congrArg Action.run ?_⟩
    apply Fin.ext
    show (2 * k + t.val) % 2 = t.val
    rw [Nat.mul_add_mod, Nat.mod_eq_of_lt t.isLt]
  have hpc : ((play step (init fun _ => none) pushPop 3).pc 0).op = some (.push 0 7) := by decide
  exact (queues_progress play_behaviour hd hfair hpc).1 (by decide)

end Bop.Lock
