import Bop.Queue.Linearizable

set_option autoImplicit false

/-! # Locked queues inside a program

`Linearizable.lean` is about threads that do nothing but call queues. In a program they do other
things between the calls, and some of its queues belong to one thread each, which uses them
without a flag. `Guarded` is what holds of such a program at any time: who holds which flag, and
what the queues look like at the control points of the threads that are inside an operation. It
speaks of the flags, the store and the control points only, so a program that has these among
its variables keeps it by the rules below, whatever else it does:

* `Guarded.call`, `Guarded.acquire`, `Guarded.statement`, `Guarded.release`: the steps of an
  operation. The lists change when the flag is cleared, and the result is that of the lists.
* `Guarded.apply`: an operation executed at once, on a queue that nobody is in;
  `Guarded.clearNext` for a node that nobody uses.
* `Guarded.enabled`, `statement_rank`: the thread that holds a flag can go on, and clears it after
  at most ten statements.
-/

namespace Bop.Lock

open IntrusiveList

variable {τ κ ν : Type*}

section

variable [DecidableEq τ] {pc : τ → Pc κ ν} {p : Pc κ ν} {t t' : τ}

/-- A thread that goes on inside its operation, or outside any, holds what it held. -/
theorem held_update (hp : p.held = (pc t).held) :
    (Function.update pc t p t').held = (pc t').held := by
  by_cases htt : t' = t
  · rw [htt, Function.update_self, hp]
  · rw [Function.update_of_ne htt]

theorem op_update (hp : p.op = (pc t).op) : (Function.update pc t p t').op = (pc t').op := by
  by_cases htt : t' = t
  · rw [htt, Function.update_self, hp]
  · rw [Function.update_of_ne htt]

end

/-- Nobody is pushing the node. -/
def Unused (pc : τ → Pc κ ν) (a : ν) : Prop := ∀ t q, (pc t).op ≠ some (.push q a)

/-- The thread may start the operation: the node it pushes is in no queue and nobody else's. -/
def MayCall (pc : τ → Pc κ ν) (c : κ → List ν) (op : QueueOp κ ν) : Prop :=
  op.Allowed c ∧ ∀ a ∈ op.nodes, Unused pc a

theorem mayCall_pop (pc : τ → Pc κ ν) (c : κ → List ν) (q : κ) : MayCall pc c (.pop q) :=
  ⟨trivial, fun _ ha => by cases ha⟩

theorem mayCall_clear (pc : τ → Pc κ ν) (c : κ → List ν) (q : κ) : MayCall pc c (.clear q) :=
  ⟨trivial, fun _ ha => by cases ha⟩

theorem mayCall_size (pc : τ → Pc κ ν) (c : κ → List ν) (q : κ) : MayCall pc c (.size q) :=
  ⟨trivial, fun _ ha => by cases ha⟩

section

variable [DecidableEq κ]

structure Guarded (flag : κ → Bool) (st : Store κ ν) (pc : τ → Pc κ ν) (c : κ → List ν) :
    Prop where
  separate : Separate c
  holder : ∀ q, flag q = true ↔ ∃ t op, (pc t).held = some op ∧ op.queue = q
  exclusive : ∀ {t t' op op'}, (pc t).held = some op → (pc t').held = some op' →
    op.queue = op'.queue → t = t'
  free : ∀ {q}, flag q = false → Repr st q (c q)
  inside : ∀ t, Inside st c (pc t)
  outside : ∀ {t q work}, (pc t).op = some (.push q work) → ∀ q', work ∉ c q'
  single : ∀ {t t' q q' work}, (pc t).op = some (.push q work) →
    (pc t').op = some (.push q' work) → t = t'

variable {flag flag' : κ → Bool} {st st' : Store κ ν} {pc : τ → Pc κ ν} {c c' : κ → List ν}
  {t t' : τ} {op op' : QueueOp κ ν} {p p' : Pc κ ν} {q : κ} {a work : ν}

theorem guarded_init (next : ν → Option ν) :
    Guarded (fun _ => false) (Store.empty next : Store κ ν) (fun _ : τ => .idle)
      fun _ => [] where
  separate := ⟨fun _ => List.nodup_nil, fun h => absurd h List.not_mem_nil⟩
  holder q := by simp [Pc.held, Pc.op]
  exclusive h := nomatch h
  free _ := ⟨represents_nil, rfl⟩
  inside _ := trivial
  outside h := nomatch h
  single h := nomatch h

theorem Guarded.flag_of_held (h : Guarded flag st pc c) (ht : (pc t).held = some op) :
    flag op.queue = true := (h.holder _).mpr ⟨t, op, ht, rfl⟩

/-- Nobody is in a queue whose flag is clear. -/
theorem Guarded.queue_ne (h : Guarded flag st pc c) (hq : flag q = false)
    (ht : (pc t).held = some op) : op.queue ≠ q := by
  rintro rfl
  rw [h.flag_of_held ht] at hq
  cases hq

/-- The nodes of an operation in progress are in no other queue, -/
theorem Guarded.not_owned (h : Guarded flag st pc c) (ht : (pc t).held = some op)
    (hq : q ≠ op.queue) (ha : a ∈ c q) : ¬ Owned c op a := by
  rintro (hown | hown)
  · exact hq (h.separate.disjoint ha hown)
  · obtain ⟨q', rfl⟩ := mem_nodes hown
    exact h.outside (Pc.op_of_held ht) q ha

/-- and no other operation's. -/
theorem Guarded.owned_ne (h : Guarded flag st pc c) (ht : (pc t).held = some op)
    (ht' : (pc t').held = some op') (hne : t' ≠ t) (ha : Owned c op' a) : ¬ Owned c op a := by
  have hqq : op'.queue ≠ op.queue := fun hqq => hne (h.exclusive ht' ht hqq)
  rcases ha with ha | ha
  · exact h.not_owned ht hqq ha
  · obtain ⟨q', rfl⟩ := mem_nodes ha
    rintro (hown | hown)
    · exact h.outside (Pc.op_of_held ht') _ hown
    · obtain ⟨q'', rfl⟩ := mem_nodes hown
      exact hne (h.single (Pc.op_of_held ht') (Pc.op_of_held ht))

/-! ## The steps of an operation -/

section Steps

variable [DecidableEq τ]

/-- A thread starts an operation: it waits for the flag. -/
theorem Guarded.call (h : Guarded flag st pc c) (hidle : pc t = .idle) (hop : MayCall pc c op) :
    Guarded flag st (Function.update pc t (.acquire op)) c := by
  have hheld : ∀ t', (Function.update pc t (.acquire op) t').held = (pc t').held :=
    fun t' => held_update (by rw [hidle]; rfl)
  -- a push in progress is one from before, or the new one
  have hpush : ∀ {t' q work}, (Function.update pc t (.acquire op) t').op = some (.push q work) →
      (t' = t ∧ op = .push q work) ∨ (pc t').op = some (.push q work) := by
    intro t' q work ht'
    by_cases htt : t' = t
    · rw [htt, Function.update_self] at ht'
      exact Or.inl ⟨htt, Option.some.inj ht'⟩
    · rw [Function.update_of_ne htt] at ht'
      exact Or.inr ht'
  constructor
  case separate => exact h.separate
  case holder => simpa only [hheld] using h.holder
  case exclusive =>
    intro t₁ t₂ op₁ op₂ h₁ h₂
    rw [hheld] at h₁ h₂
    exact h.exclusive h₁ h₂
  case free => exact h.free
  case inside =>
    intro t'
    by_cases htt : t' = t
    · rw [htt, Function.update_self]
      trivial
    · rw [Function.update_of_ne htt]
      exact h.inside t'
  case outside =>
    intro t' q work ht'
    rcases hpush ht' with ⟨-, rfl⟩ | ht'
    · exact hop.1
    · exact h.outside ht'
  case single =>
    intro t₁ t₂ q₁ q₂ work h₁ h₂
    rcases hpush h₁ with ⟨rfl, rfl⟩ | k₁
    · rcases hpush h₂ with ⟨rfl, -⟩ | k₂
      · rfl
      · exact absurd k₂ (hop.2 work List.mem_cons_self _ _)
    · rcases hpush h₂ with ⟨rfl, rfl⟩ | k₂
      · exact absurd k₁ (hop.2 work List.mem_cons_self _ _)
      · exact h.single k₁ k₂

/-- It finds the flag clear and sets it. -/
theorem Guarded.acquire (h : Guarded flag st pc c) (hpc : pc t = .acquire op)
    (hfree : flag op.queue = false) :
    Guarded (Function.update flag op.queue true) st (Function.update pc t (entry op)) c := by
  have hop : ∀ t', (Function.update pc t (entry op) t').op = (pc t').op :=
    fun t' => op_update (by rw [hpc, Pc.op_of_held (held_entry op)]; rfl)
  have hheld : ∀ {t' op'}, (Function.update pc t (entry op) t').held = some op' ↔
      (t' = t ∧ op' = op) ∨ (pc t').held = some op' := by
    intro t' op'
    by_cases htt : t' = t
    · rw [htt, Function.update_self, held_entry, hpc]
      simp [Pc.held, eq_comm]
    · rw [Function.update_of_ne htt]
      simp [htt]
  constructor
  case separate => exact h.separate
  case holder =>
    intro q
    by_cases hq : q = op.queue
    · subst hq
      rw [Function.update_self]
      exact iff_of_true rfl ⟨t, op, hheld.mpr (Or.inl ⟨rfl, rfl⟩), rfl⟩
    · rw [Function.update_of_ne hq, h.holder]
      constructor
      · rintro ⟨t', op', ht', rfl⟩
        exact ⟨t', op', hheld.mpr (Or.inr ht'), rfl⟩
      · rintro ⟨t', op', ht', rfl⟩
        rcases hheld.mp ht' with ⟨-, rfl⟩ | ht'
        · exact absurd rfl hq
        · exact ⟨t', op', ht', rfl⟩
  case exclusive =>
    intro t₁ t₂ op₁ op₂ h₁ h₂ hqq
    rcases hheld.mp h₁ with ⟨rfl, rfl⟩ | k₁
    · rcases hheld.mp h₂ with ⟨rfl, -⟩ | k₂
      · rfl
      · exact absurd hqq.symm (h.queue_ne hfree k₂)
    · rcases hheld.mp h₂ with ⟨rfl, rfl⟩ | k₂
      · exact absurd hqq (h.queue_ne hfree k₁)
      · exact h.exclusive k₁ k₂ hqq
  case free =>
    intro q hq
    refine h.free ?_
    by_cases hqq : q = op.queue
    · rw [hqq, Function.update_self] at hq
      cases hq
    · rwa [Function.update_of_ne hqq] at hq
  case inside =>
    intro t'
    by_cases htt : t' = t
    · have hrepr := h.free hfree
      rw [htt, Function.update_self]
      cases op <;> exact hrepr
    · rw [Function.update_of_ne htt]
      exact h.inside t'
  case outside =>
    intro t' q work ht'
    rw [hop] at ht'
    exact h.outside ht'
  case single =>
    intro t₁ t₂ q₁ q₂ work h₁ h₂
    rw [hop] at h₁ h₂
    exact h.single h₁ h₂

variable [DecidableEq ν]

/-- A statement between setting and clearing the flag. -/
theorem Guarded.statement (h : Guarded flag st pc c)
    (hs : statement st (pc t) = some (st', p')) :
    Guarded flag st' (Function.update pc t p') c := by
  obtain ⟨op, hself, hself', hqueue, hnext⟩ := statement_frame hs (h.inside t)
  have hheld : ∀ t', (Function.update pc t p' t').held = (pc t').held :=
    fun t' => held_update (hself'.trans hself.symm)
  have hop : ∀ t', (Function.update pc t p' t').op = (pc t').op :=
    fun t' => op_update ((Pc.op_of_held hself').trans (Pc.op_of_held hself).symm)
  constructor
  case separate => exact h.separate
  case holder => simpa only [hheld] using h.holder
  case exclusive =>
    intro t₁ t₂ op₁ op₂ h₁ h₂
    rw [hheld] at h₁ h₂
    exact h.exclusive h₁ h₂
  case free =>
    intro q hq
    have hqq : q ≠ op.queue := (h.queue_ne hq hself).symm
    exact (h.free hq).frame (hqueue q hqq) (fun b hb => hnext b (h.not_owned hself hqq hb))
  case inside =>
    intro t'
    by_cases htt : t' = t
    · subst htt
      rw [Function.update_self]
      exact inside_statement (h.inside t') h.separate.nodup
        (fun q work hpush => h.outside hpush q) hs
    · rw [Function.update_of_ne htt]
      cases ht' : (pc t').held with
      | none => exact inside_of_not_held ht'
      | some op' =>
          have hqq : op'.queue ≠ op.queue := fun hqq => htt (h.exclusive ht' hself hqq)
          exact (h.inside t').frame ht' (hqueue _ hqq)
            (fun b hb => hnext b (h.owned_ne hself ht' htt hb)) rfl
  case outside =>
    intro t' q work ht'
    rw [hop] at ht'
    exact h.outside ht'
  case single =>
    intro t₁ t₂ q₁ q₂ work h₁ h₂
    rw [hop] at h₁ h₂
    exact h.single h₁ h₂

omit [DecidableEq ν] in
/-- The thread clears the flag and has the result that the operation has on the lists. -/
theorem Guarded.release {r : QueueResult ν} (h : Guarded flag st pc c)
    (hpc : pc t = .release op r) :
    r = (fifoOp c op).1.wrap ∧
      Guarded (Function.update flag op.queue false) st (Function.update pc t .idle)
        (fifoOp c op).2 := by
  have hself : (pc t).held = some op := by rw [hpc]; rfl
  have hins : Inside st c (.release op r) := hpc ▸ h.inside t
  have hother : ∀ {t' op'}, (Function.update pc t .idle t').op = some op' →
      t' ≠ t ∧ (pc t').op = some op' := by
    intro t' op' ht'
    by_cases htt : t' = t
    · rw [htt, Function.update_self] at ht'
      cases ht'
    · rw [Function.update_of_ne htt] at ht'
      exact ⟨htt, ht'⟩
  have hheld : ∀ {t' op'}, (Function.update pc t .idle t').held = some op' →
      t' ≠ t ∧ (pc t').held = some op' ∧ op'.queue ≠ op.queue := by
    intro t' op' ht'
    have htt := (hother (Pc.op_of_held ht')).1
    rw [Function.update_of_ne htt] at ht'
    exact ⟨htt, ht', fun hqq => htt (h.exclusive ht' hself hqq)⟩
  have hallowed : op.Allowed c := by
    cases op with
    | push q work => exact h.outside (Pc.op_of_held hself)
    | pop | clear | size => trivial
  refine ⟨hins.2, ?_⟩
  constructor
  case separate => exact h.separate.fifoOp hallowed
  case holder =>
    intro q
    by_cases hq : q = op.queue
    · subst hq
      rw [Function.update_self]
      refine iff_of_false Bool.false_ne_true ?_
      rintro ⟨t', op', ht', hqq⟩
      exact (hheld ht').2.2 hqq
    · rw [Function.update_of_ne hq, h.holder]
      constructor
      · rintro ⟨t', op', ht', rfl⟩
        have htt : t' ≠ t := by
          rintro rfl
          exact hq (congrArg QueueOp.queue (Option.some.inj (ht'.symm.trans hself)))
        exact ⟨t', op', by rwa [Function.update_of_ne htt], rfl⟩
      · rintro ⟨t', op', ht', rfl⟩
        exact ⟨t', op', (hheld ht').2.1, rfl⟩
  case exclusive => exact fun h₁ h₂ => h.exclusive (hheld h₁).2.1 (hheld h₂).2.1
  case free =>
    intro q hq
    by_cases hqq : q = op.queue
    · rw [hqq]
      exact hins.1
    · rw [Function.update_of_ne hqq] at hq
      rw [fifoOp_frame hqq]
      exact h.free hq
  case inside =>
    intro t'
    cases ht' : (Function.update pc t .idle t').held with
    | none => exact inside_of_not_held ht'
    | some op' =>
        obtain ⟨htt, hop', hqq⟩ := hheld ht'
        rw [Function.update_of_ne htt]
        exact (h.inside t').frame hop' rfl (fun _ _ => rfl) (fifoOp_frame hqq)
  case outside =>
    intro t' q work ht' q' hw
    obtain ⟨htt, hop'⟩ := hother ht'
    rcases mem_fifoOp hw with hw | hw
    · exact h.outside hop' q' hw
    · obtain ⟨q'', rfl⟩ := mem_nodes hw
      exact htt (h.single hop' (Pc.op_of_held hself))
  case single => exact fun h₁ h₂ => h.single (hother h₁).2 (hother h₂).2

end Steps

/-! ## Operations executed at once -/

/-- The lists of one queue change, and the store agrees. The links of the nodes in the other
queues and of those being pushed stay. -/
theorem Guarded.local (h : Guarded flag st pc c) (hq : flag q = false) (hsep : Separate c')
    (hc : ∀ q' ≠ q, c' q' = c q') (hmem : ∀ a ∈ c' q, a ∈ c q ∨ Unused pc a)
    (hrepr : Repr st' q (c' q)) (hqueue : ∀ q' ≠ q, st'.queue q' = st.queue q')
    (hnext : ∀ a, ((∃ q' ≠ q, a ∈ c q') ∨ ¬ Unused pc a) → st'.next a = st.next a) :
    Guarded flag st' pc c' := by
  constructor
  case separate => exact hsep
  case holder => exact h.holder
  case exclusive => exact h.exclusive
  case free =>
    intro q' hq'
    by_cases hqq : q' = q
    · rw [hqq]
      exact hrepr
    · rw [hc q' hqq]
      exact (h.free hq').frame (hqueue q' hqq) fun a ha => hnext a (Or.inl ⟨q', hqq, ha⟩)
  case inside =>
    intro t
    cases ht : (pc t).held with
    | none => exact inside_of_not_held ht
    | some op =>
        have hqq : op.queue ≠ q := h.queue_ne hq ht
        refine (h.inside t).frame ht (hqueue _ hqq) (fun a ha => hnext a ?_) (hc _ hqq)
        rcases ha with ha | ha
        · exact Or.inl ⟨_, hqq, ha⟩
        · obtain ⟨q', rfl⟩ := mem_nodes ha
          exact Or.inr fun hun => hun t q' (Pc.op_of_held ht)
  case outside =>
    intro t q₁ work ht q' hw
    by_cases hqq : q' = q
    · subst hqq
      rcases hmem work hw with hw | hun
      · exact h.outside ht q' hw
      · exact hun t q₁ ht
    · rw [hc q' hqq] at hw
      exact h.outside ht q' hw
  case single => exact h.single

variable [DecidableEq ν]

/-- What an operation does to its own queue. -/
theorem Repr.apply (cls : κ → QueueClass) (h : Repr st op.queue (c op.queue)) (hop : op.Allowed c) :
    (applyOp cls st op).1 = (fifoOp c op).1.wrap ∧
      Repr (applyOp cls st op).2 op.queue ((fifoOp c op).2 op.queue) := by
  obtain ⟨hr, hcount⟩ := h
  rw [applyOp_eq]
  cases op with
  | push q work =>
      simp only [fifoOp, QueueOp.queue, Function.update_self] at hr hcount ⊢
      refine ⟨rfl, ?_⟩
      rw [Repr, Store.push_queue, Store.push_next, Function.update_self]
      exact ⟨hr.concat (hop q), by rw [hcount, succ32_mod]; simp⟩
  | pop q =>
      simp only [fifoOp, QueueOp.queue, Function.update_self] at hr hcount ⊢
      cases hl : c q with
      | nil =>
          rw [hl] at hr hcount
          have hpop : st.pop q = (none, st) := by
            simp only [Store.pop, hr.head_none.mpr rfl]
          rw [hpop]
          exact ⟨rfl, hr, hcount⟩
      | cons a l =>
          rw [hl] at hr hcount
          rw [Store.pop_eq_some hr.head_eq]
          refine ⟨rfl, ?_⟩
          simp only [Repr, Function.update_self, List.tail_cons]
          refine ⟨hr.uncons, ?_⟩
          rw [hcount, List.length_cons, pred32_succ_mod]
  | clear q =>
      simp only [fifoOp, QueueOp.queue, Function.update_self] at hr hcount ⊢
      refine ⟨congrArg QueueResult.cleared hcount, ?_⟩
      simp only [Store.clear, Repr, Function.update_self]
      exact ⟨represents_nil, rfl⟩
  | size q => exact ⟨congrArg QueueResult.entries hcount, hr, hcount⟩

variable {cls : κ → QueueClass}

/-- What it leaves alone: the other queues, -/
theorem applyOp_queue (hq : q ≠ op.queue) : (applyOp cls st op).2.queue q = st.queue q := by
  rw [applyOp_eq]
  cases op with
  | push q' work => exact Store.push_queue_of_ne hq
  | pop q' => exact Store.pop_queue_of_ne hq
  | clear q' => exact Store.clear_queue_of_ne hq
  | size q' => rfl

/-- and the links of all nodes but its own. -/
theorem applyOp_next (h : Repr st op.queue (c op.queue)) (ha : ¬ Owned c op a) :
    (applyOp cls st op).2.next a = st.next a := by
  rw [applyOp_eq]
  cases op with
  | push q' work =>
      rw [Store.push_next]
      refine linkAfter_of_ne (fun haw => ha (Or.inr ?_)) (fun htl => ha (Or.inl ?_))
      · rw [haw]
        exact List.mem_cons_self
      · exact List.mem_of_getLast? (h.1.tail_eq.symm.trans htl)
  | pop q' =>
      simp only [Store.pop]
      split <;> rfl
  | clear q' | size q' => rfl

/-- **An operation executed at once**, on a queue that nobody is in, does what it does on the
lists. -/
theorem Guarded.apply (cls : κ → QueueClass) (h : Guarded flag st pc c) (hop : MayCall pc c op)
    (hq : flag op.queue = false) :
    (applyOp cls st op).1 = (fifoOp c op).1.wrap ∧
      Guarded flag (applyOp cls st op).2 pc (fifoOp c op).2 := by
  obtain ⟨hres, hrepr⟩ := (h.free hq).apply cls hop.1
  refine ⟨hres, h.local hq (h.separate.fifoOp hop.1) (fun _ => fifoOp_frame) (fun a ha => ?_)
    hrepr (fun _ => applyOp_queue) (fun a ha => applyOp_next (h.free hq) ?_)⟩
  · exact (mem_fifoOp ha).imp_right (hop.2 a)
  · rintro (hown | hown)
    · rcases ha with ⟨q', hq', ha⟩ | hun
      · exact hq' (h.separate.disjoint ha hown)
      · refine hun fun t q ht => ?_
        exact h.outside ht _ hown
    · obtain ⟨q, rfl⟩ := mem_nodes hown
      rcases ha with ⟨q', -, ha⟩ | hun
      · exact hop.1 q' ha
      · exact hun (hop.2 a hown)

/-- The link of a node that nobody uses may be cleared. -/
theorem Guarded.clearNext (h : Guarded flag st pc c) (ha : ∀ q, a ∉ c q) (hun : Unused pc a) :
    Guarded flag (st.clearNext a) pc c := by
  have hnext : ∀ b, b ≠ a → (st.clearNext a).next b = st.next b :=
    fun b hb => Function.update_of_ne hb _ _
  constructor
  case separate => exact h.separate
  case holder => exact h.holder
  case exclusive => exact h.exclusive
  case free =>
    intro q hq
    exact (h.free hq).frame rfl fun b hb => hnext b (ne_of_mem_of_not_mem hb (ha q))
  case inside =>
    intro t
    cases ht : (pc t).held with
    | none => exact inside_of_not_held ht
    | some op =>
        refine (h.inside t).frame ht rfl (fun b hb => hnext b ?_) rfl
        rintro rfl
        rcases hb with hb | hb
        · exact ha _ hb
        · obtain ⟨q, rfl⟩ := mem_nodes hb
          exact hun t q (Pc.op_of_held ht)
  case outside => exact h.outside
  case single => exact h.single

/-! ## Progress -/

/-- The number of statements until the flag is cleared, at most. -/
def Pc.remaining : Pc κ ν → Nat
  | .idle | .acquire _ | .release _ _ => 0
  | .pushNext _ _ => 9
  | .pushReadHead _ _ => 8
  | .pushHead _ _ | .popReadHead _ => 7
  | .pushReadTail _ _ | .popReadNext _ _ => 6
  | .pushLast _ _ | .popHead _ _ _ => 5
  | .pushLink _ _ _ | .popReadCount _ _ | .clearReadCount _ => 4
  | .pushTail _ _ | .pushNewTail _ _ | .popCount _ _ _ | .clearHead _ _ => 3
  | .pushReadCount _ _ | .popReadTail _ _ | .clearTail _ _ => 2
  | .pushCount _ _ _ | .popTail _ _ | .clearCount _ _ | .sizeReadCount _ => 1

theorem statement_remaining (hs : statement st p = some (st', p')) :
    p'.remaining < p.remaining := by
  cases p with
  | idle | acquire | release => cases hs
  | pushReadHead q work | pushReadTail q work | popReadHead q | popReadTail q r =>
      cases hs
      split <;> simp [Pc.remaining]
  | pushLast q work =>
      obtain ⟨t, -, heq⟩ := Option.map_eq_some_iff.mp hs
      cases heq
      simp [Pc.remaining]
  | _ =>
      cases hs
      simp [Pc.remaining]

/-- **Nothing blocks a thread that holds a flag**: the next statement is defined. -/
theorem Guarded.enabled (h : Guarded flag st pc c) (ht : (pc t).held = some op)
    (hrel : ∀ r, pc t ≠ .release op r) : (Lock.statement st (pc t)).isSome := by
  have hins := h.inside t
  cases hpc : pc t with
  | idle | acquire =>
      rw [hpc] at ht
      cases ht
  | release op' r =>
      rw [hpc] at ht
      obtain rfl := Option.some.inj ht
      exact absurd hpc (hrel r)
  | pushLast q work =>
      -- the queue was not empty, so it has a tail
      rw [hpc] at hins
      have htail : (st.queue q).tail ≠ none := fun hn => hins.2 (hins.1.tail_none.mp hn)
      obtain ⟨x, hx⟩ := Option.ne_none_iff_exists'.mp htail
      simp [Lock.statement, hx]
  | _ => rfl

end

end Bop.Lock
