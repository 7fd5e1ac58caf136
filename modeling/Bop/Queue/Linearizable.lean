import Bop.Queue.Lock
import Mathlib.Data.Fintype.Basic

set_option autoImplicit false

/-! # The locked queues are linearizable

The invariant (`Inv`) says who holds which flag, that a queue whose flag is clear represents
the list the finished operations left, that a thread inside an operation is at a control
point whose assertion holds, and that the operations, in the order in which they took their
flags, are an admissible sequence whose results and lists are the ones seen. Each kind of
step keeps it (`Inv.call`, `Inv.acquire`, `Inv.statement`, `Inv.release`), and
`linearizable` reads the result off it.
-/

namespace Bop.Lock

open IntrusiveList Transition

variable {τ κ ν : Type*}

/-! ## The invariant -/

theorem Pc.op_of_held {pc : Pc κ ν} {op : QueueOp κ ν} (h : pc.held = some op) :
    pc.op = some op := by
  cases pc <;> first | exact h | cases h

theorem held_entry (op : QueueOp κ ν) : (entry op).held = some op := by
  cases op <;> rfl

/-- The nodes of a push are the pushed node. -/
theorem mem_nodes {op : QueueOp κ ν} {a : ν} (ha : a ∈ op.nodes) : ∃ q, op = .push q a := by
  cases op with
  | push q work => exact ⟨q, by rw [List.mem_singleton.mp ha]⟩
  | pop q => cases ha
  | clear q => cases ha
  | size q => cases ha

section

variable [DecidableEq κ]

/-- The lists after all operations that took their flags, one after the other. -/
def State.sequential (s : State τ κ ν) : κ → List ν :=
  (fifoOps (fun _ => []) s.acquired).2

/-- The results of the operations that took their flags, one after the other. -/
def State.results (s : State τ κ ν) : List (QueueResult ν) :=
  (fifoOps (fun _ => []) s.acquired).1

structure Inv (s : State τ κ ν) : Prop where
  separate : Separate s.content
  free : ∀ {q}, s.flag q = false → Repr s.store q (s.content q)
  flag : ∀ {t op}, (s.pc t).held = some op → s.flag op.queue = true
  exclusive : ∀ {t t' op op'}, (s.pc t).held = some op → (s.pc t').held = some op' →
    op.queue = op'.queue → t = t'
  holder : ∀ {q}, s.flag q = true → ∃ t op, (s.pc t).held = some op ∧ op.queue = q
  inside : ∀ t, Inside s.store s.content (s.pc t)
  outside : ∀ {t q work}, (s.pc t).op = some (.push q work) → ∀ q', work ∉ s.content q'
  single : ∀ {t t' q q' work}, (s.pc t).op = some (.push q work) →
    (s.pc t').op = some (.push q' work) → t = t'
  admissible : Admissible (fun _ => []) s.acquired
  settled : ∀ {q}, s.flag q = false → s.sequential q = s.content q
  pending : ∀ {t op}, (s.pc t).held = some op →
    s.sequential op.queue = (fifoOp s.content op).2 op.queue
  result : ∀ {t op}, (s.pc t).held = some op →
    s.results[s.ticket t]? = some (fifoOp s.content op).1
  returned : ∀ {k r}, (k, r) ∈ s.returned → (s.results.map QueueResult.wrap)[k]? = some r

variable {s s' : State τ κ ν} {t : τ} {op : QueueOp κ ν} {pc : Pc κ ν}

theorem init_inv (next : ν → Option ν) : Inv (init next : State τ κ ν) where
  separate := ⟨fun _ => List.nodup_nil, fun h => absurd h List.not_mem_nil⟩
  free := fun _ => ⟨represents_nil, rfl⟩
  flag := fun h => nomatch h
  exclusive := fun h => nomatch h
  holder := fun h => nomatch h
  inside := fun _ => trivial
  outside := fun h => nomatch h
  single := fun h => nomatch h
  admissible := trivial
  settled := fun _ => rfl
  pending := fun h => nomatch h
  result := fun h => nomatch h
  returned := fun h => nomatch h

/-- The lists after all operations that took their flags hold no node but those of the
finished operations and those being pushed. -/
theorem Inv.mem_sequential (h : Inv s) {q : κ} {a : ν} (ha : a ∈ s.sequential q) :
    a ∈ s.content q ∨ ∃ t q', (s.pc t).held = some (.push q' a) := by
  cases hf : s.flag q with
  | false =>
      rw [h.settled hf] at ha
      exact Or.inl ha
  | true =>
      obtain ⟨t, op, ht, rfl⟩ := h.holder hf
      rw [h.pending ht] at ha
      rcases mem_fifoOp ha with ha | ha
      · exact Or.inl ha
      · obtain ⟨q', rfl⟩ := mem_nodes ha
        exact Or.inr ⟨t, q', ht⟩

variable [DecidableEq τ]

/-- A call starts waiting for the flag. -/
theorem Inv.call (h : Inv s) (hidle : s.pc t = .idle) (hd : Disciplined s (.call t op)) :
    Inv { s with pc := Function.update s.pc t (.acquire op) } := by
  -- a thread that waits holds no flag, so the holders are the same as before
  have hheld : ∀ {t' op'}, (Function.update s.pc t (.acquire op) t').held = some op' →
      (s.pc t').held = some op' := by
    intro t' op' ht'
    by_cases htt : t' = t
    · rw [htt, Function.update_self] at ht'
      cases ht'
    · rwa [Function.update_of_ne htt] at ht'
  have hop : ∀ {t' op'}, (Function.update s.pc t (.acquire op) t').op = some op' →
      (t' = t ∧ op' = op) ∨ (t' ≠ t ∧ (s.pc t').op = some op') := by
    intro t' op' ht'
    by_cases htt : t' = t
    · rw [htt, Function.update_self] at ht'
      exact Or.inl ⟨htt, (Option.some.inj ht').symm⟩
    · rw [Function.update_of_ne htt] at ht'
      exact Or.inr ⟨htt, ht'⟩
  constructor
  case separate => exact h.separate
  case free => exact h.free
  case flag => exact fun ht' => h.flag (hheld ht')
  case exclusive => exact fun h₁ h₂ => h.exclusive (hheld h₁) (hheld h₂)
  case holder =>
    intro q hq
    obtain ⟨t', op', ht', hqueue⟩ := h.holder hq
    refine ⟨t', op', ?_, hqueue⟩
    have hne : t' ≠ t := by
      rintro rfl
      rw [hidle] at ht'
      cases ht'
    simpa [Function.update_of_ne hne] using ht'
  case inside =>
    intro t'
    by_cases htt : t' = t
    · simp only [htt, Function.update_self]
      trivial
    · simp only [Function.update_of_ne htt]
      exact h.inside t'
  case outside =>
    intro t' q work ht'
    rcases hop ht' with ⟨-, rfl⟩ | ⟨-, ht'⟩
    · exact hd.1
    · exact h.outside ht'
  case single =>
    intro t₁ t₂ q₁ q₂ work h₁ h₂
    rcases hop h₁ with ⟨rfl, rfl⟩ | ⟨-, k₁⟩
    · rcases hop h₂ with ⟨rfl, -⟩ | ⟨-, k₂⟩
      · rfl
      · exact absurd k₂ (hd.2 t₂ q₂)
    · rcases hop h₂ with ⟨rfl, rfl⟩ | ⟨-, k₂⟩
      · exact absurd k₁ (hd.2 t₁ q₁)
      · exact h.single k₁ k₂
  case admissible => exact h.admissible
  case settled => exact h.settled
  case pending => exact fun ht' => h.pending (hheld ht')
  case result => exact fun ht' => h.result (hheld ht')
  case returned => exact h.returned

/-- The state after a thread took the flag of its operation. -/
def State.acquire (s : State τ κ ν) (t : τ) (op : QueueOp κ ν) : State τ κ ν :=
  { s with
    flag := Function.update s.flag op.queue true
    pc := Function.update s.pc t (entry op)
    acquired := s.acquired ++ [op]
    ticket := Function.update s.ticket t s.acquired.length }

theorem sequential_acquire : (s.acquire t op).sequential = (fifoOp s.sequential op).2 := by
  simp only [State.sequential, State.acquire, fifoOps_concat]

theorem results_acquire :
    (s.acquire t op).results = s.results ++ [(fifoOp s.sequential op).1] := by
  simp only [State.results, State.sequential, State.acquire, fifoOps_concat]

/-- The operation that takes its flag is the next one of the sequential order. -/
theorem Inv.acquire (h : Inv s) (hpc : s.pc t = .acquire op)
    (hfree : s.flag op.queue = false) : Inv (s.acquire t op) := by
  have hop : (s.pc t).op = some op := by rw [hpc]; rfl
  have hself : ((s.acquire t op).pc t).held = some op := by
    simp only [State.acquire, Function.update_self, held_entry]
  have hpcne : ∀ {t'}, t' ≠ t → (s.acquire t op).pc t' = s.pc t' :=
    fun htt => Function.update_of_ne htt _ _
  -- the flag was clear, so the other holders are at other queues
  have hheld : ∀ {t' op'}, ((s.acquire t op).pc t').held = some op' →
      (t' = t ∧ op' = op) ∨
        (t' ≠ t ∧ (s.pc t').held = some op' ∧ op'.queue ≠ op.queue) := by
    intro t' op' ht'
    by_cases htt : t' = t
    · subst htt
      exact Or.inl ⟨rfl, (Option.some.inj (hself.symm.trans ht')).symm⟩
    · rw [hpcne htt] at ht'
      refine Or.inr ⟨htt, ht', fun hqq => ?_⟩
      rw [← hqq, h.flag ht'] at hfree
      cases hfree
  have hopsame : ∀ {t' op'}, ((s.acquire t op).pc t').op = some op' → (s.pc t').op = some op' := by
    intro t' op' ht'
    by_cases htt : t' = t
    · subst htt
      rw [← ht', hop, ← Pc.op_of_held hself]
    · rwa [hpcne htt] at ht'
  have hrepr := h.free hfree
  have hflagne : ∀ {q}, q ≠ op.queue → (s.acquire t op).flag q = s.flag q :=
    fun hq => Function.update_of_ne hq _ _
  constructor
  case separate => exact h.separate
  case free =>
    intro q hq
    by_cases hqq : q = op.queue
    · rw [hqq] at hq
      simp [State.acquire] at hq
    · exact h.free ((hflagne hqq).symm.trans hq)
  case flag =>
    intro t' op' ht'
    rcases hheld ht' with ⟨-, rfl⟩ | ⟨-, ht', hqq⟩
    · exact Function.update_self _ _ _
    · rw [hflagne hqq]
      exact h.flag ht'
  case exclusive =>
    intro t₁ t₂ op₁ op₂ h₁ h₂ hqq
    rcases hheld h₁ with ⟨rfl, rfl⟩ | ⟨-, k₁, hq₁⟩
    · rcases hheld h₂ with ⟨rfl, -⟩ | ⟨-, -, hq₂⟩
      · rfl
      · exact absurd hqq.symm hq₂
    · rcases hheld h₂ with ⟨rfl, rfl⟩ | ⟨-, k₂, -⟩
      · exact absurd hqq hq₁
      · exact h.exclusive k₁ k₂ hqq
  case holder =>
    intro q hq
    by_cases hqq : q = op.queue
    · exact ⟨t, op, hself, hqq.symm⟩
    · obtain ⟨t', op', ht', rfl⟩ := h.holder ((hflagne hqq).symm.trans hq)
      have htt : t' ≠ t := by
        rintro rfl
        rw [hpc] at ht'
        cases ht'
      exact ⟨t', op', by rw [hpcne htt]; exact ht', rfl⟩
  case inside =>
    intro t'
    by_cases htt : t' = t
    · subst htt
      simp only [State.acquire, Function.update_self]
      cases op with
      | push q work => exact hrepr
      | pop q => exact hrepr
      | clear q => exact hrepr
      | size q => exact hrepr
    · rw [hpcne htt]
      exact h.inside t'
  case outside => exact fun ht' => h.outside (hopsame ht')
  case single => exact fun h₁ h₂ => h.single (hopsame h₁) (hopsame h₂)
  case admissible =>
    -- the pushed node is in no list: no finished operation left it, and nobody else pushes it
    refine h.admissible.concat _ ?_
    cases op with
    | push q work =>
        intro q' hw
        rcases h.mem_sequential hw with hw | ⟨t', q'', ht'⟩
        · exact h.outside hop q' hw
        · obtain rfl := h.single (Pc.op_of_held ht') hop
          rw [hpc] at ht'
          cases ht'
    | pop q => trivial
    | clear q => trivial
    | size q => trivial
  case settled =>
    intro q hq
    by_cases hqq : q = op.queue
    · rw [hqq] at hq
      simp [State.acquire] at hq
    · rw [sequential_acquire, fifoOp_frame hqq]
      exact h.settled ((hflagne hqq).symm.trans hq)
  case pending =>
    intro t' op' ht'
    rw [sequential_acquire]
    rcases hheld ht' with ⟨-, rfl⟩ | ⟨-, ht', hqq⟩
    · exact (fifoOp_congr (h.settled hfree)).2
    · rw [fifoOp_frame hqq]
      exact h.pending ht'
  case result =>
    intro t' op' ht'
    rw [results_acquire]
    rcases hheld ht' with ⟨rfl, rfl⟩ | ⟨htt, ht', -⟩
    · have hlen : s.results.length = s.acquired.length := fifoOps_length _ _
      simp only [State.acquire, Function.update_self]
      rw [← hlen, List.getElem?_concat_length, (fifoOp_congr (h.settled hfree)).1]
    · have hres := h.result ht'
      simp only [State.acquire, Function.update_of_ne htt]
      rw [List.getElem?_append_left (List.getElem?_eq_some_iff.mp hres).1]
      exact hres
  case returned =>
    intro k r hk
    have hres := h.returned hk
    rw [results_acquire, List.map_append,
      List.getElem?_append_left (List.getElem?_eq_some_iff.mp hres).1]
    exact hres

/-- The state after a thread cleared the flag of its operation. -/
def State.release (s : State τ κ ν) (t : τ) (op : QueueOp κ ν) (result : QueueResult ν) :
    State τ κ ν :=
  { s with
    flag := Function.update s.flag op.queue false
    pc := Function.update s.pc t .idle
    returned := (s.ticket t, result) :: s.returned
    content := (fifoOp s.content op).2 }

/-- An operation that clears its flag has done what it does on lists. -/
theorem Inv.release {res : QueueResult ν} (h : Inv s)
    (hpc : s.pc t = .release op res) : Inv (s.release t op res) := by
  have hself : (s.pc t).held = some op := by rw [hpc]; rfl
  -- the assertion at the last control point is what the operation does on lists
  have hins : Inside s.store s.content (.release op res) := hpc ▸ h.inside t
  have hpcne : ∀ {t'}, t' ≠ t → (s.release t op res).pc t' = s.pc t' :=
    fun htt => Function.update_of_ne htt _ _
  have hflagne : ∀ {q}, q ≠ op.queue → (s.release t op res).flag q = s.flag q :=
    fun hq => Function.update_of_ne hq _ _
  have hop : ∀ {t' op'}, ((s.release t op res).pc t').op = some op' →
      t' ≠ t ∧ (s.pc t').op = some op' := by
    intro t' op' ht'
    by_cases htt : t' = t
    · subst htt
      simp only [State.release, Function.update_self] at ht'
      cases ht'
    · exact ⟨htt, by rwa [hpcne htt] at ht'⟩
  have hheld : ∀ {t' op'}, ((s.release t op res).pc t').held = some op' →
      t' ≠ t ∧ (s.pc t').held = some op' ∧ op'.queue ≠ op.queue := by
    intro t' op' ht'
    obtain ⟨htt, -⟩ := hop (Pc.op_of_held ht')
    rw [hpcne htt] at ht'
    exact ⟨htt, ht', fun hqq => htt (h.exclusive ht' hself hqq)⟩
  have hallowed : op.Allowed s.content := by
    cases op with
    | push q work => exact h.outside (Pc.op_of_held hself)
    | pop q => trivial
    | clear q => trivial
    | size q => trivial
  constructor
  case separate => exact h.separate.fifoOp hallowed
  case free =>
    intro q hq
    by_cases hqq : q = op.queue
    · rw [hqq]
      exact hins.1
    · have hrepr := h.free ((hflagne hqq).symm.trans hq)
      simp only [State.release, fifoOp_frame hqq]
      exact hrepr
  case flag =>
    intro t' op' ht'
    obtain ⟨-, ht', hqq⟩ := hheld ht'
    rw [hflagne hqq]
    exact h.flag ht'
  case exclusive =>
    intro t₁ t₂ op₁ op₂ h₁ h₂
    exact h.exclusive (hheld h₁).2.1 (hheld h₂).2.1
  case holder =>
    intro q hq
    by_cases hqq : q = op.queue
    · rw [hqq] at hq
      simp [State.release] at hq
    · obtain ⟨t', op', ht', rfl⟩ := h.holder ((hflagne hqq).symm.trans hq)
      have htt : t' ≠ t := by
        rintro rfl
        exact hqq (congrArg QueueOp.queue (Option.some.inj (ht'.symm.trans hself)))
      exact ⟨t', op', by rw [hpcne htt]; exact ht', rfl⟩
  case inside =>
    intro t'
    cases hh : ((s.release t op res).pc t').held with
    | none => exact inside_of_not_held hh
    | some op' =>
        obtain ⟨htt, ht', hqq⟩ := hheld hh
        rw [hpcne htt]
        exact (h.inside t').frame ht' rfl (fun _ _ => rfl) (fifoOp_frame hqq)
  case outside =>
    intro t' q work ht' q' hw
    obtain ⟨htt, hop'⟩ := hop ht'
    rcases mem_fifoOp hw with hw | hw
    · exact h.outside hop' q' hw
    · obtain ⟨q'', rfl⟩ := mem_nodes hw
      exact htt (h.single hop' (Pc.op_of_held hself))
  case single => exact fun h₁ h₂ => h.single (hop h₁).2 (hop h₂).2
  case admissible => exact h.admissible
  case settled =>
    intro q hq
    by_cases hqq : q = op.queue
    · rw [hqq]
      exact h.pending hself
    · simp only [State.release, fifoOp_frame hqq]
      exact h.settled ((hflagne hqq).symm.trans hq)
  case pending =>
    intro t' op' ht'
    obtain ⟨-, ht', hqq⟩ := hheld ht'
    exact (h.pending ht').trans (fifoOp_congr (fifoOp_frame hqq)).2.symm
  case result =>
    intro t' op' ht'
    obtain ⟨-, ht', hqq⟩ := hheld ht'
    exact (h.result ht').trans (congrArg some (fifoOp_congr (fifoOp_frame hqq)).1.symm)
  case returned =>
    intro k r hk
    rcases List.mem_cons.mp hk with hk | hk
    · obtain ⟨rfl, rfl⟩ := Prod.mk.inj hk
      have hres : (s.results.map QueueResult.wrap)[s.ticket t]? = some r := by
        rw [List.getElem?_map, h.result hself, hins.2]
        rfl
      exact hres
    · exact h.returned hk

variable [DecidableEq ν]

/-- A statement between taking and clearing the flag. -/
theorem Inv.statement {st : Store κ ν} {pc' : Pc κ ν} (h : Inv s)
    (hs : statement s.store (s.pc t) = some (st, pc')) :
    Inv { s with store := st, pc := Function.update s.pc t pc' } := by
  obtain ⟨op, hself, hself', hqueue, hnext⟩ := statement_frame hs (h.inside t)
  -- the thread is in the same operation before and after
  have hheld : ∀ {t' op'}, (Function.update s.pc t pc' t').held = some op' →
      (s.pc t').held = some op' := by
    intro t' op' ht'
    by_cases htt : t' = t
    · subst htt
      rw [Function.update_self, hself'] at ht'
      rw [hself, ht']
    · rwa [Function.update_of_ne htt] at ht'
  have hop : ∀ {t' op'}, (Function.update s.pc t pc' t').op = some op' →
      (s.pc t').op = some op' := by
    intro t' op' ht'
    by_cases htt : t' = t
    · subst htt
      rw [Function.update_self, Pc.op_of_held hself'] at ht'
      rw [Pc.op_of_held hself, ht']
    · rwa [Function.update_of_ne htt] at ht'
  -- the nodes of other queues and of other pushes are not the operation's own
  have hother : ∀ {q b}, q ≠ op.queue → b ∈ s.content q → ¬ Owned s.content op b := by
    rintro q b hq hb (hown | hown)
    · exact hq (h.separate.disjoint hb hown)
    · obtain ⟨q', rfl⟩ := mem_nodes hown
      exact h.outside (Pc.op_of_held hself) q hb
  constructor
  case separate => exact h.separate
  case free =>
    intro q hq
    have hqq : q ≠ op.queue := by
      rintro rfl
      rw [h.flag hself] at hq
      cases hq
    exact (h.free hq).frame (hqueue q hqq) (fun b hb => hnext b (hother hqq hb))
  case flag => exact fun ht' => h.flag (hheld ht')
  case exclusive => exact fun h₁ h₂ => h.exclusive (hheld h₁) (hheld h₂)
  case holder =>
    intro q hq
    obtain ⟨t', op', ht', rfl⟩ := h.holder hq
    refine ⟨t', op', ?_, rfl⟩
    by_cases htt : t' = t
    · subst htt
      rw [← ht', hself]
      simp only [Function.update_self, hself']
    · simpa only [Function.update_of_ne htt] using ht'
  case inside =>
    intro t'
    by_cases htt : t' = t
    · subst htt
      simp only [Function.update_self]
      exact inside_statement (h.inside t') h.separate.nodup
        (fun q work hpush => h.outside hpush q) hs
    · simp only [Function.update_of_ne htt]
      cases hh : (s.pc t').held with
      | none => exact inside_of_not_held hh
      | some op' =>
          have hqq : op'.queue ≠ op.queue := fun hqq => htt (h.exclusive hh hself hqq)
          refine (h.inside t').frame hh (hqueue _ hqq) (fun b hb => hnext b ?_) rfl
          rcases hb with hb | hb
          · exact hother hqq hb
          · obtain ⟨q', rfl⟩ := mem_nodes hb
            rintro (hown | hown)
            · exact h.outside (Pc.op_of_held hh) _ hown
            · obtain ⟨q'', rfl⟩ := mem_nodes hown
              exact htt (h.single (Pc.op_of_held hh) (Pc.op_of_held hself))
  case outside => exact fun ht' => h.outside (hop ht')
  case single => exact fun h₁ h₂ => h.single (hop h₁) (hop h₂)
  case admissible => exact h.admissible
  case settled => exact h.settled
  case pending => exact fun ht' => h.pending (hheld ht')
  case result => exact fun ht' => h.result (hheld ht')
  case returned => exact h.returned

/-- **Every disciplined step keeps the invariant.** -/
theorem Inv.step {a : Action τ κ ν} (h : Inv s) (hd : Disciplined s a)
    (hs : Lock.step s a = some s') : Inv s' := by
  cases a with
  | call t op =>
      cases hpc : s.pc t with
      | idle =>
          simp only [Lock.step, hpc, Option.some.injEq] at hs
          exact hs ▸ h.call hpc hd
      | _ => simp only [Lock.step, hpc, reduceCtorEq] at hs
  | run t =>
      cases hpc : s.pc t with
      | idle => simp only [Lock.step, hpc, reduceCtorEq] at hs
      | acquire op =>
          simp only [Lock.step, hpc] at hs
          cases hf : s.flag op.queue with
          | true =>
              rw [hf, if_pos rfl] at hs
              exact Option.some.inj hs ▸ h
          | false =>
              rw [hf, if_neg Bool.false_ne_true] at hs
              exact Option.some.inj hs ▸ h.acquire hpc hf
      | release op result =>
          simp only [Lock.step, hpc, Option.some.injEq] at hs
          exact hs ▸ h.release hpc
      | _ =>
          simp only [Lock.step, hpc] at hs
          obtain ⟨⟨st, pc'⟩, hstmt, rfl⟩ := Option.map_eq_some_iff.mp hs
          exact h.statement (by rw [hpc]; exact hstmt)

/-- **The locked operations are linearizable.** In every state that disciplined callers can
reach, with any number of threads and queues: every finished operation returned what it
returns when the operations run one after the other in the order in which they took their
flags; a queue whose flag is clear is the queue of that run, with the same nodes in the same
order; between two pops that return one node it was pushed again; and a pushed node is still
in its queue unless a later pop returned it or a later clear dropped it. -/
theorem linearizable (cls : κ → QueueClass) (next : ν → Option ν)
    {tr : List (State τ κ ν × Action τ κ ν)} (hrun : Run Lock.step (init next) tr s)
    (hd : ∀ p ∈ tr, Disciplined p.1 p.2) :
    (∀ k r, (k, r) ∈ s.returned →
      (runOps cls (Store.empty next) s.acquired).1[k]? = some r) ∧
    (∀ q, s.flag q = false →
      s.store.queue q = (runOps cls (Store.empty next) s.acquired).2.queue q ∧
      Chain s.store.next (s.store.queue q).head (s.sequential q) ∧
      Chain (runOps cls (Store.empty next) s.acquired).2.next (s.store.queue q).head
        (s.sequential q)) ∧
    (∀ a q q' h₁ h₂ h₃, history (fun _ => []) s.acquired =
        h₁ ++ (.pop q, .popped (some a)) :: h₂ ++ (.pop q', .popped (some a)) :: h₃ →
      ∃ q'', (.push q'' a, .pushed) ∈ h₂) ∧
    (∀ a q h₁ h₂, history (fun _ => []) s.acquired = h₁ ++ (.push q a, .pushed) :: h₂ →
      a ∈ s.sequential q ∨ (.pop q, .popped (some a)) ∈ h₂ ∨
        ∃ n, (.clear q, .cleared n) ∈ h₂) := by
  have hinv : Inv s := hrun.invariant (init_inv next) (fun h hd hs => h.step hd hs) hd
  obtain ⟨hres, hst⟩ := runOps_refines cls s.acquired (Store.empty_holds next) hinv.admissible
  have hsep : Separate (fun _ : κ => ([] : List ν)) :=
    ⟨fun _ => List.nodup_nil, fun h => absurd h List.not_mem_nil⟩
  refine ⟨fun k r hk => ?_, fun q hq => ?_, fun a q q' h₁ h₂ h₃ hh => ?_,
    fun a q h₁ h₂ hh => ?_⟩
  · rw [hres]
    exact hinv.returned hk
  · obtain ⟨hrepr, hcount⟩ := hinv.free hq
    rw [← hinv.settled hq] at hrepr hcount
    have hrepr' := hst.repr q
    have hhead : (s.store.queue q).head
        = ((runOps cls (Store.empty next) s.acquired).2.queue q).head := by
      rw [hrepr.head_eq, hrepr'.head_eq]
      rfl
    have htail : (s.store.queue q).tail
        = ((runOps cls (Store.empty next) s.acquired).2.queue q).tail := by
      rw [hrepr.tail_eq, hrepr'.tail_eq]
      rfl
    have hnum : (s.store.queue q).numEntries
        = ((runOps cls (Store.empty next) s.acquired).2.queue q).numEntries := by
      rw [hcount, hst.count q]
      rfl
    refine ⟨?_, hrepr.chain, hhead ▸ hrepr'.chain⟩
    -- the two queue objects agree in all their members
    cases hx : s.store.queue q
    cases hy : (runOps cls (Store.empty next) s.acquired).2.queue q
    simp only [hx, hy] at hhead htail hnum
    rw [hhead, htail, hnum]
  · exact pushed_between_pops s.acquired _ h₁ h₂ h₃ hsep hinv.admissible hh
  · exact kept_of_pushed s.acquired _ h₁ h₂ hh

instance [Fintype τ] [Fintype κ] (s : State τ κ ν) :
    ∀ a : Action τ κ ν, Decidable (Disciplined s a)
  | .call _ (.push _ work) =>
      inferInstanceAs (Decidable ((∀ q', work ∉ s.content q') ∧
        ∀ t' q', (s.pc t').op ≠ some (.push q' work)))
  | .call _ (.pop _) => .isTrue trivial
  | .call _ (.clear _) => .isTrue trivial
  | .call _ (.size _) => .isTrue trivial
  | .run _ => .isTrue trivial

/-- A pop waits for the flag while a push of another thread is half done, and returns the
pushed node. -/
theorem linearizable_waiting : ∃ s : State (Fin 2) (Fin 1) Nat,
    (1, .popped (some 7)) ∈ s.returned ∧
      (runOps (fun _ => .taskQueue) (Store.empty fun _ => some 3) s.acquired).1[1]?
        = some (.popped (some 7)) := by
  have hexec : (exec Lock.step Disciplined
      (init fun _ => some 3 : State (Fin 2) (Fin 1) Nat)
      ([.call 0 (.push 0 7), .run 0, .call 1 (.pop 0), .run 0, .run 1, .run 0, .run 0, .run 1]
        ++ List.replicate 5 (.run 0) ++ List.replicate 9 (.run 1))).any
      (fun s => decide ((1, QueueResult.popped (some 7)) ∈ s.returned)) = true := by
    decide
  obtain ⟨tr, s, hrun, -, hd, hs⟩ := exists_run_of_exec hexec
  have hret := of_decide_eq_true hs
  exact ⟨s, hret, (linearizable (fun _ => .taskQueue) _ hrun hd).1 1 _ hret⟩

end

end Bop.Lock
