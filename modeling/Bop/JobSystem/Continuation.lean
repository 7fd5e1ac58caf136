import Bop.JobSystem.Ownership

set_option autoImplicit false

/-! # Continuations

`Job::then` constructs a job and writes it to `m_Continuation` of the job it is called on, which
was published before. A worker reads `m_Continuation` once, after the work of the job, and runs
what it finds there next. So the write has to come before the read, into the storage of the same
job, and there must not be another continuation already.

As long as every write is in time (`State.InTime`), each attached work is executed once, after
the work it is attached to and because of it, and none is lost (`continuations_follow`).
-/

namespace Bop.JobSystem

/-! ## What is attached -/

section Followed

variable {n : Nat} {P : Policy}
variable {L L' L₁ : Ledger} {a b : Addr} {p d : Place} {e : Event} {w of : Work}

/-- The work is not attached to any other. -/
def Ledger.Loose (L : Ledger) (w : Work) : Prop := ∀ of, .attached of w ∉ L.log

/-- If the work is attached, then to the one in `via`, which is finished. -/
def Ledger.Due (L : Ledger) (w : Work) (via : Option Work) : Prop :=
  ∀ of, .attached of w ∈ L.log → via = some of ∧ .finished of ∈ L.log

/-- What a place says about the work of the job in it. -/
def Place.Follows (L : Ledger) (w : Work) : Place → Prop
  | .queue q => q.isBin = false → L.Loose w
  | .call _ _ => L.Loose w
  | .run _ k via => k = .started → L.Due w via
  | .next _ via => L.Due w via
  | .cont b => ∀ of, .attached of w ∈ L.log → of = (L.jobs b).work

/-- **Attached works follow their predecessors.** -/
structure Ledger.Followed (L : Ledger) : Prop where
  place : ∀ {a p}, L.place a = some p → p.Follows L (L.jobs a).work
  started : ∀ {of w i v}, .attached of w ∈ L.log → .started w i v ∈ L.log →
    v = some of ∧ .finished of ∈ L.log
  bound : ∀ {of w}, .attached of w ∈ L.log → 0 < w ∧ w < L.nextWork
  older : ∀ {a b}, L.place a = some (.cont b) → (L.jobs b).work < (L.jobs a).work
  target : ∀ {a t b of}, L.place a = some (.call t (.attach b of a)) → of < (L.jobs a).work

/-- Events that attach no work and start none. -/
def Event.neutral : Event → Bool
  | .attached _ _ | .started _ _ _ => false
  | _ => true

theorem mem_attached_append {es : List Event} (hl : L'.log = es ++ L.log)
    (hes : ∀ e ∈ es, e.neutral = true) : .attached of w ∈ L'.log ↔ .attached of w ∈ L.log := by
  rw [hl, List.mem_append]
  exact or_iff_right fun he => by cases hes _ he

theorem mem_started_append {es : List Event} {i : Nat} {v : Option Work}
    (hl : L'.log = es ++ L.log) (hes : ∀ e ∈ es, e.neutral = true) :
    .started w i v ∈ L'.log ↔ .started w i v ∈ L.log := by
  rw [hl, List.mem_append]
  exact or_iff_right fun he => by cases hes _ he

theorem Ledger.Due.mono {via : Option Work} (h : L.Due w via)
    (hatt : ∀ of, .attached of w ∈ L'.log → .attached of w ∈ L.log)
    (hlog : ∀ e ∈ L.log, e ∈ L'.log) : L'.Due w via := by
  intro of hof
  obtain ⟨hv, hf⟩ := h of (hatt of hof)
  exact ⟨hv, hlog _ hf⟩

/-- A job that stays in its place while nothing is attached to it. -/
theorem Place.Follows.mono (h : p.Follows L w)
    (hatt : ∀ of, .attached of w ∈ L'.log → .attached of w ∈ L.log)
    (hlog : ∀ e ∈ L.log, e ∈ L'.log)
    (hwork : ∀ b, p = .cont b → (L'.jobs b).work = (L.jobs b).work) : p.Follows L' w := by
  cases p with
  | queue q => exact fun hq of hof => h hq of (hatt of hof)
  | call t c => exact fun of hof => h of (hatt of hof)
  | run i k via => exact fun hk => Ledger.Due.mono (h hk) hatt hlog
  | next i via => exact Ledger.Due.mono h hatt hlog
  | cont b =>
      intro of hof
      rw [hwork b rfl]
      exact h of (hatt of hof)

/-- Steps that attach no work and start none: each job stays in its place, or goes to one that
asks for no more. -/
theorem Ledger.Followed.keep (h : L.Followed) (es : List Event) (hl : L'.log = es ++ L.log)
    (hes : ∀ e ∈ es, e.neutral = true) (hwork : ∀ x, (L'.jobs x).work = (L.jobs x).work)
    (hnext : L'.nextWork = L.nextWork)
    (hplace : ∀ x p', L'.place x = some p' → L.place x = some p' ∨
      ((∀ b, p' ≠ .cont b) ∧ (∀ t b of, p' ≠ .call t (.attach b of x)) ∧
        p'.Follows L (L.jobs x).work)) : L'.Followed := by
  have hatt : ∀ {of w}, .attached of w ∈ L'.log → .attached of w ∈ L.log :=
    fun hof => (mem_attached_append hl hes).mp hof
  have hlog : ∀ e ∈ L.log, e ∈ L'.log := fun e he => hl ▸ List.mem_append_right es he
  constructor
  case place =>
    intro x p' hx
    rw [hwork]
    refine Place.Follows.mono (L := L) ?_ (fun of => hatt) hlog (fun b _ => hwork b)
    rcases hplace x p' hx with hx | ⟨-, -, hf⟩
    · exact h.place hx
    · exact hf
  case started =>
    intro of w i v hof hst
    obtain ⟨hv, hf⟩ := h.started (hatt hof) ((mem_started_append hl hes).mp hst)
    exact ⟨hv, hlog _ hf⟩
  case bound =>
    intro of w hof
    rw [hnext]
    exact h.bound (hatt hof)
  case older =>
    intro x b hx
    rw [hwork, hwork]
    rcases hplace x _ hx with hx | ⟨hc, -, -⟩
    · exact h.older hx
    · exact absurd rfl (hc b)
  case target =>
    intro x t b of hx
    rw [hwork]
    rcases hplace x _ hx with hx | ⟨-, hc, -⟩
    · exact h.target hx
    · exact absurd rfl (hc t b of)

/-- One job goes to a place that asks for no more. -/
theorem Ledger.Followed.put (h : L.Followed) (hc : ∀ b, d ≠ .cont b)
    (ht : ∀ t b of, d ≠ .call t (.attach b of a)) (hd : d.Follows L (L.jobs a).work) :
    (L.put a d).Followed := by
  refine h.keep [] rfl (by simp) (fun _ => rfl) rfl (fun x p' hx => ?_)
  by_cases hxa : x = a
  · subst hxa
    rw [put_place_self] at hx
    obtain rfl := Option.some.inj hx
    exact Or.inr ⟨hc, ht, hd⟩
  · rw [put_place_of_ne hxa] at hx
    exact Or.inl hx

/-- The job in `a` is at a worker that has started it, -/
theorem Ledger.Followed.putRun {i : Nat} {k : Stage} {via : Option Work} (h : L.Followed)
    (hk : k ≠ .started) :
    (L.put a (.run i k via)).Followed :=
  h.put (by simp) (by simp) (fun hbegan => absurd hbegan hk)

/-- or in a bin. -/
theorem Ledger.Followed.putBin {q : QueueId} (h : L.Followed) (hq : q.isBin = true) :
    (L.put a (.queue q)).Followed := by
  refine h.put (by simp) (by simp) (fun hb => ?_)
  rw [hq] at hb
  cases hb

theorem Ledger.Followed.record (h : L.Followed) (he : e.neutral = true) : (L.record e).Followed :=
  h.keep [e] rfl (by simpa using he) (fun _ => rfl) rfl (fun _ _ hx => Or.inl hx)

/-- A new job is not attached yet. -/
theorem Ledger.Followed.construct {t : Tid} {c : Call} {o : Origin} (h : L.Followed)
    (ho : L.InOrder) (hb : L.Before a L₁) (hc : c.Begins P L t a o) :
    (L₁.construct a (.call t c) o).Followed := by
  have hbase : L₁.place = L.place ∧ L₁.jobs = L.jobs ∧ L₁.nextWork = L.nextWork ∧
      ∃ es, L₁.log = es ++ L.log ∧ ∀ e ∈ es, e.neutral = true := by
    rcases hb with ⟨-, rfl⟩ | ⟨-, rfl⟩
    · exact ⟨rfl, rfl, rfl, [], rfl, by simp⟩
    · exact ⟨rfl, rfl, rfl, [_], rfl, by simp [Event.neutral]⟩
  obtain ⟨hplace, hjobs, hnext, es, hes, hneu⟩ := hbase
  have hl : (L₁.construct a (.call t c) o).log =
      (.constructed L₁.nextWork a (o.parent.map Prod.snd) o.threadIndex :: es) ++ L.log := by
    rw [List.cons_append, ← hes]
    rfl
  have hneu' : ∀ e ∈ Event.constructed L₁.nextWork a (o.parent.map Prod.snd) o.threadIndex :: es,
      e.neutral = true := by
    intro e he
    rcases List.mem_cons.mp he with rfl | he
    · rfl
    · exact hneu e he
  -- the last job of this storage is not behind, and has none behind it
  have hopen : ¬ L.Open a := by
    rcases hb with ⟨⟨u, hu⟩, -⟩ | ⟨hu, -⟩
    · exact ho.valid.not_open hu (by simp)
    · exact fun ho => hu ho.1
  have hatt : ∀ {of w}, .attached of w ∈ (L₁.construct a (.call t c) o).log →
      .attached of w ∈ L.log := fun hof => (mem_attached_append hl hneu').mp hof
  have hlog : ∀ e ∈ L.log, e ∈ (L₁.construct a (.call t c) o).log :=
    fun e he => hl ▸ List.mem_append_right _ he
  have hself : ((L₁.construct a (.call t c) o).jobs a).work = L.nextWork := by
    simp [Ledger.construct, hnext]
  have hother : ∀ {x}, x ≠ a →
      ((L₁.construct a (.call t c) o).jobs x).work = (L.jobs x).work := by
    intro x hx
    simp [Ledger.construct, hjobs, hx]
  have hpl : ∀ {x r}, x ≠ a → (L₁.construct a (.call t c) o).place x = some r →
      L.place x = some r := by
    intro x r hx hr
    simpa [Ledger.construct, hplace, hx] using hr
  have hpself : (L₁.construct a (.call t c) o).place a = some (.call t c) :=
    Function.update_self ..
  have hcont : ∀ {x b}, x ≠ a → (L₁.construct a (.call t c) o).place x = some (.cont b) →
      b ≠ a := by
    rintro x b hx hr rfl
    exact hopen ((ho.chained x b).mp (hpl hx hr)).1
  constructor
  case place =>
    intro x r hx
    by_cases hxa : x = a
    · subst hxa
      rw [hpself] at hx
      obtain rfl := Option.some.inj hx
      intro of hof
      rw [hself] at hof
      exact absurd (h.bound (hatt hof)).2 (lt_irrefl _)
    · rw [hother hxa]
      refine (h.place (hpl hxa hx)).mono (fun of => hatt) hlog (fun b hb => ?_)
      exact hother (hcont hxa (hb ▸ hx))
  case started =>
    intro of w i v hof hst
    obtain ⟨hv, hf⟩ := h.started (hatt hof) ((mem_started_append hl hneu').mp hst)
    exact ⟨hv, hlog _ hf⟩
  case bound =>
    intro of w hof
    obtain ⟨hpos, hlt⟩ := h.bound (hatt hof)
    refine ⟨hpos, ?_⟩
    show w < L₁.nextWork + 1
    rw [hnext]
    exact Nat.lt_succ_of_lt hlt
  case older =>
    intro x b hx
    have hxa : x ≠ a := by
      rintro rfl
      rw [hpself] at hx
      cases hx
    rw [hother hxa, hother (hcont hxa hx)]
    exact h.older (hpl hxa hx)
  case target =>
    intro x u b of hx
    by_cases hxa : x = a
    · subst hxa
      rw [hpself] at hx
      obtain ⟨rfl, hcall⟩ := Place.call.inj (Option.some.inj hx)
      rw [hself]
      cases hc with
      | schedule => cases hcall
      | jobThen _ hlt =>
          cases hcall
          exact hlt
    · rw [hother hxa]
      exact h.target (hpl hxa hx)

/-- **A write in time**, to the job that the reference was returned for. -/
theorem Ledger.Followed.attach {t : Tid} (h : L.Followed) (ho : L.InOrder)
    (ha : L.place a = some (.call t (.attach b of a))) (hof : (L.jobs b).work = of) :
    (L.attach b of a).Followed := by
  have hwork : ∀ x, ((L.attach b of a).jobs x).work = (L.jobs x).work := Ledger.update_field Job.work rfl
  have hla : a ∈ L.live := ho.valid.live ha
  have hlog : ∀ e ∈ L.log, e ∈ (L.attach b of a).log := fun e he => List.mem_cons_of_mem _ he
  -- only the work of `a` is attached anew
  have hatt : ∀ {of' w}, .attached of' w ∈ (L.attach b of a).log →
      (of' = of ∧ w = (L.jobs a).work) ∨ .attached of' w ∈ L.log := by
    intro of' w hw
    rcases List.mem_cons.mp hw with hw | hw
    · cases hw
      exact Or.inl ⟨rfl, rfl⟩
    · exact Or.inr hw
  have hloose : L.Loose (L.jobs a).work := h.place ha
  constructor
  case place =>
    intro x r hx
    rw [hwork]
    rcases attach_place.mp hx with ⟨rfl, -, rfl⟩ | ⟨hxa, hx, -⟩
    · intro of' hof'
      rw [hwork]
      rcases hatt hof' with ⟨rfl, -⟩ | hold
      · exact hof.symm
      · exact absurd hold (hloose of')
    · refine (h.place hx).mono (fun of' hof' => ?_) hlog (fun c _ => hwork c)
      refine (hatt hof').resolve_left fun heq => ?_
      exact hxa (ho.valid.work_inj (ho.valid.live hx) hla heq.2)
  case started =>
    intro of' w i v hof' hst
    have hst' : .started w i v ∈ L.log := (List.mem_cons.mp hst).resolve_left (by simp)
    rcases hatt hof' with ⟨-, rfl⟩ | hold
    · have hbegan := (ho.valid.mem_trail_iff ha).mp (started_iff.mpr ⟨i, v, hst'⟩)
      exact absurd hbegan (Nat.not_lt_zero _)
    · obtain ⟨hv, hf⟩ := h.started hold hst'
      exact ⟨hv, hlog _ hf⟩
  case bound =>
    intro of' w hof'
    rcases hatt hof' with ⟨-, rfl⟩ | hold
    · exact ⟨ho.valid.work_pos hla, ho.valid.work_lt hla⟩
    · exact h.bound hold
  case older =>
    intro x c hx
    rw [hwork, hwork]
    rcases attach_place.mp hx with ⟨rfl, -, hcb⟩ | ⟨-, hx, -⟩
    · rw [Place.cont.inj hcb, hof]
      exact h.target ha
    · exact h.older hx
  case target =>
    intro x u c of' hx
    rw [hwork]
    rcases attach_place.mp hx with ⟨-, -, hcb⟩ | ⟨-, hx, -⟩
    · cases hcb
    · exact h.target hx

/-- A job starts to run, from a queue or as the continuation that is due. -/
theorem Ledger.Followed.start {i : Nat} {via : Option Work} (h : L.Followed)
    (ha : L.place a = some (.run i .started via)) :
    ((L.put a (.run i .finished via)).record (.started (L.jobs a).work i via)).Followed := by
  have hdue : L.Due (L.jobs a).work via := h.place ha rfl
  have hput : (L.put a (.run i .finished via)).Followed :=
    h.putRun (by simp)
  have hatt : ∀ {of w}, .attached of w ∈ .started (L.jobs a).work i via :: L.log →
      .attached of w ∈ L.log := fun hof => (List.mem_cons.mp hof).resolve_left (by simp)
  refine ⟨fun {x r} hx => ?_, fun {of w j v} hof hst => ?_, fun hof => hput.bound (hatt hof),
    hput.older, hput.target⟩
  · exact (hput.place hx).mono (fun _ => hatt) (fun _ he => List.mem_cons_of_mem _ he)
      (fun _ _ => rfl)
  · rcases List.mem_cons.mp hst with hst | hst
    · cases hst
      obtain ⟨hv, hf⟩ := hdue of (hatt hof)
      exact ⟨hv, List.mem_cons_of_mem _ hf⟩
    · obtain ⟨hv, hf⟩ := h.started (hatt hof) hst
      exact ⟨hv, List.mem_cons_of_mem _ hf⟩

/-- **Every move keeps it**, as long as the continuations are written in time. -/
theorem Move.followed (hm : Move n P L L') (ho : L.InOrder) (h : L.Followed)
    (hatt : ∀ {b of a}, P.attaches b of a → (L.jobs b).work = of) : L'.Followed := by
  cases hm with
  | @construct a t c o ha hc => exact h.construct ho (Or.inl ⟨⟨t, ha⟩, rfl⟩) hc
  | allocate ha hc => exact h.construct ho (Or.inr ⟨ha, rfl⟩) hc
  | @route a t c ha hc =>
      have hloose : L.Loose (L.jobs a).work := h.place ha
      refine h.put (by simp) (fun u b of hcall => ?_) hloose
      rcases hc with ⟨rfl, -⟩ | ⟨rfl, -⟩ <;> cases hcall
  | @balance a t ha =>
      have hloose : L.Loose (L.jobs a).work := h.place ha
      have hput : (L.put a (.call t (.pushGlobal a))).Followed :=
        h.put (by simp) (by simp) hloose
      exact hput.keep [] rfl (by simp) (fun _ => rfl) rfl (fun _ _ hx => Or.inl hx)
  | @push a t c q ha hq =>
      have hloose : L.Loose (L.jobs a).work := h.place ha
      have hput : (L.put a (.queue q)).Followed := h.put (by simp) (by simp) (fun _ => hloose)
      exact hput.record rfl
  | attach ha hab => exact h.attach ho ha (hatt hab)
  | @pop a i q ha hq =>
      have hbin : q.isBin = false := by
        rcases hq with rfl | ⟨j, rfl⟩ <;> rfl
      have hloose : L.Loose (L.jobs a).work := h.place ha hbin
      exact h.put (by simp) (by simp) (fun _ of hof => absurd hof (hloose of))
  | @advance a i k via e ha he =>
      rcases he with ⟨rfl, rfl⟩ | ⟨rfl, rfl⟩ | ⟨rfl, rfl⟩
      · exact h.start ha
      · exact (h.putRun (by simp [Stage.next])).record rfl
      · exact (h.putRun (by simp [Stage.next])).record rfl
  | @readContinuation a i via ha _ =>
      have hput : ((L.put a (.run i .countedOff (some (L.jobs a).work))).record
          (.continuationRead (L.jobs a).work)).Followed :=
        (h.putRun (by simp)).record rfl
      cases hc : (L.jobs a).continuation with
      | none => exact hput
      | some c =>
          -- what is behind `a` is attached to its work, which is finished
          have hca : L.place c = some (.cont a) := ho.behind ha hc
          have hfin : .finished (L.jobs a).work ∈ L.log :=
            finished_iff.mp ((ho.valid.mem_trail_iff ha).mpr (by simp))
          refine hput.put (by simp) (by simp) (fun of hof => ?_)
          have hof' : .attached of (L.jobs c).work ∈ L.log :=
            (List.mem_cons.mp hof).resolve_left (by simp)
          obtain rfl : of = (L.jobs a).work := h.place hca of hof'
          exact ⟨rfl, List.mem_cons_of_mem _ hfin⟩
  | @fetchSub a i via ha =>
      have hput : (L.put a (.run i .completed via)).Followed := h.putRun (by simp)
      exact hput.keep [_] rfl (by simp [Event.neutral]) (Ledger.update_field Job.work rfl) rfl
        (fun _ _ hx => Or.inl hx)
  | @recycle a i via q c ha hq hc =>
      have hbin : q.isBin = true := by rcases hq with rfl | rfl <;> rfl
      have hput : ((L.put a (.queue q)).record (.recycled (L.jobs a).work)).Followed :=
        (h.putBin hbin).record rfl
      cases c with
      | none => exact hput
      | some c =>
          have hdue : L.Due (L.jobs c).work via := h.place ((hc c).mp rfl)
          exact hput.put (by simp) (by simp) (fun _ => hdue.mono
            (fun of hof => (List.mem_cons.mp hof).resolve_left (by simp))
            (fun _ he => List.mem_cons_of_mem _ he))
  | collect =>
      exact h.keep [] rfl (by simp) (fun _ => rfl) rfl
        (fun _ _ hx => Or.inl (Ledger.drop_place.mp hx).1)
  | @note e he =>
      refine h.record ?_
      cases e <;> first | rfl | exact he.elim

theorem Ledger.Followed.free (h : L.Followed) : (L.free a).Followed :=
  h.keep [_] rfl (by simp [Event.neutral]) (fun _ => rfl) rfl
    (fun _ _ hx => Or.inl (free_place.mp hx).2.1)

theorem Ledger.Followed.clear {q : QueueId} (h : L.Followed) (he : e.Note L) :
    ((L.drop fun p => p = .queue q).record e).Followed := by
  have hneu : e.neutral = true := by cases e <;> first | rfl | exact he.elim
  exact h.keep [e] rfl (by simpa using hneu) (fun _ => rfl) rfl
    (fun _ _ hx => Or.inl (drop_place.mp hx).1)

end Followed

/-! ## Writes in time -/

/-- A continuation written to the storage `b` now becomes the one of `of`: the job of `of` is
still there, its `m_Continuation` was not read yet, and there is no other one. -/
def State.Awaits (s : State) (b : Addr) (of : Work) : Prop :=
  b ∈ s.live ∧ (s.jobs b).work = of ∧ .continuationRead of ∉ s.log ∧
    (s.jobs b).continuation = none

instance (s : State) (b : Addr) (of : Work) : Decidable (s.Awaits b of) :=
  inferInstanceAs (Decidable (_ ∧ _ ∧ _ ∧ _))

/-- If the next step of the call writes a continuation, then in time. -/
def Call.InTime (s : State) : Call → Prop
  | .attach b of _ => s.Awaits b of
  | .idle | .route _ | .balance _ | .pushGlobal _ | .pushLocal _ | .reread _ _ => True

instance (s : State) : DecidablePred (Call.InTime s)
  | .attach b of _ => inferInstanceAs (Decidable (s.Awaits b of))
  | .idle | .route _ | .balance _ | .pushGlobal _ | .pushLocal _ | .reread _ _ => .isTrue trivial

/-- If the action writes a continuation, then in time. -/
def State.InTime (s : State) : Action → Prop
  | .call t => (s.call t).InTime s
  | .schedule _ _ _ _ | .jobThen _ _ _ _ _ | .shutdown _ | .finish _ | .work _ => True

instance (s : State) : DecidablePred s.InTime
  | .call t => inferInstanceAs (Decidable ((s.call t).InTime s))
  | .schedule _ _ _ _ | .jobThen _ _ _ _ _ | .shutdown _ | .finish _ | .work _ => .isTrue trivial

/-- Nothing is left to do: the shutdown was not requested, the queues are empty, and no worker
has a job and no thread is in a call. -/
structure State.Quiescent (s : State) : Prop where
  shutdown : s.shutdown = false
  queues : ∀ q, q.isBin = false → ∀ a, ¬ s.store.Linked q a
  workers : ∀ i, (s.worker i).pc.current = none
  calls : ∀ t, s.call t = .idle

/-- **No continuation is lost, duplicated or misattached.** -/
structure State.ContinuationsFollow (s : State) : Prop where
  once : ∀ {of w}, .attached of w ∈ s.log → s.log.countP (Event.starts w) ≤ 1
  after : ∀ {of w i v}, .attached of w ∈ s.log → .started w i v ∈ s.log →
    v = some of ∧ .finished of ∈ s.log
  executed : s.Quiescent → ∀ {of w}, .attached of w ∈ s.log → .finished w ∈ s.log

section Runs

variable {s s' : State} {x : Action} {n : Nat} {tr : List (State × Action)}

theorem State.InTime.awaits {t : Tid} {b a : Addr} {of : Work} (h : s.InTime (.call t))
    (hc : s.call t = .attach b of a) : s.Awaits b of := by
  have h' : (s.call t).InTime s := h
  rwa [hc] at h'

/-- The invariant of the runs in which the continuations are written in time. -/
def Timely (s : State) : Prop :=
  (s.shutdown = false → ∀ i, (s.worker i).pc.left = false) ∧
    ∃ place, Views s place ∧ (s.ledger place).InOrder ∧ (s.ledger place).Followed ∧
      (s.shutdown = false → (s.ledger place).Kept)

theorem timely_init (n : Nat) : Timely (init n) := by
  refine ⟨fun _ _ => rfl, _, views_init n, inOrder_init n, ?_, fun _ w hpos hlt => ?_⟩
  · constructor <;> simp [State.ledger, init]
  · exact absurd hlt (Nat.not_lt.mpr (Nat.succ_le_of_lt hpos))

theorem Timely.step (h : Timely s) (hx : s.NoneToTell x) (ht : s.InTime x)
    (hs : step s x = some s') : Timely s' := by
  obtain ⟨hin, place, hv, ho, hf, hk⟩ := h
  have hP : Policy.Admits { Policy.any with attaches := fun b of _ => s.Awaits b of } s x :=
    ⟨fun _ => trivial, fun hxt hc => (hxt ▸ ht).awaits hc, fun _ _ _ => trivial⟩
  have hsim := step_simulated hv ho hx hP hs
  -- a worker that cleans up was told to
  have hclean : ∀ {i r}, ((s.worker i).pc = .drain r ∨ (s.worker i).pc = .drainClear r) →
      s'.shutdown ≠ false := by
    intro i r hpc hrun
    have hi := hin (not_left_step hs hrun hin).1 i
    rcases hpc with hpc | hpc
    · rw [hpc] at hi
      cases hi
    · rw [hpc] at hi
      cases hi
  refine ⟨fun hrun => (not_left_step hs hrun hin).2, ?_⟩
  cases hsim with
  | stutter hv' hl =>
      exact ⟨place, hv', hl ▸ ho, hl ▸ hf, fun hrun => hl ▸ hk (not_left_step hs hrun hin).1⟩
  | @move place' hv' hm =>
      refine ⟨place', hv', hm.inOrder ho, hm.followed ho hf fun hab => hab.2.1, fun hrun => ?_⟩
      refine hm.kept ho (hk (not_left_step hs hrun hin).1) fun hab => ?_
      obtain ⟨hl, rfl, hread, hnone⟩ := hab
      exact ⟨⟨hl, hread⟩, hnone⟩
  | free hv' _ hpc ha hl =>
      exact ⟨_, hv', hl ▸ ho.free ha, hl ▸ hf.free, fun hrun => (hclean (Or.inl hpc) hrun).elim⟩
  | clear hv' _ hpc he hl =>
      exact ⟨_, hv', hl ▸ ho.clear he, hl ▸ hf.clear he,
        fun hrun => (hclean (Or.inr hpc) hrun).elim⟩

theorem Pc.following_none {pc : Pc} (h : pc.current = none) : pc.following = none := by
  cases pc with
  | handOver a c => cases h
  | complete c d => cases c <;> cases h
  | _ => rfl

/-- **When all is done**, every job was recycled. A job behind another one is younger, so the
induction is on the work. -/
theorem Timely.recycled (h : Timely s) (hq : s.Quiescent) :
    ∀ w, 0 < w → w < s.nextWork → .recycled ∈ trail s.log w := by
  obtain ⟨-, place, hv, ho, hf, hk⟩ := h
  have hval := ho.valid
  intro w
  induction w using Nat.strong_induction_on with
  | _ w ih =>
      intro hpos hlt
      rcases hk hq.shutdown w hpos hlt with hrecycled | ⟨a, p, ha, rfl⟩
      · exact hrecycled
      cases p with
      | queue q =>
          by_cases hbin : q.isBin = true
          · exact (hval.mem_trail_iff ha).mpr (by simp [stage_bin hbin])
          · exact absurd ((hv.queue q a).mpr ha) (hq.queues q (Bool.not_eq_true _ ▸ hbin) a)
      | call t c =>
          obtain ⟨hc, hjob⟩ := (hv.call t c a).mpr ha
          rw [← hc, hq.calls t] at hjob
          cases hjob
      | run i k v =>
          obtain ⟨hcur, -⟩ := (hv.run i a k v).mpr ha
          rw [hq.workers i] at hcur
          cases hcur
      | next i v =>
          obtain ⟨hfol, -⟩ := (hv.next i a v).mpr ha
          rw [Pc.following_none (hq.workers i)] at hfol
          cases hfol
      | cont b =>
          -- the job in front was recycled, so its continuation was read
          obtain ⟨⟨hb, hunread⟩, -⟩ := (ho.chained a b).mp ha
          have hrecycled := ih _ (hf.older ha) (hval.work_pos hb) (hval.work_lt hb)
          exact absurd (continuationRead_iff.mp (hval.mem_trail_of_le hrecycled (by decide))) hunread

theorem Timely.continuationsFollow (h : Timely s) : s.ContinuationsFollow := by
  obtain ⟨-, place, -, ho, hf, -⟩ := id h
  refine ⟨fun _ => ho.valid.started_le _, hf.started, fun hq {of w} hof => ?_⟩
  obtain ⟨hpos, hlt⟩ := hf.bound hof
  have hrecycled := h.recycled hq w hpos hlt
  exact finished_iff.mp (ho.valid.mem_trail_of_le hrecycled (by decide))

/-- **Continuations follow their jobs.** Take a run in which jobs are scheduled without a parent
and in which each write of an `m_Continuation` is in time. In all its states, an attached work
was started once at most, as the continuation of the work it was attached to and after that one
was finished; and when nothing is left to do, all attached works were executed. -/
theorem continuations_follow (h : Transition.Run step (init n) tr s)
    (hx : ∀ p ∈ tr, p.2.Parentless) (ht : ∀ p ∈ tr, p.1.InTime p.2) :
    ∀ x ∈ Transition.visited tr s, x.ContinuationsFollow := by
  have hboth : ∀ p ∈ tr, p.1.NoneToTell p.2 ∧ p.1.InTime p.2 :=
    fun p hp => ⟨run_noneToTell h hx p hp, ht p hp⟩
  intro y hy
  exact (h.invariant_visited (C := fun s x => s.NoneToTell x ∧ s.InTime x) (timely_init n)
    (fun hI hC hs => hI.step hC.1 hC.2 hs) hboth y hy).continuationsFollow

/-- The client attaches a work before the only worker pops the job, and the worker runs both. -/
theorem continuations_follow_attached : ∃ tr s, Transition.Run step (init 1) tr s ∧
    .attached 1 2 ∈ s.log ∧ .started 2 0 (some 1) ∈ s.log ∧
    ∀ x ∈ Transition.visited tr s, x.ContinuationsFollow := by
  have hexec : ((Transition.exec step (fun s x => x.Parentless ∧ s.InTime x) (init 1)
      ([Action.schedule (.client 0) none none 7, .call (.client 0), .call (.client 0),
        .call (.client 0), .jobThen (.client 0) 1 7 none 8, .call (.client 0),
        .call (.client 0)] ++ List.replicate 10 (.work 0) ++ [Action.finish 0] ++
        List.replicate 7 (.work 0))).any fun s =>
      decide (.attached 1 2 ∈ s.log ∧ .started 2 0 (some 1) ∈ s.log)) = true := by decide
  obtain ⟨tr, s, hrun, -, hx, hs⟩ := Transition.exists_run_of_exec hexec
  obtain ⟨hatt, hst⟩ := of_decide_eq_true hs
  exact ⟨tr, s, hrun, hatt, hst,
    continuations_follow hrun (fun p hp => (hx p hp).1) (fun p hp => (hx p hp).2)⟩

/-- **Counterexample.** The only worker completes the job 1 before the client calls `then` on
it. The write goes to a job in the recycling bin, and the work 2 is never executed. -/
theorem not_continuations_follow : ∃ tr s, Transition.Run step (init 1) tr s ∧
    (∀ p ∈ tr, p.2.Parentless) ∧ s.Quiescent ∧ .attached 1 2 ∈ s.log ∧
    s.log.countP (Event.starts 2) = 0 ∧ ¬ s.ContinuationsFollow := by
  have hexec : ((Transition.exec step
      (fun _ x => x.Parentless ∧ ∀ t ∈ x.caller, t = .client 0) (init 1)
      ([Action.schedule (.client 0) none none 7, .call (.client 0), .call (.client 0),
        .call (.client 0)] ++ List.replicate 10 (.work 0) ++ [Action.finish 0] ++
        List.replicate 6 (.work 0) ++ [.jobThen (.client 0) 1 7 none 8])).any fun s =>
      decide (s.call (.client 0) = .attach 7 1 8 ∧ s.live = [8, 7] ∧ (s.jobs 7).work = 1 ∧
        (s.jobs 8).work = 2 ∧ .recycled 1 ∈ s.log ∧ s.shutdown = false ∧
        (s.worker 0).pc.current = none ∧ .finished 2 ∉ s.log ∧
        s.log.countP (Event.starts 2) = 0)) = true := by decide
  obtain ⟨tr, s, hrun, -, hx, hs⟩ := Transition.exists_run_of_exec hexec
  obtain ⟨hcall, hlive, hw7, hw8, hrec, hsd, hcur, hfin, hst⟩ := of_decide_eq_true hs
  -- the write of the continuation and the return of `then`
  have hwrite : step s (.call (.client 0)) = some (((s.setJob 7
      { s.jobs 7 with continuation := some 8 }).setCall (.client 0) (.reread 7 2)).record
        (.attached 1 2)) := by
    simp [step, callStep, hcall, hw8]
  obtain ⟨s', hs', hlog, hstore, hcalls, hworker, hsd'⟩ :
      ∃ s', step (((s.setJob 7 { s.jobs 7 with continuation := some 8 }).setCall (.client 0)
          (.reread 7 2)).record (.attached 1 2)) (.call (.client 0)) = some s' ∧
        s'.log = .returned 2 (some 8) :: .attached 1 2 :: s.log ∧ s'.store = s.store ∧
        s'.call = Function.update s.call (.client 0) .idle ∧ s'.worker = s.worker ∧
        s'.shutdown = s.shutdown := by
    simp [step, callStep, State.setCall, State.setJob, State.record]
  have hrun' := (hrun.snoc hwrite).snoc hs'
  have hfin' : .finished 2 ∉ s'.log := by simp [hlog, hfin]
  have hatt : .attached 1 2 ∈ s'.log := by simp [hlog]
  have hquiet : s'.Quiescent := by
    obtain ⟨place, hv, ho⟩ := exists_ledger hrun fun p hp => (hx p hp).1
    refine ⟨hsd'.trans hsd, fun q hq a hlink => ?_, fun i => ?_, fun t => ?_⟩
    · rw [hstore] at hlink
      have ha : place a = some (.queue q) := (hv.queue q a).mp hlink
      have hal : a ∈ s.live := ho.valid.live ha
      have h8 : place 8 = some (.call (.client 0) (.attach 7 1 8)) :=
        (hv.call _ _ 8).mp ⟨hcall, rfl⟩
      rw [hlive, List.mem_pair] at hal
      rcases hal with rfl | rfl
      · rw [h8] at ha
        cases ha
      · have hrecycled : .recycled ∈ trail s.log (s.jobs 7).work := hw7.symm ▸ recycled_iff.mpr hrec
        have hlt := (ho.valid.mem_trail_iff ha).mp hrecycled
        simp [Place.stage, hq] at hlt
    · rw [hworker]
      by_cases hi : i = 0
      · rw [hi, hcur]
      · rw [(worker_outside hrun).2 i (Nat.one_le_iff_ne_zero.mpr hi)]
        rfl
    · rw [hcalls]
      by_cases ht : t = .client 0
      · rw [ht, Function.update_self]
      · rw [Function.update_of_ne ht]
        refine hrun.invariant (I := fun s => s.call t = .idle)
          (C := fun _ x => x.Parentless ∧ ∀ u ∈ x.caller, u = .client 0) rfl ?_ hx
        intro s₀ x s₁ hidle hC hs₁
        rw [step_call (fun hu => ht (hC.2 t hu)) hs₁, hidle]
  refine ⟨_, s', hrun', ?_, hquiet, hatt, by simp [hlog, hst, Event.starts], fun hf =>
    hfin' (hf.executed hquiet hatt)⟩
  intro p hp
  rcases List.mem_cons.mp hp with rfl | hp
  · trivial
  · rcases List.mem_cons.mp hp with rfl | hp
    · trivial
    · exact (hx p hp).1

end Runs

end Bop.JobSystem
