import Bop.JobSystem.Refinement

set_option autoImplicit false

/-! # Beside a worker

What the other threads do to the ledger while the worker `i` does nothing (`Ledger.Beside`). The
jobs that are in the hands of the worker, or behind another job, stay as they are, nothing comes
into its recycling bin, and the record is about the jobs of other workers.
-/

namespace Bop.JobSystem

section Beside

variable {n : Nat} {P : Policy} {L L' : Ledger} {a b c : Addr} {p d : Place} {e : Event} {i : Nat}

/-- The place of a job that is in the hands of the worker `i`, or behind another job. -/
def Place.Waits (i : Nat) : Place → Prop
  | .run j _ _ | .next j _ => j = i
  | .cont _ => True
  | .queue _ | .call _ _ => False

/-- An event of another worker than `i`. -/
def Event.Beside (L : Ledger) (i : Nat) (e : Event) : Prop :=
  (∀ w k, e.mark = some (w, k) → ∃ b j m v, j ≠ i ∧ L.place b = some (.run j m v) ∧
    (L.jobs b).work = w) ∧ ∀ w via, e ≠ .started w i via

/-- **What other threads than the worker `i` leave as it is.** -/
structure Ledger.Beside (P : Policy) (i : Nat) (L L' : Ledger) : Prop where
  jobs : ∀ {b p}, L.place b = some p → p.Waits i → (∀ of a, ¬ P.attaches b of a) →
    L'.jobs b = L.jobs b
  live : ∀ {b p}, L.place b = some p → (∀ q, p ≠ .queue q) → b ∈ L'.live
  queue : ∀ {b q}, L'.place b = some (.queue q) → L.place b = some (.queue q) ∨
    (q.isBin = false ∧ ∃ t c, L.place b = some (.call t c)) ∨
    ∃ j v, j ≠ i ∧ L.place b = some (.run j .recycled v) ∧
      (q = .recyclingBin (.worker j) ∨ q = .garbageBin (.worker j))
  log : ∃ es, L'.log = es ++ L.log ∧ ∀ e ∈ es, e.Beside L i

theorem Event.beside_of_mark (he : e.mark = none) : e.Beside L i := by
  refine ⟨fun w k hm => ?_, fun w via heq => ?_⟩
  · rw [he] at hm
    cases hm
  · rw [heq] at he
    cases he

theorem Ledger.Beside.of_log (hlog : L'.log = L.log) :
    ∃ es, L'.log = es ++ L.log ∧ ∀ e ∈ es, e.Beside L i :=
  ⟨[], hlog, fun _ he => absurd he List.not_mem_nil⟩

theorem Ledger.Beside.of_cons (hlog : L'.log = e :: L.log) (he : e.Beside L i) :
    ∃ es, L'.log = es ++ L.log ∧ ∀ e ∈ es, e.Beside L i :=
  ⟨[e], hlog, fun _ he' => List.mem_singleton.mp he' ▸ he⟩

/-- Only a place and perhaps the record change. -/
theorem Ledger.Beside.put (ho : L.InOrder) (hjobs : L'.jobs = L.jobs) (hlive : L'.live = L.live)
    (hplace : L'.place = Function.update L.place a (some d)) (hd : ∀ q, d ≠ .queue q)
    (hlog : ∃ es, L'.log = es ++ L.log ∧ ∀ e ∈ es, e.Beside L i) : L.Beside P i L' where
  jobs _ _ _ := by rw [hjobs]
  live hb _ := hlive ▸ ho.valid.live hb
  queue {b q} hb := by
    by_cases hba : b = a
    · rw [hplace, hba, Function.update_self] at hb
      exact absurd (Option.some.inj hb) (hd q)
    · rw [hplace, Function.update_of_ne hba] at hb
      exact Or.inl hb
  log := hlog

theorem Ledger.putCont_place {o : Option Addr} (h : (L.putCont o d).place b = some p) :
    p = d ∨ L.place b = some p := by
  cases o with
  | none => exact Or.inr h
  | some c =>
      by_cases hbc : b = c
      · rw [hbc, putCont_some, put_place_self] at h
        exact Or.inl (Option.some.inj h).symm
      · rw [putCont_some, put_place_of_ne hbc] at h
        exact Or.inr h

/-- A worker gets hold of a continuation, or goes on with it. -/
theorem Ledger.Beside.putCont {o : Option Addr} (h : L.Beside P i L') (hd : ∀ q, d ≠ .queue q) :
    L.Beside P i (L'.putCont o d) := by
  have hrest : (L'.putCont o d).jobs = L'.jobs ∧ (L'.putCont o d).live = L'.live ∧
      (L'.putCont o d).log = L'.log := by
    cases o <;> exact ⟨rfl, rfl, rfl⟩
  obtain ⟨hjobs, hlive, hlog⟩ := hrest
  constructor
  · rw [hjobs]
    exact h.jobs
  · rw [hlive]
    exact h.live
  · intro b q hb
    exact h.queue ((putCont_place hb).resolve_left (hd q).symm)
  · rw [hlog]
    exact h.log

/-- A new job in a storage that held none, or a recycled one. -/
theorem Ledger.Beside.construct {t : Tid} {f : Call} {o : Origin} {L₁ : Ledger} (ho : L.InOrder)
    (hb : L.Before a L₁) : L.Beside P i (L₁.construct a (.call t f) o) := by
  have hne : ∀ {x p}, L.place x = some p → (∀ q, p ≠ .queue q) → x ≠ a := by
    rintro x p hx hq rfl
    rcases hb with ⟨⟨u, hu⟩, -⟩ | ⟨hlive, -⟩
    · exact hq _ (Option.some.inj (hx.symm.trans hu))
    · exact hlive (ho.valid.live hx)
  have hbefore : L₁.jobs = L.jobs ∧ L₁.place = L.place ∧ L₁.live = L.live := by
    rcases hb with ⟨-, rfl⟩ | ⟨-, rfl⟩
    · exact ⟨rfl, rfl, rfl⟩
    · exact ⟨rfl, rfl, rfl⟩
  obtain ⟨hjobs, hplace, hlive⟩ := hbefore
  constructor
  case jobs =>
    intro x p hx hw _
    have hxa : x ≠ a := hne hx fun q hq => by
      subst hq
      exact hw
    simp [Ledger.construct, hxa, hjobs]
  case live =>
    intro x p hx _
    have hxl := ho.valid.live hx
    by_cases hal : a ∈ L.live <;> simp [Ledger.construct, hlive, hal, hxl]
  case queue =>
    intro x q hx
    by_cases hxa : x = a
    · simp [Ledger.construct, hxa] at hx
    · simp only [Ledger.construct, hplace, Function.update_of_ne hxa] at hx
      exact Or.inl hx
  case log =>
    rcases hb with ⟨-, rfl⟩ | ⟨-, rfl⟩
    · exact Ledger.Beside.of_cons rfl (Event.beside_of_mark rfl)
    · refine ⟨[_, _], rfl, fun e he => ?_⟩
      rcases List.mem_pair.mp he with rfl | rfl
      · exact Event.beside_of_mark rfl
      · exact Event.beside_of_mark rfl

/-- Jobs are in no place any more. -/
theorem Ledger.Beside.drop {S : Place → Prop} [DecidablePred S] (ho : L.InOrder) :
    L.Beside P i (L.drop S) where
  jobs _ _ _ := rfl
  live hb _ := ho.valid.live hb
  queue hb := Or.inl (drop_place.mp hb).1
  log := Ledger.Beside.of_log rfl

/-- An event is recorded. -/
theorem Ledger.Beside.record (h : L.Beside P i L') (he : e.mark = none) :
    L.Beside P i (L'.record e) where
  jobs := h.jobs
  live := h.live
  queue := h.queue
  log := by
    obtain ⟨es, hlog, hes⟩ := h.log
    refine ⟨e :: es, congrArg (e :: ·) hlog, fun e' he' => ?_⟩
    rcases List.mem_cons.mp he' with rfl | he'
    · exact Event.beside_of_mark he
    · exact hes e' he'

/-- The storage of a job that is in a queue is returned. -/
theorem Ledger.Beside.free {q : QueueId} (ho : L.InOrder) (ha : L.place a = some (.queue q)) :
    L.Beside P i (L.free a) where
  jobs _ _ _ := rfl
  live {b p} hb hq := by
    refine (List.mem_erase_of_ne ?_).mpr (ho.valid.live hb)
    rintro rfl
    exact hq q (Option.some.inj (hb.symm.trans ha))
  queue hb := Or.inl (free_place.mp hb).2.1
  log := Ledger.Beside.of_cons rfl (Event.beside_of_mark rfl)

theorem Ledger.Beside.refl (ho : L.InOrder) : L.Beside P i L where
  jobs _ _ _ := rfl
  live hb _ := ho.valid.live hb
  queue hb := Or.inl hb
  log := Ledger.Beside.of_log rfl

/-- The current job of another worker passes a stage, which is recorded. -/
theorem Event.beside_of_run {j : Nat} {k m : Stage} {via : Option Work} (hij : j ≠ i)
    (ha : L.place a = some (.run j k via)) (he : e.mark = some ((L.jobs a).work, m))
    (hstart : ∀ w via, e ≠ .started w i via) : e.Beside L i := by
  refine ⟨fun w l hm => ⟨a, j, k, via, hij, ha, ?_⟩, hstart⟩
  exact congrArg Prod.fst (Option.some.inj (he.symm.trans hm))

/-- **A move of another thread**: the current job of the worker `i` does not pass a stage. -/
theorem Move.beside (hm : Move n P L L') (ho : L.InOrder)
    (hi : ∀ {b k v}, L.place b = some (.run i k v) → L'.place b = some (.run i k v)) :
    L.Beside P i L' := by
  -- a worker whose job goes elsewhere is not `i`
  have hne : ∀ {a j k v}, L.place a = some (.run j k v) → L'.place a ≠ some (.run j k v) →
      j ≠ i := by
    rintro a j k v ha ha' rfl
    exact ha' (hi ha)
  cases hm with
  | @construct a t c o ha hc => exact .construct ho (Or.inl ⟨⟨t, ha⟩, rfl⟩)
  | @allocate a t c o ha hc => exact .construct ho (Or.inr ⟨ha, rfl⟩)
  | route ha hc | balance ha | pop ha hc =>
      exact .put ho rfl rfl rfl (by simp) (Ledger.Beside.of_log rfl)
  | @push a t c q ha hq =>
      refine ⟨fun _ _ _ => rfl, fun hb _ => ho.valid.live hb, fun {b r} hb => ?_,
        Ledger.Beside.of_cons rfl (Event.beside_of_mark rfl)⟩
      by_cases hba : b = a
      · subst hba
        obtain rfl : q = r := by simpa using hb
        refine Or.inr (Or.inl ⟨?_, t, c, ha⟩)
        rcases hq with ⟨-, rfl⟩ | ⟨-, rfl⟩ <;> rfl
      · simp only [Ledger.record_place, Ledger.put_place_of_ne hba] at hb
        exact Or.inl hb
  | @attach a b t of ha hab =>
      refine ⟨fun {x p} _ _ hx => ?_, fun hx _ => ho.valid.live hx, fun {x q} hx => ?_,
        Ledger.Beside.of_cons rfl (Event.beside_of_mark rfl)⟩
      · have hxb : x ≠ b := fun hxb => hx of a (hxb ▸ hab)
        exact Function.update_of_ne hxb ..
      · rcases Ledger.attach_place.mp hx with ⟨-, -, hcont⟩ | ⟨-, hx, -⟩
        · cases hcont
        · exact Or.inl hx
  | @advance a j k via e ha he =>
      have hij : j ≠ i := hne ha (by
        rcases he with ⟨rfl, -⟩ | ⟨rfl, -⟩ | ⟨rfl, -⟩ <;> simp [Stage.next])
      refine .put ho rfl rfl rfl (by simp) (Ledger.Beside.of_cons rfl ?_)
      rcases he with ⟨-, rfl⟩ | ⟨-, rfl⟩ | ⟨-, rfl⟩
      · exact Event.beside_of_run hij ha rfl (by simp [hij])
      · exact Event.beside_of_run hij ha rfl (by simp)
      · exact Event.beside_of_run hij ha rfl (by simp)
  | @readContinuation a j via ha hf =>
      have hij : j ≠ i := hne ha fun ha' => by
        rcases Ledger.putCont_place ha' with h | h
        · cases h
        · simp at h
      refine Ledger.Beside.putCont (.put (a := a) ho rfl rfl rfl (by simp) ?_) (by simp)
      exact Ledger.Beside.of_cons rfl (Event.beside_of_run hij ha rfl (by simp))
  | @fetchSub a j via ha =>
      have hij : j ≠ i := hne ha (by simp)
      have hput : L.Beside P i (L.put a (.run j .completed via)) :=
        .put ho rfl rfl rfl (by simp) (Ledger.Beside.of_log rfl)
      refine ⟨fun {b p} hb hw _ => ?_, hput.live, hput.queue,
        Ledger.Beside.of_cons rfl (Event.beside_of_run hij ha rfl (by simp))⟩
      refine Function.update_of_ne (fun hba => hij ?_) ..
      rw [hba, ha] at hb
      cases hb
      exact hw
  | @recycle a j via q c ha hq hc =>
      have hij : j ≠ i := hne ha fun ha' => by
        rcases Ledger.putCont_place ha' with h | h
        · cases h
        · simp at h
      refine Ledger.Beside.putCont ⟨fun _ _ _ => rfl, fun hb _ => ho.valid.live hb,
        fun {b r} hb => ?_,
        Ledger.Beside.of_cons rfl (Event.beside_of_run hij ha rfl (by simp))⟩ (by simp)
      by_cases hba : b = a
      · subst hba
        obtain rfl : q = r := by simpa using hb
        exact Or.inr (Or.inr ⟨j, via, hij, ha, hq⟩)
      · simp only [Ledger.record_place, Ledger.put_place_of_ne hba] at hb
        exact Or.inl hb
  | collect => exact .drop ho
  | @note e he =>
      refine Ledger.Beside.record (.refl ho) ?_
      cases e <;> first | rfl | exact he.elim

/-- **A step of another thread.** -/
theorem Simulated.beside {s s' : State} {place : Addr → Option Place} {x : Action}
    (h : Simulated P s place x s') (hv : Views s place) (ho : (s.ledger place).InOrder)
    (hworker : s'.worker i = s.worker i) : ∃ place', Views s' place' ∧
      (s'.ledger place').InOrder ∧ (s.ledger place).Beside P i (s'.ledger place') := by
  have hrun : ∀ {place'}, Views s' place' → ∀ {b k v}, place b = some (.run i k v) →
      place' b = some (.run i k v) := by
    intro place' hv' b k v hb
    rw [← hv'.run, hworker]
    exact (hv.run i b k v).mpr hb
  cases h with
  | stutter hv' hl => exact ⟨_, hv', hl.symm ▸ ho, hl.symm ▸ .refl ho⟩
  | move hv' hm => exact ⟨_, hv', hm.inOrder ho, hm.beside ho (hrun hv')⟩
  | free hv' _ _ ha hl => exact ⟨_, hv', hl ▸ ho.free ha, hl ▸ .free ho ha⟩
  | @clear place' j r e hv' _ _ he hl =>
      refine ⟨_, hv', hl ▸ ho.clear he, hl ▸ (Ledger.Beside.drop ho).record ?_⟩
      cases e <;> first | rfl | exact he.elim

end Beside

end Bop.JobSystem
