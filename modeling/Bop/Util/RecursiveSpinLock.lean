import Bop.Basic.Transition
import Mathlib.Data.List.Nodup
import Mathlib.Data.List.Perm.Subperm
import Mathlib.Algebra.Group.Nat.Defs

set_option autoImplicit false

/-! # `RecursiveSpinLock`

The re-entrant lock of `util/spinlock.cpp`: `m_Semaphore` is the id of the thread that holds
the lock or zero, and `m_Count`, which is not atomic, is how often that thread acquired it.
Every access of the two is a step, so `++m_Count` takes two steps, the read and the write. The
ids come from `get_local_hash`, which counts up a shared number once for each thread.

Who holds the lock and how often is read off the record of the run: `holds` from the exchanges
and stores of `m_Semaphore`, `depth` from the calls that returned. The invariant says for each
control point what these two are there (`Pc.Facts`), and only that a thread that does not hold
the lock says nothing about `m_Count`; `mutex_correct` is then read off it.
-/

namespace Bop.RecursiveSpinLock

/-- `++` on a `std::size_t`. -/
def succ64 (n : Nat) : Nat := (n + 1) % 2 ^ 64

/-- `--` on a `std::size_t`. -/
def pred64 (n : Nat) : Nat := (n + (2 ^ 64 - 1)) % 2 ^ 64

theorem succ64_of_lt {n : Nat} (h : n + 1 < 2 ^ 64) : succ64 n = n + 1 := Nat.mod_eq_of_lt h

theorem pred64_of_pos {n : Nat} (h : 0 < n) (hlt : n < 2 ^ 64) : pred64 n = n - 1 := by
  have hsplit : n + (2 ^ 64 - 1) = (n - 1) + 2 ^ 64 := by omega
  rw [pred64, hsplit, Nat.add_mod_right, Nat.mod_eq_of_lt (by omega)]

inductive Op
  | lock
  | tryLock
  | unlock
  deriving DecidableEq

/-- Where a thread is in a call. -/
inductive Pc
  | idle
  | hash (op : Op)                -- x = get_local_hash();
  | lockLoad                      -- sema = m_Semaphore.load(); if (sema == x)
  | lockExchange                  -- m_Semaphore.compare_exchange_strong(value, x)
  | lockSpin                      -- while (m_Semaphore.load() != 0)
  | tryLoad                       -- sema = m_Semaphore.load(); if (!sema) .. else if (sema == x)
  | tryExchange                   -- m_Semaphore.compare_exchange_strong(value, x)
  | countRead (op : Op)           -- ++m_Count; (the read)
  | countWrite (op : Op) (c : Nat) -- ++m_Count; (the write)
  | unlockRead                    -- --m_Count; (the read)
  | unlockWrite (c : Nat)         -- --m_Count; (the write)
  | unlockTest                    -- if (!m_Count)
  | unlockStore                   -- m_Semaphore.store(0);
  deriving DecidableEq

/-- What happened, for stating properties of runs. -/
inductive Event
  | called (t : Nat) (op : Op)
  | exchanged (t : Nat)                        -- m_Semaphore went from 0 to the id of t
  | counted (t : Nat)                          -- t wrote m_Count
  | cleared (t : Nat)                          -- t stored 0 into m_Semaphore
  | returned (t : Nat) (op : Op) (result : Bool) -- lock and unlock return nothing: true
  deriving DecidableEq

def Event.thread : Event → Nat
  | .called t _ | .exchanged t | .counted t | .cleared t | .returned t _ _ => t

/-- The event is a write to the lock. -/
def Event.writes : Event → Bool
  | .exchanged _ | .counted _ | .cleared _ => true
  | .called _ _ | .returned _ _ _ => false

structure State where
  /-- `s_shared_id` of `get_local_hash` -/
  sharedId : Nat
  /-- `t_hash` of `get_local_hash`, once it is initialized -/
  hash : Nat → Option Nat
  semaphore : Nat
  count : Nat
  pc : Nat → Pc
  /-- newest first -/
  log : List Event

def init : State where
  sharedId := 1
  hash := fun _ => none
  semaphore := 0
  count := 0
  pc := fun _ => .idle
  log := []

/-! ## The steps -/

/-- Thread `t` goes on at `pc`. -/
def State.goto (s : State) (t : Nat) (pc : Pc) : State :=
  { s with pc := Function.update s.pc t pc }

def State.record (s : State) (e : Event) : State := { s with log := e :: s.log }

/-- Thread `t` returns from its call. -/
def State.return (s : State) (t : Nat) (op : Op) (result : Bool) : State :=
  (s.goto t .idle).record (.returned t op result)

/-- `get_local_hash()` in the thread `t`: the first call initializes `t_hash`. -/
def getLocalHash (s : State) (t : Nat) : State :=
  match s.hash t with
  | some _ => s
  | none =>
      { s with
        sharedId := succ64 s.sharedId
        hash := Function.update s.hash t (some s.sharedId) }

/-- The local variable `x` of `lock` and `try_lock`. -/
def State.x (s : State) (t : Nat) : Nat := (s.hash t).getD 0

/-- The next step of the call that thread `t` is in. -/
def threadStep (s : State) (t : Nat) : Option State :=
  match s.pc t with
  | .idle => none
  | .hash op => some ((getLocalHash s t).goto t (if op = .tryLock then .tryLoad else .lockLoad))
  | .lockLoad =>
      some (s.goto t (if s.semaphore = s.x t then .countRead .lock else .lockExchange))
  | .lockExchange =>
      if s.semaphore = 0 then
        some ({ s.goto t (.countRead .lock) with semaphore := s.x t }.record (.exchanged t))
      else some (s.goto t .lockSpin)
  | .lockSpin => some (if s.semaphore = 0 then s.goto t .lockExchange else s)
  | .tryLoad =>
      if s.semaphore = 0 then some (s.goto t .tryExchange)
      else if s.semaphore = s.x t then some (s.goto t (.countRead .tryLock))
      else some (s.return t .tryLock false)
  | .tryExchange =>
      if s.semaphore = 0 then
        some ({ s.goto t (.countRead .tryLock) with semaphore := s.x t }.record (.exchanged t))
      else some (s.return t .tryLock false)
  | .countRead op => some (s.goto t (.countWrite op s.count))
  | .countWrite op c =>
      some (({ s with count := succ64 c }.record (.counted t)).return t op true)
  | .unlockRead => some (s.goto t (.unlockWrite s.count))
  | .unlockWrite c =>
      some ({ s.goto t .unlockTest with count := pred64 c }.record (.counted t))
  | .unlockTest =>
      if s.count = 0 then some (s.goto t .unlockStore) else some (s.return t .unlock true)
  | .unlockStore =>
      some (({ s with semaphore := 0 }.record (.cleared t)).return t .unlock true)

inductive Action
  /-- thread `t` calls `lock()`, `try_lock()` or `unlock()` -/
  | call (t : Nat) (op : Op)
  /-- the next step of the call that thread `t` is in -/
  | next (t : Nat)
  deriving DecidableEq

def Action.thread : Action → Nat
  | .call t _ | .next t => t

def step (s : State) : Action → Option State
  | .call t op =>
      if s.pc t = .idle then
        some ((s.goto t (if op = .unlock then .unlockRead else .hash op)).record (.called t op))
      else none
  | .next t => threadStep s t

/-! ## Who holds the lock -/

/-- Thread `t` has put its id into `m_Semaphore` and not cleared it since. -/
def holds (t : Nat) : List Event → Bool
  | [] => false
  | .exchanged u :: log => u == t || holds t log
  | .cleared u :: log => u != t && holds t log
  | .called _ _ :: log | .counted _ :: log | .returned _ _ _ :: log => holds t log

/-- The nesting depth of thread `t`: how often it acquired the lock and has not released it. -/
def depth (t : Nat) : List Event → Nat
  | [] => 0
  | .returned u op result :: log =>
      if u = t then
        match op with
        | .lock => depth t log + 1
        | .tryLock => if result then depth t log + 1 else depth t log
        | .unlock => depth t log - 1
      else depth t log
  | .called _ _ :: log | .exchanged _ :: log | .counted _ :: log | .cleared _ :: log => depth t log

/-- The events of the call that thread `t` made last, without the call itself. -/
def lastCall (t : Nat) : List Event → List Event
  | [] => []
  | e :: log =>
      if e.thread = t then
        match e with
        | .called _ _ => []
        | e => e :: lastCall t log
      else lastCall t log

/-- An acquisition or a release is in progress: the thread is at an access of `m_Count`, or about
to clear `m_Semaphore`. -/
def Pc.inProgress : Pc → Bool
  | .countRead _ | .countWrite _ _ | .unlockRead | .unlockWrite _ | .unlockTest
  | .unlockStore => true
  | _ => false

/-- The next step of the thread accesses `m_Count`. -/
def Pc.touchesCount : Pc → Bool
  | .countRead _ | .countWrite _ _ | .unlockRead | .unlockWrite _ | .unlockTest => true
  | _ => false

/-- A thread calls `unlock` only as often as it has acquired the lock, and does not nest
`2 ^ 64` times. -/
def State.Disciplined (s : State) : Action → Prop
  | .call t .unlock => 0 < depth t s.log
  | .call t .lock | .call t .tryLock => depth t s.log + 1 < 2 ^ 64
  | .next _ => True

instance (s : State) : DecidablePred s.Disciplined
  | .call t .unlock => inferInstanceAs (Decidable (0 < depth t s.log))
  | .call t .lock | .call t .tryLock => inferInstanceAs (Decidable (depth t s.log + 1 < 2 ^ 64))
  | .next _ => .isTrue trivial

/-- The calls of `try_lock` that returned: they returned true exactly when they wrote to the lock,
which a call that returned false did not. -/
def Tries (log : List Event) : Prop :=
  ∀ t result log', .returned t .tryLock result :: log' <:+ log →
    (result = true ↔ ∃ e ∈ lastCall t log', e.writes = true)

/-- **The lock in a state.** -/
structure State.Locked (s : State) : Prop where
  /-- at most one thread holds it -/
  exclusive : ∀ {t u}, holds t s.log = true → holds u s.log = true → t = u
  /-- whoever acquired it and did not release it holds it -/
  held : ∀ {t}, 0 < depth t s.log → holds t s.log = true
  /-- and nobody else, unless an acquisition is in progress -/
  depth_pos : ∀ {t}, holds t s.log = true → (s.pc t).inProgress = false → 0 < depth t s.log
  semaphore : ∀ {t}, holds t s.log = true → s.semaphore ≠ 0 ∧ s.hash t = some s.semaphore
  count : ∀ {t}, holds t s.log = true → (s.pc t).inProgress = false → s.count = depth t s.log
  free : (∀ t, holds t s.log = false) → s.semaphore = 0 ∧ s.count = 0
  tryLock : Tries s.log

/-- **What a step does to the lock.** -/
structure Respects (s : State) (x : Action) (s' : State) : Prop where
  /-- `m_Count` is touched by the thread that holds the lock only -/
  guarded : ∀ {t}, x = .next t → (s.pc t).touchesCount = true → holds t s.log = true
  untouched : (∀ {t}, x = .next t → (s.pc t).touchesCount = false) → s'.count = s.count
  /-- every write is recorded -/
  recorded : s'.semaphore ≠ s.semaphore ∨ s'.count ≠ s.count →
    ∃ es, s'.log = es ++ s.log ∧ ∃ e ∈ es, e.thread = x.thread ∧ e.writes = true
  /-- the lock becomes free when the outermost `unlock` of its holder is done -/
  frees : (s.semaphore ≠ 0 ∧ s'.semaphore = 0) ↔
    ∃ t, x = .next t ∧ depth t s.log = 1 ∧ depth t s'.log = 0

/-! ## The record of the other threads -/

section Record

variable {t u : Nat} {e : Event} {es log : List Event} {op : Op} {result : Bool}

theorem holds_cons (h : e.thread ≠ u) : holds u (e :: log) = holds u log := by
  cases e with
  | exchanged t | cleared t =>
      have htu : t ≠ u := h
      simp [holds, htu]
  | called | counted | returned => rfl

theorem depth_cons (h : e.thread ≠ u) : depth u (e :: log) = depth u log := by
  cases e with
  | returned t op result => exact if_neg h
  | called | exchanged | counted | cleared => rfl

theorem lastCall_cons (h : e.thread ≠ u) : lastCall u (e :: log) = lastCall u log := if_neg h

theorem holds_append (h : ∀ e ∈ es, e.thread ≠ u) : holds u (es ++ log) = holds u log := by
  induction es with
  | nil => rfl
  | cons e es ih =>
      rw [List.cons_append, holds_cons (h e List.mem_cons_self)]
      exact ih fun e' he' => h e' (List.mem_cons_of_mem _ he')

theorem depth_append (h : ∀ e ∈ es, e.thread ≠ u) : depth u (es ++ log) = depth u log := by
  induction es with
  | nil => rfl
  | cons e es ih =>
      rw [List.cons_append, depth_cons (h e List.mem_cons_self)]
      exact ih fun e' he' => h e' (List.mem_cons_of_mem _ he')

theorem lastCall_append (h : ∀ e ∈ es, e.thread ≠ u) :
    lastCall u (es ++ log) = lastCall u log := by
  induction es with
  | nil => rfl
  | cons e es ih =>
      rw [List.cons_append, lastCall_cons (h e List.mem_cons_self)]
      exact ih fun e' he' => h e' (List.mem_cons_of_mem _ he')

@[simp] theorem holds_exchanged : holds t (.exchanged t :: log) = true := by simp [holds]
@[simp] theorem holds_cleared : holds t (.cleared t :: log) = false := by simp [holds]
@[simp] theorem holds_called : holds t (.called u op :: log) = holds t log := rfl
@[simp] theorem holds_counted : holds t (.counted u :: log) = holds t log := rfl
@[simp] theorem holds_returned : holds t (.returned u op result :: log) = holds t log := rfl
@[simp] theorem depth_called : depth t (.called u op :: log) = depth t log := rfl
@[simp] theorem depth_exchanged : depth t (.exchanged u :: log) = depth t log := rfl
@[simp] theorem depth_counted : depth t (.counted u :: log) = depth t log := rfl
@[simp] theorem depth_cleared : depth t (.cleared u :: log) = depth t log := rfl

@[simp] theorem depth_unlock : depth t (.returned t .unlock result :: log) = depth t log - 1 :=
  if_pos rfl

@[simp] theorem depth_tryLock_false : depth t (.returned t .tryLock false :: log) = depth t log :=
  if_pos rfl

theorem depth_acquired (h : op ≠ .unlock) :
    depth t (.returned t op true :: log) = depth t log + 1 := by
  cases op with
  | lock | tryLock => exact if_pos rfl
  | unlock => exact absurd rfl h

@[simp] theorem lastCall_called : lastCall t (.called t op :: log) = [] := if_pos rfl

theorem Tries.cons (h : Tries log) (hnot : ∀ t result, e ≠ .returned t .tryLock result) :
    Tries (e :: log) := by
  intro t result log' hsuf
  rcases List.suffix_cons_iff.mp hsuf with heq | hsuf
  · cases heq
    exact absurd rfl (hnot t result)
  · exact h t result log' hsuf

theorem Tries.returned (h : Tries log)
    (hresult : result = true ↔ ∃ e ∈ lastCall t log, e.writes = true) :
    Tries (.returned t op result :: log) := by
  intro u result' log' hsuf
  rcases List.suffix_cons_iff.mp hsuf with heq | hsuf
  · cases heq
    exact hresult
  · exact h u result' log' hsuf

end Record

/-! ## The invariant -/

/-- What holds at a control point for a thread with the id `id`: whether it holds the lock, what
`m_Count` is then, and that an acquisition has written nothing before it got the lock. -/
def Pc.Facts (id : Option Nat) (held : Bool) (count depth : Nat) (last : List Event) : Pc → Prop
  | .idle => (held = true ↔ 0 < depth) ∧ (held = true → count = depth) ∧ depth < 2 ^ 64
  | .hash op =>
      (held = true ↔ 0 < depth) ∧ (held = true → count = depth) ∧ depth + 1 < 2 ^ 64 ∧
        op ≠ .unlock ∧ ∀ e ∈ last, e.writes = false
  | .lockLoad | .tryLoad =>
      (held = true ↔ 0 < depth) ∧ (held = true → count = depth) ∧ depth + 1 < 2 ^ 64 ∧
        id ≠ none ∧ ∀ e ∈ last, e.writes = false
  | .lockExchange | .lockSpin | .tryExchange =>
      held = false ∧ depth = 0 ∧ id ≠ none ∧ ∀ e ∈ last, e.writes = false
  | .countRead op => held = true ∧ count = depth ∧ depth + 1 < 2 ^ 64 ∧ op ≠ .unlock
  | .countWrite op c =>
      held = true ∧ count = depth ∧ c = depth ∧ depth + 1 < 2 ^ 64 ∧ op ≠ .unlock
  | .unlockRead => held = true ∧ count = depth ∧ 0 < depth ∧ depth < 2 ^ 64
  | .unlockWrite c => held = true ∧ count = depth ∧ c = depth ∧ 0 < depth ∧ depth < 2 ^ 64
  | .unlockTest => held = true ∧ count + 1 = depth ∧ depth < 2 ^ 64
  | .unlockStore => held = true ∧ count = 0 ∧ depth = 1

/-- The threads got different ids, counted from one. -/
structure State.Numbered (n : Nat) (s : State) : Prop where
  unique : ∀ {t u a}, s.hash t = some a → s.hash u = some a → t = u
  pos : ∀ {t a}, s.hash t = some a → 0 < a
  counted : ∃ l : List Nat, l.Nodup ∧ (∀ t ∈ l, t < n) ∧ (∀ t, t ∈ l ↔ s.hash t ≠ none) ∧
    s.sharedId = succ64 l.length ∧ ∀ t a, s.hash t = some a → a ≤ l.length

structure Inv (n : Nat) (s : State) : Prop where
  numbered : s.Numbered n
  owner : ∀ t, holds t s.log = true ↔ s.semaphore ≠ 0 ∧ s.hash t = some s.semaphore
  owned : s.semaphore ≠ 0 → ∃ t, s.hash t = some s.semaphore
  free : s.semaphore = 0 → s.count = 0
  facts : ∀ t, (s.pc t).Facts (s.hash t) (holds t s.log) s.count (depth t s.log)
    (lastCall t s.log)
  tries : Tries s.log

section Steps

variable {n : Nat} {s s' : State} {t u : Nat} {x : Action}

theorem State.Numbered.congr (h : s.Numbered n) (hhash : s'.hash = s.hash)
    (hid : s'.sharedId = s.sharedId) : s'.Numbered n where
  unique := by
    rw [hhash]
    exact h.unique
  pos := by
    rw [hhash]
    exact h.pos
  counted := by
    rw [hhash, hid]
    exact h.counted

theorem State.Numbered.getLocalHash (h : s.Numbered n) (hn : n < 2 ^ 64) (ht : t < n) :
    (getLocalHash s t).Numbered n := by
  cases hid : s.hash t with
  | some a =>
      simp only [RecursiveSpinLock.getLocalHash, hid]
      exact h
  | none =>
      obtain ⟨l, hnd, hlt, hmem, hshared, hle⟩ := h.counted
      have hnd' : (t :: l).Nodup := List.nodup_cons.mpr ⟨fun htl => (hmem t).mp htl hid, hnd⟩
      have hlt' : ∀ u ∈ t :: l, u < n := List.forall_mem_cons.mpr ⟨ht, hlt⟩
      -- these are different threads below `n`, so the shared number has not wrapped yet
      have hlen : l.length + 1 ≤ n := by
        have hsub : (t :: l).length ≤ (List.range n).length :=
          (hnd'.subperm (fun u hu => List.mem_range.mpr (hlt' u hu))).length_le
        simpa using hsub
      have hnew : s.sharedId = l.length + 1 := by rw [hshared, succ64_of_lt (by omega)]
      have hold : ∀ u a, s.hash u = some a → a ≠ l.length + 1 := fun u a hu ha => by
        have hua := hle u a hu
        omega
      simp only [RecursiveSpinLock.getLocalHash, hid]
      constructor
      case unique =>
        intro u v a hu hv
        simp only [Function.update_apply, hnew] at hu hv
        split at hu
        · split at hv
          case isTrue hut hvt => rw [hut, hvt]
          case isFalse => exact absurd (Option.some.inj hu).symm (hold v a hv)
        · split at hv
          case isTrue => exact absurd (Option.some.inj hv).symm (hold u a hu)
          case isFalse => exact h.unique hu hv
      case pos =>
        intro u a hu
        simp only [Function.update_apply, hnew] at hu
        split at hu
        · have ha := Option.some.inj hu
          omega
        · exact h.pos hu
      case counted =>
        refine ⟨t :: l, hnd', hlt', fun u => ?_, ?_, fun u a hu => ?_⟩
        · by_cases hut : u = t
          · simp [hut]
          · simp [hut, hmem u]
        · show succ64 s.sharedId = _
          rw [hnew, List.length_cons]
        · simp only [Function.update_apply, hnew] at hu
          rw [List.length_cons]
          split at hu
          · exact Nat.le_of_eq (Option.some.inj hu).symm
          · exact Nat.le_succ_of_le (hle u a hu)

/-- A thread that has its id keeps it. -/
theorem getLocalHash_hash (s : State) (t : Nat) {a : Nat} (hu : s.hash u = some a) :
    (getLocalHash s t).hash u = some a := by
  cases hid : s.hash t with
  | some b =>
      simp only [getLocalHash, hid]
      exact hu
  | none =>
      have hut : u ≠ t := fun h => by
        rw [h, hid] at hu
        cases hu
      simp only [getLocalHash, hid, Function.update_of_ne hut, hu]

theorem getLocalHash_self (s : State) (t : Nat) : (getLocalHash s t).hash t ≠ none := by
  cases hid : s.hash t with
  | some b => simp [getLocalHash, hid]
  | none => simp [getLocalHash, hid]

/-- The rest of the state does not change. -/
theorem getLocalHash_frame (s : State) (t : Nat) : (getLocalHash s t).semaphore = s.semaphore ∧
    (getLocalHash s t).count = s.count ∧ (getLocalHash s t).pc = s.pc ∧
    (getLocalHash s t).log = s.log := by
  unfold getLocalHash
  split
  · exact ⟨rfl, rfl, rfl, rfl⟩
  · exact ⟨rfl, rfl, rfl, rfl⟩

/-- Of a thread that does not hold the lock, only the depth and the id matter. -/
theorem Pc.Facts.of_not_held {pc : Pc} {id id' : Option Nat} {count count' depth : Nat}
    {last : List Event} (h : pc.Facts id false count depth last) (hid : id ≠ none → id' ≠ none) :
    pc.Facts id' false count' depth last := by
  cases pc with
  | idle => exact ⟨h.1, by simp, h.2.2⟩
  | hash op => exact ⟨h.1, by simp, h.2.2⟩
  | lockLoad | tryLoad => exact ⟨h.1, by simp, h.2.2.1, hid h.2.2.2.1, h.2.2.2.2⟩
  | lockExchange | lockSpin | tryExchange => exact ⟨h.1, h.2.1, hid h.2.2.1, h.2.2.2⟩
  | countRead | countWrite | unlockRead | unlockWrite | unlockTest | unlockStore =>
      cases h.1

theorem Inv.exclusive (h : Inv n s) (ht : holds t s.log = true) (hu : holds u s.log = true) :
    t = u :=
  h.numbered.unique ((h.owner t).mp ht).2 ((h.owner u).mp hu).2

/-- The threads other than `t` do not see what `t` does, as long as `m_Semaphore` stays. -/
theorem Inv.keep {p : Pc} {l : List Event} (h : Inv n s) (hnum : s'.Numbered n)
    (hhash : ∀ {u a}, s.hash u = some a → s'.hash u = some a)
    (hsem : s'.semaphore = s.semaphore) (hcount : s'.count = s.count ∨ holds t s.log = true)
    (hpc : s'.pc = Function.update s.pc t p) (hlog : s'.log = l ++ s.log)
    (hes : ∀ e ∈ l, e.thread = t) (hholds : holds t s'.log = holds t s.log)
    (hfacts : p.Facts (s'.hash t) (holds t s.log) s'.count (depth t s'.log)
      (lastCall t s'.log)) (htries : Tries s'.log) : Inv n s' := by
  -- what is recorded is of thread `t`, so the others hold what they held
  have hother : ∀ {u}, u ≠ t → ∀ e ∈ l, e.thread ≠ u :=
    fun hu e he heu => hu (heu.symm.trans (hes e he))
  have hholds' : ∀ u, holds u s'.log = holds u s.log := by
    intro u
    by_cases hu : u = t
    · rw [hu, hholds]
    · rw [hlog, holds_append (hother hu)]
  constructor
  case numbered => exact hnum
  case owner =>
    intro u
    rw [hholds', h.owner, hsem]
    refine and_congr_right fun hne => ⟨hhash, fun hu => ?_⟩
    obtain ⟨v, hv⟩ := h.owned hne
    rw [hnum.unique hu (hhash hv), hv]
  case owned =>
    rw [hsem]
    exact fun hne => (h.owned hne).imp fun v hv => hhash hv
  case free =>
    rw [hsem]
    intro hz
    rcases hcount with hcount | ht
    · rw [hcount, h.free hz]
    · exact absurd hz ((h.owner t).mp ht).1
  case facts =>
    intro u
    rw [hholds']
    by_cases hu : u = t
    · rw [hpc, hu, Function.update_self]
      exact hfacts
    · have hold := h.facts u
      rw [hpc, Function.update_of_ne hu, hlog, depth_append (hother hu),
        lastCall_append (hother hu)]
      cases hhu : holds u s.log with
      | false =>
          rw [hhu] at hold
          refine hold.of_not_held fun hne => ?_
          obtain ⟨a, ha⟩ := Option.ne_none_iff_exists'.mp hne
          rw [hhash ha]
          exact Option.some_ne_none a
      | true =>
          have hcount' : s'.count = s.count :=
            hcount.resolve_right fun ht => hu (h.exclusive hhu ht)
          have hid : s.hash u = some s.semaphore := ((h.owner u).mp hhu).2
          rw [hhu, hid] at hold
          rw [hcount', hhash hid]
          exact hold
  case tries => exact htries

/-- The common case: the thread goes on and the lock stays as it is. -/
theorem Inv.goto {p : Pc} (h : Inv n s)
    (hfacts : p.Facts (s.hash t) (holds t s.log) s.count (depth t s.log) (lastCall t s.log)) :
    Inv n (s.goto t p) :=
  h.keep (l := []) (h.numbered.congr rfl rfl) id rfl (Or.inl rfl) rfl rfl (by simp) rfl hfacts h.tries

theorem init_inv (n : Nat) : Inv n init where
  numbered := ⟨by simp [init], by simp [init], [], List.nodup_nil, by simp, by simp [init], rfl,
    by simp [init]⟩
  owner t := by simp [init, holds]
  owned := by simp [init]
  free _ := rfl
  facts t := ⟨by simp [init, holds, depth], by simp [init, holds], by simp [init, depth]⟩
  tries := by
    intro t result log' hsuf
    cases List.suffix_nil.mp hsuf

theorem Inv.call {op : Op} (h : Inv n s) (hd : s.Disciplined (.call t op))
    (hs : step s (.call t op) = some s') : Inv n s' := by
  simp only [step] at hs
  split at hs
  case isFalse => cases hs
  case isTrue hpc =>
    obtain rfl := Option.some.inj hs
    obtain ⟨hiff, hcount, hlt⟩ : (Pc.idle).Facts (s.hash t) (holds t s.log) s.count
        (depth t s.log) (lastCall t s.log) := hpc ▸ h.facts t
    refine h.keep (l := [.called t op]) (h.numbered.congr rfl rfl) id rfl (Or.inl rfl) rfl rfl
      (by simp [Event.thread]) rfl ?_ (h.tries.cons (by simp))
    cases op with
    | lock => exact ⟨hiff, hcount, hd, by simp, by simp [State.record]⟩
    | tryLock => exact ⟨hiff, hcount, hd, by simp, by simp [State.record]⟩
    | unlock => exact ⟨hiff.mpr hd, hcount (hiff.mpr hd), hd, hlt⟩

/-- An exchange that finds `m_Semaphore` free. -/
theorem Inv.exchange {op : Op} (h : Inv n s) (hop : op ≠ .unlock) (hzero : s.semaphore = 0)
    (hid : s.hash t ≠ none) (hdepth : depth t s.log = 0) :
    Inv n ({ s.goto t (.countRead op) with semaphore := s.x t }.record (.exchanged t)) := by
  obtain ⟨a, ha⟩ := Option.ne_none_iff_exists'.mp hid
  have hx : s.x t = a := by simp [State.x, ha]
  have hpos : a ≠ 0 := Nat.ne_of_gt (h.numbered.pos ha)
  -- `m_Semaphore` was `0`, so nobody holds the lock
  have hnone : ∀ u, holds u s.log = false := by
    intro u
    by_contra hu
    exact ((h.owner u).mp (by simpa using hu)).1 hzero
  have hholds : ∀ u, holds u (.exchanged t :: s.log) = true ↔ u = t := by
    intro u
    simp only [holds, hnone, Bool.or_false, beq_iff_eq]
    exact eq_comm
  constructor
  case numbered => exact h.numbered.congr rfl rfl
  case owner =>
    intro u
    show holds u (.exchanged t :: s.log) = true ↔ s.x t ≠ 0 ∧ s.hash u = some (s.x t)
    rw [hholds, hx]
    constructor
    · rintro rfl
      exact ⟨hpos, ha⟩
    · exact fun hu => h.numbered.unique hu.2 ha
  case owned => exact fun _ => ⟨t, by rw [hx]; exact ha⟩
  case free => exact fun hz => absurd (hx.symm.trans hz) hpos
  case facts =>
    intro u
    show (Function.update s.pc t (.countRead op) u).Facts (s.hash u)
      (holds u (.exchanged t :: s.log)) s.count (depth u s.log) (lastCall u (.exchanged t :: s.log))
    by_cases hu : u = t
    · rw [hu, Function.update_self]
      exact ⟨holds_exchanged, by rw [h.free hzero, hdepth], by rw [hdepth]; decide, hop⟩
    · have hut : (Event.exchanged t).thread ≠ u := Ne.symm hu
      rw [Function.update_of_ne hu, holds_cons hut, lastCall_cons hut]
      exact h.facts u
  case tries => exact h.tries.cons (by simp)

/-- What a thread compares `m_Semaphore` to decides whether it holds the lock. -/
theorem Inv.holds_iff (h : Inv n s) (hid : s.hash t ≠ none) (hne : s.semaphore ≠ 0) :
    holds t s.log = true ↔ s.semaphore = s.x t := by
  obtain ⟨a, ha⟩ := Option.ne_none_iff_exists'.mp hid
  rw [h.owner, ha, State.x, ha]
  simp [hne, eq_comm]

theorem Inv.x_ne_zero (h : Inv n s) (hid : s.hash t ≠ none) : s.x t ≠ 0 := by
  obtain ⟨a, ha⟩ := Option.ne_none_iff_exists'.mp hid
  rw [State.x, ha]
  exact Nat.ne_of_gt (h.numbered.pos ha)

/-- The outermost `unlock` clears `m_Semaphore`. -/
theorem Inv.clear (h : Inv n s) (hheld : holds t s.log = true) (hcount : s.count = 0)
    (hdepth : depth t s.log = 1) :
    Inv n (({ s with semaphore := 0 }.record (.cleared t)).return t .unlock true) := by
  have hnone : ∀ u, holds u (.cleared t :: s.log) = false := by
    intro u
    by_cases hu : u = t
    · rw [hu, holds_cleared]
    · rw [holds_cons (e := .cleared t) (Ne.symm hu)]
      by_contra hhu
      exact hu (h.exclusive (by simpa using hhu) hheld)
  constructor
  case numbered => exact h.numbered.congr rfl rfl
  case owner =>
    intro u
    show holds u (.returned t .unlock true :: .cleared t :: s.log) = true ↔ _
    rw [holds_returned, hnone]
    simp [State.return, State.goto, State.record]
  case owned => exact fun hne => absurd rfl hne
  case free => exact fun _ => hcount
  case facts =>
    intro u
    show (Function.update s.pc t .idle u).Facts (s.hash u)
      (holds u (.returned t .unlock true :: .cleared t :: s.log)) s.count
      (depth u (.returned t .unlock true :: .cleared t :: s.log))
      (lastCall u (.returned t .unlock true :: .cleared t :: s.log))
    rw [holds_returned, hnone]
    by_cases hu : u = t
    · rw [hu, Function.update_self, depth_unlock, depth_cleared, hdepth]
      exact ⟨by simp, by simp, by decide⟩
    · have hfree : holds u s.log = false := by
        by_contra hhu
        exact hu (h.exclusive (by simpa using hhu) hheld)
      have hret : (Event.returned t .unlock true).thread ≠ u := Ne.symm hu
      have hclr : (Event.cleared t).thread ≠ u := Ne.symm hu
      have hold := h.facts u
      rw [hfree] at hold
      rw [Function.update_of_ne hu, depth_cons hret, depth_cons hclr, lastCall_cons hret,
        lastCall_cons hclr]
      exact hold
  case tries => exact (h.tries.cons (by simp)).cons (by simp)

/-- A call of `try_lock` that did not get the lock. -/
theorem Inv.fail (h : Inv n s) (hiff : holds t s.log = true ↔ 0 < depth t s.log)
    (hcount : holds t s.log = true → s.count = depth t s.log) (hlt : depth t s.log < 2 ^ 64)
    (hlast : ∀ e ∈ lastCall t s.log, e.writes = false) : Inv n (s.return t .tryLock false) := by
  refine h.keep (l := [.returned t .tryLock false]) (h.numbered.congr rfl rfl) id rfl
    (Or.inl rfl) rfl rfl (by simp [Event.thread]) rfl ?_ (h.tries.returned ?_)
  · show (Pc.idle).Facts _ _ s.count (depth t (.returned t .tryLock false :: s.log)) _
    rw [depth_tryLock_false]
    exact ⟨hiff, hcount, hlt⟩
  · simp only [Bool.false_eq_true, false_iff, not_exists, not_and]
    intro e he hw
    rw [hlast e he] at hw
    cases hw

/-- The holder writes `m_Count`. -/
theorem Inv.write {p : Pc} {c : Nat} (h : Inv n s) (hheld : holds t s.log = true)
    (hfacts : p.Facts (s.hash t) (holds t s.log) c (depth t s.log)
      (.counted t :: lastCall t s.log)) :
    Inv n ({ s.goto t p with count := c }.record (.counted t)) := by
  refine h.keep (l := [.counted t]) (h.numbered.congr rfl rfl) id rfl (Or.inr hheld) rfl rfl
    (by simp [Event.thread]) rfl ?_ (h.tries.cons (by simp))
  have hlast : lastCall t (.counted t :: s.log) = .counted t :: lastCall t s.log := if_pos rfl
  show p.Facts _ _ c (depth t (.counted t :: s.log)) (lastCall t (.counted t :: s.log))
  rw [depth_counted, hlast]
  exact hfacts

theorem Inv.threadStep (h : Inv n s) (hn : n < 2 ^ 64) (ht : t < n)
    (hs : threadStep s t = some s') : Inv n s' := by
  have hf := h.facts t
  cases hpc : s.pc t with
  | idle =>
      simp only [RecursiveSpinLock.threadStep, hpc] at hs
      cases hs
  | hash op =>
      simp only [RecursiveSpinLock.threadStep, hpc] at hs
      obtain rfl := Option.some.inj hs
      rw [hpc] at hf
      obtain ⟨hiff, hcount, hlt, hop, hlast⟩ := hf
      obtain ⟨hsem, hcnt, hpcs, hlog⟩ := getLocalHash_frame s t
      have hnum : ((getLocalHash s t).goto t (if op = .tryLock then .tryLoad
          else .lockLoad)).Numbered n := (h.numbered.getLocalHash hn ht).congr rfl rfl
      refine h.keep (l := []) hnum (getLocalHash_hash s t) hsem (Or.inl hcnt)
        (congrArg (Function.update · t _) hpcs) hlog (by simp) (congrArg (holds t) hlog) ?_
        (by rw [State.goto, hlog]; exact h.tries)
      have hid := getLocalHash_self s t
      simp only [State.goto, hcnt, hlog]
      split
      · exact ⟨hiff, hcount, hlt, hid, hlast⟩
      · exact ⟨hiff, hcount, hlt, hid, hlast⟩
  | lockLoad =>
      simp only [RecursiveSpinLock.threadStep, hpc] at hs
      obtain rfl := Option.some.inj hs
      rw [hpc] at hf
      obtain ⟨hiff, hcount, hlt, hid, hlast⟩ := hf
      refine h.goto ?_
      by_cases hx : s.semaphore = s.x t
      · -- a recursive `lock()`
        have hheld := (h.holds_iff hid (by rw [hx]; exact h.x_ne_zero hid)).mpr hx
        rw [if_pos hx]
        exact ⟨hheld, hcount hheld, hlt, by simp⟩
      · have hfree : holds t s.log = false := by
          by_contra hhu
          have hheld : holds t s.log = true := by simpa using hhu
          exact hx ((h.holds_iff hid ((h.owner t).mp hheld).1).mp hheld)
        rw [hfree] at hiff
        rw [if_neg hx]
        exact ⟨hfree, by simpa using hiff, hid, hlast⟩
  | lockExchange =>
      simp only [RecursiveSpinLock.threadStep, hpc] at hs
      rw [hpc] at hf
      split at hs
      case isTrue hz =>
        obtain rfl := Option.some.inj hs
        exact h.exchange (by simp) hz hf.2.2.1 hf.2.1
      case isFalse hz =>
        obtain rfl := Option.some.inj hs
        exact h.goto hf
  | lockSpin =>
      simp only [RecursiveSpinLock.threadStep, hpc] at hs
      obtain rfl := Option.some.inj hs
      rw [hpc] at hf
      split
      · exact h.goto hf
      · exact h
  | tryLoad =>
      simp only [RecursiveSpinLock.threadStep, hpc] at hs
      rw [hpc] at hf
      obtain ⟨hiff, hcount, hlt, hid, hlast⟩ := hf
      split at hs
      case isTrue hz =>
        obtain rfl := Option.some.inj hs
        have hfree : holds t s.log = false := by
          by_contra hhu
          exact ((h.owner t).mp (by simpa using hhu)).1 hz
        rw [hfree] at hiff
        exact h.goto ⟨hfree, by simpa using hiff, hid, hlast⟩
      case isFalse hz =>
        split at hs
        case isTrue hx =>
          obtain rfl := Option.some.inj hs
          have hheld := (h.holds_iff hid hz).mpr hx
          exact h.goto ⟨hheld, hcount hheld, hlt, by simp⟩
        case isFalse hx =>
          obtain rfl := Option.some.inj hs
          exact h.fail hiff hcount (by omega) hlast
  | tryExchange =>
      simp only [RecursiveSpinLock.threadStep, hpc] at hs
      rw [hpc] at hf
      obtain ⟨hfree, hdepth, hid, hlast⟩ := hf
      split at hs
      case isTrue hz =>
        obtain rfl := Option.some.inj hs
        exact h.exchange (by simp) hz hid hdepth
      case isFalse hz =>
        obtain rfl := Option.some.inj hs
        exact h.fail (by simp [hfree, hdepth]) (by simp [hfree]) (by omega) hlast
  | countRead op =>
      simp only [RecursiveSpinLock.threadStep, hpc] at hs
      obtain rfl := Option.some.inj hs
      rw [hpc] at hf
      obtain ⟨hheld, hcount, hlt, hop⟩ := hf
      exact h.goto ⟨hheld, hcount, hcount, hlt, hop⟩
  | countWrite op c =>
      simp only [RecursiveSpinLock.threadStep, hpc] at hs
      obtain rfl := Option.some.inj hs
      rw [hpc] at hf
      obtain ⟨hheld, hcount, rfl, hlt, hop⟩ := hf
      refine h.keep (l := [.returned t op true, .counted t]) (h.numbered.congr rfl rfl) id rfl
        (Or.inr hheld) rfl rfl (by simp [Event.thread]) rfl ?_
        ((h.tries.cons (by simp)).returned ?_)
      · show (Pc.idle).Facts _ _ (succ64 (depth t s.log))
          (depth t (.returned t op true :: .counted t :: s.log)) _
        rw [depth_acquired hop, depth_counted, succ64_of_lt hlt, hheld]
        exact ⟨by simp, fun _ => rfl, hlt⟩
      · simp [lastCall, Event.thread, Event.writes]
  | unlockRead =>
      simp only [RecursiveSpinLock.threadStep, hpc] at hs
      obtain rfl := Option.some.inj hs
      rw [hpc] at hf
      obtain ⟨hheld, hcount, hpos, hlt⟩ := hf
      exact h.goto ⟨hheld, hcount, hcount, hpos, hlt⟩
  | unlockWrite c =>
      simp only [RecursiveSpinLock.threadStep, hpc] at hs
      obtain rfl := Option.some.inj hs
      rw [hpc] at hf
      obtain ⟨hheld, hcount, rfl, hpos, hlt⟩ := hf
      have hsub : pred64 (depth t s.log) + 1 = depth t s.log := by
        rw [pred64_of_pos hpos hlt]
        omega
      exact h.write hheld ⟨hheld, hsub, hlt⟩
  | unlockTest =>
      simp only [RecursiveSpinLock.threadStep, hpc] at hs
      rw [hpc] at hf
      obtain ⟨hheld, hcount, hlt⟩ := hf
      split at hs
      case isTrue hz =>
        obtain rfl := Option.some.inj hs
        have hone : depth t s.log = 1 := by rw [← hcount, hz]
        exact h.goto ⟨hheld, hz, hone⟩
      case isFalse hz =>
        obtain rfl := Option.some.inj hs
        refine h.keep (l := [.returned t .unlock true]) (h.numbered.congr rfl rfl) id rfl
          (Or.inl rfl) rfl rfl (by simp [Event.thread]) rfl ?_ (h.tries.cons (by simp))
        show (Pc.idle).Facts _ _ s.count (depth t (.returned t .unlock true :: s.log)) _
        rw [depth_unlock, hheld]
        exact ⟨by simp; omega, fun _ => by omega, by omega⟩
  | unlockStore =>
      simp only [RecursiveSpinLock.threadStep, hpc] at hs
      obtain rfl := Option.some.inj hs
      rw [hpc] at hf
      exact h.clear hf.1 hf.2.1 hf.2.2

theorem Inv.step (h : Inv n s) (hn : n < 2 ^ 64) (ht : x.thread < n) (hd : s.Disciplined x)
    (hs : step s x = some s') : Inv n s' := by
  cases x with
  | call t op => exact h.call hd hs
  | next t => exact h.threadStep hn ht hs

/-- The holder, when it is not in an acquisition or a release. -/
theorem Inv.steady (h : Inv n s) (hheld : holds t s.log = true)
    (hout : (s.pc t).inProgress = false) : 0 < depth t s.log ∧ s.count = depth t s.log := by
  have hf := h.facts t
  cases hpc : s.pc t with
  | idle | hash | lockLoad | tryLoad =>
      rw [hpc] at hf
      exact ⟨hf.1.mp hheld, hf.2.1 hheld⟩
  | lockExchange | lockSpin | tryExchange =>
      rw [hpc] at hf
      rw [hf.1] at hheld
      cases hheld
  | countRead | countWrite | unlockRead | unlockWrite | unlockTest | unlockStore =>
      rw [hpc] at hout
      cases hout

theorem Inv.locked (h : Inv n s) : s.Locked where
  exclusive := h.exclusive
  held {t} hpos := by
    have hf := h.facts t
    cases hpc : s.pc t with
    | idle | hash | lockLoad | tryLoad =>
        rw [hpc] at hf
        exact hf.1.mpr hpos
    | lockExchange | lockSpin | tryExchange =>
        rw [hpc] at hf
        rw [hf.2.1] at hpos
        cases hpos
    | countRead | countWrite | unlockRead | unlockWrite | unlockTest | unlockStore =>
        rw [hpc] at hf
        exact hf.1
  depth_pos hheld hout := (h.steady hheld hout).1
  semaphore hheld := (h.owner _).mp hheld
  count hheld hout := (h.steady hheld hout).2
  free hnone := by
    have hz : s.semaphore = 0 := by
      by_contra hne
      obtain ⟨t, ht⟩ := h.owned hne
      have hheld := (h.owner t).mpr ⟨hne, ht⟩
      rw [hnone t] at hheld
      cases hheld
    exact ⟨hz, h.free hz⟩
  tryLock := h.tries

/-- The steps that leave `m_Semaphore` or the depth as it is free nothing. -/
theorem Respects.of_not_free (hguard : (s.pc t).touchesCount = true → holds t s.log = true)
    (hcount : (s.pc t).touchesCount = false → s'.count = s.count)
    (hrec : s'.semaphore ≠ s.semaphore ∨ s'.count ≠ s.count →
      ∃ es, s'.log = es ++ s.log ∧ ∃ e ∈ es, e.thread = t ∧ e.writes = true)
    (hsem : s'.semaphore = s.semaphore ∨ s'.semaphore ≠ 0)
    (hdepth : depth t s.log ≤ depth t s'.log ∨ depth t s.log ≠ 1) : Respects s (.next t) s' where
  guarded {u} hu := by
    cases hu
    exact hguard
  untouched hout := hcount (hout rfl)
  recorded := hrec
  frees := by
    constructor
    · rintro ⟨hne, hz⟩
      rcases hsem with hsem | hsem
      · exact absurd (hsem ▸ hz) hne
      · exact absurd hz hsem
    · rintro ⟨u, hu, hone, hzero⟩
      cases hu
      rcases hdepth with hle | hne
      · omega
      · exact absurd hone hne

theorem Respects.goto {p : Pc} (hguard : (s.pc t).touchesCount = true → holds t s.log = true) :
    Respects s (.next t) (s.goto t p) :=
  .of_not_free hguard (fun _ => rfl) (fun hne => absurd hne (by simp [State.goto])) (Or.inl rfl)
    (Or.inl (Nat.le_refl _))

theorem Respects.fail (hguard : (s.pc t).touchesCount = true → holds t s.log = true) :
    Respects s (.next t) (s.return t .tryLock false) :=
  .of_not_free hguard (fun _ => rfl)
    (fun hne => absurd hne (by simp [State.return, State.goto, State.record])) (Or.inl rfl)
    (Or.inl (Nat.le_of_eq depth_tryLock_false.symm))

theorem Respects.exchange {p : Pc}
    (hguard : (s.pc t).touchesCount = true → holds t s.log = true) (hx : s.x t ≠ 0) :
    Respects s (.next t)
      ({ s.goto t p with semaphore := s.x t }.record (.exchanged t)) :=
  .of_not_free hguard (fun _ => rfl)
    (fun _ => ⟨[.exchanged t], rfl, .exchanged t, by simp, rfl, rfl⟩) (Or.inr hx)
    (Or.inl (Nat.le_of_eq depth_exchanged.symm))

theorem Respects.write {p : Pc} {c : Nat} (hin : (s.pc t).touchesCount = true)
    (hheld : holds t s.log = true) :
    Respects s (.next t) ({ s.goto t p with count := c }.record (.counted t)) :=
  .of_not_free (fun _ => hheld) (fun hout => absurd hin (by simp [hout]))
    (fun _ => ⟨[.counted t], rfl, .counted t, by simp, rfl, rfl⟩) (Or.inl rfl)
    (Or.inl (Nat.le_of_eq depth_counted.symm))

theorem Inv.respects_next (h : Inv n s) (hs : RecursiveSpinLock.threadStep s t = some s') :
    Respects s (.next t) s' := by
  have hf := h.facts t
  cases hpc : s.pc t with
  | idle =>
      simp only [RecursiveSpinLock.threadStep, hpc] at hs
      cases hs
  | hash op =>
      simp only [RecursiveSpinLock.threadStep, hpc] at hs
      obtain rfl := Option.some.inj hs
      obtain ⟨hsem, hcnt, -, hlog⟩ := getLocalHash_frame s t
      refine .of_not_free (by simp [hpc, Pc.touchesCount]) (fun _ => hcnt)
        (fun hne => absurd hne (by simp [State.goto, hsem, hcnt])) (Or.inl hsem) (Or.inl ?_)
      simp [State.goto, hlog]
  | lockLoad =>
      simp only [RecursiveSpinLock.threadStep, hpc] at hs
      obtain rfl := Option.some.inj hs
      exact .goto (by simp [hpc, Pc.touchesCount])
  | lockSpin =>
      simp only [RecursiveSpinLock.threadStep, hpc] at hs
      obtain rfl := Option.some.inj hs
      split
      · exact .goto (by simp [hpc, Pc.touchesCount])
      · exact .of_not_free (by simp [hpc, Pc.touchesCount]) (fun _ => rfl) (by simp) (Or.inl rfl)
          (Or.inl (Nat.le_refl _))
  | lockExchange =>
      rw [hpc] at hf
      simp only [RecursiveSpinLock.threadStep, hpc] at hs
      split at hs
      · obtain rfl := Option.some.inj hs
        exact .exchange (by simp [hpc, Pc.touchesCount]) (h.x_ne_zero hf.2.2.1)
      · obtain rfl := Option.some.inj hs
        exact .goto (by simp [hpc, Pc.touchesCount])
  | tryLoad =>
      simp only [RecursiveSpinLock.threadStep, hpc] at hs
      split at hs
      · obtain rfl := Option.some.inj hs
        exact .goto (by simp [hpc, Pc.touchesCount])
      · split at hs
        · obtain rfl := Option.some.inj hs
          exact .goto (by simp [hpc, Pc.touchesCount])
        · obtain rfl := Option.some.inj hs
          exact .fail (by simp [hpc, Pc.touchesCount])
  | tryExchange =>
      rw [hpc] at hf
      simp only [RecursiveSpinLock.threadStep, hpc] at hs
      split at hs
      · obtain rfl := Option.some.inj hs
        exact .exchange (by simp [hpc, Pc.touchesCount]) (h.x_ne_zero hf.2.2.1)
      · obtain rfl := Option.some.inj hs
        exact .fail (by simp [hpc, Pc.touchesCount])
  | countRead op =>
      rw [hpc] at hf
      simp only [RecursiveSpinLock.threadStep, hpc] at hs
      obtain rfl := Option.some.inj hs
      exact .goto (fun _ => hf.1)
  | countWrite op c =>
      rw [hpc] at hf
      simp only [RecursiveSpinLock.threadStep, hpc] at hs
      obtain rfl := Option.some.inj hs
      refine .of_not_free (fun _ => hf.1) (by simp [hpc, Pc.touchesCount])
        (fun _ => ⟨[.returned t op true, .counted t], rfl, .counted t, by simp, rfl, rfl⟩)
        (Or.inl rfl) (Or.inl ?_)
      show _ ≤ depth t (.returned t op true :: .counted t :: s.log)
      rw [depth_acquired hf.2.2.2.2, depth_counted]
      exact Nat.le_succ _
  | unlockRead =>
      rw [hpc] at hf
      simp only [RecursiveSpinLock.threadStep, hpc] at hs
      obtain rfl := Option.some.inj hs
      exact .goto (fun _ => hf.1)
  | unlockWrite c =>
      rw [hpc] at hf
      simp only [RecursiveSpinLock.threadStep, hpc] at hs
      obtain rfl := Option.some.inj hs
      exact .write (by simp [hpc, Pc.touchesCount]) hf.1
  | unlockTest =>
      rw [hpc] at hf
      simp only [RecursiveSpinLock.threadStep, hpc] at hs
      split at hs
      · obtain rfl := Option.some.inj hs
        exact .goto (fun _ => hf.1)
      · obtain rfl := Option.some.inj hs
        refine .of_not_free (fun _ => hf.1) (fun _ => rfl) (fun hne => absurd hne (by
          simp [State.return, State.goto, State.record])) (Or.inl rfl) (Or.inr fun hone => ?_)
        -- the count, which is one less than the depth, was not zero
        have hcount := hf.2.1
        omega
  | unlockStore =>
      rw [hpc] at hf
      simp only [RecursiveSpinLock.threadStep, hpc] at hs
      obtain rfl := Option.some.inj hs
      refine ⟨fun hu _ => ?_, fun _ => rfl, fun _ => ?_, ?_⟩
      · cases hu
        exact hf.1
      · exact ⟨[.returned t .unlock true, .cleared t], rfl, .cleared t, by simp, rfl, rfl⟩
      · refine ⟨fun _ => ⟨t, rfl, hf.2.2, ?_⟩, fun _ => ⟨((h.owner t).mp hf.1).1, rfl⟩⟩
        show depth t (.returned t .unlock true :: .cleared t :: s.log) = 0
        rw [depth_unlock, depth_cleared, hf.2.2]

theorem Inv.respects (h : Inv n s) (hs : RecursiveSpinLock.step s x = some s') :
    Respects s x s' := by
  cases x with
  | next t => exact h.respects_next hs
  | call t op =>
      simp only [RecursiveSpinLock.step] at hs
      split at hs
      case isFalse => cases hs
      case isTrue hpc =>
        obtain rfl := Option.some.inj hs
        refine ⟨by simp, fun _ => rfl, fun hne => absurd hne (by simp [State.goto, State.record]),
          ⟨?_, by simp⟩⟩
        rintro ⟨hne, hz⟩
        exact absurd hz hne

end Steps

/-- **`RecursiveSpinLock` is a re-entrant mutex.** Take a run of fewer than `2 ^ 64` threads in
which a thread calls `unlock` only as often as it acquired the lock, and no thread nests
`2 ^ 64` times. All its states are as a mutex should be, and all its steps respect the holder. -/
theorem mutex_correct {n : Nat} {s : State} {tr : List (State × Action)} (hn : n < 2 ^ 64)
    (h : Transition.Run step init tr s) (ht : ∀ p ∈ tr, p.2.thread < n)
    (hd : ∀ p ∈ tr, p.1.Disciplined p.2) :
    (∀ x ∈ Transition.visited tr s, x.Locked) ∧
      ∀ p ∈ tr, ∀ s', step p.1 p.2 = some s' → Respects p.1 p.2 s' := by
  have hinv : ∀ x ∈ Transition.visited tr s, Inv n x := h.invariant_visited
    (C := fun s x => x.thread < n ∧ s.Disciplined x) (init_inv n)
    (fun hI hC hs => hI.step hn hC.1 hC.2 hs) (fun p hp => ⟨ht p hp, hd p hp⟩)
  refine ⟨fun x hx => (hinv x hx).locked, fun p hp s' hs => ?_⟩
  have hmem : p.1 ∈ Transition.visited tr s := List.mem_cons_of_mem _ (List.mem_map_of_mem hp)
  exact (hinv p.1 hmem).respects hs

/-- Thread `0` locks twice, `try_lock` of thread `1` fails, and gets the lock after thread `0`
unlocked twice. -/
theorem mutex_correct_two : ∃ tr s, Transition.Run step init tr s ∧
    .returned 1 .tryLock false ∈ s.log ∧ .returned 1 .tryLock true ∈ s.log ∧
    (∀ x ∈ Transition.visited tr s, x.Locked) ∧
      ∀ p ∈ tr, ∀ s', step p.1 p.2 = some s' → Respects p.1 p.2 s' := by
  have hexec : ((Transition.exec step (fun s x => x.thread < 2 ∧ s.Disciplined x) init
      ([Action.call 0 .lock] ++ List.replicate 5 (.next 0) ++ [Action.call 0 .lock] ++
        List.replicate 4 (.next 0) ++ [Action.call 1 .tryLock, .next 1, .next 1] ++
        [Action.call 0 .unlock, .next 0, .next 0, .next 0] ++
        [Action.call 0 .unlock, .next 0, .next 0, .next 0, .next 0] ++
        [Action.call 1 .tryLock] ++ List.replicate 5 (.next 1))).any fun s =>
      decide (.returned 1 .tryLock false ∈ s.log ∧ .returned 1 .tryLock true ∈ s.log)) = true := by
    decide
  obtain ⟨tr, s, hrun, -, hx, hs⟩ := Transition.exists_run_of_exec hexec
  obtain ⟨hfail, hok⟩ := of_decide_eq_true hs
  exact ⟨tr, s, hrun, hfail, hok, mutex_correct (n := 2) (by decide) hrun
    (fun p hp => (hx p hp).1) (fun p hp => (hx p hp).2)⟩

end Bop.RecursiveSpinLock
