import Mathlib.Data.Set.Finite.Lemmas
import Mathlib.Logic.Relation
import Sop2.Support.Runs

/-!
# Support — RobustMutex

Processes over shared data, robust mutexes and a program: at each place a process locks or
unlocks a mutex, declares one consistent, works on the shared data, dies, or has ended.

A mutex whose owner dies is handed to the next process that locks it, which is told so; one that
is unlocked before it has been declared consistent can never be locked again.

* `Disciplined.reaches`: if at every place the program says which mutexes are held, and how, and
  each operation changes that as it should, then in every reachable state the mutexes agree with
  the places of the processes, and no mutex has become unrecoverable.
* `Ordered.acyclic`: if mutexes are only locked in increasing order, no processes wait for one
  another in a circle; `Ordered.progress`: and while some process has not ended, one can step.
-/

namespace Support.Robust

/-- The state of a robust mutex. -/
inductive Mutex (P : Type*) where
  | unlocked
  | locked (p : P)
  /-- Locked by `p` after its owner had died, and not yet declared consistent. -/
  | inconsistent (p : P)
  | ownerDead
  | notRecoverable
  deriving DecidableEq

/-- How a process holds a mutex. -/
inductive Mode where
  | consistent
  | inconsistent
  deriving DecidableEq

/-- What a process does at a place: `K` are the mutexes, `D` the shared data, `Q` the places and
`L` what can be seen of an action. -/
inductive Op (K D Q L : Type*) where
  /-- `pthread_mutex_lock`; it goes on at `ownerDead` when that is what it returns. -/
  | lock (k : K) (ok ownerDead : Q)
  | unlock (k : K) (next : Q)
  /-- `pthread_mutex_consistent`. -/
  | consistent (k : K) (next : Q)
  | act (rel : D → Option L → D → Q → Prop)
  /-- The process dies. -/
  | abort (next : Q)
  | halt

structure State (P K D Q : Type*) where
  data : D
  table : K → Mutex P
  pc : P → Q

variable {P K D Q L : Type*}

namespace Mutex

variable [DecidableEq P]

/-- The process that has the mutex locked. -/
def owner : Mutex P → Option P
  | .locked p | .inconsistent p => some p
  | _ => none

/-- How `p` holds the mutex. -/
def mode (p : P) : Mutex P → Option Mode
  | .locked q => if q = p then some .consistent else none
  | .inconsistent q => if q = p then some .inconsistent else none
  | _ => none

/-- `pthread_mutex_unlock` by the owner. -/
def unlock : Mutex P → Mutex P
  | .locked _ => .unlocked
  | .inconsistent _ => .notRecoverable
  | m => m

/-- `pthread_mutex_consistent`. -/
def consistent : Mutex P → Mutex P
  | .inconsistent p => .locked p
  | m => m

/-- The death of `p`. -/
def die (p : P) (m : Mutex P) : Mutex P := if m.owner = some p then .ownerDead else m

@[simp] theorem mode_unlocked (p : P) : (.unlocked : Mutex P).mode p = none := rfl

@[simp] theorem mode_ownerDead (p : P) : (.ownerDead : Mutex P).mode p = none := rfl

@[simp] theorem mode_notRecoverable (p : P) : (.notRecoverable : Mutex P).mode p = none := rfl

@[simp] theorem mode_locked_self (p : P) : (.locked p : Mutex P).mode p = some .consistent :=
  if_pos rfl

@[simp] theorem mode_inconsistent_self (p : P) :
    (.inconsistent p : Mutex P).mode p = some .inconsistent :=
  if_pos rfl

theorem mode_locked_of_ne {p q : P} (h : p ≠ q) : (.locked p : Mutex P).mode q = none :=
  if_neg h

theorem mode_inconsistent_of_ne {p q : P} (h : p ≠ q) :
    (.inconsistent p : Mutex P).mode q = none :=
  if_neg h

theorem die_of_owner {m : Mutex P} {p : P} (h : m.owner = some p) : m.die p = .ownerDead :=
  if_pos h

theorem die_of_ne {m : Mutex P} {p : P} (h : m.owner ≠ some p) : m.die p = m :=
  if_neg h

theorem mode_eq_consistent {m : Mutex P} {p : P} : m.mode p = some .consistent ↔ m = .locked p := by
  cases m with
  | locked q | inconsistent q =>
      by_cases h : q = p <;> simp [mode_locked_of_ne, mode_inconsistent_of_ne, h]
  | unlocked | ownerDead | notRecoverable => simp

theorem mode_eq_inconsistent {m : Mutex P} {p : P} :
    m.mode p = some .inconsistent ↔ m = .inconsistent p := by
  cases m with
  | locked q | inconsistent q =>
      by_cases h : q = p <;> simp [mode_locked_of_ne, mode_inconsistent_of_ne, h]
  | unlocked | ownerDead | notRecoverable => simp

theorem owner_eq_some {m : Mutex P} {p : P} : m.owner = some p ↔ m.mode p ≠ none := by
  cases m with
  | locked q | inconsistent q =>
      by_cases h : q = p <;> simp [mode_locked_of_ne, mode_inconsistent_of_ne, owner, h]
  | unlocked | ownerDead | notRecoverable => simp [owner]

theorem die_mode_self (m : Mutex P) (p : P) : (m.die p).mode p = none := by
  by_cases h : m.owner = some p
  · rw [die_of_owner h, mode_ownerDead]
  · rw [die_of_ne h]
    exact not_not.mp fun hm => h (owner_eq_some.mpr hm)

theorem die_mode_of_ne (m : Mutex P) {p q : P} (h : q ≠ p) : (m.die p).mode q = m.mode q := by
  by_cases hm : m.owner = some p
  · rw [die_of_owner hm, mode_ownerDead, eq_comm]
    refine not_not.mp fun hq => h ?_
    have := owner_eq_some.mpr hq
    rw [hm] at this
    exact (Option.some.inj this).symm
  · rw [die_of_ne hm]

end Mutex

/-! ### The steps -/

variable [DecidableEq P] [DecidableEq K]

/-- One step of one process; the label is who took it and what can be seen of it. -/
inductive Step (op : Q → Op K D Q L) : State P K D Q → P × Option L → State P K D Q → Prop where
  | lock {s : State P K D Q} (p : P) (k : K) (ok od : Q) (h : op (s.pc p) = .lock k ok od)
      (hk : s.table k = .unlocked) :
      Step op s (p, none)
        ⟨s.data, Function.update s.table k (.locked p), Function.update s.pc p ok⟩
  | lockOwnerDead {s : State P K D Q} (p : P) (k : K) (ok od : Q)
      (h : op (s.pc p) = .lock k ok od) (hk : s.table k = .ownerDead) :
      Step op s (p, none)
        ⟨s.data, Function.update s.table k (.inconsistent p), Function.update s.pc p od⟩
  | lockNotRecoverable {s : State P K D Q} (p : P) (k : K) (ok od : Q)
      (h : op (s.pc p) = .lock k ok od) (hk : s.table k = .notRecoverable) :
      Step op s (p, none) ⟨s.data, s.table, Function.update s.pc p ok⟩
  | unlock {s : State P K D Q} (p : P) (k : K) (next : Q) (h : op (s.pc p) = .unlock k next) :
      Step op s (p, none)
        ⟨s.data, Function.update s.table k (s.table k).unlock, Function.update s.pc p next⟩
  | consistent {s : State P K D Q} (p : P) (k : K) (next : Q)
      (h : op (s.pc p) = .consistent k next) :
      Step op s (p, none)
        ⟨s.data, Function.update s.table k (s.table k).consistent, Function.update s.pc p next⟩
  | act {s : State P K D Q} (p : P) (rel : D → Option L → D → Q → Prop) (l : Option L) (d : D)
      (next : Q) (h : op (s.pc p) = .act rel) (hr : rel s.data l d next) :
      Step op s (p, l) ⟨d, s.table, Function.update s.pc p next⟩
  | abort {s : State P K D Q} (p : P) (next : Q) (h : op (s.pc p) = .abort next) :
      Step op s (p, none)
        ⟨s.data, fun k => (s.table k).die p, Function.update s.pc p next⟩

/-- Who steps has not ended. -/
theorem Step.ne_halt {op : Q → Op K D Q L} {s t : State P K D Q} {l : P × Option L}
    (h : Step op s l t) : op (s.pc l.1) ≠ .halt := by
  cases h with
  | lock p k ok od h | lockOwnerDead p k ok od h | lockNotRecoverable p k ok od h
  | unlock p k next h | consistent p k next h | act p rel l d next h | abort p next h =>
      rw [h]; simp

/-- Where an operation can lead, and what it does to the shared data. -/
def Op.Goes (d : D) (l : Option L) (d' : D) (q : Q) : Op K D Q L → Prop
  | .lock _ ok od => l = none ∧ d' = d ∧ (q = ok ∨ q = od)
  | .unlock _ next | .consistent _ next | .abort next => l = none ∧ d' = d ∧ q = next
  | .act rel => rel d l d' q
  | .halt => False

/-- What a step does to the shared data and to the places of the processes. -/
theorem Step.goes {op : Q → Op K D Q L} {s t : State P K D Q} {l : P × Option L}
    (h : Step op s l t) :
    ∃ q, t.pc = Function.update s.pc l.1 q ∧ (op (s.pc l.1)).Goes s.data l.2 t.data q := by
  cases h with
  | lock p k ok od h => exact ⟨ok, rfl, by rw [h]; exact ⟨rfl, rfl, .inl rfl⟩⟩
  | lockOwnerDead p k ok od h => exact ⟨od, rfl, by rw [h]; exact ⟨rfl, rfl, .inr rfl⟩⟩
  | lockNotRecoverable p k ok od h => exact ⟨ok, rfl, by rw [h]; exact ⟨rfl, rfl, .inl rfl⟩⟩
  | unlock p k next h | consistent p k next h | abort p next h =>
      exact ⟨next, rfl, by rw [h]; exact ⟨rfl, rfl, rfl⟩⟩
  | act p rel l d next h hr => exact ⟨next, rfl, by rw [h]; exact hr⟩

/-- Only one process moves. -/
theorem moved {pc pc' : P → Q} {p : P} {q : Q} (h : pc' = Function.update pc p q) (r : P) :
    (r = p ∧ pc' r = q) ∨ (r ≠ p ∧ pc' r = pc r) := by
  subst h
  by_cases hr : r = p
  · exact .inl ⟨hr, by rw [hr, Function.update_self]⟩
  · exact .inr ⟨hr, Function.update_of_ne hr ..⟩

/-- The other processes stay where they are. -/
theorem Step.stays {op : Q → Op K D Q L} {s t : State P K D Q} {l : P × Option L}
    (h : Step op s l t) {r : P} (hr : r ≠ l.1) : t.pc r = s.pc r := by
  obtain ⟨q, hpc, -⟩ := h.goes
  exact ((moved hpc r).resolve_left fun e => hr e.1).2

/-! ### Which mutexes are held at a place -/

/-- The operation keeps `mode`, from a place where the mutexes `h` are held: it locks a mutex that
is not held, and only unlocks one that is held and consistent.  Only the mutexes `risky` are held
at a death, so only these need to be declared consistent. -/
def Op.Keeps (mode : Q → K → Option Mode) (risky : K → Prop) (h : K → Option Mode) :
    Op K D Q L → Prop
  | .lock k ok od => h k = none ∧ mode ok = Function.update h k (some .consistent) ∧
      (risky k → mode od = Function.update h k (some .inconsistent))
  | .unlock k next => h k = some .consistent ∧ mode next = Function.update h k none
  | .consistent k next =>
      h k = some .inconsistent ∧ mode next = Function.update h k (some .consistent)
  | .act rel => ∀ d l d' next, rel d l d' next → mode next = h
  | .abort next => mode next = (fun _ => none) ∧ ∀ k, h k ≠ none → risky k
  | .halt => h = fun _ => none

/-- Every operation of the program keeps `mode`. -/
def Keeps (op : Q → Op K D Q L) (mode : Q → K → Option Mode) (risky : K → Prop) : Prop :=
  ∀ q, (op q).Keeps mode risky (mode q)

/-- The mutexes are as the places of the processes say. -/
structure Disciplined (mode : Q → K → Option Mode) (risky : K → Prop) (s : State P K D Q) :
    Prop where
  mode : ∀ p k, (s.table k).mode p = mode (s.pc p) k
  recoverable : ∀ k, s.table k ≠ .notRecoverable
  risky : ∀ k, s.table k = .ownerDead → risky k

variable {mode : Q → K → Option Mode} {risky : K → Prop} {op : Q → Op K D Q L}
  {s t : State P K D Q}

/-- One process changes one mutex, and moves to a place that says so. -/
theorem Disciplined.update (hs : Disciplined mode risky s) {p : P} {k : K} {m : Mutex P} {next : Q}
    (d : D) (hm : m ≠ .notRecoverable) (hd : m = .ownerDead → risky k)
    (hp : mode next = Function.update (mode (s.pc p)) k (m.mode p))
    (ho : ∀ q, q ≠ p → m.mode q = (s.table k).mode q) :
    Disciplined mode risky ⟨d, Function.update s.table k m, Function.update s.pc p next⟩ := by
  refine ⟨fun q k' => ?_, fun k' => ?_, fun k' => ?_⟩
  · by_cases hq : q = p
    · subst hq
      dsimp only
      rw [Function.update_self, hp]
      by_cases hk : k' = k
      · subst hk; simp
      · simp [hk, hs.mode]
    · dsimp only
      rw [Function.update_of_ne hq, ← hs.mode]
      by_cases hk : k' = k
      · subst hk; simp [ho q hq]
      · simp [hk]
  · by_cases hk : k' = k
    · subst hk; simpa using hm
    · simpa [hk] using hs.recoverable k'
  · by_cases hk : k' = k
    · subst hk; simpa using hd
    · simpa [hk] using hs.risky k'

omit [DecidableEq K] in
/-- One process moves to a place where the same mutexes are held. -/
theorem Disciplined.move (hs : Disciplined mode risky s) {p : P} {next : Q} (d : D)
    (hp : mode next = mode (s.pc p)) :
    Disciplined mode risky ⟨d, s.table, Function.update s.pc p next⟩ := by
  refine ⟨fun q k => ?_, hs.recoverable, hs.risky⟩
  by_cases hq : q = p
  · subst hq; simp [hp, hs.mode]
  · simp [hq, hs.mode]

/-- One step keeps the discipline. -/
theorem Disciplined.step (ho : Keeps op mode risky) (hs : Disciplined mode risky s)
    {l : P × Option L} (h : Step op s l t) : Disciplined mode risky t := by
  cases h with
  | lock p k ok od h hk =>
      have hop := ho (s.pc p)
      rw [h] at hop
      obtain ⟨-, hok, -⟩ := hop
      refine hs.update s.data (by simp) (by simp) (by simpa using hok) fun q hq => ?_
      rw [hk, Mutex.mode_locked_of_ne (Ne.symm hq), Mutex.mode_unlocked]
  | lockOwnerDead p k ok od h hk =>
      have hop := ho (s.pc p)
      rw [h] at hop
      obtain ⟨-, -, hod⟩ := hop
      refine hs.update s.data (by simp) (by simp) (by simpa using hod (hs.risky k hk))
        fun q hq => ?_
      rw [hk, Mutex.mode_inconsistent_of_ne (Ne.symm hq), Mutex.mode_ownerDead]
  | lockNotRecoverable p k ok od h hk => exact absurd hk (hs.recoverable k)
  | unlock p k next h =>
      have hop := ho (s.pc p)
      rw [h] at hop
      obtain ⟨hh, hnext⟩ := hop
      rw [← hs.mode] at hh
      have hk := Mutex.mode_eq_consistent.mp hh
      rw [hk]
      refine hs.update s.data (by simp [Mutex.unlock]) (by simp [Mutex.unlock])
        (by simpa [Mutex.unlock] using hnext) fun q hq => ?_
      rw [hk, Mutex.mode_locked_of_ne (Ne.symm hq)]
      rfl
  | consistent p k next h =>
      have hop := ho (s.pc p)
      rw [h] at hop
      obtain ⟨hh, hnext⟩ := hop
      rw [← hs.mode] at hh
      have hk := Mutex.mode_eq_inconsistent.mp hh
      rw [hk]
      refine hs.update s.data (by simp [Mutex.consistent]) (by simp [Mutex.consistent])
        (by simpa [Mutex.consistent] using hnext) fun q hq => ?_
      rw [hk, Mutex.mode_inconsistent_of_ne (Ne.symm hq)]
      exact Mutex.mode_locked_of_ne (Ne.symm hq)
  | act p rel l d next h hr =>
      have hop := ho (s.pc p)
      rw [h] at hop
      exact hs.move d (hop _ _ _ _ hr)
  | abort p next h =>
      have hop := ho (s.pc p)
      rw [h] at hop
      obtain ⟨hnext, hrisky⟩ := hop
      refine ⟨fun q k => ?_, fun k hk => ?_, fun k hk => ?_⟩
      · dsimp only
        by_cases hq : q = p
        · subst hq
          rw [Function.update_self, hnext, Mutex.die_mode_self]
        · rw [Function.update_of_ne hq, ← hs.mode, Mutex.die_mode_of_ne _ hq]
      · dsimp only at hk
        by_cases hp : (s.table k).owner = some p
        · rw [Mutex.die_of_owner hp] at hk
          cases hk
        · rw [Mutex.die_of_ne hp] at hk
          exact hs.recoverable k hk
      · dsimp only at hk
        by_cases hp : (s.table k).owner = some p
        · refine hrisky k ?_
          rw [← hs.mode]
          exact Mutex.owner_eq_some.mp hp
        · rw [Mutex.die_of_ne hp] at hk
          exact hs.risky k hk

/-- The discipline is kept in every reachable state; in particular every mutex can be locked
again. -/
theorem Disciplined.reaches (ho : Keeps op mode risky) (hs : Disciplined mode risky s)
    (h : Reaches (Step op) s t) : Disciplined mode risky t := by
  obtain ⟨tr, r⟩ := h
  exact r.invariant (fun hs h => hs.step ho h) hs

omit [DecidableEq K] in
/-- With every process at a place where nothing is held, and every mutex unlocked. -/
theorem disciplined_start (h : ∀ p, mode (s.pc p) = fun _ => none)
    (ht : ∀ k, s.table k = .unlocked) : Disciplined mode risky s where
  mode p k := by rw [h, ht]; rfl
  recoverable k := by rw [ht]; simp
  risky k hk := by rw [ht] at hk; cases hk

/-! ### No deadlock -/

/-- `p` is about to lock a mutex that `q` has locked. -/
def WaitsFor (op : Q → Op K D Q L) (s : State P K D Q) (p q : P) : Prop :=
  ∃ k ok od, op (s.pc p) = .lock k ok od ∧ (s.table k).owner = some q

/-- The operation locks a mutex that comes after those that are held, and always has a way to go
on. -/
def Op.Ordered (rank : K → ℕ) (h : K → Option Mode) : Op K D Q L → Prop
  | .lock k _ _ => ∀ k', h k' ≠ none → rank k' < rank k
  | .act rel => ∀ d, ∃ l d' next, rel d l d' next
  | _ => True

/-- Every operation of the program is ordered. -/
def Ordered (op : Q → Op K D Q L) (mode : Q → K → Option Mode) (rank : K → ℕ) : Prop :=
  ∀ q, (op q).Ordered rank (mode q)

variable {rank : K → ℕ}

omit [DecidableEq K] in
/-- A process that has a mutex locked waits only for later ones. -/
theorem Ordered.rank_lt (hr : Ordered op mode rank) (hs : Disciplined mode risky s) {q : P}
    {k k' : K} {ok od : Q} (hq : op (s.pc q) = .lock k' ok od)
    (hk : (s.table k).owner = some q) : rank k < rank k' := by
  have hop := hr (s.pc q)
  rw [hq] at hop
  refine hop k ?_
  rw [← hs.mode]
  exact Mutex.owner_eq_some.mp hk

omit [DecidableEq K] in
/-- Along a chain of waiting processes the mutexes come later and later. -/
theorem Ordered.chain (hr : Ordered op mode rank) (hs : Disciplined mode risky s) {p q : P}
    (h : Relation.TransGen (WaitsFor op s) p q) :
    ∃ k ok od k', op (s.pc p) = .lock k ok od ∧ (s.table k').owner = some q ∧
      rank k ≤ rank k' := by
  induction h with
  | single h =>
      obtain ⟨k, ok, od, hop, hk⟩ := h
      exact ⟨k, ok, od, k, hop, hk, le_rfl⟩
  | tail _ h ih =>
      obtain ⟨k, ok, od, k₁, hop, hk₁, hle⟩ := ih
      -- the owner of `k₁` is about to lock `k₂`, which comes later
      obtain ⟨k₂, ok₂, od₂, hop₂, hk₂⟩ := h
      exact ⟨k, ok, od, k₂, hop, hk₂, hle.trans (hr.rank_lt hs hop₂ hk₁).le⟩

omit [DecidableEq K] in
/-- **No circle of waiting processes.** -/
theorem Ordered.acyclic (hr : Ordered op mode rank) (hs : Disciplined mode risky s) (p : P) :
    ¬ Relation.TransGen (WaitsFor op s) p p := by
  intro h
  obtain ⟨k, ok, od, k', hop, hk', hle⟩ := hr.chain hs h
  exact absurd (hr.rank_lt hs hop hk') (Nat.not_lt.mpr hle)

/-- A process that has not ended can step, or waits for one that has not ended either. -/
theorem Ordered.step_or_waits (ho : Keeps op mode risky) (hr : Ordered op mode rank)
    (hs : Disciplined mode risky s) {p : P} (hp : op (s.pc p) ≠ .halt) :
    (∃ l t, Step op s (p, l) t) ∨ ∃ q, WaitsFor op s p q ∧ op (s.pc q) ≠ .halt := by
  cases hop : op (s.pc p) with
  | lock k ok od =>
      cases hk : s.table k with
      | unlocked => exact .inl ⟨_, _, .lock p k ok od hop hk⟩
      | ownerDead => exact .inl ⟨_, _, .lockOwnerDead p k ok od hop hk⟩
      | notRecoverable => exact absurd hk (hs.recoverable k)
      | locked q | inconsistent q =>
          right
          have hown : (s.table k).owner = some q := by rw [hk]; rfl
          refine ⟨q, ⟨k, ok, od, hop, hown⟩, fun hq => ?_⟩
          -- a process that has ended holds nothing
          have hhalt := ho (s.pc q)
          rw [hq] at hhalt
          have hheld := Mutex.owner_eq_some.mp hown
          rw [hs.mode, show mode (s.pc q) = _ from hhalt] at hheld
          exact hheld rfl
  | unlock k next => exact .inl ⟨_, _, .unlock p k next hop⟩
  | consistent k next => exact .inl ⟨_, _, .consistent p k next hop⟩
  | act rel =>
      have henabled := hr (s.pc p)
      rw [hop] at henabled
      obtain ⟨l, d, next, hrel⟩ := henabled s.data
      exact .inl ⟨_, _, .act p rel l d next hop hrel⟩
  | abort next => exact .inl ⟨_, _, .abort p next hop⟩
  | halt => exact absurd hop hp

/-- The rank of the mutex a process is about to lock. -/
def wanted (op : Q → Op K D Q L) (rank : K → ℕ) (q : Q) : ℕ :=
  match op q with
  | .lock k _ _ => rank k
  | _ => 0

/-- **Some process can step**, while some process has not ended: of those that have not, one that
is about to lock the latest mutex. -/
theorem Ordered.progress [Finite P] (ho : Keeps op mode risky) (hr : Ordered op mode rank)
    (hs : Disciplined mode risky s) (hp : ∃ p, op (s.pc p) ≠ .halt) :
    ∃ p l t, Step op s (p, l) t := by
  obtain ⟨p, hp, hmax⟩ := Set.exists_max_image {p | op (s.pc p) ≠ .halt}
    (fun p => wanted op rank (s.pc p)) (Set.toFinite _) hp
  rcases hr.step_or_waits ho hs hp with ⟨l, t, h⟩ | ⟨q, ⟨k, ok, od, hop, hk⟩, hq⟩
  · exact ⟨p, l, t, h⟩
  · -- `q` has locked what `p` wants, so it would be about to lock a later one
    rcases hr.step_or_waits ho hs hq with ⟨l, t, h⟩ | ⟨_, ⟨k', ok', od', hop', -⟩, -⟩
    · exact ⟨q, l, t, h⟩
    · have hlt := hr.rank_lt hs hop' hk
      have hle := hmax q hq
      simp only [wanted, hop, hop'] at hle
      exact absurd hlt (Nat.not_lt.mpr hle)

end Support.Robust
