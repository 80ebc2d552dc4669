import Mathlib.Logic.Function.Basic
import Sop2.Support.Int32
import Sop2.Support.RobustMutex

/-!
# Lab06 — Calka — the program

`lab06/calka/calka.c` as a program over `Support.RobustMutex`: any number of processes that share
one segment, from its creation on.  The places of a process are those of `main`; the four sections
under `mxprocCount` are one, with its `Site`.

`random_death_lock` kills a process only after it got the mutex as it should be, so a process
dies at `dying` and `resDying` only, with what it holds there.  A process that finds no segment,
or one with other bounds, has nothing to do with this one: it ends at `refused`.  What the
destroyed mutexes would do to a process that still uses them is left open: they stay as they are.

`op_keeps`: which mutexes are held at a place.  `disciplined`: no mutex ever becomes
unrecoverable.
-/

namespace Sop2.Calka
open Support Support.Robust

/-- `mxprocCount` and `mxResults`. -/
inductive Mx where
  | procCount
  | results
  deriving DecidableEq

/-- `shared_data_t`, without the mutexes and the bounds; whether the name of the segment is still
linked; and the semaphore.  The results are of type `int`, and wrap. -/
structure Shared where
  procCount : Int
  total : Int
  hits : Int
  linked : Bool
  sem : Nat

/-- The places where `mxprocCount` is locked: lines 200, 214, 228 (with the batch that waits to be
merged) and 247. -/
inductive Site where
  | join
  | print
  | nested (i : Nat) (hits : Int)
  | finish
  deriving DecidableEq

/-- Where a process is in `main`. -/
inductive Place where
  | outside
  | create
  | openRw
  | map
  /-- The bounds are the same; before `sem_post`. -/
  | post
  /-- There is no such segment, or the bounds differ; before `sem_post`. -/
  | refused
  /-- The segment was created by this process; before `sem_post`. -/
  | created
  | lock (k : Site)
  | locked (k : Site)
  | dying (k : Site)
  /-- `EOWNERDEAD`, before `pthread_mutex_consistent`. -/
  | ownerDead (k : Site)
  | repair (k : Site)
  | body (k : Site)
  /-- `seen` is what was read of `procCount`. -/
  | unlock (k : Site) (seen : Int)
  | loop (i : Nat)
  | resLock (i : Nat) (hits : Int)
  | resLocked (i : Nat) (hits : Int)
  | resDying
  | resOwnerDead (i : Nat) (hits : Int)
  | addTotal (i : Nat) (hits : Int)
  | addHits (i : Nat) (hits : Int)
  | resUnlock (i : Nat)
  | summary
  | destroy
  | unlink
  | left
  | tornDown
  | exited
  | dead
  deriving DecidableEq

/-- A process: its argument `N`, and its place. -/
structure Proc where
  n : Int
  place : Place
  deriving DecidableEq

/-- What can be seen of an action. -/
inductive Event where
  /-- The hits of the batch `i`, before they are merged. -/
  | computed (i : Nat) (hits : Int)
  | addTotal (i : Nat)
  | addHits (i : Nat) (hits : Int)
  | printed (total hits : Int)
  deriving DecidableEq

/-- The section under `mxprocCount`: the counter after it, and what is read of it. -/
def Site.section (k : Site) (procCount : Int) : Int × Int :=
  match k with
  | .join => (procCount + 1, 0)
  | .print => (procCount, procCount)
  | .nested _ _ => (procCount - 1, 0)
  | .finish => (procCount - 1, procCount - 1)

/-- Where a process goes on from the section. -/
def Site.next (k : Site) (seen : Int) : Place :=
  match k with
  | .join => .lock .print
  | .print => .loop 0
  | .nested i hits => .addTotal i hits
  | .finish => if seen = 0 then .summary else .left

/-- `main`. -/
def op (c : Proc) : Op Mx Shared Proc Event :=
  let go (q : Place) : Proc := ⟨c.n, q⟩
  match c.place with
  -- `sem_wait` is not tried again when `SIGINT` interrupts it
  | .outside => .act fun d l d' q =>
      l = none ∧ (0 < d.sem ∧ d' = { d with sem := d.sem - 1 } ∨ d' = d) ∧ q = go .create
  | .create => .act fun d l d' q =>
      l = none ∧ d' = d ∧ q = go (if d.linked then .openRw else .refused)
  | .openRw => .act fun d l d' q =>
      l = none ∧ d' = d ∧ q = go (if d.linked then .map else .refused)
  | .map => .act fun d l d' q => l = none ∧ d' = d ∧ (q = go .post ∨ q = go .refused)
  | .post => .act fun d l d' q =>
      l = none ∧ d' = { d with sem := d.sem + 1 } ∧ q = go (.lock .join)
  | .refused => .act fun d l d' q =>
      l = none ∧ d' = { d with sem := d.sem + 1 } ∧ q = go .exited
  | .created => .act fun d l d' q =>
      l = none ∧ d' = { d with sem := d.sem + 1 } ∧ q = go (.lock .print)
  | .lock k => .lock .procCount (go (.locked k)) (go (.ownerDead k))
  | .locked k => .act fun d l d' q =>
      l = none ∧ d' = d ∧ (q = go (.body k) ∨ q = go (.dying k))
  | .dying _ | .resDying => .abort (go .dead)
  | .ownerDead k => .consistent .procCount (go (.repair k))
  | .repair k => .act fun d l d' q =>
      l = none ∧ d' = { d with procCount := d.procCount - 1 } ∧ q = go (.body k)
  | .body k => .act fun d l d' q =>
      l = none ∧ d' = { d with procCount := (k.section d.procCount).1 } ∧
        q = go (.unlock k (k.section d.procCount).2)
  | .unlock k seen => .unlock .procCount (go (k.next seen))
  -- the loop is left after three batches, or when `SIGINT` has cleared `keep_running`
  | .loop i => .act fun d l d' q => d' = d ∧
      ((∃ hits, i < 3 ∧ 0 ≤ hits ∧ hits ≤ max 0 c.n ∧ l = some (.computed i hits) ∧
          q = go (.resLock i hits)) ∨
        l = none ∧ q = go (.lock .finish))
  | .resLock i hits => .lock .results (go (.resLocked i hits)) (go (.resOwnerDead i hits))
  | .resLocked i hits => .act fun d l d' q =>
      l = none ∧ d' = d ∧ (q = go (.addTotal i hits) ∨ q = go .resDying)
  | .resOwnerDead i hits => .consistent .results (go (.lock (.nested i hits)))
  | .addTotal i hits => .act fun d l d' q =>
      l = some (.addTotal i) ∧ d' = { d with total := wrap32 (d.total + c.n) } ∧
        q = go (.addHits i hits)
  | .addHits i hits => .act fun d l d' q =>
      l = some (.addHits i hits) ∧ d' = { d with hits := wrap32 (d.hits + hits) } ∧
        q = go (.resUnlock i)
  | .resUnlock i => .unlock .results (go (.loop (i + 1)))
  | .summary => .act fun d l d' q =>
      l = some (.printed d.total d.hits) ∧ d' = d ∧ q = go .destroy
  | .destroy => .act fun d l d' q => l = none ∧ d' = d ∧ q = go .unlink
  | .unlink => .act fun d l d' q =>
      l = none ∧ d' = { d with linked := false } ∧ q = go .tornDown
  | .left | .tornDown | .exited | .dead => .halt

variable {P : Type*} [DecidableEq P]

abbrev State (P : Type*) := Robust.State P Mx Shared Proc

abbrev Step : State P → P × Option Event → State P → Prop := Robust.Step op

/-- The segment was just created by the process `c`; `N p` is the argument of the process `p`. -/
def begin (c : P) (N : P → Int) : State P where
  data := ⟨1, 0, 0, true, 0⟩
  table _ := .unlocked
  pc p := ⟨N p, if p = c then .created else .outside⟩

/-! ### Which mutexes are held at a place -/

/-- Nothing is held. -/
def idle : Mx → Option Mode := fun _ => none

/-- `mxResults` is held. -/
def holdsResults : Mx → Option Mode := Function.update idle .results (some .consistent)

/-- What is held around the section. -/
def Site.mode : Site → Mx → Option Mode
  | .nested _ _ => holdsResults
  | _ => idle

/-- How each mutex is held at a place. -/
def Place.mode : Place → Mx → Option Mode
  | .lock k => k.mode
  | .locked k | .dying k | .repair k | .body k | .unlock k _ =>
      Function.update k.mode .procCount (some .consistent)
  | .ownerDead k => Function.update k.mode .procCount (some .inconsistent)
  | .resLocked _ _ | .resDying | .addTotal _ _ | .addHits _ _ | .resUnlock _ => holdsResults
  | .resOwnerDead _ _ => Function.update idle .results (some .inconsistent)
  | _ => idle

theorem Site.mode_procCount (k : Site) : k.mode .procCount = none := by
  cases k <;> rfl

/-- What is held after the section is what was held before it. -/
theorem Site.next_mode (k : Site) (seen : Int) : (k.next seen).mode = k.mode := by
  cases k with
  | join | print | nested i hits => rfl
  | finish => simp only [Site.next]; split <;> rfl

theorem results_released : Function.update holdsResults .results none = idle := by
  funext k
  cases k <;> rfl

/-- **Every operation keeps to it.** -/
theorem op_keeps : Keeps op (fun c => c.place.mode) (fun _ => True) := by
  rintro ⟨n, q⟩
  cases q with
  | lock k => exact ⟨k.mode_procCount, rfl, fun _ => rfl⟩
  | locked k =>
      rintro d l d' q ⟨-, -, rfl | rfl⟩ <;> rfl
  | dying k | resDying => exact ⟨rfl, fun _ _ => trivial⟩
  | ownerDead k =>
      refine ⟨rfl, ?_⟩
      change Function.update k.mode .procCount _ =
        Function.update (Function.update k.mode .procCount _) .procCount _
      rw [Function.update_idem]
  | unlock k seen =>
      refine ⟨rfl, ?_⟩
      change (k.next seen).mode =
        Function.update (Function.update k.mode .procCount _) .procCount none
      rw [k.next_mode, Function.update_idem, ← k.mode_procCount, Function.update_eq_self]
  | loop i => rintro d l d' q ⟨-, ⟨hits, -, -, -, -, rfl⟩ | ⟨-, rfl⟩⟩ <;> rfl
  | resLock i hits => exact ⟨rfl, rfl, fun _ => rfl⟩
  | resLocked i hits => rintro d l d' q ⟨-, -, rfl | rfl⟩ <;> rfl
  | resOwnerDead i hits =>
      refine ⟨rfl, ?_⟩
      change holdsResults = Function.update (Function.update idle .results _) .results _
      rw [Function.update_idem]
      rfl
  | resUnlock i => exact ⟨rfl, results_released.symm⟩
  | create | openRw => rintro d l d' q ⟨-, -, rfl⟩; dsimp only; split <;> rfl
  | map => rintro d l d' q ⟨-, -, rfl | rfl⟩ <;> rfl
  | left | tornDown | exited | dead => rfl
  | _ => rintro d l d' q ⟨-, -, rfl⟩; rfl

variable {c : P} {N : P → Int} {t : State P} {tr : List (Move (State P) (P × Option Event))}

/-- **The mutexes are as the places say**, and none becomes unrecoverable. -/
theorem disciplined (r : Run Step (begin c N) tr t) :
    Disciplined (fun c => c.place.mode) (fun _ => True) t := by
  refine Disciplined.reaches op_keeps (disciplined_start (fun p => ?_) fun k => rfl) ⟨tr, r⟩
  dsimp only [begin]
  split <;> rfl

/-- Two processes do not hold one mutex. -/
theorem alone {s : State P} (hs : Disciplined (fun c : Proc => c.place.mode) (fun _ => True) s)
    {p q : P} {k : Mx} (hp : (s.pc p).place.mode k ≠ none) (hq : (s.pc q).place.mode k ≠ none) :
    p = q := by
  rw [← hs.mode] at hp hq
  have hp' := Mutex.owner_eq_some.mpr hp
  rw [Mutex.owner_eq_some.mpr hq] at hp'
  exact (Option.some.inj hp').symm

end Sop2.Calka
