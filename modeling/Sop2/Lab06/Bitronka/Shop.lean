import Mathlib.Data.Fintype.Sum
import Mathlib.Tactic.DeriveFintype
import Sop2.Support.RobustMutex

/-!
# Lab06 — Bitronka — the shop

`lab06/bitronka/sop-shop.c`: the workers that swap two shelves at a time, and the manager that
locks all of them, checks the order, and counts the dead.  The program is given place by place
(`workerOp`, `managerOp`); `Robust.Step` makes a system of it, one of `M` workers and one manager.

A worker dies only in `abort`, between the comparison and the swap of two shelves it has locked.
The swap itself is two writes.  Both halves of the program recover an abandoned shelf in the same
way (`recoverOp`), and neither looks at the result of locking `mxDead` or `mxSorted`.
-/

namespace Sop2.Bitronka
open Support Support.Robust

/-- The mutexes of `shared_data_t`. -/
inductive Lock (N : Nat) where
  | shelf (i : Fin N)
  | mxDead
  | mxSorted
  deriving DecidableEq

/-- The shared array `log` and the shared variables. -/
structure Shelves (N : Nat) where
  log : Fin N → Nat
  sorted : Bool
  dead : Nat

/-- The indices a worker has drawn. -/
structure Pick (N : Nat) where
  x : Fin N
  y : Fin N
  ne : x ≠ y
  deriving DecidableEq

/-- `first`. -/
def Pick.first {N : Nat} (pk : Pick N) : Fin N := if pk.x < pk.y then pk.x else pk.y

/-- `second`. -/
def Pick.second {N : Nat} (pk : Pick N) : Fin N := if pk.x < pk.y then pk.y else pk.x

/-- Between the `EOWNERDEAD` of a shelf and the end of its recovery. -/
inductive Recovery where
  | lockDead
  | increment
  | unlockDead
  | consistent
  deriving DecidableEq

/-- Where a worker is. -/
inductive WorkerPc (N : Nat) where
  /-- At `while (shared_data->sorted != 1)`. -/
  | loop
  | lockSorted
  | testSorted
  | unlockSorted (leave : Bool)
  | pick
  | lockFirst (pk : Pick N)
  | recoverFirst (r : Recovery) (pk : Pick N)
  | lockSecond (pk : Pick N)
  | recoverSecond (r : Recovery) (pk : Pick N)
  | compare (pk : Pick N)
  /-- Over the pallet. -/
  | trip (pk : Pick N)
  | swap (pk : Pick N)
  /-- Between the two writes of `SWAP`, with `__x`. -/
  | swapped (pk : Pick N) (x : Nat)
  | unlockSecond (pk : Pick N)
  | unlockFirst (pk : Pick N)
  | exited
  | died
  deriving DecidableEq

/-- Where the manager is; `sorted` is its own variable, and `i` the index of its loops. -/
inductive ManagerPc (N : Nat) where
  /-- At the top of the body of its loop. -/
  | start
  | lock (i : Nat)
  | recover (r : Recovery) (i : Fin N)
  | check (i : Nat)
  | unlock (i : Nat) (sorted : Bool)
  | lockDead (sorted : Bool)
  | report (sorted : Bool)
  | unlockDead (sorted : Bool) (all : Bool)
  | lockSorted
  | setSorted
  | unlockSorted
  | exited
  deriving DecidableEq

/-- The place of a process. -/
inductive Pc (N : Nat) where
  | worker (w : WorkerPc N)
  | manager (m : ManagerPc N)
  deriving DecidableEq

/-- The processes. -/
inductive Process (M : Nat) where
  | worker (i : Fin M)
  | manager
  deriving DecidableEq, Fintype

/-- What can be seen of a process. -/
inductive Event (N : Nat) where
  /-- The first write of a swap. -/
  | swap (pk : Pick N)
  /-- The manager has found `log[i] == i` for all `i`. -/
  | inOrder
  /-- The manager prints the number of workers alive and, if `all`, that all have died. -/
  | report (alive : Int) (all : Bool)
  deriving DecidableEq

variable {N : Nat}

/-- The conditions of the two branches that swap. -/
def Inverted (log : Fin N → Nat) (pk : Pick N) : Prop :=
  (pk.x < pk.y ∧ log pk.x > log pk.y) ∨ (pk.y < pk.x ∧ log pk.x < log pk.y)

instance (log : Fin N → Nat) (pk : Pick N) : Decidable (Inverted log pk) :=
  inferInstanceAs (Decidable (_ ∨ _))

/-- An operation on a place of the program. -/
abbrev ShopOp (N : Nat) := Op (Lock N) (Shelves N) (Pc N) (Event N)

/-- The shared data stays as it is, nothing can be seen, and the process goes on at `next`. -/
def goto (next : Shelves N → Pc N) : ShopOp N :=
  .act fun d l d' q => l = none ∧ d' = d ∧ q = next d

/-- Lines 112 to 115 and their copies, for shelf `i`. -/
def recoverOp (i : Fin N) (again : Recovery → Pc N) (next : Pc N) : Recovery → ShopOp N
  | .lockDead => .lock .mxDead (again .increment) (again .increment)
  | .increment => .act fun d l d' q =>
      l = none ∧ d' = { d with dead := d.dead + 1 } ∧ q = again .unlockDead
  | .unlockDead => .unlock .mxDead (again .consistent)
  | .consistent => .consistent (.shelf i) next

/-- The loop of a worker, lines 87 to 151. -/
def workerOp : WorkerPc N → ShopOp N
  | .loop => goto fun d => .worker (if d.sorted then .exited else .lockSorted)
  | .lockSorted => .lock .mxSorted (.worker .testSorted) (.worker .testSorted)
  | .testSorted => goto fun d => .worker (.unlockSorted d.sorted)
  | .unlockSorted leave => .unlock .mxSorted (.worker (if leave then .exited else .pick))
  | .pick => .act fun d l d' q => l = none ∧ d' = d ∧ ∃ pk, q = .worker (.lockFirst pk)
  | .lockFirst pk => .lock (.shelf pk.first) (.worker (.lockSecond pk))
      (.worker (.recoverFirst .lockDead pk))
  | .recoverFirst r pk => recoverOp pk.first (fun r => .worker (.recoverFirst r pk))
      (.worker (.lockSecond pk)) r
  | .lockSecond pk => .lock (.shelf pk.second) (.worker (.compare pk))
      (.worker (.recoverSecond .lockDead pk))
  | .recoverSecond r pk => recoverOp pk.second (fun r => .worker (.recoverSecond r pk))
      (.worker (.compare pk)) r
  | .compare pk => .act fun d l d' q => l = none ∧ d' = d ∧
      if Inverted d.log pk then q = .worker (.trip pk) ∨ q = .worker (.swap pk)
      else q = .worker (.unlockSecond pk)
  | .trip _ => .abort (.worker .died)
  | .swap pk => .act fun d l d' q => l = some (.swap pk) ∧
      d' = { d with log := Function.update d.log pk.x (d.log pk.y) } ∧
      q = .worker (.swapped pk (d.log pk.x))
  | .swapped pk x => .act fun d l d' q => l = none ∧
      d' = { d with log := Function.update d.log pk.y x } ∧ q = .worker (.unlockSecond pk)
  | .unlockSecond pk => .unlock (.shelf pk.second) (.worker (.unlockFirst pk))
  | .unlockFirst pk => .unlock (.shelf pk.first) (.worker .loop)
  | .exited => .halt
  | .died => .halt

/-- The manager of `M` workers, lines 159 to 207. -/
def managerOp (M : Nat) : ManagerPc N → ShopOp N
  | .start => goto fun _ => .manager (.lock 0)
  | .lock i =>
      if h : i < N then
        .lock (.shelf ⟨i, h⟩) (.manager (.lock (i + 1))) (.manager (.recover .lockDead ⟨i, h⟩))
      else goto fun _ => .manager (.check 0)
  | .recover r i => recoverOp i (fun r => .manager (.recover r i)) (.manager (.lock (i + 1))) r
  | .check i =>
      if h : i < N then
        goto fun d => .manager (if d.log ⟨i, h⟩ ≠ i then .unlock 0 false else .check (i + 1))
      else .act fun d l d' q => l = some .inOrder ∧ d' = d ∧ q = .manager (.unlock 0 true)
  | .unlock i sorted =>
      if h : i < N then .unlock (.shelf ⟨i, h⟩) (.manager (.unlock (i + 1) sorted))
      else goto fun _ => .manager (.lockDead sorted)
  | .lockDead sorted => .lock .mxDead (.manager (.report sorted)) (.manager (.report sorted))
  | .report sorted => .act fun d l d' q =>
      l = some (.report (M - (d.dead / 2 : Nat)) (d.dead / 2 = M)) ∧ d' = d ∧
      q = .manager (.unlockDead sorted (d.dead / 2 = M))
  | .unlockDead sorted all => .unlock .mxDead
      (.manager (if all then .exited else if sorted then .lockSorted else .start))
  | .lockSorted => .lock .mxSorted (.manager .setSorted) (.manager .setSorted)
  | .setSorted => .act fun d l d' q =>
      l = none ∧ d' = { d with sorted := true } ∧ q = .manager .unlockSorted
  | .unlockSorted => .unlock .mxSorted (.manager .exited)
  | .exited => .halt

/-- The program. -/
def op (M : Nat) : Pc N → ShopOp N
  | .worker w => workerOp w
  | .manager m => managerOp M m

/-- The shop with `M` workers and `N` shelves. -/
abbrev Shop (M N : Nat) := State (Process M) (Lock N) (Shelves N) (Pc N)

/-- The place every process starts at. -/
def startPc {M : Nat} : Process M → Pc N
  | .worker _ => .worker .loop
  | .manager => .manager .start

/-- The shop after the shelves have been filled. -/
def opening (M : Nat) (log : Fin N → Nat) : Shop M N :=
  ⟨⟨log, false, 0⟩, fun _ => .unlocked, startPc⟩

/-- The steps of the shop. -/
abbrev Work (M N : Nat) : Shop M N → Process M × Option (Event N) → Shop M N → Prop :=
  Robust.Step (op M)

end Sop2.Bitronka
