import Sop2.Lab06.Bitronka.Locks
import Sop2.Support.Inversions

/-!
# Lab06 — Bitronka — sorting

The shelf array under every interleaving of the workers and the manager.

A swap is two writes, and several swaps of different shelves can be half done at a time.  `settled`
is the array with these completed.  It changes with the first write of a swap and with nothing
else (`settled_step`), and then a pair that was in the wrong order is swapped: so it stays a
permutation, and every swap leaves strictly fewer inversions.  Once the manager, with all shelves
locked, has found every item in its place, no worker finds a pair to swap any more (`InOrder.step`).

`sorting` puts these together; `shuffle_arrangement` says that the array the program starts with
is a permutation.
-/

namespace Sop2.Bitronka
open Support Support.Robust

variable {M N : Nat}

/-! ### The start -/

/-- `shuffle`, from index `i` downwards; `rand i` is what `rand()` returns at `i`. -/
def shuffle {α : Type*} (rand : Nat → Nat) (log : Fin N → α) : (i : Nat) → i < N → Fin N → α
  | 0, _ => log
  | i + 1, h =>
      shuffle rand (log ∘ Equiv.swap ⟨i + 1, h⟩
        ⟨rand (i + 1) % (i + 2), (Nat.lt_succ_iff.mp (Nat.mod_lt _ (by omega))).trans_lt h⟩)
        i (by omega)

theorem shuffle_arrangement (rand : Nat → Nat) {log : Fin N → Nat} (hlog : Arrangement log) :
    ∀ (i : Nat) (h : i < N), Arrangement (shuffle rand log i h)
  | 0, _ => hlog
  | i + 1, _ => shuffle_arrangement rand (hlog.swap _ _) i _

/-! ### The pairs of a worker -/

theorem inverted_iff {log : Fin N → Nat} {pk : Pick N} :
    Inverted log pk ↔ log pk.second < log pk.first := by
  have := pk.ne
  unfold Inverted Pick.first Pick.second
  by_cases h : pk.x < pk.y
  · have hn : ¬ pk.y < pk.x := by omega
    simp [h, hn]
  · have hy : pk.y < pk.x := by omega
    simp [h, hy]

/-- The swap of a worker, for its indices in order. -/
theorem swap_eq (pk : Pick N) : Equiv.swap pk.x pk.y = Equiv.swap pk.first pk.second := by
  unfold Pick.first Pick.second
  split
  · rfl
  · exact Equiv.swap_comm ..

/-- What a worker holds once it has locked both its shelves. -/
theorem holdsBoth_shelf (pk : Pick N) (k : Fin N) :
    holdsBoth pk (.shelf k) = if k = pk.x ∨ k = pk.y then some .consistent else none := by
  have hxy : (k = pk.x ∨ k = pk.y) ↔ (k = pk.second ∨ k = pk.first) := by
    unfold Pick.first Pick.second
    split
    · exact or_comm
    · rfl
  simp only [hxy, holdsBoth, holdsFirst, idle, Function.update_apply, Lock.shelf.injEq]
  by_cases hs : k = pk.second
  · simp [hs]
  · by_cases hf : k = pk.first
    · simp [hf]
    · simp [hs, hf]

/-! ### What one operation does to the array -/

/-- An operation from `q` to `q'` that is no part of a swap. -/
structure Still (q : Pc N) (d : Shelves N) (l : Option (Event N)) (d' : Shelves N) (q' : Pc N) :
    Prop where
  label : ∀ pk, l ≠ some (.swap pk)
  log : d'.log = d.log
  source : (∀ pk, q ≠ .worker (.swap pk)) ∧ ∀ pk v, q ≠ .worker (.swapped pk v)
  target : ∀ pk v, q' ≠ .worker (.swapped pk v)
  compared : ∀ pk, q' = .worker (.swap pk) ∨ q' = .worker (.trip pk) → Inverted d.log pk

/-- The recovery of a shelf leaves the array alone. -/
theorem recoverOp_goes {i : Fin N} {again : Recovery → Pc N} {next q' : Pc N} {r : Recovery}
    {d d' : Shelves N} {l : Option (Event N)} (h : (recoverOp i again next r).Goes d l d' q') :
    l = none ∧ d'.log = d.log ∧ d'.sorted = d.sorted ∧ ((∃ r', q' = again r') ∨ q' = next) := by
  cases r with
  | lockDead =>
      obtain ⟨rfl, rfl, rfl | rfl⟩ := h <;> exact ⟨rfl, rfl, rfl, .inl ⟨_, rfl⟩⟩
  | increment =>
      obtain ⟨rfl, rfl, rfl⟩ := h
      exact ⟨rfl, rfl, rfl, .inl ⟨_, rfl⟩⟩
  | unlockDead =>
      obtain ⟨rfl, rfl, rfl⟩ := h
      exact ⟨rfl, rfl, rfl, .inl ⟨_, rfl⟩⟩
  | consistent =>
      obtain ⟨rfl, rfl, rfl⟩ := h
      exact ⟨rfl, rfl, rfl, .inr rfl⟩

theorem workerOp_goes {w : WorkerPc N} {q' : Pc N} {d d' : Shelves N} {l : Option (Event N)}
    (h : (workerOp w).Goes d l d' q') :
    Still (.worker w) d l d' q' ∨
    (∃ pk, w = .swap pk ∧ l = some (.swap pk) ∧
      d'.log = Function.update d.log pk.x (d.log pk.y) ∧
      q' = .worker (.swapped pk (d.log pk.x))) ∨
    (∃ pk v, w = .swapped pk v ∧ l = none ∧ d'.log = Function.update d.log pk.y v ∧
      q' = .worker (.unlockSecond pk)) := by
  cases w with
  | swap pk =>
      obtain ⟨rfl, rfl, rfl⟩ := h
      exact .inr (.inl ⟨pk, rfl, rfl, rfl, rfl⟩)
  | swapped pk v =>
      obtain ⟨rfl, rfl, rfl⟩ := h
      exact .inr (.inr ⟨pk, v, rfl, rfl, rfl, rfl⟩)
  | compare pk =>
      obtain ⟨rfl, rfl, hq⟩ := h
      left
      by_cases hi : Inverted d'.log pk
      · rw [if_pos hi] at hq
        rcases hq with rfl | rfl
        · refine ⟨by simp, rfl, by simp, by simp, fun pk' e => ?_⟩
          rcases e with e | e <;> cases e
          exact hi
        · refine ⟨by simp, rfl, by simp, by simp, fun pk' e => ?_⟩
          rcases e with e | e <;> cases e
          exact hi
      · rw [if_neg hi] at hq
        subst hq
        exact ⟨by simp, rfl, by simp, by simp, by simp⟩
  | recoverFirst r pk =>
      rw [workerOp] at h
      obtain ⟨rfl, hlog, -, ⟨r', rfl⟩ | rfl⟩ := recoverOp_goes h <;>
        exact .inl ⟨by simp, hlog, by simp, by simp, by simp⟩
  | recoverSecond r pk =>
      rw [workerOp] at h
      obtain ⟨rfl, hlog, -, ⟨r', rfl⟩ | rfl⟩ := recoverOp_goes h <;>
        exact .inl ⟨by simp, hlog, by simp, by simp, by simp⟩
  | loop =>
      obtain ⟨rfl, rfl, rfl⟩ := h
      exact .inl ⟨by simp, rfl, by simp, by dsimp only; split <;> simp,
        by dsimp only; split <;> simp⟩
  | unlockSorted leave =>
      obtain ⟨rfl, rfl, rfl⟩ := h
      exact .inl ⟨by simp, rfl, by simp, by split <;> simp, by split <;> simp⟩
  | pick =>
      obtain ⟨rfl, rfl, pk, rfl⟩ := h
      exact .inl ⟨by simp, rfl, by simp, by simp, by simp⟩
  | lockSorted | lockFirst | lockSecond =>
      obtain ⟨rfl, rfl, rfl | rfl⟩ := h <;> exact .inl ⟨by simp, rfl, by simp, by simp, by simp⟩
  | testSorted | trip | unlockSecond | unlockFirst =>
      obtain ⟨rfl, rfl, rfl⟩ := h
      exact .inl ⟨by simp, rfl, by simp, by simp, by simp⟩
  | exited | died => exact h.elim

/-- A worker goes on as a worker, and leaves the verdict to the manager. -/
theorem workerOp_sorted {w : WorkerPc N} {q' : Pc N} {d d' : Shelves N} {l : Option (Event N)}
    (h : (workerOp w).Goes d l d' q') :
    (l = none ∨ ∃ pk, l = some (.swap pk)) ∧ d'.sorted = d.sorted ∧ ∃ w', q' = .worker w' := by
  cases w with
  | recoverFirst r pk | recoverSecond r pk =>
      rw [workerOp] at h
      obtain ⟨rfl, -, hsorted, ⟨r', rfl⟩ | rfl⟩ := recoverOp_goes h <;>
        exact ⟨.inl rfl, hsorted, _, rfl⟩
  | lockSorted | lockFirst | lockSecond =>
      obtain ⟨rfl, rfl, rfl | rfl⟩ := h <;> exact ⟨.inl rfl, rfl, _, rfl⟩
  | pick =>
      obtain ⟨rfl, rfl, pk, rfl⟩ := h
      exact ⟨.inl rfl, rfl, _, rfl⟩
  | compare pk =>
      obtain ⟨rfl, rfl, hq⟩ := h
      refine ⟨.inl rfl, rfl, ?_⟩
      split at hq
      · rcases hq with rfl | rfl <;> exact ⟨_, rfl⟩
      · exact ⟨_, hq⟩
  | loop | testSorted | unlockSorted | trip | swapped | unlockSecond | unlockFirst =>
      obtain ⟨rfl, rfl, rfl⟩ := h
      exact ⟨.inl rfl, rfl, _, rfl⟩
  | swap pk =>
      obtain ⟨rfl, rfl, rfl⟩ := h
      exact ⟨.inr ⟨pk, rfl⟩, rfl, _, rfl⟩
  | exited | died => exact h.elim

/-- The places of the manager after it has found everything in its place. -/
def Convinced : Pc N → Prop
  | .manager (.unlock _ sorted) | .manager (.lockDead sorted) | .manager (.report sorted)
  | .manager (.unlockDead sorted _) => sorted = true
  | .manager .lockSorted | .manager .setSorted | .manager .unlockSorted => True
  | _ => False

/-- What the manager can do from `m`. -/
structure Manages (m : ManagerPc N) (d : Shelves N) (l : Option (Event N)) (d' : Shelves N)
    (q' : Pc N) : Prop where
  label : ∀ pk, l ≠ some (.swap pk)
  log : d'.log = d.log
  manager : ∃ m', q' = .manager m'
  verdict : l = some .inOrder → ∃ i, m = .check i ∧ N ≤ i
  checked : ∀ i, q' = .manager (.check i) →
    i = 0 ∨ ∃ j, ∃ h : j < N, m = .check j ∧ i = j + 1 ∧ d.log ⟨j, h⟩ = j
  convinced : Convinced q' → l = some .inOrder ∨ Convinced (.manager m)
  sorted : d'.sorted = true → d.sorted = true ∨ Convinced (.manager m)

theorem managerOp_goes {m : ManagerPc N} {q' : Pc N} {d d' : Shelves N} {l : Option (Event N)}
    (h : (managerOp M m).Goes d l d' q') : Manages m d l d' q' := by
  cases m with
  | recover r i =>
      rw [managerOp] at h
      obtain ⟨rfl, hlog, hsorted, ⟨r', rfl⟩ | rfl⟩ := recoverOp_goes h <;>
        exact ⟨by simp, hlog, ⟨_, rfl⟩, by simp, by simp, by simp [Convinced],
          fun hd => .inl (hsorted ▸ hd)⟩
  | lock i =>
      rw [managerOp] at h
      split at h
      · obtain ⟨rfl, rfl, rfl | rfl⟩ := h <;>
          exact ⟨by simp, rfl, ⟨_, rfl⟩, by simp, by simp, by simp [Convinced], .inl⟩
      · obtain ⟨rfl, rfl, rfl⟩ := h
        exact ⟨by simp, rfl, ⟨_, rfl⟩, by simp, fun i' e => by cases e; exact .inl rfl,
          by simp [Convinced], .inl⟩
  | check i =>
      rw [managerOp] at h
      split at h
      · rename_i hi
        obtain ⟨rfl, rfl, rfl⟩ := h
        dsimp only
        by_cases hne : d'.log ⟨i, hi⟩ ≠ i
        · rw [if_pos hne]
          exact ⟨by simp, rfl, ⟨_, rfl⟩, by simp, by simp, by simp [Convinced], .inl⟩
        · rw [if_neg hne]
          refine ⟨by simp, rfl, ⟨_, rfl⟩, by simp, fun i' e => ?_, by simp [Convinced], .inl⟩
          cases e
          exact .inr ⟨i, hi, rfl, rfl, not_not.mp hne⟩
      · rename_i hi
        obtain ⟨rfl, rfl, rfl⟩ := h
        exact ⟨by simp, rfl, ⟨_, rfl⟩, fun _ => ⟨i, rfl, Nat.not_lt.mp hi⟩, by simp,
          fun _ => .inl rfl, .inl⟩
  | unlock i sorted =>
      rw [managerOp] at h
      split at h <;>
        (obtain ⟨rfl, rfl, rfl⟩ := h
         exact ⟨by simp, rfl, ⟨_, rfl⟩, by simp, by simp, .inr, .inl⟩)
  | lockDead sorted | lockSorted =>
      obtain ⟨rfl, rfl, rfl | rfl⟩ := h <;>
        exact ⟨by simp, rfl, ⟨_, rfl⟩, by simp, by simp, .inr, .inl⟩
  | unlockDead sorted all =>
      obtain ⟨rfl, rfl, rfl⟩ := h
      cases all <;> cases sorted <;>
        exact ⟨by simp, rfl, ⟨_, rfl⟩, by simp, by simp, by simp [Convinced], .inl⟩
  | setSorted =>
      obtain ⟨rfl, rfl, rfl⟩ := h
      exact ⟨by simp, rfl, ⟨_, rfl⟩, by simp, by simp, .inr, fun _ => .inr trivial⟩
  | start | report | unlockSorted =>
      obtain ⟨rfl, rfl, rfl⟩ := h
      exact ⟨by simp, rfl, ⟨_, rfl⟩, by simp, by simp, by simp [Convinced], .inl⟩
  | exited => exact h.elim

/-- An operation is no part of a swap; or is the first write of a swap; or the second. -/
theorem goes_log {q q' : Pc N} {d d' : Shelves N} {l : Option (Event N)}
    (h : (op M q).Goes d l d' q') :
    Still q d l d' q' ∨
    (∃ pk, q = .worker (.swap pk) ∧ l = some (.swap pk) ∧
      d'.log = Function.update d.log pk.x (d.log pk.y) ∧
      q' = .worker (.swapped pk (d.log pk.x))) ∨
    (∃ pk v, q = .worker (.swapped pk v) ∧ l = none ∧ d'.log = Function.update d.log pk.y v ∧
      q' = .worker (.unlockSecond pk)) := by
  cases q with
  | worker w =>
      rcases workerOp_goes h with h | ⟨pk, rfl, hs⟩ | ⟨pk, v, rfl, hs⟩
      · exact .inl h
      · exact .inr (.inl ⟨pk, rfl, hs⟩)
      · exact .inr (.inr ⟨pk, v, rfl, hs⟩)
  | manager m =>
      have hm := managerOp_goes h
      obtain ⟨m', rfl⟩ := hm.manager
      exact .inl ⟨hm.label, hm.log, by simp, by simp, by simp⟩

/-! ### The settled array -/

variable {s t : Shop M N} {l : Process M × Option (Event N)}

/-- What a process at a place is still to write to shelf `k`. -/
def toWrite (k : Fin N) : Pc N → Option Nat
  | .worker (.swapped pk v) => if pk.y = k then some v else none
  | _ => none

/-- What is still to be written to shelf `k`, by the process that has it locked. -/
def owed (s : Shop M N) (k : Fin N) : Option Nat :=
  (s.table (.shelf k)).owner.bind fun p => toWrite k (s.pc p)

/-- The array with the swaps that are half done completed. -/
def settled (s : Shop M N) (k : Fin N) : Nat := (owed s k).getD (s.data.log k)

/-- No swap is half done. -/
def NoneHalfDone (s : Shop M N) : Prop := ∀ p pk v, s.pc p ≠ .worker (.swapped pk v)

/-- `p` has shelf `k` locked. -/
def Has (s : Shop M N) (p : Process M) (k : Fin N) : Prop :=
  mode (s.pc p) (.shelf k) = some .consistent

theorem toWrite_eq_some {k : Fin N} {q : Pc N} {v : Nat} :
    toWrite k q = some v ↔ ∃ pk, q = .worker (.swapped pk v) ∧ pk.y = k := by
  constructor
  · intro h
    unfold toWrite at h
    split at h
    · split at h
      · cases h; exact ⟨_, rfl, ‹_›⟩
      · cases h
    · cases h
  · rintro ⟨pk, rfl, rfl⟩
    simp [toWrite]

theorem Has.table (hs : Locked s) {p : Process M} {k : Fin N} (h : Has s p k) :
    s.table (.shelf k) = .locked p :=
  Mutex.mode_eq_consistent.mp ((hs.mode p _).trans h)

/-- A shelf is locked by one process at a time. -/
theorem Has.unique (hs : Locked s) {p q : Process M} {k : Fin N} (hp : Has s p k)
    (hq : Has s q k) : p = q := by
  have h := (hp.table hs).symm.trans (hq.table hs)
  exact Mutex.locked.inj h

/-- The places at which a worker has both its shelves locked. -/
theorem has_both {p : Process M} {q : Pc N} {pk : Pick N} (hq : s.pc p = q)
    (h : mode q = holdsBoth pk) : Has s p pk.x ∧ Has s p pk.y := by
  unfold Has
  rw [hq, h, holdsBoth_shelf, holdsBoth_shelf]
  simp

theorem owed_eq_some (hs : Locked s) {k : Fin N} {v : Nat} :
    owed s k = some v ↔ ∃ p pk, s.pc p = .worker (.swapped pk v) ∧ pk.y = k := by
  rw [owed, Option.bind_eq_some_iff]
  constructor
  · rintro ⟨p, -, h⟩
    exact ⟨p, toWrite_eq_some.mp h⟩
  · rintro ⟨p, pk, h, rfl⟩
    have hy := (has_both h rfl).2
    exact ⟨p, by rw [hy.table hs]; rfl, toWrite_eq_some.mpr ⟨pk, h, rfl⟩⟩

theorem settled_swapped (hs : Locked s) {p : Process M} {pk : Pick N} {v : Nat}
    (h : s.pc p = .worker (.swapped pk v)) : settled s pk.y = v := by
  rw [settled, (owed_eq_some hs).mpr ⟨p, pk, h, rfl⟩]
  rfl

theorem settled_eq_log (hs : Locked s) {k : Fin N}
    (h : ∀ p pk v, s.pc p = .worker (.swapped pk v) → pk.y ≠ k) : settled s k = s.data.log k := by
  have hn : owed s k = none := by
    cases ho : owed s k with
    | none => rfl
    | some v =>
        obtain ⟨p, pk, hp, hk⟩ := (owed_eq_some hs).mp ho
        exact absurd hk (h p pk v hp)
  rw [settled, hn]
  rfl

/-- The shelf of a process that is not between the writes of a swap. -/
theorem settled_has (hs : Locked s) {p : Process M} {k : Fin N} (hp : Has s p k)
    (hn : ∀ pk v, s.pc p ≠ .worker (.swapped pk v)) : settled s k = s.data.log k := by
  refine settled_eq_log hs fun q pk v hq hk => ?_
  have hy := (has_both hq rfl).2
  rw [hk] at hy
  rw [hp.unique hs hy] at hn
  exact hn pk v hq

theorem settled_of_noneHalfDone (hs : Locked s) (hn : NoneHalfDone s) : settled s = s.data.log :=
  funext fun _ => settled_eq_log hs fun p pk v h => absurd h (hn p pk v)

/-- Shelves that the same swaps are to write, with the same items. -/
theorem settled_congr (hs : Locked s) (ht : Locked t) {k : Fin N}
    (hpc : ∀ p pk v, pk.y = k →
      (t.pc p = .worker (.swapped pk v) ↔ s.pc p = .worker (.swapped pk v)))
    (hlog : t.data.log k = s.data.log k) : settled t k = settled s k := by
  have ho : owed t k = owed s k := by
    refine Option.ext fun v => ?_
    rw [owed_eq_some ht, owed_eq_some hs]
    exact exists_congr fun p => exists_congr fun pk =>
      ⟨fun ⟨h, hk⟩ => ⟨(hpc p pk v hk).mp h, hk⟩, fun ⟨h, hk⟩ => ⟨(hpc p pk v hk).mpr h, hk⟩⟩
  rw [settled, settled, ho, hlog]

/-- Nobody else is between the writes of a swap that is to write a shelf of `p`. -/
theorem Has.notSwapped (hs : Locked s) {p q : Process M} {k : Fin N} (hp : Has s p k) (hne : q ≠ p)
    {pk : Pick N} {v : Nat} (hq : s.pc q = .worker (.swapped pk v)) : pk.y ≠ k := by
  intro hk
  have hy := (has_both hq rfl).2
  rw [hk] at hy
  exact hne (hy.unique hs hp)

/-- The first write of a swap, seen on the settled array. -/
theorem settled_swap (hs : Locked s) (ht : Locked t) {p : Process M} {pk : Pick N}
    (hq : s.pc p = .worker (.swap pk))
    (hpc : t.pc = Function.update s.pc p (.worker (.swapped pk (s.data.log pk.x))))
    (hlog : t.data.log = Function.update s.data.log pk.x (s.data.log pk.y)) :
    settled t = settled s ∘ Equiv.swap pk.x pk.y := by
  obtain ⟨hx, hy⟩ := has_both hq rfl
  have hn : ∀ pk' v, s.pc p ≠ .worker (.swapped pk' v) := by rw [hq]; simp
  have hp : t.pc p = .worker (.swapped pk (s.data.log pk.x)) := by rw [hpc, Function.update_self]
  funext k
  rw [Function.comp_apply]
  by_cases hky : k = pk.y
  · -- still to be written, with the item of the other shelf
    subst hky
    rw [settled_swapped ht hp, Equiv.swap_apply_right, settled_has hs hx hn]
  · by_cases hkx : k = pk.x
    · subst hkx
      rw [Equiv.swap_apply_left, settled_has hs hy hn]
      have hlogx := settled_eq_log (k := pk.x) ht fun p' pk' v hp' => by
        rcases moved hpc p' with ⟨rfl, -⟩ | ⟨he, hstay⟩
        · rw [hp] at hp'
          cases hp'
          exact pk.ne.symm
        · rw [hstay] at hp'
          exact hx.notSwapped hs he hp'
      rw [hlogx, hlog, Function.update_self]
    · -- a shelf of no concern to this swap
      rw [Equiv.swap_apply_of_ne_of_ne hkx hky]
      refine settled_congr hs ht (fun p' pk' v hk => ?_) (by rw [hlog, Function.update_of_ne hkx])
      rcases moved hpc p' with ⟨rfl, -⟩ | ⟨-, hstay⟩
      · rw [hp]
        refine iff_of_false (fun e => ?_) (hn pk' v)
        cases e
        exact hky hk.symm
      · rw [hstay]

/-- The second write of a swap, seen on the settled array. -/
theorem settled_second (hs : Locked s) (ht : Locked t) {p : Process M} {pk : Pick N} {v : Nat}
    (hq : s.pc p = .worker (.swapped pk v))
    (hpc : t.pc = Function.update s.pc p (.worker (.unlockSecond pk)))
    (hlog : t.data.log = Function.update s.data.log pk.y v) : settled t = settled s := by
  have hy := (has_both hq rfl).2
  have hp : ∀ pk' v', t.pc p ≠ .worker (.swapped pk' v') := by
    rw [hpc, Function.update_self]
    simp
  funext k
  by_cases hky : k = pk.y
  · subst hky
    have hlogy := settled_eq_log (k := pk.y) ht fun p' pk' v' hp' => by
      rcases moved hpc p' with ⟨rfl, -⟩ | ⟨he, hstay⟩
      · exact absurd hp' (hp pk' v')
      · rw [hstay] at hp'
        exact hy.notSwapped hs he hp'
    rw [hlogy, hlog, Function.update_self, settled_swapped hs hq]
  · refine settled_congr hs ht (fun p' pk' v' hk => ?_) (by rw [hlog, Function.update_of_ne hky])
    rcases moved hpc p' with ⟨rfl, -⟩ | ⟨-, hstay⟩
    · refine iff_of_false (hp pk' v') fun e => ?_
      rw [hq] at e
      cases e
      exact hky hk.symm
    · rw [hstay]

/-- **One step, seen on the settled array.**  Only the first write of a swap changes it, and swaps
the items of the two shelves. -/
theorem settled_step (hs : Locked s) (h : Work M N s l t) :
    ((∀ pk, l.2 ≠ some (.swap pk)) ∧ settled t = settled s) ∨
      ∃ pk, l.2 = some (.swap pk) ∧ s.pc l.1 = .worker (.swap pk) ∧
        settled t = settled s ∘ Equiv.swap pk.x pk.y := by
  have ht : Locked t := hs.step op_keeps h
  obtain ⟨p, e⟩ := l
  obtain ⟨q', hpc, hgoes⟩ := h.goes
  dsimp only at hpc hgoes ⊢
  rcases goes_log hgoes with hstill | ⟨pk, hq, rfl, hlog, rfl⟩ | ⟨pk, v, hq, rfl, hlog, rfl⟩
  · refine .inl ⟨hstill.label, funext fun k => settled_congr hs ht (fun p' pk v _ => ?_) ?_⟩
    · rcases moved hpc p' with ⟨rfl, hq'⟩ | ⟨-, hstay⟩
      · rw [hq']
        exact iff_of_false (hstill.target pk v) (hstill.source.2 pk v)
      · rw [hstay]
    · rw [hstill.log]
  · exact .inr ⟨pk, rfl, hq, settled_swap hs ht hq hpc hlog⟩
  · exact .inl ⟨by simp, settled_second hs ht hq hpc hlog⟩

/-! ### Every swap puts a pair in order -/

/-- Whoever is about to swap, or to trip, has a pair in the wrong order. -/
def Ready (s : Shop M N) : Prop :=
  ∀ p pk, s.pc p = .worker (.swap pk) ∨ s.pc p = .worker (.trip pk) → Inverted (settled s) pk

/-- At these places a worker has both its shelves locked, and has not begun to swap them. -/
theorem has_ready {p : Process M} {pk : Pick N}
    (h : s.pc p = .worker (.swap pk) ∨ s.pc p = .worker (.trip pk)) :
    Has s p pk.x ∧ Has s p pk.y ∧ ∀ pk' v, s.pc p ≠ .worker (.swapped pk' v) := by
  rcases h with h | h
  · obtain ⟨hx, hy⟩ := has_both h rfl
    exact ⟨hx, hy, by rw [h]; simp⟩
  · obtain ⟨hx, hy⟩ := has_both h rfl
    exact ⟨hx, hy, by rw [h]; simp⟩

theorem inverted_congr {a b : Fin N → Nat} {pk : Pick N} (hx : a pk.x = b pk.x)
    (hy : a pk.y = b pk.y) : Inverted a pk ↔ Inverted b pk := by
  unfold Inverted
  rw [hx, hy]

theorem ready_opening (log : Fin N → Nat) : Ready (opening M log) := by
  intro p pk hp
  cases p <;> simp [opening, startPc] at hp

theorem Ready.step (hs : Locked s) (hr : Ready s) (h : Work M N s l t) : Ready t := by
  have hsettled := settled_step hs h
  have ht : Locked t := hs.step op_keeps h
  obtain ⟨p, e⟩ := l
  obtain ⟨q', hpc, hgoes⟩ := h.goes
  dsimp only at hpc hgoes hsettled
  intro p' pk hp'
  rcases moved hpc p' with ⟨rfl, hq⟩ | ⟨he, hstay⟩
  · -- the process has just compared its two shelves
    obtain ⟨hx, hy, hn⟩ := has_ready hp'
    rw [hq] at hp'
    rcases goes_log hgoes with hstill | ⟨pk', -, -, -, rfl⟩ | ⟨pk', v, -, -, -, rfl⟩
    · refine (inverted_congr ?_ ?_).mpr (hstill.compared pk hp')
      · rw [settled_has ht hx hn, hstill.log]
      · rw [settled_has ht hy hn, hstill.log]
    · rcases hp' with hp' | hp' <;> cases hp'
    · rcases hp' with hp' | hp' <;> cases hp'
  · rw [hstay] at hp'
    have hi := hr p' pk hp'
    rcases hsettled with ⟨-, heq⟩ | ⟨pk', -, hq, heq⟩
    · rwa [heq]
    · -- a swap of other shelves, which its worker has locked
      obtain ⟨hx, hy, -⟩ := has_ready hp'
      obtain ⟨hx', hy'⟩ := has_both hq rfl
      have hne : ∀ {k k' : Fin N}, Has s p' k → Has s p k' → k ≠ k' := by
        rintro k _ hk hk' rfl
        exact he (hk.unique hs hk')
      rw [heq]
      refine (inverted_congr ?_ ?_).mpr hi
      · rw [Function.comp_apply, Equiv.swap_apply_of_ne_of_ne (hne hx hx') (hne hx hy')]
      · rw [Function.comp_apply, Equiv.swap_apply_of_ne_of_ne (hne hy hx') (hne hy hy')]

/-- The swap of a pair that is in the wrong order. -/
theorem Inverted.lt {a : Fin N → Nat} {pk : Pick N} (h : Inverted a pk) :
    inversions (a ∘ Equiv.swap pk.x pk.y) < inversions a := by
  rw [swap_eq]
  exact inversions_swap_lt pk.first_lt_second (inverted_iff.mp h)

/-- No pair of indices allows a swap exactly when everything is in its place. -/
theorem no_inverted_iff {a : Fin N → Nat} (h : Arrangement a) :
    (∀ pk, ¬ Inverted a pk) ↔ ∀ i, a i = i := by
  rw [← h.eq_id_iff]
  constructor
  · intro hn i j hij
    have hpk := hn ⟨i, j, ne_of_lt hij⟩
    exact fun hlt => hpk (.inl ⟨hij, hlt⟩)
  · intro hn pk hi
    exact hn _ _ pk.first_lt_second (inverted_iff.mp hi)

/-- What holds in every state that can be reached. -/
structure Sorting (s : Shop M N) : Prop where
  locked : Locked s
  ready : Ready s
  arrangement : Arrangement (settled s)

theorem settled_opening (log : Fin N → Nat) : settled (opening M log) = log :=
  settled_of_noneHalfDone (locked_opening log) fun p => by cases p <;> simp [opening, startPc]

theorem sorting_opening {log : Fin N → Nat} (hlog : Arrangement log) :
    Sorting (opening M log) where
  locked := locked_opening log
  ready := ready_opening log
  arrangement := by rw [settled_opening]; exact hlog

theorem Sorting.step (hs : Sorting s) (h : Work M N s l t) : Sorting t where
  locked := hs.locked.step op_keeps h
  ready := hs.ready.step hs.locked h
  arrangement := by
    rcases settled_step hs.locked h with ⟨-, heq⟩ | ⟨pk, -, -, heq⟩
    · rw [heq]; exact hs.arrangement
    · rw [heq]; exact hs.arrangement.swap _ _

/-- The first write of a swap. -/
theorem Sorting.swap_lt (hs : Sorting s) (h : Work M N s l t) {pk : Pick N}
    (hl : l.2 = some (.swap pk)) : inversions (settled t) < inversions (settled s) := by
  rcases settled_step hs.locked h with ⟨hn, -⟩ | ⟨pk', -, hq, heq⟩
  · exact absurd hl (hn pk)
  · rw [heq]
    exact (hs.ready _ _ (.inl hq)).lt

/-- How many swaps a run has begun. -/
def swaps (tr : List (Move (Shop M N) (Process M × Option (Event N)))) : Nat :=
  tr.countP fun m => match m.label.2 with
    | some (.swap _) => true
    | _ => false

variable {log : Fin N → Nat} {tr : List (Move (Shop M N) (Process M × Option (Event N)))}

/-- Along a run, the swaps and the inversions that are left are no more than there were. -/
theorem sorting_run (hlog : Arrangement log) (r : Run (Work M N) (opening M log) tr s) :
    Sorting s ∧ swaps tr + inversions (settled s) ≤ inversions log := by
  induction r with
  | refl =>
      refine ⟨sorting_opening hlog, ?_⟩
      rw [settled_opening]
      simp [swaps]
  | @snoc t u tr l r h ih =>
      obtain ⟨ht, hle⟩ := ih
      refine ⟨ht.step h, ?_⟩
      have hadd : swaps (tr ++ [⟨t, l, u⟩]) = swaps tr + swaps [⟨t, l, u⟩] := by
        simp [swaps]
      rcases settled_step ht.locked h with ⟨hn, heq⟩ | ⟨pk, hl, -⟩
      · have hzero : swaps [(⟨t, l, u⟩ : Move (Shop M N) (Process M × Option (Event N)))] = 0 := by
          cases hl : l.2 with
          | none => simp [swaps, hl]
          | some e =>
              cases e with
              | swap pk => exact absurd hl (hn pk)
              | inOrder | report => simp [swaps, hl]
        rw [hadd, hzero, heq]
        exact hle
      · have hone : swaps [(⟨t, l, u⟩ : Move (Shop M N) (Process M × Option (Event N)))] = 1 := by
          simp [swaps, hl]
        have hlt := ht.swap_lt h hl
        omega

/-! ### The manager's verdict -/

/-- The manager has all shelves locked. -/
def HasAll (s : Shop M N) : Prop := ∀ k, Has s .manager k

/-- While the manager has all shelves, no worker is at a place where it has one. -/
theorem HasAll.none_both (hs : Locked s) (ha : HasAll s) {i : Fin M} {q : Pc N}
    {pk : Pick N} (hq : s.pc (.worker i) = q) : mode q ≠ holdsBoth pk := by
  intro hm
  have h := (has_both hq hm).1.unique hs (ha pk.x)
  cases h

/-- The manager goes from one place of its own to another, and the workers likewise. -/
structure Placed (s : Shop M N) : Prop where
  manager : ∃ m, s.pc .manager = .manager m
  worker : ∀ i, ∃ w, s.pc (.worker i) = .worker w

theorem placed_opening (log : Fin N → Nat) : Placed (opening M log) :=
  ⟨⟨_, rfl⟩, fun _ => ⟨_, rfl⟩⟩

/-- A step of a worker. -/
theorem Placed.worker_goes (hp : Placed s) {i : Fin M} {e : Option (Event N)}
    (h : Work M N s (.worker i, e) t) :
    ∃ w, s.pc (.worker i) = .worker w ∧
      (workerOp w).Goes s.data e t.data (t.pc (.worker i)) := by
  obtain ⟨w, hw⟩ := hp.worker i
  obtain ⟨q', hpc, hgoes⟩ := h.goes
  dsimp only at hpc hgoes
  rw [hw] at hgoes
  rw [hpc, Function.update_self]
  exact ⟨w, hw, hgoes⟩

/-- A step of the manager. -/
theorem Placed.manager_goes (hp : Placed s) {e : Option (Event N)}
    (h : Work M N s (.manager, e) t) :
    ∃ m, s.pc .manager = .manager m ∧ (managerOp M m).Goes s.data e t.data (t.pc .manager) := by
  obtain ⟨m, hm⟩ := hp.manager
  obtain ⟨q', hpc, hgoes⟩ := h.goes
  dsimp only at hpc hgoes
  rw [hm] at hgoes
  rw [hpc, Function.update_self]
  exact ⟨m, hm, hgoes⟩

theorem Placed.step (hp : Placed s) (h : Work M N s l t) : Placed t := by
  obtain ⟨p, e⟩ := l
  cases p with
  | worker i =>
      obtain ⟨w, -, hgoes⟩ := hp.worker_goes h
      refine ⟨by rw [h.stays (by simp)]; exact hp.manager, fun j => ?_⟩
      by_cases hj : j = i
      · subst hj
        exact (workerOp_sorted hgoes).2.2
      · rw [h.stays (by simpa using hj)]
        exact hp.worker j
  | manager =>
      obtain ⟨m, -, hgoes⟩ := hp.manager_goes h
      refine ⟨(managerOp_goes hgoes).manager, fun j => ?_⟩
      rw [h.stays (by simp)]
      exact hp.worker j

/-- Everything is in its place, and nobody is about to change that. -/
structure InOrder (s : Shop M N) : Prop where
  log : ∀ k, s.data.log k = k
  noSwap : ∀ p pk, s.pc p ≠ .worker (.swap pk)
  noneHalfDone : NoneHalfDone s

theorem InOrder.not_inverted (hs : InOrder s) (pk : Pick N) : ¬ Inverted s.data.log pk := by
  rw [inverted_iff, hs.log, hs.log]
  exact fun h => absurd pk.first_lt_second (not_lt_of_gt h)

/-- From then on no worker finds a pair to swap. -/
theorem InOrder.step (hs : InOrder s) (h : Work M N s l t) : InOrder t := by
  obtain ⟨p, e⟩ := l
  obtain ⟨q', hpc, hgoes⟩ := h.goes
  dsimp only at hpc hgoes
  rcases goes_log hgoes with hstill | ⟨pk, hq, -⟩ | ⟨pk, v, hq, -⟩
  · refine ⟨fun k => by rw [hstill.log]; exact hs.log k, fun p' pk hp' => ?_, fun p' pk v hp' => ?_⟩
    · rcases moved hpc p' with ⟨-, hq⟩ | ⟨-, hstay⟩
      · rw [hq] at hp'
        exact hs.not_inverted pk (hstill.compared pk (.inl hp'))
      · rw [hstay] at hp'
        exact hs.noSwap p' pk hp'
    · rcases moved hpc p' with ⟨-, hq⟩ | ⟨-, hstay⟩
      · rw [hq] at hp'
        exact hstill.target pk v hp'
      · rw [hstay] at hp'
        exact hs.noneHalfDone p' pk v hp'
  · exact absurd hq (hs.noSwap p pk)
  · exact absurd hq (hs.noneHalfDone p pk v)

/-- The manager's check, and what it concludes from it. -/
structure Verdict (s : Shop M N) : Prop where
  placed : Placed s
  checked : ∀ i, s.pc .manager = .manager (.check i) → ∀ j : Fin N, (j : Nat) < i → s.data.log j = j
  convinced : Convinced (s.pc .manager) → InOrder s
  sorted : s.data.sorted = true → InOrder s

theorem verdict_opening (log : Fin N → Nat) : Verdict (opening M log) where
  placed := placed_opening log
  checked i h := by simp [opening, startPc] at h
  convinced h := h.elim
  sorted h := by simp [opening] at h

/-- The manager checks with all shelves locked. -/
theorem hasAll_check {i : Nat} (h : s.pc .manager = .manager (.check i)) : HasAll s := by
  intro k
  unfold Has
  rw [h]
  exact if_pos k.isLt

/-- Nothing is out of place once the check has come to its end. -/
theorem Verdict.inOrder (hs : Locked s) (hv : Verdict s) {i : Nat}
    (h : s.pc .manager = .manager (.check i)) (hi : N ≤ i) : InOrder s where
  log k := hv.checked i h k (k.isLt.trans_le hi)
  noSwap p pk hp := by
    cases p with
    | manager => rw [h] at hp; cases hp
    | worker j => exact (hasAll_check h).none_both hs hp rfl
  noneHalfDone p pk v hp := by
    cases p with
    | manager => rw [h] at hp; cases hp
    | worker j => exact (hasAll_check h).none_both hs hp rfl

/-- While the manager checks, the workers leave the array alone. -/
theorem HasAll.log_worker (hs : Locked s) (ha : HasAll s) {i : Fin M} {e : Option (Event N)}
    (h : Work M N s (.worker i, e) t) : t.data.log = s.data.log := by
  obtain ⟨q', -, hgoes⟩ := h.goes
  rcases goes_log hgoes with hstill | ⟨pk, hq, -⟩ | ⟨pk, v, hq, -⟩
  · exact hstill.log
  · exact absurd rfl (ha.none_both hs hq)
  · exact absurd rfl (ha.none_both hs hq)

theorem Verdict.step (hs : Locked s) (hv : Verdict s) (h : Work M N s l t) : Verdict t := by
  have hplaced := hv.placed.step h
  obtain ⟨p, e⟩ := l
  cases p with
  | worker i =>
      have hm : t.pc .manager = s.pc .manager := h.stays (by simp)
      obtain ⟨w, -, hgoes⟩ := hv.placed.worker_goes h
      obtain ⟨-, hsorted, -⟩ := workerOp_sorted hgoes
      refine ⟨hplaced, fun j hj => ?_, fun hc => ?_, fun hd => ?_⟩
      · rw [hm] at hj
        rw [(hasAll_check hj).log_worker hs h]
        exact hv.checked j hj
      · rw [hm] at hc
        exact (hv.convinced hc).step h
      · rw [hsorted] at hd
        exact (hv.sorted hd).step h
  | manager =>
      obtain ⟨m, hm, hgoes⟩ := hv.placed.manager_goes h
      have hgo := managerOp_goes hgoes
      refine ⟨hplaced, fun i hi k hk => ?_, fun hc => ?_, fun hd => ?_⟩
      · -- one more place of the array has been checked, or the check starts
        rcases hgo.checked i hi with rfl | ⟨j, hj, rfl, rfl, hlog⟩
        · exact absurd hk (Nat.not_lt_zero _)
        · rw [hgo.log]
          by_cases hkj : (k : Nat) = j
          · subst hkj; exact hlog
          · exact hv.checked j hm k (by omega)
      · rcases hgo.convinced hc with hl | hc
        · obtain ⟨i, rfl, hi⟩ := hgo.verdict hl
          exact (hv.inOrder hs hm hi).step h
        · rw [← hm] at hc
          exact (hv.convinced hc).step h
      · rcases hgo.sorted hd with hd | hc
        · exact (hv.sorted hd).step h
        · rw [← hm] at hc
          exact (hv.convinced hc).step h

/-- The manager finds everything in its place with all shelves locked. -/
theorem Verdict.inOrder_found (hs : Locked s) (hv : Verdict s) {p : Process M}
    (h : Work M N s (p, some .inOrder) t) : p = .manager ∧ HasAll s ∧ InOrder s := by
  cases p with
  | worker i =>
      obtain ⟨w, -, hgoes⟩ := hv.placed.worker_goes h
      rcases (workerOp_sorted hgoes).1 with hl | ⟨pk, hl⟩ <;> cases hl
  | manager =>
      obtain ⟨m, hm, hgoes⟩ := hv.placed.manager_goes h
      obtain ⟨i, rfl, hi⟩ := (managerOp_goes hgoes).verdict rfl
      exact ⟨rfl, hasAll_check hm, hv.inOrder hs hm hi⟩

theorem verdict_run (r : Run (Work M N) (opening M log) tr s) : Locked s ∧ Verdict s := by
  induction r with
  | refl => exact ⟨locked_opening log, verdict_opening log⟩
  | snoc _ h ih =>
      obtain ⟨hs, hv⟩ := ih
      exact ⟨hs.step op_keeps h, hv.step hs h⟩

/-- **The sorting of the shelves.**  Along every run from an arrangement of the items:

* while no swap is half done, the array is an arrangement of the items;
* the first write of a swap leaves strictly fewer inversions, and no more swaps are begun than
  there were inversions at the start;
* while no swap is half done, no pair of indices allows a swap exactly when every item is in its
  place;
* the manager finds everything in its place only with all shelves locked, and then everything is
  in its place there and in every later state; so it is once `sorted` has been set. -/
theorem sorting (hlog : Arrangement log) (r : Run (Work M N) (opening M log) tr s) :
    (NoneHalfDone s → settled s = s.data.log ∧ Arrangement s.data.log) ∧
      (∀ m ∈ tr, ∀ pk, m.label.2 = some (.swap pk) →
        inversions (settled m.after) < inversions (settled m.before)) ∧
      swaps tr ≤ inversions log ∧
      (NoneHalfDone s → ((∀ pk, ¬ Inverted s.data.log pk) ↔ ∀ i, s.data.log i = i)) ∧
      (∀ m ∈ tr, m.label.2 = some .inOrder →
        m.label.1 = .manager ∧ (∀ k, m.before.table (.shelf k) = .locked .manager) ∧
          (∀ k, m.before.data.log k = k) ∧ ∀ k, s.data.log k = k) ∧
      (s.data.sorted = true → ∀ k, s.data.log k = k) := by
  obtain ⟨hs, hswaps⟩ := sorting_run hlog r
  obtain ⟨-, hv⟩ := verdict_run r
  have hperm : NoneHalfDone s → Arrangement s.data.log := fun hn => by
    rw [← settled_of_noneHalfDone hs.locked hn]
    exact hs.arrangement
  refine ⟨fun hn => ⟨settled_of_noneHalfDone hs.locked hn, hperm hn⟩, fun m hm pk hl => ?_,
    by omega, fun hn => no_inverted_iff (hperm hn), fun m hm hl => ?_, fun hd => (hv.sorted hd).log⟩
  · obtain ⟨⟨tr', r'⟩, -⟩ := r.split_at hm
    exact (sorting_run hlog r').1.swap_lt (r.step_of_mem m hm) hl
  · obtain ⟨⟨tr₁, r₁⟩, tr₂, r₂⟩ := r.split_at hm
    have hstep := r.step_of_mem m hm
    obtain ⟨hlocked, hverdict⟩ := verdict_run r₁
    obtain ⟨before, ⟨p, e⟩, after⟩ := m
    dsimp only at hl hstep hlocked hverdict r₂ ⊢
    subst hl
    -- everything is in its place when it is found to be, and stays there
    obtain ⟨rfl, hall, hin⟩ := hverdict.inOrder_found hlocked hstep
    exact ⟨rfl, fun k => (hall k).table hlocked, hin.log,
      (r₂.invariant (fun hi h => hi.step h) (hin.step hstep)).log⟩

/-- The only worker swaps the first two shelves. -/
theorem sorting_one_swap : ∃ (s : Shop 1 8) (tr : _), Run (Work 1 8) (opening 1 twoSwapped) tr s ∧
    swaps tr = 1 ∧ swaps tr ≤ inversions twoSwapped ∧ Arrangement s.data.log := by
  have r := ((((((((((Run.one (.act (.worker 0) _ none _ _ rfl ⟨rfl, rfl, rfl⟩ :
    Work 1 8 (opening 1 twoSwapped) _ _)).snoc
    (.lock (.worker 0) .mxSorted _ _ rfl rfl)).snoc
    (.act (.worker 0) _ none _ _ rfl ⟨rfl, rfl, rfl⟩)).snoc
    (.unlock (.worker 0) .mxSorted _ rfl)).snoc
    (.act (.worker 0) _ none _ _ rfl ⟨rfl, rfl, firstTwo, rfl⟩)).snoc
    (.lock (.worker 0) (.shelf 0) _ _ rfl rfl)).snoc
    (.lock (.worker 0) (.shelf 1) _ _ rfl rfl)).snoc
    (.act (.worker 0) _ none _ (.worker (.swap firstTwo)) rfl
      ⟨rfl, rfl, by rw [if_pos (by decide)]; exact .inr rfl⟩)).snoc
    (.act (.worker 0) _ _ _ _ rfl ⟨rfl, rfl, rfl⟩)).snoc
    (.act (.worker 0) _ none _ _ rfl ⟨rfl, rfl, rfl⟩))
  obtain ⟨hperm, -, hle, -⟩ := sorting (arrangement_id.swap 0 1) r
  refine ⟨_, _, r, rfl, hle, (hperm fun p pk v hp => ?_).2⟩
  cases p with
  | manager => cases hp
  | worker i =>
      obtain rfl : i = 0 := Subsingleton.elim _ _
      cases hp

end Sop2.Bitronka
