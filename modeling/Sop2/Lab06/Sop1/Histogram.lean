import Mathlib.Data.List.Count
import Mathlib.Logic.Function.Basic
import Mathlib.Tactic.Ring
import Sop2.Support.Bytes
import Sop2.Support.Runs

/-!
# Lab06 — sop-1 — the histogram

`lab06/sop-1/sop-1.c`: every child counts the bytes of its part of the file into a table of its own
in shared memory (`create_children`, `program`); main waits for all of them, adds the tables up and
prints the sums, or says that a child has failed (`main`).

A byte counted is one step, and so is the fork of a child.  `mmap` refuses to map a file that is
empty, and `main` gives up then (`ERR`).  What `main` prints of the file beforehand is left out.

* `Partition`: the parts.  They cover the file and do not overlap, whatever its length.
* `Sound`: the invariant.  A table has the counts of the part so far.
* `histogram_law`: all children together count what one would, and `main` gets to say so, unless
  one fails and `main` says that instead — exactly if the file is not empty.
-/

namespace Sop2.Sop1
open Support

/-- `MAX_PROC`. -/
def maxProc : Nat := 10

/-- The file and the number of children.  Its length is an `int`, and so is the number. -/
structure Job where
  file : List UInt8
  N : Nat
  int : (file.length : Int) ≤ int32Max
  pos : 1 ≤ N
  le : N ≤ maxProc

/-- `part * N`, with `part` as `create_children` computes it. -/
def Job.start (job : Job) (k : Nat) : Nat := job.file.length / job.N * k

/-- `end`. -/
def Job.stop (job : Job) (k : Nat) : Nat :=
  if k = job.N - 1 then job.file.length else job.file.length / job.N * (k + 1)

/-- Where a child is. -/
inductive Child where
  | absent
  /-- In the loop of `program`, before the byte `i`. -/
  | counting (i : Nat)
  | locking
  | locked
  | aborted
  | exited

/-- The child is there no more. -/
def Child.ended : Child → Bool
  | .aborted => true
  | .exited => true
  | _ => false

/-- Where `main` is. -/
inductive Main where
  | start
  | creating (n : Nat)
  | waiting
  | done
  /-- `ERR`. -/
  | failed

/-- A line that `main` prints at the end. -/
inductive Line where
  | unsuccessful
  | count (c : UInt8) (n : Nat)

/-- What `main` prints for the sums `total`. -/
def report (failed : Bool) (total : UInt8 → Nat) : List Line :=
  (if failed then [.unsuccessful] else []) ++
    ((((List.range 256).map UInt8.ofNat).filter fun c => total c > 0).map fun c =>
      .count c (total c))

/-- The processes and the shared memory. -/
structure State where
  main : Main
  child : Nat → Child
  signs : Nat → UInt8 → Nat
  failed : Bool
  mxFailed : Option Nat
  /-- The sums, once they are computed. -/
  totalCounts : Option (UInt8 → Nat)
  printed : List Line

def begin : State := ⟨.start, fun _ => .absent, fun _ _ => 0, false, none, none, []⟩

/-- The sums that `main` computes. -/
def totals (N : Nat) (s : State) (c : UInt8) : Nat :=
  if s.failed then 0 else ((List.range N).map fun j => s.signs j c).sum

inductive Label where
  | main
  | child (k : Nat)

/-- One step of a process. -/
inductive Step (job : Job) : State → Label → State → Prop where
  | mmap {s : State} (h : s.main = .start) (hf : job.file ≠ []) :
      Step job s .main { s with main := .creating job.N }
  | mmapFails {s : State} (h : s.main = .start) (hf : job.file = []) :
      Step job s .main { s with main := .failed }
  | fork {s : State} (n : Nat) (h : s.main = .creating (n + 1)) :
      Step job s .main
        { s with
          main := .creating n
          child := Function.update s.child n (.counting (job.start n)) }
  | created {s : State} (h : s.main = .creating 0) : Step job s .main { s with main := .waiting }
  | count {s : State} (k i : Nat) (c : UInt8) (h : s.child k = .counting i)
      (hi : i < job.stop k) (hc : job.file[i]? = some c) :
      Step job s (.child k)
        { s with
          child := Function.update s.child k (.counting (i + 1))
          signs := Function.update s.signs k
            (Function.update (s.signs k) c (s.signs k c + 1)) }
  | exit {s : State} (k i : Nat) (h : s.child k = .counting i) (hi : ¬ i < job.stop k) :
      Step job s (.child k) { s with child := Function.update s.child k .exited }
  /-- The child has drawn the failure. -/
  | fail {s : State} (k i : Nat) (h : s.child k = .counting i) (hi : ¬ i < job.stop k) :
      Step job s (.child k) { s with child := Function.update s.child k .locking }
  | lock {s : State} (k : Nat) (h : s.child k = .locking) (hm : s.mxFailed = none) :
      Step job s (.child k)
        { s with child := Function.update s.child k .locked, mxFailed := some k }
  | abort {s : State} (k : Nat) (h : s.child k = .locked) :
      Step job s (.child k)
        { s with
          child := Function.update s.child k .aborted
          failed := true
          mxFailed := none }
  /-- `wait` has no child to wait for. -/
  | merge {s : State} (h : s.main = .waiting) (hw : ∀ k < job.N, (s.child k).ended = true) :
      Step job s .main
        { s with
          main := .done
          totalCounts := some (totals job.N s)
          printed := s.printed ++ report s.failed (totals job.N s) }

/-- The parts cover the file, and no two of them overlap. -/
def Partition (job : Job) : Prop :=
  (∀ i, i < job.file.length ↔ ∃ k < job.N, job.start k ≤ i ∧ i < job.stop k) ∧
    ∀ i k k', k < job.N → k' < job.N → job.start k ≤ i ∧ i < job.stop k →
      job.start k' ≤ i ∧ i < job.stop k' → k = k'

/-- What `main` has come to say. -/
structure Reported (job : Job) (s : State) : Prop where
  ends : (∀ l t, ¬ Step job s l t) → s.main = .done
  counts : s.main = .done → (∀ k < job.N, s.child k ≠ .aborted) →
    s.totalCounts = some (fun c => job.file.count c) ∧
      s.printed = report false fun c => job.file.count c
  fails : s.main = .done → ∀ k < job.N, s.child k = .aborted → s.printed = [.unsuccessful]
  early : s.main ≠ .done → s.printed = []

/-! ### The parts -/

variable {job : Job}

/-- Where the part `k` starts, and where the last one stops. -/
def Job.bound (job : Job) (k : Nat) : Nat := if k = job.N then job.file.length else job.start k

theorem Job.start_eq {k : Nat} (hk : k < job.N) : job.start k = job.bound k :=
  (if_neg (Nat.ne_of_lt hk)).symm

theorem Job.stop_eq {k : Nat} (hk : k < job.N) : job.stop k = job.bound (k + 1) := by
  unfold stop bound start
  by_cases h : k = job.N - 1
  · rw [if_pos h, if_pos (by omega)]
  · rw [if_neg h, if_neg (by omega)]

theorem Job.bound_le (job : Job) {k k' : Nat} (h : k ≤ k') (hk : k' ≤ job.N) :
    job.bound k ≤ job.bound k' := by
  have hall : job.start k ≤ job.file.length :=
    (Nat.mul_le_mul_left _ (h.trans hk)).trans (Nat.div_mul_le_self ..)
  unfold bound
  by_cases hk' : k' = job.N
  · rw [if_pos hk']
    split
    · exact le_rfl
    · exact hall
  · rw [if_neg hk', if_neg (by omega)]
    exact Nat.mul_le_mul_left _ h

theorem Job.bound_zero (job : Job) : job.bound 0 = 0 := by
  have := job.pos
  rw [bound, if_neg (by omega), start, Nat.mul_zero]

theorem Job.bound_N (job : Job) : job.bound job.N = job.file.length := if_pos rfl

/-- **The parts.**  Their bounds are in order, from the first byte to the last. -/
theorem partition (job : Job) : Partition job := by
  refine ⟨fun i => ⟨fun hi => ?_, ?_⟩, fun i k k' hk hk' h h' => ?_⟩
  · -- the last bound that is not behind `i`
    suffices hm : ∀ m ≤ job.N, i < job.bound m →
        ∃ k < m, job.bound k ≤ i ∧ i < job.bound (k + 1) by
      obtain ⟨k, hk, h₁, h₂⟩ := hm job.N le_rfl (job.bound_N.symm ▸ hi)
      exact ⟨k, hk, (Job.start_eq hk).symm ▸ h₁, (Job.stop_eq hk).symm ▸ h₂⟩
    intro m
    induction m with
    | zero =>
        intro _ h
        rw [job.bound_zero] at h
        omega
    | succ m ih =>
        intro hm h
        by_cases hlt : i < job.bound m
        · obtain ⟨k, hk, hb⟩ := ih (by omega) hlt
          exact ⟨k, by omega, hb⟩
        · exact ⟨m, Nat.lt_succ_self m, by omega, h⟩
  · rintro ⟨k, hk, -, hi⟩
    rw [Job.stop_eq hk] at hi
    exact lt_of_lt_of_le hi (job.bound_N ▸ job.bound_le hk le_rfl)
  · rw [Job.start_eq hk, Job.stop_eq hk] at h
    rw [Job.start_eq hk', Job.stop_eq hk'] at h'
    rcases Nat.lt_trichotomy k k' with hlt | heq | hlt
    · have := job.bound_le (show k + 1 ≤ k' from hlt) hk'.le
      omega
    · exact heq
    · have := job.bound_le (show k' + 1 ≤ k from hlt) hk.le
      omega

/-- How often `c` is among the bytes from `a` to `b`. -/
def countIn (file : List UInt8) (a b : Nat) (c : UInt8) : Nat := ((file.take b).drop a).count c

theorem countIn_self (file : List UInt8) (a : Nat) (c : UInt8) : countIn file a a c = 0 := by
  rw [countIn, List.drop_eq_nil_of_le (List.length_take_le ..), List.count_nil]

theorem countIn_add (file : List UInt8) {a b : Nat} (h : a ≤ b) (c : UInt8) :
    (file.take a).count c + countIn file a b c = (file.take b).count c := by
  have htake : file.take a = (file.take b).take a := by rw [List.take_take, Nat.min_eq_left h]
  rw [countIn, htake, ← List.count_append, List.take_append_drop]

theorem countIn_succ {file : List UInt8} {a i : Nat} (h : a ≤ i) {d : UInt8}
    (hd : file[i]? = some d) (c : UInt8) :
    countIn file a (i + 1) c = countIn file a i c + if c = d then 1 else 0 := by
  have h₁ := countIn_add file h c
  have h₂ := countIn_add file (show a ≤ i + 1 by omega) c
  rw [List.take_add_one, hd, Option.toList_some, List.count_append] at h₂
  have hone : [d].count c = if c = d then 1 else 0 := by
    by_cases e : c = d
    · simp [e]
    · simp [e, Ne.symm e]
  omega

/-- All parts together. -/
theorem sum_countIn (job : Job) (c : UInt8) :
    ((List.range job.N).map fun k => countIn job.file (job.start k) (job.stop k) c).sum
      = job.file.count c := by
  have hm : ∀ m ≤ job.N,
      ((List.range m).map fun k => countIn job.file (job.start k) (job.stop k) c).sum
        = (job.file.take (job.bound m)).count c := by
    intro m
    induction m with
    | zero =>
        intro _
        simp [job.bound_zero]
    | succ m ih =>
        intro hm
        rw [List.range_succ, List.map_append, List.sum_append, ih (by omega), List.map_singleton,
          List.sum_singleton, Job.start_eq hm, Job.stop_eq hm]
        exact countIn_add job.file (job.bound_le (Nat.le_succ m) hm) c
  rw [hm job.N le_rfl, job.bound_N, List.take_length]

/-! ### One step -/

/-- The bytes up to which a child has counted. -/
def Child.upto (start stop : Nat) : Child → Nat
  | .absent => start
  | .counting i => i
  | _ => stop

/-- Which children there are, by where `main` is. -/
def Main.Created (N : Nat) (child : Nat → Child) : Main → Prop
  | .start => ∀ k < N, child k = .absent
  | .creating n => n ≤ N ∧ ∀ k < N, k < n ↔ child k = .absent
  | .waiting => ∀ k < N, child k ≠ .absent
  | .done => ∀ k < N, (child k).ended = true
  | .failed => True

/-- The tables, the flag and what `main` knows of the children. -/
structure Sound (job : Job) (s : State) : Prop where
  created : s.main.Created job.N s.child
  upto : ∀ k < job.N, job.start k ≤ (s.child k).upto (job.start k) (job.stop k) ∧
    (s.child k).upto (job.start k) (job.stop k) ≤ job.stop k
  signs : ∀ k < job.N, ∀ c, s.signs k c =
    countIn job.file (job.start k) ((s.child k).upto (job.start k) (job.stop k)) c
  behind : ∀ k, job.N ≤ k → s.child k = .absent
  failed : s.failed = true ↔ ∃ k < job.N, s.child k = .aborted
  mutex : ∀ k, s.mxFailed = some k → s.child k = .locked
  done : s.main = .done → s.totalCounts = some (totals job.N s) ∧
    s.printed = report s.failed (totals job.N s)
  early : s.main ≠ .done → s.printed = []
  killed : s.main = .failed → job.file = []

theorem Job.start_le_stop {k : Nat} (hk : k < job.N) : job.start k ≤ job.stop k := by
  rw [Job.start_eq hk, Job.stop_eq hk]
  exact job.bound_le (Nat.le_succ k) hk

theorem sound_begin (job : Job) : Sound job begin where
  created := fun _ _ => rfl
  upto k hk := ⟨le_rfl, Job.start_le_stop hk⟩
  signs k _ c := (countIn_self ..).symm
  behind _ _ := rfl
  failed := by simp [begin]
  mutex := nofun
  done := nofun
  early _ := rfl
  killed := nofun

variable {s t : State} {l : Label}

/-- A child that moves is one of the `N`, and `main` is not done. -/
theorem Sound.present (h : Sound job s) {k : Nat} (hk : s.child k ≠ .absent) : k < job.N := by
  by_contra hlt
  exact hk (h.behind k (by omega))

/-- A child that was there moves on and is still there, or has ended. -/
theorem Sound.created_move (h : Sound job s) {k : Nat} {q : Child} (hk : s.child k ≠ .absent)
    (hended : (s.child k).ended = false) (hq : q ≠ .absent) :
    s.main ≠ .done ∧ s.main.Created job.N (Function.update s.child k q) := by
  have hlt := h.present hk
  have hc := h.created
  have hother : ∀ j, Function.update s.child k q j = .absent ↔ s.child j = .absent := fun j => by
    by_cases hj : j = k
    · subst hj
      simp [hq, hk]
    · rw [Function.update_of_ne hj]
  cases hm : s.main with
  | start =>
      rw [hm] at hc
      exact (hk (hc k hlt)).elim
  | creating n =>
      rw [hm] at hc
      exact ⟨nofun, hc.1, fun j hj => (hc.2 j hj).trans (hother j).symm⟩
  | waiting =>
      rw [hm] at hc
      exact ⟨nofun, fun j hj e => hc j hj ((hother j).mp e)⟩
  | done =>
      rw [hm] at hc
      have := hc k hlt
      rw [hended] at this
      cases this
  | failed => exact ⟨nofun, trivial⟩

/-- **A child moves on** from where it is to `q`, with the table of its part so far. -/
theorem Sound.move (h : Sound job s) {k : Nat} {q : Child} (signs : UInt8 → Nat) {failed : Bool}
    {mx : Option Nat} (hk : s.child k ≠ .absent) (hended : (s.child k).ended = false)
    (hq : q ≠ .absent)
    (hupto : job.start k ≤ q.upto (job.start k) (job.stop k) ∧
      q.upto (job.start k) (job.stop k) ≤ job.stop k)
    (hsigns : ∀ c, signs c = countIn job.file (job.start k) (q.upto (job.start k) (job.stop k)) c)
    (hfailed : failed = true ↔ ∃ j < job.N, Function.update s.child k q j = .aborted)
    (hmx : ∀ j, mx = some j → Function.update s.child k q j = .locked) :
    Sound job
      { s with
        child := Function.update s.child k q
        signs := Function.update s.signs k signs
        failed := failed
        mxFailed := mx } := by
  have hlt := h.present hk
  obtain ⟨hdone, hcreated⟩ := h.created_move hk hended hq
  exact
    { created := hcreated
      upto := (Function.forall_update_iff s.child fun j q => j < job.N →
        job.start j ≤ q.upto (job.start j) (job.stop j) ∧
          q.upto (job.start j) (job.stop j) ≤ job.stop j).mpr
        ⟨fun _ => hupto, fun j _ => h.upto j⟩
      signs := fun j hj c => by
        dsimp only
        by_cases hjk : j = k
        · subst hjk
          rw [Function.update_self, Function.update_self, hsigns]
        · rw [Function.update_of_ne hjk, Function.update_of_ne hjk, h.signs j hj]
      behind := (Function.forall_update_iff s.child fun j q => job.N ≤ j → q = .absent).mpr
        ⟨fun hge => by omega, fun j _ => h.behind j⟩
      failed := hfailed
      mutex := hmx
      done := fun hd => (hdone hd).elim
      early := h.early
      killed := h.killed }

/-- A child that moves on without failing changes nothing about who has failed. -/
theorem Sound.failed_update (h : Sound job s) (k : Nat) (q : Child) (hk : s.child k ≠ .aborted)
    (hq : q ≠ .aborted) :
    s.failed = true ↔ ∃ j < job.N, Function.update s.child k q j = .aborted := by
  refine h.failed.trans (exists_congr fun j => and_congr_right fun _ => ?_)
  by_cases hj : j = k
  · subst hj
    rw [Function.update_self]
    exact ⟨fun e => (hk e).elim, fun e => (hq e).elim⟩
  · rw [Function.update_of_ne hj]

/-- The mutex stays with its owner. -/
theorem Sound.mutex_update (h : Sound job s) {k : Nat} {q : Child} (hk : s.child k ≠ .locked)
    (j : Nat) (hj : s.mxFailed = some j) : Function.update s.child k q j = .locked := by
  have hown := h.mutex j hj
  have hne : j ≠ k := fun e => hk (e ▸ hown)
  rwa [Function.update_of_ne hne]

/-- A child that has counted its part goes on to `q`. -/
theorem Sound.counted (h : Sound job s) {k : Nat} {q : Child} {failed : Bool} {mx : Option Nat}
    (hk : s.child k ≠ .absent) (hended : (s.child k).ended = false)
    (hall : (s.child k).upto (job.start k) (job.stop k) = job.stop k)
    (hq : ∀ a b, q.upto a b = b) (hq' : q ≠ .absent)
    (hfailed : failed = true ↔ ∃ j < job.N, Function.update s.child k q j = .aborted)
    (hmx : ∀ j, mx = some j → Function.update s.child k q j = .locked) :
    Sound job
      { s with child := Function.update s.child k q, failed := failed, mxFailed := mx } := by
  have hlt := h.present hk
  have hmove := h.move (s.signs k) hk hended hq'
    ⟨(hq _ _).symm ▸ Job.start_le_stop hlt, (hq _ _).le⟩
    (fun c => by rw [hq, h.signs k hlt, hall]) hfailed hmx
  rwa [Function.update_eq_self] at hmove

theorem Sound.step (h : Sound job s) (hs : Step job s l t) : Sound job t := by
  cases hs with
  | mmap hm hf =>
      have hc := h.created
      rw [hm] at hc
      exact { h with
        created := ⟨le_rfl, fun k hk => ⟨fun _ => hc k hk, fun _ => hk⟩⟩
        done := nofun
        early := fun _ => h.early (by rw [hm]; exact nofun)
        killed := nofun }
  | mmapFails hm hf =>
      exact { h with
        created := trivial
        done := nofun
        early := fun _ => h.early (by rw [hm]; exact nofun)
        killed := fun _ => hf }
  | fork n hm =>
      have hc := h.created
      rw [hm] at hc
      obtain ⟨hle, hc⟩ := hc
      have hn : s.child n = .absent := (hc n (by omega)).mp (Nat.lt_succ_self n)
      have hsigns := h.signs n (by omega)
      rw [hn] at hsigns
      exact
        { created := ⟨by omega, fun j hj => by
            dsimp only
            by_cases hjn : j = n
            · subst hjn
              simp
            · rw [Function.update_of_ne hjn, ← hc j hj]
              omega⟩
          upto := (Function.forall_update_iff s.child fun j q => j < job.N →
            job.start j ≤ q.upto (job.start j) (job.stop j) ∧
              q.upto (job.start j) (job.stop j) ≤ job.stop j).mpr
            ⟨fun hlt => ⟨le_rfl, Job.start_le_stop hlt⟩, fun j _ => h.upto j⟩
          signs := (Function.forall_update_iff s.child fun j q => j < job.N → ∀ c, s.signs j c =
            countIn job.file (job.start j) (q.upto (job.start j) (job.stop j)) c).mpr
            ⟨fun _ => hsigns, fun j _ => h.signs j⟩
          behind := (Function.forall_update_iff s.child fun j q => job.N ≤ j → q = .absent).mpr
            ⟨fun hge => by omega, fun j _ => h.behind j⟩
          failed := h.failed_update n (.counting (job.start n)) (by simp [hn]) nofun
          mutex := h.mutex_update (by simp [hn])
          done := nofun
          early := fun _ => h.early (by rw [hm]; exact nofun)
          killed := nofun }
  | created hm =>
      have hc := h.created
      rw [hm] at hc
      exact { h with
        created := fun k hk e => absurd ((hc.2 k hk).mpr e) (Nat.not_lt_zero k)
        done := nofun
        early := fun _ => h.early (by rw [hm]; exact nofun)
        killed := nofun }
  | count k i c hk hi hc =>
      have hlt := h.present (k := k) (by simp [hk])
      have hupto := h.upto k hlt
      have hsigns := h.signs k hlt
      rw [hk, Child.upto] at hupto
      rw [hk] at hsigns
      refine h.move (q := .counting (i + 1)) _ (by simp [hk]) (by rw [hk]; rfl) nofun
        ⟨Nat.le_succ_of_le hupto.1, hi⟩ (fun d => ?_)
        (h.failed_update k (.counting (i + 1)) (by simp [hk]) nofun)
        (h.mutex_update (by simp [hk]))
      have hd := hsigns d
      rw [Child.upto] at hd
      rw [Child.upto, countIn_succ hupto.1 hc, Function.update_apply]
      split
      · rename_i e
        rw [e] at hd ⊢
        omega
      · omega
  | exit k i hk hi =>
      have hupto := (h.upto k (h.present (by simp [hk]))).2
      rw [hk, Child.upto] at hupto
      exact h.counted (q := .exited) (by simp [hk]) (by rw [hk]; rfl)
        (by rw [hk, Child.upto]; omega) (fun _ _ => rfl) nofun
        (h.failed_update k .exited (by simp [hk]) nofun)
        (h.mutex_update (by simp [hk]))
  | fail k i hk hi =>
      have hupto := (h.upto k (h.present (by simp [hk]))).2
      rw [hk, Child.upto] at hupto
      exact h.counted (q := .locking) (by simp [hk]) (by rw [hk]; rfl)
        (by rw [hk, Child.upto]; omega) (fun _ _ => rfl) nofun
        (h.failed_update k .locking (by simp [hk]) nofun)
        (h.mutex_update (by simp [hk]))
  | lock k hk hm =>
      exact h.counted (q := .locked) (by simp [hk]) (by rw [hk]; rfl) (by rw [hk]; rfl)
        (fun _ _ => rfl) nofun (h.failed_update k .locked (by simp [hk]) nofun)
        fun j hj => by rw [← Option.some.inj hj, Function.update_self]
  | abort k hk =>
      exact h.counted (q := .aborted) (by simp [hk]) (by rw [hk]; rfl) (by rw [hk]; rfl)
        (fun _ _ => rfl) nofun
        ⟨fun _ => ⟨k, h.present (by simp [hk]), Function.update_self ..⟩, fun _ => rfl⟩ nofun
  | merge hm hw =>
      exact { h with
        created := hw
        done := fun _ => ⟨rfl, by rw [h.early (by rw [hm]; exact nofun)]; rfl⟩
        early := fun hd => (hd rfl).elim
        killed := nofun }

/-! ### The whole run -/

/-- The sums when nobody has failed. -/
theorem Sound.totals_eq (h : Sound job s) (hd : s.main = .done)
    (hok : ∀ k < job.N, s.child k ≠ .aborted) :
    s.failed = false ∧ totals job.N s = fun c => job.file.count c := by
  have hfailed : s.failed = false := by
    cases hf : s.failed with
    | false => rfl
    | true =>
        obtain ⟨k, hk, e⟩ := h.failed.mp hf
        exact (hok k hk e).elim
  refine ⟨hfailed, funext fun c => ?_⟩
  have hc := h.created
  rw [hd] at hc
  rw [totals, hfailed, if_neg Bool.false_ne_true, ← sum_countIn]
  congr 1
  refine List.map_congr_left fun k hk => ?_
  have hlt := List.mem_range.mp hk
  rw [h.signs k hlt]
  have hended := hc k hlt
  cases he : s.child k with
  | absent | counting | locking | locked =>
      rw [he] at hended
      cases hended
  | aborted | exited => rfl

/-- A process can move as long as `main` is not done. -/
theorem Sound.moves (h : Sound job s) (hne : job.file ≠ []) (hd : s.main ≠ .done) :
    ∃ l t, Step job s l t := by
  cases hm : s.main with
  | start => exact ⟨_, _, .mmap hm hne⟩
  | creating n =>
      cases n with
      | zero => exact ⟨_, _, .created hm⟩
      | succ n => exact ⟨_, _, .fork n hm⟩
  | done => exact (hd hm).elim
  | failed => exact (hne (h.killed hm)).elim
  | waiting =>
      by_cases hw : ∀ k < job.N, (s.child k).ended = true
      · exact ⟨_, _, .merge hm hw⟩
      · -- a child that has not ended moves, or the owner of the mutex does
        push Not at hw
        obtain ⟨k, hk, hended⟩ := hw
        have hc := h.created
        rw [hm] at hc
        cases he : s.child k with
        | absent => exact (hc k hk he).elim
        | counting i =>
            by_cases hi : i < job.stop k
            · have hlen : i < job.file.length := by
                rw [Job.stop_eq hk] at hi
                exact lt_of_lt_of_le hi (job.bound_N ▸ job.bound_le hk le_rfl)
              exact ⟨_, _, .count k i _ he hi (List.getElem?_eq_getElem hlen)⟩
            · exact ⟨_, _, .exit k i he hi⟩
        | locking =>
            cases hmx : s.mxFailed with
            | none => exact ⟨_, _, .lock k he hmx⟩
            | some j => exact ⟨_, _, .abort j (h.mutex j hmx)⟩
        | locked => exact ⟨_, _, .abort k he⟩
        | aborted | exited =>
            rw [he] at hended
            exact (hended rfl).elim

theorem report_failed (s : State) (N : Nat) (hf : s.failed = true) :
    report s.failed (totals N s) = [.unsuccessful] := by
  have hnone : ((List.range 256).map UInt8.ofNat).filter (fun c => totals N s c > 0) = [] :=
    List.filter_eq_nil_iff.mpr fun c _ => by simp [totals, hf]
  rw [report, hnone, hf]
  rfl

variable {tr : List (Move State Label)}

theorem sound_run (r : Run (Step job) begin tr t) : Sound job t :=
  r.invariant (fun h hs => h.step hs) (sound_begin job)

/-- Nothing happens with an empty file, except that `main` fails to map it. -/
theorem emptyFile_stuck (job : Job) (he : job.file = []) :
    Run (Step job) begin [⟨begin, .main, { begin with main := .failed }⟩]
      { begin with main := .failed } ∧
      ∀ l t, ¬ Step job { begin with main := .failed } l t := by
  refine ⟨.one (.mmapFails rfl he), fun l t hs => ?_⟩
  cases hs with
  | mmap h | mmapFails h | fork _ h | created h | count _ _ _ h | exit _ _ h | fail _ _ h
  | lock _ h | abort _ h | merge h => cases h

/-- **The histogram.**  The parts of the children cover the file and do not overlap.  In every run,
`main` gets to its end; if no child has failed, the sums are the counts of the bytes of the file,
and `main` prints them; if one has, `main` says so and prints no count — exactly if the file is not
empty. -/
theorem histogram_law (job : Job) :
    (Partition job ∧ ∀ tr t, Run (Step job) begin tr t → Reported job t) ↔ job.file ≠ [] := by
  constructor
  · rintro ⟨-, hall⟩ he
    obtain ⟨r, hstuck⟩ := emptyFile_stuck job he
    exact absurd ((hall _ _ r).ends hstuck) nofun
  · intro hne
    refine ⟨partition job, fun tr t r => ?_⟩
    have h := sound_run r
    refine ⟨fun hstuck => ?_, fun hd hok => ?_, fun hd k hk e => ?_, h.early⟩
    · by_contra hd
      obtain ⟨l, u, hs⟩ := h.moves hne hd
      exact hstuck l u hs
    · obtain ⟨hfailed, htotals⟩ := h.totals_eq hd hok
      obtain ⟨hcounts, hprinted⟩ := h.done hd
      rw [htotals] at hcounts hprinted
      rw [hfailed] at hprinted
      exact ⟨hcounts, hprinted⟩
    · rw [(h.done hd).2]
      exact report_failed t job.N (h.failed.mpr ⟨k, hk, e⟩)

/-- An empty file and one child. -/
def emptyJob : Job := ⟨[], 1, by decide, le_rfl, by decide⟩

/-- `main` ends with an error, and no sums are computed. -/
theorem emptyFile_killed : ∃ tr t, Run (Step emptyJob) begin tr t ∧ t.main = .failed ∧
    t.totalCounts = none ∧ (∀ k, t.child k ≠ .aborted) ∧ (∀ l u, ¬ Step emptyJob t l u) ∧
    ¬ Reported emptyJob t := by
  obtain ⟨r, hstuck⟩ := emptyFile_stuck emptyJob rfl
  exact ⟨_, _, r, rfl, rfl, nofun, hstuck, fun h => absurd (h.ends hstuck) nofun⟩

end Sop2.Sop1
