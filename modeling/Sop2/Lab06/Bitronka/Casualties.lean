import Sop2.Lab06.Bitronka.Sorting
import Sop2.Support.Tally

/-!
# Lab06 — Bitronka — the casualties

How the dead are counted.  A worker dies with two shelves locked, and each of them is found, at
some time, by whoever locks it next; that one adds one to `dead`.  So the count, the shelves not
yet found and the shelves found but not yet counted are together twice the number of deaths
(`Counted`).

While the manager has all shelves locked the count is exact (`HasAll.dead_eq`).
-/

namespace Sop2.Bitronka
open Support Support.Robust

variable {M N : Nat}

/-! ### What is counted -/

/-- Before `shared_data->dead++`. -/
def Recovery.uncounted : Recovery → Bool
  | .lockDead | .increment => true
  | .unlockDead | .consistent => false

/-- The process has been handed a dead worker's shelf, and has not yet counted it. -/
def uncounted : Pc N → Bool
  | .worker (.recoverFirst r _) | .worker (.recoverSecond r _) | .manager (.recover r _) =>
      r.uncounted
  | _ => false

/-- The place of a worker that has died. -/
def hasDied : Pc N → Bool
  | .worker .died => true
  | _ => false

/-- The number of shelves whose owner has died, and that nobody has locked since. -/
def abandoned (s : Shop M N) : ℕ :=
  tally (fun m => decide (m = .ownerDead)) fun k : Fin N => s.table (.shelf k)

/-- The number of shelves that have been locked since, and not yet counted. -/
def pending (s : Shop M N) : ℕ := tally uncounted s.pc

/-- The number of workers that have died. -/
def died (s : Shop M N) : ℕ := tally hasDied fun i : Fin M => s.pc (.worker i)

/-- What every operation does to the count. -/
def Counts (q : Pc N) : ShopOp N → Prop
  | .lock (.shelf _) ok ownerDead =>
      (uncounted q = false ∧ uncounted ok = false ∧ uncounted ownerDead = true) ∧
        hasDied ok = false ∧ hasDied ownerDead = false
  | .lock _ ok ownerDead =>
      uncounted ok = uncounted q ∧ hasDied ok = false ∧ hasDied ownerDead = false
  | .unlock _ next | .consistent _ next =>
      uncounted next = uncounted q ∧ hasDied next = false
  | .act rel => ∀ d l d' next, rel d l d' next →
      (d.dead ≤ d'.dead ∧ d'.dead + (uncounted next).toNat = d.dead + (uncounted q).toNat) ∧
        hasDied next = false
  | .abort next => ∃ pk, q = .worker (.trip pk) ∧ next = .worker .died
  | .halt => True

/-! ### The operations -/

/-- An operation that leaves the shared data alone. -/
theorem goto_counts {q : Pc N} {next : Shelves N → Pc N} (hq : uncounted q = false)
    (hn : ∀ d, uncounted (next d) = false ∧ hasDied (next d) = false) : Counts q (goto next) := by
  rintro d l d' q' ⟨-, rfl, rfl⟩
  obtain ⟨hu, hd⟩ := hn d'
  exact ⟨⟨le_rfl, by rw [hu, hq]⟩, hd⟩

theorem recoverOp_counts (i : Fin N) (again : Recovery → Pc N) (next : Pc N)
    (ha : ∀ r, uncounted (again r) = r.uncounted ∧ hasDied (again r) = false)
    (hn : uncounted next = false ∧ hasDied next = false) (r : Recovery) :
    Counts (again r) (recoverOp i again next r) := by
  cases r with
  | lockDead => exact ⟨by rw [(ha _).1, (ha _).1]; rfl, (ha _).2, (ha _).2⟩
  | increment =>
      rintro d l d' q' ⟨-, rfl, rfl⟩
      exact ⟨⟨Nat.le_succ _, by rw [(ha _).1, (ha _).1]; rfl⟩, (ha _).2⟩
  | unlockDead => exact ⟨by rw [(ha _).1, (ha _).1]; rfl, (ha _).2⟩
  | consistent => exact ⟨by rw [hn.1, (ha _).1]; rfl, hn.2⟩

theorem workerOp_counts (w : WorkerPc N) : Counts (.worker w) (workerOp w) := by
  cases w with
  | loop => exact goto_counts rfl fun d => by cases d.sorted <;> exact ⟨rfl, rfl⟩
  | testSorted => exact goto_counts rfl fun d => ⟨rfl, rfl⟩
  | unlockSorted leave => cases leave <;> exact ⟨rfl, rfl⟩
  | recoverFirst r pk =>
      exact recoverOp_counts pk.first (fun r => .worker (.recoverFirst r pk))
        (.worker (.lockSecond pk)) (fun r => ⟨rfl, rfl⟩) ⟨rfl, rfl⟩ r
  | recoverSecond r pk =>
      exact recoverOp_counts pk.second (fun r => .worker (.recoverSecond r pk))
        (.worker (.compare pk)) (fun r => ⟨rfl, rfl⟩) ⟨rfl, rfl⟩ r
  | lockFirst | lockSecond => exact ⟨⟨rfl, rfl, rfl⟩, rfl, rfl⟩
  | pick =>
      rintro d l d' q' ⟨-, rfl, pk, rfl⟩
      exact ⟨⟨le_rfl, rfl⟩, rfl⟩
  | compare pk =>
      rintro d l d' q' ⟨-, rfl, hq⟩
      split at hq
      · rcases hq with rfl | rfl <;> exact ⟨⟨le_rfl, rfl⟩, rfl⟩
      · rw [hq]; exact ⟨⟨le_rfl, rfl⟩, rfl⟩
  | swap pk | swapped pk x =>
      rintro d l d' q' ⟨-, rfl, rfl⟩
      exact ⟨⟨le_rfl, rfl⟩, rfl⟩
  | trip pk => exact ⟨pk, rfl, rfl⟩
  | lockSorted => exact ⟨rfl, rfl, rfl⟩
  | unlockSecond | unlockFirst => exact ⟨rfl, rfl⟩
  | exited | died => trivial

theorem managerOp_counts (m : ManagerPc N) : Counts (.manager m) (managerOp M m) := by
  cases m with
  | start => exact goto_counts rfl fun d => ⟨rfl, rfl⟩
  | lock i =>
      rw [managerOp]
      split
      · exact ⟨⟨rfl, rfl, rfl⟩, rfl, rfl⟩
      · exact goto_counts rfl fun d => ⟨rfl, rfl⟩
  | recover r i =>
      exact recoverOp_counts i (fun r => .manager (.recover r i)) (.manager (.lock (i + 1)))
        (fun r => ⟨rfl, rfl⟩) ⟨rfl, rfl⟩ r
  | check i =>
      rw [managerOp]
      split
      · refine goto_counts rfl fun d => ?_
        split <;> exact ⟨rfl, rfl⟩
      · rintro d l d' q' ⟨-, rfl, rfl⟩
        exact ⟨⟨le_rfl, rfl⟩, rfl⟩
  | unlock i sorted =>
      rw [managerOp]
      split
      · exact ⟨rfl, rfl⟩
      · exact goto_counts rfl fun d => ⟨rfl, rfl⟩
  | report sorted | setSorted =>
      rintro d l d' q' ⟨-, rfl, rfl⟩
      exact ⟨⟨le_rfl, rfl⟩, rfl⟩
  | unlockDead sorted all => cases all <;> cases sorted <;> exact ⟨rfl, rfl⟩
  | lockDead | lockSorted => exact ⟨rfl, rfl, rfl⟩
  | unlockSorted => exact ⟨rfl, rfl⟩
  | exited => trivial

theorem op_counts (q : Pc N) : Counts q (op M q) := by
  cases q with
  | worker w => exact workerOp_counts w
  | manager m => exact managerOp_counts m

/-- A process that has not ended has not died. -/
theorem hasDied_of_ne_halt {q : Pc N} (h : op M q ≠ .halt) : hasDied q = false := by
  unfold hasDied
  split
  · exact absurd rfl h
  · rfl

/-- A worker dies in a trip. -/
theorem goes_died {q q' : Pc N} {d d' : Shelves N} {l : Option (Event N)}
    (h : (op M q).Goes d l d' q') (hd : hasDied q' = true) :
    l = none ∧ d' = d ∧ ∃ pk, q = .worker (.trip pk) := by
  have hcounts := op_counts (M := M) q
  cases hop : op M q with
  | lock k ok od =>
      rw [hop] at h hcounts
      have hnext : hasDied ok = false ∧ hasDied od = false := by
        cases k with
        | shelf i => exact hcounts.2
        | mxDead | mxSorted => exact hcounts.2
      rcases h.2.2 with rfl | rfl
      · rw [hnext.1] at hd; cases hd
      · rw [hnext.2] at hd; cases hd
  | unlock k next | consistent k next =>
      rw [hop] at h hcounts
      rw [h.2.2, hcounts.2] at hd
      cases hd
  | act rel =>
      rw [hop] at h hcounts
      rw [(hcounts _ _ _ _ h).2] at hd
      cases hd
  | abort next =>
      rw [hop] at h hcounts
      obtain ⟨pk, hpk, -⟩ := hcounts
      exact ⟨h.1, h.2.1, pk, hpk⟩
  | halt =>
      rw [hop] at h
      exact h.elim

/-! ### The tallies -/

variable {s t : Shop M N} {l : Process M × Option (Event N)}

/-- One shelf changes hands. -/
theorem abandoned_update (d : Shelves N) (i : Fin N) (m : Mutex (Process M))
    (pc : Process M → Pc N) :
    abandoned ⟨d, Function.update s.table (.shelf i) m, pc⟩ +
        (decide (s.table (.shelf i) = .ownerDead)).toNat =
      abandoned s + (decide (m = .ownerDead)).toNat :=
  tally_update_comp _ (fun _ _ h => Lock.shelf.inj h) s.table i m

/-- A mutex that is no shelf changes hands. -/
theorem abandoned_of_not_shelf (d : Shelves N) {k : Lock N} (hk : ∀ i, k ≠ .shelf i)
    (m : Mutex (Process M)) (pc : Process M → Pc N) :
    abandoned ⟨d, Function.update s.table k m, pc⟩ = abandoned s := by
  have h : ∀ i, Function.update s.table k m (.shelf i) = s.table (.shelf i) := fun i =>
    Function.update_of_ne (hk i).symm ..
  simp only [abandoned, h]

/-- A mutex changes hands that was not abandoned, and is not now. -/
theorem abandoned_of_held (d : Shelves N) {k : Lock N} {m : Mutex (Process M)}
    (hk : s.table k ≠ .ownerDead) (hm : m ≠ .ownerDead) (pc : Process M → Pc N) :
    abandoned ⟨d, Function.update s.table k m, pc⟩ = abandoned s := by
  cases k with
  | shelf i => simpa [hk, hm] using abandoned_update (s := s) d i m pc
  | mxDead | mxSorted => exact abandoned_of_not_shelf d (by simp) m pc

/-- One process moves. -/
theorem pending_update (d : Shelves N) (table : Lock N → Mutex (Process M)) (p : Process M)
    (q : Pc N) :
    pending ⟨d, table, Function.update s.pc p q⟩ + (uncounted (s.pc p)).toNat =
      pending s + (uncounted q).toNat :=
  tally_update _ s.pc p q

theorem died_update (d : Shelves N) (table : Lock N → Mutex (Process M)) (i : Fin M) (q : Pc N) :
    died ⟨d, table, Function.update s.pc (.worker i) q⟩ + (hasDied (s.pc (.worker i))).toNat =
      died s + (hasDied q).toNat :=
  tally_update_comp _ (fun _ _ h => Process.worker.inj h) s.pc i q

/-- One process moves, and nobody dies. -/
theorem died_of_alive (d : Shelves N) (table : Lock N → Mutex (Process M)) {p : Process M}
    {q : Pc N} (hp : hasDied (s.pc p) = false) (hq : hasDied q = false) :
    died ⟨d, table, Function.update s.pc p q⟩ = died s := by
  cases p with
  | worker i => simpa [hp, hq] using died_update (s := s) d table i q
  | manager =>
      have h : ∀ i, Function.update s.pc .manager q (.worker i) = s.pc (.worker i) := fun i =>
        Function.update_of_ne (by simp) ..
      simp only [died, h]

/-- A worker dies with two shelves. -/
theorem abandoned_trip (hs : Locked s) {p : Process M} {pk : Pick N}
    (hp : s.pc p = .worker (.trip pk)) (d : Shelves N) (pc : Process M → Pc N) :
    abandoned ⟨d, fun k => (s.table k).die p, pc⟩ = abandoned s + 2 := by
  have hmode : ∀ k, (s.table k).mode p = holdsBoth pk k := fun k => by
    rw [hs.mode, hp]
    rfl
  have hheld : ∀ k, holdsBoth pk (.shelf k) = some .consistent → s.table (.shelf k) = .locked p :=
    fun k hk => Mutex.mode_eq_consistent.mp ((hmode _).trans hk)
  have hx := hheld pk.x (by simp [holdsBoth_shelf])
  have hy := hheld pk.y (by simp [holdsBoth_shelf])
  -- these two and no others
  have htable : (fun k => (s.table (.shelf k)).die p) =
      Function.update (Function.update (fun k => s.table (.shelf k)) pk.x .ownerDead)
        pk.y .ownerDead := by
    funext k
    by_cases hky : k = pk.y
    · subst hky
      rw [Function.update_self, Mutex.die_of_owner (by rw [hy]; rfl)]
    · rw [Function.update_of_ne hky]
      by_cases hkx : k = pk.x
      · subst hkx
        rw [Function.update_self, Mutex.die_of_owner (by rw [hx]; rfl)]
      · rw [Function.update_of_ne hkx]
        refine Mutex.die_of_ne fun h => ?_
        rw [Mutex.owner_eq_some, hmode, holdsBoth_shelf, if_neg (by simp [hkx, hky])] at h
        exact h rfl
  have h₁ := tally_update (fun m : Mutex (Process M) => decide (m = .ownerDead))
    (fun k => s.table (.shelf k)) pk.x .ownerDead
  have h₂ := tally_update (fun m : Mutex (Process M) => decide (m = .ownerDead))
    (Function.update (fun k => s.table (.shelf k)) pk.x .ownerDead) pk.y .ownerDead
  rw [Function.update_of_ne pk.ne.symm, ← htable] at h₂
  simp only [hx, hy, reduceCtorEq, decide_false, decide_true, Bool.toNat_false,
    Bool.toNat_true] at h₁ h₂
  unfold abandoned
  dsimp only
  omega

/-! ### The count -/

/-- Every shelf a worker has died with is abandoned, found and not yet counted, or counted. -/
def Counted (s : Shop M N) : Prop := s.data.dead + abandoned s + pending s = 2 * died s

theorem counted_opening (log : Fin N → Nat) : Counted (opening M log) := by
  have ha : abandoned (opening M log) = 0 := tally_eq_zero _ fun k => rfl
  have hp : pending (opening M log) = 0 := tally_eq_zero _ fun p => by cases p <;> rfl
  have hd : died (opening M log) = 0 := tally_eq_zero _ fun i => rfl
  rw [Counted, ha, hp, hd]
  rfl

/-- One process moves to a place where as much is left to be counted, and no mutex is found or
abandoned. -/
theorem Counted.move (hc : Counted s) {p : Process M} {q : Pc N}
    {table : Lock N → Mutex (Process M)}
    (ha : abandoned ⟨s.data, table, Function.update s.pc p q⟩ = abandoned s)
    (hu : uncounted q = uncounted (s.pc p)) (hp : hasDied (s.pc p) = false)
    (hq : hasDied q = false) : Counted ⟨s.data, table, Function.update s.pc p q⟩ := by
  have hpend := pending_update (s := s) s.data table p q
  rw [hu] at hpend
  unfold Counted at hc ⊢
  rw [ha, died_of_alive s.data table hp hq]
  dsimp only
  omega

theorem Counted.step (hs : Locked s) (hc : Counted s) (hp : Placed s) (h : Work M N s l t) :
    Counted t := by
  obtain ⟨p, e⟩ := l
  have halive : hasDied (s.pc p) = false := hasDied_of_ne_halt h.ne_halt
  have hcounts := op_counts (M := M) (s.pc p)
  cases h with
  | lock p k ok od h hk =>
      rw [h] at hcounts
      cases k with
      | shelf i =>
          obtain ⟨⟨hu, hok, -⟩, hdok, -⟩ := hcounts
          exact hc.move (abandoned_of_held _ (by rw [hk]; simp) (by simp) _) (by rw [hok, hu])
            halive hdok
      | mxDead | mxSorted =>
          exact hc.move (abandoned_of_held _ (by rw [hk]; simp) (by simp) _) hcounts.1 halive
            hcounts.2.1
  | lockOwnerDead p k ok od h hk =>
      rw [h] at hcounts
      cases k with
      | shelf i =>
          obtain ⟨⟨hu, -, hod⟩, -, hdod⟩ := hcounts
          have ha := abandoned_update (s := s) s.data i (.inconsistent p)
            (Function.update s.pc p od)
          have hpend := pending_update (s := s) s.data
            (Function.update s.table (.shelf i) (.inconsistent p)) p od
          rw [hu, hod] at hpend
          simp only [hk, reduceCtorEq, decide_true, decide_false, Bool.toNat_true,
            Bool.toNat_false] at ha hpend
          -- a shelf is abandoned no more, and not yet counted
          unfold Counted at hc ⊢
          rw [died_of_alive _ _ halive hdod]
          dsimp only
          omega
      | mxDead | mxSorted => exact (hs.risky _ hk).elim
  | lockNotRecoverable p k ok od h hk => exact absurd hk (hs.recoverable k)
  | unlock p k next h =>
      rw [h] at hcounts
      have hkeeps := op_keeps (M := M) (s.pc p)
      rw [h] at hkeeps
      have hk := Mutex.mode_eq_consistent.mp ((hs.mode p k).trans hkeeps.1)
      exact hc.move (abandoned_of_held _ (by rw [hk]; simp) (by rw [hk]; simp [Mutex.unlock]) _)
        hcounts.1 halive hcounts.2
  | consistent p k next h =>
      rw [h] at hcounts
      have hkeeps := op_keeps (M := M) (s.pc p)
      rw [h] at hkeeps
      have hk := Mutex.mode_eq_inconsistent.mp ((hs.mode p k).trans hkeeps.1)
      exact hc.move
        (abandoned_of_held _ (by rw [hk]; simp) (by rw [hk]; simp [Mutex.consistent]) _)
        hcounts.1 halive hcounts.2
  | act p rel l d next h hr =>
      rw [h] at hcounts
      obtain ⟨⟨-, hdead⟩, hnext⟩ := hcounts _ _ _ _ hr
      have hpend := pending_update (s := s) d s.table p next
      have ha : abandoned (⟨d, s.table, Function.update s.pc p next⟩ : Shop M N) = abandoned s :=
        rfl
      -- `dead++`, or nothing that matters
      unfold Counted at hc ⊢
      rw [ha, died_of_alive d s.table halive hnext]
      dsimp only
      omega
  | abort p next h =>
      rw [h] at hcounts
      obtain ⟨pk, hpk, rfl⟩ := hcounts
      cases p with
      | manager =>
          obtain ⟨m, hm⟩ := hp.manager
          rw [hm] at hpk
          cases hpk
      | worker i =>
          -- one death more, and two shelves abandoned
          have ha := abandoned_trip hs hpk s.data
            (Function.update s.pc (.worker i) (.worker .died))
          have hpend := pending_update (s := s) s.data (fun k => (s.table k).die (.worker i))
            (.worker i) (.worker .died)
          have hd := died_update (s := s) s.data (fun k => (s.table k).die (.worker i)) i
            (.worker .died)
          rw [hpk] at hpend hd
          simp only [uncounted, hasDied, Bool.toNat_false, Bool.toNat_true] at hpend hd
          unfold Counted at hc ⊢
          dsimp only
          omega

/-- `dead` never decreases. -/
theorem dead_le (h : Work M N s l t) : s.data.dead ≤ t.data.dead := by
  obtain ⟨p, e⟩ := l
  have hcounts := op_counts (M := M) (s.pc p)
  cases h with
  | act p rel l d next h hr =>
      rw [h] at hcounts
      exact (hcounts _ _ _ _ hr).1.1
  | _ => exact le_rfl

/-- A shelf that has not been counted is still inconsistent. -/
theorem uncounted_mode {q : Pc N} (h : uncounted q = true) :
    ∃ i, mode q (.shelf i) = some .inconsistent := by
  have hrec : ∀ (held : Lock N → Option Mode) (i : Fin N) (r : Recovery), r.uncounted = true →
      recoverMode held i r (.shelf i) = some .inconsistent := fun held i r hr => by
    cases r with
    | lockDead => exact Function.update_self ..
    | increment =>
        rw [recoverMode, Function.update_of_ne (by simp)]
        exact Function.update_self ..
    | unlockDead | consistent => cases hr
  unfold uncounted at h
  split at h
  · exact ⟨_, hrec _ _ _ h⟩
  · exact ⟨_, hrec _ _ _ h⟩
  · exact ⟨_, hrec _ _ _ h⟩
  · cases h

/-- **While the manager has all shelves locked**, every death has been counted twice. -/
theorem HasAll.dead_eq (hs : Locked s) (hc : Counted s) (ha : HasAll s) :
    s.data.dead = 2 * died s := by
  have hab : abandoned s = 0 := tally_eq_zero _ fun k => by rw [(ha k).table hs]; rfl
  have hpend : pending s = 0 := tally_eq_zero _ fun p => by
    by_contra hu
    obtain ⟨i, hi⟩ := uncounted_mode (Bool.not_eq_false _ ▸ hu)
    rw [← hs.mode, (ha i).table hs] at hi
    have := Mutex.mode_eq_inconsistent.mp hi
    cases this
  unfold Counted at hc
  omega

end Sop2.Bitronka
