import Sop2.Lab06.Bitronka.Casualties

/-!
# Lab06 — Bitronka — the reports

What the manager prints about the workers.  `left` bounds what remains of an iteration of its
loop up to the report.  A report follows a moment, in the same iteration, at which the manager had
all shelves locked (`last_hasAll`); the count was exact then, and has not fallen since.

The last worker to die leaves a pair in the wrong order (`Shift.lastDeath`), so the manager does
not leave its loop for a sorted shop; in the iteration that follows it locks every shelf that was
abandoned.  `casualties` puts the count and the reports together.
-/

namespace Sop2.Bitronka
open Support Support.Robust

variable {M N : Nat}

/-! ### An iteration of the manager -/

/-- The steps left of a recovery. -/
def Recovery.left : Recovery → ℕ
  | .lockDead => 4
  | .increment => 3
  | .unlockDead => 2
  | .consistent => 1

/-- The steps of the manager left up to its report, at most; nothing once it has reported. -/
def left : ManagerPc N → ℕ
  | .start => 7 * N + 6
  | .lock i => 2 * N + 5 + 5 * (N - i)
  | .recover r i => 2 * N + 5 + 5 * (N - (i + 1)) + r.left
  | .check i => N + 4 + (N - i)
  | .unlock i _ => 3 + (N - i)
  | .lockDead _ => 2
  | .report _ => 1
  | .unlockDead _ _ | .lockSorted | .setSorted | .unlockSorted | .exited => 0

/-- What a step of the manager from `m` to `m'` is in its iteration. -/
structure Turn (M : Nat) (m : ManagerPc N) (d : Shelves N) (l : Option (Event N)) (d' : Shelves N)
    (m' : ManagerPc N) : Prop where
  /-- A report tells half of `dead`. -/
  report : ∀ n all, l = some (.report n all) → ∃ sorted, m = .report sorted ∧
    n = M - (d.dead / 2 : Nat) ∧ all = decide (d.dead / 2 = M) ∧ m' = .unlockDead sorted all
  /-- Up to the report there is less and less left. -/
  less : 0 < left m → left m' < left m
  more : 1 < left m → 0 < left m'
  after : left m = 0 → m' = .start ∨ left m' = 0
  reports : ∀ sorted, m = .report sorted → ∃ n all, l = some (.report n all)
  /-- The check starts with all shelves locked. -/
  check : 2 * N + 4 < left m → left m' ≤ 2 * N + 4 → m' = .check 0
  start : m' = .start → m = .unlockDead false false
  unlockDead : ∀ sorted all, m' = .unlockDead sorted all → m = .report sorted
  exited : m' = .exited → m = .unlockSorted ∨ ∃ sorted, m = .unlockDead sorted true
  sorted : d'.sorted = true → d.sorted = true ∨ m' = .unlockSorted
  stays : d.sorted = true → d'.sorted = true
  closing : m = .unlockSorted → m' = .exited

theorem left_le (m : ManagerPc N) : left m ≤ 7 * N + 6 := by
  cases m with
  | recover r i =>
      have := i.isLt
      cases r <;> simp only [left, Recovery.left] <;> omega
  | _ => simp only [left]; omega

/-- A step up to the report. -/
theorem Turn.quiet {m m' : ManagerPc N} {d d' : Shelves N} {l : Option (Event N)}
    (hn : ∀ n all, l ≠ some (.report n all)) (hs : d'.sorted = d.sorted)
    (hl : left m' < left m) (hpos : 0 < left m')
    (hc : 2 * N + 4 < left m → left m' ≤ 2 * N + 4 → m' = .check 0) : Turn M m d l d' m' where
  report n all h := absurd h (hn n all)
  less _ := hl
  more _ := hpos
  after h := by rw [h] at hl; cases hl
  reports sorted h := by
    subst h
    exact absurd hpos (Nat.not_lt.mpr (Nat.lt_succ_iff.mp hl))
  check := hc
  start h := by
    subst h
    exact absurd hl (Nat.not_lt.mpr (left_le m))
  unlockDead _ _ h := by subst h; cases hpos
  exited h := by subst h; cases hpos
  sorted h := .inl (hs ▸ h)
  stays h := hs ▸ h
  closing h := by subst h; cases hl

theorem recoverOp_turn {i : Fin N} {q' : Pc N} {r : Recovery} {d d' : Shelves N}
    {l : Option (Event N)}
    (h : (recoverOp i (fun r => .manager (.recover r i)) (.manager (.lock (i + 1))) r).Goes d l d'
      q') : ∃ m', q' = .manager m' ∧ Turn M (.recover r i) d l d' m' := by
  cases r with
  | lockDead =>
      obtain ⟨rfl, rfl, rfl | rfl⟩ := h <;>
        refine ⟨_, rfl, .quiet (by simp) rfl ?_ ?_ ?_⟩ <;> simp only [left, Recovery.left] <;> omega
  | increment | unlockDead | consistent =>
      obtain ⟨rfl, rfl, rfl⟩ := h
      refine ⟨_, rfl, .quiet (by simp) rfl ?_ ?_ ?_⟩ <;> simp only [left, Recovery.left] <;> omega

theorem managerOp_turn {m : ManagerPc N} {q' : Pc N} {d d' : Shelves N} {l : Option (Event N)}
    (h : (managerOp M m).Goes d l d' q') : ∃ m', q' = .manager m' ∧ Turn M m d l d' m' := by
  cases m with
  | start =>
      obtain ⟨rfl, rfl, rfl⟩ := h
      refine ⟨_, rfl, .quiet (by simp) rfl ?_ ?_ ?_⟩ <;> simp only [left] <;> omega
  | recover r i => exact recoverOp_turn h
  | lock i =>
      rw [managerOp] at h
      split at h
      · rename_i hi
        obtain ⟨rfl, rfl, rfl | rfl⟩ := h <;>
          refine ⟨_, rfl, .quiet (by simp) rfl ?_ ?_ ?_⟩ <;> simp only [left, Recovery.left] <;>
            omega
      · obtain ⟨rfl, rfl, rfl⟩ := h
        exact ⟨_, rfl, .quiet (by simp) rfl (by simp only [left]; omega)
          (by simp only [left]; omega) fun _ _ => rfl⟩
  | check i =>
      rw [managerOp] at h
      split at h
      · rename_i hi
        obtain ⟨rfl, rfl, rfl⟩ := h
        dsimp only
        -- to the next place of the array, or out of the loop
        split <;> refine ⟨_, rfl, .quiet (by simp) rfl ?_ ?_ ?_⟩ <;> simp only [left] <;> omega
      · obtain ⟨rfl, rfl, rfl⟩ := h
        refine ⟨_, rfl, .quiet (by simp) rfl ?_ ?_ ?_⟩ <;> simp only [left] <;> omega
  | unlock i sorted =>
      rw [managerOp] at h
      split at h <;>
        (obtain ⟨rfl, rfl, rfl⟩ := h
         refine ⟨_, rfl, .quiet (by simp) rfl ?_ ?_ ?_⟩ <;> simp only [left] <;> omega)
  | lockDead sorted =>
      obtain ⟨rfl, rfl, rfl | rfl⟩ := h <;>
        refine ⟨_, rfl, .quiet (by simp) rfl ?_ ?_ ?_⟩ <;> simp only [left] <;> omega
  | report sorted =>
      obtain ⟨rfl, rfl, rfl⟩ := h
      exact ⟨_, rfl, by simp, by simp [left], by simp [left], by simp [left],
        fun _ _ => ⟨_, _, rfl⟩, by simp [left], by simp, by simp, by simp, .inl, id, by simp⟩
  | unlockDead sorted all =>
      obtain ⟨rfl, rfl, rfl⟩ := h
      cases all <;> cases sorted <;>
        exact ⟨_, rfl, by simp, by simp [left], by simp [left], by simp [left], by simp,
          by simp [left], by simp, by simp, by simp,
          .inl, id, by simp⟩
  | lockSorted =>
      obtain ⟨rfl, rfl, rfl | rfl⟩ := h <;>
        exact ⟨_, rfl, by simp, by simp [left], by simp [left], by simp [left], by simp,
          by simp [left], by simp, by simp, by simp,
          .inl, id, by simp⟩
  | setSorted =>
      obtain ⟨rfl, rfl, rfl⟩ := h
      exact ⟨_, rfl, by simp, by simp [left], by simp [left], by simp [left], by simp,
          by simp [left], by simp, by simp, by simp,
        fun _ => .inr rfl, fun _ => rfl, by simp⟩
  | unlockSorted =>
      obtain ⟨rfl, rfl, rfl⟩ := h
      exact ⟨_, rfl, by simp, by simp [left], by simp [left], by simp [left], by simp,
          by simp [left], by simp, by simp, by simp,
        .inl, id, fun _ => rfl⟩
  | exited => exact h.elim

/-! ### Nobody leaves early -/

/-- A worker that has found the shop sorted. -/
def Leaves : Pc N → Prop
  | .worker (.unlockSorted leave) => leave = true
  | .worker .exited => True
  | _ => False

theorem workerOp_leaves {w : WorkerPc N} {q' : Pc N} {d d' : Shelves N} {l : Option (Event N)}
    (h : (workerOp w).Goes d l d' q') (hd : d.sorted = false) (hw : ¬ Leaves (.worker w)) :
    ¬ Leaves q' := by
  cases w with
  | loop =>
      obtain ⟨rfl, rfl, rfl⟩ := h
      simp [hd, Leaves]
  | testSorted =>
      obtain ⟨rfl, rfl, rfl⟩ := h
      simp [hd, Leaves]
  | unlockSorted leave =>
      obtain ⟨rfl, rfl, rfl⟩ := h
      cases leave with
      | false => exact id
      | true => exact absurd rfl hw
  | recoverFirst r pk | recoverSecond r pk =>
      rw [workerOp] at h
      obtain ⟨-, -, -, ⟨r', rfl⟩ | rfl⟩ := recoverOp_goes h <;> exact id
  | lockSorted | lockFirst | lockSecond =>
      obtain ⟨rfl, rfl, rfl | rfl⟩ := h <;> simp [Leaves]
  | pick =>
      obtain ⟨rfl, rfl, pk, rfl⟩ := h
      exact id
  | compare pk =>
      obtain ⟨rfl, rfl, hq⟩ := h
      split at hq
      · rcases hq with rfl | rfl <;> exact id
      · rw [hq]; exact id
  | trip | swap | swapped | unlockSecond | unlockFirst =>
      obtain ⟨rfl, rfl, rfl⟩ := h
      exact id
  | exited | died => exact h.elim

/-! ### The night shift -/

variable {s t u : Shop M N} {l : Process M × Option (Event N)} {log : Fin N → Nat}
  {tr : List (Move (Shop M N) (Process M × Option (Event N)))}

/-- All workers have died. -/
def AllDead (s : Shop M N) : Prop := ∀ i, s.pc (.worker i) = .worker .died

/-- What holds in every state that can be reached. -/
structure Shift (s : Shop M N) : Prop where
  locked : Locked s
  ready : Ready s
  verdict : Verdict s
  counted : Counted s
  stay : s.data.sorted = false → ∀ i, ¬ Leaves (s.pc (.worker i))
  sorted : s.data.sorted = true →
    s.pc .manager = .manager .unlockSorted ∨ s.pc .manager = .manager .exited
  lastDeath : 0 < M → AllDead s → ∃ pk, Inverted s.data.log pk

theorem shift_opening (log : Fin N → Nat) : Shift (opening M log) where
  locked := locked_opening log
  ready := ready_opening log
  verdict := verdict_opening log
  counted := counted_opening log
  stay _ _ h := h
  sorted h := by cases h
  lastDeath hM h := by cases h ⟨0, hM⟩

/-- The dead take no steps. -/
theorem AllDead.step (hd : AllDead s) (h : Work M N s l t) : l.1 = .manager ∧ AllDead t := by
  obtain ⟨p, e⟩ := l
  cases p with
  | worker i =>
      refine absurd ?_ h.ne_halt
      rw [hd i]
      rfl
  | manager =>
      refine ⟨rfl, fun i => ?_⟩
      rw [h.stays (by simp)]
      exact hd i

theorem AllDead.noneHalfDone (hp : Placed s) (hd : AllDead s) : NoneHalfDone s := by
  intro p pk v h
  cases p with
  | worker i => rw [hd i] at h; cases h
  | manager =>
      obtain ⟨m, hm⟩ := hp.manager
      rw [hm] at h
      cases h

/-- The step of a worker leaves the manager where it is. -/
theorem manager_stays {i : Fin M} {e : Option (Event N)} (h : Work M N s (.worker i, e) t) :
    t.pc .manager = s.pc .manager :=
  h.stays (by simp)

/-- A step of the manager. -/
theorem manager_turn (hp : Placed s) {e : Option (Event N)} (h : Work M N s (.manager, e) t) :
    ∃ m m', s.pc .manager = .manager m ∧ t.pc .manager = .manager m' ∧
      Turn M m s.data e t.data m' := by
  obtain ⟨m, hm, hgoes⟩ := hp.manager_goes h
  obtain ⟨m', hm', hturn⟩ := managerOp_turn hgoes
  exact ⟨m, m', hm, hm', hturn⟩

/-- The death of the last worker leaves a pair in the wrong order. -/
theorem lastDeath_step (hs : Locked s) (hr : Ready s) (hp : Placed s)
    (hlast : AllDead s → ∃ pk, Inverted s.data.log pk) (h : Work M N s l t) (hd : AllDead t) :
    ∃ pk, Inverted t.data.log pk := by
  have ht := hs.step op_keeps h
  have hpt := hp.step h
  have hsettled := settled_step hs h
  by_cases hds : AllDead s
  · obtain ⟨p, e⟩ := l
    obtain ⟨rfl, -⟩ := hds.step h
    obtain ⟨m, -, hgoes⟩ := hp.manager_goes h
    rw [(managerOp_goes hgoes).log]
    exact hlast hds
  · obtain ⟨i, hi⟩ := not_forall.mp hds
    obtain ⟨p, e⟩ := l
    obtain ⟨q', hpc, hgoes⟩ := h.goes
    dsimp only at hpc hgoes hsettled
    -- the only step to a death is that of a worker over the pallet
    have hi' : p = .worker i := by
      by_contra hne
      have hti := hd i
      rw [h.stays (Ne.symm hne)] at hti
      exact hi hti
    subst hi'
    have hq : q' = .worker .died := by rw [← hd i, hpc, Function.update_self]
    obtain ⟨rfl, -, pk, hpk⟩ := goes_died hgoes (by rw [hq]; rfl)
    refine ⟨pk, ?_⟩
    rw [← settled_of_noneHalfDone ht (hd.noneHalfDone hpt)]
    rcases hsettled with ⟨-, heq⟩ | ⟨pk', hl, -⟩
    · rw [heq]
      exact hr _ pk (.inr hpk)
    · cases hl

theorem Shift.step (hs : Shift s) (h : Work M N s l t) : Shift t := by
  refine ⟨hs.locked.step op_keeps h, hs.ready.step hs.locked h, hs.verdict.step hs.locked h,
    hs.counted.step hs.locked hs.verdict.placed h, fun hd j => ?_, fun hd => ?_,
    fun hM hd => lastDeath_step hs.locked hs.ready hs.verdict.placed (hs.lastDeath hM) h hd⟩
  · obtain ⟨p, e⟩ := l
    cases p with
    | worker i =>
        obtain ⟨w, hw, hgoes⟩ := hs.verdict.placed.worker_goes h
        have hd' : s.data.sorted = false := by rw [← (workerOp_sorted hgoes).2.1, hd]
        by_cases hj : j = i
        · subst hj
          exact workerOp_leaves hgoes hd' (hw ▸ hs.stay hd' j)
        · rw [h.stays (by simpa using hj)]
          exact hs.stay hd' j
    | manager =>
        obtain ⟨m, m', -, -, hturn⟩ := manager_turn hs.verdict.placed h
        rw [h.stays (by simp)]
        refine hs.stay (Bool.eq_false_iff.mpr fun hd' => ?_) j
        rw [hturn.stays hd'] at hd
        cases hd
  · obtain ⟨p, e⟩ := l
    cases p with
    | worker i =>
        obtain ⟨w, -, hgoes⟩ := hs.verdict.placed.worker_goes h
        rw [manager_stays h]
        exact hs.sorted ((workerOp_sorted hgoes).2.1 ▸ hd)
    | manager =>
        obtain ⟨m, m', hm, hm', hturn⟩ := manager_turn hs.verdict.placed h
        rw [hm']
        rcases hturn.sorted hd with hd | rfl
        · rcases hs.sorted hd with hu | he
          · rw [hm] at hu
            cases hu
            rw [hturn.closing rfl]
            exact .inr rfl
          · refine absurd ?_ h.ne_halt
            rw [he]
            rfl
        · exact .inl rfl

theorem shift_run (r : Run (Work M N) s tr t) (hs : Shift s) : Shift t :=
  r.invariant (fun hs h => hs.step h) hs

/-! ### The number of workers -/

/-- The process of a worker that has neither died nor exited. -/
def isAlive : Pc N → Bool
  | .worker .died | .worker .exited => false
  | _ => true

/-- The number of workers alive. -/
def alive (s : Shop M N) : ℕ := tally isAlive fun i : Fin M => s.pc (.worker i)

/-- Until the shop is said to be sorted, every worker is alive or has died. -/
theorem Shift.died_add_alive (hs : Shift s) (hd : s.data.sorted = false) :
    died s + alive s = M := by
  have h : ∀ i : Fin M, isAlive (s.pc (.worker i)) = !hasDied (s.pc (.worker i)) := fun i => by
    have hstay := hs.stay hd i
    obtain ⟨w, hw⟩ := hs.verdict.placed.worker i
    rw [hw] at hstay ⊢
    cases w with
    | exited => exact absurd trivial hstay
    | _ => rfl
  exact (tally_add_tally hasDied h).trans (Fintype.card_fin M)

theorem hasDied_iff {q : Pc N} : hasDied q = true ↔ q = .worker .died := by
  constructor
  · intro h
    unfold hasDied at h
    split at h
    · rfl
    · cases h
  · rintro rfl
    rfl

theorem died_le (s : Shop M N) : died s ≤ M :=
  (tally_le_card hasDied fun i : Fin M => s.pc (.worker i)).trans_eq (Fintype.card_fin M)

theorem died_eq_iff : died s = M ↔ AllDead s := by
  have h := tally_eq_card_iff hasDied (f := fun i : Fin M => s.pc (.worker i))
  rw [Fintype.card_fin] at h
  exact h.trans (forall_congr' fun i => hasDied_iff)

/-- A report is made by the manager, and tells half of `dead`. -/
theorem Shift.report (hs : Shift s) {p : Process M} {n : ℤ} {all : Bool}
    (h : Work M N s (p, some (.report n all)) t) :
    p = .manager ∧ ∃ sorted, s.pc .manager = .manager (.report sorted) ∧
      n = M - (s.data.dead / 2 : Nat) ∧ all = decide (s.data.dead / 2 = M) ∧
      t.pc .manager = .manager (.unlockDead sorted all) := by
  cases p with
  | worker i =>
      obtain ⟨w, -, hgoes⟩ := hs.verdict.placed.worker_goes h
      rcases (workerOp_sorted hgoes).1 with hl | ⟨pk, hl⟩ <;> cases hl
  | manager =>
      obtain ⟨m, m', hm, hm', hturn⟩ := manager_turn hs.verdict.placed h
      obtain ⟨sorted, rfl, hn, hall, rfl⟩ := hturn.report n all rfl
      exact ⟨rfl, sorted, hm, hn, hall, hm'⟩

/-- While the manager is in its loop, nobody has been told that the shop is sorted. -/
theorem Shift.not_sorted (hs : Shift s) {m : ManagerPc N} (hm : s.pc .manager = .manager m)
    (hl : 0 < left m) : s.data.sorted = false := by
  refine Bool.eq_false_iff.mpr fun hd => ?_
  rcases hs.sorted hd with h | h
  · rw [hm] at h; cases h; cases hl
  · rw [hm] at h; cases h; cases hl

/-- With at least one shelf to lock. -/
theorem HasAll.not_sorted (hN : 0 < N) (hs : Shift s) (ha : HasAll s) : s.data.sorted = false := by
  refine Bool.eq_false_iff.mpr fun hd => ?_
  have h := ha ⟨0, hN⟩
  unfold Has at h
  rcases hs.sorted hd with hm | hm
  · rw [hm] at h; cases h
  · rw [hm] at h; cases h

theorem dead_le_run (r : Run (Work M N) s tr t) : s.data.dead ≤ t.data.dead := by
  induction r with
  | refl => exact le_rfl
  | snoc _ h ih => exact ih.trans (dead_le h)

/-- **A report follows a moment at which the manager had all shelves locked**, in the same
iteration. -/
theorem last_hasAll (r : Run (Work M N) s tr t) (hp : Placed s)
    (hs : s.pc .manager = .manager .start) :
    ∀ m, t.pc .manager = .manager m → 0 < left m → left m ≤ 2 * N + 4 →
      ∃ tr₁ u tr₂, tr = tr₁ ++ tr₂ ∧ Run (Work M N) s tr₁ u ∧ Run (Work M N) u tr₂ t ∧ HasAll u ∧
        ∀ m ∈ tr₂, ¬ HasAll m.after ∧ m.after.pc .manager ≠ .manager .start := by
  induction r with
  | refl =>
      intro m hm _ hle
      rw [hs] at hm
      cases hm
      simp only [left] at hle
      omega
  | @snoc t v tr l r h ih =>
      intro m' hm' hpos hle
      by_cases hall : HasAll v
      · exact ⟨_, v, [], by simp, r.snoc h, .refl v, hall, by simp⟩
      · have hstart : v.pc .manager ≠ .manager .start := by
          rw [hm']
          intro e
          cases e
          simp only [left] at hle
          omega
        -- the shelves had been locked before: only the check starts with all of them
        have hprev : ∃ m, t.pc .manager = .manager m ∧ 0 < left m ∧ left m ≤ 2 * N + 4 := by
          obtain ⟨p, e⟩ := l
          cases p with
          | worker i => exact ⟨m', by rw [← manager_stays h, hm'], hpos, hle⟩
          | manager =>
              have hpt : Placed t := r.invariant (fun hp h => hp.step h) hp
              obtain ⟨m, m'', hm, hm'', hturn⟩ := manager_turn hpt h
              rw [hm'] at hm''
              cases hm''
              refine ⟨m, hm, Nat.pos_of_ne_zero fun h0 => ?_, not_lt.mp fun hlt => ?_⟩
              · rcases hturn.after h0 with rfl | h0
                · exact hstart hm'
                · omega
              · obtain rfl := hturn.check hlt hle
                exact hall (hasAll_check hm')
        obtain ⟨m, hm, hpos, hle⟩ := hprev
        obtain ⟨tr₁, u, tr₂, rfl, r₁, r₂, hu, hrest⟩ := ih m hm hpos hle
        exact ⟨tr₁, u, _, List.append_assoc .., r₁, r₂.snoc h, hu,
          forall_mem_snoc hrest ⟨hall, hstart⟩⟩

/-- A report lies between the number of workers alive and the number there was when the manager
had all shelves locked. -/
theorem report_bounds (hN : 0 < N) (hs : Shift s) (ht : Shift t) (r : Run (Work M N) s tr t)
    (ha : HasAll s) {m : ManagerPc N} (hm : t.pc .manager = .manager m) (hl : 0 < left m) :
    alive t + t.data.dead / 2 ≤ M ∧ M ≤ alive s + t.data.dead / 2 := by
  have hexact := ha.dead_eq hs.locked hs.counted
  have hle := dead_le_run r
  have hcount : t.data.dead + abandoned t + pending t = 2 * died t := ht.counted
  have hs' := hs.died_add_alive (ha.not_sorted hN hs)
  have ht' := ht.died_add_alive (ht.not_sorted hm hl)
  omega

/-- Half of `dead` is the number of workers only if all have died. -/
theorem Shift.all_dead (hs : Shift s) (hd : s.data.dead / 2 = M) : AllDead s := by
  have hcount : s.data.dead + abandoned s + pending s = 2 * died s := hs.counted
  have hle := died_le s
  exact died_eq_iff.mp (by omega)

/-! ### The death of the last worker -/

/-- The manager has printed that all workers have died. -/
def Printed (tr : List (Move (Shop M N) (Process M × Option (Event N)))) : Prop :=
  ∃ m ∈ tr, m.label = (.manager, some (.report 0 true))

/-- How many iterations of its loop the manager has come to. -/
def iterations (tr : List (Move (Shop M N) (Process M × Option (Event N)))) : ℕ :=
  tr.countP fun m => decide (m.label.1 = .manager ∧ m.after.pc .manager = .manager .start)

/-- The manager is done because all workers have died. -/
def Done (q : Pc N) : Prop :=
  q = .manager .exited ∨ ∃ sorted, q = .manager (.unlockDead sorted true)

theorem Printed.append (h : Printed tr) (tr') : Printed (tr ++ tr') := by
  obtain ⟨m, hm, hl⟩ := h
  exact ⟨m, List.mem_append_left _ hm, hl⟩

theorem printed_last {m : Move (Shop M N) (Process M × Option (Event N))}
    (h : m.label = (.manager, some (.report 0 true))) : Printed (tr ++ [m]) :=
  ⟨m, by simp, h⟩

theorem Shift.report_true (hs : Shift s) {p : Process M} {n : ℤ}
    (h : Work M N s (p, some (.report n true)) t) : p = .manager ∧ n = 0 := by
  obtain ⟨rfl, -, -, hn, hall, -⟩ := hs.report h
  have hd : s.data.dead / 2 = M := of_decide_eq_true hall.symm
  exact ⟨rfl, by omega⟩

/-- The manager leaves its loop because it has printed that all workers have died, or because
everything is in its place. -/
theorem printed_run (r : Run (Work M N) (opening M log) tr s) (hd : Done (s.pc .manager)) :
    Printed tr ∨ InOrder s := by
  induction r with
  | refl =>
      rcases hd with hd | ⟨_, hd⟩ <;> cases hd
  | @snoc t v tr l r h ih =>
      have ht := shift_run r (shift_opening log)
      obtain ⟨p, e⟩ := l
      cases p with
      | worker i =>
          rw [manager_stays h] at hd
          exact (ih hd).imp (fun hp => hp.append _) fun hi => hi.step h
      | manager =>
          obtain ⟨m, m', hm, hm', hturn⟩ := manager_turn ht.verdict.placed h
          rw [hm'] at hd
          rcases hd with hd | ⟨sorted, hd⟩
          · cases hd
            rcases hturn.exited rfl with rfl | ⟨sorted, rfl⟩
            · refine .inr (InOrder.step (ht.verdict.convinced ?_) h)
              rw [hm]
              trivial
            · exact (ih (by rw [hm]; exact .inr ⟨sorted, rfl⟩)).imp (fun hp => hp.append _)
                fun hi => hi.step h
          · cases hd
            obtain rfl := hturn.unlockDead _ _ rfl
            obtain ⟨n, all, rfl⟩ := hturn.reports _ rfl
            obtain ⟨-, _, -, -, -, hm''⟩ := ht.report h
            rw [hm'] at hm''
            cases hm''
            obtain ⟨-, rfl⟩ := ht.report_true h
            exact .inl (printed_last rfl)

/-- In an iteration that starts when all workers have died, the manager counts them all. -/
theorem dead_eq_of_start (hs : Shift s) (hd : AllDead s) (hm : s.pc .manager = .manager .start)
    (r : Run (Work M N) s tr t) {sorted : Bool} (ht : t.pc .manager = .manager (.report sorted)) :
    t.data.dead / 2 = M := by
  obtain ⟨tr₁, u, tr₂, rfl, r₁, r₂, hall, -⟩ := last_hasAll r hs.verdict.placed hm _ ht
    (by simp [left]) (by simp only [left]; omega)
  have hu := shift_run r₁ hs
  have hut := shift_run r₂ hu
  have hdu : AllDead u := r₁.invariant (fun hd h => (hd.step h).2) hd
  have hexact := hall.dead_eq hu.locked hu.counted
  have hdied := died_eq_iff.mpr hdu
  have hle := dead_le_run r₂
  have hcount : t.data.dead + abandoned t + pending t = 2 * died t := hut.counted
  have hle' := died_le t
  omega

/-- Where the manager is after a run `tr` from `s`, where all workers have died. -/
inductive Vigil (s : Shop M N) (printed : Prop)
    (tr : List (Move (Shop M N) (Process M × Option (Event N)))) (u : Shop M N) : Prop where
  | done (hm : Done (u.pc .manager)) (hp : printed ∨ Printed tr)
      (hi : iterations tr ≤ if s.pc .manager = .manager .start then 0 else 1)
  /-- In the iteration during which the last worker died. -/
  | before (m : ManagerPc N) (hm : u.pc .manager = .manager m) (hpos : 0 < left m)
      (hle : tr.length + left m ≤ 7 * N + 6) (hi : iterations tr = 0)
      (hs : s.pc .manager ≠ .manager .start)
  /-- At the end of that iteration. -/
  | between (hm : u.pc .manager = .manager (.unlockDead false false))
      (hle : tr.length ≤ 7 * N + 6) (hi : iterations tr = 0)
      (hs : s.pc .manager ≠ .manager .start)
  /-- In an iteration that has started since, at `v`. -/
  | since (m : ManagerPc N) (hm : u.pc .manager = .manager m) (hpos : 0 < left m)
      (hi : iterations tr ≤ if s.pc .manager = .manager .start then 0 else 1)
      (v : Shop M N) (tr' : List (Move (Shop M N) (Process M × Option (Event N))))
      (hv : Shift v) (hd : AllDead v) (hstart : v.pc .manager = .manager .start)
      (r : Run (Work M N) v tr' u) (hle : tr.length ≤ 7 * N + 7 + tr'.length)
      (hle' : tr'.length + left m ≤ 7 * N + 6)

theorem iterations_append {t v : Shop M N} {l : Process M × Option (Event N)}
    (h : v.pc .manager ≠ .manager .start) :
    iterations (tr ++ [⟨t, l, v⟩]) = iterations tr := by
  simp [iterations, h]

/-- With all workers dead, the manager does not leave its loop for a sorted shop. -/
theorem AllDead.not_convinced (hM : 0 < M) (hs : Shift s) (hd : AllDead s) :
    ¬ InOrder s ∧ ¬ Convinced (s.pc .manager) := by
  obtain ⟨pk, hpk⟩ := hs.lastDeath hM hd
  have hn : ¬ InOrder s := fun hi => hi.not_inverted pk hpk
  exact ⟨hn, fun hc => hn (hs.verdict.convinced hc)⟩

theorem vigil_start (hM : 0 < M) (hs : Shift s) (hd : AllDead s) {printed : Prop}
    (hp : Done (s.pc .manager) → printed) : Vigil s printed [] s := by
  obtain ⟨m, hm⟩ := hs.verdict.placed.manager
  have hn := (hd.not_convinced hM hs).2
  rw [hm] at hn
  by_cases hstart : m = .start
  · -- the iteration about to start is one since the last death
    subst hstart
    exact .since .start hm (by simp [left]) (by simp [iterations]) s [] hs hd hm (.refl s)
      (by simp) (by simp [left])
  · have hne : s.pc .manager ≠ .manager .start := by
      rw [hm]
      simpa using hstart
    by_cases hpos : 0 < left m
    · exact .before m hm hpos (by simpa using left_le m) rfl hne
    · cases m with
      | unlockDead sorted all =>
          cases all with
          | true =>
              have hdone : Done (s.pc .manager) := .inr ⟨sorted, hm⟩
              exact .done hdone (.inl (hp hdone)) (by simp [iterations])
          | false =>
              cases sorted with
              | true => exact absurd rfl hn
              | false => exact .between hm (by simp) rfl hne
      | exited => exact .done (.inl hm) (.inl (hp (.inl hm))) (by simp [iterations])
      | lockSorted | setSorted | unlockSorted => exact absurd trivial hn
      | start => exact absurd rfl hstart
      | _ => exact absurd (by simp only [left]; omega) hpos

/-- A step before the report. -/
theorem Turn.next {m m' : ManagerPc N} {d d' : Shelves N} {e : Option (Event N)}
    (h : Turn M m d e d' m') (hpos : 0 < left m) :
    (∃ sorted, m = .report sorted) ∨ (0 < left m' ∧ left m' < left m ∧ m' ≠ .start) := by
  by_cases hone : left m = 1
  · left
    cases m with
    | report sorted => exact ⟨sorted, rfl⟩
    | _ => simp only [Bitronka.left] at hone; omega
  · refine .inr ⟨h.more (by omega), h.less hpos, fun e => ?_⟩
    have := h.start e
    subst this
    cases hpos

theorem unlockDead_step {sorted all : Bool} {e : Option (Event N)}
    (hm : s.pc .manager = .manager (.unlockDead sorted all)) (h : Work M N s (.manager, e) t) :
    t.pc .manager =
      .manager (if all then .exited else if sorted then .lockSorted else .start) := by
  obtain ⟨q', hpc, hgoes⟩ := h.goes
  dsimp only at hpc hgoes
  rw [hm] at hgoes
  rw [hpc, Function.update_self]
  exact hgoes.2.2

/-- The report that all workers have died. -/
theorem Shift.done_of_report (hs : Shift s) {n : ℤ} {tr₀ : Prop}
    (h : Work M N s (.manager, some (.report n true)) t) :
    Done (t.pc .manager) ∧ (tr₀ ∨ Printed (tr ++ [⟨s, (.manager, some (.report n true)), t⟩])) ∧
      t.pc .manager ≠ .manager .start := by
  obtain ⟨-, sorted, -, -, -, hm⟩ := hs.report h
  obtain ⟨-, rfl⟩ := hs.report_true h
  exact ⟨.inr ⟨sorted, hm⟩, .inr (printed_last rfl), by rw [hm]; simp⟩

theorem Vigil.step {printed : Prop} (hM : 0 < M) (hu : Shift u) (hd : AllDead u)
    (hv : Vigil s printed tr u) (h : Work M N u l t) : Vigil s printed (tr ++ [⟨u, l, t⟩]) t := by
  have ht := hu.step h
  obtain ⟨p, e⟩ := l
  obtain ⟨rfl, hdt⟩ := hd.step h
  cases hv with
  | done hm hp hi =>
      rcases hm with hm | ⟨sorted, hm⟩
      · refine absurd ?_ h.ne_halt
        rw [hm]
        rfl
      · have hm' := unlockDead_step hm h
        refine .done (.inl hm') (hp.imp id fun hp => hp.append _) ?_
        rwa [iterations_append (by rw [hm']; simp)]
  | before m hm hpos hle hi hs =>
      obtain ⟨_, m', hm₀, hm', hturn⟩ := manager_turn hu.verdict.placed h
      cases hm.symm.trans hm₀
      rcases hturn.next hpos with ⟨sorted, rfl⟩ | ⟨hpos', hlt, hne⟩
      · obtain ⟨n, all, rfl⟩ := hturn.reports _ rfl
        cases all with
        | true =>
            obtain ⟨hdone, hp, hstart⟩ := hu.done_of_report h
            exact .done hdone hp (by rw [iterations_append hstart, hi]; exact Nat.zero_le _)
        | false =>
            obtain ⟨-, sorted', -, -, -, hm''⟩ := hu.report h
            -- not all the dead were counted, and the shop is not sorted
            have hn := (hdt.not_convinced hM ht).2
            rw [hm''] at hn
            cases sorted' with
            | true => exact absurd rfl hn
            | false =>
                refine .between hm'' ?_ (by rw [iterations_append (by rw [hm'']; simp), hi]) hs
                simp only [List.length_append, List.length_singleton]
                omega
      · have hstart : t.pc .manager ≠ .manager .start := by rw [hm']; simpa using hne
        refine .before m' hm' hpos' ?_ (by rw [iterations_append hstart, hi]) hs
        simp only [List.length_append, List.length_singleton]
        omega
  | between hm hle hi hs =>
      -- a new iteration, at `t`
      have hm' := unlockDead_step hm h
      refine .since .start hm' (by simp [left]) ?_ t [] ht hdt hm' (.refl t) ?_ (by simp [left])
      · rw [if_neg hs]
        have hadd : iterations (tr ++ [⟨u, (.manager, e), t⟩]) ≤ iterations tr + 1 := by
          rw [iterations, iterations, List.countP_append]
          exact Nat.add_le_add_left (List.countP_le_length ..) _
        omega
      · simp only [List.length_append, List.length_singleton, List.length_nil]
        omega
  | since m hm hpos hi v tr' hv hdv hstart r hle hle' =>
      obtain ⟨_, m', hm₀, hm', hturn⟩ := manager_turn hu.verdict.placed h
      cases hm.symm.trans hm₀
      rcases hturn.next hpos with ⟨sorted, rfl⟩ | ⟨hpos', hlt, hne⟩
      · -- this iteration has counted all the dead
        obtain ⟨n, all, rfl⟩ := hturn.reports _ rfl
        obtain ⟨-, _, -, -, hall, -⟩ := hu.report h
        obtain rfl : all = true := by
          rw [hall]
          exact decide_eq_true (dead_eq_of_start hv hdv hstart r hm)
        obtain ⟨hdone, hp, hne⟩ := hu.done_of_report h
        exact .done hdone hp (by rw [iterations_append hne]; exact hi)
      · have hne' : t.pc .manager ≠ .manager .start := by rw [hm']; simpa using hne
        refine .since m' hm' hpos' (by rw [iterations_append hne']; exact hi) v _ hv hdv hstart
          (r.snoc h) ?_ ?_
        · simp only [List.length_append, List.length_singleton]
          omega
        · simp only [List.length_append, List.length_singleton]
          omega

theorem vigil_run {printed : Prop} (hM : 0 < M) (hs : Shift s) (hd : AllDead s)
    (hp : Done (s.pc .manager) → printed) (r : Run (Work M N) s tr t) : Vigil s printed tr t := by
  induction r with
  | refl => exact vigil_start hM hs hd hp
  | snoc r h ih =>
      exact ih.step hM (shift_run r hs) (r.invariant (fun hd h => (hd.step h).2) hd) h

theorem not_ended {m : ManagerPc N} (hpos : 0 < left m) : ¬ Ended (.manager m) := by
  cases m with
  | exited => cases hpos
  | _ => exact id

/-- A run after the death of the last worker begins at most one more iteration; and while the
manager has not printed that all have died, it is short, and the manager has not ended. -/
theorem Vigil.bound {printed : Prop} (hv : Vigil s printed tr t) :
    (iterations tr ≤ if s.pc .manager = .manager .start then 0 else 1) ∧
      ((printed ∨ Printed tr) ∨ tr.length ≤ 14 * N + 12 ∧ ¬ Ended (t.pc .manager)) := by
  cases hv with
  | done hm hp hi => exact ⟨hi, .inl hp⟩
  | before m hm hpos hle hi hs =>
      refine ⟨by omega, .inr ⟨by omega, ?_⟩⟩
      rw [hm]
      exact not_ended hpos
  | between hm hle hi hs => exact ⟨by omega, .inr ⟨by omega, by rw [hm]; exact id⟩⟩
  | since m hm hpos hi v tr' hv hd hstart r hle hle' =>
      refine ⟨hi, .inr ⟨by omega, ?_⟩⟩
      rw [hm]
      exact not_ended hpos

/-! ### The whole night -/

/-- **The casualties.**  In every state that can be reached:

* the count, the abandoned shelves, and the shelves found but not counted, are together twice the
  number of workers that have died;
* a report is the manager's, and tells a number between that of the workers alive and that of the
  workers alive when, in the same iteration, it had all shelves locked for the last time; it says
  that all have died only if they have;
* once all workers have died, the manager comes to at most one more iteration, to none if it is at
  the start of one; it has printed that all have died, or prints it within `14 * N + 12` steps, for
  up to then somebody can step. -/
theorem casualties (hN : 2 ≤ N) (r : Run (Work M N) (opening M log) tr s) :
    s.data.dead + abandoned s + pending s = 2 * died s ∧
      (∀ p n all t, Work M N s (p, some (.report n all)) t →
        p = .manager ∧ (all = true → AllDead s) ∧
          ∃ tr₁ u tr₂, tr = tr₁ ++ tr₂ ∧ Run (Work M N) (opening M log) tr₁ u ∧
            Run (Work M N) u tr₂ s ∧ HasAll u ∧
            (∀ m ∈ tr₂, ¬ HasAll m.after ∧ m.after.pc .manager ≠ .manager .start) ∧
            (alive s : ℤ) ≤ n ∧ n ≤ alive u) ∧
      (0 < M → AllDead s → ∀ tr' t, Run (Work M N) s tr' t →
        (iterations tr' ≤ if s.pc .manager = .manager .start then 0 else 1) ∧
          (Printed (tr ++ tr') ∨
            tr'.length ≤ 14 * N + 12 ∧ ∃ l v, Work M N t l v)) := by
  have hs := shift_run r (shift_opening log)
  refine ⟨hs.counted, fun p n all t h => ?_, fun hM hd tr' t r' => ?_⟩
  · obtain ⟨rfl, sorted, hm, hn, hall, -⟩ := hs.report h
    refine ⟨rfl, fun ha => hs.all_dead (of_decide_eq_true (hall.symm.trans ha)), ?_⟩
    obtain ⟨tr₁, u, tr₂, rfl, r₁, r₂, hu, hrest⟩ := last_hasAll r (placed_opening log) rfl _ hm
      (by simp [left]) (by simp only [left]; omega)
    obtain ⟨hlow, hhigh⟩ := report_bounds (by omega) (shift_run r₁ (shift_opening log)) hs r₂ hu hm
      (by simp [left])
    exact ⟨tr₁, u, tr₂, rfl, r₁, r₂, hu, hrest, by omega, by omega⟩
  · have hprinted : Done (s.pc .manager) → Printed tr := fun hdone =>
      (printed_run r hdone).resolve_right (hd.not_convinced hM hs).1
    obtain ⟨hi, hv⟩ := (vigil_run hM hs hd hprinted r').bound
    refine ⟨hi, hv.imp (fun hp => ?_) fun ⟨hle, hended⟩ => ⟨hle, ?_⟩⟩
    · rcases hp with hp | ⟨m, hm, hl⟩
      · exact hp.append _
      · exact ⟨m, List.mem_append_right _ hm, hl⟩
    · obtain ⟨p, e, v, h⟩ := (op_ordered hN).progress op_keeps (shift_run r' hs).locked
        ⟨.manager, fun e => hended (ended_iff.mpr e)⟩
      exact ⟨(p, e), v, h⟩

/-- After the death of the only worker. -/
theorem casualties_after_death : ∃ s : Shop 1 8, Reaches (Work 1 8) (opening 1 twoSwapped) s ∧
    s.pc (.worker 0) = .worker .died ∧ s.data.dead + abandoned s + pending s = 2 * died s := by
  obtain ⟨s, ⟨tr, r⟩, hd, -⟩ := worker_trips
  exact ⟨s, ⟨tr, r⟩, hd, (casualties (by decide) r).1⟩

end Sop2.Bitronka
