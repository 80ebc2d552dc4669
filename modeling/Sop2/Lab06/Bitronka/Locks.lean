import Sop2.Lab06.Bitronka.Shop

/-!
# Lab06 — Bitronka — the mutexes

Which mutexes a process holds at each of its places (`mode`), and that every operation of the
program keeps to it (`op_keeps`).  The mutexes are ordered: the shelves by their index, then
`mxDead`; nothing else is held with `mxSorted` (`op_ordered`).

`deadlock_free`: in every reachable state no processes wait for one another in a circle, some
process can step while one has not ended, and every mutex can still be locked.
-/

namespace Sop2.Bitronka
open Support Support.Robust

variable {M N : Nat}

/-! ### What is held at a place -/

/-- Nothing is held. -/
def idle : Lock N → Option Mode := fun _ => none

/-- The manager has locked the shelves before `i`. -/
def below (i : Nat) : Lock N → Option Mode
  | .shelf j => if j < i then some .consistent else none
  | _ => none

/-- The manager has still locked the shelves from `i` on. -/
def above (i : Nat) : Lock N → Option Mode
  | .shelf j => if i ≤ j then some .consistent else none
  | _ => none

/-- A worker has locked its first shelf. -/
def holdsFirst (pk : Pick N) : Lock N → Option Mode :=
  Function.update idle (.shelf pk.first) (some .consistent)

/-- A worker has locked both shelves. -/
def holdsBoth (pk : Pick N) : Lock N → Option Mode :=
  Function.update (holdsFirst pk) (.shelf pk.second) (some .consistent)

/-- Shelf `i` is being recovered by a process that holds `h` besides. -/
def recoverMode (h : Lock N → Option Mode) (i : Fin N) : Recovery → Lock N → Option Mode
  | .lockDead | .consistent => Function.update h (.shelf i) (some .inconsistent)
  | .increment | .unlockDead =>
      Function.update (Function.update h (.shelf i) (some .inconsistent)) .mxDead (some .consistent)

def workerMode : WorkerPc N → Lock N → Option Mode
  | .loop | .lockSorted | .pick | .lockFirst _ | .exited | .died => idle
  | .testSorted | .unlockSorted _ => Function.update idle .mxSorted (some .consistent)
  | .recoverFirst r pk => recoverMode idle pk.first r
  | .lockSecond pk | .unlockFirst pk => holdsFirst pk
  | .recoverSecond r pk => recoverMode (holdsFirst pk) pk.second r
  | .compare pk | .trip pk | .swap pk | .swapped pk _ | .unlockSecond pk => holdsBoth pk

def managerMode : ManagerPc N → Lock N → Option Mode
  | .start | .lockDead _ | .lockSorted | .exited => idle
  | .lock i => below i
  | .recover r i => recoverMode (below i) i r
  | .check _ => below N
  | .unlock i _ => above i
  | .report _ | .unlockDead _ _ => Function.update idle .mxDead (some .consistent)
  | .setSorted | .unlockSorted => Function.update idle .mxSorted (some .consistent)

/-- How each mutex is held at a place. -/
def mode : Pc N → Lock N → Option Mode
  | .worker w => workerMode w
  | .manager m => managerMode m

/-- The mutexes a worker can die with. -/
def IsShelf : Lock N → Prop
  | .shelf _ => True
  | _ => False

/-! ### Small facts -/

theorem Pick.first_lt_second (pk : Pick N) : pk.first < pk.second := by
  have := pk.ne
  unfold first second
  split <;> omega

theorem Pick.first_ne_second (pk : Pick N) : pk.first ≠ pk.second :=
  ne_of_lt pk.first_lt_second

/-- A mutex that was not held is given up again. -/
theorem update_none {h : Lock N → Option Mode} {k : Lock N} (hk : h k = none) (m : Option Mode) :
    Function.update (Function.update h k m) k none = h := by
  rw [Function.update_idem, ← hk, Function.update_eq_self]

theorem holdsFirst_second (pk : Pick N) : holdsFirst pk (.shelf pk.second) = none := by
  rw [holdsFirst, Function.update_of_ne]
  · rfl
  · simpa using pk.first_ne_second.symm

theorem below_shelf (i : Nat) (j : Fin N) :
    below i (.shelf j) = if j < i then some Mode.consistent else none := rfl

theorem above_shelf (i : Nat) (j : Fin N) :
    above i (.shelf j) = if i ≤ j then some Mode.consistent else none := rfl

@[simp] theorem below_zero : (below 0 : Lock N → Option Mode) = idle := by
  funext k
  cases k with
  | shelf j => rw [below_shelf, if_neg (Nat.not_lt_zero _)]; rfl
  | mxDead | mxSorted => rfl

theorem below_succ {i : Nat} (h : i < N) :
    Function.update (below i) (.shelf ⟨i, h⟩) (some .consistent) =
      (below (i + 1) : Lock N → Option Mode) := by
  funext k
  cases k with
  | shelf j =>
      by_cases hj : j = ⟨i, h⟩
      · subst hj; simp [below_shelf]
      · have hne : (j : Nat) ≠ i := fun e => hj (Fin.ext e)
        rw [Function.update_of_ne (by simpa using hj), below_shelf, below_shelf]
        congr 1
        rw [eq_iff_iff]
        omega
  | mxDead | mxSorted => rfl

theorem below_of_le {i : Nat} (h : N ≤ i) : (below i : Lock N → Option Mode) = below N := by
  funext k
  cases k with
  | shelf j =>
      have := j.isLt
      rw [below_shelf, below_shelf, if_pos (by omega), if_pos (by omega)]
  | mxDead | mxSorted => rfl

theorem above_zero : (above 0 : Lock N → Option Mode) = below N := by
  funext k
  cases k with
  | shelf j => simp [above_shelf, below_shelf]
  | mxDead | mxSorted => rfl

theorem above_succ {i : Nat} (h : i < N) :
    Function.update (above i) (.shelf ⟨i, h⟩) none = (above (i + 1) : Lock N → Option Mode) := by
  funext k
  cases k with
  | shelf j =>
      by_cases hj : j = ⟨i, h⟩
      · subst hj; simp [above_shelf]
      · have hne : (j : Nat) ≠ i := fun e => hj (Fin.ext e)
        rw [Function.update_of_ne (by simpa using hj), above_shelf, above_shelf]
        congr 1
        rw [eq_iff_iff]
        omega
  | mxDead | mxSorted => rfl

theorem above_of_le {i : Nat} (h : N ≤ i) : (above i : Lock N → Option Mode) = idle := by
  funext k
  cases k with
  | shelf j =>
      have := j.isLt
      rw [above_shelf, if_neg (by omega)]
      rfl
  | mxDead | mxSorted => rfl

/-! ### The program keeps to it -/

/-- A step that goes on at a place where the same mutexes are held. -/
theorem goto_keeps {h : Lock N → Option Mode} {next : Shelves N → Pc N}
    (hn : ∀ d, mode (next d) = h) : (goto next).Keeps mode IsShelf h := by
  rintro d l d' q ⟨-, -, rfl⟩
  exact hn d

/-- The recovery of shelf `i`. -/
theorem recoverOp_keeps (h : Lock N → Option Mode) (i : Fin N) (again : Recovery → Pc N)
    (next : Pc N) (hd : h .mxDead = none) (ha : ∀ r, mode (again r) = recoverMode h i r)
    (hn : mode next = Function.update h (.shelf i) (some .consistent)) (r : Recovery) :
    (recoverOp i again next r).Keeps mode IsShelf (recoverMode h i r) := by
  have hd' : Function.update h (.shelf i) (some .inconsistent) .mxDead = none := by
    rw [Function.update_of_ne (by simp), hd]
  cases r with
  | lockDead => exact ⟨hd', ha _, fun hk => hk.elim⟩
  | increment =>
      rintro d l d' q ⟨-, -, rfl⟩
      exact ha _
  | unlockDead =>
      refine ⟨by rw [recoverMode, Function.update_self], ?_⟩
      rw [ha]
      exact (update_none hd' _).symm
  | consistent =>
      refine ⟨by rw [recoverMode, Function.update_self], ?_⟩
      rw [hn, recoverMode, Function.update_idem]

theorem workerOp_keeps (w : WorkerPc N) : (workerOp w).Keeps mode IsShelf (workerMode w) := by
  cases w with
  | loop =>
      refine goto_keeps fun d => ?_
      cases d.sorted <;> rfl
  | lockSorted => exact ⟨rfl, rfl, fun hk => hk.elim⟩
  | testSorted => exact goto_keeps fun d => rfl
  | unlockSorted leave =>
      refine ⟨by rw [workerMode, Function.update_self], ?_⟩
      rw [workerMode, update_none rfl]
      cases leave <;> rfl
  | pick =>
      rintro d l d' q ⟨-, -, pk, rfl⟩
      rfl
  | lockFirst pk => exact ⟨rfl, rfl, fun _ => rfl⟩
  | recoverFirst r pk =>
      exact recoverOp_keeps idle pk.first (fun r => .worker (.recoverFirst r pk))
        (.worker (.lockSecond pk)) rfl (fun _ => rfl) rfl r
  | lockSecond pk => exact ⟨holdsFirst_second pk, rfl, fun _ => rfl⟩
  | recoverSecond r pk =>
      exact recoverOp_keeps (holdsFirst pk) pk.second (fun r => .worker (.recoverSecond r pk))
        (.worker (.compare pk)) rfl (fun _ => rfl) rfl r
  | compare pk =>
      rintro d l d' q ⟨-, -, hq⟩
      split at hq
      · rcases hq with rfl | rfl <;> rfl
      · rw [hq]; rfl
  | trip pk =>
      refine ⟨rfl, fun k hk => ?_⟩
      cases k with
      | shelf i => trivial
      | mxDead | mxSorted => exact absurd rfl hk
  | swap pk | swapped pk =>
      rintro d l d' q ⟨-, -, rfl⟩
      rfl
  | unlockSecond pk =>
      exact ⟨Function.update_self .., (update_none (holdsFirst_second pk) _).symm⟩
  | unlockFirst pk => exact ⟨Function.update_self .., (update_none rfl _).symm⟩
  | exited | died => rfl

theorem managerOp_keeps (m : ManagerPc N) :
    (managerOp M m).Keeps mode IsShelf (managerMode m) := by
  cases m with
  | start => exact goto_keeps fun d => below_zero
  | lock i =>
      rw [managerOp]
      split
      · rename_i h
        refine ⟨by simp [managerMode, below_shelf], (below_succ h).symm, fun _ => rfl⟩
      · rename_i h
        exact goto_keeps fun d => (below_of_le (Nat.not_lt.mp h)).symm
  | recover r i =>
      exact recoverOp_keeps (below i) i (fun r => .manager (.recover r i))
        (.manager (.lock (i + 1))) rfl (fun _ => rfl) (below_succ i.isLt).symm r
  | check i =>
      rw [managerOp]
      split
      · refine goto_keeps fun d => ?_
        split
        · exact above_zero
        · rfl
      · rintro d l d' q ⟨-, -, rfl⟩
        exact above_zero
  | unlock i sorted =>
      rw [managerOp]
      split
      · rename_i h
        exact ⟨by simp [managerMode, above_shelf], (above_succ h).symm⟩
      · rename_i h
        exact goto_keeps fun d => (above_of_le (Nat.not_lt.mp h)).symm
  | lockDead sorted | lockSorted => exact ⟨rfl, rfl, fun hk => hk.elim⟩
  | report sorted =>
      rintro d l d' q ⟨-, -, rfl⟩
      rfl
  | unlockDead sorted all =>
      refine ⟨by rw [managerMode, Function.update_self], ?_⟩
      rw [managerMode, update_none rfl]
      cases all <;> cases sorted <;> rfl
  | setSorted =>
      rintro d l d' q ⟨-, -, rfl⟩
      rfl
  | unlockSorted => exact ⟨by rw [managerMode, Function.update_self], (update_none rfl _).symm⟩
  | exited => rfl

/-- Every operation of the program keeps to `mode`. -/
theorem op_keeps : Keeps (op M : Pc N → ShopOp N) mode IsShelf := by
  intro q
  cases q with
  | worker w => exact workerOp_keeps w
  | manager m => exact managerOp_keeps m

/-! ### The order of the mutexes -/

/-- The shelves by their index, then `mxDead`. -/
def rank : Lock N → ℕ
  | .shelf i => i
  | .mxDead => N
  | .mxSorted => N + 1

/-- Only shelves are held together with shelf `i`, up to it. -/
def UpTo (h : Lock N → Option Mode) (i : Fin N) : Prop := ∀ k, h k ≠ none → rank k < rank (.shelf i)

theorem goto_ordered (next : Shelves N → Pc N) (h : Lock N → Option Mode) :
    (goto next).Ordered rank h :=
  fun d => ⟨none, d, next d, rfl, rfl, rfl⟩

theorem recoverOp_ordered {h : Lock N → Option Mode} {i : Fin N} (hi : UpTo h i)
    (again : Recovery → Pc N) (next : Pc N) (r : Recovery) :
    (recoverOp i again next r).Ordered rank (recoverMode h i r) := by
  cases r with
  | lockDead =>
      intro k hk
      have hlt := i.isLt
      by_cases hki : k = .shelf i
      · subst hki; exact hlt
      · rw [recoverMode, Function.update_of_ne hki] at hk
        exact (hi k hk).trans hlt
  | increment => exact fun d => ⟨_, _, _, rfl, rfl, rfl⟩
  | unlockDead | consistent => trivial

theorem idle_upTo (i : Fin N) : UpTo idle i := fun _ hk => absurd rfl hk

theorem below_upTo (i : Fin N) : UpTo (below i) i := by
  intro k hk
  cases k with
  | shelf j =>
      by_contra hlt
      exact hk (if_neg hlt)
  | mxDead | mxSorted => exact absurd rfl hk

theorem holdsFirst_upTo (pk : Pick N) : UpTo (holdsFirst pk) pk.second := by
  intro k hk
  by_cases hkf : k = .shelf pk.first
  · subst hkf; exact pk.first_lt_second
  · rw [holdsFirst, Function.update_of_ne hkf] at hk
    exact absurd rfl hk

theorem workerOp_ordered (hN : 2 ≤ N) (w : WorkerPc N) :
    (workerOp w).Ordered rank (workerMode w) := by
  cases w with
  | loop | testSorted => exact goto_ordered _ _
  | lockSorted => exact fun k hk => absurd rfl hk
  | pick =>
      exact fun d => ⟨none, d, _, rfl, rfl, ⟨⟨0, by omega⟩, ⟨1, by omega⟩, by simp⟩, rfl⟩
  | lockFirst pk => exact idle_upTo _
  | recoverFirst r pk =>
      exact recoverOp_ordered (idle_upTo _) (fun r => .worker (.recoverFirst r pk))
        (.worker (.lockSecond pk)) r
  | lockSecond pk => exact holdsFirst_upTo pk
  | recoverSecond r pk =>
      exact recoverOp_ordered (holdsFirst_upTo pk) (fun r => .worker (.recoverSecond r pk))
        (.worker (.compare pk)) r
  | compare pk =>
      intro d
      by_cases hi : Inverted d.log pk
      · exact ⟨none, d, .worker (.swap pk), rfl, rfl, by rw [if_pos hi]; exact .inr rfl⟩
      · exact ⟨none, d, .worker (.unlockSecond pk), rfl, rfl, by rw [if_neg hi]⟩
  | swap pk | swapped pk x => exact fun d => ⟨_, _, _, rfl, rfl, rfl⟩
  | unlockSorted | trip | unlockSecond | unlockFirst | exited | died => trivial

theorem managerOp_ordered (m : ManagerPc N) : (managerOp M m).Ordered rank (managerMode m) := by
  cases m with
  | start => exact goto_ordered _ _
  | lock i =>
      rw [managerOp]
      split
      · exact below_upTo ⟨i, ‹_›⟩
      · exact goto_ordered _ _
  | recover r i =>
      exact recoverOp_ordered (below_upTo i) (fun r => .manager (.recover r i))
        (.manager (.lock (i + 1))) r
  | check i =>
      rw [managerOp]
      split
      · exact goto_ordered _ _
      · exact fun d => ⟨_, _, _, rfl, rfl, rfl⟩
  | unlock i sorted =>
      rw [managerOp]
      split
      · trivial
      · exact goto_ordered _ _
  | lockDead sorted | lockSorted => exact fun k hk => absurd rfl hk
  | report sorted | setSorted => exact fun d => ⟨_, _, _, rfl, rfl, rfl⟩
  | unlockDead | unlockSorted | exited => trivial

/-- Mutexes are only locked in order, and no operation on the shared data is stuck. -/
theorem op_ordered (hN : 2 ≤ N) : Ordered (op M : Pc N → ShopOp N) mode rank := by
  intro q
  cases q with
  | worker w => exact workerOp_ordered hN w
  | manager m => exact managerOp_ordered m

/-! ### The reachable states -/

variable {log : Fin N → Nat} {s t : Shop M N}

/-- The mutexes are as the places of the processes say. -/
abbrev Locked (s : Shop M N) : Prop := Disciplined mode IsShelf s

theorem locked_opening (log : Fin N → Nat) : Locked (opening M log) :=
  disciplined_start (fun p => by cases p <;> rfl) fun _ => rfl

theorem locked_reaches (h : Reaches (Work M N) (opening M log) s) : Locked s :=
  (locked_opening log).reaches op_keeps h

/-- A process that has ended. -/
def Ended : Pc N → Prop
  | .worker .exited | .worker .died | .manager .exited => True
  | _ => False

theorem recoverOp_ne_halt (i : Fin N) (again : Recovery → Pc N) (next : Pc N) (r : Recovery) :
    recoverOp i again next r ≠ .halt := by
  cases r <;> simp [recoverOp]

/-- The program ends at these places and at no other. -/
theorem ended_iff {q : Pc N} : Ended q ↔ op M q = .halt := by
  cases q with
  | worker w =>
      cases w with
      | recoverFirst r pk | recoverSecond r pk =>
          refine iff_of_false id ?_
          rw [op, workerOp]
          exact recoverOp_ne_halt _ _ _ r
      | exited | died => exact iff_of_true trivial rfl
      | _ => exact iff_of_false id (by simp [op, workerOp, goto])
  | manager m =>
      cases m with
      | recover r i =>
          refine iff_of_false id ?_
          rw [op, managerOp]
          exact recoverOp_ne_halt _ _ _ r
      | lock | check | unlock =>
          refine iff_of_false id ?_
          rw [op, managerOp]
          split <;> simp [goto]
      | exited => exact iff_of_true trivial rfl
      | _ => exact iff_of_false id (by simp [op, managerOp, goto])

/-- **No deadlock.**  In every reachable state: the processes that wait for one another's mutexes
form no circle; while some process has not ended, some process can take a step; and no mutex has
become unrecoverable. -/
theorem deadlock_free (hN : 2 ≤ N) (h : Reaches (Work M N) (opening M log) s) :
    (∀ p, ¬ Relation.TransGen (WaitsFor (op M) s) p p) ∧
      ((∃ p, ¬ Ended (s.pc p)) → ∃ p l t, ¬ Ended (s.pc p) ∧ Work M N s (p, l) t) ∧
      ∀ k, s.table k ≠ .notRecoverable := by
  have hs := locked_reaches h
  refine ⟨(op_ordered hN).acyclic hs, fun ⟨p, hp⟩ => ?_, hs.recoverable⟩
  obtain ⟨q, l, t, hstep⟩ := (op_ordered hN).progress op_keeps hs ⟨p, fun e => hp (ended_iff.mpr e)⟩
  exact ⟨q, l, t, fun he => hstep.ne_halt (ended_iff.mp he), hstep⟩

/-! ### A death -/

/-- The indices 0 and 1. -/
def firstTwo : Pick 8 := ⟨0, 1, by decide⟩

/-- Eight shelves, the first two the wrong way round. -/
def twoSwapped : Fin 8 → Nat := fun i => Equiv.swap (0 : Fin 8) 1 i

/-- The only worker dies over the first two shelves. -/
theorem worker_trips : ∃ s : Shop 1 8, Reaches (Work 1 8) (opening 1 twoSwapped) s ∧
    s.pc (.worker 0) = .worker .died ∧ s.pc .manager = .manager .start ∧
    s.table (.shelf 0) = .ownerDead ∧ s.table (.shelf 1) = .ownerDead := by
  have r := (((((((((Run.one (.act (.worker 0) _ none _ _ rfl ⟨rfl, rfl, rfl⟩ :
    Work 1 8 (opening 1 twoSwapped) _ _)).snoc
    (.lock (.worker 0) .mxSorted _ _ rfl rfl)).snoc
    (.act (.worker 0) _ none _ _ rfl ⟨rfl, rfl, rfl⟩)).snoc
    (.unlock (.worker 0) .mxSorted _ rfl)).snoc
    (.act (.worker 0) _ none _ _ rfl ⟨rfl, rfl, firstTwo, rfl⟩)).snoc
    (.lock (.worker 0) (.shelf 0) _ _ rfl rfl)).snoc
    (.lock (.worker 0) (.shelf 1) _ _ rfl rfl)).snoc
    (.act (.worker 0) _ none _ (.worker (.trip firstTwo)) rfl
      ⟨rfl, rfl, by rw [if_pos (by decide)]; exact .inl rfl⟩)).snoc
    (.abort (.worker 0) _ rfl))
  exact ⟨_, ⟨_, r⟩, rfl, rfl, rfl, rfl⟩

/-- After the death the manager can go on. -/
theorem deadlock_free_after_death : ∃ s : Shop 1 8,
    Reaches (Work 1 8) (opening 1 twoSwapped) s ∧ s.table (.shelf 0) = .ownerDead ∧
      ∃ p l t, ¬ Ended (s.pc p) ∧ Work 1 8 s (p, l) t := by
  obtain ⟨s, h, -, hm, h₀, -⟩ := worker_trips
  exact ⟨s, h, h₀, (deadlock_free (by decide) h).2.1 ⟨.manager, by rw [hm]; exact id⟩⟩

end Sop2.Bitronka
