import Mathlib.Data.Fintype.Option
import Mathlib.Data.List.Nodup
import Mathlib.Algebra.Order.Group.Int
import Sop2.Support.RobustMutex
import Sop2.Support.Tally

/-!
# Lab06 — Board — the search

`lab06/l6-2`: one server and any number of clients over one board, under one robust mutex.  Every
client searches a field at a time; at a bad throw of the dice it exits with the mutex locked, and
whoever locks the mutex next, a client or the server, declares it consistent.

The server is modelled up to `pthread_mutex_destroy`, which it reaches after `SIGINT` only.

A field has been searched, but not cleared, only while its client is at `clear`, and holds the
mutex there (`Ledger`).  So the points that the clients have, and those on the board, are always
those that were there at first, but for a field that is being cleared (`search_law`).
-/

namespace Sop2.Board
open Support Support.Robust

variable {N : Nat}

/-- A field `(x, y)`, which is the byte `N * y + x` of the board. -/
abbrev Field (N : Nat) := Fin N × Fin N

/-- Where a process is: the clients, with their score, and then the server. -/
inductive Place (N : Nat) where
  | search (score : Int)
  /-- `EOWNERDEAD`. -/
  | recover (score : Int)
  /-- Before `D` is thrown. -/
  | dice (score : Int)
  /-- `D == 1`. -/
  | ops (score : Int)
  | look (score : Int) (f : Field N)
  | credit (score p : Int) (f : Field N)
  | clear (score p : Int) (f : Field N)
  | release (score : Int)
  /-- `p == 0`. -/
  | ended (score : Int)
  | finished (score : Int)
  | gone (score : Int)
  | running
  | lock
  | repair
  | print
  | unlock
  | stopped
  deriving DecidableEq

/-- A client adds the points of a field to its score. -/
structure Event (N : Nat) where
  field : Field N
  points : Int
  deriving DecidableEq

/-- The loops of the client, and of the server. -/
def op : Place N → Op Unit (Field N → Int) (Place N) (Event N)
  | .search score => .lock () (.dice score) (.recover score)
  | .recover score => .consistent () (.dice score)
  | .dice score => .act fun d l d' q =>
      l = none ∧ d' = d ∧ (q = .ops score ∨ ∃ f, q = .look score f)
  | .ops score => .abort (.gone score)
  | .look score f => .act fun d l d' q =>
      l = none ∧ d' = d ∧ q = if d f = 0 then .ended score else .credit score (d f) f
  | .credit score p f => .act fun d l d' q =>
      l = some ⟨f, p⟩ ∧ d' = d ∧ q = .clear (score + p) p f
  | .clear score _ f => .act fun d l d' q =>
      l = none ∧ d' = Function.update d f 0 ∧ q = .release score
  | .release score => .unlock () (.search score)
  | .ended score => .unlock () (.finished score)
  | .running => .act fun d l d' q => l = none ∧ d' = d ∧ (q = .lock ∨ q = .stopped)
  | .lock => .lock () .print .repair
  | .repair => .consistent () .print
  | .print => .act fun d l d' q => l = none ∧ d' = d ∧ q = .unlock
  | .unlock => .unlock () .running
  | .finished _ | .gone _ | .stopped => .halt

variable {C : Type*} [DecidableEq C]

/-- Of the processes, `none` is the server. -/
abbrev State (C : Type*) (N : Nat) := Robust.State (Option C) Unit (Field N → Int) (Place N)

abbrev Step : State C N → Option C × Option (Event N) → State C N → Prop := Robust.Step op

/-- The server has set up the board and the mutex. -/
def start (board : Field N → Int) : State C N where
  data := board
  table _ := .unlocked
  pc
    | none => .running
    | some _ => .search 0

/-- What a client has added to its score. -/
def Place.score : Place N → Int
  | .search score | .recover score | .dice score | .ops score | .look score _
  | .credit score _ _ | .clear score _ _ | .release score | .ended score | .finished score
  | .gone score => score
  | _ => 0

/-- The points that are in a score, and on the board still. -/
def Place.twice : Place N → Int
  | .clear _ p _ => p
  | _ => 0

/-- The field that is being searched, with the points that were found there. -/
def Place.found : Place N → Option (Event N)
  | .credit _ p f | .clear _ p f => some ⟨f, p⟩
  | _ => none

/-- How the mutex is held at a place. -/
def Place.mode : Place N → Unit → Option Mode
  | .recover _ | .repair => fun _ => some .inconsistent
  | .dice _ | .ops _ | .look _ _ | .credit _ _ _ | .clear _ _ _ | .release _ | .ended _ | .print
  | .unlock => fun _ => some .consistent
  | _ => fun _ => none

/-- What is credited, in order. -/
def credits (tr : List (Move (State C N) (Option C × Option (Event N)))) : List (Event N) :=
  tr.filterMap fun m => m.label.2

/-! ### The mutex -/

theorem update_unit {α : Type*} (f : Unit → α) (x : α) : Function.update f () x = fun _ => x :=
  funext fun _ => Function.update_self ..

/-- **Every operation keeps to it.** -/
theorem op_keeps : Keeps (op (N := N)) Place.mode (fun _ => True) := by
  intro q
  cases q with
  | search score | lock =>
      exact ⟨rfl, (update_unit _ _).symm, fun _ => (update_unit _ _).symm⟩
  | recover score | repair | release score | ended score | unlock =>
      exact ⟨rfl, (update_unit _ _).symm⟩
  | ops score => exact ⟨rfl, fun _ _ => trivial⟩
  | dice score => rintro d l d' q ⟨-, -, rfl | ⟨f, rfl⟩⟩ <;> rfl
  | look score f =>
      rintro d l d' q ⟨-, -, rfl⟩
      split <;> rfl
  | running => rintro d l d' q ⟨-, -, rfl | rfl⟩ <;> rfl
  | credit score p f | clear score p f | print =>
      rintro d l d' q ⟨-, -, rfl⟩
      rfl
  | finished score | gone score | stopped => rfl

variable {board : Field N → Int} {s t : State C N}
  {tr : List (Move (State C N) (Option C × Option (Event N)))}

/-- **The mutex is as the places say**, and can always be locked again. -/
theorem disciplined (r : Run Step (start board) tr s) :
    Disciplined Place.mode (fun _ => True) s := by
  refine Disciplined.reaches op_keeps (disciplined_start (fun p => ?_) fun _ => rfl) ⟨tr, r⟩
  cases p <;> rfl

/-- Nobody else searches a field. -/
theorem alone (hs : Disciplined Place.mode (fun _ => True) s) {p q : Option C}
    (hp : (s.pc p).mode () ≠ none) (hq : (s.pc q).found ≠ none) : p = q := by
  have hheld : (s.pc q).mode () ≠ none := by
    cases hpc : s.pc q <;> rw [hpc] at hq <;> simp_all [Place.found, Place.mode]
  rw [← hs.mode] at hp hheld
  have hown := Mutex.owner_eq_some.mpr hp
  rw [Mutex.owner_eq_some.mpr hheld] at hown
  exact (Option.some.inj hown).symm

/-! ### The board -/

/-- The kinds of steps, by what they do to the board and to the score. -/
inductive Turn (d : Field N → Int) : Place N → Option (Event N) → (Field N → Int) → Place N → Prop
    where
  | found (score : Int) (f : Field N) (h : d f ≠ 0) :
      Turn d (.look score f) none d (.credit score (d f) f)
  | credit (score p : Int) (f : Field N) :
      Turn d (.credit score p f) (some ⟨f, p⟩) d (.clear (score + p) p f)
  | clear (score p : Int) (f : Field N) :
      Turn d (.clear score p f) none (Function.update d f 0) (.release score)
  | other (q q' : Place N) (hscore : q'.score = q.score) (hq : q.found = none)
      (hq' : q'.found = none) : Turn d q none d q'

/-- Every step is one of these. -/
theorem op_turn {d d' : Field N → Int} {l : Option (Event N)} {q q' : Place N}
    (h : (op q).Goes d l d' q') : Turn d q l d' q' := by
  cases q with
  | search score | lock =>
      obtain ⟨rfl, rfl, rfl | rfl⟩ := h <;> exact .other _ _ rfl rfl rfl
  | dice score =>
      obtain ⟨rfl, rfl, rfl | ⟨f, rfl⟩⟩ := h <;> exact .other _ _ rfl rfl rfl
  | running => obtain ⟨rfl, rfl, rfl | rfl⟩ := h <;> exact .other _ _ rfl rfl rfl
  | look score f =>
      obtain ⟨rfl, rfl, rfl⟩ := h
      split
      · exact .other _ _ rfl rfl rfl
      · exact .found score f ‹_›
  | credit score p f =>
      obtain ⟨rfl, rfl, rfl⟩ := h
      exact .credit score p f
  | clear score p f =>
      obtain ⟨rfl, rfl, rfl⟩ := h
      exact .clear score p f
  | recover score | ops score | release score | ended score | repair | print | unlock =>
      obtain ⟨rfl, rfl, rfl⟩ := h
      exact .other _ _ rfl rfl rfl
  | finished score | gone score | stopped => exact h.elim

theorem Turn.twice_eq_zero {q : Place N} (h : q.found = none) : q.twice = 0 := by
  cases q <;> first | rfl | cases h

/-- A field that is empty stays empty. -/
theorem step_zero {l : Option C × Option (Event N)} (h : Step s l t) {f : Field N}
    (hf : s.data f = 0) : t.data f = 0 := by
  obtain ⟨q, -, hgoes⟩ := h.goes
  generalize s.pc l.1 = q₀, t.data = d', l.2 = e at hgoes ⊢
  cases op_turn hgoes with
  | found | credit | other => exact hf
  | clear score p g =>
      by_cases hfg : f = g
      · rw [hfg, Function.update_self]
      · rw [Function.update_of_ne hfg, hf]

variable [Fintype C]

/-- The points that are in the scores, and on the board. -/
def total (s : State C N) : Int := ∑ p, (s.pc p).score + ∑ f, s.data f

/-- What the board, the scores and the credits have to do with one another. -/
structure Ledger (board : Field N → Int)
    (tr : List (Move (State C N) (Option C × Option (Event N)))) (s : State C N) : Prop where
  total : total s = ∑ f, board f + ∑ p, (s.pc p).twice
  /-- What was found on a field is still there while it is searched. -/
  found : ∀ p e, (s.pc p).found = some e → s.data e.field = e.points ∧ e.points ≠ 0
  /-- A field is as it was, or empty. -/
  kept : ∀ f, s.data f = board f ∨ s.data f = 0
  /-- A field that was credited is empty, or is being cleared. -/
  credited : ∀ e ∈ credits tr, e.points = board e.field ∧
    (s.data e.field = 0 ∨ ∃ p score, s.pc p = .clear score e.points e.field)
  once : ((credits tr).map Event.field).Nodup

omit [DecidableEq C] [Fintype C] in
theorem credits_snoc (m : Move (State C N) (Option C × Option (Event N))) :
    credits (tr ++ [m]) = credits tr ++ m.label.2.toList := by
  rw [credits, List.filterMap_append]
  cases h : m.label.2 <;> simp [credits, h]

omit [DecidableEq C] in
theorem ledger_start : Ledger (C := C) board [] (start board) where
  total := by
    have hscore : ∀ p : Option C, ((start board).pc p).score = 0 := fun p => by cases p <;> rfl
    have htwice : ∀ p : Option C, ((start board).pc p).twice = 0 := fun p => by cases p <;> rfl
    rw [Board.total, Finset.sum_congr rfl fun p _ => hscore p,
      Finset.sum_congr rfl fun p _ => htwice p, Finset.sum_const_zero, zero_add, add_zero]
    rfl
  found p e h := by cases p <;> cases h
  kept f := .inl rfl
  credited e he := by cases he
  once := List.nodup_nil

omit [Fintype C] in
/-- A client that clears a field does so still, if somebody else moves. -/
theorem clearing_of_ne {pc pc' : Option C → Place N} {p r : Option C} {q : Place N}
    (hpc : pc' = Function.update pc p q) (hp : ∀ score e f, pc p ≠ .clear score e f)
    {score v : Int} {f : Field N} (hr : pc r = .clear score v f) : pc' r = .clear score v f := by
  have hne : r ≠ p := fun h => hp score v f (h ▸ hr)
  rw [hpc, Function.update_of_ne hne, hr]

/-- One step of one process. -/
theorem Ledger.step (hs : Disciplined Place.mode (fun _ => True) s) (hL : Ledger board tr s)
    {l : Option C × Option (Event N)} (h : Step s l t) : Ledger board (tr ++ [⟨s, l, t⟩]) t := by
  obtain ⟨p, e⟩ := l
  obtain ⟨q, hpc, hgoes⟩ := h.goes
  -- the sums over the places, when `p` moves
  have hsum : ∀ g : Place N → Int, ∑ r, g (t.pc r) + g (s.pc p) = ∑ r, g (s.pc r) + g q := by
    intro g
    rw [hpc]
    exact sum_update_add g s.pc p q
  have hscore := hsum Place.score
  have htwice := hsum Place.twice
  have htotal := hL.total
  have hmove := moved hpc
  have hother : ∀ {r}, (s.pc r).found ≠ none → (s.pc p).mode () ≠ none → r = p :=
    fun hr hp => (alone hs hp hr).symm
  have hkept := hL.kept
  have hfound := hL.found
  have hcredited := hL.credited
  unfold Board.total at htotal
  generalize hd : t.data = d' at hgoes
  dsimp only at hpc hgoes
  generalize hq₀ : s.pc p = q₀ at hgoes hscore htwice hother
  have hstill : (∀ score v f, q₀ ≠ .clear score v f) → d' = s.data → ∀ e ∈ credits tr,
      e.points = board e.field ∧
        (d' e.field = 0 ∨ ∃ r score, t.pc r = .clear score e.points e.field) := by
    intro hne hd' e he
    obtain ⟨hpoints, hzero | ⟨r, score, hr⟩⟩ := hcredited e he
    · exact ⟨hpoints, .inl (hd' ▸ hzero)⟩
    · exact ⟨hpoints, .inr ⟨r, score, clearing_of_ne hpc (fun a b c => hq₀ ▸ hne a b c) hr⟩⟩
  cases op_turn hgoes with
  | found score f hf =>
      refine ⟨?_, fun r e hr => ?_, hd ▸ hkept, ?_, ?_⟩
      · change _ + score = _ + score at hscore
        change _ + 0 = _ + 0 at htwice
        rw [Board.total, hd]
        omega
      · rw [hd]
        rcases hmove r with ⟨-, hr'⟩ | ⟨-, hr'⟩
        · rw [hr'] at hr
          cases hr
          exact ⟨rfl, hf⟩
        · exact hfound r e (hr' ▸ hr)
      · simpa [credits_snoc, hd] using hstill nofun rfl
      · simpa [credits_snoc] using hL.once
  | credit score v f =>
      have hp : (s.pc p).found = some ⟨f, v⟩ := by rw [hq₀]; rfl
      obtain ⟨hv, hne⟩ := hfound p _ hp
      refine ⟨?_, fun r e hr => ?_, hd ▸ hkept, ?_, ?_⟩
      · change _ + score = _ + (score + v) at hscore
        change _ + 0 = _ + v at htwice
        rw [Board.total, hd]
        omega
      · rw [hd]
        rcases hmove r with ⟨-, hr'⟩ | ⟨-, hr'⟩
        · rw [hr'] at hr
          cases hr
          exact ⟨hv, hne⟩
        · exact hfound r e (hr' ▸ hr)
      · rw [credits_snoc, hd]
        refine forall_mem_snoc (hstill nofun rfl) ⟨?_, .inr ⟨p, score + v, ?_⟩⟩
        · rcases hkept f with hf | hf
          · exact hv.symm.trans hf
          · exact absurd (hv.symm.trans hf) hne
        · rw [hpc, Function.update_self]
      · -- the field has its points still, so it has not been credited
        rw [credits_snoc]
        simp only [Option.toList_some, List.map_append, List.map_cons, List.map_nil]
        refine List.nodup_append.mpr ⟨hL.once, List.nodup_singleton _, ?_⟩
        rintro g hg _ hg' rfl
        obtain rfl := List.mem_singleton.mp hg'
        obtain ⟨e, he, rfl⟩ := List.mem_map.mp hg
        rcases (hcredited e he).2 with hzero | ⟨r, score', hr⟩
        · exact hne (hv.symm.trans hzero)
        · have hrp := hother (r := r) (by rw [hr]; simp [Place.found]) (by simp [Place.mode])
          rw [hrp, hq₀] at hr
          cases hr
  | clear score v f =>
      have hp : (s.pc p).found = some ⟨f, v⟩ := by rw [hq₀]; rfl
      obtain ⟨hv, hne⟩ := hfound p _ hp
      have hnobody : ∀ {r}, r ≠ p → (s.pc r).found = none := fun hr =>
        not_not.mp fun hr' => hr (hother hr' (by simp [Place.mode]))
      refine ⟨?_, fun r e hr => ?_, fun g => ?_, ?_, ?_⟩
      · have hboard := sum_update_add (fun x : Int => x) s.data f 0
        change _ + score = _ + score at hscore
        change _ + v = _ + 0 at htwice
        change s.data f = v at hv
        rw [Board.total, hd]
        omega
      · rcases hmove r with ⟨-, hr'⟩ | ⟨hrp, hr'⟩
        · rw [hr'] at hr
          cases hr
        · rw [hr', hnobody hrp] at hr
          cases hr
      · rw [hd]
        by_cases hg : g = f
        · rw [hg, Function.update_self]
          exact .inr rfl
        · rw [Function.update_of_ne hg]
          exact hkept g
      · simp only [credits_snoc, Option.toList_none, List.append_nil, hd]
        intro e he
        obtain ⟨hpoints, hzero⟩ := hcredited e he
        refine ⟨hpoints, .inl ?_⟩
        by_cases hg : e.field = f
        · rw [hg, Function.update_self]
        · rw [Function.update_of_ne hg]
          rcases hzero with hzero | ⟨r, score', hr⟩
          · exact hzero
          · have hrp : r = p := not_not.mp fun hrp => by
              have hnone := hnobody hrp
              rw [hr] at hnone
              cases hnone
            rw [hrp, hq₀] at hr
            exact absurd (Place.clear.inj hr).2.2.symm hg
      · simpa [credits_snoc] using hL.once
  | other q₀ q hkeeps hq hq' =>
      have htwice₀ := Turn.twice_eq_zero hq
      have htwice₁ := Turn.twice_eq_zero hq'
      refine ⟨?_, fun r e hr => ?_, hd ▸ hkept, ?_, ?_⟩
      · rw [Board.total, hd]
        omega
      · rw [hd]
        rcases hmove r with ⟨-, hr'⟩ | ⟨-, hr'⟩
        · rw [hr', hq'] at hr
          cases hr
        · exact hfound r e (hr' ▸ hr)
      · simpa [credits_snoc, hd] using hstill (fun _ _ _ h => by rw [h] at hq; cases hq) rfl
      · simpa [credits_snoc] using hL.once

/-- **The ledger of a run.** -/
theorem ledger (r : Run Step (start board) tr s) : Ledger board tr s := by
  suffices h : ∀ {s₀}, Run Step s₀ tr s → s₀ = start board → Ledger board tr s from h r rfl
  intro s₀ r hs₀
  induction r with
  | refl => exact hs₀ ▸ ledger_start
  | snoc r h ih =>
      subst hs₀
      exact (ih r).step (disciplined r) h

omit [Fintype C] in
/-- While nobody has the mutex, no field is being searched. -/
theorem twice_released (hs : Disciplined Place.mode (fun _ => True) s)
    (h : (s.table ()).owner = none) (p : Option C) : (s.pc p).twice = 0 := by
  have hmode : (s.pc p).mode () = none := by
    rw [← hs.mode]
    refine not_not.mp fun hm => ?_
    rw [Mutex.owner_eq_some.mpr hm] at h
    cases h
  refine Turn.twice_eq_zero ?_
  cases hpc : s.pc p <;> rw [hpc] at hmode <;> first | rfl | cases hmode

/-- **The search.**  Whatever the clients throw and search, and wherever they exit: while nobody
has the mutex, the scores and the board add up to what was on the board at first; the points of a
field are credited once at most; an empty field stays empty; and the mutex can always be locked
again. -/
theorem search_law (r : Run Step (start (C := C) board) tr s) :
    ((s.table ()).owner = none → ∑ p, (s.pc p).score + ∑ f, s.data f = ∑ f, board f) ∧
      (∀ e ∈ credits tr, e.points = board e.field) ∧ ((credits tr).map Event.field).Nodup ∧
      (∀ m ∈ tr, ∀ f, m.before.data f = 0 → m.after.data f = 0) ∧
      s.table () ≠ .notRecoverable := by
  have hL := ledger r
  have hs := disciplined r
  refine ⟨fun h => ?_, fun e he => (hL.credited e he).1, hL.once,
    fun m m_in f hf => step_zero (r.step_of_mem m m_in) hf, hs.recoverable ()⟩
  have htotal := hL.total
  rwa [Finset.sum_congr rfl fun p _ => twice_released hs h p, Finset.sum_const_zero,
    add_zero] at htotal

/-- A client clears a field and exits with the mutex at its next throw; another locks it, declares
it consistent and clears the next field. -/
theorem handOver_run : ∃ (tr : List (Move (State Bool 3) (Option Bool × Option (Event 3))))
    (s : State Bool 3), Run Step (start fun _ => 3) tr s ∧
      credits tr = [⟨(0, 0), 3⟩, ⟨(2, 1), 3⟩] ∧ s.pc (some true) = .gone 3 ∧
      s.table () = .unlocked := by
  have r := ((((((((Run.one (.lock (some true) () _ _ rfl rfl) :
    Run (Step (C := Bool) (N := 3)) (start fun _ => 3) _ _).snoc
    (.act (some true) _ none _ (.look 0 (0, 0)) rfl ⟨rfl, rfl, .inr ⟨(0, 0), rfl⟩⟩)).snoc
    (.act (some true) _ none _ (.credit 0 3 (0, 0)) rfl ⟨rfl, rfl, rfl⟩)).snoc
    (.act (some true) _ (some ⟨(0, 0), 3⟩) _ (.clear 3 3 (0, 0)) rfl ⟨rfl, rfl, rfl⟩)).snoc
    (.act (some true) _ none _ (.release 3) rfl ⟨rfl, rfl, rfl⟩)).snoc
    (.unlock (some true) () _ rfl)).snoc
    (.lock (some true) () _ _ rfl rfl)).snoc
    (.act (some true) _ none _ (.ops 3) rfl ⟨rfl, rfl, .inl rfl⟩)).snoc
    (.abort (some true) _ rfl)
  have r' := ((((((r.snoc
    (.lockOwnerDead (some false) () _ _ rfl rfl)).snoc
    (.consistent (some false) () _ rfl)).snoc
    (.act (some false) _ none _ (.look 0 (2, 1)) rfl ⟨rfl, rfl, .inr ⟨(2, 1), rfl⟩⟩)).snoc
    (.act (some false) _ none _ (.credit 0 3 (2, 1)) rfl ⟨rfl, rfl, rfl⟩)).snoc
    (.act (some false) _ (some ⟨(2, 1), 3⟩) _ (.clear 3 3 (2, 1)) rfl ⟨rfl, rfl, rfl⟩)).snoc
    (.act (some false) _ none _ (.release 3) rfl ⟨rfl, rfl, rfl⟩)).snoc
    (.unlock (some false) () _ rfl)
  exact ⟨_, _, r', rfl, rfl, rfl⟩

theorem search_law_handOver :
    ∃ (tr : List (Move (State Bool 3) (Option Bool × Option (Event 3)))) (s : State Bool 3),
      credits tr = [⟨(0, 0), 3⟩, ⟨(2, 1), 3⟩] ∧ s.pc (some true) = .gone 3 ∧
        s.table () = .unlocked ∧ ∑ p, (s.pc p).score + ∑ f, s.data f = ∑ _f : Field 3, 3 ∧
        ((credits tr).map Event.field).Nodup := by
  obtain ⟨tr, s, r, hcredits, hgone, htable⟩ := handOver_run
  obtain ⟨htotal, -, honce, -⟩ := search_law r
  exact ⟨tr, s, hcredits, hgone, htable, htotal (by rw [htable]; rfl), honce⟩

end Sop2.Board
