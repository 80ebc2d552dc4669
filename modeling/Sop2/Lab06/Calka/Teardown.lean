import Mathlib.Algebra.Order.BigOperators.Group.Finset
import Sop2.Lab06.Calka.Results
import Sop2.Support.Tally

/-!
# Lab06 — Calka — the last one out

When the process that reads 0 in its final section is the last one that uses the segment.

`procCount` is the number of processes that have counted themselves, and of the deaths that are
still to be noticed: each of these is a mutex left with a dead owner, or with a process that was
told so (`Counted`).  Three steps spoil that, or the conclusions drawn from it, and the others keep
it (`Orderly`): a process dies in its first section, before it has counted itself; a process finds
the counter at 1 and takes it to 0 while another has attached itself and not yet taken its first
section; and a process attaches itself to the segment while another is about to unlink it.
-/

namespace Sop2.Calka
open Support Support.Robust

variable {P : Type*} [DecidableEq P]

/-! ### The counter -/

/-- How much of `procCount` a process accounts for around the section. -/
def Site.share : Site → Int
  | .join => 0
  | .print | .finish => 1
  -- the process itself, and the dead one whose `mxResults` it has taken
  | .nested _ _ => 2

/-- The same after the section. -/
def Site.shareAfter : Site → Int
  | .join | .print | .nested _ _ => 1
  | .finish => 0

/-- How much of `procCount` a process accounts for at a place. -/
def Place.share : Place → Int
  | .lock k | .locked k | .dying k | .body k => k.share
  -- the owner that has died is still counted
  | .ownerDead k | .repair k => k.share + 1
  | .unlock k _ => k.shareAfter
  | .created | .loop _ | .resLock _ _ | .resLocked _ _ | .resDying | .addTotal _ _ | .addHits _ _
  | .resUnlock _ => 1
  | .resOwnerDead _ _ => 2
  | _ => 0

/-- A mutex with a dead owner: a death that is still to be noticed. -/
def owed : Mutex P → Int
  | .ownerDead => 1
  | _ => 0

def debt (table : Mx → Mutex P) : Int := owed (table .procCount) + owed (table .results)

/-- **The counter** accounts for the places of all processes, and for the deaths that are still to
be noticed. -/
def Counted [Fintype P] (s : State P) : Prop :=
  s.data.procCount = ∑ p, (s.pc p).place.share + debt s.table

/-- What an operation does to the counter. -/
def Shares (c : Proc) : Op Mx Shared Proc Event → Prop
  | .lock _ ok ownerDead =>
      ok.place.share = c.place.share ∧ ownerDead.place.share = c.place.share + 1
  | .unlock _ next | .consistent _ next => next.place.share = c.place.share
  | .act rel => ∀ d l d' c', rel d l d' c' →
      d'.procCount + c.place.share = d.procCount + c'.place.share
  | .abort next => next = ⟨c.n, .dead⟩ ∧ ((∃ k, c.place = .dying k) ∨ c.place = .resDying)
  | .halt => True

theorem Site.section_share (k : Site) (procCount : Int) :
    (k.section procCount).1 + k.share = procCount + k.shareAfter := by
  cases k with
  | join | print => simp [Site.section, share, shareAfter]
  | nested i hits | finish => simp only [Site.section, share, shareAfter]; omega

theorem Site.next_share (k : Site) (seen : Int) : (k.next seen).share = k.shareAfter := by
  cases k with
  | join | print | nested i hits => rfl
  | finish => simp only [Site.next]; split <;> rfl

theorem op_shares (c : Proc) : Shares c (op c) := by
  obtain ⟨n, q⟩ := c
  cases q with
  | lock k | resLock i hits => exact ⟨rfl, rfl⟩
  | unlock k seen => exact k.next_share seen
  | ownerDead k | resOwnerDead i hits | resUnlock i => rfl
  | dying k => exact ⟨rfl, .inl ⟨k, rfl⟩⟩
  | resDying => exact ⟨rfl, .inr rfl⟩
  | left | tornDown | exited | dead => trivial
  | outside => rintro d l d' c' ⟨-, ⟨-, rfl⟩ | rfl, rfl⟩ <;> rfl
  | create | openRw => rintro d l d' c' ⟨-, rfl, rfl⟩; dsimp only; split <;> rfl
  | map => rintro d l d' c' ⟨-, rfl, rfl | rfl⟩ <;> rfl
  | locked k => rintro d l d' c' ⟨-, rfl, rfl | rfl⟩ <;> rfl
  | resLocked i hits => rintro d l d' c' ⟨-, rfl, rfl | rfl⟩ <;> rfl
  | repair k =>
      rintro d l d' c' ⟨-, rfl, rfl⟩
      simp only [Place.share]
      omega
  | body k => rintro d l d' c' ⟨-, rfl, rfl⟩; exact k.section_share d.procCount
  | loop i => rintro d l d' c' ⟨rfl, ⟨hits, -, -, -, -, rfl⟩ | ⟨-, rfl⟩⟩ <;> rfl
  | _ => rintro d l d' c' ⟨-, rfl, rfl⟩; rfl

omit [DecidableEq P] in
theorem debt_update (table : Mx → Mutex P) (k : Mx) (m : Mutex P) :
    debt (Function.update table k m) + owed (table k) = debt table + owed m := by
  cases k with
  | procCount | results => simp only [debt, Function.update_apply]; simp; omega

variable {s t : State P} {l : P × Option Event}

/-- What is owed after the death of a process that holds what its place says. -/
theorem owed_die (hs : Disciplined (fun c : Proc => c.place.mode) (fun _ => True) s) (p : P)
    (k : Mx) :
    owed ((s.table k).die p) =
      owed (s.table k) + if (s.pc p).place.mode k = none then 0 else 1 := by
  have hmode : (s.table k).mode p = (s.pc p).place.mode k := hs.mode p k
  by_cases h : (s.table k).owner = some p
  · have hne := Mutex.owner_eq_some.mp h
    rw [Mutex.die_of_owner h, if_neg (hmode ▸ hne)]
    cases hk : s.table k with
    | locked q | inconsistent q => rfl
    | unlocked | ownerDead | notRecoverable => rw [hk] at h; cases h
  · rw [Mutex.die_of_ne h, if_pos, add_zero]
    rw [← hmode]
    exact not_not.mp fun hne => h (Mutex.owner_eq_some.mpr hne)

/-- A process that dies leaves behind what it accounts for, but in its first section. -/
theorem debt_die (hs : Disciplined (fun c : Proc => c.place.mode) (fun _ => True) s) {p : P}
    (hp : (∃ k, (s.pc p).place = .dying k) ∨ (s.pc p).place = .resDying)
    (hjoin : (s.pc p).place ≠ .dying .join) :
    debt (fun k => (s.table k).die p) = debt s.table + (s.pc p).place.share := by
  rw [debt, debt, owed_die hs, owed_die hs]
  rcases hp with ⟨k, hk⟩ | hk
  · rw [hk] at hjoin ⊢
    cases k with
    | join => exact absurd rfl hjoin
    | print | nested i hits | finish =>
        simp [Place.mode, Site.mode, idle, holdsResults, Place.share, Site.share]
        omega
  · rw [hk]
    simp [Place.mode, idle, holdsResults, Place.share]
    omega

section
variable [Fintype P]

/-- One process moves, and one mutex changes hands. -/
theorem Counted.update (hc : Counted s) {p : P} {k : Mx} {m : Mutex P} {c' : Proc}
    (h : c'.place.share + owed m = (s.pc p).place.share + owed (s.table k)) :
    Counted ⟨s.data, Function.update s.table k m, Function.update s.pc p c'⟩ := by
  have hsum := sum_update_add (fun c : Proc => c.place.share) s.pc p c'
  have hdebt := debt_update s.table k m
  unfold Counted at hc ⊢
  dsimp only
  omega

/-- One step, on the counter. -/
theorem Counted.step (hs : Disciplined (fun c : Proc => c.place.mode) (fun _ => True) s)
    (hc : Counted s) (hjoin : (s.pc l.1).place ≠ .dying .join) (h : Step s l t) : Counted t := by
  have hkeeps := op_keeps (s.pc l.1)
  have hshares := op_shares (s.pc l.1)
  cases h with
  | lock p k ok od h hk =>
      rw [h] at hshares
      refine hc.update ?_
      rw [hk, hshares.1]
      rfl
  | lockOwnerDead p k ok od h hk =>
      rw [h] at hshares
      refine hc.update ?_
      rw [hk, hshares.2, add_assoc]
      rfl
  | lockNotRecoverable p k ok od h hk => exact absurd hk (hs.recoverable k)
  | unlock p k next h =>
      rw [h] at hshares hkeeps
      have hk := Mutex.mode_eq_consistent.mp ((hs.mode p k).trans hkeeps.1)
      refine hc.update ?_
      rw [hk, show next.place.share = _ from hshares]
      rfl
  | consistent p k next h =>
      rw [h] at hshares hkeeps
      have hk := Mutex.mode_eq_inconsistent.mp ((hs.mode p k).trans hkeeps.1)
      refine hc.update ?_
      rw [hk, show next.place.share = _ from hshares]
      rfl
  | act p rel l d next h hr =>
      rw [h] at hshares
      have hsum := sum_update_add (fun c : Proc => c.place.share) s.pc p next
      have hact := hshares _ _ _ _ hr
      unfold Counted at hc ⊢
      dsimp only at hact ⊢
      omega
  | abort p next h =>
      rw [h] at hshares
      obtain ⟨rfl, hp⟩ := hshares
      have hsum := sum_update_add (fun c : Proc => c.place.share) s.pc p ⟨(s.pc p).n, .dead⟩
      have hdebt := debt_die hs hp hjoin
      have hdead : Place.dead.share = 0 := rfl
      unfold Counted at hc ⊢
      dsimp only at hsum hdebt ⊢
      omega

theorem Place.share_nonneg (q : Place) : 0 ≤ q.share := by
  have hk : ∀ k : Site, 0 ≤ k.share ∧ 0 ≤ k.shareAfter := fun k => by
    cases k <;> simp [Site.share, Site.shareAfter]
  cases q with
  | lock k | locked k | dying k | body k => exact (hk k).1
  | ownerDead k | repair k => exact Int.add_nonneg (hk k).1 (by decide)
  | unlock k seen => exact (hk k).2
  | _ => simp [share]

omit [DecidableEq P] [Fintype P] in
theorem debt_nonneg (table : Mx → Mutex P) : 0 ≤ debt table := by
  have h : ∀ m : Mutex P, 0 ≤ owed m := fun m => by cases m <;> simp [owed]
  exact Int.add_nonneg (h _) (h _)

/-- The shares of two processes are counted. -/
theorem Counted.two (hc : Counted s) {p q : P} (hpq : p ≠ q) :
    (s.pc p).place.share + (s.pc q).place.share ≤ s.data.procCount := by
  have hle : ∑ r ∈ {p, q}, (s.pc r).place.share ≤ ∑ r, (s.pc r).place.share :=
    Finset.sum_le_sum_of_subset_of_nonneg (Finset.subset_univ _) fun r _ _ =>
      (s.pc r).place.share_nonneg
  rw [Finset.sum_pair hpq] at hle
  have hdebt := debt_nonneg s.table
  unfold Counted at hc
  omega

end

/-! ### The last one out -/

/-- The process has read `remaining_procs == 0`. -/
def Place.tearing : Place → Bool
  | .unlock k seen => decide (k = .finish ∧ seen = 0)
  | .summary | .destroy | .unlink | .tornDown => true
  | _ => false

/-- The process has opened the segment, and has not yet locked `mxprocCount`. -/
def Place.attaching : Place → Bool
  | .map | .post => true
  | .lock k => decide (k = .join)
  | _ => false

/-- The process has not opened the segment, or has nothing more to do with it. -/
def Place.apart : Place → Bool
  | .outside | .create | .openRw | .refused | .left | .exited | .dead => true
  | _ => false

/-- What is printed of the results. -/
def prints (tr : List (Move (State P) (P × Option Event))) : List (Int × Int) :=
  tr.filterMap fun m =>
    match m.label with
    | (_, some (.printed total hits)) => some (total, hits)
    | _ => none

/-- The steps that keep the counter right, and the teardown apart from the other processes. -/
structure Orderly (s : State P) (l : P × Option Event) (t : State P) : Prop where
  /-- Nobody dies in the section in which it is to count itself. -/
  join : (t.pc l.1).place ≠ .dying .join
  /-- When the counter goes down to 0, nobody has opened the segment without having locked
  `mxprocCount` yet. -/
  finish : (s.pc l.1).place = .body .finish → s.data.procCount = 1 →
    ∀ q, (s.pc q).place.attaching = false
  /-- When a process opens the segment, nobody is to unlink it. -/
  openRw : (s.pc l.1).place = .openRw → s.data.linked = true →
    ∀ q, (s.pc q).place.tearing = false

instance [Fintype P] {s t : State P} {l : P × Option Event} : Decidable (Orderly s l t) :=
  decidable_of_iff
    ((t.pc l.1).place ≠ .dying .join ∧
      ((s.pc l.1).place = .body .finish → s.data.procCount = 1 →
        ∀ q, (s.pc q).place.attaching = false) ∧
      ((s.pc l.1).place = .openRw → s.data.linked = true → ∀ q, (s.pc q).place.tearing = false))
    ⟨fun h => ⟨h.1, h.2.1, h.2.2⟩, fun h => ⟨h.join, h.finish, h.openRw⟩⟩

/-- A process comes to tear the segment down only by taking the counter from 1 to 0. -/
theorem op_tearing {c c' : Proc} {d d' : Shared} {l : Option Event} (h : (op c).Goes d l d' c')
    (ht : c'.place.tearing = true) :
    c.place.tearing = true ∨ c.place = .body .finish ∧ d.procCount = 1 := by
  obtain ⟨n, q⟩ := c
  cases q with
  | unlock k seen =>
      obtain ⟨-, -, rfl⟩ := h
      left
      cases k with
      | join | print | nested i hits => cases ht
      | finish =>
          simp only [Site.next] at ht
          split at ht
          · simpa [Place.tearing]
          · cases ht
  | body k =>
      obtain ⟨-, -, rfl⟩ := h
      right
      cases k with
      | join | print | nested i hits => cases ht
      | finish =>
          have hseen : d.procCount - 1 = 0 := by simpa [Place.tearing, Site.section] using ht
          exact ⟨rfl, by omega⟩
  | summary | destroy | unlink => exact .inl rfl
  | left | tornDown | exited | dead => exact h.elim
  | create | openRw =>
      obtain ⟨-, -, rfl⟩ := h
      dsimp only at ht
      split at ht <;> cases ht
  | map | locked k | resLocked i hits =>
      obtain ⟨-, -, rfl | rfl⟩ := h <;> cases ht
  | lock k | resLock i hits => obtain ⟨-, -, rfl | rfl⟩ := h <;> cases ht
  | loop i => obtain ⟨-, ⟨hits, -, -, -, -, rfl⟩ | ⟨-, rfl⟩⟩ := h <;> cases ht
  | _ => obtain ⟨-, -, rfl⟩ := h; cases ht

/-- A process that is apart stays so, unless it opens the segment. -/
theorem op_apart {c c' : Proc} {d d' : Shared} {l : Option Event} (h : (op c).Goes d l d' c')
    (hc : c.place.apart = true) :
    c'.place.apart = true ∨ c.place = .openRw ∧ d.linked = true := by
  obtain ⟨n, q⟩ := c
  cases q with
  | openRw =>
      obtain ⟨-, -, rfl⟩ := h
      dsimp only
      split
      · exact .inr ⟨rfl, ‹_›⟩
      · exact .inl rfl
  | create =>
      obtain ⟨-, -, rfl⟩ := h
      left
      dsimp only
      split <;> rfl
  | outside | refused => obtain ⟨-, -, rfl⟩ := h; exact .inl rfl
  | left | exited | dead => exact h.elim
  | _ => cases hc

/-- A process that accounts for nothing, holds nothing and neither comes nor tears down is
apart. -/
theorem Place.apart_of {q : Place} (hshare : q.share = 0) (hmode : q.mode .procCount = none)
    (hatt : q.attaching = false) (htear : q.tearing = false) : q.apart = true := by
  cases q with
  | lock k =>
      cases k with
      | join => cases hatt
      | print | nested i hits | finish => cases hshare
  | locked k | dying k | repair k | body k | unlock k seen | ownerDead k => cases hmode
  | created | loop i | resLock i hits | resLocked i hits | resDying | resOwnerDead i hits
  | addTotal i hits | addHits i hits | resUnlock i => cases hshare
  | map | post => cases hatt
  | summary | destroy | unlink | tornDown => cases htear
  | outside | create | openRw | refused | left | exited | dead => rfl

section
variable [Fintype P]

/-- **The last one out**: who tears the segment down is the last one that uses it. -/
structure LastOut (s : State P) : Prop where
  counted : Counted s
  join : ∀ p, (s.pc p).place ≠ .dying .join
  apart : ∀ p, (s.pc p).place.tearing = true → ∀ q ≠ p, (s.pc q).place.apart = true
  unlinked : ∀ p, (s.pc p).place = .tornDown → s.data.linked = false

variable {c : P} {N : P → Int}

/-- Who takes the counter from 1 to 0 leaves nobody behind. -/
theorem LastOut.finish (hs : Disciplined (fun c : Proc => c.place.mode) (fun _ => True) s)
    (h : LastOut s) {p : P} (hp : (s.pc p).place = .body .finish) (hone : s.data.procCount = 1)
    (hatt : ∀ q, (s.pc q).place.attaching = false) {q : P} (hq : q ≠ p) :
    (s.pc q).place.apart = true := by
  refine Place.apart_of ?_ ?_ (hatt q) ?_
  · have htwo := h.counted.two (Ne.symm hq)
    have hnonneg := (s.pc q).place.share_nonneg
    rw [hp, hone, show (Place.body .finish).share = 1 from rfl] at htwo
    omega
  · by_contra hmode
    exact hq (alone hs hmode (by rw [hp]; exact Option.some_ne_none _))
  · by_contra htear
    have hapart := h.apart q (Bool.not_eq_false _ ▸ htear) p (Ne.symm hq)
    rw [hp] at hapart
    cases hapart

/-- The name is not linked again. -/
theorem op_linked {c c' : Proc} {d d' : Shared} {l : Option Event} (h : (op c).Goes d l d' c') :
    (d.linked = false → d'.linked = false) ∧
      (c'.place = .tornDown → d'.linked = false) := by
  obtain ⟨n, q⟩ := c
  cases q with
  | unlock k seen =>
      obtain ⟨-, rfl, rfl⟩ := h
      refine ⟨id, fun e => ?_⟩
      cases k with
      | join | print | nested i hits => cases e
      | finish =>
          simp only [Site.next] at e
          split at e <;> cases e
  | unlink => obtain ⟨-, rfl, rfl⟩ := h; exact ⟨fun _ => rfl, fun _ => rfl⟩
  | outside =>
      obtain ⟨-, ⟨-, rfl⟩ | rfl, rfl⟩ := h <;> exact ⟨id, fun e => by cases e⟩
  | create | openRw =>
      obtain ⟨-, rfl, rfl⟩ := h
      refine ⟨id, fun e => ?_⟩
      dsimp only at e
      split at e <;> cases e
  | map | locked k | resLocked i hits | lock k | resLock i hits =>
      obtain ⟨-, rfl, rfl | rfl⟩ := h <;> exact ⟨id, fun e => by cases e⟩
  | loop i =>
      obtain ⟨rfl, ⟨hits, -, -, -, -, rfl⟩ | ⟨-, rfl⟩⟩ := h <;> exact ⟨id, fun e => by cases e⟩
  | left | tornDown | exited | dead => exact h.elim
  | _ => obtain ⟨-, rfl, rfl⟩ := h; exact ⟨id, fun e => by cases e⟩

theorem LastOut.step (hs : Disciplined (fun c : Proc => c.place.mode) (fun _ => True) s)
    (h : LastOut s) (hstep : Step s l t) (ho : Orderly s l t) : LastOut t := by
  obtain ⟨c', hpc, hgoes⟩ := hstep.goes
  have hmover : t.pc l.1 = c' := by rw [hpc, Function.update_self]
  refine ⟨h.counted.step hs (h.join l.1) hstep, fun p => ?_, fun r hr q hq => ?_, fun p hp => ?_⟩
  · by_cases hp : p = l.1
    · exact hp ▸ ho.join
    · exact hstep.stays hp ▸ h.join p
  · -- `r` tears down already, or begins to
    have hbefore : (s.pc q).place.apart = true := by
      by_cases hrl : r = l.1
      · subst hrl
        rcases op_tearing hgoes (hmover ▸ hr) with htear | ⟨hbody, hone⟩
        · exact h.apart _ htear q hq
        · exact h.finish hs hbody hone (ho.finish hbody hone) hq
      · exact h.apart r (hstep.stays hrl ▸ hr) q hq
    by_cases hql : q = l.1
    · subst hql
      rcases op_apart hgoes hbefore with hapart | ⟨hopen, hlinked⟩
      · exact hmover ▸ hapart
      · have hquiet := ho.openRw hopen hlinked r
        rw [hstep.stays (Ne.symm hq)] at hr
        rw [hr] at hquiet
        cases hquiet
    · exact hstep.stays hql ▸ hbefore
  · by_cases hpl : p = l.1
    · subst hpl
      exact (op_linked hgoes).2 (hmover ▸ hp)
    · exact (op_linked hgoes).1 (h.unlinked p (hstep.stays hpl ▸ hp))

end

/-! ### The approximation -/

/-- The results have been printed by this process. -/
def Place.past : Place → Bool
  | .destroy | .unlink | .tornDown => true
  | _ => false

/-- The process has finished. -/
def Place.finished (q : Place) : Bool := decide (q = .left) || q.tearing

theorem Place.tearing_of_past {q : Place} (h : q.past = true) : q.tearing = true := by
  cases q with
  | destroy | unlink | tornDown => rfl
  | _ => cases h

theorem op_printed {c c' : Proc} {d d' : Shared} {total hits : Int}
    (h : (op c).Goes d (some (.printed total hits)) d' c') :
    c.place = .summary ∧ c'.place = .destroy ∧ d' = d ∧ total = d.total ∧ hits = d.hits := by
  obtain ⟨n, q⟩ := c
  cases q with
  | summary =>
      obtain ⟨he, rfl, rfl⟩ := h
      cases he
      exact ⟨rfl, rfl, rfl, rfl, rfl⟩
  | loop i => obtain ⟨-, ⟨_, -, -, -, he, -⟩ | ⟨he, -⟩⟩ := h <;> cases he
  | left | tornDown | exited | dead => exact h.elim
  | _ => cases h.1

theorem op_past {c c' : Proc} {d d' : Shared} {l : Option Event} (h : (op c).Goes d l d' c')
    (hc : c.place.past = true) : c'.place.past = true := by
  obtain ⟨n, q⟩ := c
  cases q with
  | destroy | unlink => obtain ⟨-, -, rfl⟩ := h; rfl
  | tornDown => exact h.elim
  | _ => cases hc

/-- Who is apart, or has printed the results, leaves them alone. -/
theorem Turn.keeps {c c' : Proc} {d d' : Shared} {l : Option Event} (h : Turn d c l d' c')
    (hc : c.place.apart = true ∨ c.place.past = true) :
    d'.total = d.total ∧ d'.hits = d.hits := by
  cases h with
  | computed n i hits | addTotal n i hits | addHits n i hits => rcases hc with hc | hc <;> cases hc
  | other n q q' l d' hl htotal hhits => exact ⟨htotal, hhits⟩

section
variable [Fintype P] {c : P} {N : P → Int} {tr : List (Move (State P) (P × Option Event))}

/-- Nothing has been printed, or what the shared results are now. -/
def Printed (tr : List (Move (State P) (P × Option Event))) (s : State P) : Prop :=
  prints tr = [] ∨
    (∃ p, (s.pc p).place.past = true) ∧ prints tr = [(s.data.total, s.data.hits)]

theorem Printed.step (h : LastOut s) (hp : Printed tr s) (hstep : Step s l t) :
    Printed (tr ++ [⟨s, l, t⟩]) t := by
  obtain ⟨p, e⟩ := l
  obtain ⟨c', hpc, hgoes⟩ := hstep.goes
  dsimp only at hgoes
  have hmover : t.pc p = c' := by rw [hpc, Function.update_self]
  by_cases he : ∃ total hits, e = some (.printed total hits)
  · obtain ⟨total, hits, rfl⟩ := he
    obtain ⟨hsummary, hdestroy, hdata, rfl, rfl⟩ := op_printed hgoes
    -- this is the first time
    have hnil : prints tr = [] := hp.resolve_right fun ⟨⟨q, hq⟩, _⟩ => by
      have hne : p ≠ q := fun e => by
        rw [← e, hsummary] at hq
        cases hq
      have hapart := h.apart q (Place.tearing_of_past hq) p hne
      rw [hsummary] at hapart
      cases hapart
    refine .inr ⟨⟨p, congrArg Place.past (hmover ▸ hdestroy)⟩, ?_⟩
    rw [prints, List.filterMap_append, ← prints, hnil, hdata]
    rfl
  · have hsame : prints (tr ++ [⟨s, (p, e), t⟩]) = prints tr := by
      rw [prints, List.filterMap_append, ← prints]
      cases e with
      | none => exact List.append_nil _
      | some e =>
          cases e with
          | printed total hits => exact absurd ⟨total, hits, rfl⟩ he
          | computed i hits | addTotal i | addHits i hits => exact List.append_nil _
    rw [Printed, hsame]
    refine hp.imp_right fun ⟨⟨q, hq⟩, hprints⟩ => ?_
    by_cases hqp : q = p
    · subst hqp
      obtain ⟨htotal, hhits⟩ := (op_turn hgoes).keeps (.inr hq)
      exact ⟨⟨q, hmover ▸ op_past hgoes hq⟩, by rw [hprints, htotal, hhits]⟩
    · have hapart := h.apart q (Place.tearing_of_past hq) p (Ne.symm hqp)
      obtain ⟨htotal, hhits⟩ := (op_turn hgoes).keeps (.inl hapart)
      exact ⟨⟨q, by rw [hstep.stays hqp]; exact hq⟩, by rw [hprints, htotal, hhits]⟩

end

end Sop2.Calka
