import Mathlib.Data.Fintype.Option
import Sop2.Support.Tally

/-!
# Support — Barriers

A barrier lets its participants go on once as many have arrived as it was initialised for: that ends
an episode.  `destroy` returns only when those of the last episode have left; `init` forgets who has
arrived.

Processes that wait at two barriers in turns are described by the number of their arrivals, the
number `E` of episodes that have ended, and who is inside (`Alternate`).

* `Alternate.arrive`, `Alternate.fill`: an arrival, and one that ends an episode.
* `Alternate.leave`: somebody leaves.
* `Alternate.init`: a barrier that nobody is inside of is initialised again.
-/

namespace Support

/-- A barrier; the episodes are numbered through when it is initialised again. -/
structure Barrier where
  count : ℕ
  arrived : ℕ
  /-- How many have still to leave. -/
  leaving : ℕ
  episode : ℕ
  deriving DecidableEq

namespace Barrier

def arrive (b : Barrier) : Barrier :=
  if b.arrived + 1 = b.count then
    { b with arrived := 0, leaving := b.leaving + b.count, episode := b.episode + 1 }
  else { b with arrived := b.arrived + 1 }

def depart (b : Barrier) : Barrier := { b with leaving := b.leaving - 1 }

/-- Who arrived in the episode `ticket` leaves when it has ended. -/
def leave (b : Barrier) (ticket : ℕ) : Option Barrier :=
  if ticket < b.episode then some b.depart else none

/-- `destroy` waits until everybody of the last episode has left. -/
def destroyed (b : Barrier) : Bool := decide (b.leaving = 0)

def init (b : Barrier) (count : ℕ) : Barrier := { b with count := count, arrived := 0, leaving := 0 }

end Barrier

/-- How often a process has arrived, and whether it is still inside. -/
structure Standing where
  arrivals : ℕ
  inside : Bool
  deriving DecidableEq

variable {P : Type*} [Fintype P] {E : ℕ} {who : P → Standing} {b : Bool → Barrier} {p : P}

/-- The barrier of an episode: `false` for the first one, then in turns. -/
def barrierOf (E : ℕ) : Bool := decide (E % 2 = 1)

theorem barrierOf_succ (E : ℕ) : barrierOf (E + 1) = !barrierOf E := by
  have h := Nat.mod_two_eq_zero_or_one E
  unfold barrierOf
  rcases h with h | h <;> simp [Nat.add_mod, h]

/-- How many have arrived for the episode after `E`. -/
def waiting (E : ℕ) (who : P → Standing) : ℕ := tally (fun w => decide (w.arrivals = E + 1)) who

/-- How many of the last episode are still inside. -/
def lingering (E : ℕ) (who : P → Standing) : ℕ :=
  tally (fun w => w.inside && decide (w.arrivals = E)) who

/-- The two barriers, and where the processes stand, after `E` episodes. -/
structure Alternate (E : ℕ) (who : P → Standing) (b : Bool → Barrier) : Prop where
  episode : ∀ g, (b g).episode = (E + if g then 0 else 1) / 2
  arrived : ∀ g, (b g).arrived = if g = barrierOf E then waiting E who else 0
  leaving : ∀ g, (b g).leaving = if g = barrierOf E then 0 else lingering E who
  le : ∀ p, (who p).arrivals ≤ E + 1
  ge : ∀ p, (who p).inside = true → E ≤ (who p).arrivals
  inside : ∀ p, (who p).arrivals = E + 1 → (who p).inside = true

theorem lingering_eq_zero : lingering E who = 0 ↔ ∀ p, (who p).inside = true → (who p).arrivals ≠ E := by
  constructor
  · intro h p hin harr
    have := tally_pos (fun w : Standing => w.inside && decide (w.arrivals = E)) (f := who) (a := p)
      (by simp [hin, harr])
    exact absurd h (Nat.pos_iff_ne_zero.mp this)
  · intro h
    refine tally_eq_zero _ fun p => ?_
    cases hin : (who p).inside with
    | false => rfl
    | true => simpa using h p hin

theorem waiting_le {member : P → Bool} (h : ∀ r, (who r).arrivals = E + 1 → member r = true) :
    waiting E who ≤ tally id member :=
  Finset.card_le_card fun r hr => Finset.mem_filter.mpr
    ⟨Finset.mem_univ _, h r (of_decide_eq_true (Finset.mem_filter.mp hr).2)⟩

theorem le_waiting {member : P → Bool} (h : ∀ r, member r = true → (who r).arrivals = E + 1) :
    tally id member ≤ waiting E who :=
  Finset.card_le_card fun r hr => Finset.mem_filter.mpr
    ⟨Finset.mem_univ _, decide_eq_true (h r (Finset.mem_filter.mp hr).2)⟩

/-- Who arrives when all but one have arrived was the one. -/
theorem all_waiting {member : P → Bool} (hsub : ∀ r, (who r).arrivals = E + 1 → member r = true)
    (hp : member p = true) (hA : (who p).arrivals ≠ E + 1)
    (hcard : waiting E who + 1 = tally id member) :
    ∀ r, member r = true → r ≠ p → (who r).arrivals = E + 1 := by
  classical
  intro r hr hrp
  let W := Finset.univ.filter fun r => decide ((who r).arrivals = E + 1) = true
  have hnotin : p ∉ W := fun h => hA (of_decide_eq_true (Finset.mem_filter.mp h).2)
  have hsubset : insert p W ⊆ Finset.univ.filter fun r => id (member r) = true := by
    intro x hx
    refine Finset.mem_filter.mpr ⟨Finset.mem_univ _, ?_⟩
    rcases Finset.mem_insert.mp hx with rfl | hx
    · exact hp
    · exact hsub x (of_decide_eq_true (Finset.mem_filter.mp hx).2)
  have heq := Finset.eq_of_subset_of_card_le hsubset (by
    rw [Finset.card_insert_of_notMem hnotin]
    exact hcard.ge)
  have hmem : r ∈ insert p W := heq ▸ Finset.mem_filter.mpr ⟨Finset.mem_univ _, hr⟩
  exact of_decide_eq_true (Finset.mem_filter.mp (Finset.mem_of_mem_insert_of_ne hmem hrp)).2

section
variable [DecidableEq P]

omit [Fintype P] in
theorem update_standing (who : P → Standing) (p : P) (w : Standing) (r : P) :
    Function.update who p w r = w ∨ Function.update who p w r = who r := by
  by_cases hr : r = p
  · subst hr
    exact .inl (Function.update_self ..)
  · exact .inr (Function.update_of_ne hr ..)

theorem waiting_arrive (h : (who p).arrivals = E) :
    waiting E (Function.update who p ⟨E + 1, true⟩) = waiting E who + 1 := by
  have hupdate := tally_update (fun w : Standing => decide (w.arrivals = E + 1)) who p ⟨E + 1, true⟩
  rw [decide_eq_false (by omega), decide_eq_true rfl] at hupdate
  simpa [waiting] using hupdate

theorem lingering_arrive (hin : (who p).inside = false) :
    lingering E (Function.update who p ⟨E + 1, true⟩) = lingering E who := by
  have hupdate := tally_update (fun w : Standing => w.inside && decide (w.arrivals = E)) who p
    ⟨E + 1, true⟩
  rw [hin] at hupdate
  simpa [lingering] using hupdate

theorem waiting_leave (h : (who p).arrivals = E) :
    waiting E (Function.update who p ⟨E, false⟩) = waiting E who := by
  have hupdate := tally_update (fun w : Standing => decide (w.arrivals = E + 1)) who p ⟨E, false⟩
  rw [decide_eq_false (by omega), decide_eq_false (by simp)] at hupdate
  simpa [waiting] using hupdate

theorem lingering_leave (hin : (who p).inside = true) (h : (who p).arrivals = E) :
    lingering E (Function.update who p ⟨E, false⟩) + 1 = lingering E who := by
  have hupdate := tally_update (fun w : Standing => w.inside && decide (w.arrivals = E)) who p
    ⟨E, false⟩
  rw [hin, decide_eq_true h] at hupdate
  simpa [lingering] using hupdate

end

namespace Alternate

variable (h : Alternate E who b)
include h

/-- A process that is inside has been released, exactly when its episode has ended. -/
theorem released_iff (hpos : 0 < (who p).arrivals) :
    ((who p).arrivals - 1) / 2 < (b (barrierOf ((who p).arrivals - 1))).episode ↔
      (who p).arrivals ≤ E := by
  rw [h.episode, barrierOf]
  split <;> simp_all <;> omega

omit [Fintype P] h in
/-- A barrier among two, after one of them has changed. -/
theorem update_barrier {α : Type*} (f : Barrier → α) (g₀ g : Bool) (x : Barrier) :
    f (Function.update b g₀ x g) = if g = g₀ then f x else f (b g) := by
  by_cases hg : g = g₀
  · subst hg
    rw [Function.update_self, if_pos rfl]
  · rw [Function.update_of_ne hg, if_neg hg]

variable [DecidableEq P]

/-- **An arrival** that is not the last. -/
theorem arrive (hA : (who p).arrivals = E) (hin : (who p).inside = false)
    (hne : (b (barrierOf E)).arrived + 1 ≠ (b (barrierOf E)).count) :
    Alternate E (Function.update who p ⟨E + 1, true⟩)
      (Function.update b (barrierOf E) (b (barrierOf E)).arrive) := by
  have harrive : (b (barrierOf E)).arrive =
      { b (barrierOf E) with arrived := (b (barrierOf E)).arrived + 1 } := if_neg hne
  rw [harrive]
  refine ⟨fun g => ?_, fun g => ?_, fun g => ?_, fun r => ?_, fun r => ?_, fun r => ?_⟩
  · rw [update_barrier Barrier.episode, ite_eq_right_iff.mpr fun hg => by rw [hg]]
    exact h.episode g
  · rw [update_barrier Barrier.arrived, waiting_arrive hA, h.arrived, h.arrived, if_pos rfl]
    split <;> rfl
  · rw [update_barrier Barrier.leaving, lingering_arrive hin,
      ite_eq_right_iff.mpr fun hg => by rw [hg]]
    exact h.leaving g
  · rcases update_standing who p ⟨E + 1, true⟩ r with hr | hr <;> rw [hr]
    exact h.le r
  · rcases update_standing who p ⟨E + 1, true⟩ r with hr | hr <;> rw [hr]
    · exact fun _ => Nat.le_succ E
    · exact h.ge r
  · rcases update_standing who p ⟨E + 1, true⟩ r with hr | hr <;> rw [hr]
    · exact fun _ => rfl
    · exact h.inside r

/-- **The last arrival** ends the episode. -/
theorem fill (hA : (who p).arrivals = E) (hin : (who p).inside = false)
    (hfull : (b (barrierOf E)).arrived + 1 = (b (barrierOf E)).count)
    (hall : ∀ r ≠ p, (who r).inside = true → (who r).arrivals = E + 1) :
    Alternate (E + 1) (Function.update who p ⟨E + 1, true⟩)
      (Function.update b (barrierOf E) (b (barrierOf E)).arrive) := by
  have harrive : (b (barrierOf E)).arrive = { b (barrierOf E) with
      arrived := 0, leaving := (b (barrierOf E)).leaving + (b (barrierOf E)).count,
      episode := (b (barrierOf E)).episode + 1 } := if_pos hfull
  have hlinger : lingering E who = 0 := lingering_eq_zero.mpr fun r hr => by
    by_cases hrp : r = p
    · rw [hrp, hin] at hr
      cases hr
    · rw [hall r hrp hr]
      exact Nat.succ_ne_self E
  have hsame : lingering (E + 1) (Function.update who p ⟨E + 1, true⟩) =
      waiting E (Function.update who p ⟨E + 1, true⟩) := by
    rw [lingering, waiting, tally, tally]
    congr 1
    refine Finset.filter_congr fun r _ => ?_
    rw [Bool.and_eq_true, and_iff_right_iff_imp]
    intro hr
    by_cases hrp : r = p
    · rw [hrp, Function.update_self]
    · rw [Function.update_of_ne hrp] at hr ⊢
      exact h.inside r (of_decide_eq_true hr)
  have hnone : ∀ r, (Function.update who p ⟨E + 1, true⟩ r).arrivals ≤ E + 1 := fun r => by
    by_cases hrp : r = p
    · rw [hrp, Function.update_self]
    · rw [Function.update_of_ne hrp]
      exact h.le r
  have hzero : waiting (E + 1) (Function.update who p ⟨E + 1, true⟩) = 0 :=
    tally_eq_zero _ fun r => decide_eq_false (by have := hnone r; omega)
  rw [harrive]
  refine ⟨fun g => ?_, fun g => ?_, fun g => ?_, fun r => (hnone r).trans (Nat.le_succ _),
    fun r hr => ?_, fun r hr => ?_⟩
  · rw [update_barrier Barrier.episode, h.episode, h.episode, barrierOf]
    cases g <;> simp <;> split <;> simp_all <;> omega
  · rw [update_barrier Barrier.arrived, hzero, ite_self, h.arrived]
    split
    · rfl
    · rfl
  · rw [update_barrier Barrier.leaving, barrierOf_succ, hsame, waiting_arrive hA, h.leaving,
      h.leaving, if_pos rfl, hlinger, ← hfull, h.arrived, if_pos rfl, Nat.zero_add]
    cases g <;> cases barrierOf E <;> rfl
  · by_cases hrp : r = p
    · rw [hrp, Function.update_self]
    · rw [Function.update_of_ne hrp] at hr ⊢
      exact (hall r hrp hr).ge
  · have := hnone r
    omega

/-- **Somebody leaves.** -/
theorem leave (hA : (who p).arrivals = E) (hin : (who p).inside = true) :
    Alternate E (Function.update who p ⟨E, false⟩)
      (Function.update b (!barrierOf E) (b (!barrierOf E)).depart) := by
  have hleave := lingering_leave hin hA
  refine ⟨fun g => ?_, fun g => ?_, fun g => ?_, fun r => ?_, fun r => ?_, fun r => ?_⟩
  · rw [update_barrier Barrier.episode, ite_eq_right_iff.mpr fun hg => by rw [hg]; rfl]
    exact h.episode g
  · rw [update_barrier Barrier.arrived, waiting_leave hA,
      ite_eq_right_iff.mpr fun hg => by rw [hg]; rfl]
    exact h.arrived g
  · rw [update_barrier Barrier.leaving, Barrier.depart, h.leaving, h.leaving, ← hleave]
    cases g <;> cases barrierOf E <;> simp
  · rcases update_standing who p ⟨E, false⟩ r with hr | hr <;> rw [hr]
    · exact Nat.le_succ E
    · exact h.le r
  · rcases update_standing who p ⟨E, false⟩ r with hr | hr <;> rw [hr]
    · exact nofun
    · exact h.ge r
  · rcases update_standing who p ⟨E, false⟩ r with hr | hr <;> rw [hr]
    · exact fun heq => absurd heq.symm (Nat.succ_ne_self E)
    · exact h.inside r

omit [DecidableEq P] in
/-- A barrier that is empty is initialised again. -/
theorem init {g₀ : Bool} (harrived : (b g₀).arrived = 0) (hleaving : (b g₀).leaving = 0) (c : ℕ) :
    Alternate E who (Function.update b g₀ ((b g₀).init c)) := by
  refine ⟨fun g => ?_, fun g => ?_, fun g => ?_, h.le, h.ge, h.inside⟩
  · rw [update_barrier Barrier.episode, ite_eq_right_iff.mpr fun hg => by rw [hg]; rfl]
    exact h.episode g
  · rw [update_barrier Barrier.arrived, ite_eq_right_iff.mpr fun hg => by rw [hg, harrived]; rfl]
    exact h.arrived g
  · rw [update_barrier Barrier.leaving, ite_eq_right_iff.mpr fun hg => by rw [hg, hleaving]; rfl]
    exact h.leaving g

end Alternate

end Support
