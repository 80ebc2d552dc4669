import Mathlib.Algebra.BigOperators.Group.Finset.Piecewise
import Mathlib.Data.Fintype.BigOperators
import Mathlib.Data.Fintype.Option
import Mathlib.Tactic.Abel

/-!
# Support — Tallies

How many entries of a table satisfy a test, and what changing one entry does to that.
-/

namespace Support

variable {α β γ : Type*} [Fintype α] (P : β → Bool)

/-- The number of entries of `f` that satisfy `P`. -/
def tally (f : α → β) : ℕ := (Finset.univ.filter fun a => P (f a)).card

theorem tally_eq_sum (f : α → β) : tally P f = ∑ a, (P (f a)).toNat := by
  rw [tally, Finset.card_filter]
  refine Finset.sum_congr rfl fun a _ => ?_
  cases P (f a) <;> rfl

/-- Two sums that differ in one entry. -/
theorem sum_congr_but_one {M : Type*} [AddCommMonoid M] {α : Type*} [DecidableEq α] {C : Finset α}
    {f g : α → M} {a : α} (ha : a ∈ C) (h : ∀ b ≠ a, f b = g b) :
    ∑ b ∈ C, f b + g a = ∑ b ∈ C, g b + f a := by
  rw [← Finset.add_sum_erase C f ha, ← Finset.add_sum_erase C g ha,
    Finset.sum_congr rfl fun b hb => h b (Finset.ne_of_mem_erase hb)]
  abel

/-- Changing one entry, for a sum over the table in which every entry counts in its own way. -/
theorem sum_update_at {M : Type*} [AddCommMonoid M] [DecidableEq α] (g : α → β → M) (f : α → β)
    (a : α) (b : β) :
    ∑ x, g x (Function.update f a b x) + g a (f a) = ∑ x, g x (f x) + g a b := by
  have hcomp : (fun x => g x (Function.update f a b x)) =
      Function.update (fun x => g x (f x)) a (g a b) := by
    funext x
    by_cases hx : x = a
    · subst hx; simp
    · simp [hx]
  rw [hcomp, Finset.sum_update_of_mem (Finset.mem_univ a),
    ← Finset.add_sum_erase _ _ (Finset.mem_univ a), Finset.sdiff_singleton_eq_erase]
  abel

/-- Changing one entry, for a sum over the table. -/
theorem sum_update_add {M : Type*} [AddCommMonoid M] [DecidableEq α] (g : β → M) (f : α → β)
    (a : α) (b : β) :
    ∑ x, g (Function.update f a b x) + g (f a) = ∑ x, g (f x) + g b :=
  sum_update_at (fun _ => g) f a b

/-- Changing one entry. -/
theorem tally_update [DecidableEq α] (f : α → β) (a : α) (b : β) :
    tally P (Function.update f a b) + (P (f a)).toNat = tally P f + (P b).toNat := by
  rw [tally_eq_sum, tally_eq_sum]
  exact sum_update_add (fun b => (P b).toNat) f a b

/-- Changing one entry of a table of which the tally sees the entries `g a`. -/
theorem tally_update_comp [DecidableEq α] [DecidableEq γ] {g : α → γ}
    (hg : Function.Injective g) (f : γ → β) (a : α) (b : β) :
    tally P (fun x => Function.update f (g a) b (g x)) + (P (f (g a))).toNat =
      tally P (fun x => f (g x)) + (P b).toNat := by
  have hcomp : (fun x => Function.update f (g a) b (g x)) =
      Function.update (fun x => f (g x)) a b := Function.update_comp_eq_of_injective f hg a b
  rw [hcomp]
  exact tally_update P (fun x => f (g x)) a b

/-- One entry more. -/
theorem tally_option (f : Option α → β) :
    tally P f = (P (f none)).toNat + tally P fun a => f (some a) := by
  rw [tally_eq_sum, tally_eq_sum, Fintype.sum_option]

theorem tally_le_card (f : α → β) : tally P f ≤ Fintype.card α := Finset.card_filter_le _ _

theorem tally_pos {f : α → β} {a : α} (h : P (f a) = true) : 0 < tally P f :=
  Finset.card_pos.mpr ⟨a, Finset.mem_filter.mpr ⟨Finset.mem_univ _, h⟩⟩

theorem tally_eq_zero {f : α → β} (h : ∀ a, P (f a) = false) : tally P f = 0 := by
  rw [tally, Finset.card_eq_zero, Finset.filter_eq_empty_iff]
  intro a _
  simp [h]

theorem tally_eq_card_iff {f : α → β} : tally P f = Fintype.card α ↔ ∀ a, P (f a) = true := by
  rw [tally, ← Finset.card_univ, Finset.card_filter_eq_iff]
  simp

/-- Of two tests that exclude each other and leave nothing out, the tallies add up. -/
theorem tally_add_tally {Q : β → Bool} {f : α → β} (h : ∀ a, Q (f a) = !P (f a)) :
    tally P f + tally Q f = Fintype.card α := by
  have hsum := Finset.card_filter_add_card_filter_not (s := Finset.univ) fun a => P (f a) = true
  rw [Finset.card_univ] at hsum
  rw [← hsum]
  simp [tally, h]

end Support
