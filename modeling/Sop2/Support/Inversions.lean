import Mathlib.Data.Fintype.Prod
import Mathlib.Data.Fintype.Perm
import Mathlib.Order.Fin.Basic
import Mathlib.Order.WellFounded

/-!
# Support — Inversions

Arrays over `Fin n`, and the pairs of positions they have in the wrong order.

* `inversions_swap_lt`: swapping a pair that is in the wrong order leaves strictly fewer such
  pairs.  Each pair the swap puts in the wrong order is charged to another one that was.
* `Arrangement.eq_id_iff`: an arrangement of `0 … n - 1` has no pair in the wrong order exactly
  when it is `0, 1, …, n - 1`.
-/

namespace Support

variable {n : ℕ} {α : Type*} [LinearOrder α]

/-- The pairs of positions that `a` has in the wrong order. -/
def inversionSet (a : Fin n → α) : Finset (Fin n × Fin n) :=
  Finset.univ.filter fun p => p.1 < p.2 ∧ a p.2 < a p.1

/-- How many pairs of positions `a` has in the wrong order. -/
def inversions (a : Fin n → α) : ℕ := (inversionSet a).card

variable {a : Fin n → α} {i j : Fin n}

@[simp] theorem mem_inversionSet {p : Fin n × Fin n} :
    p ∈ inversionSet a ↔ p.1 < p.2 ∧ a p.2 < a p.1 := by
  simp [inversionSet]

/-- A pair that is in the wrong order once `i` and `j` have been swapped is charged to the pair
its values came from, or to itself when these were the other way round. -/
def charge (i j : Fin n) (p : Fin n × Fin n) : Fin n × Fin n :=
  if Equiv.swap i j p.1 < Equiv.swap i j p.2 then (Equiv.swap i j p.1, Equiv.swap i j p.2) else p

/-- The pairs whose order the swap of `i` and `j` turns round. -/
theorem swap_turns (hij : i < j) {p : Fin n × Fin n} (hp : p.1 < p.2)
    (h : ¬ Equiv.swap i j p.1 < Equiv.swap i j p.2) :
    (p.1 = i ∧ p.2 ≤ j) ∨ (p.2 = j ∧ i < p.1) := by
  simp only [Equiv.swap_apply_def] at h
  split at h <;> split at h <;> (try split at h) <;> (try split at h) <;> omega

theorem charge_mem (hij : i < j) (h : a j < a i) {p : Fin n × Fin n}
    (hp : p ∈ inversionSet (a ∘ Equiv.swap i j)) :
    charge i j p ∈ (inversionSet a).erase (i, j) := by
  obtain ⟨p, q⟩ := p
  obtain ⟨hlt, ha⟩ := mem_inversionSet.mp hp
  simp only [Function.comp_apply] at ha hlt
  unfold charge
  split
  · rename_i hτ
    refine Finset.mem_erase.mpr ⟨fun e => ?_, mem_inversionSet.mpr ⟨hτ, ha⟩⟩
    obtain ⟨e₁, e₂⟩ := Prod.mk.inj e
    rw [Equiv.swap_apply_eq_iff, Equiv.swap_apply_left] at e₁
    rw [Equiv.swap_apply_eq_iff, Equiv.swap_apply_right] at e₂
    exact absurd (e₁ ▸ e₂ ▸ hlt) (not_lt_of_gt hij)
  · rename_i hτ
    rcases swap_turns hij hlt hτ with ⟨hpi, -⟩ | ⟨hqj, hip⟩
    · dsimp only at hpi
      subst hpi
      rw [Equiv.swap_apply_left] at ha
      have hne : q ≠ j := fun e => by
        rw [e, Equiv.swap_apply_right] at ha
        exact lt_asymm h ha
      rw [Equiv.swap_apply_of_ne_of_ne (ne_of_gt hlt) hne] at ha
      exact Finset.mem_erase.mpr
        ⟨fun e => hne (Prod.mk.inj e).2, mem_inversionSet.mpr ⟨hlt, ha.trans h⟩⟩
    · dsimp only at hqj hip
      subst hqj
      rw [Equiv.swap_apply_right, Equiv.swap_apply_of_ne_of_ne (ne_of_gt hip) (ne_of_lt hlt)] at ha
      exact Finset.mem_erase.mpr
        ⟨fun e => ne_of_gt hip (Prod.mk.inj e).1, mem_inversionSet.mpr ⟨hlt, h.trans ha⟩⟩

theorem charge_injOn (i j : Fin n) : Set.InjOn (charge i j) {p | p.1 < p.2} := by
  -- a pair that was moved by the swap is not one that the swap turns round
  have hmixed : ∀ p q : Fin n × Fin n, p.1 < p.2 →
      ¬ Equiv.swap i j q.1 < Equiv.swap i j q.2 →
      (Equiv.swap i j p.1, Equiv.swap i j p.2) ≠ q := by
    rintro p _ hp hq rfl
    simp only [Equiv.swap_apply_self] at hq
    exact hq hp
  intro p hp q hq h
  unfold charge at h
  split at h
  · split at h
    · obtain ⟨h₁, h₂⟩ := Prod.mk.inj h
      exact Prod.ext ((Equiv.swap i j).injective h₁) ((Equiv.swap i j).injective h₂)
    · exact absurd h (hmixed p q hp ‹_›)
  · split at h
    · exact absurd h.symm (hmixed q p hq ‹_›)
    · exact h

/-- **Swapping a pair that is in the wrong order.** -/
theorem inversions_swap_lt (hij : i < j) (h : a j < a i) :
    inversions (a ∘ Equiv.swap i j) < inversions a := by
  have hmem : (i, j) ∈ inversionSet a := mem_inversionSet.mpr ⟨hij, h⟩
  calc inversions (a ∘ Equiv.swap i j)
      ≤ ((inversionSet a).erase (i, j)).card :=
        Finset.card_le_card_of_injOn (charge i j) (fun p hp => charge_mem hij h hp)
          ((charge_injOn i j).mono fun p hp => (mem_inversionSet.mp hp).1)
    _ < inversions a := Finset.card_erase_lt_of_mem hmem

/-! ### Arrangements -/

/-- `a` is a permutation of `0 … n - 1`. -/
def Arrangement (a : Fin n → ℕ) : Prop := ∃ σ : Equiv.Perm (Fin n), ∀ i, a i = σ i

theorem arrangement_id : Arrangement fun i : Fin n => (i : ℕ) := ⟨1, fun _ => rfl⟩

theorem Arrangement.swap {a : Fin n → ℕ} (h : Arrangement a) (i j : Fin n) :
    Arrangement (a ∘ Equiv.swap i j) := by
  obtain ⟨σ, hσ⟩ := h
  exact ⟨(Equiv.swap i j).trans σ, fun k => hσ _⟩

/-- An arrangement with no pair in the wrong order. -/
theorem Arrangement.eq_id_iff {a : Fin n → ℕ} (h : Arrangement a) :
    (∀ i j, i < j → ¬ a j < a i) ↔ ∀ i, a i = i := by
  constructor
  · intro hn
    obtain ⟨σ, hσ⟩ := h
    have hmono : StrictMono σ := fun i j hij => by
      have hle := hn i j hij
      rw [hσ, hσ] at hle
      exact lt_of_le_of_ne (Fin.not_lt.mp hle) fun e => ne_of_lt hij (σ.injective e)
    have hid : (σ : Fin n → Fin n) = id :=
      (hmono.range_inj strictMono_id).mp (by rw [Equiv.range_eq_univ, Set.range_id])
    intro i
    rw [hσ, hid]
    rfl
  · intro hid i j hij
    rw [hid, hid]
    omega

end Support
