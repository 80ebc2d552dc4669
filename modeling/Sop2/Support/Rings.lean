import Mathlib.Data.Fin.Basic
import Mathlib.Data.ZMod.Defs

/-!
# Support — Rings

Processes in a ring: `Fin n`, and from each to the next with `+ 1`.

* `ring_induction`: what goes from each process to the next goes from one to all.
* `away_succ`: how far it is to a process, from one and from the next.
-/

namespace Support

variable {n : Nat} [NeZero n]

/-- What goes from each process to its successor goes from one process to all. -/
theorem ring_induction {Q : Fin n → Prop} (h : ∀ i, Q i → Q (i + 1)) {i : Fin n} (hi : Q i)
    (j : Fin n) : Q j := by
  have hsteps : ∀ k : ℕ, Q (i + Fin.ofNat n k) := fun k => by
    induction k with
    | zero => simpa using hi
    | succ k ih =>
        have hsucc : Fin.ofNat n k + 1 = Fin.ofNat n (k + 1) := by
          ext
          simp [Fin.val_add]
        rw [← hsucc, ← add_assoc]
        exact h _ ih
  have hj := hsteps (j - i).val
  rwa [Fin.ofNat_val_eq_self, add_sub_cancel] at hj

/-- The same, the other way round. -/
theorem ring_induction_pred {Q : Fin n → Prop} (h : ∀ i, Q i → Q (i - 1)) {i : Fin n} (hi : Q i)
    (j : Fin n) : Q j := by
  by_contra hj
  refine ring_induction (Q := fun j => ¬ Q j) (fun j hj hsucc => hj ?_) hj i hi
  have := h (j + 1) hsucc
  rwa [add_sub_cancel_right] at this

/-- How far it is from `p` to `z`. -/
def away (z p : Fin n) : Nat := (z - p).val

omit [NeZero n] in
theorem away_lt (z p : Fin n) : away z p < n := (z - p).isLt

/-- From the next it is one less. -/
theorem away_succ {z p : Fin n} (h : p ≠ z) : away z (p + 1) + 1 = away z p := by
  have hne : z - p ≠ 0 := fun h' => h (sub_eq_zero.mp h').symm
  rw [away, ← sub_sub, Fin.val_sub_one_of_ne_zero hne, away]
  have hpos : (z - p).val ≠ 0 := fun h' => hne (Fin.ext h')
  omega

end Support
