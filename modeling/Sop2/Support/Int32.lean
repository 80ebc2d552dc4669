import Mathlib.Algebra.Group.Nat.Defs
import Mathlib.Data.Int.Basic

/-!
# Support — Int32

The values of an `int`, and what an `int` holds after a sum that has none: two's complement, as
the compiled code has it.  A counter that wraps at each step is the sum, wrapped once
(`wrap32_add`), and as long as the sum is an `int` it is the sum itself (`wrap32_eq`).
-/

namespace Support

/-- The number is an `int`. -/
def IsInt32 (n : Int) : Prop := -2147483648 ≤ n ∧ n ≤ 2147483647

instance : DecidablePred IsInt32 := fun _ => inferInstanceAs (Decidable (_ ∧ _))

/-- What an `int` holds after `n`. -/
def wrap32 (n : Int) : Int := n.bmod (2 ^ 32)

theorem wrap32_eq {n : Int} (h : IsInt32 n) : wrap32 n = n := by
  obtain ⟨hlow, hhigh⟩ := h
  exact Int.bmod_eq_of_le (by omega) (by omega)

theorem isInt32_wrap32 (n : Int) : IsInt32 (wrap32 n) := by
  have hlow := Int.le_bmod (x := n) (m := 2 ^ 32) (by decide)
  have hhigh := Int.bmod_lt (x := n) (m := 2 ^ 32) (by decide)
  unfold IsInt32 wrap32
  omega

/-- A sum that wraps, but not below `INT_MIN`, is not greater than it was. -/
theorem wrap32_le {n : Int} (h : -2147483648 ≤ n) : wrap32 n ≤ n := by
  by_cases hn : n ≤ 2147483647
  · exact Int.le_of_eq (wrap32_eq ⟨h, hn⟩)
  · have hhigh := (isInt32_wrap32 n).2
    omega

@[simp] theorem wrap32_zero : wrap32 0 = 0 := rfl

/-- Past `INT_MAX`. -/
theorem wrap32_past {n : Int} (h : 2147483647 < n) (hn : n < 4294967296) :
    wrap32 n = n - 4294967296 := by
  have hmod : n % ((2 ^ 32 : Nat) : Int) = n := Int.emod_eq_of_lt (by omega) (by omega)
  rw [wrap32, Int.bmod, hmod, if_neg (by omega)]
  rfl

@[simp] theorem wrap32_add (m n : Int) : wrap32 (wrap32 m + n) = wrap32 (m + n) :=
  Int.bmod_add_bmod

/-- A number of things that an `int` can count. -/
theorem wrap32_natCast {n : Nat} (h : n ≤ 2147483647) : wrap32 n = n :=
  wrap32_eq ⟨by omega, by omega⟩

attribute [irreducible] wrap32

end Support
