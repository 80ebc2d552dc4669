import Mathlib.Tactic.Ring
import Sop2.Support.Int32
import Sop2.Support.Scan

/-!
# Support — Decimal

`%d` of `printf`, and that `%d` of `sscanf` reads it back.

* `printInt`: the text of a number.  `length_printInt`: that of an `int` has eleven characters at
  most.
* `scanInt_printInt`, `numbers_written`: what is read of the text of an `int`, if no digit follows,
  and of several.
* `snprintf`: a text in a buffer, cut off if need be; `atoi` of a buffer (`atoi_snprintf`).
-/

namespace Support

/-! ### What is written -/

/-- The digits of `n`, the last `k` of them. -/
def digits : Nat → Nat → List UInt8
  | 0, _ => []
  | k + 1, n => if n < 10 then [.ofNat (48 + n)] else digits k (n / 10) ++ [.ofNat (48 + n % 10)]

/-- `%d`. -/
def printInt (n : Int) : List UInt8 :=
  if n < 0 then 45 :: digits (n.natAbs + 1) n.natAbs else digits (n.natAbs + 1) n.natAbs

/-- `snprintf` into `size` bytes that are all NUL before. -/
def snprintf (size : Nat) (text : List UInt8) : List UInt8 :=
  text.take (size - 1) ++ List.replicate (size - (text.take (size - 1)).length) 0

/-- `atoi`. -/
def atoi (buf : List UInt8) : Int := ((scanInt buf).map Prod.fst).getD 0

variable {k m n : Nat}

theorem digit_toNat {d : Nat} (h : d < 10) : (UInt8.ofNat (48 + d)).toNat = 48 + d := by
  rw [UInt8.toNat_ofNat', Nat.mod_eq_of_lt (by omega)]

theorem isDigit_iff {b : UInt8} : isDigit b = true ↔ 48 ≤ b.toNat ∧ b.toNat ≤ 57 := by
  rw [isDigit, decide_eq_true_iff, UInt8.le_iff_toNat_le, UInt8.le_iff_toNat_le]
  rfl

theorem isDigit_digit {d : Nat} (h : d < 10) : isDigit (.ofNat (48 + d)) = true := by
  rw [isDigit_iff, digit_toNat h]
  omega

theorem isDigit_digits (k n : Nat) : ∀ b ∈ digits k n, isDigit b = true := by
  induction k generalizing n with
  | zero => exact fun _ h => absurd h List.not_mem_nil
  | succ k ih =>
      rw [digits]
      split
      · rename_i hlt
        exact List.forall_mem_singleton.mpr (isDigit_digit hlt)
      · refine List.forall_mem_append.mpr ⟨ih (n / 10), ?_⟩
        exact List.forall_mem_singleton.mpr (isDigit_digit (Nat.mod_lt n (by decide)))

theorem digits_ne_nil (k n : Nat) : digits (k + 1) n ≠ [] := by
  rw [digits]
  split
  · exact List.cons_ne_nil _ _
  · exact List.append_ne_nil_of_right_ne_nil _ (List.cons_ne_nil _ _)

/-- There are no more digits than places. -/
theorem digits_eq (hn : n < 10 ^ k) (hkm : k ≤ m) (hpos : 0 < k) : digits m n = digits k n := by
  induction k generalizing n m with
  | zero => cases hpos
  | succ k ih =>
      obtain ⟨m, rfl⟩ := Nat.exists_eq_succ_of_ne_zero (Nat.ne_of_gt (Nat.lt_of_succ_le
        (Nat.le_trans (Nat.succ_le_succ (Nat.zero_le k)) hkm)))
      rw [digits, digits]
      split
      · rfl
      · rename_i hge
        have hk : 0 < k := by
          rcases Nat.eq_zero_or_pos k with rfl | hk
          · exact absurd hn hge
          · exact hk
        have hdiv : n / 10 < 10 ^ k := by
          rw [Nat.pow_succ] at hn
          exact Nat.div_lt_of_lt_mul (by rwa [Nat.mul_comm])
        rw [ih hdiv (Nat.le_of_succ_le_succ hkm) hk]

theorem length_digits_le (k n : Nat) : (digits k n).length ≤ k := by
  induction k generalizing n with
  | zero => exact Nat.le_refl _
  | succ k ih =>
      rw [digits]
      split
      · exact Nat.succ_le_succ (Nat.zero_le k)
      · rw [List.length_append]
        exact Nat.succ_le_succ (ih _)

theorem length_printNat (hn : n < 10 ^ k) (hk : 0 < k) : (digits (n + 1) n).length ≤ k := by
  rcases Nat.le_total k (n + 1) with h | h
  · rw [digits_eq hn h hk]
    exact length_digits_le k n
  · exact (length_digits_le (n + 1) n).trans h

/-- The text of an `int`. -/
theorem length_printInt {n : Int} (hn : IsInt32 n) :
    (printInt n).length ≤ 11 := by
  have hdigits : (digits (n.natAbs + 1) n.natAbs).length ≤ 10 := by
    obtain ⟨hlow, hhigh⟩ := hn
    exact length_printNat (by omega) (by decide)
  rw [printInt]
  split
  · exact Nat.succ_le_succ hdigits
  · exact hdigits.trans (by decide)

/-- There are digits and a sign only. -/
theorem notMem_printInt {c : UInt8} (hc : isDigit c = false) (hne : c ≠ 45) (n : Int) :
    c ∉ printInt n := by
  have hdigits : ∀ k m, c ∉ digits k m := fun k m h => by
    rw [isDigit_digits k m c h] at hc
    cases hc
  rw [printInt]
  split
  · rw [List.mem_cons, not_or]
    exact ⟨hne, hdigits _ _⟩
  · exact hdigits _ _

/-! ### What is read -/

/-- The digits spell the number. -/
theorem decimal_digits (hn : n < 10 ^ k) : decimal (digits k n) = n := by
  induction k generalizing n with
  | zero =>
      obtain rfl : n = 0 := Nat.lt_one_iff.mp hn
      rfl
  | succ k ih =>
      rw [digits]
      split
      · rename_i hlt
        simp only [decimal, List.foldl_cons, List.foldl_nil, digit_toNat hlt]
        push_cast
        ring
      · have hdiv : n / 10 < 10 ^ k := by
          rw [Nat.pow_succ] at hn
          exact Nat.div_lt_of_lt_mul (by rwa [Nat.mul_comm])
        have hmod : n % 10 < 10 := Nat.mod_lt n (by decide)
        have hfront := ih hdiv
        rw [decimal] at hfront
        rw [decimal, List.foldl_append, hfront]
        simp only [List.foldl_cons, List.foldl_nil, digit_toNat hmod]
        omega

theorem lt_pow_self_succ (n : Nat) : n < 10 ^ (n + 1) :=
  (Nat.lt_succ_self n).trans (Nat.lt_pow_self (by decide))

/-- A number in the range of `int` is taken as it is. -/
theorem toInt32_of_isInt {n : Int} (hn : IsInt32 n) :
    toInt32 n = n := by
  obtain ⟨hlow, hhigh⟩ := hn
  rw [toInt32, min_eq_left (by omega), max_eq_right (by omega)]
  exact Int.bmod_eq_of_le (by omega) (by omega)

variable {rest : List UInt8}

theorem takeWhile_digits (k n : Nat) (hrest : ∀ b ∈ rest.head?, isDigit b = false) :
    (digits k n ++ rest).takeWhile isDigit = digits k n ∧
      (digits k n ++ rest).dropWhile isDigit = rest := by
  have hall := isDigit_digits k n
  have hstop : rest.takeWhile isDigit = [] ∧ rest.dropWhile isDigit = rest := by
    cases rest with
    | nil => exact ⟨rfl, rfl⟩
    | cons b rest =>
        have hb := hrest b rfl
        exact ⟨by rw [List.takeWhile_cons, hb]; rfl, by rw [List.dropWhile_cons, hb]; rfl⟩
  rw [List.takeWhile_append_of_pos hall, List.dropWhile_append_of_pos hall, hstop.1, hstop.2]
  exact ⟨List.append_nil _, rfl⟩

/-- A text that begins with a digit or a minus is read from there. -/
theorem head_digits (k n : Nat) : ∃ b text, digits (k + 1) n = b :: text ∧ isDigit b = true := by
  cases h : digits (k + 1) n with
  | nil => exact absurd h (digits_ne_nil k n)
  | cons b text => exact ⟨b, text, rfl, isDigit_digits (k + 1) n b (by rw [h]; exact .head _)⟩

theorem not_isSpace_of_isDigit {b : UInt8} (h : isDigit b = true) :
    isSpace b = false ∧ b ≠ 45 ∧ b ≠ 43 := by
  obtain ⟨hlow, hhigh⟩ := isDigit_iff.mp h
  refine ⟨?_, ?_, ?_⟩
  · rw [isSpace, decide_eq_false_iff_not]
    rintro (rfl | ⟨-, hle⟩)
    · exact absurd hlow (by decide)
    · have : b.toNat ≤ 13 := hle
      omega
  · rintro rfl
    exact absurd hlow (by decide)
  · rintro rfl
    exact absurd hlow (by decide)

/-- **What is read of a number that was written.** -/
theorem scanInt_printInt {n : Int} (hn : IsInt32 n)
    (hrest : ∀ b ∈ rest.head?, isDigit b = false) :
    scanInt (printInt n ++ rest) = some (n, rest) := by
  obtain ⟨hdigits, hleft⟩ := takeWhile_digits (n.natAbs + 1) n.natAbs hrest
  obtain ⟨b, text, htext, hb⟩ := head_digits n.natAbs n.natAbs
  obtain ⟨hspace, hminus, hplus⟩ := not_isSpace_of_isDigit hb
  have hvalue := decimal_digits (lt_pow_self_succ n.natAbs)
  rw [printInt]
  split
  · rename_i hneg
    -- behind the minus are the digits
    have hvalue : toInt32 (-decimal (digits (n.natAbs + 1) n.natAbs)) = n := by
      have hn' : -(n.natAbs : Int) = n := by omega
      rw [hvalue, hn', toInt32_of_isInt hn]
    have hdrop : ((45 : UInt8) :: digits (n.natAbs + 1) n.natAbs ++ rest).dropWhile isSpace =
        45 :: (digits (n.natAbs + 1) n.natAbs ++ rest) := rfl
    simp only [scanInt, hdrop, List.head?_cons, true_or, if_true, List.tail_cons, hdigits, hleft]
    rw [htext] at hvalue ⊢
    simp only [hvalue]
  · rename_i hpos
    have hvalue : toInt32 (decimal (digits (n.natAbs + 1) n.natAbs)) = n := by
      have hn' : (n.natAbs : Int) = n := by omega
      rw [hvalue, hn', toInt32_of_isInt hn]
    have hdrop : (digits (n.natAbs + 1) n.natAbs ++ rest).dropWhile isSpace =
        digits (n.natAbs + 1) n.natAbs ++ rest := by
      rw [htext, List.cons_append, List.dropWhile_cons, hspace]
      rfl
    have hhead : (digits (n.natAbs + 1) n.natAbs ++ rest).head? = some b := by rw [htext]; rfl
    simp only [scanInt, hdrop, hhead, Option.some.injEq, hminus, hplus, or_self, if_false, hdigits,
      hleft]
    rw [htext] at hvalue ⊢
    simp only [hvalue]

/-- **What is read of numbers that were written**, each with a space behind it. -/
theorem numbers_written {ns : List Int} (h : ∀ n ∈ ns, IsInt32 n) :
    numbers (ns.flatMap fun n => printInt n ++ [32]) = ns := by
  induction ns with
  | nil => rfl
  | cons n ns ih =>
      obtain ⟨hn, hns⟩ := List.forall_mem_cons.mp h
      have hspace : ∀ text : List UInt8, ∀ b ∈ (32 :: text).head?, isDigit b = false := by
        rintro text b ⟨⟩
        rfl
      rw [List.flatMap_cons, List.append_assoc, List.singleton_append, numbers_eq,
        scanInt_printInt hn (hspace _)]
      exact congrArg (n :: ·) ((numbers_space rfl _).trans (ih hns))

/-- The text of a number fits, with the NUL. -/
theorem snprintf_printInt {n : Int} {size : Nat} (hn : IsInt32 n)
    (hsize : 12 ≤ size) :
    snprintf size (printInt n) = printInt n ++ List.replicate (size - (printInt n).length) 0 := by
  have hlength := length_printInt hn
  rw [snprintf, List.take_of_length_le (by omega)]

/-- **A number is read back** from the buffer into which it was written. -/
theorem atoi_snprintf {n : Int} {size : Nat} (hn : IsInt32 n)
    (hsize : 12 ≤ size) : atoi (snprintf size (printInt n)) = n := by
  rw [snprintf_printInt hn hsize, atoi, scanInt_printInt hn]
  · rfl
  · intro b hb
    rw [List.head?_replicate] at hb
    split at hb
    · cases hb
    · cases hb
      rfl

theorem printInt_ne_zero (n : Int) : 0 ∉ printInt n := by
  have hdigits : 0 ∉ digits (n.natAbs + 1) n.natAbs := fun h =>
    absurd (isDigit_digits _ _ 0 h) (by decide)
  rw [printInt]
  split
  · exact fun h => (List.mem_cons.mp h).elim (absurd · (by decide)) hdigits
  · exact hdigits

/-- The text that is in the buffer, if it fits. -/
theorem cString_snprintf {text : List UInt8} {size : Nat} (hzero : 0 ∉ text)
    (hsize : text.length < size) : cString (snprintf size text) = text := by
  obtain ⟨k, hk⟩ : ∃ k, size - text.length = k + 1 := ⟨size - text.length - 1, by omega⟩
  rw [snprintf, List.take_of_length_le (by omega), hk, List.replicate_succ]
  exact cString_append hzero _

theorem cString_printInt {n : Int} {size : Nat} (hn : IsInt32 n) (hsize : 12 ≤ size) :
    cString (snprintf size (printInt n)) = printInt n :=
  cString_snprintf (printInt_ne_zero n) ((length_printInt hn).trans_lt hsize)

/-- What `atoi` gives is an `int`. -/
theorem toInt32_range (n : Int) : IsInt32 (toInt32 n) := by
  have hlow := Int.le_bmod (x := max (-2 ^ 63) (min n (2 ^ 63 - 1))) (m := 2 ^ 32) (by decide)
  have hhigh := Int.bmod_lt (x := max (-2 ^ 63) (min n (2 ^ 63 - 1))) (m := 2 ^ 32) (by decide)
  rw [toInt32]
  constructor <;> omega

theorem atoi_range (buf : List UInt8) : IsInt32 (atoi buf) := by
  rw [atoi]
  cases h : scanInt buf with
  | none => exact ⟨by decide, by decide⟩
  | some x =>
      simp only [scanInt] at h
      split at h
      · cases h
      · cases h
        exact toInt32_range _

example : atoi (snprintf 12 (printInt (-2147483648))) = -2147483648 := by decide

end Support
