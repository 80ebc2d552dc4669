import Sop2.Support.Bytes

/-!
# Support — Scan

What a C program reads of a text.

* `many`: what a scanner finds, one after another, until it finds nothing more.  A scanner that
  leaves less than it was given comes to an end (`many_eq`).
* `fgets`, and the lines of a file; `strchr`; `%d` and `%s` of `sscanf` in the C locale, where an
  `int` has 32 bits and a `long` 64.
* `foldlM_keeps`, `foldlM_error`, `foldlM_total`: a loop that may end early, from its turns.
-/

namespace Support

/-! ### One after another -/

section
variable {α β : Type*} {scan : List α → Option (β × List α)} {xs rest : List α} {y : β} {k : Nat}

/-- At most `k` of them. -/
def manyOf (scan : List α → Option (β × List α)) : Nat → List α → List β
  | 0, _ => []
  | k + 1, xs =>
      match scan xs with
      | some (y, rest) => y :: manyOf scan k rest
      | none => []

/-- The loop that scans as long as it can. -/
def many (scan : List α → Option (β × List α)) (xs : List α) : List β := manyOf scan xs.length xs

/-- A scanner that leaves less than it was given. -/
def Consumes (scan : List α → Option (β × List α)) : Prop :=
  ∀ {xs y rest}, scan xs = some (y, rest) → rest.length < xs.length

theorem Consumes.nil (hscan : Consumes scan) : scan [] = none := by
  cases h : scan [] with
  | none => rfl
  | some x => exact absurd (hscan h) (Nat.not_lt_zero _)

/-- There are not more of them than elements. -/
theorem manyOf_succ (hscan : Consumes scan) (h : xs.length ≤ k) :
    manyOf scan (k + 1) xs = manyOf scan k xs := by
  induction k generalizing xs with
  | zero =>
      obtain rfl := List.eq_nil_of_length_eq_zero (Nat.le_zero.mp h)
      simp only [manyOf, hscan.nil]
  | succ k ih =>
      rw [manyOf, manyOf]
      split
      next y rest heq => rw [ih (Nat.le_of_lt_succ ((hscan heq).trans_le h))]
      next => rfl

theorem manyOf_eq (hscan : Consumes scan) (h : xs.length ≤ k) :
    manyOf scan k xs = many scan xs := by
  induction k, h using Nat.le_induction with
  | base => rfl
  | succ k h ih => rw [manyOf_succ hscan h, ih]

/-- **The loop comes to an end**: one turn of it, and then the rest. -/
theorem many_eq (hscan : Consumes scan) (xs : List α) :
    many scan xs = match scan xs with
      | some (y, rest) => y :: many scan rest
      | none => [] := by
  rw [← manyOf_eq hscan (Nat.le_succ xs.length), manyOf]
  split
  next h => rw [manyOf_eq hscan (hscan h).le]
  next => rfl

end

/-! ### Lines -/

/-- A line of at most `k` bytes, with its end, and what is left. -/
def lineOf : Nat → List UInt8 → List UInt8 × List UInt8
  | 0, file => ([], file)
  | _ + 1, [] => ([], [])
  | k + 1, b :: file => if b = 10 then ([b], file) else ((lineOf k file).map (b :: ·) id)

/-- `fgets` into `size` bytes: what is read, without the NUL behind it, and what is left. -/
def fgets (size : Nat) (file : List UInt8) : Option (List UInt8 × List UInt8) :=
  if file = [] then none else some (lineOf (size - 1) file)

/-- All lines, in pieces that `fgets` can read. -/
def lines (size : Nat) (file : List UInt8) : List (List UInt8) := many (fgets size) file

theorem lineOf_append (k : Nat) (file : List UInt8) :
    (lineOf k file).1 ++ (lineOf k file).2 = file := by
  induction k generalizing file with
  | zero => rfl
  | succ k ih =>
      cases file with
      | nil => rfl
      | cons b file =>
          rw [lineOf]
          split
          · rfl
          · exact congrArg (b :: ·) (ih file)

theorem fgets_consumes (k : Nat) : Consumes (fgets (k + 2)) := by
  intro file line rest h
  cases file with
  | nil => cases h
  | cons b file =>
      have h : (lineOf (k + 1) (b :: file)) = (line, rest) := Option.some.inj h
      rw [lineOf] at h
      split at h
      · cases h
        exact Nat.lt_succ_self _
      · cases h
        -- what is read after the first byte and what is left are all of the file behind it
        have hlength := congrArg List.length (lineOf_append k file)
        rw [List.length_append] at hlength
        exact Nat.lt_succ_of_le (hlength ▸ Nat.le_add_left ..)

/-- **One line after another.** -/
theorem lines_eq (k : Nat) (file : List UInt8) :
    lines (k + 2) file = match fgets (k + 2) file with
      | some (line, rest) => line :: lines (k + 2) rest
      | none => [] := by
  rw [lines, many_eq (fgets_consumes k)]
  cases fgets (k + 2) file <;> rfl

/-- A line that fits, up to its end. -/
theorem lineOf_line {line : List UInt8} (hline : 10 ∉ line) {k : Nat} (hlen : line.length ≤ k)
    (rest : List UInt8) : lineOf (k + 1) (line ++ 10 :: rest) = (line ++ [10], rest) := by
  induction line generalizing k with
  | nil => rfl
  | cons b line ih =>
      obtain ⟨hb, hline⟩ := not_or.mp (mt List.mem_cons.mpr hline)
      obtain ⟨k, rfl⟩ := Nat.exists_eq_succ_of_ne_zero (Nat.ne_zero_of_lt hlen)
      rw [List.cons_append, lineOf, if_neg (Ne.symm hb), ih hline (Nat.le_of_succ_le_succ hlen)]
      rfl

theorem fgets_line {line : List UInt8} (hline : 10 ∉ line) {k : Nat} (hlen : line.length ≤ k)
    (rest : List UInt8) : fgets (k + 2) (line ++ 10 :: rest) = some (line ++ [10], rest) := by
  rw [fgets, if_neg (List.append_ne_nil_of_right_ne_nil _ (List.cons_ne_nil _ _))]
  exact congrArg some (lineOf_line hline hlen rest)

/-- **Lines that fit** are read as they were written. -/
theorem lines_written {k : Nat} {texts : List (List UInt8)}
    (h : ∀ line ∈ texts, 10 ∉ line ∧ line.length ≤ k) :
    lines (k + 2) (texts.flatMap (· ++ [10])) = texts.map (· ++ [10]) := by
  induction texts with
  | nil => rfl
  | cons line texts ih =>
      obtain ⟨⟨hline, hlen⟩, hrest⟩ := List.forall_mem_cons.mp h
      rw [List.flatMap_cons, List.append_assoc, List.singleton_append, lines_eq,
        fgets_line hline hlen, List.map_cons]
      exact congrArg _ (ih hrest)

/-! ### Words and numbers -/

/-- The text before the first `c`, and from there on. -/
def strchr (c : UInt8) (text : List UInt8) : Option (List UInt8 × List UInt8) :=
  if c ∈ text then some (text.takeWhile (· ≠ c), text.dropWhile (· ≠ c)) else none

theorem strchr_append {c : UInt8} {before : List UInt8} (h : c ∉ before) (after : List UInt8) :
    strchr c (before ++ c :: after) = some (before, c :: after) := by
  have hall : ∀ b ∈ before, decide (b ≠ c) = true := fun b hb =>
    decide_eq_true fun e => h (e ▸ hb)
  rw [strchr, if_pos (List.mem_append_right _ List.mem_cons_self),
    List.takeWhile_append_of_pos hall, List.dropWhile_append_of_pos hall,
    List.takeWhile_cons_of_neg (by simp), List.dropWhile_cons_of_neg (by simp), List.append_nil]

def isSpace (b : UInt8) : Bool := decide (b = 32 ∨ 9 ≤ b ∧ b ≤ 13)

def isDigit (b : UInt8) : Bool := decide (48 ≤ b ∧ b ≤ 57)

/-- `%s` with a width; nothing is stored when there is no word. -/
def scanWord (width : Nat) (text : List UInt8) : Option (List UInt8) :=
  match ((text.dropWhile isSpace).takeWhile fun b => !isSpace b).take width with
  | [] => none
  | word => some word

def decimal (digits : List UInt8) : Int := digits.foldl (fun n b => 10 * n + (b.toNat - 48)) 0

/-- A number becomes the nearest `long`, and of that the lower half is taken. -/
def toInt32 (n : Int) : Int := (max (-2 ^ 63) (min n (2 ^ 63 - 1))).bmod (2 ^ 32)

/-- `%d`, and the text behind it. -/
def scanInt (text : List UInt8) : Option (Int × List UInt8) :=
  let text := text.dropWhile isSpace
  let minus := text.head? = some 45
  let text := if minus ∨ text.head? = some 43 then text.tail else text
  match text.takeWhile isDigit with
  | [] => none
  | digits =>
      some (toInt32 (if minus then -decimal digits else decimal digits), text.dropWhile isDigit)

/-- The numbers at the beginning of a text. -/
def numbers (text : List UInt8) : List Int := many scanInt text

theorem scanInt_consumes : Consumes scanInt := by
  intro text n rest h
  simp only [scanInt] at h
  split at h
  · cases h
  · rename_i hdigits
    cases h
    have hspace : (text.dropWhile isSpace).length ≤ text.length :=
      (List.dropWhile_sublist _).length_le
    generalize text.dropWhile isSpace = word at hdigits hspace ⊢
    have hsign : (if word.head? = some 45 ∨ word.head? = some 43 then word.tail else word).length ≤
        word.length := by
      split
      · rw [List.length_tail]
        exact Nat.sub_le ..
      · exact Nat.le_refl _
    generalize (if word.head? = some 45 ∨ word.head? = some 43 then word.tail else word) = signed
      at hdigits hsign ⊢
    have hlength :=
      congrArg List.length (List.takeWhile_append_dropWhile (p := isDigit) (l := signed))
    rw [List.length_append] at hlength
    -- there is a digit
    have hpos : 0 < (signed.takeWhile isDigit).length := List.length_pos_iff.mpr hdigits
    omega

/-- White space is skipped. -/
theorem scanInt_space {b : UInt8} (hb : isSpace b = true) (text : List UInt8) :
    scanInt (b :: text) = scanInt text := by
  rw [scanInt, List.dropWhile_cons, if_pos hb, scanInt]

/-- What is left is the end of the text. -/
theorem scanInt_suffix {text rest : List UInt8} {n : Int} (h : scanInt text = some (n, rest)) :
    rest <:+ text := by
  simp only [scanInt] at h
  split at h
  · cases h
  · cases h
    refine (List.dropWhile_suffix _).trans ?_
    split
    · exact (List.tail_suffix _).trans (List.dropWhile_suffix _)
    · exact List.dropWhile_suffix _

theorem length_scanWord {width : Nat} {text word : List UInt8}
    (h : scanWord width text = some word) : word.length ≤ width := by
  unfold scanWord at h
  split at h
  · cases h
  · cases h
    exact List.length_take_le ..

/-- **One number after another.** -/
theorem numbers_eq (text : List UInt8) :
    numbers text = match scanInt text with
      | some (n, rest) => n :: numbers rest
      | none => [] := by
  rw [numbers, many_eq scanInt_consumes]
  cases scanInt text <;> rfl

theorem numbers_space {b : UInt8} (hb : isSpace b = true) (text : List UInt8) :
    numbers (b :: text) = numbers text := by
  rw [numbers_eq, scanInt_space hb, ← numbers_eq]

example : numbers [32, 49, 50, 32, 45, 51, 120, 52] = [12, -3] := by decide

/-! ### Loops that may end early -/

section
variable {S α E : Type*} {f : S → α → Except E S} {I : List α → S → Prop} {xs : List α} {s s' : S}

/-- **What each turn keeps.** -/
theorem foldlM_keeps
    (step : ∀ {before a s s'}, I before s → f s a = .ok s' → I (before ++ [a]) s') (hs : I [] s)
    (h : xs.foldlM f s = .ok s') : I xs s' := by
  suffices hall : ∀ {before xs : List α} {s : S}, I before s → xs.foldlM f s = .ok s' →
      I (before ++ xs) s' from hall hs h
  intro before xs s hs h
  induction xs generalizing before s with
  | nil => cases h; rwa [List.append_nil]
  | cons a xs ih =>
      rw [List.foldlM_cons] at h
      cases hturn : f s a with
      | error e => rw [hturn] at h; cases h
      | ok s₁ =>
          rw [hturn] at h
          rw [List.append_cons]
          exact ih (step hs hturn) h

/-- The loop ends early as one of its turns does. -/
theorem foldlM_error {P : E → Prop} (step : ∀ {s a e}, f s a = .error e → P e) {e : E}
    (h : xs.foldlM f s = .error e) : P e := by
  induction xs generalizing s with
  | nil => cases h
  | cons a xs ih =>
      rw [List.foldlM_cons] at h
      cases hturn : f s a with
      | error e' => rw [hturn] at h; cases h; exact step hturn
      | ok s₁ => rw [hturn] at h; exact ih h

/-- **A loop whose turns all come to an end.** -/
theorem foldlM_total
    (step : ∀ {before a after s}, xs = before ++ a :: after → I before s → ∃ s', f s a = .ok s')
    (hkeeps : ∀ {before a s s'}, I before s → f s a = .ok s' → I (before ++ [a]) s') (hs : I [] s) :
    ∃ s', xs.foldlM f s = .ok s' := by
  suffices hall : ∀ {before after : List α} {s : S}, xs = before ++ after → I before s →
      ∃ s', after.foldlM f s = .ok s' from hall rfl hs
  intro before after s hxs hs
  induction after generalizing before s with
  | nil => exact ⟨s, rfl⟩
  | cons a after ih =>
      obtain ⟨s₁, hturn⟩ := step hxs hs
      obtain ⟨s', h⟩ := ih (hxs.trans (List.append_cons ..)) (hkeeps hs hturn)
      refine ⟨s', ?_⟩
      rw [List.foldlM_cons, hturn]
      exact h

end

end Support
