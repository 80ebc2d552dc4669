import Mathlib.Algebra.Order.BigOperators.Group.Finset
import Mathlib.Algebra.Order.Group.Multiset
import Sop2.Support.Tally

/-!
# Support — Pipes

The pipes `K` that processes `P` share: what is in each pipe, in pieces `C` that are written and
read whole, and who has which end open.

* `Read`, `Write`: what a call that does not block can do.  An end of file takes an empty pipe of
  which nobody has the write end, a broken pipe one of which nobody has the read end.
* `Pipes.all`: what is in all the pipes together (`Read.all`, `Write.all`).
-/

namespace Support

/-- What is in the pipes, and who has which end open. -/
structure Pipes (P K C : Type*) where
  content : K → List C
  reads : P → K → Bool
  writes : P → K → Bool

namespace Pipes

variable {P K C : Type*} {s t : Pipes P K C} {k : K} {c : C}

def NoReader (s : Pipes P K C) (k : K) : Prop := ∀ p, s.reads p k = false

def NoWriter (s : Pipes P K C) (k : K) : Prop := ∀ p, s.writes p k = false

theorem not_noReader : ¬ s.NoReader k ↔ ∃ p, s.reads p k = true := by
  simp [NoReader]

theorem not_noWriter : ¬ s.NoWriter k ↔ ∃ p, s.writes p k = true := by
  simp [NoWriter]

variable [DecidableEq K]

/-- The pipe `k` holds `cs` now. -/
def set (s : Pipes P K C) (k : K) (cs : List C) : Pipes P K C :=
  { s with content := Function.update s.content k cs }

/-- `p` closes the read end of `k`. -/
def closeRead [DecidableEq P] (s : Pipes P K C) (p : P) (k : K) : Pipes P K C :=
  { s with reads := Function.update s.reads p (Function.update (s.reads p) k false) }

/-- `p` closes the write end of `k`. -/
def closeWrite [DecidableEq P] (s : Pipes P K C) (p : P) (k : K) : Pipes P K C :=
  { s with writes := Function.update s.writes p (Function.update (s.writes p) k false) }

/-- A `read` of the pipe `k`; `none` is the end of file. -/
inductive Read (s : Pipes P K C) (k : K) : Option C → Pipes P K C → Prop where
  | data (c : C) (cs : List C) (h : s.content k = c :: cs) : Read s k (some c) (s.set k cs)
  | eof (h : s.content k = []) (hw : s.NoWriter k) : Read s k none s

/-- A `write` to the pipe `k`, which holds at most `cap` pieces; `false` is `EPIPE`. -/
inductive Write (cap : ℕ) (s : Pipes P K C) (k : K) (c : C) : Bool → Pipes P K C → Prop where
  | ok (hr : ¬ s.NoReader k) (h : (s.content k).length < cap) :
      Write cap s k c true (s.set k (s.content k ++ [c]))
  | epipe (hr : s.NoReader k) : Write cap s k c false s

/-- When a `read` blocks. -/
theorem not_read_iff : (¬ ∃ r t, Read s k r t) ↔ s.content k = [] ∧ ¬ s.NoWriter k := by
  constructor
  · intro h
    cases hk : s.content k with
    | nil => exact ⟨rfl, fun hw => h ⟨_, _, .eof hk hw⟩⟩
    | cons c cs => exact absurd ⟨_, _, .data c cs hk⟩ h
  · rintro ⟨hk, hw⟩ ⟨r, t, h⟩
    cases h with
    | data c cs h => rw [hk] at h; cases h
    | eof _ h => exact hw h

/-- When a `write` blocks. -/
theorem not_write_iff {cap : ℕ} :
    (¬ ∃ b t, Write cap s k c b t) ↔ ¬ s.NoReader k ∧ cap ≤ (s.content k).length := by
  constructor
  · intro h
    have hr : ¬ s.NoReader k := fun hr => h ⟨_, _, .epipe hr⟩
    exact ⟨hr, Nat.not_lt.mp fun hlt => h ⟨_, _, .ok hr hlt⟩⟩
  · rintro ⟨hr, hle⟩ ⟨b, t, h⟩
    cases h with
    | ok _ hlt => exact absurd hlt (Nat.not_lt.mpr hle)
    | epipe h => exact hr h

/-! ### Ends -/

theorem Read.reads {r : Option C} (h : Read s k r t) : t.reads = s.reads := by
  cases h <;> rfl

theorem Read.writes {r : Option C} (h : Read s k r t) : t.writes = s.writes := by
  cases h <;> rfl

theorem Write.reads {cap : ℕ} {b : Bool} (h : Write cap s k c b t) : t.reads = s.reads := by
  cases h <;> rfl

theorem Write.writes {cap : ℕ} {b : Bool} (h : Write cap s k c b t) : t.writes = s.writes := by
  cases h <;> rfl

section
variable [DecidableEq P]

theorem closeRead_reads {p q : P} {j : K} :
    (s.closeRead p k).reads q j = true ↔ s.reads q j = true ∧ ¬ (q = p ∧ j = k) := by
  by_cases hq : q = p
  · subst hq
    by_cases hj : j = k
    · subst hj; simp [closeRead]
    · simp [closeRead, hj]
  · simp [closeRead, hq]

/-- The others keep their ends. -/
theorem closeRead_of_ne {p q : P} (h : q ≠ p) : (s.closeRead p k).reads q = s.reads q :=
  Function.update_of_ne h ..

theorem closeWrite_of_ne {p q : P} (h : q ≠ p) : (s.closeWrite p k).writes q = s.writes q :=
  Function.update_of_ne h ..

/-- An end that is closed now was closed before, or is the one that was closed. -/
theorem closeRead_closed {p q : P} {j : K} (h : (s.closeRead p k).reads q j = false) :
    s.reads q j = false ∨ q = p ∧ j = k := by
  by_contra hno
  obtain ⟨hopen, hne⟩ := not_or.mp hno
  rw [closeRead_reads.mpr ⟨Bool.not_eq_false _ ▸ hopen, hne⟩] at h
  cases h

theorem closeWrite_writes {p q : P} {j : K} :
    (s.closeWrite p k).writes q j = true ↔ s.writes q j = true ∧ ¬ (q = p ∧ j = k) := by
  by_cases hq : q = p
  · subst hq
    by_cases hj : j = k
    · subst hj; simp [closeWrite]
    · simp [closeWrite, hj]
  · simp [closeWrite, hq]

theorem closeWrite_closed {p q : P} {j : K} (h : (s.closeWrite p k).writes q j = false) :
    s.writes q j = false ∨ q = p ∧ j = k := by
  by_contra hno
  obtain ⟨hopen, hne⟩ := not_or.mp hno
  rw [closeWrite_writes.mpr ⟨Bool.not_eq_false _ ▸ hopen, hne⟩] at h
  cases h

end

/-! ### What is in the pipes -/

section
variable [Fintype K]

/-- What is in all the pipes. -/
def all (s : Pipes P K C) : Multiset C := ∑ k, (s.content k : Multiset C)

theorem all_set (s : Pipes P K C) (k : K) (cs : List C) :
    (s.set k cs).all + (s.content k : Multiset C) = s.all + (cs : Multiset C) :=
  sum_update_add (fun cs : List C => (cs : Multiset C)) s.content k cs

theorem Read.all (h : Read s k (some c) t) : s.all = t.all + {c} := by
  cases h with
  | data _ cs h =>
      have hset := s.all_set k cs
      rw [h, ← Multiset.cons_coe, ← Multiset.singleton_add, ← add_assoc] at hset
      exact (add_right_cancel hset).symm

theorem Write.all {cap : ℕ} (h : Write cap s k c true t) : t.all = s.all + {c} := by
  cases h with
  | ok =>
      have hset := s.all_set k (s.content k ++ [c])
      rw [← Multiset.coe_add, add_comm (s.content k : Multiset C), ← add_assoc] at hset
      exact add_right_cancel hset

omit [DecidableEq K] in
/-- A pipe holds no more than all do. -/
theorem length_le_all (s : Pipes P K C) (k : K) : (s.content k).length ≤ s.all.card := by
  rw [all, Multiset.card_sum]
  exact Finset.single_le_sum (f := fun k => (s.content k : Multiset C).card)
    (fun _ _ => Nat.zero_le _) (Finset.mem_univ k)

end

end Pipes

end Support
