import Sop2.Support.Piped

/-!
# Support — Piped — tokens

What is in the pipes and in the hands of the processes, by weight: a piece in the pipe `k` weighs
`cost k`, and what a process has at a place weighs `weight p q`.

* `Step.weigh`: what one step does to the weight of all; it is a matter of the process that takes it.
* `State.only_hand`, `State.only_pipe`: where a single token is, and what is nowhere else.
-/

namespace Support.Piped

variable {P K C A L Q : Type*} [DecidableEq P] [DecidableEq K] [Fintype P] [Fintype K] {cap : ℕ}
  {op : P → Q → Op K C A L Q} {s t : State P K C Q} {l : P × Event K C L}

/-- What is in the pipes and in the hands. -/
def State.weigh (cost : K → ℕ) (weight : P → Q → ℕ) (s : State P K C Q) : ℕ :=
  ∑ k, (s.pipes.content k).length * cost k + ∑ p, weight p (s.pc p)

/-- What comes out of a pipe. -/
def Event.out (cost : K → ℕ) : Event K C L → ℕ
  | .read k _ => cost k
  | _ => 0

/-- What goes into a pipe. -/
def Event.into (cost : K → ℕ) : Event K C L → ℕ
  | .wrote k _ => cost k
  | _ => 0

variable {cost : K → ℕ} {weight : P → Q → ℕ}

theorem Event.Shifts.weigh {before after : K → List C} {e : Event K C L}
    (h : e.Shifts before after) :
    ∑ k, (after k).length * cost k + e.out cost =
      ∑ k, (before k).length * cost k + e.into cost := by
  cases e with
  | read k c =>
      have hcount := sum_update_at (fun j cs => cs.length * cost j) after k (c :: after k)
      rw [show before = _ from h]
      rw [List.length_cons, Nat.add_mul, Nat.one_mul] at hcount
      simp only [out, into]
      omega
  | wrote k c =>
      have hcount := sum_update_at (fun j cs => cs.length * cost j) before k (before k ++ [c])
      rw [show after = _ from h]
      rw [List.length_append, List.length_singleton, Nat.add_mul, Nat.one_mul] at hcount
      simp only [out, into]
      omega
  | eof | epipe | said =>
      rw [show after = before from h]
      rfl

omit [Fintype P] [Fintype K] in
/-- Where the operation has led. -/
theorem Step.goes_at (h : Step cap op s l t) : (op l.1 (s.pc l.1)).Goes l.2 (t.pc l.1) := by
  obtain ⟨q, hpc, hgoes⟩ := h.goes
  rwa [hpc, Function.update_self]

/-- **What one step does to the weight.** -/
theorem Step.weigh (h : Step cap op s l t) :
    t.weigh cost weight + l.2.out cost + weight l.1 (s.pc l.1) =
      s.weigh cost weight + l.2.into cost + weight l.1 (t.pc l.1) := by
  have hpipes : ∑ k, (t.pipes.content k).length * cost k + l.2.out cost =
      ∑ k, (s.pipes.content k).length * cost k + l.2.into cost := h.shifts.weigh
  obtain ⟨q, hpc, -⟩ := h.goes
  have hhands := sum_update_at weight s.pc l.1 q
  rw [← hpc] at hhands
  rw [State.weigh, State.weigh, hpc, Function.update_self, ← hpc]
  omega

/-! ### A single token -/

section
variable {weight : P → Q → ℕ} (h : s.weigh (fun _ => 1) weight ≤ 1)
include h

omit [DecidableEq P] [DecidableEq K] in
/-- Who has the only token: the pipes are empty, and the others have nothing. -/
theorem State.only_hand {p : P} (hp : 0 < weight p (s.pc p)) :
    (∀ k, s.pipes.content k = []) ∧ ∀ r ≠ p, weight r (s.pc r) = 0 := by
  classical
  have hsplit := Finset.add_sum_erase Finset.univ (fun p => weight p (s.pc p)) (Finset.mem_univ p)
  rw [State.weigh] at h
  refine ⟨fun k => ?_, fun r hr => ?_⟩
  · have hk := Finset.single_le_sum (f := fun k => (s.pipes.content k).length * 1)
      (fun _ _ => Nat.zero_le _) (Finset.mem_univ k)
    exact List.eq_nil_of_length_eq_zero (by omega)
  · have hmem : r ∈ Finset.univ.erase p := Finset.mem_erase.mpr ⟨hr, Finset.mem_univ r⟩
    have hle := Finset.single_le_sum (f := fun p => weight p (s.pc p)) (fun _ _ => Nat.zero_le _)
      hmem
    omega

omit [DecidableEq P] in
/-- The only token is in a pipe: the others are empty, and nobody has anything. -/
theorem State.only_pipe {k : K} (hk : s.pipes.content k ≠ []) :
    (s.pipes.content k).length = 1 ∧ (∀ j ≠ k, s.pipes.content j = []) ∧
      ∀ p, weight p (s.pc p) = 0 := by
  have hsplit := Finset.add_sum_erase Finset.univ (fun k => (s.pipes.content k).length * 1)
    (Finset.mem_univ k)
  have hpos := List.length_pos_iff.mpr hk
  rw [State.weigh] at h
  refine ⟨by omega, fun j hj => ?_, fun p => ?_⟩
  · have hmem : j ∈ Finset.univ.erase k := Finset.mem_erase.mpr ⟨hj, Finset.mem_univ j⟩
    have hle := Finset.single_le_sum (f := fun k => (s.pipes.content k).length * 1)
      (fun _ _ => Nat.zero_le _) hmem
    exact List.eq_nil_of_length_eq_zero (by omega)
  · have hle := Finset.single_le_sum (f := fun p => weight p (s.pc p)) (fun _ _ => Nat.zero_le _)
      (Finset.mem_univ p)
    omega

end

end Support.Piped
