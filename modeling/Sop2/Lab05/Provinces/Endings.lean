import Sop2.Lab05.Provinces.Network

/-!
# Lab05 — Provinces — the endings

What the two programs have in common about the ends of their pipes.  A province closes an input only
when it has ended (`eof_of_shut`); so a pipe with a writer still has its reader (`no_epipe`), and
nothing is left for a province that is gone (`ended_of_gone`).
-/

namespace Sop2.Provinces
open Support Support.Piped

variable {n cap : Nat} {μ σ : Type} {net : Net n μ σ} {s t : State n μ σ} {tr : Trace n μ σ}
  {p : Option (Fin n)} {i j : Fin n} {k : Pipe n} {q q' : Place n μ σ} {e : Seen n μ}
  {es : List (Seen n μ)}

/-- The inputs that a province has not closed. -/
def Place.ins : Place n μ σ → List (Pipe n)
  | .closing _ next => next.ins
  | .check l | .poll l _ | .print l _ _ _ | .relay l _ _ | .report l => l.ins
  | _ => []

theorem handle_ins (net : Net n μ σ) (i : Fin n) (l : Loop n σ) (rest : List (Pipe n)) (c : μ) :
    (net.handle i l rest c).ins = l.ins := by
  rw [Net.handle]
  split <;> rfl

/-- A province closes an input only at its end. -/
theorem ins_step (h : (net.op (some i) q).Goes e q') (hk : k ∈ q.ins) (hq : ∀ l, q ≠ .report l) :
    k ∈ q'.ins ∨ e = .eof k := by
  obtain ⟨fs, next, rfl⟩ | ⟨-, hop⟩ := op_cases net (some i) q
  · cases fs <;> (obtain ⟨-, rfl⟩ := h; exact .inl hk)
  · rw [hop] at h
    change (net.province i q).Goes e q' at h
    cases q with
    | check l =>
        simp only [Net.province] at h
        split at h
        next hins =>
          change k ∈ l.ins at hk
          rw [hins] at hk
          cases hk
        next => obtain ⟨-, rfl⟩ := h; exact .inl hk
    | poll l rest =>
        cases rest with
        | nil => obtain ⟨-, rfl⟩ := h; exact .inl hk
        | cons a rest =>
            simp only [Net.province] at h
            split at h
            · obtain ⟨c, -, rfl⟩ | ⟨rfl, rfl⟩ | ⟨-, h⟩ := h
              · exact .inl (handle_ins .. ▸ hk)
              · by_cases hka : k = a
                · exact .inr (hka ▸ rfl)
                · exact .inl ((List.mem_erase_of_ne hka).mpr hk)
              · cases h
                exact .inl hk
            · obtain ⟨-, rfl⟩ := h
              exact .inl hk
    | print l c out rest => obtain ⟨-, rfl⟩ := h; exact .inl hk
    | relay l out rest =>
        cases out with
        | nil => obtain ⟨-, rfl⟩ := h; exact .inl hk
        | cons jc out =>
            simp only [Net.province] at h
            split at h
            · obtain ⟨-, rfl⟩ | ⟨-, rfl⟩ := h
              · exact .inl hk
              · split <;> exact .inl hk
            · obtain ⟨-, rfl⟩ := h
              exact .inl hk
    | report l => exact absurd rfl (hq l)
    | closing | gone | openFifo | fifo | inject | collect | waiting | done => exact h.elim

/-- An input that a province has closed has ended. -/
theorem eof_of_shut (r : Run (Step cap net) net.begin tr s) (hk : k ∈ net.inputs i)
    (h : k ∉ (s.pc (some i)).ins) : Event.eof k ∈ events (some i) tr := by
  have hJ := locally (J := fun p es q => net.of p q ∧ ∀ i, p = some i → ∀ k ∈ net.inputs i,
      k ∉ q.ins → Event.eof k ∈ es) (G := fun _ _ => True)
    (fun {p es q e q'} hJ _ h => ⟨(op_keeps net).still hJ.1 h, fun i hp k hk hins => ?_⟩) r
    (fun p => ⟨(tidy_begin net).ok p, fun i hp k hk hins => ?_⟩) (fun _ _ => trivial) (some i)
  · exact hJ.2 i rfl k hk h
  · subst hp
    by_cases hkq : k ∈ q.ins
    · have hq : ∀ l, q ≠ .report l := by
        rintro l rfl
        obtain ⟨_, -, -, hl⟩ := hJ.1
        change k ∈ l.ins at hkq
        rw [hl] at hkq
        cases hkq
      have heof := (ins_step h hkq hq).resolve_left hins
      simp [heof]
    · exact List.mem_append_left _ (hJ.2 i rfl k hk hkq)
  · subst hp
    exact absurd hk hins

/-- The inputs that are not closed are open. -/
theorem reads_of_ins (hq : net.of (some i) q) (hk : k ∈ q.ins) :
    net.holds (some i) q (.read k) = true := by
  induction q with
  | closing es next ih => simp [Net.holds, beside, ih hq.2.1 hk]
  | check | poll | print | relay | report => exact decide_eq_true hk
  | gone | openFifo | fifo | inject | collect | waiting | done => cases hk

/-- **A pipe with a writer has its reader.** -/
theorem no_epipe (r : Run (Step cap net) net.begin tr s) (hk : k ∈ net.inputs i)
    (h : Step cap net s (p, .epipe k) t) : False := by
  have ht := tidy r
  cases h with
  | epipe _ _ c ok broken hop hr =>
      have hopen := ht.writes (op_keeps net) hop
      have hclosed := ht.noReader.mp hr (some i)
      by_cases hins : k ∈ (s.pc (some i)).ins
      · rw [reads_of_ins (ht.ok (some i)) hins] at hclosed
        cases hclosed
      · have hended := ended_of_eof (op_keeps net) (tidy_begin net) r (eof_of_shut r hk hins)
        rw [ht.noWriter.mp hended.2 p] at hopen
        cases hopen

/-- Nothing is left for a province that is gone. -/
theorem ended_of_gone (r : Run (Step cap net) net.begin tr s) (hk : k ∈ net.inputs i)
    (hgone : (s.pc (some i)).ins = []) : s.pipes.content k = [] ∧ s.pipes.NoWriter k :=
  ended_of_eof (op_keeps net) (tidy_begin net) r
    (eof_of_shut r hk (by rw [hgone]; exact List.not_mem_nil))

/-! ### Who uses the pipes -/

theorem Loop.Ok.own {l : Loop n σ} (hl : l.Ok net i) {f : End (Pipe n)}
    (h : l.holds net i f = true) : net.own (some i) f = true := by
  obtain k | (_ | ⟨a, b⟩ | _) := f
  · exact decide_eq_true (hl.ins.subset (of_decide_eq_true h))
  · cases h
  · obtain ⟨ha, hb⟩ := of_decide_eq_true h
    exact decide_eq_true ⟨ha, hl.outs.subset hb⟩
  · exact h

theorem own_of_holds (hq : net.of p q) (hclosing : ∀ es next, q ≠ .closing es next)
    {f : End (Pipe n)} (h : net.holds p q f = true) : net.own p f = true := by
  cases q with
  | closing es next => exact absurd rfl (hclosing es next)
  | check l | poll l rest | print l c out rest | relay l out rest =>
      obtain ⟨i, rfl, hl⟩ := hq
      exact hl.own h
  | report l =>
      obtain ⟨i, rfl, hl, -⟩ := hq
      exact hl.own h
  | openFifo | fifo | inject =>
      obtain rfl : p = none := hq
      exact h
  | collect =>
      obtain ⟨rfl, hreport⟩ := hq
      rw [of_decide_eq_true h]
      exact hreport
  | gone | waiting | done => cases h

/-- The processes use their own ends only. -/
theorem op_uses (hq : net.of p q) {f : End (Pipe n)} (h : (net.op p q).uses = some f) :
    net.own p f = true := by
  have hheld : net.holds p q f = true := by
    have hkeeps := (op_keeps net).keeps hq
    cases hop : net.op p q <;> rw [hop] at h hkeeps <;> cases h
    · exact hkeeps.1
    · exact hkeeps.1
  refine own_of_holds hq (fun es next hclosing => ?_) hheld
  subst hclosing
  cases es <;> cases h

section
variable (r : Run (Step cap net) net.begin tr s)
include r

/-- Only `i` writes to the pipes that begin at it. -/
theorem written_edge (i j : Fin n) :
    written (.edge i j) tr = (events (some i) tr).filterMap (Event.written? (.edge i j)) :=
  written_of_only (op_keeps net) (tidy_begin net) r fun p q hq h => by
    have hown := op_uses hq h
    cases p with
    | none => cases hown
    | some a => rw [(of_decide_eq_true hown).1]

/-- Only the province reads its inputs. -/
theorem taken_input (hk : k ∈ net.inputs i) :
    taken k tr = (events (some i) tr).filterMap (Event.taken? k) :=
  taken_of_only (op_keeps net) (tidy_begin net) r fun p q hq h => by
    have hown := op_uses hq h
    cases p with
    | none =>
        obtain ⟨j, rfl, -⟩ | ⟨rfl, -⟩ := mem_inputs.mp hk <;> cases hown
    | some a =>
        have ha := of_decide_eq_true hown
        obtain ⟨j, rfl, -⟩ | ⟨rfl, hi⟩ := mem_inputs.mp hk
        · obtain ⟨b, hb, -⟩ | ⟨h, -⟩ := mem_inputs.mp ha
          · cases hb
            rfl
          · cases h
        · obtain ⟨b, hb, -⟩ | ⟨-, ha⟩ := mem_inputs.mp ha
          · cases hb
          · rw [Fin.ext (ha.trans hi.symm)]

/-- Only Casa Rosada writes to its pipe. -/
theorem written_boss :
    written .boss tr = (events none tr).filterMap (Event.written? .boss) :=
  written_of_only (op_keeps net) (tidy_begin net) r fun p q hq h => by
    have hown := op_uses hq h
    cases p with
    | none => rfl
    | some a => cases hown

end

end Sop2.Provinces
