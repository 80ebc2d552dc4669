import Mathlib.Logic.Relation
import Mathlib.Order.WellFounded
import Mathlib.Data.Fintype.BigOperators
import Sop2.Support.Tally
import Sop2.Lab05.Provinces.Endings

/-!
# Lab05 — Provinces — the cascade

When Casa Rosada closes its pipe the provinces should leave one after another.  A province waits for
the ends of all its inputs, so that those on a cycle of the graph wait for one another for ever
(`Stuck`): nobody is stuck exactly when the graph has no cycle (`cascade_law`), pipes of a province
to itself apart.

* `Stuck.before`: each province that waits has another before it that waits.
* `reaches_stuck`: if nothing is sent, the others leave, and those on a cycle are left.
-/

namespace Sop2.Provinces
open Support Support.Piped

variable {n cap : Nat} {μ σ : Type} {net : Net n μ σ} {s t : State n μ σ} {tr : Trace n μ σ}
  {p : Option (Fin n)} {i j : Fin n} {k : Pipe n} {q q' : Place n μ σ} {l : Loop n σ}

/-- `i` writes to an input of `j`. -/
def Before (pipe : Fin n → Fin n → Bool) (i j : Fin n) : Prop := pipe i j = true ∧ i ≠ j

/-- No cycle goes through two provinces or more. -/
def Acyclic (pipe : Fin n → Fin n → Bool) : Prop := ∀ i, ¬ Relation.TransGen (Before pipe) i i

/-- A province is in its loop, and each of its inputs may still be written to. -/
def Waits (s : State n μ σ) (i : Fin n) : Prop :=
  ∃ l, (s.pc (some i) = .check l ∨ ∃ rest, s.pc (some i) = .poll l rest) ∧
    l.ins ≠ [] ∧ ∀ k ∈ l.ins, ¬ s.pipes.NoWriter k

/-- Casa Rosada has closed its pipe and nothing is in a pipe, but some provinces are still running,
and all of them wait for the end of what others write. -/
structure Stuck (s : State n μ σ) : Prop where
  closed : s.has none (.write .boss) = false
  empty : ∀ k, s.pipes.content k = []
  running : ∃ i, s.pc (some i) ≠ .gone
  waiting : ∀ i, s.pc (some i) ≠ .gone → Waits s i

/-- The provinces leave one after another. -/
def Cascades (cap : Nat) (net : Net n μ σ) : Prop :=
  ∀ tr s, Run (Step cap net) net.begin tr s → ¬ Stuck s

/-! ### Without a cycle -/

/-- Once Casa Rosada has closed its pipe it can write to no other. -/
theorem boss_writes (hq : net.of none q) (h : net.holds none q (.write .boss) = false) (i j : Fin n) :
    net.holds none q (.write (.edge i j)) = false := by
  induction q with
  | closing es next ih =>
      obtain ⟨-, hnext, rfl | hown⟩ := hq
      · simp [Net.holds, Net.work, Net.own, beside] at h
      · simp only [Net.holds, beside, Bool.or_eq_false_iff, decide_eq_false_iff_not] at h ⊢
        refine ⟨ih hnext h.1, fun hmem => ?_⟩
        cases hown _ hmem
  | openFifo | fifo | inject => cases h
  | collect | waiting | done | gone => rfl
  | check | poll | print | relay | report => rfl

/-- Where a province waits, what it has open is what it says. -/
theorem Waits.holds (h : Waits s i) (ht : Tidy net.of net.holds s) :
    ∃ l : Loop n σ, l.Ok net i ∧ net.holds (some i) (s.pc (some i)) = l.holds net i ∧ l.ins ≠ [] ∧
      ∀ k ∈ l.ins, ¬ s.pipes.NoWriter k := by
  obtain ⟨l, hpc, hins, hwait⟩ := h
  have hof := ht.ok (some i)
  rcases hpc with hpc | ⟨rest, hpc⟩ <;> rw [hpc] at hof ⊢ <;>
    (obtain ⟨_, ⟨⟩, hl⟩ := hof; exact ⟨l, hl, rfl, hins, hwait⟩)

/-- Only the province where a pipe begins writes to it when all are stuck. -/
theorem Stuck.writer (hs : Stuck s) (ht : Tidy net.of net.holds s) {p : Option (Fin n)}
    (h : net.holds p (s.pc p) (.write k) = true) (hk : k ≠ .reports) :
    ∃ i j, k = .edge i j ∧ p = some i ∧ s.pc (some i) ≠ .gone := by
  cases p with
  | none =>
      have hclosed : net.holds none (s.pc none) (.write .boss) = false := by
        rw [← ht.has]
        exact hs.closed
      cases k with
      | boss => rw [hclosed] at h; cases h
      | edge i j => rw [boss_writes (ht.ok none) hclosed] at h; cases h
      | reports => exact absurd rfl hk
  | some a =>
      have ha : s.pc (some a) ≠ .gone := by
        intro hgone
        rw [hgone] at h
        cases h
      obtain ⟨l, -, hholds, -⟩ := Waits.holds (hs.waiting a ha) ht
      rw [hholds] at h
      cases k with
      | boss => cases h
      | edge i j =>
          obtain ⟨rfl, -⟩ := of_decide_eq_true h
          exact ⟨i, j, rfl, rfl, ha⟩
      | reports => exact absurd rfl hk

/-- A province that waits has another before it. -/
theorem Stuck.before (hs : Stuck s) (ht : Tidy net.of net.holds s) (hi : s.pc (some i) ≠ .gone) :
    ∃ j, s.pc (some j) ≠ .gone ∧ Before net.pipe j i := by
  obtain ⟨l, hl, -, hins, hwait⟩ := Waits.holds (hs.waiting i hi) ht
  obtain ⟨k, hk⟩ := List.exists_mem_of_ne_nil _ hins
  have hwriter : ∃ p, net.holds p (s.pc p) (.write k) = true := by
    by_contra hnone
    refine hwait k hk (ht.noWriter.mpr fun p => ?_)
    exact Bool.eq_false_iff.mpr fun h => hnone ⟨p, h⟩
  obtain ⟨p, hp⟩ := hwriter
  obtain ⟨j, rfl, hpipe, hji⟩ | ⟨rfl, -⟩ := mem_inputs.mp (hl.ins.subset hk)
  · obtain ⟨a, b, heq, rfl, ha⟩ := hs.writer ht hp nofun
    cases heq
    exact ⟨j, ha, hpipe, hji⟩
  · obtain ⟨a, b, heq, -⟩ := hs.writer ht hp nofun
    cases heq

theorem not_stuck_of_acyclic (hacyclic : Acyclic net.pipe) (r : Run (Step cap net) net.begin tr s) :
    ¬ Stuck s := by
  intro hs
  have ht := tidy r
  have : IsTrans (Fin n) (Relation.TransGen (Before net.pipe)) := ⟨fun _ _ _ => .trans⟩
  have : Std.Irrefl (Relation.TransGen (Before net.pipe)) := ⟨hacyclic⟩
  have hwf := Finite.wellFounded_of_trans_of_irrefl (Relation.TransGen (Before net.pipe))
  obtain ⟨i, hi, hmin⟩ := hwf.has_min { i | s.pc (some i) ≠ .gone } hs.running
  obtain ⟨j, hj, hji⟩ := hs.before ht hi
  exact hmin j hj (.single hji)

/-! ### With a cycle -/

/-- Nothing has been sent, and everybody is about to close something or where it waits: the
provinces in their loops, and Casa Rosada before or after it has closed its pipe. -/
def Net.rests (net : Net n μ σ) (p : Option (Fin n)) : Place n μ σ → Prop
  | .closing _ next => net.rests p next
  | .check l => ∃ i, p = some i ∧ l.outs = net.outputs i
  | .gone => ∃ i, p = some i
  | .openFifo => p = none
  | .fifo t => p = none ∧ t = 0
  | .collect => p = none ∧ net.report.isSome = true
  | .waiting => p = none ∧ net.report = none
  | _ => False

/-- How far a process is from waiting for ever. -/
def Place.toGo : Place n μ σ → Nat
  | .closing es next => es.length + 1 + next.toGo
  | .check l => l.ins.length + l.outs.length + 4
  | .openFifo => 4
  | .fifo _ => 3
  | _ => 0

/-- A state of a run in which nothing is sent; the provinces of `C` are on cycles. -/
structure Resting (cap : Nat) (net : Net n μ σ) (C : Fin n → Prop) (s : State n μ σ) : Prop where
  reached : ∃ tr, Run (Step cap net) net.begin tr s
  empty : ∀ k, s.pipes.content k = []
  rests : ∀ p, net.rests p (s.pc p)
  cycle : ∀ i, C i → ∃ j, C j ∧ Before net.pipe j i ∧ .edge j i ∈ (s.pc (some i)).ins

variable {C : Fin n → Prop}

theorem resting_begin (hC : ∀ i, C i → ∃ j, C j ∧ Before net.pipe j i) :
    Resting cap net C net.begin where
  reached := ⟨[], .refl _⟩
  empty _ := rfl
  rests p := by
    cases p with
    | none => rfl
    | some i => exact ⟨i, rfl, rfl⟩
  cycle i hi := by
    obtain ⟨j, hj, hpipe, hji⟩ := hC i hi
    exact ⟨j, hj, ⟨hpipe, hji⟩, mem_inputs.mpr (.inl ⟨j, rfl, hpipe, hji⟩)⟩

/-- A province on a cycle still has its outputs. -/
theorem Net.rests.writes (h : net.rests (some i) q) (hins : q.ins ≠ []) (hj : net.pipe i j = true) :
    net.holds (some i) q (.write (.edge i j)) = true := by
  induction q with
  | closing es next ih => simp [Net.holds, beside, ih h hins]
  | check l =>
      obtain ⟨_, ⟨⟩, houts⟩ := h
      exact decide_eq_true ⟨rfl, houts ▸ mem_outputs.mpr hj⟩
  | gone | openFifo | fifo | collect | waiting => exact absurd rfl hins
  | poll | print | relay | report | inject | done => exact h.elim

/-- The inputs of a cycle do not end. -/
theorem Resting.writer (hs : Resting cap net C s) (hi : C i) :
    ∃ j, C j ∧ Before net.pipe j i ∧ .edge j i ∈ (s.pc (some i)).ins ∧
      ¬ s.pipes.NoWriter (.edge j i) := by
  obtain ⟨j, hj, hji, hins⟩ := hs.cycle i hi
  refine ⟨j, hj, hji, hins, fun hnone => ?_⟩
  obtain ⟨tr, r⟩ := hs.reached
  obtain ⟨a, -, -, hjins⟩ := hs.cycle j hj
  have hopen := (hs.rests (some j)).writes (List.ne_nil_of_mem hjins) hji.1
  rw [(tidy r).noWriter.mp hnone (some j)] at hopen
  cases hopen

/-- One process has gone on, and is nearer to its end. -/
theorem Resting.next (hs : Resting cap net C s) (r : Run (Step cap net) s tr t)
    (hpc : t.pc = Function.update s.pc p q) (hempty : ∀ k, t.pipes.content k = [])
    (hq : net.rests p q) (hlt : q.toGo < (s.pc p).toGo)
    (hcycle : ∀ i, p = some i → ∀ k ∈ (s.pc (some i)).ins, ¬ s.pipes.NoWriter k → k ∈ q.ins) :
    Resting cap net C t ∧ ∑ p, (t.pc p).toGo < ∑ p, (s.pc p).toGo := by
  obtain ⟨tr₀, r₀⟩ := hs.reached
  refine ⟨⟨⟨_, r₀.trans r⟩, hempty, fun p' => ?_, fun i hi => ?_⟩, ?_⟩
  · rw [hpc]
    by_cases hp : p' = p
    · subst hp
      rwa [Function.update_self]
    · rw [Function.update_of_ne hp]
      exact hs.rests p'
  · obtain ⟨j, hj, hji, hins, hwriter⟩ := hs.writer hi
    refine ⟨j, hj, hji, ?_⟩
    rw [hpc]
    by_cases hp : some i = p
    · subst hp
      rw [Function.update_self]
      exact hcycle i rfl _ hins hwriter
    · rwa [Function.update_of_ne hp]
  · have hsum := sum_update_add (fun q : Place n μ σ => q.toGo) s.pc p q
    rw [hpc]
    omega

/-- A province looks at the rest of its inputs, in which there is nothing. -/
theorem poll_pass (l : Loop n σ) (rest : List (Pipe n)) (hpc : s.pc (some i) = .poll l rest)
    (hempty : ∀ k, s.pipes.content k = []) (hnodup : l.ins.Nodup) :
    ∃ (tr : Trace n μ σ) (t : State n μ σ) (ins : List (Pipe n)), Run (Step cap net) s tr t ∧
      t.pc = Function.update s.pc (some i) (Place.check { l with ins := ins }) ∧
      (∀ k, t.pipes.content k = []) ∧ ins.Sublist l.ins ∧
      (∀ k ∈ l.ins, ¬ s.pipes.NoWriter k → k ∈ ins) ∧
      ∀ k ∈ rest, s.pipes.NoWriter k → k ∉ ins := by
  induction rest generalizing s l with
  | nil =>
      have hstep : Step cap net s (some i, .said none) (s.go (some i) s.pipes (Place.check l)) :=
        .act (some i) none (Place.check l) (by rw [hpc]; rfl)
      exact ⟨_, _, l.ins, Run.one hstep, rfl, hempty, .refl _, fun _ h _ => h, nofun⟩
  | cons a rest ih =>
      by_cases ha : a ∈ l.ins
      · have hop : net.op (some i) (s.pc (some i)) = .read a (net.handle i l rest)
            (.closing [.read a] (.poll { l with ins := l.ins.erase a } rest))
            (some (.poll l rest)) := by
          rw [hpc]
          change net.province i (.poll l (a :: rest)) = _
          rw [Net.province, if_pos ha]
        by_cases hw : s.pipes.NoWriter a
        · -- the end of `a`, which is closed
          let u₁ : State n μ σ := s.go (some i) s.pipes
            (.closing [.read a] (.poll { l with ins := l.ins.erase a } rest))
          have hu₁ : Step cap net s (some i, .eof a) u₁ :=
            .eof (some i) a _ _ _ hop (hempty a) hw
          let u₂ : State n μ σ := u₁.go (some i) (closeEnd u₁.pipes (some i) (.read a))
            (.closing [] (.poll { l with ins := l.ins.erase a } rest))
          have hu₂ : Step cap net u₁ (some i, .said none) u₂ :=
            .close (some i) (.read a) _ (by simp only [u₁, State.go, Function.update_self]; rfl)
          let u₃ : State n μ σ := u₂.go (some i) u₂.pipes (.poll { l with ins := l.ins.erase a } rest)
          have hu₃ : Step cap net u₂ (some i, .said none) u₃ :=
            .act (some i) none _ (by simp only [u₂, State.go, Function.update_self]; rfl)
          obtain ⟨tr, t, ins, r, ht, htempty, hsub, hkeep, hdrop⟩ :=
            ih { l with ins := l.ins.erase a } (s := u₃) (Function.update_self ..) hempty
              (hnodup.erase a)
          refine ⟨_, t, ins, .cons hu₁ (.cons hu₂ (.cons hu₃ r)), ?_, htempty,
            hsub.trans (List.erase_sublist ..), fun k hk hkw => ?_, fun k hk hkw => ?_⟩
          · rw [ht]
            simp [u₃, u₂, u₁, State.go]
          · have hka : k ≠ a := fun h => hkw (h ▸ hw)
            exact hkeep k ((List.mem_erase_of_ne hka).mpr hk) hkw
          · rcases List.mem_cons.mp hk with rfl | hk
            · exact fun hin => hnodup.not_mem_erase (hsub.subset hin)
            · exact hdrop k hk hkw
        · let u : State n μ σ := s.go (some i) s.pipes (.poll l rest)
          have hu : Step cap net s (some i, .said none) u :=
            .again (some i) a _ _ _ hop (hempty a) hw
          obtain ⟨tr, t, ins, r, ht, htempty, hsub, hkeep, hdrop⟩ :=
            ih l (s := u) (Function.update_self ..) hempty hnodup
          refine ⟨_, t, ins, .cons hu r, ?_, htempty, hsub, hkeep, fun k hk hkw => ?_⟩
          · rw [ht]
            simp [u, State.go]
          · rcases List.mem_cons.mp hk with rfl | hk
            · exact absurd hkw hw
            · exact hdrop k hk hkw
      · let u : State n μ σ := s.go (some i) s.pipes (.poll l rest)
        have hu : Step cap net s (some i, .said none) u := .act (some i) none _ (by
          rw [hpc]
          change net.province i (.poll l (a :: rest)) = _
          rw [Net.province, if_neg ha])
        obtain ⟨tr, t, ins, r, ht, htempty, hsub, hkeep, hdrop⟩ :=
          ih l (s := u) (Function.update_self ..) hempty hnodup
        refine ⟨_, t, ins, .cons hu r, ?_, htempty, hsub, hkeep, fun k hk hkw => ?_⟩
        · rw [ht]
          simp [u, State.go]
        · rcases List.mem_cons.mp hk with rfl | hk
          · exact fun hin => ha (hsub.subset hin)
          · exact hdrop k hk hkw

/-- A province without inputs leaves its loop; if it reports, Casa Rosada reads the report. -/
theorem leave (r : Run (Step (cap + 1) net) net.begin tr s) (hpc : s.pc (some i) = .check l)
    (hins : l.ins = []) (hempty : ∀ k, s.pipes.content k = [])
    (hboss : net.report.isSome = true → s.pc none = .collect) :
    ∃ (tr' : Trace n μ σ) (t : State n μ σ), Run (Step (cap + 1) net) s tr' t ∧
      t.pc = Function.update s.pc (some i) (net.cleanup i l) ∧ ∀ k, t.pipes.content k = [] := by
  have hcheck : net.op (some i) (s.pc (some i)) =
      .act none (if net.report.isSome then .report l else net.cleanup i l) := by
    rw [hpc]
    change net.province i (.check l) = _
    rw [Net.province, if_pos hins]
  cases hf : net.report with
  | none =>
      rw [hf] at hcheck
      exact ⟨_, _, Run.one (.act (some i) none _ hcheck), rfl, hempty⟩
  | some f =>
      have hcollect := hboss (by rw [hf]; rfl)
      rw [hf] at hcheck
      let u₁ : State n μ σ := s.go (some i) s.pipes (Place.report l)
      have hu₁ : Step (cap + 1) net s (some i, .said none) u₁ := .act (some i) none _ hcheck
      have hreport : net.op (some i) (u₁.pc (some i)) =
          .write .reports (f i l.state) (net.cleanup i l) (net.cleanup i l) := by
        simp only [u₁, State.go, Function.update_self]
        change net.province i (.report l) = _
        rw [Net.province, hf]
      have hreader : ¬ s.pipes.NoReader .reports := by
        intro hnone
        have hopen := (tidy r).noReader.mp hnone none
        rw [hcollect] at hopen
        cases hopen
      let u₂ : State n μ σ := u₁.go (some i) (u₁.pipes.set Pipe.reports [f i l.state])
        (net.cleanup i l)
      have hu₂ : Step (cap + 1) net u₁ (some i, .wrote .reports (f i l.state)) u₂ := by
        refine .write (some i) _ _ _ _ _ hreport ?_
        have hnil : s.pipes.content .reports = [] := hempty .reports
        have hwrite : s.pipes.Write (cap + 1) .reports (f i l.state) true
            (s.pipes.set .reports (s.pipes.content .reports ++ [f i l.state])) :=
          .ok hreader (by rw [hnil]; exact Nat.succ_pos _)
        rwa [hnil] at hwrite
      let u₃ : State n μ σ := u₂.go none (u₂.pipes.set Pipe.reports []) Place.collect
      have hu₃ : Step (cap + 1) net u₂ (none, .read .reports (f i l.state)) u₃ := by
        have hread : u₂.pipes.Read .reports (some (f i l.state)) (u₂.pipes.set .reports []) :=
          .data _ [] (by simp [u₂, State.go, Pipes.set])
        have hop : net.op none (u₂.pc none) =
            .read .reports (fun _ => .collect) (.closing [.read .reports] .waiting) none := by
          simp only [u₂, u₁, State.go, ne_eq, reduceCtorEq, not_false_eq_true,
            Function.update_of_ne, hcollect]
          rfl
        exact .read none _ _ _ _ _ _ hop hread
      refine ⟨_, u₃, .cons hu₁ (.cons hu₂ (Run.one hu₃)), ?_, fun k => ?_⟩
      · simp only [u₃, u₂, u₁, State.go, Function.update_idem]
        rw [← hcollect, Function.update_comm (by simp), Function.update_eq_self]
      · simp only [u₃, u₂, u₁, State.go, Pipes.set]
        by_cases hk : k = .reports
        · simp [hk]
        · simp [hk, hempty]

/-- When all are in their loops or gone, either they are stuck or somebody finds an end. -/
theorem Resting.settled (hs : Resting (cap + 1) net C s) (hC : ∃ i, C i)
    (hnone : ∀ p es next, s.pc p ≠ .closing es next)
    (hboss : s.pc none = .collect ∨ s.pc none = .waiting)
    (hcollect : net.report.isSome = true → s.pc none = .collect) :
    Stuck s ∨ ∃ t, Resting (cap + 1) net C t ∧ ∑ p, (t.pc p).toGo < ∑ p, (s.pc p).toGo := by
  obtain ⟨tr, r⟩ := hs.reached
  have ht := tidy r
  have hcheck : ∀ i, s.pc (some i) ≠ .gone →
      ∃ l, s.pc (some i) = .check l ∧ l.Ok net i ∧ l.outs = net.outputs i := by
    intro i hi
    have hrests := hs.rests (some i)
    have hof := ht.ok (some i)
    cases hpc : s.pc (some i) with
    | check l =>
        rw [hpc] at hrests hof
        obtain ⟨_, ⟨⟩, hl⟩ := hof
        obtain ⟨_, ⟨⟩, houts⟩ := hrests
        exact ⟨l, rfl, hl, houts⟩
    | gone => exact absurd hpc hi
    | closing es next => exact absurd hpc (hnone _ es next)
    | openFifo => rw [hpc] at hrests; cases hrests
    | fifo | collect | waiting => rw [hpc] at hrests; cases hrests.1
    | poll | print | relay | report | inject | done => rw [hpc] at hrests; exact hrests.elim
  by_cases hwait : ∀ i, s.pc (some i) ≠ .gone → Waits s i
  · refine .inl ⟨?_, hs.empty, ?_, hwait⟩
    · rw [ht.has]
      rcases hboss with h | h <;> rw [h] <;> rfl
    · obtain ⟨i, hi⟩ := hC
      obtain ⟨j, -, -, hins⟩ := hs.cycle i hi
      refine ⟨i, fun hgone => ?_⟩
      rw [hgone] at hins
      cases hins
  · push Not at hwait
    obtain ⟨i, hi, hwait⟩ := hwait
    obtain ⟨l, hpc, hl, houts⟩ := hcheck i hi
    right
    by_cases hins : l.ins = []
    · obtain ⟨tr', t, r', htpc, hempty⟩ := leave r hpc hins hs.empty hcollect
      refine ⟨t, hs.next r' htpc hempty ⟨i, rfl⟩ ?_ ?_⟩
      · rw [hpc]
        cases hf : net.report <;> simp [Net.cleanup, hf, Place.toGo] <;> omega
      · rintro _ ⟨⟩ k hk
        rw [hpc] at hk
        change k ∈ l.ins at hk
        rw [hins] at hk
        cases hk
    · -- an input has ended
      obtain ⟨k, hk, hw⟩ : ∃ k ∈ l.ins, s.pipes.NoWriter k := by
        by_contra hnoEnd
        exact hwait ⟨l, .inl hpc, hins, fun k hk hw => hnoEnd ⟨k, hk, hw⟩⟩
      have hstep : Step (cap + 1) net s (some i, .said none)
          (s.go (some i) s.pipes (Place.poll l (net.inputs i))) := by
        refine .act (some i) none _ ?_
        rw [hpc]
        change net.province i (.check l) = _
        rw [Net.province, if_neg hins]
      obtain ⟨tr', t, ins, r', htpc, hempty, hsub, hkeep, hdrop⟩ :=
        @poll_pass n (cap + 1) μ σ net (s.go (some i) s.pipes (Place.poll l (net.inputs i))) i l
          (net.inputs i) (Function.update_self ..) hs.empty hl.nodup_ins
      have htpc' : t.pc = Function.update s.pc (some i) (Place.check { l with ins := ins }) := by
        rw [htpc, State.go, Function.update_idem]
      refine ⟨t, hs.next (.cons hstep r') htpc' hempty ⟨i, rfl, houts⟩ ?_ ?_⟩
      · rw [hpc]
        have hlt : ins.length < l.ins.length := by
          refine lt_of_le_of_ne hsub.length_le fun hlen => ?_
          rw [hsub.eq_of_length hlen] at hdrop
          exact hdrop k (hl.ins.subset hk) hw hk
        simp only [Place.toGo]
        omega
      · rintro _ ⟨⟩ k hk hw
        rw [hpc] at hk
        exact hkeep k hk hw

/-- As long as nobody is stuck, somebody can go on. -/
theorem Resting.progress (hs : Resting (cap + 1) net C s) (hC : ∃ i, C i) :
    Stuck s ∨ ∃ t, Resting (cap + 1) net C t ∧ ∑ p, (t.pc p).toGo < ∑ p, (s.pc p).toGo := by
  obtain ⟨tr, r⟩ := hs.reached
  by_cases hclosing : ∃ p es next, s.pc p = .closing es next
  · -- somebody is closing its ends
    obtain ⟨p, es, next, hpc⟩ := hclosing
    have hrests : net.rests p next := by
      have h := hs.rests p
      rw [hpc] at h
      exact h
    right
    cases es with
    | nil =>
        have hstep : Step (cap + 1) net s (p, .said none) (s.go p s.pipes next) :=
          .act p none next (by rw [hpc]; rfl)
        refine ⟨_, hs.next (.one hstep) rfl hs.empty hrests ?_ ?_⟩
        · rw [hpc]
          exact Nat.lt_add_of_pos_left (Nat.succ_pos _)
        · rintro i rfl k hk -
          rwa [hpc] at hk
    | cons e es =>
        have hstep : Step (cap + 1) net s (p, .said none)
            (s.go p (closeEnd s.pipes p e) (Place.closing es next)) :=
          .close p e _ (by rw [hpc]; rfl)
        refine ⟨_, hs.next (.one hstep) rfl (fun k => ?_) hrests ?_ ?_⟩
        · cases e <;> exact hs.empty k
        · rw [hpc]
          simp only [Place.toGo, List.length_cons]
          omega
        · rintro i rfl k hk -
          rwa [hpc] at hk
  · have hnone : ∀ p es next, s.pc p ≠ .closing es next := fun p es next h =>
      hclosing ⟨p, es, next, h⟩
    have hboss := hs.rests none
    cases hpc : s.pc none with
    | openFifo =>
        have hstep : Step (cap + 1) net s (none, .said none) (s.go none s.pipes (Place.fifo 0)) :=
          .act none none _ (by rw [hpc]; rfl)
        refine .inr ⟨_, hs.next (.one hstep) rfl hs.empty ⟨rfl, rfl⟩ ?_ nofun⟩
        rw [hpc]
        exact Nat.lt_succ_self _
    | fifo t =>
        have hstep : Step (cap + 1) net s (none, .said none) (s.go none s.pipes net.hangup) :=
          .ask none _ none none _ (by rw [hpc]; rfl) rfl
        refine .inr ⟨_, hs.next (.one hstep) rfl hs.empty ?_ ?_ nofun⟩
        · rw [Net.hangup]
          cases hf : net.report with
          | none => exact (⟨rfl, hf⟩ : none = none ∧ net.report = none)
          | some f => exact (⟨rfl, hf ▸ rfl⟩ : none = none ∧ net.report.isSome = true)
        · rw [hpc]
          cases hf : net.report <;> simp [Net.hangup, hf, Place.toGo]
    | collect =>
        rw [hpc] at hboss
        exact hs.settled hC hnone (.inl hpc) fun _ => hpc
    | waiting =>
        rw [hpc] at hboss
        refine hs.settled hC hnone (.inr hpc) fun h => ?_
        rw [hboss.2] at h
        cases h
    | closing es next => exact absurd hpc (hnone none es next)
    | check =>
        rw [hpc] at hboss
        obtain ⟨i, hi, -⟩ := hboss
        cases hi
    | gone =>
        rw [hpc] at hboss
        obtain ⟨i, hi⟩ := hboss
        cases hi
    | poll | print | relay | report | inject | done => rw [hpc] at hboss; exact hboss.elim

/-- **The provinces on a cycle are left.** -/
theorem reaches_stuck (hC : ∀ i, C i → ∃ j, C j ∧ Before net.pipe j i) (hne : ∃ i, C i) :
    ∃ (tr : Trace n μ σ) (s : State n μ σ), Run (Step (cap + 1) net) net.begin tr s ∧ Stuck s := by
  suffices h : ∀ (N : Nat) (s : State n μ σ), Resting (cap + 1) net C s →
      ∑ p, (s.pc p).toGo = N → ∃ (tr : Trace n μ σ) (t : State n μ σ),
        Run (Step (cap + 1) net) net.begin tr t ∧ Stuck t from
    h _ _ (resting_begin hC) rfl
  intro N
  induction N using Nat.strong_induction_on with
  | h N ih =>
      rintro s hs rfl
      rcases hs.progress hne with hstuck | ⟨t, ht, hlt⟩
      · obtain ⟨tr, r⟩ := hs.reached
        exact ⟨tr, s, r, hstuck⟩
      · exact ih _ hlt t ht rfl

/-- Those on a cycle with `i`. -/
theorem before_of_cycle {pipe : Fin n → Fin n → Bool} {a : Fin n}
    (h : Relation.TransGen (Before pipe) a i ∧ Relation.TransGen (Before pipe) i a) :
    ∃ j, (Relation.TransGen (Before pipe) a j ∧ Relation.TransGen (Before pipe) j a) ∧
      Before pipe j i := by
  obtain ⟨hai, hia⟩ := h
  obtain ⟨j, haj, hji⟩ := Relation.TransGen.tail'_iff.mp hai
  have hja : Relation.TransGen (Before pipe) j a := .head hji hia
  rcases Relation.reflTransGen_iff_eq_or_transGen.mp haj with rfl | haj
  · exact ⟨j, ⟨hja, hja⟩, hji⟩
  · exact ⟨j, ⟨haj, hja⟩, hji⟩

theorem cascades_iff (cap : Nat) (net : Net n μ σ) :
    Cascades (cap + 1) net ↔ Acyclic net.pipe := by
  constructor
  · intro h a hcycle
    obtain ⟨tr, s, r, hs⟩ : ∃ (tr : Trace n μ σ) (s : State n μ σ),
        Run (Step (cap + 1) net) net.begin tr s ∧ Stuck s :=
      reaches_stuck (C := fun i => Relation.TransGen (Before net.pipe) a i ∧
        Relation.TransGen (Before net.pipe) i a) (fun i hi => before_of_cycle hi) ⟨a, hcycle, hcycle⟩
    exact h tr s r hs
  · exact fun h tr s r => not_stuck_of_acyclic h r

/-- **The cascade.**  In either program all provinces leave, one after another, exactly when no cycle
goes through two provinces or more.  A pipe holds any number of messages, but one at least. -/
theorem cascade_law (cap n : Nat) :
    (∀ matrix : Fin n → Fin n → Int,
      Cascades (cap + 1) (generated matrix) ↔ Acyclic fun i j => decide (matrix i j = 1)) ∧
    ∀ routes : List (Route n),
      Cascades (cap + 1) (generatedHarder routes) ↔ Acyclic (routesMatrix routes) :=
  ⟨fun matrix => cascades_iff cap (generated matrix),
    fun routes => cascades_iff cap (generatedHarder routes)⟩

/-- Two provinces that write to each other. -/
def twoCycle (i j : Fin 2) : Int := if i = j then 0 else 1

def backAndForth : List (Route 2) := [⟨[0, 1, 0], "a"⟩]

theorem twoCycle_stuck :
    (∃ (tr : Trace 2 Directive UInt8) (s : State 2 Directive UInt8),
      Run (Step 1 (generated twoCycle)) (generated twoCycle).begin tr s ∧ Stuck s) ∧
    ∃ (tr : Trace 2 (Message 2) Int) (s : State 2 (Message 2) Int),
      Run (Step 1 (generatedHarder backAndForth)) (generatedHarder backAndForth).begin tr s ∧
        Stuck s := by
  constructor <;> refine reaches_stuck (C := fun _ => True) (fun i _ => ?_) ⟨0, trivial⟩ <;>
    refine ⟨1 - i, trivial, ?_, ?_⟩ <;> revert i <;> decide

end Sop2.Provinces
