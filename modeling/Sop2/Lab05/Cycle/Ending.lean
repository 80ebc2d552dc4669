import Mathlib.Algebra.BigOperators.Ring.Finset
import Mathlib.Algebra.Group.Action.Defs
import Sop2.Lab05.Cycle.Number
import Sop2.Support.Rings

/-!
# Lab05 — Cycle — the end

How the processes of the ring come to an end, whatever signals come and when.

* `progress`: some process can go on, unless all have ended.  If all that have not ended waited for
  a number, they would wait for each other all round the ring, and the number would be nowhere
  (`pred_waits`).
* `winding_down`: once some process has left its loop, there is only so much that can still happen.
  The number cannot pass that process, so that what the others have still to do is measured by how
  far it is to there (`effort`).
* `no_err`: only a signal to the process 1 can make the first `write` fail.
-/

namespace Sop2.Cycle
open Support Support.Piped

variable {n : Nat} [NeZero n] {cap : Nat} {signalled : Fin n → Bool} {p : Fin n}
  {s t : State n} {l : Fin n × Seen n} {tr : List (Move (State n) (Fin n × Seen n))}

/-- Where all processes are, and the ends that they have open. -/
abbrev AllTidy (s : State n) : Prop :=
  Tidy (fun p : Fin n => SetUp.Ok (ok p) (ends p true true) (start p))
    (fun p => SetUp.holds (holds p) (ends p true true)) s

theorem tidy_run (r : Run (Step cap signalled) (begin n) tr s) : AllTidy s :=
  tidy_begin.run (keeps_op signalled) r

/-! ### Some process goes on -/

/-- The process waits for a number. -/
def Waits (s : State n) (p : Fin n) : Prop :=
  s.pc p = .working .reading ∧ s.pipes.content (p - 1) = [] ∧ ¬ s.pipes.NoWriter (p - 1)

/-- `main` waits for the others. -/
def Blocked (s : State n) (p : Fin n) : Prop :=
  s.pc p = .working .blocked ∧ ∃ r ≠ p, s.pc r ≠ .working .gone

/-- Who can write: the only number is not in the pipe. -/
theorem writes {buf : Buffer} {q q' : Place} (hcap : 0 < cap) (hs : Single s)
    (hp : 0 < hand p (s.pc p))
    (h : op signalled p (s.pc p) = .write p buf (.working q) (.working q')) :
    ∃ e t, Step cap signalled s (p, e) t := by
  by_cases hr : s.pipes.NoReader p
  · exact ⟨_, _, .epipe p p buf _ _ h hr⟩
  · have hempty := (State.only_hand hs.1 hp).1 p
    exact ⟨_, _, .write p p buf _ _ _ h (.ok hr (by rw [hempty]; exact hcap))⟩

/-- Something can always be drawn: a step of 0, or of -10 if that would overflow. -/
theorem exists_draw (buf : Buffer) : ∃ r val, draw buf r = some val := by
  obtain ⟨hlow, hhigh⟩ := atoi_range buf
  by_cases hsmall : atoi buf ≤ 0
  · exact ⟨10, _, if_pos ⟨⟨by omega, by omega⟩, ⟨by omega, by omega⟩⟩⟩
  · exact ⟨0, _, if_pos ⟨⟨by omega, by omega⟩, ⟨by omega, by omega⟩⟩⟩

/-- **What keeps a process**: it has ended, or it waits. -/
theorem goes_or_waits (hcap : 0 < cap) (hs : Single s) (p : Fin n) :
    (∃ e t, Step cap signalled s (p, e) t) ∨ s.pc p = .working .gone ∨ Waits s p ∨ Blocked s p := by
  cases hq : s.pc p with
  | closing es =>
      cases es with
      | nil => exact .inl ⟨_, _, .act p none _ (by rw [hq]; rfl)⟩
      | cons f es => exact .inl ⟨_, _, .close p f _ (by rw [hq]; rfl)⟩
  | working q =>
      cases q with
      | initial =>
          exact .inl (writes hcap hs (by rw [hq]; exact Nat.one_pos) (by rw [hq]; rfl))
      | check => exact .inl ⟨_, _, .ask p _ .quiet none (.working .reading) (by rw [hq]; rfl) rfl⟩
      | reading =>
          have hop : op signalled p (s.pc p) = .read (p - 1) (fun buf => .working (received buf))
              (.working (.leaving true))
              ((if signalled p then some (.leaving true) else none).map .working) := by rw [hq]; rfl
          cases hk : s.pipes.content (p - 1) with
          | cons c cs => exact .inl ⟨_, _, .read p _ _ _ _ c _ hop (.data c cs hk)⟩
          | nil =>
              by_cases hw : s.pipes.NoWriter (p - 1)
              · exact .inl ⟨_, _, .eof p _ _ _ _ hop hk hw⟩
              · exact .inr (.inr (.inl ⟨hq, hk, hw⟩))
      | got buf =>
          obtain ⟨r, val, hdraw⟩ := exists_draw buf
          refine .inl ⟨_, _, .ask p _ (.random r) (some (cString buf))
            (.working (.writing (number val))) (by rw [hq]; rfl) ?_⟩
          change Option.map _ (Option.map _ (draw buf r)) = _
          rw [hdraw]
          rfl
      | writing buf =>
          exact .inl (writes hcap hs (by rw [hq]; exact Nat.one_pos) (by rw [hq]; rfl))
      | broken => exact .inl ⟨_, _, .close p _ _ (by rw [hq]; rfl)⟩
      | leaving writeEnd => exact .inl ⟨_, _, .close p _ _ (by rw [hq]; rfl)⟩
      | closing writeEnd =>
          cases writeEnd with
          | true => exact .inl ⟨_, _, .close p _ _ (by rw [hq]; rfl)⟩
          | false => exact .inl ⟨_, _, .act p _ _ (by rw [hq]; rfl)⟩
      | out =>
          by_cases hp : p = 0
          · refine .inl ⟨_, _, .act p none (.working .waiting) ?_⟩
            rw [hq]
            change Op.map _ (if p = 0 then _ else _) = _
            rw [if_pos hp]
            rfl
          · refine .inl ⟨_, _, .exit p (.working .gone) ?_⟩
            rw [hq]
            change Op.map _ (if p = 0 then _ else _) = _
            rw [if_neg hp]
            rfl
      | waiting => exact .inl ⟨_, _, .ask p _ .quiet none (.working .blocked) (by rw [hq]; rfl) rfl⟩
      | blocked =>
          by_cases hall : ∀ r ≠ p, s.pc r = .working .gone
          · exact .inl ⟨_, _, .wait p (.working .gone) (by rw [hq]; rfl) fun r hr => by
              rw [hall r hr]; rfl⟩
          · simp only [not_forall] at hall
            obtain ⟨r, hr, hgone⟩ := hall
            exact .inr (.inr (.inr ⟨hq, r, hr, hgone⟩))
      | failed => exact .inl ⟨_, _, .exit p _ (by rw [hq]; rfl)⟩
      | gone => exact .inr (.inl rfl)

/-- Who waits for a number waits for the process before it; if that does not go on, it waits for a
number too. -/
theorem pred_waits (hs : AllTidy s)
    (hstuck : ∀ r, s.pc r = .working .gone ∨ Waits s r ∨ Blocked s r) (h : Waits s p) :
    Waits s (p - 1) := by
  obtain ⟨-, -, hw⟩ := h
  obtain ⟨r, hr⟩ := Pipes.not_noWriter.mp hw
  have hholds := congrFun (hs.has r) (.write (p - 1))
  rw [show s.has r (.write (p - 1)) = true from hr] at hholds
  rcases hstuck r with hgone | hwaits | ⟨hblocked, -⟩
  · rw [hgone] at hholds
    cases hholds
  · rw [hwaits.1] at hholds
    have hown : p - 1 = r := of_decide_eq_true hholds.symm
    rw [hown]
    exact hwaits
  · rw [hblocked] at hholds
    cases hholds

/-- **Some process goes on**, unless all have ended. -/
theorem progress (hcap : 0 < cap) (hT : AllTidy s) (hs : Single s) :
    (∀ p, s.pc p = .working .gone) ∨ ∃ l t, Step cap signalled s l t := by
  by_contra hno
  obtain ⟨hended, hstep⟩ := not_or.mp hno
  have hstuck : ∀ r, s.pc r = .working .gone ∨ Waits s r ∨ Blocked s r := fun r =>
    (goes_or_waits hcap hs r).resolve_left fun ⟨e, t, h⟩ => hstep ⟨_, _, h⟩
  by_cases hwaits : ∃ r, Waits s r
  · -- they all wait, and there is no number
    obtain ⟨r, hr⟩ := hwaits
    have hall := ring_induction_pred (fun r => pred_waits hT hstuck) hr
    have hone := hs.2 fun r => by rw [(hall r).1]; rfl
    have hpipes : ∀ k, s.pipes.content k = [] := fun k => by
      have hk := (hall (k + 1)).2.1
      rwa [add_sub_cancel_right] at hk
    have hzero : tokens s = 0 := by
      rw [tokens, State.weigh, Finset.sum_eq_zero fun k _ => by rw [hpipes k]; rfl,
        Finset.sum_eq_zero fun p _ => by rw [(hall p).1]; rfl, add_zero]
    rw [hzero] at hone
    cases hone
  · -- nobody waits but `main`, and that for somebody who has not ended
    obtain ⟨r, hr⟩ := not_forall.mp hended
    have hmain : ∀ r, s.pc r ≠ .working .gone → Blocked s r ∧ r = 0 := fun r hr => by
      have hblocked := ((hstuck r).resolve_left hr).resolve_left fun h => hwaits ⟨r, h⟩
      have hok := hT.ok r
      rw [hblocked.1] at hok
      exact ⟨hblocked, hok rfl⟩
    obtain ⟨⟨-, q, hne, hq⟩, rfl⟩ := hmain r hr
    exact hne (hmain q hq).2

/-! ### Winding down -/

/-- What a process has still to do, when the process `z` has left its loop. -/
def effort (z p : Fin n) : SetUp (Fin n) Place → Nat
  | .closing es => 4 * n + 12 + es.length
  | .working .initial => 4 * n + 11
  | .working .check => 10
  | .working .reading => 9
  | .working (.got _) => 4 * away z p + 8
  | .working (.writing _) => 4 * away z p + 7
  | .working q => q.rank

/-- What is still to be done with a number in the pipe `k`. -/
def cost (z k : Fin n) : Nat := 4 * away z (k + 1)

omit [NeZero n] in
theorem effort_of_left {z : Fin n} {q : Place} (h : q.left = true) :
    effort z p (.working q) = q.rank := by
  cases q <;> first | rfl | cases h

theorem rank_le (q : Place) : q.rank ≤ 6 := by
  cases q <;> simp [Place.rank]

/-- Every operation uses something up. -/
theorem effort_lt {z : Fin n} {q q' : SetUp (Fin n) Place} {e : Seen n}
    (h : (op signalled p q).Goes e q') (hz : p = z → left q = true) :
    effort z p q' + e.into (cost z) < effort z p q + e.out (cost z) := by
  rcases withSetUp_goes h with ⟨f, es, rfl, rfl, rfl⟩ | ⟨rfl, rfl, rfl⟩ | ⟨w, w', rfl, rfl, hgoes⟩
  · exact Nat.lt_succ_self _
  · change effort z p (.working (start p)) < 4 * n + 12
    rw [start]
    split
    · exact Nat.lt_succ_self _
    · change 10 < _
      omega
  · have hsucc : w.left = false → away z (p + 1) + 1 = away z p := fun hw =>
      away_succ fun hp => by
        have := hz hp
        rw [show left (.working w) = w.left from rfl, hw] at this
        cases this
    have hlt := away_lt z (p + 1)
    cases goes_moves hgoes with
    | winding q q' hq hq' hrank hmain hfailed =>
        rw [effort_of_left hq, effort_of_left hq']
        exact hrank
    | send =>
        change 10 + 4 * away z (p + 1) < 4 * n + 11
        omega
    | sendFails =>
        change 1 + 0 < 4 * n + 11
        omega
    | sigint _ => exact (by decide : 5 < 10)
    | quiet => exact (by decide : 9 < 10)
    | receive buf hbuf =>
        change 4 * away z p + 8 < 9 + 4 * away z (p - 1 + 1)
        rw [sub_add_cancel]
        omega
    | zero buf hbuf =>
        change 5 < 9 + 4 * away z (p - 1 + 1)
        omega
    | eof => exact (by decide : 5 < 9)
    | interrupted _ => exact (by decide : 5 < 9)
    | drawn buf r val hval => exact Nat.lt_succ_self _
    | write buf =>
        have := hsucc rfl
        change 10 + 4 * away z (p + 1) < 4 * away z p + 7
        omega
    | epipe buf =>
        change 6 < 4 * away z p + 7
        omega

/-- How much can still happen once some process has left its loop. -/
def windingDown (n : Nat) : Nat := n * (6 * n + 12) + 4 * n

theorem effort_le {z : Fin n} {q : SetUp (Fin n) Place}
    (hq : SetUp.Ok (ok p) (ends p true true) (start p) q) : effort z p q ≤ 6 * n + 12 := by
  have haway := away_lt z p
  cases q with
  | closing es =>
      have hlength : es.length ≤ (allEnds n).length :=
        (hq.1.nodup.subperm fun e _ => mem_allEnds e).length_le
      have hall : (allEnds n).length = 2 * n := by
        simp [allEnds, List.length_flatMap, Nat.mul_comm]
      change 4 * n + 12 + es.length ≤ _
      omega
  | working q =>
      cases hleft : q.left with
      | true =>
          rw [effort_of_left hleft]
          have := rank_le q
          omega
      | false =>
          cases q with
          | initial | check | reading | got buf | writing buf =>
              simp only [effort]
              omega
          | _ => cases hleft

/-- **Winding down.**  Once some process has left its loop, every run has an end. -/
theorem winding_down {z : Fin n} (hT : AllTidy s) (hs : Single s) (hz : left (s.pc z) = true)
    {tr : List (Move (State n) (Fin n × Seen n))} (r : Run (Step cap signalled) s tr t) :
    tr.length ≤ windingDown n := by
  have hrun := r.length_le (J := fun s => left (s.pc z) = true)
    (Φ := fun s => s.weigh (cost z) (effort z)) (fun hz h => left_step h hz)
    (fun {s l t} hz h => by
      have hweigh : t.weigh (cost z) (effort z) + l.2.out (cost z) + effort z l.1 (s.pc l.1) =
          s.weigh (cost z) (effort z) + l.2.into (cost z) + effort z l.1 (t.pc l.1) := h.weigh
      have hlt := effort_lt h.goes_at (z := z) fun hp => by rw [hp]; exact hz
      omega) hz
  -- there is one number at most, and it has at most `n` processes before it
  have hpipes : ∑ k, (s.pipes.content k).length * cost z k ≤ 4 * n := by
    have htokens : ∑ k, (s.pipes.content k).length * 1 ≤ 1 := (Nat.le_add_right _ _).trans hs.1
    calc ∑ k, (s.pipes.content k).length * cost z k
        ≤ ∑ k, (s.pipes.content k).length * 1 * (4 * n) :=
          Finset.sum_le_sum fun k _ => by
            rw [Nat.mul_one]
            exact Nat.mul_le_mul_left _ (Nat.mul_le_mul_left 4 (away_lt z (k + 1)).le)
      _ = (∑ k, (s.pipes.content k).length * 1) * (4 * n) := (Finset.sum_mul ..).symm
      _ ≤ 1 * (4 * n) := Nat.mul_le_mul_right _ htokens
      _ = 4 * n := Nat.one_mul _
  have hplaces : ∑ p, effort z p (s.pc p) ≤ n * (6 * n + 12) := by
    have hsum := Finset.sum_le_card_nsmul Finset.univ (fun p => effort z p (s.pc p)) (6 * n + 12)
      fun p _ => effort_le (hT.ok p)
    rwa [Finset.card_univ, Fintype.card_fin, smul_eq_mul] at hsum
  rw [State.weigh, State.weigh] at hrun
  rw [windingDown]
  omega

/-! ### The first message -/

/-- `main` has not sent the first number. -/
def unsent : SetUp (Fin n) Place → Bool
  | .closing _ | .working .initial => true
  | _ => false

/-- While the first number is not sent the process 1 is in its loop, or before it; and nobody has
failed. -/
structure FirstReader (s : State n) : Prop where
  reads : unsent (s.pc 0) = true → left (s.pc 1) = false
  noErr : ∀ r, s.pc r ≠ .working .failed

theorem hand_of_unsent {q : SetUp (Fin n) Place} (h : unsent q = true) : 0 < hand 0 q := by
  cases q with
  | closing es =>
      rw [hand, start, if_pos rfl]
      exact Nat.one_pos
  | working q =>
      cases q with
      | initial => exact Nat.one_pos
      | _ => cases h

/-- Who has not left its loop has its read end, and its write end. -/
theorem holds_of_not_left {q : SetUp (Fin n) Place} (h : left q = false) {e : End (Fin n)}
    (he : ends p true true e = true) : SetUp.holds (holds p) (ends p true true) q e = true := by
  cases q with
  | closing es =>
      change beside (ends p true true) es e = true
      rw [beside, he]
      rfl
  | working q =>
      cases q with
      | initial | check | reading | got buf | writing buf => exact he
      | _ => cases h

omit [NeZero n] in
theorem left_of_unsent {q : SetUp (Fin n) Place} (h : unsent q = true) : left q = false := by
  cases q with
  | closing es => rfl
  | working q =>
      cases q with
      | initial => rfl
      | _ => cases h

/-- Before the first number is sent, the pipe of the process 1 is empty, and nothing ends. -/
theorem FirstReader.step (hs : FirstReader s) (hT : AllTidy s) (hone : Single s)
    (hquiet : signalled 1 = false) (h : Step cap signalled s l t) : FirstReader t := by
  obtain ⟨r, e⟩ := l
  have hgoes : (op signalled r (s.pc r)).Goes e (t.pc r) := h.goes_at
  have hstays : ∀ q, q ≠ r → t.pc q = s.pc q := fun q hq => h.stays hq
  -- nobody finds the first pipe broken
  have hreader : unsent (s.pc 0) = true → ¬ s.pipes.NoReader 0 := fun hunsent hr => by
    have hopen := holds_of_not_left (p := 1) (e := .read 0) (hs.reads hunsent) (by simp [ends])
    rw [← hT.has 1, show s.has 1 (.read 0) = false from hr 1] at hopen
    cases hopen
  -- and nobody finds its end
  have hwriter : unsent (s.pc 0) = true → ¬ s.pipes.NoWriter 0 := fun hunsent hw => by
    have hopen := holds_of_not_left (p := 0) (e := .write 0) (left_of_unsent hunsent) (by simp [ends])
    rw [← hT.has 0, show s.has 0 (.write 0) = false from hw 0] at hopen
    cases hopen
  have hfails : s.pc r = .working .initial → e ≠ .epipe r := by
    rintro hq rfl
    have hok := hT.ok r
    rw [hq] at hok
    obtain rfl : r = 0 := hok rfl
    exact hreader (by rw [hq]; rfl) h.of_epipe
  have hunsent : unsent (t.pc 0) = true → unsent (s.pc 0) = true := fun hunsent => by
    by_cases h0 : r = 0
    · subst h0
      rcases withSetUp_goes hgoes with ⟨f, es, hq, -, hq'⟩ | ⟨hq, -, hq'⟩ | ⟨w, w', hq, hq', hwork⟩
      · rw [hq]
        rfl
      · rw [hq]
        rfl
      · rw [hq'] at hunsent
        cases w' with
        | initial =>
            cases goes_moves hwork with
            | winding _ _ hleft hleft' hrank hmain hfailed => cases hleft'
        | _ => cases hunsent
    · rwa [hstays 0 (Ne.symm h0)] at hunsent
  refine ⟨fun h0 => ?_, fun q hq => ?_⟩
  · have hbefore := hs.reads (hunsent h0)
    by_cases hr : r = 1
    · subst hr
      rcases withSetUp_goes hgoes with ⟨f, es, hq, -, hq'⟩ | ⟨hq, -, hq'⟩ | ⟨w, w', hq, hq', hwork⟩
      · rw [hq']
        rfl
      · rw [hq']
        exact start_left 1
      · have hempty := (State.only_hand hone.1 (hand_of_unsent (hunsent h0))).1 0
        rw [hq']
        cases goes_moves hwork with
        | sigint hsig | interrupted hsig => rw [hquiet] at hsig; cases hsig
        | sendFails => exact absurd rfl (hfails hq)
        | zero buf hbuf =>
            have hshift : s.pipes.content = _ := h.shifts
            have hzero := congrFun hshift (1 - 1)
            rw [sub_self, Function.update_self, hempty] at hzero
            cases hzero
        | eof =>
            rw [sub_self] at h
            exact absurd h.of_eof.2 (hwriter (hunsent h0))
        | epipe buf =>
            -- the process 1 has the number, and `main` has it too
            have hhand : 0 < hand 1 (s.pc 1) := by rw [hq]; exact Nat.one_pos
            by_cases h1 : (0 : Fin n) = 1
            · have h1' := hunsent h0
              rw [h1, hq] at h1'
              cases h1'
            · have hzero := (State.only_hand hone.1 hhand).2 0 h1
              exact absurd (hand_of_unsent (hunsent h0)) (by rw [hzero]; exact Nat.lt_irrefl 0)
        | winding q q' hleft hleft' hrank hmain hfailed =>
            rw [hq] at hbefore
            exact absurd (hbefore.symm.trans hleft) (by decide)
        | send | quiet | receive | drawn | write => rfl
    · rw [hstays 1 (Ne.symm hr)]
      exact hbefore
  · by_cases hr : q = r
    · subst hr
      rcases withSetUp_goes hgoes with ⟨f, es, -, -, hq'⟩ | ⟨-, -, hq'⟩ | ⟨w, w', hw, hq', hwork⟩
      · rw [hq] at hq'
        cases hq'
      · rw [hq, start] at hq'
        split at hq' <;> cases hq'
      · rw [hq] at hq'
        cases hq'
        cases goes_moves hwork with
        | sendFails => exact hfails hw rfl
        | winding q' _ hleft hleft' hrank hmain hfailed => exact hfailed rfl
    · exact hs.noErr q (by rw [← hstays q hr]; exact hq)

theorem firstReader_begin : FirstReader (begin n) := ⟨fun _ => rfl, fun _ h => nomatch h⟩

/-- **Only a signal to the process 1** can make the first `write` fail. -/
theorem no_err (hquiet : signalled 1 = false) (r : Run (Step cap signalled) (begin n) tr s) :
    ∀ p, s.pc p ≠ .working .failed := by
  suffices hall : FirstReader s ∧ AllTidy s ∧ Single s from hall.1.noErr
  refine r.invariant (I := fun s => FirstReader s ∧ AllTidy s ∧ Single s) ?_
    ⟨firstReader_begin, tidy_begin, single_begin⟩
  rintro s l t ⟨hs, hT, hone⟩ h
  exact ⟨hs.step hT hone hquiet h, hT.step (keeps_op signalled) h, hone.step h⟩

/-- **The end.**  In every reachable state some process can go on, unless all have ended.  Once some
process has left its loop, whatever the others do, not more than `windingDown n` things can still
happen; so all of them come to an end.  And while the process 1 is not sent `SIGINT`, nobody calls
`ERR`; `last_signal` is inherited over `fork`, so that a `SIGINT` that the process 0 got before it
forked the process 1 is one for the process 1 too. -/
theorem ending_law (hcap : 0 < cap) (r : Run (Step cap signalled) (begin n) tr s) :
    ((∀ p, s.pc p = .working .gone) ∨ ∃ l t, Step cap signalled s l t) ∧
    ((∃ z, left (s.pc z) = true) → ∀ tr' t, Run (Step cap signalled) s tr' t →
      tr'.length ≤ windingDown n) ∧
    (signalled 1 = false → ∀ p, s.pc p ≠ .working .failed) :=
  ⟨progress hcap (tidy_run r) (single_run r),
    fun ⟨_, hz⟩ _ _ r' => winding_down (tidy_run r) (single_run r) hz r',
    fun hquiet => no_err hquiet r⟩

/-- The process 2 has read the number 0, and from there it is not far to the end. -/
theorem ending_law_firstTurns : ∃ s : State 3, left (s.pc 2) = true ∧
    ∀ tr t, Run (Step 1 fun _ => false) s tr t → tr.length ≤ 102 := by
  have hplay : (play 1 (op fun _ => false) (begin 3) (firstTurns 0 1 2 9)).map
      (fun x => left (x.2.pc 2)) = some true := by decide
  obtain ⟨tr, s, r, h⟩ := play_map hplay
  exact ⟨s, h, (ending_law (by decide) r).2.1 ⟨2, h⟩⟩

end Sop2.Cycle
