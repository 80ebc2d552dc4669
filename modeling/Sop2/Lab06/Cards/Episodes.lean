import Sop2.Lab06.Cards.Barriers

/-!
# Lab06 — Cards — episodes

The invariant of the game with barriers.  `E` episodes have ended, of both barriers together; who
takes part in the server's round has arrived `E` times, or waits for the next episode; and each
barrier was initialised for as many as will arrive at it.

* `Sound`: the invariant.
* `Sound.arrives`: an arrival keeps what it says of the barriers.
* `Sound.inRound_next`: who takes part in the next round.
-/

namespace Sop2.Cards.Barriers
open Support Support.Shared

variable {n m E : Nat} {s t : State n} {j : Fin n} {d d' : Data n} {q q' : Player}
  {l : Option (Event n)} {p : Option (Fin n)}

/-! ### The places of the server -/

/-- `active`, once the server has counted. -/
def Server.counted : Server n → Option Nat
  | .destroyBegin _ active | .initBegin _ active | .arrive .game2 _ active
  | .inside .game2 _ active _ | .destroyGame _ active | .initGame _ active => some active
  | _ => none

/-- Whether the begin barrier has been initialised for the next round. -/
def Server.reopened : Server n → Bool
  | .arrive .game2 _ active | .inside .game2 _ active _ => decide (active ≠ 0)
  | .destroyGame _ _ | .initGame _ _ => true
  | _ => false

/-- The places where all have decided whether they go on. -/
def Server.settled : Server n → Bool
  | .count _ _ _ | .destroyBegin _ _ | .initBegin _ _ | .arrive .game2 _ _ | .inside .game2 _ _ _
  | .destroyGame _ _ | .initGame _ _ => true
  | _ => false

/-- The places after a `destroy`. -/
def Server.emptied : Server n → Bool
  | .initBegin _ _ | .initGame _ _ => true
  | _ => false

/-- The server plays a round. -/
def Server.Plays (m : Nat) (q : Server n) : Prop := q.round ≤ m ∧ ∀ i, q ≠ .ended i

/-- What can be said of the server by itself. -/
def Server.Valid : Server n → Prop
  | .arrive w _ active | .inside w _ active _ => w ≠ .game2 → active = 0
  | .destroyBegin _ active | .initBegin _ active | .destroyGame _ active
  | .initGame _ active => 0 < active
  | .crashed _ => False
  | _ => True

theorem Server.arrivals_le (q : Server n) : q.arrivals ≤ 4 := by
  cases q with
  | arrive w | inside w => cases w <;> simp [Server.arrivals, Wait.index]
  | _ => simp [Server.arrivals]

theorem Server.settled_of_counted {q : Server n} {active : Nat} (h : q.counted = some active) :
    q.settled = true := by
  cases q with
  | arrive w | inside w => cases w <;> first | rfl | cases h
  | _ => first | rfl | cases h

theorem Server.settled_of_reopened {q : Server n} (h : q.reopened = true) : q.settled = true := by
  cases q with
  | arrive w | inside w => cases w <;> first | rfl | cases h
  | _ => first | rfl | cases h

theorem Server.not_inside_of_emptied {q : Server n} (h : q.emptied = true) : q.isInside = false := by
  cases q <;> first | rfl | cases h

/-- The processes of the server's round. -/
def member (m : Nat) (s : State n) : Option (Fin n) → Bool
  | none => true
  | some j => inRound m s j

/-! ### The invariant -/

/-- What holds after `E` episodes. -/
structure Sound (m E : Nat) (s : State n) : Prop where
  alternate : Alternate E (standing s) s.data.barrier
  server_ge : E ≤ s.server.standing.arrivals
  ge : ∀ j, inRound m s j = true → E ≤ (s.client j).standing.arrivals
  ticket : ∀ w i active ticket, s.server = .inside w i active ticket →
    ticket = (s.server.standing.arrivals - 1) / 2
  tickets : ∀ j w, (s.client j).stage = .inside w →
    (s.client j).ticket = ((s.client j).standing.arrivals - 1) / 2
  round_pos : 1 ≤ s.server.round
  round_le : s.server.round ≤ m ∨ s.server = .head (m + 1) ∨ ∃ i, s.server = .ended i
  server : s.server.Valid
  valid : ∀ j, (s.client j).Valid m
  undecided : ∀ j, (s.client j).stage.undecided = true → (s.data.playerData j).active = .playing
  left : ∀ j, (s.client j).stage = .left → (s.data.playerData j).active = .resigned
  cards : ∀ j, 0 < (s.client j).draws → 0 < (s.data.playerData j).card
  /-- Who is still inside takes part in the round. -/
  clear : s.server.Plays m →
    ∀ j, (s.client j).stage.isInside = true → base s < (s.client j).standing.arrivals
  /-- Who is behind has resigned, and leaves. -/
  gone : ∀ j, (s.client j).standing.arrivals < base s →
    (s.data.playerData j).active = .resigned ∧
      ((s.client j).stage = .check ∨ (s.client j).stage = .left)
  gameCount : s.server.Plays m → (s.data.barrier true).count = tally id (member m s)
  beginCount : s.server.Plays m → (s.data.barrier false).count =
    if s.server.reopened then tally id (playing s.data.playerData) + 1 else tally id (member m s)
  /-- An episode ends when all have arrived. -/
  lt : E < base s + 4 → waiting E (standing s) < tally id (member m s)
  crowd : s.server.Plays m → 0 < tally id (inRound m s)
  scanning : ∀ i rest best, s.server = .scan i rest best →
    ∃ seen, seen ++ rest = List.finRange n ∧ HighestOf s.data.playerData seen best
  counting : ∀ i rest active, s.server = .count i rest active →
    ∃ seen, seen ++ rest = List.finRange n ∧
      active = (seen.filter (playing s.data.playerData)).length
  counted : ∀ active, s.server.counted = some active →
    active = tally id (playing s.data.playerData)
  emptied : s.server.emptied = true → lingering E (standing s) = 0
  ended : ∀ i, s.server = .ended i → ∀ j, inRound m s j = false

theorem inRound_iff : inRound m s j = true ↔ base s < (s.client j).standing.arrivals ∨
    (s.client j).standing.arrivals = base s ∧
      due m (s.data.playerData j).active (s.client j) = true := by
  simp [inRound]

theorem tally_member : tally id (member m s) = tally id (inRound m s) + 1 := by
  rw [tally_option, Nat.add_comm]
  rfl

/-! ### Where everybody is -/

namespace Sound

variable (hs : Sound m E s)
include hs

/-- Who is not inside has arrived in the episodes that have ended. -/
theorem arrivals_le (hin : (standing s p).inside = false) : (standing s p).arrivals ≤ E := by
  by_contra hlt
  have heq := le_antisymm (hs.alternate.le p) (not_le.mp hlt)
  rw [hs.alternate.inside p heq] at hin
  cases hin

theorem server_eq (hin : s.server.isInside = false) : s.server.standing.arrivals = E :=
  le_antisymm (hs.arrivals_le (p := none) hin) hs.server_ge

theorem base_le : base s ≤ E := by
  cases hin : s.server.isInside with
  | false =>
      have heq := hs.server_eq hin
      rw [← heq]
      exact Nat.le_add_right ..
  | true =>
      have hle : s.server.standing.arrivals ≤ E + 1 := hs.alternate.le none
      have hpos : 0 < s.server.arrivals := by
        generalize s.server = q at hin
        cases q <;> first | exact Nat.succ_pos _ | cases hin
      simp only [Server.standing] at hle
      simp only [base]
      omega

theorem le_base : E ≤ base s + 4 := by
  have hge := hs.server_ge
  have hle := s.server.arrivals_le
  simp only [Server.standing] at hge
  simp only [base]
  omega

/-- Who is due takes part. -/
theorem inRound_of_due (h : due m (s.data.playerData j).active (s.client j) = true) :
    inRound m s j = true := by
  rw [inRound_iff]
  rcases lt_trichotomy (s.client j).standing.arrivals (base s) with hlt | heq | hgt
  · obtain ⟨hresigned, hstage | hstage⟩ := hs.gone j hlt
    · simp [due, hstage, hresigned] at h
    · simp [due, hstage] at h
  · exact .inr ⟨heq, h⟩
  · exact .inl hgt

theorem client_eq (hin : (s.client j).stage.isInside = false)
    (h : due m (s.data.playerData j).active (s.client j) = true) :
    (s.client j).standing.arrivals = E :=
  le_antisymm (hs.arrivals_le (p := some j) hin) (hs.ge j (hs.inRound_of_due h))

/-- Who waits for the next episode takes part. -/
theorem member_of_waiting (h : (standing s p).arrivals = E + 1) : member m s p = true := by
  cases p with
  | none => rfl
  | some k =>
      have hle := hs.base_le
      exact inRound_iff.mpr (.inl (by
        change (s.client k).standing.arrivals = E + 1 at h
        omega))

/-- **An arrival**, in the round of the server. -/
theorem arrives (hplays : s.server.Plays m) (hA : (standing s p).arrivals = E)
    (hin : (standing s p).inside = false)
    (hp : member m s p = true)
    (hcount : (s.data.barrier (barrierOf E)).count = tally id (member m s)) :
    ∃ E', Alternate E' (Function.update (standing s) p ⟨E + 1, true⟩)
        (s.data.arrive (barrierOf E)).barrier ∧
      (E' = E ∨ E' = E + 1 ∧ ∀ r, member m s r = true →
        (Function.update (standing s) p ⟨E + 1, true⟩ r).arrivals = E + 1) ∧
      (E < base s + 4 → waiting E' (Function.update (standing s) p ⟨E + 1, true⟩) <
        tally id (member m s)) := by
  have harrived := hs.alternate.arrived (barrierOf E)
  rw [if_pos rfl] at harrived
  have hpos : 0 < tally id (member m s) := tally_pos id (a := none) rfl
  by_cases hfull : (s.data.barrier (barrierOf E)).arrived + 1 = (s.data.barrier (barrierOf E)).count
  · have hall := all_waiting
      (show ∀ r, (standing s r).arrivals = E + 1 → member m s r = true from
        fun r => hs.member_of_waiting) hp (by omega) (by rw [← harrived, hfull, hcount])
    refine ⟨E + 1, hs.alternate.fill hA hin hfull fun r hr hinr => ?_, .inr ⟨rfl, fun r hr => ?_⟩,
      fun _ => ?_⟩
    · cases r with
      | none => exact hall none rfl hr
      | some k => exact hall (some k) (inRound_iff.mpr (.inl (hs.clear hplays k hinr))) hr
    · by_cases hrp : r = p
      · rw [hrp, Function.update_self]
      · rw [Function.update_of_ne hrp]
        exact hall r hr hrp
    · refine lt_of_eq_of_lt (tally_eq_zero _ fun r => decide_eq_false fun hr => ?_) hpos
      rcases update_standing (standing s) p ⟨E + 1, true⟩ r with hr' | hr' <;> rw [hr'] at hr
      · exact absurd hr (by simp)
      · have := hs.alternate.le r
        omega
  · refine ⟨E, hs.alternate.arrive hA hin hfull, .inl rfl, fun hE => ?_⟩
    rw [waiting_arrive hA]
    have hlt := hs.lt hE
    rw [harrived, hcount] at hfull
    omega

theorem client_arrivals (h : due m (s.data.playerData j).active (s.client j) = true)
    (hin : (s.client j).stage.isInside = false) :
    E = 4 * ((s.client j).round - 1) + (s.client j).stage.arrivals :=
  (hs.client_eq hin h).symm

/-- In the last phases of a round nobody decides. -/
theorem settled_mod (h : s.server.settled = true) : E % 4 ≠ 2 := by
  have hge := hs.server_ge
  have hle : s.server.standing.arrivals ≤ E + 1 := hs.alternate.le none
  have heq := hs.server_eq
  generalize s.server = q at h hge hle heq
  cases q with
  | arrive w i active =>
      have heq := heq rfl
      cases w <;> cases h
      simp only [Server.standing, Server.arrivals, Wait.index] at heq
      omega
  | inside w i active ticket =>
      cases w <;> cases h
      simp only [Server.standing, Server.arrivals, Wait.index] at hge hle
      omega
  | count | destroyBegin | initBegin | destroyGame | initGame =>
      have heq := heq rfl
      simp only [Server.standing, Server.arrivals] at heq
      omega
  | _ => cases h

theorem le_of_reopened (h : s.server.reopened = true) : base s + 3 ≤ E := by
  have hmod := hs.settled_mod (Server.settled_of_reopened h)
  have hle : s.server.standing.arrivals ≤ E + 1 := hs.alternate.le none
  have harrivals : 3 ≤ s.server.arrivals := by
    generalize s.server = q at h
    cases q with
    | arrive w => cases w <;> first | exact le_rfl | cases h
    | inside w => cases w <;> first | exact le_rfl | exact Nat.le_succ 3 | cases h
    | destroyGame | initGame => exact Nat.le_succ 3
    | _ => cases h
  simp only [Server.standing] at hle
  simp only [base] at hmod ⊢
  omega

theorem scan_mod {i : Nat} {rest : List (Fin n)} {best : Int × Nat}
    (h : s.server = .scan i rest best) : E % 4 = 1 := by
  have heq := hs.server_eq (by rw [h]; rfl)
  rw [h] at heq
  simp only [Server.standing, Server.arrivals] at heq
  omega

theorem award_mod {i : Nat} {rest : List (Fin n)} {best : Int × Nat}
    (h : s.server = .award i rest best) : E % 4 = 1 := by
  have heq := hs.server_eq (by rw [h]; rfl)
  rw [h] at heq
  simp only [Server.standing, Server.arrivals] at heq
  omega

end Sound

theorem barrierOf_wait (w : Wait) (k : Nat) : barrierOf (4 * k + w.index) = w.barrier := by
  rw [Bool.eq_iff_iff, barrierOf, decide_eq_true_iff]
  cases w with
  | begin1 | begin2 => exact iff_of_false (by simp only [Wait.index]; omega) Bool.false_ne_true
  | game1 | game2 => exact iff_of_true (by simp only [Wait.index]; omega) rfl

/-- The episode that somebody who arrives next waits for. -/
theorem Sound.episode (hs : Sound m E s) : (s.data.barrier (barrierOf E)).episode = E / 2 := by
  rw [hs.alternate.episode, barrierOf]
  split
  · rw [decide_eq_true_iff] at *
    omega
  · rw [decide_eq_true_iff] at *
    omega

/-- Who leaves does so when its episode was the last one to end. -/
theorem Sound.leaves (hs : Sound m E s) {A : Nat} (hin : (standing s p).inside = true)
    (hA : (standing s p).arrivals = A + 1)
    (h : A / 2 < (s.data.barrier (barrierOf A)).episode) : E = A + 1 := by
  have hreleased := (hs.alternate.released_iff (p := p) (by omega)).mp (by rw [hA]; exact h)
  have hge := hs.alternate.ge p hin
  omega

/-- At the barrier of the last episode nobody waits. -/
theorem Sound.empty (hs : Sound m E s) {g : Bool} (hg : barrierOf E = !g) :
    (s.data.barrier g).arrived = 0 ∧ (s.data.barrier g).leaving = lingering E (standing s) := by
  have hne : g ≠ barrierOf E := by
    rw [hg]
    cases g <;> nofun
  have harrived := hs.alternate.arrived g
  have hleaving := hs.alternate.leaving g
  rw [if_neg hne] at harrived hleaving
  exact ⟨harrived, hleaving⟩

/-! ### Who takes part -/

/-- Who waits for the first episode of the next round plays. -/
theorem Sound.playing_of_ahead (hs : Sound m E s)
    (h : (s.client j).standing.arrivals = base s + 5) : playing s.data.playerData j = true := by
  have hundecided := hs.undecided j
  have hin := hs.alternate.inside (some j)
  have hle := hs.alternate.le (some j)
  have hbase := hs.le_base
  change (s.client j).standing.arrivals ≤ _ at hle
  change (s.client j).standing.arrivals = _ → (s.client j).stage.isInside = true at hin
  have hin := hin (by omega)
  refine decide_eq_true (hundecided ?_)
  generalize s.client j = q at h hin
  obtain ⟨stage, i, cards, last, ticket⟩ := q
  cases stage with
  | inside w =>
      simp only [Player.standing, Stage.arrivals, base] at h
      cases w <;> simp only [Wait.index] at h <;> first | rfl | omega
  | _ => cases hin

/-- The server plays, if it is neither at the head of its loop nor at the end. -/
theorem Sound.plays (hs : Sound m E s) (hhead : ∀ i, s.server ≠ .head i)
    (hended : ∀ i, s.server ≠ .ended i) : s.server.Plays m := by
  refine ⟨hs.round_le.resolve_right ?_, hended⟩
  rintro (h | ⟨i, h⟩)
  · exact hhead _ h
  · exact hended i h

/-- Who does not take part in the round of the server has resigned, and leaves. -/
theorem Sound.resigned_of_not_inRound (hs : Sound m E s) (hplays : s.server.Plays m)
    (h : inRound m s j = false) :
    (s.data.playerData j).active = .resigned ∧
      ((s.client j).stage = .check ∨ (s.client j).stage = .left) := by
  by_cases hlt : (s.client j).standing.arrivals < base s
  · exact hs.gone j hlt
  have hnot : ¬ _ := fun hj => Bool.false_ne_true (h.symm.trans (inRound_iff.mpr hj))
  obtain ⟨hle, hdue⟩ := not_or.mp hnot
  have heq : (s.client j).standing.arrivals = base s :=
    le_antisymm (not_lt.mp hle) (not_lt.mp hlt)
  have hdue : due m (s.data.playerData j).active (s.client j) = false :=
    Bool.eq_false_iff.mpr fun hd => hdue ⟨heq, hd⟩
  have hvalid := hs.valid j
  have hleft := hs.left j
  have hclear := hs.clear hplays j
  have hround := hplays.1
  have hpos := hs.round_pos
  generalize s.client j = q at heq hdue hvalid hleft hclear
  obtain ⟨stage, i, cards, last, ticket⟩ := q
  simp only [Player.standing, base] at heq hclear
  cases stage with
  | left => exact ⟨hleft rfl, .inr rfl⟩
  | check =>
      refine ⟨?_, .inl rfl⟩
      have hnot := of_decide_eq_false hdue
      simp only [Stage.arrivals] at heq
      cases hactive : (s.data.playerData j).active with
      | resigned => rfl
      | playing => exact absurd ⟨hactive, by dsimp only; omega⟩ hnot
  | finished =>
      have := hvalid.finished rfl
      simp only [Stage.arrivals] at heq this
      omega
  | failed => exact absurd rfl hvalid.failed
  | draw =>
      have hnot := of_decide_eq_false hdue
      have := hvalid.round_pos
      simp only [Stage.arrivals] at heq hnot this
      omega
  | inside w => exact absurd heq (hclear rfl).ne'
  | arrive | readScore | decide => cases hdue

theorem Sound.inRound_of_playing (hs : Sound m E s) (hplays : s.server.Plays m)
    (h : playing s.data.playerData j = true) : inRound m s j = true := by
  cases hin : inRound m s j with
  | true => rfl
  | false =>
      have hresigned := (hs.resigned_of_not_inRound hplays hin).1
      rw [of_decide_eq_true h] at hresigned
      cases hresigned

/-- After the four episodes of a round, the next round is for those who play. -/
theorem Sound.inRound_next {q : Server n} (hs : Sound m E s) (hplays : s.server.Plays m)
    (hE : E = base s + 4) (hq : q.round = s.server.round + 1)
    (hrows : d'.playerData = s.data.playerData) :
    inRound m ⟨d', q, s.client⟩ j =
      (playing s.data.playerData j && decide (s.server.round + 1 ≤ m)) := by
  have hpos := hs.round_pos
  have hbase : base ⟨d', q, s.client⟩ = E := by
    rw [hE]
    simp only [base, hq]
    omega
  have hround : E = 4 * s.server.round := by
    rw [← hbase]
    simp only [base, hq, Nat.add_sub_cancel]
  have hvalid := hs.valid j
  rw [Bool.eq_iff_iff, inRound_iff, Bool.and_eq_true, decide_eq_true_iff, hbase, hrows]
  dsimp only
  constructor
  · rintro (hlt | ⟨heq, hdue⟩)
    · have hA : (s.client j).standing.arrivals = E + 1 :=
        le_antisymm (hs.alternate.le (some j)) hlt
      refine ⟨hs.playing_of_ahead (by rw [hA, hE]), ?_⟩
      have hin : (s.client j).stage.isInside = true := hs.alternate.inside (some j) hA
      generalize s.client j = q at hA hin hvalid
      obtain ⟨stage, i, cards, last, ticket⟩ := q
      cases stage with
      | inside w =>
          have hle := hvalid.round_le
          have hw : w.index < 4 := by cases w <;> decide
          have := hvalid.round_pos
          simp only [Player.standing, Stage.arrivals, reduceCtorEq, or_self, and_false, or_false]
            at hA hle this
          omega
      | _ => cases hin
    · have hundecided := hs.undecided j
      have hactive : (s.data.playerData j).active = .playing ∧ s.server.round + 1 ≤ m := by
        generalize s.client j = q at heq hdue hvalid hundecided
        obtain ⟨stage, i, cards, last, ticket⟩ := q
        have hi := hvalid.round_pos
        have hle := hvalid.round_le
        simp only [Player.standing] at heq hi hle
        cases stage with
        | inside w =>
            simp only [Stage.arrivals] at heq
            cases w <;> simp only [Wait.index] at heq <;> first | omega | skip
            have hdue := of_decide_eq_true hdue
            exact ⟨hdue.1, by have := hdue.2; dsimp only at this; omega⟩
        | check =>
            simp only [Stage.arrivals] at heq
            have hdue := of_decide_eq_true hdue
            exact ⟨hdue.1, by have := hdue.2; dsimp only at this; omega⟩
        | draw =>
            simp only [Stage.arrivals] at heq
            have hdue := of_decide_eq_true hdue
            exact ⟨hundecided rfl, by dsimp only at hdue; omega⟩
        | arrive w =>
            simp only [Stage.arrivals] at heq
            simp only [reduceCtorEq, or_self, and_false, or_false] at hle
            cases w <;> simp only [Wait.index] at heq <;> first | omega | skip
            exact ⟨hundecided rfl, by omega⟩
        | readScore | decide => simp only [Stage.arrivals] at heq; omega
        | left | finished | failed => cases hdue
      exact ⟨decide_eq_true hactive.1, hactive.2⟩
  · rintro ⟨hplaying, hm⟩
    have hge := hs.ge j (hs.inRound_of_playing hplays hplaying)
    rcases Nat.eq_or_lt_of_le hge with heq | hlt
    · refine .inr ⟨heq.symm, ?_⟩
      have hactive := of_decide_eq_true hplaying
      have hleft := hs.left j
      rw [hactive] at hleft
      generalize s.client j = q at heq hvalid hleft
      obtain ⟨stage, i, cards, last, ticket⟩ := q
      have hi := hvalid.round_pos
      simp only [Player.standing] at heq hi
      cases stage with
      | inside w =>
          simp only [Stage.arrivals] at heq
          cases w <;> first | rfl | skip
          simp only [Wait.index] at heq
          exact decide_eq_true ⟨hactive, by dsimp only; omega⟩
      | check =>
          simp only [Stage.arrivals] at heq
          exact decide_eq_true ⟨hactive, by dsimp only; omega⟩
      | draw =>
          simp only [Stage.arrivals] at heq
          exact decide_eq_true (by dsimp only; omega)
      | arrive | readScore | decide => rfl
      | left => cases hleft rfl
      | finished =>
          have := hvalid.finished rfl
          simp only [Stage.arrivals] at heq this
          omega
      | failed => exact absurd rfl hvalid.failed
    · exact .inl hlt

/-- While the server looks at the cards, all who take part have drawn and none has decided. -/
theorem Sound.laid (hs : Sound m E s) (hE : E = base s + 1) (h : inRound m s j = true) :
    playing s.data.playerData j = true ∧ (s.client j).draws = s.server.round ∧
      0 < (s.data.playerData j).card ∧ (s.client j).round = s.server.round ∧
      (s.client j).stage.hasRead = false := by
  have hge := hs.ge j h
  have hle := hs.alternate.le (some j)
  have hin := hs.alternate.inside (some j)
  change (s.client j).standing.arrivals ≤ _ at hle
  change (s.client j).standing.arrivals = _ → (s.client j).stage.isInside = true at hin
  have hcards := hs.cards j
  have hundecided := hs.undecided j
  have hpos := hs.round_pos
  have hvalid := (hs.valid j).round_pos
  generalize s.client j = q at hge hle hin hcards hundecided hvalid
  obtain ⟨stage, i, cards, last, ticket⟩ := q
  have hstage : i = s.server.round ∧ stage.hasDrawn = true ∧ stage.undecided = true ∧
      stage.hasRead = false := by
    simp only [Player.standing, base] at hge hle hin hE hvalid
    cases stage with
    | arrive w =>
        simp only [Stage.arrivals] at hge hle hin
        cases w with
        | begin2 =>
            simp only [Wait.index] at hge hle hin
            exact Bool.noConfusion (hin (by omega))
        | _ => simp only [Wait.index] at hge hle; first | omega | exact ⟨by omega, rfl, rfl, rfl⟩
    | inside w =>
        simp only [Stage.arrivals] at hge hle
        cases w <;> simp only [Wait.index] at hge hle <;>
          first | omega | exact ⟨by omega, rfl, rfl, rfl⟩
    | readScore | decide =>
        simp only [Stage.arrivals] at hge hle hin
        exact Bool.noConfusion (hin (by omega))
    | draw | check | left | finished | failed => simp only [Stage.arrivals] at hge hle; omega
  obtain ⟨rfl, hdrawn, hstage, hread⟩ := hstage
  have hdraws : Player.draws ⟨stage, s.server.round, cards, last, ticket⟩ = s.server.round := by
    simp only [Player.draws, hdrawn, Bool.toNat_true]
    omega
  exact ⟨decide_eq_true (hundecided hstage), hdraws, hcards (by omega), rfl, hread⟩

/-- Somebody plays. -/
theorem Sound.exists_playing (hs : Sound m E s) (hplays : s.server.Plays m) (hE : E = base s + 1) :
    ∃ j, playing s.data.playerData j = true := by
  obtain ⟨j, hj⟩ := Finset.card_pos.mp (hs.crowd hplays)
  exact ⟨j, (hs.laid hE (Finset.mem_filter.mp hj).2).1⟩

/-- After the last round nobody takes part. -/
theorem Sound.last_round (hs : Sound m E s) (h : s.server.round = m + 1) :
    inRound m s j = false := by
  refine Bool.eq_false_iff.mpr fun hj => ?_
  have hvalid := hs.valid j
  rw [inRound_iff] at hj
  generalize s.client j = q at hj hvalid
  obtain ⟨stage, i, cards, last, ticket⟩ := q
  have hle := hvalid.round_le
  have hpos := hvalid.round_pos
  simp only [Player.standing, base, h, Nat.add_sub_cancel] at hj hle hpos
  cases stage with
  | draw =>
      simp only [Stage.arrivals, due, decide_eq_true_iff] at hj
      omega
  | inside w | arrive w =>
      simp only [reduceCtorEq, or_self, and_false, or_false] at hle
      cases w <;>
        simp only [Stage.arrivals, Wait.index, due, decide_eq_true_iff, and_true] at hj <;> omega
  | check | left | readScore | decide | finished | failed =>
      simp only [reduceCtorEq, or_self, and_false, or_false, or_true, and_true] at hle
      simp only [Stage.arrivals, due, decide_eq_true_iff, Bool.false_eq_true, and_false, or_false,
        and_true] at hj
      omega

end Sop2.Cards.Barriers
