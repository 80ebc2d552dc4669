import Sop2.Lab06.Cards.Rounds

/-!
# Lab06 — Cards — stale cards

When the server adds the points it compares every row with the highest card, also those of the
players that have resigned: their last card is still there.  So a round is scored as it should be
exactly when no such card is the highest of the round (`scoring_law`).  Two players show that it may
be: the first draws a card and resigns, and the second draws the same card in the next round
(`resigned_scores`).
-/

namespace Sop2.Cards.Barriers
open Support Support.Shared

variable {n m : Nat} {s : State n} {es : List (Event n)} {i : Nat} {j : Fin n}

/-- Whether `j` has drawn the highest card of round `i`. -/
def wins (i : Nat) (es : List (Event n)) (j : Fin n) : Bool := winner (fun k => cardIn i k es) j

/-- What `j` should get in round `i`. -/
def share (i : Nat) (es : List (Event n)) (j : Fin n) : Nat := portion (fun k => cardIn i k es) n j

/-- Whether `j` has no card of round `i`, but its last card is the highest of the round. -/
def stale (i : Nat) (es : List (Event n)) (j : Fin n) : Bool :=
  (cardIn i j es).isNone &&
    (drawn j es).getLast?.any fun c => decide (∃ k, wins i es k = true ∧ cardIn i k es = some c)

/-- Round `i` was scored as it should be. -/
def Fair (i : Nat) (es : List (Event n)) : Prop :=
  (∀ j, points i j es = share i es j) ∧ ∑ j, points i j es ≤ n

instance : Decidable (Fair i es) := inferInstanceAs (Decidable (_ ∧ _))

/-! ### The highest card of a round -/

namespace Outcome

variable {best : Int × Nat} (h : Outcome i es best)
include h

theorem exists_best : ∃ j, cardIn i j es = some best.1 := by
  have hpos := h.pos
  rw [h.count] at hpos
  obtain ⟨j, hj⟩ := Finset.card_pos.mp hpos
  exact ⟨j, of_decide_eq_true (Finset.mem_filter.mp hj).2⟩

theorem wins_eq (j : Fin n) : wins i es j = decide (cardIn i j es = some best.1) :=
  winner_eq h.upper h.exists_best

theorem share_eq (j : Fin n) :
    share i es j = if cardIn i j es = some best.1 then n / best.2 else 0 := by
  rw [share, portion_eq n h.upper h.exists_best, h.count]

theorem stale_iff (j : Fin n) : stale i es j = true ↔
    cardIn i j es = none ∧ (drawn j es).getLast? = some best.1 := by
  have hbest : ∀ c, (∃ k, wins i es k = true ∧ cardIn i k es = some c) ↔ c = best.1 := fun c => by
    constructor
    · rintro ⟨k, hwins, hk⟩
      rw [h.wins_eq, decide_eq_true_iff, hk] at hwins
      exact Option.some.inj hwins
    · rintro rfl
      obtain ⟨k, hk⟩ := h.exists_best
      exact ⟨k, by rw [h.wins_eq, hk, decide_eq_true rfl], hk⟩
  simp [stale, hbest, Option.any_eq_true]

/-- The number of those who win is not more than that of the players. -/
theorem prize_pos : 0 < n / best.2 := by
  refine Nat.div_pos ?_ h.pos
  rw [h.count]
  exact (tally_le_card id _).trans_eq (Fintype.card_fin n)

/-- **A round is scored as it should be exactly when there is no stale card.** -/
theorem fair_iff : Fair i es ↔ ∀ j, stale i es j = false := by
  constructor
  · rintro ⟨hpoints, -⟩ j
    refine Bool.eq_false_iff.mpr fun hstale => ?_
    obtain ⟨hnone, hlast⟩ := (h.stale_iff j).mp hstale
    have hj := hpoints j
    rw [h.points, h.share_eq, finds, decide_eq_true (.inr ⟨hnone, hlast⟩), if_pos rfl,
      if_neg (by simp [hnone])] at hj
    exact absurd hj h.prize_pos.ne'
  · intro hstale
    have hpoints : ∀ j, Cards.points i j es = share i es j := fun j => by
      rw [h.points, h.share_eq]
      refine if_congr ?_ rfl rfl
      rw [finds, decide_eq_true_iff]
      refine or_iff_left fun hj => ?_
      exact Bool.false_ne_true ((hstale j).symm.trans ((h.stale_iff j).mpr hj))
    refine ⟨hpoints, ?_⟩
    simp only [hpoints]
    exact sum_portion_le _ n

end Outcome

/-- **The scoring of the game with barriers.**  In every run, a round of which the points have been
added gave them to those who drew its highest card, in equal parts, exactly when no player that had
resigned before had that card as its last one. -/
theorem scoring_law (hn : 0 < n) {tr : List (Move (State n) (Option (Event n)))}
    (r : Run (Step m) (start n m) tr s) (hi : 1 ≤ i) (h : isOver s i) :
    Fair i (seen tr) ↔ ∀ j, stale i (seen tr) j = false := by
  obtain ⟨best, hbest⟩ := (record hn r).2.outcome i hi h
  exact hbest.fair_iff

/-- Two players for five rounds, in turns, up to the points of the second round. -/
def lastCardAgain : List (Option (Fin 2) × Nat) :=
  (List.replicate 33 [(none, 0), (some 0, 10), (some 1, 4)]).flatten

theorem lastCardAgain_run : ∃ (tr : List (Move (State 2) (Option (Event 2)))) (s : State 2),
    Run (Step 5) (start 2 5) tr s ∧ s.server.round = 2 ∧ s.server.published = true ∧
      seen tr = [.drew 0 1, .drew 1 5, .saw 1 0 1, .saw 1 1 5, .awarded 1 1 2, .scored 1 0 0,
        .scored 1 1 2, .drew 1 1, .saw 2 1 1, .awarded 2 0 2, .awarded 2 1 2] := by
  obtain ⟨tr, r, hseen⟩ : ∃ tr, Run (Step 5) (start 2 5) tr
      (play (gameServerWork 5) (playerWork 5) (start 2 5) lastCardAgain).2 ∧
      seen tr = (play (gameServerWork 5) (playerWork 5) (start 2 5) lastCardAgain).1 :=
    play_run lastCardAgain
  exact ⟨tr, _, r, by decide +kernel, by decide +kernel, hseen.trans (by decide +kernel)⟩

/-- A player that has resigned gets the points of the round, too: more than there are players. -/
theorem resigned_scores : ∃ (tr : List (Move (State 2) (Option (Event 2)))) (s : State 2),
    Run (Step 5) (start 2 5) tr s ∧ isOver s 2 ∧ ¬ Fair 2 (seen tr) ∧
      cardIn 2 0 (seen tr) = none ∧ points 2 0 (seen tr) = 2 ∧ ∑ j, points 2 j (seen tr) = 4 := by
  obtain ⟨tr, s, r, hround, hpublished, hseen⟩ := lastCardAgain_run
  refine ⟨tr, s, r, .inr ⟨hround.symm, hpublished⟩, ?_⟩
  rw [hseen]
  decide

/-- As `lastCardAgain`, but the second player draws higher cards. -/
def lastCardLower : List (Option (Fin 2) × Nat) :=
  (List.replicate 33 [(none, 0), (some 0, 10), (some 1, 6)]).flatten

/-- The first player has resigned, and its last card is lower than that of the second in the next
round: both rounds are scored as they should be. -/
theorem scoring_law_lastCardLower :
    ∃ (tr : List (Move (State 2) (Option (Event 2)))) (s : State 2),
      Run (Step 5) (start 2 5) tr s ∧ cardIn 2 0 (seen tr) = none ∧
        (drawn 0 (seen tr)).getLast? = some 1 ∧ cardIn 2 1 (seen tr) = some 4 ∧
        Fair 1 (seen tr) ∧ Fair 2 (seen tr) ∧ points 2 1 (seen tr) = 2 := by
  obtain ⟨tr, s, r, hround, hpublished, hseen⟩ :
      ∃ (tr : List (Move (State 2) (Option (Event 2)))) (s : State 2),
        Run (Step 5) (start 2 5) tr s ∧ s.server.round = 2 ∧ s.server.published = true ∧
          seen tr = [.drew 0 1, .drew 1 2, .saw 1 0 1, .saw 1 1 2, .awarded 1 1 2, .scored 1 0 0,
            .scored 1 1 2, .drew 1 4, .saw 2 1 4, .awarded 2 1 2] := by
    obtain ⟨tr, r, hseen⟩ : ∃ tr, Run (Step 5) (start 2 5) tr
        (play (gameServerWork 5) (playerWork 5) (start 2 5) lastCardLower).2 ∧
        seen tr = (play (gameServerWork 5) (playerWork 5) (start 2 5) lastCardLower).1 :=
      play_run lastCardLower
    exact ⟨tr, _, r, by decide +kernel, by decide +kernel, hseen.trans (by decide +kernel)⟩
  have hfirst := scoring_law (by decide) r le_rfl (.inl (by omega))
  have hsecond := scoring_law (by decide) r (by decide) (.inr ⟨hround.symm, hpublished⟩)
  rw [hseen] at hfirst hsecond
  refine ⟨tr, s, r, ?_⟩
  rw [hseen]
  exact ⟨by decide, by decide, by decide, hfirst.mpr (by decide), hsecond.mpr (by decide),
    by decide⟩

end Sop2.Cards.Barriers
