import Sop2.Lab06.Cards.Episodes

/-!
# Lab06 — Cards — arrivals

The steps of a player keep the invariant.  A player that arrives ends the episode when all of the
round have arrived (`Sound.arrives`), except when it is a round ahead of the server: then the begin
barrier counts the server as well, which is still to come (`Sound.ahead_le`).
-/

namespace Sop2.Cards.Barriers
open Support Support.Shared

variable {n m E : Nat} {s t : State n} {j : Fin n} {d d' : Data n} {q q' : Player}
  {l : Option (Event n)} {p : Option (Fin n)}

/-! ### The steps of a player -/

theorem standing_client (s : State n) (j : Fin n) (d' : Data n) (q' : Player) :
    standing ⟨d', s.server, Function.update s.client j q'⟩ =
      Function.update (standing s) (some j) q'.standing := by
  funext p
  cases p with
  | none => rfl
  | some k =>
      by_cases hk : k = j
      · subst hk
        simp [standing]
      · rw [Function.update_of_ne fun h => hk (Option.some.inj h)]
        simp [standing, hk]

/-- The players that take part, when one of them takes a step. -/
theorem inRound_client (h : Turn m j s.data (s.client j) l d' q') (hq : (s.client j).Valid m)
    (hge : (s.client j).standing.arrivals < q'.standing.arrivals → inRound m s j = true) (k : Fin n) :
    inRound m ⟨d', s.server, Function.update s.client j q'⟩ k = inRound m s k := by
  rw [Bool.eq_iff_iff, inRound_iff, inRound_iff]
  change base s < _ ∨ _ = base s ∧ _ ↔ _
  dsimp only
  by_cases hk : k = j
  · subst hk
    rw [Function.update_self]
    rcases h.kind hq with ⟨w, hstage, -, rfl, rfl⟩ | ⟨w, hstage, -, -, rfl, rfl⟩ |
      ⟨-, hsame, -, -, hdue⟩
    · have hmem := hge (by simp [Player.standing, Stage.arrivals, hstage])
      rw [inRound_iff] at hmem
      have hle : base s ≤ (s.client k).standing.arrivals := by omega
      simp only [Player.standing, Stage.arrivals, hstage] at hmem hle ⊢
      constructor
      · exact fun _ => hmem
      · exact fun _ => .inl (by omega)
    · cases w <;>
        simp only [Player.standing, Stage.arrivals, Wait.after, Wait.index, due, hstage,
          Data.depart, Nat.zero_add, Nat.reduceAdd]
      rfl
    · rw [hsame, hdue]
  · rw [Function.update_of_ne hk]
    have hrow : d'.playerData k = s.data.playerData k := by
      rcases h.kind hq with ⟨w, -, -, rfl, -⟩ | ⟨w, -, -, -, rfl, -⟩ | ⟨-, -, -, hrow, -⟩
      · rfl
      · rfl
      · exact hrow k hk
    rw [hrow]

/-- The steps of the players change nothing in who takes part in the round. -/
theorem Sound.inRound_turn (hs : Sound m E s) (h : Turn m j s.data (s.client j) l d' q') (k : Fin n) :
    inRound m ⟨d', s.server, Function.update s.client j q'⟩ k = inRound m s k := by
  have hvalid := hs.valid j
  refine inRound_client h hvalid (fun hlt => ?_) k
  rcases h.kind hvalid with ⟨w, hstage, -⟩ | ⟨w, hstage, -, -, -, rfl⟩ | ⟨-, hsame, -⟩
  · exact hs.inRound_of_due (by rw [due, hstage])
  · refine absurd hlt (not_lt.mpr ?_)
    rw [Player.standing, Player.standing, hstage]
    cases w <;> exact le_rfl
  · rw [hsame] at hlt
    exact absurd hlt (lt_irrefl _)

/-- What a step does to the rows, by where the server is. -/
theorem Sound.rows (hs : Sound m E s) (h : Turn m j s.data (s.client j) l d' q') :
    (∀ k ≠ j, d'.playerData k = s.data.playerData k) ∧
      (0 < q'.draws → 0 < (d'.playerData j).card) ∧
      (E % 4 ≠ 2 → playing d'.playerData = playing s.data.playerData) ∧
      (E % 4 = 1 → d'.playerData = s.data.playerData) := by
  have hvalid := hs.valid j
  have hcards := hs.cards j
  have hE := hs.client_arrivals (j := j)
  generalize s.client j = q at h hvalid hcards hE
  cases h with
  | draw i cards left last card ticket hi hperm =>
      have hE := hE (decide_eq_true hi) rfl
      refine ⟨fun k hk => Function.update_of_ne hk .., fun _ => ?_, fun _ => ?_, fun h => ?_⟩
      · simpa [Data.row] using hvalid.pos card (hperm.mem_iff.mpr (by simp))
      · funext k
        by_cases hk : k = j
        · subst hk; simp [playing, Data.row]
        · simp [playing, Data.row, hk]
      · simp only [Stage.arrivals] at hE
        omega
  | decide i cards last ticket active =>
      have hE := hE rfl rfl
      simp only [Stage.arrivals] at hE
      refine ⟨fun k hk => Function.update_of_ne hk .., fun hpos => ?_, fun h => ?_, fun h => ?_⟩
      · simpa [Data.row] using hcards hpos
      · omega
      · omega
  | next i cards last ticket hplaying =>
      refine ⟨fun _ _ => rfl, fun hpos => hcards ?_, fun _ => rfl, fun _ => rfl⟩
      simp only [Player.draws, Stage.hasDrawn, Bool.toNat_true]
      omega
  | leave w => exact ⟨fun _ _ => rfl, fun _ => hcards (by cases w <;> exact Nat.succ_pos _),
      fun _ => rfl, fun _ => rfl⟩
  | fail | finish =>
      refine ⟨fun _ _ => rfl, fun hpos => hcards hpos, fun _ => rfl, fun _ => rfl⟩
  | arrive | readScore | resigned =>
      exact ⟨fun _ _ => rfl, fun _ => hcards (Nat.succ_pos _), fun _ => rfl, fun _ => rfl⟩

/-- Who is behind only leaves. -/
theorem Sound.gone_turn (hs : Sound m E s) (h : Turn m j s.data (s.client j) l d' q')
    (hlt : (s.client j).standing.arrivals < base s) :
    (d'.playerData j).active = .resigned ∧ q'.stage = .left := by
  obtain ⟨hresigned, hstage | hstage⟩ := hs.gone j hlt
  · generalize s.client j = q at h hstage
    cases h with
    | resigned => exact ⟨hresigned, rfl⟩
    | next i cards last ticket hplaying => rw [hplaying] at hresigned; cases hresigned
    | _ => cases hstage
  · exact absurd hstage h.not_left

/-- A step of a player, after which `E'` episodes have ended. -/
theorem Sound.client_step {E' : Nat} (hs : Sound m E s)
    (h : Turn m j s.data (s.client j) l d' q')
    (hmono : (s.client j).standing.arrivals ≤ q'.standing.arrivals)
    (hmem : (s.client j).standing.arrivals < q'.standing.arrivals → inRound m s j = true)
    (halt : Alternate E' (Function.update (standing s) (some j) q'.standing) d'.barrier)
    (hgoes : E' = E ∨ E' = E + 1 ∧ ∀ p, member m s p = true →
      (Function.update (standing s) (some j) q'.standing p).arrivals = E + 1)
    (hcount : ∀ g, (d'.barrier g).count = (s.data.barrier g).count)
    (hticket : ∀ w, q'.stage = .inside w → q'.ticket = (q'.standing.arrivals - 1) / 2)
    (hclear : s.server.Plays m → q'.stage.isInside = true → base s < q'.standing.arrivals)
    (hlt : E < base s + 4 →
      waiting E' (Function.update (standing s) (some j) q'.standing) < tally id (member m s))
    (hempty : s.server.emptied = true →
      lingering E (Function.update (standing s) (some j) q'.standing) ≤ lingering E (standing s)) :
    Sound m E' ⟨d', s.server, Function.update s.client j q'⟩ := by
  have hvalid := hs.valid j
  obtain ⟨hrows, hcard, hplaying, hstill⟩ := hs.rows h
  obtain ⟨hundecided, hleft, -⟩ := h.flags (hs.undecided j)
  have hsame := inRound_client h hvalid hmem
  have hmember : member m ⟨d', s.server, Function.update s.client j q'⟩ = member m s := by
    funext p
    cases p with
    | none => rfl
    | some k => exact hsame k
  have hstanding := standing_client s j d' q'
  have hself : Function.update s.client j q' j = q' := Function.update_self ..
  have hother : ∀ k ≠ j, Function.update s.client j q' k = s.client k :=
    fun k hk => Function.update_of_ne hk ..
  generalize Function.update s.client j q' = c at hsame hmember hstanding hself hother ⊢
  refine ⟨hstanding ▸ halt, ?_, fun k hk => ?_, hs.ticket, fun k w hw => ?_, hs.round_pos,
    hs.round_le, hs.server, fun k => ?_, fun k hk => ?_, fun k hk => ?_, fun k hk => ?_,
    fun hp k hk => ?_, fun k hk => ?_, fun hp => ?_, fun hp => ?_, fun hE => ?_, fun hp => ?_,
    fun i rest best hq => ?_, fun i rest active hq => ?_, fun active hq => ?_, fun hq => ?_,
    fun i hi k => ?_⟩
  · rcases hgoes with rfl | ⟨rfl, hall⟩
    · exact hs.server_ge
    · exact (hall none rfl).ge
  · rw [hsame] at hk
    dsimp only
    rcases hgoes with rfl | ⟨rfl, hall⟩
    · by_cases hkj : k = j
      · subst hkj
        rw [hself]
        exact (hs.ge k hk).trans hmono
      · rw [hother k hkj]
        exact hs.ge k hk
    · have heq := hall (some k) hk
      rw [← hstanding] at heq
      exact heq.ge
  · dsimp only at hw ⊢
    by_cases hkj : k = j
    · subst hkj
      rw [hself] at hw ⊢
      exact hticket w hw
    · rw [hother k hkj] at hw ⊢
      exact hs.tickets k w hw
  · dsimp only
    by_cases hkj : k = j
    · subst hkj
      rw [hself]
      exact hvalid.turn h
    · rw [hother k hkj]
      exact hs.valid k
  · dsimp only at hk ⊢
    by_cases hkj : k = j
    · subst hkj
      rw [hself] at hk
      exact hundecided hk
    · rw [hother k hkj] at hk
      rw [hrows k hkj]
      exact hs.undecided k hk
  · dsimp only at hk ⊢
    by_cases hkj : k = j
    · subst hkj
      rw [hself] at hk
      exact hleft hk h.not_left
    · rw [hother k hkj] at hk
      rw [hrows k hkj]
      exact hs.left k hk
  · dsimp only at hk ⊢
    by_cases hkj : k = j
    · subst hkj
      rw [hself] at hk
      exact hcard hk
    · rw [hother k hkj] at hk
      rw [hrows k hkj]
      exact hs.cards k hk
  · dsimp only at hk ⊢
    by_cases hkj : k = j
    · subst hkj
      rw [hself] at hk ⊢
      exact hclear hp hk
    · rw [hother k hkj] at hk ⊢
      exact hs.clear hp k hk
  · dsimp only at hk ⊢
    by_cases hkj : k = j
    · subst hkj
      rw [hself] at hk ⊢
      obtain ⟨hresigned, hstage⟩ := hs.gone_turn h (hmono.trans_lt hk)
      exact ⟨hresigned, .inr hstage⟩
    · rw [hother k hkj] at hk ⊢
      rw [hrows k hkj]
      exact hs.gone k hk
  · rw [hmember, hcount]
    exact hs.gameCount hp
  · rw [hmember, hcount, hs.beginCount hp]
    dsimp only
    split
    · rw [hplaying (hs.settled_mod (Server.settled_of_reopened ‹_›))]
    · rfl
  · rw [hmember, hstanding]
    refine hlt (lt_of_le_of_lt ?_ hE)
    rcases hgoes with rfl | ⟨rfl, -⟩ <;> omega
  · rw [funext hsame]
    exact hs.crowd hp
  · dsimp only
    rw [hstill (hs.scan_mod hq)]
    exact hs.scanning i rest best hq
  · dsimp only
    rw [hplaying (hs.settled_mod (by rw [show s.server = _ from hq]; rfl))]
    exact hs.counting i rest active hq
  · dsimp only
    rw [hplaying (hs.settled_mod (Server.settled_of_counted hq))]
    exact hs.counted active hq
  · rw [hstanding]
    have hin := Server.not_inside_of_emptied hq
    have hzero := hs.emptied hq
    have hle := hempty hq
    rcases hgoes with rfl | ⟨rfl, hall⟩
    · omega
    · -- the server has not arrived
      have hserver := hs.server_eq hin
      have heq : s.server.standing.arrivals = E + 1 := hall none rfl
      omega
  · rw [hsame]
    exact hs.ended i hi k

/-- A player that is about to arrive does so in a round of the server. -/
theorem Sound.plays_of_arrive {w : Wait} (hs : Sound m E s) (h : (s.client j).stage = .arrive w) :
    s.server.Plays m := by
  have hround : inRound m s j = true := hs.inRound_of_due (by rw [due, h])
  have hvalid := hs.valid j
  have hle : (s.client j).round ≤ m :=
    hvalid.round_le.resolve_right (by rw [h]; rintro ⟨-, h | h⟩ <;> cases h)
  have hge : base s ≤ (s.client j).standing.arrivals := by
    rw [inRound_iff] at hround
    omega
  refine ⟨?_, fun i hi => ?_⟩
  · have hw : w.index ≤ 3 := by cases w <;> decide
    have hpos := hvalid.round_pos
    simp only [Player.standing, Stage.arrivals, h, base] at hge
    omega
  · rw [hs.ended i hi j] at hround
    cases hround

/-- When all four episodes of a round have ended, and somebody goes on, the begin barrier has been
initialised for the next one. -/
theorem Sound.reopened_of_ahead (hs : Sound m E s) (hplays : s.server.Plays m)
    (hE : E = base s + 4) (hj : playing s.data.playerData j = true) : s.server.reopened = true := by
  have hge := hs.server_ge
  have hcounted := hs.counted
  have hnot := hplays.2
  rw [hE] at hge
  simp only [Server.standing, base] at hge
  generalize s.server = q at hge hcounted hnot
  cases q with
  | inside w i active ticket =>
      cases w with
      | game2 =>
          refine decide_eq_true fun hzero => ?_
          have htally := tally_pos id (f := playing s.data.playerData) (a := j) hj
          have hcounted := hcounted active rfl
          omega
      | _ => simp only [Server.arrivals, Wait.index] at hge; omega
  | destroyGame | initGame => rfl
  | ended i => exact absurd rfl (hnot i)
  | arrive w => cases w <;> simp only [Server.arrivals, Wait.index] at hge <;> omega
  | _ => simp only [Server.arrivals] at hge; omega

/-- Those who have begun with the next round play, as does one that is about to. -/
theorem Sound.ahead_le (hs : Sound m E s) (hE : E = base s + 4)
    (hA : (s.client j).standing.arrivals = E) (hj : playing s.data.playerData j = true) :
    waiting E (standing s) + 1 ≤ tally id (playing s.data.playerData) := by
  have hnone := tally_option id fun p => p.elim false (playing s.data.playerData)
  change _ = 0 + tally id (playing s.data.playerData) at hnone
  rw [← waiting_arrive (p := some j) hA, ← Nat.zero_add (tally id _), ← hnone]
  refine waiting_le fun r hr => ?_
  by_cases hrj : r = some j
  · subst hrj
    exact hj
  · rw [Function.update_of_ne hrj] at hr
    cases r with
    | none =>
        have hle := s.server.arrivals_le
        simp only [standing, Server.standing, base] at hr hE
        omega
    | some k => exact hs.playing_of_ahead (hr.trans (by rw [hE]))

/-- **A player arrives.** -/
theorem Sound.arrival {w : Wait} (hs : Sound m E s) (h : (s.client j).stage = .arrive w) :
    ∃ E', Alternate E' (Function.update (standing s) (some j) ⟨E + 1, true⟩)
        (s.data.arrive w.barrier).barrier ∧
      (E' = E ∨ E' = E + 1 ∧ ∀ p, member m s p = true →
        (Function.update (standing s) (some j) ⟨E + 1, true⟩ p).arrivals = E + 1) ∧
      (E < base s + 4 → waiting E' (Function.update (standing s) (some j) ⟨E + 1, true⟩) <
        tally id (member m s)) := by
  have hplays := hs.plays_of_arrive h
  have hdue : due m (s.data.playerData j).active (s.client j) = true := by rw [due, h]
  have hin : (s.client j).stage.isInside = false := by rw [h]; rfl
  have hA := hs.client_eq hin hdue
  have hE := hs.client_arrivals hdue hin
  rw [h] at hE
  have hbarrier : barrierOf E = w.barrier := by
    rw [hE]
    exact barrierOf_wait w _
  rw [← hbarrier]
  rcases Nat.lt_or_eq_of_le hs.le_base with hlt | heq
  · refine hs.arrives hplays hA hin (hs.inRound_of_due hdue) ?_
    cases hg : barrierOf E with
    | true => exact hs.gameCount hplays
    | false =>
        rw [hs.beginCount hplays, if_neg fun hreopened => ?_]
        have hge := hs.le_of_reopened hreopened
        simp only [barrierOf, base, decide_eq_false_iff_not] at hg hge hlt
        omega
  · -- the server has not yet begun with the round of the player
    have hw : w = .begin1 := by
      simp only [base, Stage.arrivals] at hE heq
      cases w <;> simp only [Wait.index] at hE <;> first | rfl | omega
    subst hw
    have hplaying : playing s.data.playerData j = true :=
      decide_eq_true (hs.undecided j (by rw [h]; rfl))
    have hahead := hs.ahead_le heq hA hplaying
    refine ⟨E, hs.alternate.arrive hA hin fun hfull => ?_, .inl rfl, fun h => absurd heq h.ne⟩
    have harrived := hs.alternate.arrived (barrierOf E)
    rw [if_pos rfl] at harrived
    have hcount := hs.beginCount hplays
    rw [if_pos (hs.reopened_of_ahead hplays heq hplaying)] at hcount
    rw [hbarrier] at hfull harrived
    change (s.data.barrier false).arrived + 1 = (s.data.barrier false).count at hfull
    change (s.data.barrier false).arrived = _ at harrived
    omega

@[simp] theorem Data.count_arrive (d : Data n) (g₀ g : Bool) :
    ((d.arrive g₀).barrier g).count = (d.barrier g).count := by
  rw [Data.arrive, Alternate.update_barrier Barrier.count, ite_eq_right_iff]
  rintro rfl
  rw [Barrier.arrive]
  split <;> rfl

@[simp] theorem Data.count_depart (d : Data n) (g₀ g : Bool) :
    ((d.depart g₀).barrier g).count = (d.barrier g).count := by
  rw [Data.depart, Alternate.update_barrier Barrier.count, ite_eq_right_iff]
  rintro rfl
  rfl

/-- **A step of a player.** -/
theorem Sound.client_turn (hs : Sound m E s) (h : Turn m j s.data (s.client j) l d' q') :
    ∃ E', Sound m E' ⟨d', s.server, Function.update s.client j q'⟩ := by
  rcases h.kind (hs.valid j) with ⟨w, hstage, -, rfl, rfl⟩ | ⟨w, hstage, -, hticket, rfl, rfl⟩ |
    ⟨hbarrier, hstanding, hin, -, -⟩
  · obtain ⟨E', halt, hgoes, hlt⟩ := hs.arrival hstage
    have hdue : due m (s.data.playerData j).active (s.client j) = true := by rw [due, hstage]
    have hin : (s.client j).stage.isInside = false := by rw [hstage]; rfl
    have hA := hs.client_eq hin hdue
    have hE := hs.client_arrivals hdue hin
    rw [hstage] at hE
    have hnew : Player.standing { s.client j with
        stage := .inside w, ticket := (s.data.barrier w.barrier).episode } = ⟨E + 1, true⟩ := by
      rw [hE]
      rfl
    have hbarrier : barrierOf E = w.barrier := by
      rw [hE]
      exact barrierOf_wait w _
    rw [← hnew] at halt hgoes hlt
    refine ⟨E', hs.client_step h ?_ (fun _ => hs.inRound_of_due hdue) halt hgoes
      (fun g => Data.count_arrive ..) (fun w' _ => ?_) (fun _ _ => ?_) hlt fun _ => ?_⟩
    · rw [hnew, hA]
      exact Nat.le_succ E
    · rw [hnew, ← hbarrier]
      exact hs.episode
    · rw [hnew]
      exact Nat.lt_succ_of_le hs.base_le
    · rw [hnew, lingering_arrive (p := some j) hin]
  · have hin : (s.client j).stage.isInside = true := by rw [hstage]; rfl
    have hold : (s.client j).standing.arrivals = 4 * ((s.client j).round - 1) + w.index + 1 := by
      rw [Player.standing, hstage]
      rfl
    have hnew : Player.standing { s.client j with stage := w.after } =
        ⟨(s.client j).standing.arrivals, false⟩ := by
      rw [hold]
      cases w <;> rfl
    have hepisode : (s.client j).ticket = (4 * ((s.client j).round - 1) + w.index) / 2 := by
      rw [hs.tickets j w hstage, hold, Nat.add_sub_cancel]
    have hwait := barrierOf_wait w ((s.client j).round - 1)
    rw [hepisode, ← hwait] at hticket
    have hE := hs.leaves (p := some j) hin hold hticket
    have hA : (s.client j).standing.arrivals = E := hold.trans hE.symm
    have hbarrier : w.barrier = !barrierOf E := by
      rw [hE, barrierOf_succ, hwait, Bool.not_not]
    rw [hA] at hnew
    refine ⟨E, hs.client_step h (by rw [hnew, hA]) (fun hlt => ?_) ?_ (.inl rfl)
      (fun g => Data.count_depart ..) (fun w' hw' => ?_) (fun _ hin' => ?_) (fun hlt => ?_)
      fun _ => ?_⟩
    · rw [hnew, hA] at hlt
      exact absurd hlt (lt_irrefl E)
    · rw [hnew, hbarrier]
      exact hs.alternate.leave (p := some j) hA hin
    · cases w <;> cases hw'
    · cases w <;> cases hin'
    · rw [hnew, waiting_leave (p := some j) hA]
      exact hs.lt hlt
    · rw [hnew]
      exact le_of_lt (Nat.lt_of_succ_le (lingering_leave (p := some j) hin hA).le)
  · have hnew : Function.update (standing s) (some j) q'.standing = standing s := by
      rw [hstanding]
      exact Function.update_eq_self ..
    have hin' : q'.stage.isInside = false := by
      have := congrArg Standing.inside hstanding
      exact this.trans hin
    refine ⟨E, hs.client_step h (by rw [hstanding]) (fun hlt => ?_) ?_ (.inl rfl)
      (fun g => by rw [hbarrier]) (fun w hw => ?_) (fun _ h => ?_) (fun hlt => ?_) fun _ => ?_⟩
    · rw [hstanding] at hlt
      exact absurd hlt (lt_irrefl _)
    · rw [hnew, hbarrier]
      exact hs.alternate
    · rw [hw] at hin'
      cases hin'
    · rw [hin'] at h
      cases h
    · rw [hnew]
      exact hs.lt hlt
    · rw [hnew]

end Sop2.Cards.Barriers
