import Sop2.Lab06.Cards.Arrivals

/-!
# Lab06 — Cards — the barriers are initialised again

The steps of the server keep the invariant: the server initialises a barrier for those who play on,
when nobody is inside it and nobody can arrive at it.

* `sound`: the invariant holds in every state of a game.
* `Sound.live`: so somebody can always go on, until the server has ended and all players have left.
-/

namespace Sop2.Cards.Barriers
open Support Support.Shared

variable {n m E : Nat} {s t : State n} {j : Fin n} {d d' : Data n} {q q' : Player}
  {l : Option (Event n)} {p : Option (Fin n)}

/-! ### The steps of the server -/

theorem standing_server (s : State n) (d' : Data n) (q : Server n) :
    standing ⟨d', q, s.client⟩ = Function.update (standing s) none q.standing := by
  funext p
  cases p with
  | none => rfl
  | some j => rfl

theorem inRound_server {q : Server n} (hround : q.round = s.server.round)
    (hactive : ∀ j, (d'.playerData j).active = (s.data.playerData j).active) :
    inRound m ⟨d', q, s.client⟩ = inRound m s := by
  have hbase : base ⟨d', q, s.client⟩ = base s := congrArg (fun i => 4 * (i - 1)) hround
  funext j
  rw [inRound, hbase]
  dsimp only
  rw [hactive]
  rfl

/-- A step of the server in one round, after which `E'` episodes have ended. -/
theorem Sound.server_step {E' : Nat} {q : Server n} (hs : Sound m E s)
    (hround : q.round = s.server.round) (hplays : s.server.Plays m) (hq : ∀ i, q ≠ .ended i)
    (halt : Alternate E' (Function.update (standing s) none q.standing) d'.barrier)
    (hserver : E' ≤ q.standing.arrivals)
    (hgoes : E' = E ∨ E' = E + 1 ∧ ∀ p, member m s p = true →
      (Function.update (standing s) none q.standing p).arrivals = E + 1)
    (hticket : ∀ w i active ticket, q = .inside w i active ticket →
      ticket = (q.standing.arrivals - 1) / 2)
    (hvalid : q.Valid) (hactive : ∀ j, (d'.playerData j).active = (s.data.playerData j).active)
    (hcard : ∀ j, (d'.playerData j).card = (s.data.playerData j).card)
    (hgame : (d'.barrier true).count = (s.data.barrier true).count)
    (hbegin : (d'.barrier false).count =
      if q.reopened then tally id (playing s.data.playerData) + 1 else tally id (member m s))
    (hlt : E < base s + 4 →
      waiting E' (Function.update (standing s) none q.standing) < tally id (member m s))
    (hscan : ∀ i rest best, q = .scan i rest best →
      ∃ seen, seen ++ rest = List.finRange n ∧ HighestOf d'.playerData seen best)
    (hcounting : ∀ i rest active, q = .count i rest active →
      ∃ seen, seen ++ rest = List.finRange n ∧
        active = (seen.filter (playing s.data.playerData)).length)
    (hcounted : ∀ active, q.counted = some active → active = tally id (playing s.data.playerData))
    (hempty : q.emptied = true →
      lingering E' (Function.update (standing s) none q.standing) = 0) :
    Sound m E' ⟨d', q, s.client⟩ := by
  have hstanding := standing_server s d' q
  have hbase : base ⟨d', q, s.client⟩ = base s := congrArg (fun i => 4 * (i - 1)) hround
  have hsame : inRound m ⟨d', q, s.client⟩ = inRound m s := inRound_server hround hactive
  have hmember : member m ⟨d', q, s.client⟩ = member m s := by
    funext p
    cases p with
    | none => rfl
    | some j => exact congrFun hsame j
  have hplaying : playing d'.playerData = playing s.data.playerData := by
    funext j
    rw [playing, hactive, playing]
  refine ⟨hstanding ▸ halt, hserver, fun j hj => ?_, hticket, hs.tickets, hround ▸ hs.round_pos,
    .inl (hround ▸ hplays.1), hvalid, hs.valid, fun j hj => ?_, fun j hj => ?_, fun j hj => ?_,
    fun _ => ?_, fun j hj => ?_, fun _ => ?_, fun _ => ?_, fun hE => ?_, fun _ => ?_, hscan,
    fun i rest active h => ?_, fun active h => ?_, fun h => ?_, fun i hi => absurd hi (hq i)⟩
  · rw [hsame] at hj
    rcases hgoes with rfl | ⟨rfl, hall⟩
    · exact hs.ge j hj
    · exact (hall (some j) hj).ge
  · exact (hactive j).trans (hs.undecided j hj)
  · exact (hactive j).trans (hs.left j hj)
  · exact (hs.cards j hj).trans_eq (hcard j).symm
  · rw [hbase]
    exact hs.clear hplays
  · rw [hbase] at hj
    dsimp only
    rw [hactive]
    exact hs.gone j hj
  · rw [hmember]
    exact hgame.trans (hs.gameCount hplays)
  · rw [hmember]
    dsimp only
    rw [hplaying]
    exact hbegin
  · rw [hmember, hstanding]
    rw [hbase] at hE
    refine hlt (lt_of_le_of_lt ?_ hE)
    rcases hgoes with rfl | ⟨rfl, -⟩ <;> omega
  · rw [hsame]
    exact hs.crowd hplays
  · dsimp only
    rw [hplaying]
    exact hcounting i rest active h
  · dsimp only
    rw [hplaying]
    exact hcounted active h
  · rw [hstanding]
    exact hempty h

/-- A step of the server that has nothing to do with the barriers. -/
theorem Sound.serve {q : Server n} (hs : Sound m E s) (hround : q.round = s.server.round)
    (hplays : s.server.Plays m) (hq : ∀ i, q ≠ .ended i) (hstanding : q.standing = s.server.standing)
    (hbarrier : d'.barrier = s.data.barrier)
    (hinside : q.isInside = false) (hvalid : q.Valid)
    (hactive : ∀ j, (d'.playerData j).active = (s.data.playerData j).active)
    (hcard : ∀ j, (d'.playerData j).card = (s.data.playerData j).card)
    (hreopened : q.reopened = s.server.reopened)
    (hscan : ∀ i rest best, q = .scan i rest best →
      ∃ seen, seen ++ rest = List.finRange n ∧ HighestOf d'.playerData seen best)
    (hcounting : ∀ i rest active, q = .count i rest active →
      ∃ seen, seen ++ rest = List.finRange n ∧
        active = (seen.filter (playing s.data.playerData)).length)
    (hcounted : ∀ active, q.counted = some active → active = tally id (playing s.data.playerData))
    (hempty : q.emptied = true → lingering E (standing s) = 0) :
    Sound m E ⟨d', q, s.client⟩ := by
  have hsame : Function.update (standing s) none q.standing = standing s := by
    rw [hstanding]
    exact Function.update_eq_self ..
  refine hs.server_step hround hplays hq ?_ (hstanding ▸ hs.server_ge) (.inl rfl) ?_ hvalid hactive
    hcard ?_ ?_ ?_ hscan hcounting hcounted ?_
  · rw [hsame, hbarrier]
    exact hs.alternate
  · rintro w i active ticket rfl
    cases hinside
  · rw [hbarrier]
  · rw [hbarrier, hreopened]
    exact hs.beginCount hplays
  · rw [hsame]
    exact hs.lt
  · rw [hsame]
    exact hempty

/-- **The server arrives.** -/
theorem Sound.server_arrive {w : Wait} {i active : Nat} {c : Fin n → Player}
    (hs : Sound m E ⟨d, .arrive w i active, c⟩) :
    ∃ E', Sound m E'
      ⟨d.arrive w.barrier, .inside w i active (d.barrier w.barrier).episode, c⟩ := by
  have hplays : Server.Plays m (.arrive w i active : Server n) :=
    hs.plays (by simp) (by simp)
  have hA := hs.server_eq rfl
  have hE : E = 4 * (i - 1) + w.index := hA.symm
  have hbarrier : barrierOf E = w.barrier := by
    rw [hE]
    exact barrierOf_wait w _
  have hw : w.index < 4 := by cases w <;> decide
  have hreopened : w.barrier = false → Server.reopened (.arrive w i active : Server n) = false := by
    cases w <;> first | exact fun _ => rfl | (intros; contradiction)
  obtain ⟨E', halt, hgoes, hwaiting⟩ := hs.arrives (p := none) hplays hA rfl rfl (by
    rw [hbarrier]
    cases hg : w.barrier with
    | true => exact hs.gameCount hplays
    | false =>
        rw [hs.beginCount hplays]
        exact if_neg (by rw [hreopened hg]; simp))
  rw [hbarrier] at halt
  have hnew : Server.standing (.inside w i active (d.barrier w.barrier).episode : Server n) =
      ⟨E + 1, true⟩ := by
    rw [hE]
    rfl
  rw [← hnew] at halt hgoes hwaiting
  refine ⟨E', hs.server_step rfl hplays (by simp) halt ?_ hgoes (fun w' i' active' ticket h => ?_)
    hs.server (fun _ => rfl) (fun _ => rfl) (Data.count_arrive ..) ?_ hwaiting (by simp) (by simp) ?_
    (by rintro ⟨⟩)⟩
  · rw [hnew]
    rcases hgoes with rfl | ⟨rfl, -⟩ <;> simp
  · cases h
    rw [hnew, ← hbarrier]
    exact hs.episode
  · rw [Data.count_arrive]
    exact (hs.beginCount hplays).trans (by cases w <;> rfl)
  · intro active' h
    exact hs.counted active' (by cases w <;> exact h)

/-- The server goes on to the next round, or ends the game. -/
theorem Sound.server_next {q : Server n} (hs : Sound m E s) (hplays : s.server.Plays m)
    (hE : E = base s + 4) (hround : q.round = s.server.round + 1)
    (hkind : (∃ i, q = .head i) ∨ ∃ i, q = .ended i)
    (hle : q.round ≤ m ∨ q = .head (m + 1) ∨ ∃ i, q = .ended i)
    (hrows : d'.playerData = s.data.playerData)
    (halt : Alternate E (Function.update (standing s) none ⟨E, false⟩) d'.barrier)
    (hclear : q.Plays m → lingering E (Function.update (standing s) none ⟨E, false⟩) = 0)
    (hcount : q.Plays m → ∀ g, (d'.barrier g).count = tally id (playing s.data.playerData) + 1)
    (hpos : q.Plays m → 0 < tally id (playing s.data.playerData))
    (hended : ∀ i, q = .ended i → tally id (playing s.data.playerData) = 0) :
    Sound m E ⟨d', q, s.client⟩ := by
  have hnext := fun j => hs.inRound_next (j := j) hplays hE hround hrows
  have hsame : q.Plays m → inRound m ⟨d', q, s.client⟩ = playing s.data.playerData := fun hq => by
    funext j
    rw [hnext, decide_eq_true (hround ▸ hq.1), Bool.and_true]
  have hbase : base ⟨d', q, s.client⟩ = E := by
    have := hs.round_pos
    rw [hE]
    simp only [base, hround]
    omega
  have harrivals : q.arrivals = 0 ∧ q.isInside = false := by
    rcases hkind with ⟨i, rfl⟩ | ⟨i, rfl⟩ <;> exact ⟨rfl, rfl⟩
  have hnew : q.standing = ⟨E, false⟩ := by
    rw [Server.standing, harrivals.1, harrivals.2, ← hbase]
    rfl
  have hstanding := standing_server s d' q
  rw [hnew] at hstanding
  refine ⟨hstanding ▸ halt, ?_, fun j hj => ?_, ?_, hs.tickets, ?_, hle, ?_, hs.valid,
    fun j hj => ?_, fun j hj => ?_, fun j hj => ?_, fun hq j hj => ?_, fun j hj => ?_,
    fun hq => ?_, fun hq => ?_, fun _ => ?_, fun hq => ?_, ?_, ?_, ?_, ?_, fun i hi j => ?_⟩
  · change E ≤ q.standing.arrivals
    rw [hnew]
  · -- who is in the next round has arrived in all episodes
    rw [hnext, Bool.and_eq_true] at hj
    exact hs.ge j (hs.inRound_of_playing hplays hj.1)
  · rintro w i active ticket rfl
    exact Bool.noConfusion harrivals.2
  · change 1 ≤ q.round
    omega
  · rcases hkind with ⟨i, rfl⟩ | ⟨i, rfl⟩ <;> trivial
  · rw [hrows]
    exact hs.undecided j hj
  · rw [hrows]
    exact hs.left j hj
  · rw [hrows]
    exact hs.cards j hj
  · have hge := halt.ge (some j)
    have hne := lingering_eq_zero.mp (hclear hq) (some j)
    rw [Function.update_of_ne (Option.some_ne_none j)] at hge hne
    rw [hbase]
    exact lt_of_le_of_ne (hge hj) (hne hj).symm
  · rw [hbase] at hj
    rw [hrows]
    refine hs.resigned_of_not_inRound hplays ?_
    cases hin : inRound m s j with
    | false => rfl
    | true => exact absurd (hs.ge j hin) (not_le.mpr hj)
  · rw [tally_member, hsame hq]
    exact hcount hq true
  · dsimp only
    rw [tally_member, hsame hq, hrows, ite_self]
    exact hcount hq false
  · -- the server has not arrived
    rw [tally_member, hstanding, waiting, tally_option, Function.update_self,
      decide_eq_false (Nat.succ_ne_self E).symm]
    refine Nat.lt_succ_of_le ?_
    rw [Bool.toNat_false, Nat.zero_add]
    refine Finset.card_le_card fun j hj => Finset.mem_filter.mpr ⟨Finset.mem_univ _, ?_⟩
    have heq := of_decide_eq_true (Finset.mem_filter.mp hj).2
    dsimp only at heq
    rw [Function.update_of_ne (Option.some_ne_none j)] at heq
    exact inRound_iff.mpr (.inl (by rw [hbase]; exact heq.symm ▸ Nat.lt_succ_self E))
  · rw [hsame hq]
    exact hpos hq
  · rintro i rest best rfl
    rcases hkind with ⟨i, h⟩ | ⟨i, h⟩ <;> cases h
  · rintro i rest active rfl
    rcases hkind with ⟨i, h⟩ | ⟨i, h⟩ <;> cases h
  · intro active hq
    rcases hkind with ⟨i, rfl⟩ | ⟨i, rfl⟩ <;> cases hq
  · intro hq
    rcases hkind with ⟨i, rfl⟩ | ⟨i, rfl⟩ <;> cases hq
  · rw [hnext]
    cases hj : playing s.data.playerData j with
    | false => rfl
    | true =>
        have htally := tally_pos id (f := playing s.data.playerData) (a := j) hj
        rw [hended i hi] at htally
        exact absurd htally (lt_irrefl 0)

/-- The server leaves a barrier. -/
theorem Sound.server_leave {w : Wait} {i active ticket : Nat} {c : Fin n → Player}
    (hs : Sound m E ⟨d, .inside w i active ticket, c⟩)
    (hticket : ticket < (d.barrier w.barrier).episode) :
    Sound m E ⟨d.depart w.barrier, w.afterServer i active, c⟩ := by
  have hplays : Server.Plays m (.inside w i active ticket : Server n) :=
    hs.plays (by simp) (by simp)
  have hepisode : ticket = (4 * (i - 1) + w.index) / 2 := hs.ticket w i active ticket rfl
  have hwait := barrierOf_wait w (i - 1)
  rw [hepisode, ← hwait] at hticket
  have hE : E = 4 * (i - 1) + w.index + 1 := hs.leaves (p := none) rfl rfl hticket
  have hA : (standing ⟨d, .inside w i active ticket, c⟩ none).arrivals = E := hE.symm
  have hbarrier : w.barrier = !barrierOf E := by
    rw [hE, barrierOf_succ, hwait, Bool.not_not]
  have halt := hs.alternate.leave (p := none) hA rfl
  rw [← hbarrier] at halt
  have hvalid : w ≠ .game2 → active = 0 := hs.server
  have hlt := hs.lt
  rw [← waiting_leave (p := none) hA] at hlt
  have hcounted := hs.counted
  have hbegin := hs.beginCount hplays
  cases w with
  | begin1 =>
      have hnew : Server.standing (.scan i (List.finRange n) (-1, 0) : Server n) = ⟨E, false⟩ := by
        rw [hE]
        rfl
      rw [← hnew] at halt hlt
      refine hs.server_step rfl hplays nofun halt hs.server_ge (.inl rfl) nofun trivial
        (fun _ => rfl) (fun _ => rfl) (Data.count_depart ..) ?_ hlt
        (fun i' rest best h => ⟨[], ?_, ?_⟩) nofun nofun nofun
      · rw [Data.count_depart]
        exact hbegin
      · cases h
        rfl
      · cases h
        exact highest_nil _
  | game1 =>
      have hnew : Server.standing (.arrive .begin2 i active : Server n) = ⟨E, false⟩ := by
        rw [hE]
        rfl
      rw [← hnew] at halt hlt
      refine hs.server_step rfl hplays nofun halt hs.server_ge (.inl rfl) nofun
        (fun _ => hvalid nofun) (fun _ => rfl) (fun _ => rfl) (Data.count_depart ..) ?_ hlt nofun
        nofun nofun nofun
      rw [Data.count_depart]
      exact hbegin
  | begin2 =>
      have hnew : Server.standing (.count i (List.finRange n) active : Server n) = ⟨E, false⟩ := by
        rw [hE]
        rfl
      rw [← hnew] at halt hlt
      refine hs.server_step rfl hplays nofun halt hs.server_ge (.inl rfl) nofun trivial
        (fun _ => rfl) (fun _ => rfl) (Data.count_depart ..) ?_ hlt nofun
        (fun i' rest active' h => ⟨[], ?_, ?_⟩) nofun nofun
      · rw [Data.count_depart]
        exact hbegin
      · cases h
        rfl
      · cases h
        exact hvalid nofun
  | game2 =>
      have hcounted := hcounted active rfl
      rw [Wait.afterServer]
      split
      · subst ‹active = 0›
        refine hs.server_next hplays hE rfl (.inr ⟨_, rfl⟩) (.inr (.inr ⟨_, rfl⟩)) rfl halt ?_ ?_ ?_
          fun _ _ => hcounted.symm
        all_goals exact fun h => absurd rfl (h.2 _)
      · have hnew : Server.standing (.destroyGame i active : Server n) = ⟨E, false⟩ := by
          rw [hE]
          rfl
        rw [← hnew] at halt hlt
        refine hs.server_step rfl hplays nofun halt hs.server_ge (.inl rfl) nofun
          (Nat.pos_of_ne_zero ‹_›) (fun _ => rfl) (fun _ => rfl) (Data.count_depart ..) ?_ hlt nofun
          nofun ?_ nofun
        · rw [Data.count_depart, hbegin]
          exact if_congr (decide_eq_true_iff.trans (iff_of_true ‹_› rfl)) rfl rfl
        · intro active' h
          cases h
          exact hcounted

/-- The game ends after the last round. -/
theorem Sound.server_ended {i : Nat} (hs : Sound m E s) (hq : s.server = .head i)
    (hnone : ∀ j, inRound m s j = false) : Sound m E ⟨s.data, .ended i, s.client⟩ := by
  obtain ⟨d, q, c⟩ := s
  obtain rfl : q = .head i := hq
  exact ⟨hs.alternate, hs.server_ge, hs.ge, nofun, hs.tickets, hs.round_pos, .inr (.inr ⟨i, rfl⟩),
    trivial, hs.valid, hs.undecided, hs.left, hs.cards, fun h => absurd rfl (h.2 i), hs.gone,
    fun h => absurd rfl (h.2 i), fun h => absurd rfl (h.2 i), hs.lt, fun h => absurd rfl (h.2 i),
    nofun, nofun, nofun, nofun, fun _ _ => hnone⟩

/-- **A step of the server.** -/
theorem Sound.server_turn {q : Server n} {rand : Nat} (hs : Sound m E s)
    (h : gameServerWork m s.server s.data rand = some (l, d', q)) :
    ∃ E', Sound m E' ⟨d', q, s.client⟩ := by
  obtain ⟨d, q₀, c⟩ := s
  have hbound := hs.round_le
  cases q₀ with
  | head i =>
      cases h
      split
      · exact ⟨E, hs.serve rfl ⟨‹_›, (by simp)⟩ (by simp) rfl rfl rfl (fun _ => rfl) (fun _ => rfl)
          (fun _ => rfl) rfl (by simp) (by simp) (by rintro _ ⟨⟩) (by rintro ⟨⟩)⟩
      · have hi : i = m + 1 := by
          rcases hbound with hi | hi | ⟨i', hi⟩
          · exact absurd hi ‹_›
          · cases hi; rfl
          · cases hi
        exact ⟨E, hs.server_ended rfl fun j => hs.last_round hi⟩
  | arrive w i active => cases h; exact hs.server_arrive
  | inside w i active ticket =>
      obtain ⟨e, he, heq⟩ := Option.map_eq_some_iff.mp h
      obtain ⟨hticket, rfl⟩ := Data.leave_eq_some he
      cases heq
      exact ⟨E, hs.server_leave hticket⟩
  | scan i rest best =>
      have hplays : Server.Plays m (.scan i rest best : Server n) :=
        hs.plays (by simp) (by simp)
      have hE : E = base ⟨d, .scan i rest best, c⟩ + 1 := (hs.server_eq rfl).symm
      obtain ⟨seen, hseen, hbest⟩ := hs.scanning i rest best rfl
      cases rest with
      | cons j rest =>
          cases h
          refine ⟨E, hs.serve rfl hplays (by simp) rfl rfl rfl trivial (fun _ => rfl) (fun _ => rfl) rfl
            (fun i' rest' best' hq => ?_) (by simp) (by rintro _ ⟨⟩) (by rintro ⟨⟩)⟩
          cases hq
          refine ⟨seen ++ [j], by rw [← hseen, List.append_assoc]; rfl, hbest.look fun hj => ?_⟩
          exact (hs.laid hE (hs.inRound_of_playing hplays (decide_eq_true hj))).2.2.1
      | nil =>
          rw [List.append_nil] at hseen
          subst hseen
          have hpos := (hbest.spec.2.2 (hs.exists_playing hplays hE)).2
          cases h
          rw [if_neg hpos.ne']
          exact ⟨E, hs.serve rfl hplays (by simp) rfl rfl rfl trivial (fun _ => rfl) (fun _ => rfl) rfl
            (by simp) (by simp) (by rintro _ ⟨⟩) (by rintro ⟨⟩)⟩
  | award i rest best =>
      have hplays : Server.Plays m (.award i rest best : Server n) :=
        hs.plays (by simp) (by simp)
      cases rest with
      | cons j rest =>
          simp only [gameServerWork] at h
          split at h
          · cases h
            refine ⟨E, hs.serve rfl hplays (by simp) rfl rfl rfl trivial (fun k => ?_) (fun k => ?_) rfl
              (by simp) (by simp) (by rintro _ ⟨⟩) (by rintro ⟨⟩)⟩
            all_goals
              by_cases hk : k = j
              · subst hk; simp [Data.row]
              · simp [Data.row, hk]
          · cases h
            exact ⟨E, hs.serve rfl hplays (by simp) rfl rfl rfl trivial (fun _ => rfl) (fun _ => rfl) rfl
              (by simp) (by simp) (by rintro _ ⟨⟩) (by rintro ⟨⟩)⟩
      | nil =>
          cases h
          exact ⟨E, hs.serve rfl hplays (by simp) rfl rfl rfl (fun _ => rfl) (fun _ => rfl)
            (fun _ => rfl) rfl (by simp) (by simp) (by rintro _ ⟨⟩) (by rintro ⟨⟩)⟩
  | count i rest active =>
      have hplays : Server.Plays m (.count i rest active : Server n) :=
        hs.plays (by simp) (by simp)
      obtain ⟨seen, hseen, hactive⟩ := hs.counting i rest active rfl
      cases rest with
      | cons j rest =>
          cases h
          refine ⟨E, hs.serve rfl hplays (by simp) rfl rfl rfl trivial (fun _ => rfl) (fun _ => rfl) rfl
            (by simp) (fun i' rest' active' hq => ?_) (by rintro _ ⟨⟩) (by rintro ⟨⟩)⟩
          cases hq
          refine ⟨seen ++ [j], by rw [← hseen, List.append_assoc]; rfl, ?_⟩
          rw [List.filter_append, List.length_append, ← hactive]
          by_cases hj : (d.playerData j).active = .playing
          · rw [if_pos hj]
            simp [playing, hj]
          · rw [if_neg hj]
            simp [playing, hj]
      | nil =>
          rw [List.append_nil] at hseen
          subst hseen
          rw [← tally_finRange] at hactive
          cases h
          split
          · refine ⟨E, hs.serve rfl hplays (by simp) rfl rfl rfl (fun h => absurd rfl h) (fun _ => rfl)
              (fun _ => rfl) rfl (by simp) (by simp) (fun active' hq => ?_) (by rintro ⟨⟩)⟩
            cases hq
            exact ‹active = 0›.symm.trans hactive
          · refine ⟨E, hs.serve rfl hplays (by simp) rfl rfl rfl (Nat.pos_of_ne_zero ‹_›) (fun _ => rfl)
              (fun _ => rfl) rfl (by simp) (by simp) (fun active' hq => ?_) (by rintro ⟨⟩)⟩
            cases hq
            exact hactive
  | destroyBegin i active =>
      have hplays : Server.Plays m (.destroyBegin i active : Server n) :=
        hs.plays (by simp) (by simp)
      simp only [gameServerWork] at h
      split at h
      · cases h
        refine ⟨E, hs.serve rfl hplays (by simp) rfl rfl rfl hs.server (fun _ => rfl) (fun _ => rfl) rfl
          (by simp) (by simp) hs.counted fun _ => ?_⟩
        have hE : E = 4 * (i - 1) + 3 := (hs.server_eq rfl).symm
        have hleaving := (hs.empty (g := false) (decide_eq_true (by omega))).2
        exact hleaving.symm.trans (of_decide_eq_true ‹_›)
      · cases h
  | initBegin i active =>
      have hplays : Server.Plays m (.initBegin i active : Server n) :=
        hs.plays (by simp) (by simp)
      have hE : E = 4 * (i - 1) + 3 := (hs.server_eq rfl).symm
      have hpos : 0 < active := hs.server
      have hactive := hs.counted active rfl
      obtain ⟨harrived, hleaving⟩ := hs.empty (g := false) (decide_eq_true (by omega))
      cases h
      have hnew : Function.update (standing ⟨d, .initBegin i active, c⟩) none
          (Server.standing (.arrive .game2 i active : Server n)) = standing ⟨d, .initBegin i active, c⟩ :=
        Function.update_eq_self none _
      refine ⟨E, hs.server_step rfl hplays (by simp) ?_ hs.server_ge (.inl rfl) (by simp)
        (fun h => absurd rfl h) (fun _ => rfl) (fun _ => rfl) rfl ?_ ?_ (by simp) (by simp) ?_
        (by rintro ⟨⟩)⟩
      · rw [hnew]
        exact hs.alternate.init harrived (hleaving.trans (hs.emptied rfl)) _
      · rw [← hactive]
        exact (if_pos (decide_eq_true hpos.ne')).symm
      · rw [hnew]
        exact hs.lt
      · intro active' hq
        cases hq
        exact hactive
  | destroyGame i active =>
      have hplays : Server.Plays m (.destroyGame i active : Server n) :=
        hs.plays (by simp) (by simp)
      simp only [gameServerWork] at h
      split at h
      · cases h
        refine ⟨E, hs.serve rfl hplays (by simp) rfl rfl rfl hs.server (fun _ => rfl) (fun _ => rfl) rfl
          (by simp) (by simp) hs.counted fun _ => ?_⟩
        have hE : E = 4 * (i - 1) + 4 := (hs.server_eq rfl).symm
        have hleaving := (hs.empty (g := true) (decide_eq_false (by omega))).2
        exact hleaving.symm.trans (of_decide_eq_true ‹_›)
      · cases h
  | initGame i active =>
      have hplays : Server.Plays m (.initGame i active : Server n) :=
        hs.plays (by simp) (by simp)
      have hE : E = 4 * (i - 1) + 4 := (hs.server_eq rfl).symm
      have hpos : 0 < active := hs.server
      have hactive := hs.counted active rfl
      have hbegin := hs.beginCount hplays
      have hlinger := hs.emptied rfl
      obtain ⟨harrived, hleaving⟩ := hs.empty (g := true) (decide_eq_false (by omega))
      cases h
      have hnew : Function.update (standing ⟨d, .initGame i active, c⟩) none ⟨E, false⟩ =
          standing ⟨d, .initGame i active, c⟩ := by
        rw [hE]
        exact Function.update_eq_self none _
      refine ⟨E, hs.server_next hplays hE rfl (.inl ⟨_, rfl⟩) ?_ rfl ?_ (fun _ => ?_) (fun _ g => ?_)
        (fun _ => hactive ▸ hpos) (by simp)⟩
      · rcases Nat.lt_or_eq_of_le hplays.1 with hlt | heq
        · exact .inl hlt
        · exact .inr (.inl (congrArg (fun i => Server.head (i + 1)) heq))
      · rw [hnew]
        exact hs.alternate.init harrived (hleaving.trans hlinger) _
      · rw [hnew]
        exact hlinger
      · cases g with
        | true => exact congrArg (· + 1) hactive
        | false => exact hbegin
  | ended i => cases h
  | crashed i => cases h

/-! ### The game -/

theorem crowd_start (hm : 1 ≤ m) : tally id (inRound m (start n m)) = n := by
  have htally := (tally_eq_card_iff id (f := inRound m (start n m))).mpr fun j =>
    inRound_iff.mpr (.inr ⟨rfl, decide_eq_true hm⟩)
  rw [htally, Fintype.card_fin]

theorem sound_start (hn : 0 < n) : Sound m 0 (start n m) where
  alternate := by
    have hwho : standing (start n m) = fun _ => ⟨0, false⟩ := by
      funext p
      cases p <;> rfl
    rw [hwho]
    refine ⟨fun g => ?_, fun g => ?_, fun g => ?_, fun _ => Nat.zero_le _, nofun, nofun⟩
    · cases g <;> rfl
    · rw [waiting, tally_eq_zero _ fun _ => rfl, ite_self]
      rfl
    · rw [lingering, tally_eq_zero _ fun _ => rfl, ite_self]
      rfl
  server_ge := Nat.zero_le _
  ge _ _ := Nat.zero_le _
  ticket := nofun
  tickets _ _ h := nomatch h
  round_pos := le_rfl
  round_le := by
    by_cases hm : m = 0
    · subst hm; exact .inr (.inl rfl)
    · exact .inl (Nat.one_le_iff_ne_zero.mpr hm)
  server := trivial
  valid _ := Player.valid_start
  undecided _ _ := rfl
  left _ h := nomatch h
  cards _ h := absurd h (lt_irrefl 0)
  clear _ _ h := nomatch h
  gone _ h := absurd h (Nat.not_lt_zero _)
  gameCount h := by
    rw [tally_member, crowd_start h.1]
    rfl
  beginCount h := by
    rw [tally_member, crowd_start h.1]
    rfl
  lt _ := by
    rw [waiting, tally_eq_zero _ fun p => by cases p <;> rfl]
    exact tally_pos id (a := none) rfl
  crowd h := by
    rw [crowd_start h.1]
    exact hn
  scanning := nofun
  counting := nofun
  counted := nofun
  emptied := nofun
  ended := nofun

theorem Sound.step (hs : Sound m E s) (h : Step m s l t) : ∃ E', Sound m E' t := by
  cases h with
  | server rand l d q h => exact hs.server_turn h
  | client j rand l d q h => exact hs.client_turn (playerWork_turn h)

/-- **Every state of a game is sound.** -/
theorem sound (hn : 0 < n) {tr : List (Move (State n) (Option (Event n)))}
    (r : Run (Step m) (start n m) tr s) : ∃ E, Sound m E s :=
  r.invariant (I := fun s => ∃ E, Sound m E s) (fun ⟨_, hs⟩ h => hs.step h) ⟨0, sound_start hn⟩

/-! ### No deadlock -/

theorem Data.leave_eq_none {g : Bool} {ticket : Nat} (h : d.leave g ticket = none) :
    (d.barrier g).episode ≤ ticket := by
  rw [Data.leave, Option.map_eq_none_iff, Barrier.leave] at h
  split at h
  · cases h
  · exact not_lt.mp ‹_›

/-- Who is inside and cannot leave waits for the next episode. -/
theorem Sound.waits {w : Wait} {k ticket : Nat} (hs : Sound m E s)
    (hA : (standing s p).arrivals = 4 * k + w.index + 1)
    (hticket : ticket = (4 * k + w.index) / 2) (h : s.data.leave w.barrier ticket = none) :
    (standing s p).arrivals = E + 1 := by
  have hreleased := (hs.alternate.released_iff (p := p) (by omega)).not
  rw [hA, Nat.add_sub_cancel, barrierOf_wait w k, ← hticket, not_lt, not_le] at hreleased
  have hle := hs.alternate.le p
  have hlt := hreleased.mp (Data.leave_eq_none h)
  omega

/-- Where a player is that cannot go on. -/
theorem Sound.idle (hs : Sound m E s) (h : ¬ Live (gameServerWork m) (playerWork m) s) (j : Fin n) :
    (s.client j).stage = .left ∨ (s.client j).stage = .finished ∨
      (s.client j).stage.isInside = true ∧ (s.client j).standing.arrivals = E + 1 := by
  have hstuck : playerWork m j (s.client j) s.data 0 = none := by
    by_contra hne
    exact h (Live.client (Option.isSome_iff_ne_none.mpr hne))
  have hvalid := hs.valid j
  have htickets := hs.tickets j
  have hwaits : ∀ (w : Wait) (k ticket : Nat),
      (s.client j).standing.arrivals = 4 * k + w.index + 1 → ticket = (4 * k + w.index) / 2 →
      s.data.leave w.barrier ticket = none → (s.client j).standing.arrivals = E + 1 :=
    fun w k _ => hs.waits (p := some j) (w := w) (k := k)
  generalize s.client j = q at hstuck hvalid htickets hwaits ⊢
  obtain ⟨stage, i, cards, last, ticket⟩ := q
  cases stage with
  | left => exact .inl rfl
  | finished => exact .inr (.inl rfl)
  | inside w =>
      exact .inr (.inr ⟨rfl, hwaits w (i - 1) ticket rfl (htickets w rfl)
        (Option.map_eq_none_iff.mp hstuck)⟩)
  | draw =>
      simp only [playerWork] at hstuck
      split at hstuck
      · split at hstuck <;> cases hstuck
      · cases hstuck
  | check =>
      simp only [playerWork] at hstuck
      split at hstuck <;> cases hstuck
  | failed => exact absurd rfl hvalid.failed
  | arrive | readScore | decide => cases hstuck

/-- Nobody stays at a barrier after its episode, so that `destroy` returns. -/
theorem lingering_zero (hin : s.server.isInside = false)
    (h : ∀ j, (s.client j).stage = .left ∨ (s.client j).stage = .finished ∨
      (s.client j).stage.isInside = true ∧ (s.client j).standing.arrivals = E + 1) :
    lingering E (standing s) = 0 := by
  refine lingering_eq_zero.mpr fun p hp => ?_
  cases p with
  | none => exact Bool.noConfusion (hp.symm.trans hin)
  | some j =>
      change (s.client j).stage.isInside = true at hp
      rcases h j with hj | hj | ⟨-, hA⟩
      · rw [hj] at hp
        cases hp
      · rw [hj] at hp
        cases hp
      · exact hA.trans_ne (Nat.succ_ne_self E)

/-- Who has gone takes part in no episode of the round that has still to come. -/
theorem Sound.not_inRound_of_gone (hs : Sound m E s) (hE : E < base s + 4)
    (h : (s.client j).stage = .left ∨ (s.client j).stage = .finished) : ¬ inRound m s j = true := by
  intro hj
  have hA : (s.client j).standing.arrivals % 4 = 0 ∧ (s.client j).standing.inside = false ∧
      due m (s.data.playerData j).active (s.client j) = false := by
    rcases h with h | h <;> simp [Player.standing, Stage.arrivals, Stage.isInside, due, h]
  have hle := hs.arrivals_le (p := some j) hA.2.1
  change (s.client j).standing.arrivals ≤ E at hle
  rw [inRound_iff, hA.2.2] at hj
  have hlt := hj.resolve_right (by rintro ⟨-, ⟨⟩⟩)
  simp only [base] at hE hlt
  omega

/-- **No deadlock.**  Somebody can go on, or the server has ended and all players have left. -/
theorem Sound.live (hs : Sound m E s) :
    Live (gameServerWork m) (playerWork m) s ∨
      (∃ i, s.server = .ended i) ∧
        ∀ j, (s.client j).stage = .left ∨ (s.client j).stage = .finished := by
  by_cases h : Live (gameServerWork m) (playerWork m) s
  · exact .inl h
  right
  have hidle := hs.idle h
  have hserver : gameServerWork m s.server s.data 0 = none := by
    by_contra hne
    exact h (Live.server (Option.isSome_iff_ne_none.mpr hne))
  have hlinger := fun hin => lingering_zero hin hidle
  obtain ⟨d, q, c⟩ := s
  cases q with
  | inside w i active ticket =>
      -- the server waits, and so does everybody else of its round
      have hA := hs.waits (p := none) (w := w) (k := i - 1) rfl (hs.ticket w i active ticket rfl)
        (Option.map_eq_none_iff.mp hserver)
      have hE : 4 * (i - 1) + w.index + 1 = E + 1 := hA
      have hw : w.index < 4 := by cases w <;> decide
      have hlt : E < base ⟨d, .inside w i active ticket, c⟩ + 4 := by
        simp only [base, Server.round]
        omega
      refine absurd (le_waiting fun p hp => ?_) (not_le.mpr (hs.lt hlt))
      cases p with
      | none => exact hA
      | some j =>
          rcases hidle j with hj | hj | ⟨-, hj⟩
          · exact absurd hp (hs.not_inRound_of_gone hlt (.inl hj))
          · exact absurd hp (hs.not_inRound_of_gone hlt (.inr hj))
          · exact hj
  | ended i =>
      refine ⟨⟨i, rfl⟩, fun j => ?_⟩
      rcases hidle j with hj | hj | ⟨-, hA⟩
      · exact .inl hj
      · exact .inr hj
      · have hnone := hs.ended i rfl j
        rw [show inRound m _ j = true from hs.member_of_waiting (p := some j) hA] at hnone
        cases hnone
  | destroyBegin i active =>
      have hE : E = 4 * (i - 1) + 3 := (hs.server_eq rfl).symm
      have hleaving := (hs.empty (g := false) (decide_eq_true (by omega))).2
      have hdestroyed : (d.barrier false).destroyed = true :=
        decide_eq_true (hleaving.trans (hlinger rfl))
      simp only [gameServerWork, if_pos hdestroyed] at hserver
      cases hserver
  | destroyGame i active =>
      have hE : E = 4 * (i - 1) + 4 := (hs.server_eq rfl).symm
      have hleaving := (hs.empty (g := true) (decide_eq_false (by omega))).2
      have hdestroyed : (d.barrier true).destroyed = true :=
        decide_eq_true (hleaving.trans (hlinger rfl))
      simp only [gameServerWork, if_pos hdestroyed] at hserver
      cases hserver
  | scan i rest best => cases rest <;> cases hserver
  | award i rest best =>
      cases rest with
      | nil => cases hserver
      | cons j rest =>
          simp only [gameServerWork] at hserver
          split at hserver <;> cases hserver
  | count i rest active => cases rest <;> cases hserver
  | crashed i => exact hs.server.elim
  | head | arrive | initBegin | initGame => cases hserver

end Sop2.Cards.Barriers
