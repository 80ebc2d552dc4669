import Sop2.Lab06.Cards.Reopening

/-!
# Lab06 — Cards — the rounds

What is seen of a game with barriers.  The card of a player in round `i` is the `i`-th that it has
drawn (`cardIn`); who has none in a round that is over has resigned, and draws no more, so that what
can be said of the round stays as it is (`Outcome`).

* `record`: what holds of all that is seen, in every state of a game.
* `lockstep_law`: the barriers keep the players and the server in step.
-/

namespace Sop2.Cards.Barriers
open Support Support.Shared

variable {n m E : Nat} {s t : State n} {es : List (Event n)} {j : Fin n} {d d' : Data n}
  {q' : Player} {l : Option (Event n)} {p : Option (Fin n)}

/-! ### The cards of a round -/

/-- The card of `j` in round `i`. -/
def cardIn (i : Nat) (j : Fin n) (es : List (Event n)) : Option Int := (drawn j es)[i - 1]?

theorem cardIn_append {i : Nat} {c : Int} (fs : List (Event n)) (h : cardIn i j es = some c) :
    cardIn i j (es ++ fs) = some c := by
  rw [cardIn, drawn_append]
  exact List.getElem?_append_left (List.getElem?_eq_some_iff.mp h).1 ▸ h

theorem cardIn_of_drawn {fs : List (Event n)} (h : drawn j fs = []) (i : Nat) :
    cardIn i j (es ++ fs) = cardIn i j es := by
  rw [cardIn, drawn_append, h, List.append_nil, cardIn]

/-- The last card is that of the round, if as many have been drawn. -/
theorem cardIn_length {i : Nat} (h : (drawn j es).length = i) :
    cardIn i j es = (drawn j es).getLast? := by
  rw [cardIn, List.getLast?_eq_getElem?, h]

theorem cardIn_eq_none {i : Nat} (hi : 1 ≤ i) : cardIn i j es = none ↔ (drawn j es).length < i := by
  rw [cardIn, List.getElem?_eq_none_iff]
  omega

/-! ### The record of a game -/

/-- The places after the points of the round were added. -/
def Server.published : Server n → Bool
  | .arrive .begin1 _ _ | .inside .begin1 _ _ _ => false
  | .arrive _ _ _ | .inside _ _ _ _ | .count _ _ _ | .destroyBegin _ _ | .initBegin _ _
  | .destroyGame _ _ | .initGame _ _ => true
  | _ => false

/-- The places where points of the round may have been added. -/
def Server.awarding : Server n → Bool
  | .award _ _ _ => true
  | q => q.published

/-- The points of round `i` have been added. -/
def isOver (s : State n) (i : Nat) : Prop :=
  i < s.server.round ∨ i = s.server.round ∧ s.server.published = true

/-- The points of the round that it has not read. -/
def Player.unread (j : Fin n) (es : List (Event n)) (q : Player) : Int :=
  if q.stage.hasRead then 0 else (points q.round j es : Int)

/-- Whether the server finds the card `c` in the row of `j`: from round `i`, or from before. -/
def finds (i : Nat) (es : List (Event n)) (c : Int) (j : Fin n) : Bool :=
  decide (cardIn i j es = some c ∨ cardIn i j es = none ∧ (drawn j es).getLast? = some c)

theorem finds_congr {i : Nat} {fs : List (Event n)} {c : Int} (hcard : cardIn i j fs = cardIn i j es)
    (hdrawn : cardIn i j es = none → drawn j fs = drawn j es) : finds i fs c j = finds i es c j := by
  rw [finds, finds, hcard]
  cases h : cardIn i j es with
  | none => rw [hdrawn h]
  | some c' => simp

/-- What happened in round `i`. -/
structure Outcome (i : Nat) (es : List (Event n)) (best : Int × Nat) : Prop where
  upper : ∀ j c, cardIn i j es = some c → c ≤ best.1
  count : best.2 = tally id fun j => decide (cardIn i j es = some best.1)
  pos : 0 < best.2
  points : ∀ j, points i j es = if finds i es best.1 j then n / best.2 else 0

theorem Outcome.congr {i : Nat} {fs : List (Event n)} {best : Int × Nat} (h : Outcome i es best)
    (hcards : ∀ j, cardIn i j fs = cardIn i j es ∧ (cardIn i j es = none → drawn j fs = drawn j es))
    (hpoints : ∀ j, Cards.points i j fs = Cards.points i j es) : Outcome i fs best := by
  refine ⟨fun j c hj => h.upper j c ((hcards j).1 ▸ hj), ?_, h.pos, fun j => ?_⟩
  · simp only [fun j => (hcards j).1]
    exact h.count
  · rw [hpoints, h.points, finds_congr (hcards j).1 (hcards j).2]

/-- What the places of the server say about the points of the round. -/
def Tallied (es : List (Event n)) (table : Table n) : Server n → Prop
  | .award i rest best => HighestOf table (List.finRange n) best ∧
      ∃ paid, paid ++ rest = List.finRange n ∧
        ∀ j, points i j es = if j ∈ paid ∧ (table j).card = best.1 then n / best.2 else 0
  | _ => True

structure Record (m : Nat) (es : List (Event n)) (s : State n) : Prop where
  length : ∀ j, (drawn j es).length = (s.client j).draws
  card : ∀ j, drawn j es ≠ [] → (drawn j es).getLast? = some (s.data.playerData j).card
  later : ∀ i j, s.server.round < i → points i j es = 0
  before : s.server.awarding = false → ∀ j, points s.server.round j es = 0
  tallied : Tallied es s.data.playerData s.server
  outcome : ∀ i, 1 ≤ i → isOver s i → ∃ best, Outcome i es best
  /-- Who has no card of a round that is over has resigned. -/
  without : ∀ i, 1 ≤ i → isOver s i → ∀ j, cardIn i j es = none →
    (s.data.playerData j).active = .resigned ∧
      ((s.client j).stage = .check ∨ (s.client j).stage = .left)
  last : ∀ j, inRound m s j = true →
    (s.client j).lastScore + (s.client j).unread j es = (s.data.playerData j).score
  saw : ∀ i j card, .saw i j card ∈ es → cardIn i j es = some card
  scored : ∀ i j (p : Int), .scored i j p ∈ es → p = points i j es ∧ isOver s i

theorem record_start : Record m [] (start n m) where
  length _ := rfl
  card _ h := absurd rfl h
  later _ _ _ := rfl
  before _ _ := rfl
  tallied := trivial
  outcome i hi h := by
    rcases h with h | ⟨-, h⟩
    · exact absurd h (not_lt.mpr hi)
    · cases h
  without i hi h := by
    rcases h with h | ⟨-, h⟩
    · exact absurd h (not_lt.mpr hi)
    · cases h
  last _ _ := rfl
  saw _ _ _ h := nomatch h
  scored _ _ _ h := nomatch h

/-! ### The steps of a player -/

/-- A player reads its score when the server has updated it. -/
theorem Sound.reading (hs : Sound m E s) (h : (s.client j).stage = .readScore) :
    (s.client j).round = s.server.round ∧ s.server.published = true := by
  have hin : (s.client j).stage.isInside = false := by rw [h]; rfl
  have hE := hs.client_arrivals (j := j) (by rw [due, h]) hin
  rw [h, Stage.arrivals] at hE
  have hge := hs.server_ge
  have hle : s.server.standing.arrivals ≤ E + 1 := hs.alternate.le none
  have heq := hs.server_eq
  have hpos := hs.round_pos
  have hround := (hs.valid j).round_pos
  generalize s.server = q at hge hle heq hpos
  cases q with
  | arrive w =>
      have heq := heq rfl
      cases w <;> simp only [Server.standing, Server.arrivals, Wait.index, Server.round] at heq hpos ⊢ <;>
        first | omega | exact ⟨by omega, rfl⟩
  | inside w =>
      cases w <;>
        simp only [Server.standing, Server.arrivals, Wait.index, Server.round] at hge hle hpos ⊢ <;>
        first | omega | exact ⟨by omega, rfl⟩
  | _ =>
      have heq := heq rfl
      simp only [Server.standing, Server.arrivals, Server.round] at heq hpos ⊢
      omega

/-- Before its arrival in a round, no points of that round are added. -/
theorem Sound.not_awarding (hs : Sound m E s) (hE : E = base s) : s.server.awarding = false := by
  have hle : s.server.standing.arrivals ≤ E + 1 := hs.alternate.le none
  have heq := hs.server_eq
  rw [hE] at hle heq
  generalize hq : s.server = q at hle heq
  simp only [base, hq] at hle heq
  cases q with
  | arrive w =>
      have heq := heq rfl
      cases w <;> first | rfl | simp only [Server.standing, Server.arrivals, Wait.index, Server.round] at heq
      all_goals omega
  | inside w =>
      cases w <;> first | rfl | simp only [Server.standing, Server.arrivals, Wait.index, Server.round] at hle
      all_goals omega
  | head | ended | crashed | scan => rfl
  | _ =>
      have heq := heq rfl
      simp only [Server.standing, Server.arrivals, Server.round] at heq
      omega

/-- Who has resigned and leaves draws no more. -/
theorem Turn.of_resigned (h : Turn m j s.data (s.client j) l d' q')
    (hactive : (s.data.playerData j).active = .resigned)
    (hstage : (s.client j).stage = .check ∨ (s.client j).stage = .left) :
    l = none ∧ d' = s.data ∧ q'.stage = .left := by
  have hleft := h.not_left
  have hstage := hstage.resolve_right hleft
  generalize s.client j = q at h hstage
  cases h with
  | resigned => exact ⟨rfl, rfl, rfl⟩
  | next i cards last ticket hplaying => rw [hactive] at hplaying; cases hplaying
  | _ => cases hstage

/-- What a player has not read, after a step that is not its reading. -/
theorem Record.unread_turn (hs : Sound m E s) (hR : Record m es s)
    (h : Turn m j s.data (s.client j) l d' q') (hin : inRound m s j = true)
    (hread : (s.client j).stage ≠ .readScore) :
    q'.lastScore + q'.unread j es = (s.client j).lastScore + (s.client j).unread j es := by
  have hge := hs.ge j hin
  have hbase := hs.base_le
  have hnot := fun hE => hs.not_awarding (hE : E = base s)
  have hvalid := (hs.valid j).round_pos
  have hlater := hR.later
  have hbefore := hR.before
  generalize s.client j = q at h hge hread hvalid
  cases h with
  | readScore => exact absurd rfl hread
  | leave w => cases w <;> rfl
  | arrive w => cases w <;> rfl
  | next i cards last ticket =>
      -- the server has not added points of the next round
      have hzero : points (i + 1) j es = 0 := by
        simp only [Player.standing, Stage.arrivals, base] at hge hbase hvalid
        rcases Nat.lt_or_ge s.server.round (i + 1) with hlt | hle
        · exact hlater (i + 1) j hlt
        · have hi : s.server.round = i + 1 := by omega
          have hE : E = base s := by
            simp only [base]
            omega
          exact hi ▸ hbefore (hnot hE) j
      simp [Player.unread, Stage.hasRead, hzero]
  | draw | fail | finish | decide | resigned => rfl

/-- **A step of a player.** -/
theorem Record.client (hs : Sound m E s) (hR : Record m es s)
    (h : Turn m j s.data (s.client j) l d' q') :
    Record m (es ++ l.toList) ⟨d', s.server, Function.update s.client j q'⟩ := by
  have hvalid := hs.valid j
  obtain ⟨hpoints, hsaw, hother⟩ := h.shows
  obtain ⟨hdraws, hdrew, hsame⟩ := h.draws hvalid
  obtain ⟨hrows, -, -, hstill⟩ := hs.rows h
  have hgone : ∀ i, 1 ≤ i → isOver s i → cardIn i j es = none → drawn j l.toList = [] :=
    fun i hi hover hnone => by
      obtain ⟨hactive, hstage⟩ := hR.without i hi hover j hnone
      rw [(h.of_resigned hactive hstage).1]
      rfl
  have hself : Function.update s.client j q' j = q' := Function.update_self ..
  have hne : ∀ k ≠ j, Function.update s.client j q' k = s.client k :=
    fun k hk => Function.update_of_ne hk ..
  have hround := hs.inRound_turn h
  generalize Function.update s.client j q' = c at hself hne hround ⊢
  have hpoints : ∀ i k, points i k (es ++ l.toList) = points i k es := fun i k => by
    rw [points_append, hpoints, Nat.add_zero]
  have hcards : ∀ i, 1 ≤ i → isOver s i → ∀ k, cardIn i k (es ++ l.toList) = cardIn i k es ∧
      (cardIn i k es = none → drawn k (es ++ l.toList) = drawn k es) := fun i hi hover k => by
    by_cases hk : k = j
    · subst hk
      cases hcard : cardIn i k es with
      | some c => exact ⟨cardIn_append _ hcard, nofun⟩
      | none =>
          have hnil := hgone i hi hover hcard
          exact ⟨(cardIn_of_drawn hnil i).trans hcard, fun _ => by
            rw [drawn_append, hnil, List.append_nil]⟩
    · exact ⟨cardIn_of_drawn (hother k hk) i, fun _ => by
        rw [drawn_append, hother k hk, List.append_nil]⟩
  refine ⟨fun k => ?_, fun k hk => ?_, fun i k hi => ?_, fun hb k => ?_, ?_,
    fun i hi hover => ?_, fun i hi hover k hk => ?_, fun k hk => ?_, fun i k card hold => ?_,
    fun i k p hold => ?_⟩
  · dsimp only
    by_cases hk : k = j
    · subst hk
      rw [hself, drawn_append, List.length_append, hR.length, ← hdraws, Nat.add_comm]
    · rw [hne k hk, drawn_append, hother k hk, List.append_nil]
      exact hR.length k
  · dsimp only
    by_cases hkj : k = j
    · subst hkj
      rw [drawn_append] at hk ⊢
      cases hl : drawn k l.toList with
      | nil =>
          rw [hl, List.append_nil] at hk
          rw [List.append_nil, hsame hl]
          exact hR.card k hk
      | cons card cards =>
          obtain ⟨-, hone, hcard⟩ := hdrew card (by rw [hl]; simp)
          rw [hone] at hl
          rw [← hl, List.getLast?_concat, hcard]
    · rw [drawn_append, hother k hkj, List.append_nil] at hk ⊢
      rw [hrows k hkj]
      exact hR.card k hk
  · rw [hpoints]
    exact hR.later i k hi
  · rw [hpoints]
    exact hR.before hb k
  · have htallied := hR.tallied
    dsimp only
    cases hq : s.server with
    | award i rest best =>
        rw [hstill (hs.award_mod hq)]
        rw [hq] at htallied
        obtain ⟨hbest, paid, hpaid, hshare⟩ := htallied
        exact ⟨hbest, paid, hpaid, fun k => (hpoints i k).trans (hshare k)⟩
    | _ => trivial
  · obtain ⟨best, hbest⟩ := hR.outcome i hi hover
    exact ⟨best, hbest.congr (hcards i hi hover) (hpoints i)⟩
  · rw [(hcards i hi hover k).1] at hk
    obtain ⟨hactive, hstage⟩ := hR.without i hi hover k hk
    dsimp only
    by_cases hkj : k = j
    · subst hkj
      obtain ⟨-, rfl, hleft⟩ := h.of_resigned hactive hstage
      rw [hself]
      exact ⟨hactive, .inr hleft⟩
    · rw [hne k hkj, hrows k hkj]
      exact ⟨hactive, hstage⟩
  · have hunread : ∀ q : Player, q.unread k (es ++ l.toList) = q.unread k es := fun q => by
      rw [Player.unread, hpoints, Player.unread]
    rw [hround] at hk
    dsimp only
    rw [hunread, h.scores]
    by_cases hkj : k = j
    · subst hkj
      rw [hself]
      by_cases hread : (s.client k).stage = .readScore
      · generalize s.client k = q at h hread
        cases h with
        | readScore => exact Int.add_zero _
        | _ => cases hread
      · rw [hR.unread_turn hs h hk hread]
        exact hR.last k hk
    · rw [hne k hkj]
      exact hR.last k hk
  · rcases List.mem_append.mp hold with hold | hnew
    · exact cardIn_append _ (hR.saw i k card hold)
    · exact absurd hnew (hsaw i k card)
  · rw [hpoints]
    rcases List.mem_append.mp hold with hold | hnew
    · exact hR.scored i k p hold
    · have hlast := hR.last j
      have hreading := hs.reading (j := j)
      have hdue := hs.inRound_of_due (j := j)
      generalize s.client j = q at h hlast hreading hdue
      cases h with
      | readScore i' cards last ticket =>
          simp only [Option.toList_some, List.mem_singleton, Event.scored.injEq] at hnew
          obtain ⟨rfl, rfl, rfl⟩ := hnew
          have hlast : last + (points i k es : Int) = _ := hlast (hdue rfl)
          exact ⟨by omega, .inr (hreading rfl)⟩
      | _ => simp at hnew

/-! ### The steps of the server -/

/-- A step of the server that adds no points, in one round. -/
theorem Record.serve (hR : Record m es s) {q : Server n} {fs : List (Event n)}
    (hround : q.round = s.server.round) (hrows : d'.playerData = s.data.playerData)
    (hdrawn : ∀ j, drawn j fs = []) (hpoints : ∀ i j, points i j fs = 0)
    (hscored : ∀ i j p, .scored i j p ∉ fs)
    (hsaw : ∀ i j card, .saw i j card ∈ fs → cardIn i j es = some card)
    (hawarding : q.awarding = false → s.server.awarding = false)
    (hpublished : s.server.published = true → q.published = true)
    (hover : q.published = true → s.server.published = true ∨
      (∃ best, Outcome s.server.round es best) ∧
        ∀ j, cardIn s.server.round j es = none → (s.data.playerData j).active = .resigned ∧
          ((s.client j).stage = .check ∨ (s.client j).stage = .left))
    (htallied : Tallied (es ++ fs) s.data.playerData q) :
    Record m (es ++ fs) ⟨d', q, s.client⟩ := by
  have hpoints : ∀ i k, points i k (es ++ fs) = points i k es := fun i k => by
    rw [points_append, hpoints, Nat.add_zero]
  have hcards : ∀ i k, cardIn i k (es ++ fs) = cardIn i k es := fun i k =>
    cardIn_of_drawn (hdrawn k) i
  have hdrawn : ∀ k, drawn k (es ++ fs) = drawn k es := fun k => by
    rw [drawn_append, hdrawn, List.append_nil]
  have hback : ∀ i, isOver ⟨d', q, s.client⟩ i → isOver s i ∨ i = s.server.round ∧ q.published = true :=
    fun i hi => by
      rcases hi with hi | ⟨hi, hq⟩
      · exact .inl (.inl (hround ▸ hi))
      · exact .inr ⟨hi.trans hround, hq⟩
  refine ⟨fun k => ?_, fun k => ?_, fun i k hi => ?_, fun hb k => ?_, hrows ▸ htallied,
    fun i hi hi' => ?_, fun i hi hi' k hk => ?_, fun k hk => ?_, fun i k card hmem => ?_,
    fun i k p hmem => ?_⟩
  · rw [hdrawn]
    exact hR.length k
  · rw [hdrawn]
    dsimp only
    rw [hrows]
    exact hR.card k
  · rw [hpoints]
    exact hR.later i k (hround ▸ hi)
  · rw [hpoints]
    dsimp only
    rw [hround]
    exact hR.before (hawarding hb) k
  · have hsome : ∃ best, Outcome i es best := by
      rcases hback i hi' with hi' | ⟨rfl, hq⟩
      · exact hR.outcome i hi hi'
      · rcases hover hq with hq | ⟨hbest, -⟩
        · exact hR.outcome _ hi (.inr ⟨rfl, hq⟩)
        · exact hbest
    obtain ⟨best, hbest⟩ := hsome
    exact ⟨best, hbest.congr (fun k => ⟨hcards i k, fun _ => hdrawn k⟩) (hpoints i)⟩
  · rw [hcards] at hk
    dsimp only
    rw [hrows]
    rcases hback i hi' with hi' | ⟨rfl, hq⟩
    · exact hR.without i hi hi' k hk
    · rcases hover hq with hq | ⟨-, hwithout⟩
      · exact hR.without _ hi (.inr ⟨rfl, hq⟩) k hk
      · exact hwithout k hk
  · rw [inRound_server hround fun j => by rw [hrows]] at hk
    rw [show Player.unread k (es ++ fs) = Player.unread k es from funext fun q => by
      rw [Player.unread, hpoints, Player.unread]]
    dsimp only
    rw [hrows]
    exact hR.last k hk
  · rw [hcards]
    exact (List.mem_append.mp hmem).elim (hR.saw i k card) (hsaw i k card)
  · rw [hpoints]
    obtain ⟨hp, hi⟩ := hR.scored i k p ((List.mem_append.mp hmem).resolve_right (hscored i k p))
    refine ⟨hp, ?_⟩
    rcases hi with hi | ⟨hi, hq⟩
    · exact .inl (hround ▸ hi)
    · exact .inr ⟨hi.trans hround.symm, hpublished hq⟩

/-- A step of the server that shows nothing. -/
theorem Record.quiet (hR : Record m es s) {q : Server n} (hround : q.round = s.server.round)
    (hrows : d'.playerData = s.data.playerData)
    (hawarding : q.awarding = false → s.server.awarding = false)
    (hpublished : q.published = s.server.published) (htallied : Tallied es s.data.playerData q) :
    Record m (es ++ []) ⟨d', q, s.client⟩ :=
  hR.serve hround hrows (fun _ => rfl) (fun _ _ => rfl) (fun _ _ _ => List.not_mem_nil)
    (fun _ _ _ h => absurd h List.not_mem_nil) hawarding (hpublished ▸ id)
    (fun h => .inl (hpublished ▸ h)) (by rwa [List.append_nil])

/-- The next round begins, or the game ends. -/
theorem Record.next (hs : Sound m E s) (hR : Record m es s) {q : Server n}
    (hplays : s.server.Plays m) (hE : E = base s + 4) (hround : q.round = s.server.round + 1)
    (hrows : d'.playerData = s.data.playerData) (hq : q.published = false)
    (hs' : s.server.published = true) (htallied : Tallied es s.data.playerData q) :
    Record m (es ++ []) ⟨d', q, s.client⟩ := by
  rw [List.append_nil]
  have hover : ∀ i, isOver ⟨d', q, s.client⟩ i ↔ isOver s i := fun i => by
    simp only [isOver, hround, hq, hs', Bool.false_eq_true, and_false, or_false, and_true]
    omega
  refine ⟨hR.length, fun j => ?_, fun i j hi => ?_, fun _ j => ?_, hrows ▸ htallied,
    fun i hi h => hR.outcome i hi ((hover i).mp h), fun i hi h => ?_, fun j hj => ?_, hR.saw,
    fun i j p h => ?_⟩
  · dsimp only
    rw [hrows]
    exact hR.card j
  · refine hR.later i j ?_
    dsimp only at hi
    omega
  · refine hR.later _ j ?_
    dsimp only
    omega
  · dsimp only
    rw [hrows]
    exact hR.without i hi ((hover i).mp h)
  · rw [hs.inRound_next hplays hE hround hrows, Bool.and_eq_true] at hj
    dsimp only
    rw [hrows]
    exact hR.last j (hs.inRound_of_playing hplays hj.1)
  · exact ⟨(hR.scored i j p h).1, (hover i).mpr (hR.scored i j p h).2⟩

/-- The rows, while the server looks at the cards: who does not play has a card from before. -/
theorem Record.row (hs : Sound m E s) (hR : Record m es s) (hplays : s.server.Plays m)
    (hE : E = base s + 1) (j : Fin n) :
    (drawn j es).getLast? = some (s.data.playerData j).card ∧
      (playing s.data.playerData j = true →
        cardIn s.server.round j es = some (s.data.playerData j).card) ∧
      (playing s.data.playerData j = false → cardIn s.server.round j es = none ∧
        (s.data.playerData j).active = .resigned ∧
        ((s.client j).stage = .check ∨ (s.client j).stage = .left)) := by
  have hlength := hR.length j
  have hpos := hs.round_pos
  have hcard := hR.card j
  cases hj : inRound m s j with
  | true =>
      obtain ⟨hplaying, hdraws, -⟩ := hs.laid hE hj
      rw [hdraws] at hlength
      have hlast := hcard fun h => by
        rw [h, List.length_nil] at hlength
        omega
      refine ⟨hlast, fun _ => (cardIn_length hlength).trans hlast, fun h => ?_⟩
      exact absurd (hplaying.symm.trans h) Bool.true_eq_false_eq_False.elim
  | false =>
      obtain ⟨hactive, hstage⟩ := hs.resigned_of_not_inRound hplays hj
      have hround := (hs.valid j).round_pos
      have hdraws : (s.client j).draws = (s.client j).round := by
        rcases hstage with h | h <;> rw [Player.draws, h] <;> exact Nat.sub_add_cancel hround
      have harrivals : (s.client j).standing.arrivals = 4 * ((s.client j).round - 1) + 4 := by
        rcases hstage with h | h <;> rw [Player.standing, h] <;> rfl
      have hle : (s.client j).standing.arrivals ≤ base s := not_lt.mp fun hlt =>
        Bool.false_ne_true (hj.symm.trans (inRound_iff.mpr (.inl hlt)))
      have hlast := hcard fun h => by
        rw [h, List.length_nil] at hlength
        omega
      refine ⟨hlast, fun h => ?_, fun _ => ⟨(cardIn_eq_none hpos).mpr ?_, hactive, hstage⟩⟩
      · rw [of_decide_eq_true h] at hactive
        cases hactive
      · simp only [base] at hle
        omega

/-- The server adds points to a score. -/
theorem Record.award {c : Fin n → Player} {i : Nat} {rest : List (Fin n)} {best : Int × Nat}
    (hs : Sound m E ⟨d, .award i (j :: rest) best, c⟩)
    (hR : Record m es ⟨d, .award i (j :: rest) best, c⟩) (hj : (d.playerData j).card = best.1) :
    Record m (es ++ [.awarded i j (n / best.2)])
      ⟨d.row j { d.playerData j with
        score := (d.playerData j).score + ((n / best.2 : Nat) : Int) },
        .award i rest best, c⟩ := by
  obtain ⟨hbest, paid, hpaid, hpoints⟩ := hR.tallied
  have hnodup : (paid ++ j :: rest).Nodup := hpaid ▸ List.nodup_finRange n
  have hfresh : j ∉ paid := fun hmem =>
    (List.nodup_append.mp hnodup).2.2 j hmem j (List.mem_cons_self ..) rfl
  have hnew : ∀ i' k, points i' k (es ++ [.awarded i j (n / best.2)]) =
      points i' k es + if i = i' ∧ j = k then n / best.2 else 0 := fun i' k => by
    rw [points_append]
    rfl
  have hsame : ∀ i' k, i' ≠ i →
      points i' k (es ++ [.awarded i j (n / best.2)]) = points i' k es := fun i' k hi => by
    rw [hnew, if_neg fun h => hi h.1.symm, Nat.add_zero]
  have hother : ∀ i' k, k ≠ j →
      points i' k (es ++ [.awarded i j (n / best.2)]) = points i' k es := fun i' k hk => by
    rw [hnew, if_neg fun h => hk h.2.symm, Nat.add_zero]
  have hdrawn : ∀ k, drawn k (es ++ [.awarded i j (n / best.2)]) = drawn k es := fun k => by
    rw [drawn_append]
    exact List.append_nil _
  have hold : ∀ {e : Event n}, e ∈ es ++ [.awarded i j (n / best.2)] →
      e ≠ .awarded i j (n / best.2) → e ∈ es := fun hmem hne =>
    (List.mem_append.mp hmem).resolve_right fun h => hne (List.mem_singleton.mp h)
  have hrow : ∀ k, ((d.row j { d.playerData j with
      score := (d.playerData j).score + ((n / best.2 : Nat) : Int) }).playerData k).active =
        (d.playerData k).active ∧ ((d.row j { d.playerData j with
      score := (d.playerData j).score + ((n / best.2 : Nat) : Int) }).playerData k).card =
        (d.playerData k).card := fun k => by
    by_cases hk : k = j
    · subst hk
      simp [Data.row]
    · simp [Data.row, hk]
  have hcards : ∀ i' k, cardIn i' k (es ++ [.awarded i j (n / best.2)]) = cardIn i' k es :=
    fun i' k => by rw [cardIn, hdrawn, cardIn]
  have hearlier : ∀ i', isOver ⟨d, .award i (j :: rest) best, c⟩ i' → i' < i := fun i' h =>
    h.resolve_right (by rintro ⟨-, ⟨⟩⟩)
  refine ⟨fun k => ?_, fun k hne => ?_, fun i' k hi => ?_, (by rintro ⟨⟩), ?_, fun i' hi h => ?_,
    fun i' hi h k hk => ?_, fun k hk => ?_, fun i' k card hmem => ?_, fun i' k p hmem => ?_⟩
  · rw [hdrawn]
    exact hR.length k
  · rw [hdrawn] at hne ⊢
    rw [(hrow k).2]
    exact hR.card k hne
  · rw [hsame i' k (Nat.ne_of_gt hi)]
    exact hR.later i' k hi
  · refine ⟨highestOf_score.mpr hbest, paid ++ [j], by simpa using hpaid, fun k => ?_⟩
    rw [(hrow k).2]
    by_cases hk : k = j
    · subst hk
      rw [hnew, hpoints, if_neg fun h => hfresh h.1, if_pos ⟨rfl, rfl⟩, if_pos ⟨by simp, hj⟩,
        Nat.zero_add]
    · rw [hother i k hk, hpoints]
      simp [hk]
  · obtain ⟨best', hbest'⟩ := hR.outcome i' hi h
    exact ⟨best', hbest'.congr (fun k => ⟨hcards i' k, fun _ => hdrawn k⟩)
      fun k => hsame i' k (Nat.ne_of_lt (hearlier i' h))⟩
  · rw [hcards] at hk
    rw [(hrow k).1]
    exact hR.without i' hi h k hk
  · have hround := inRound_server (m := m) (s := ⟨d, .award i (j :: rest) best, c⟩)
      (q := .award i rest best) rfl fun k => (hrow k).1
    have hk : inRound m ⟨d, .award i (j :: rest) best, c⟩ k = true :=
      (congrFun hround k).symm.trans hk
    have hlast := hR.last k hk
    by_cases hkj : k = j
    · subst hkj
      have hE : E = base ⟨d, .award i (k :: rest) best, c⟩ + 1 := (hs.server_eq rfl).symm
      obtain ⟨-, -, -, hround, hread⟩ := hs.laid hE hk
      change (c k).round = i at hround
      change (c k).stage.hasRead = false at hread
      simp only [Player.unread, hround, hread, hnew, Data.row, Function.update_self, and_self,
        if_true, Bool.false_eq_true, if_false] at hlast ⊢
      push_cast
      omega
    · have hunread : ∀ q : Player,
          q.unread k (es ++ [.awarded i j (n / best.2)]) = q.unread k es := fun q => by
        rw [Player.unread, hother _ k hkj, Player.unread]
      rw [hunread]
      simpa [Data.row, hkj] using hlast
  · rw [hcards]
    exact hR.saw i' k card (hold hmem (by simp))
  · obtain ⟨hp, h⟩ := hR.scored i' k p (hold hmem (by simp))
    rw [hsame i' k (Nat.ne_of_lt (hearlier i' h))]
    exact ⟨hp, h⟩

/-- The points of a round have been added. -/
theorem Record.settle {c : Fin n → Player} {i : Nat} {best : Int × Nat}
    (hs : Sound m E ⟨d, .award i [] best, c⟩) (hR : Record m es ⟨d, .award i [] best, c⟩)
    (hplays : Server.Plays m (.award i [] best : Server n)) : Outcome i es best := by
  obtain ⟨hbest, paid, hpaid, hpoints⟩ := hR.tallied
  rw [List.append_nil] at hpaid
  subst hpaid
  have hE : E = base ⟨d, .award i [] best, c⟩ + 1 := (hs.server_eq rfl).symm
  have hrow := hR.row hs hplays hE
  have hcard : ∀ j x, cardIn i j es = some x ↔
      playing d.playerData j = true ∧ (d.playerData j).card = x := fun j x => by
    cases hj : playing d.playerData j with
    | true =>
        have hsome : cardIn i j es = some (d.playerData j).card := (hrow j).2.1 hj
        simp [hsome]
    | false =>
        have hnone : cardIn i j es = none := ((hrow j).2.2 hj).1
        simp [hnone]
  obtain ⟨hupper, hcount, hmem⟩ := hbest.spec
  refine ⟨fun j x hj => ?_, hcount.trans (congrArg (tally id) (funext fun j => ?_)),
    (hmem (hs.exists_playing hplays hE)).2, fun j => ?_⟩
  · obtain ⟨hplaying, rfl⟩ := (hcard j x).mp hj
    exact hupper j hplaying
  · rw [Bool.eq_iff_iff, decide_eq_true_iff, hcard, ← holds_iff.trans (and_congr_left' ?_)]
    · rfl
    · rw [playing, decide_eq_true_iff]
  · rw [hpoints]
    refine if_congr ?_ rfl rfl
    rw [finds, decide_eq_true_iff, and_iff_right (List.mem_finRange j)]
    have hlast : (drawn j es).getLast? = some (d.playerData j).card := (hrow j).1
    cases hj : playing d.playerData j with
    | true =>
        have hsome : cardIn i j es = some (d.playerData j).card := (hrow j).2.1 hj
        simp [hsome]
    | false =>
        have hnone : cardIn i j es = none := ((hrow j).2.2 hj).1
        simp [hnone, hlast]

/-- **A step of the server.** -/
theorem Record.server {rand : Nat} {q : Server n} (hs : Sound m E s) (hR : Record m es s)
    (h : gameServerWork m s.server s.data rand = some (l, d', q)) :
    Record m (es ++ l.toList) ⟨d', q, s.client⟩ := by
  obtain ⟨d, q₀, c⟩ := s
  cases q₀ with
  | head i =>
      cases h
      split <;> exact hR.quiet rfl rfl (fun _ => rfl) rfl trivial
  | arrive w i active =>
      cases h
      exact hR.quiet rfl rfl (by cases w <;> exact id) (by cases w <;> rfl) trivial
  | inside w i active ticket =>
      have hplays : Server.Plays m (.inside w i active ticket : Server n) :=
        hs.plays (by simp) (by simp)
      obtain ⟨e, he, heq⟩ := Option.map_eq_some_iff.mp h
      obtain ⟨hticket, rfl⟩ := Data.leave_eq_some he
      cases heq
      cases w with
      | begin1 => exact hR.quiet rfl rfl (fun _ => rfl) rfl trivial
      | game1 | begin2 => exact hR.quiet rfl rfl id rfl trivial
      | game2 =>
          rw [Wait.afterServer]
          split
          · have hlt : ticket = (4 * (i - 1) + 3) / 2 := hs.ticket .game2 i active ticket rfl
            have hE : E = 4 * (i - 1) + 3 + 1 := hs.leaves (p := none) rfl rfl (by
              rw [← hlt, show barrierOf (4 * (i - 1) + 3) = true from barrierOf_wait .game2 (i - 1)]
              exact hticket)
            exact hR.next hs hplays hE rfl rfl rfl rfl trivial
          · exact hR.quiet rfl rfl id rfl trivial
  | scan i rest best =>
      have hplays : Server.Plays m (.scan i rest best : Server n) :=
        hs.plays (by simp) (by simp)
      have hE : E = base ⟨d, .scan i rest best, c⟩ + 1 := (hs.server_eq rfl).symm
      cases rest with
      | cons j rest =>
          cases h
          have hcard := (hR.row hs hplays hE j).2.1
          refine hR.serve rfl rfl (fun k => ?_) (fun i' k => ?_) (fun i' k p => ?_)
            (fun i' k card hmem => ?_) id id .inl trivial
          · split <;> simp [drawn, Event.drawnBy?]
          · split <;> simp [points, Event.pointsTo]
          · split <;> simp
          · split at hmem
            · cases hmem
            · obtain ⟨rfl, rfl, rfl⟩ := Event.saw.inj (List.mem_singleton.mp hmem)
              refine hcard (decide_eq_true ?_)
              cases hactive : (d.playerData k).active with
              | playing => rfl
              | resigned => exact absurd hactive ‹_›
      | nil =>
          obtain ⟨seen, hseen, hbest⟩ := hs.scanning i [] best rfl
          rw [List.append_nil] at hseen
          subst hseen
          have hpos := (hbest.spec.2.2 (hs.exists_playing hplays hE)).2
          cases h
          rw [if_neg hpos.ne']
          refine hR.quiet rfl rfl (by rintro ⟨⟩) rfl ⟨hbest, [], rfl, fun j => ?_⟩
          rw [if_neg fun h => List.not_mem_nil h.1]
          exact hR.before rfl j
  | award i rest best =>
      have hplays : Server.Plays m (.award i rest best : Server n) :=
        hs.plays (by simp) (by simp)
      cases rest with
      | cons j rest =>
          simp only [gameServerWork] at h
          split at h
          · cases h
            exact hR.award hs ‹_›
          · cases h
            obtain ⟨hbest, paid, hpaid, hpoints⟩ := hR.tallied
            refine hR.quiet rfl rfl id rfl ⟨hbest, paid ++ [j], by simpa using hpaid, fun k => ?_⟩
            rw [hpoints]
            by_cases hk : k = j
            · subst hk
              rw [if_neg fun h => ‹¬ _› h.2, if_neg fun h => ‹¬ _› h.2]
            · simp [hk]
      | nil =>
          cases h
          have hE : E = base ⟨d, .award i [] best, c⟩ + 1 := (hs.server_eq rfl).symm
          have hrow := hR.row hs hplays hE
          refine hR.serve rfl rfl (fun _ => rfl) (fun _ _ => rfl) (fun _ _ _ => List.not_mem_nil)
            (fun _ _ _ h => absurd h List.not_mem_nil) (by rintro ⟨⟩) (by rintro ⟨⟩)
            (fun _ => .inr ⟨⟨best, hR.settle hs hplays⟩, fun j hj => ?_⟩) trivial
          have hnot : playing d.playerData j = false := Bool.eq_false_iff.mpr fun hplaying =>
            Option.some_ne_none _ (((hrow j).2.1 hplaying).symm.trans hj)
          exact ((hrow j).2.2 hnot).2
  | count i rest active =>
      cases rest with
      | cons j rest =>
          cases h
          exact hR.quiet rfl rfl id rfl trivial
      | nil =>
          cases h
          split <;> exact hR.quiet rfl rfl id rfl trivial
  | destroyBegin i active | destroyGame i active =>
      simp only [gameServerWork] at h
      split at h
      · cases h
        exact hR.quiet rfl rfl id rfl trivial
      · cases h
  | initBegin i active =>
      cases h
      exact hR.quiet rfl rfl id rfl trivial
  | initGame i active =>
      have hplays : Server.Plays m (.initGame i active : Server n) :=
        hs.plays (by simp) (by simp)
      cases h
      exact hR.next hs hplays (hs.server_eq rfl).symm rfl rfl rfl rfl trivial
  | ended i => cases h
  | crashed i => cases h

/-- **The record of a game.** -/
theorem record (hn : 0 < n) {tr : List (Move (State n) (Option (Event n)))}
    (r : Run (Step m) (start n m) tr s) : (∃ E, Sound m E s) ∧ Record m (seen tr) s :=
  traced (J := fun es s => (∃ E, Sound m E s) ∧ Record m es s) (fun {es l s t} hJ h => by
    obtain ⟨⟨E, hs⟩, hR⟩ := hJ
    refine ⟨hs.step h, ?_⟩
    cases h with
    | server rand l d q h => exact hR.server hs h
    | client j rand l d q h => exact hR.client hs (playerWork_turn h)) r
    ⟨⟨0, sound_start hn⟩, record_start⟩

/-! ### Who arrives in an episode -/

/-- The episodes that have ended. -/
def episodes (s : State n) : Nat := (s.data.barrier false).episode + (s.data.barrier true).episode

/-- Whether a process will arrive once more, after it has left. -/
def goesOn (m : Nat) (s : State n) : Option (Fin n) → Bool
  | none => s.server.due m
  | some j => due m (s.data.playerData j).active (s.client j)

/-- Whether a process has arrived for the next episode, or will. -/
def attends (m : Nat) (s : State n) (p : Option (Fin n)) : Bool :=
  decide ((standing s p).arrivals = episodes s + 1) ||
    (decide ((standing s p).arrivals = episodes s) && goesOn m s p)

theorem Sound.episodes_eq (hs : Sound m E s) : episodes s = E := by
  rw [episodes, hs.alternate.episode, hs.alternate.episode]
  simp only [Bool.false_eq_true, if_false, if_true]
  omega

theorem Sound.attends_iff (hs : Sound m E s) : attends m s (some j) = true ↔
    (s.client j).standing.arrivals = E + 1 ∨ (s.client j).standing.arrivals = E ∧
      due m (s.data.playerData j).active (s.client j) = true := by
  rw [attends, hs.episodes_eq, Bool.or_eq_true, Bool.and_eq_true, decide_eq_true_iff,
    decide_eq_true_iff]
  rfl

/-- In a round, those of the round. -/
theorem Sound.attends_eq_inRound (hs : Sound m E s) (hE : E < base s + 4) : attends m s (some j) = inRound m s j := by
  rw [Bool.eq_iff_iff, hs.attends_iff]
  constructor
  · rintro (h | ⟨-, h⟩)
    · exact hs.member_of_waiting (p := some j) h
    · exact hs.inRound_of_due h
  · intro h
    have hge := hs.ge j h
    have hle : (s.client j).standing.arrivals ≤ E + 1 := hs.alternate.le (some j)
    rcases Nat.eq_or_lt_of_le hge with heq | hlt
    · refine .inr ⟨heq.symm, ?_⟩
      rcases inRound_iff.mp h with hlt | ⟨-, hdue⟩
      · -- between its first and its last arrival of a round
        rw [heq] at hE
        generalize s.client j = q at hlt hE
        obtain ⟨stage, i, cards, last, ticket⟩ := q
        simp only [Player.standing, base] at hlt hE
        cases stage with
        | arrive | readScore | decide => rfl
        | inside w => cases w <;> first | rfl | (simp only [Stage.arrivals, Wait.index] at hlt hE; omega)
        | draw | check | left | finished | failed =>
            simp only [Stage.arrivals] at hlt hE
            omega
      · exact hdue
    · exact .inl (le_antisymm hle hlt)

/-- Between the rounds, those who play. -/
theorem Sound.attends_eq_playing (hs : Sound m E s) (hplays : s.server.Plays m)
    (hE : E = base s + 4) : attends m s (some j) =
      (playing s.data.playerData j && decide (s.server.round + 1 ≤ m)) := by
  rw [← hs.inRound_next (q := .head (s.server.round + 1)) hplays hE rfl rfl, Bool.eq_iff_iff,
    hs.attends_iff, inRound_iff]
  have hle : (s.client j).standing.arrivals ≤ E + 1 := hs.alternate.le (some j)
  have hpos := hs.round_pos
  have hbase : base ⟨s.data, .head (s.server.round + 1), s.client⟩ = E := by
    change 4 * s.server.round = E
    simp only [base] at hE
    omega
  rw [hbase]
  exact or_congr_left ⟨fun h => h ▸ Nat.lt_succ_self E, fun h => le_antisymm hle h⟩

/-- The server as well. -/
theorem Sound.attends_server (hs : Sound m E s) (hplays : s.server.Plays m)
    (hE : E < base s + 4) : attends m s none = true := by
  have hge := hs.server_ge
  have hle : s.server.standing.arrivals ≤ E + 1 := hs.alternate.le none
  rw [attends, hs.episodes_eq, Bool.or_eq_true, Bool.and_eq_true, decide_eq_true_iff,
    decide_eq_true_iff]
  change s.server.standing.arrivals = E + 1 ∨ s.server.standing.arrivals = E ∧
    s.server.due m = true
  rcases Nat.eq_or_lt_of_le hge with heq | hlt
  · refine .inr ⟨heq.symm, ?_⟩
    have hvalid := hs.server
    obtain ⟨hround, hnot⟩ := hplays
    rw [heq] at hE
    simp only [base] at hE
    generalize s.server = q at hE hround hnot hvalid
    cases q with
    | head i => exact decide_eq_true hround
    | inside w => cases w <;> first | rfl | exact absurd hE (lt_irrefl _)
    | destroyGame | initGame => exact absurd hE (lt_irrefl _)
    | ended i => exact absurd rfl (hnot i)
    | crashed i => exact hvalid.elim
    | arrive | scan | award | count | destroyBegin | initBegin => rfl
  · exact .inl (le_antisymm hle hlt)

/-- After the game, nobody arrives. -/
theorem Sound.plays_of_attends (hs : Sound m E s) (h : attends m s p = true) :
    s.server.Plays m := by
  have hend : s.server.Plays m ∨ s.server = .head (m + 1) ∨ ∃ i, s.server = .ended i := by
    rcases hs.round_le with hm | hq
    · by_cases hq : ∃ i, s.server = .ended i
      · exact .inr (.inr hq)
      · exact .inl ⟨hm, fun i hi => hq ⟨i, hi⟩⟩
    · exact .inr hq
  refine hend.resolve_right fun hq => ?_
  have hnone : ∀ j, inRound m s j = false := fun j => by
    rcases hq with hq | ⟨i, hq⟩
    · exact hs.last_round (by rw [hq]; rfl)
    · exact hs.ended i hq j
  cases p with
  | some j =>
      have hj : inRound m s j = true := by
        rcases hs.attends_iff.mp h with hA | ⟨-, hdue⟩
        · exact hs.member_of_waiting (p := some j) hA
        · exact hs.inRound_of_due hdue
      exact Bool.false_ne_true ((hnone j).symm.trans hj)
  | none =>
      have hin : s.server.isInside = false := by
        rcases hq with hq | ⟨i, hq⟩ <;> rw [hq] <;> rfl
      have hdue : s.server.due m = false := by
        rcases hq with hq | ⟨i, hq⟩ <;> rw [hq]
        · exact decide_eq_false (Nat.not_succ_le_self m)
        · rfl
      have hA := hs.server_eq hin
      rw [attends, hs.episodes_eq, goesOn, hdue, Bool.and_false, Bool.or_false, decide_eq_true_iff] at h
      exact absurd (hA.symm.trans h) (Nat.succ_ne_self E).symm

/-- **As many as will arrive.** -/
theorem Sound.count_eq (hs : Sound m E s) (h : attends m s p = true) :
    (s.data.barrier (barrierOf (episodes s))).count = tally id (attends m s) := by
  have hplays := hs.plays_of_attends h
  rw [hs.episodes_eq, tally_option]
  rcases Nat.lt_or_eq_of_le hs.le_base with hE | hE
  · rw [hs.attends_server hplays hE, funext fun j => hs.attends_eq_inRound (j := j) hE,
      id, Bool.toNat_true, Nat.add_comm, ← tally_member]
    cases hg : barrierOf E with
    | true => exact hs.gameCount hplays
    | false =>
        rw [hs.beginCount hplays, if_neg fun hreopened => ?_]
        have hge := hs.le_of_reopened hreopened
        simp only [barrierOf, base, decide_eq_false_iff_not] at hg hge hE
        omega
  · have hg : barrierOf E = false := by
      rw [hE]
      exact decide_eq_false (by simp only [base]; omega)
    have hA : s.server.standing.arrivals = E := by
      have hle := s.server.arrivals_le
      have hge := hs.server_ge
      simp only [Server.standing, base] at hge hE ⊢
      omega
    have hserver : attends m s none = s.server.due m := by
      rw [attends, hs.episodes_eq]
      change (decide (s.server.standing.arrivals = E + 1) ||
        (decide (s.server.standing.arrivals = E) && _)) = _
      rw [hA, decide_eq_false (Nat.succ_ne_self E).symm, decide_eq_true rfl, Bool.true_and,
        Bool.false_or, goesOn]
    have hplayers := fun j => hs.attends_eq_playing (j := j) hplays hE
    have hcounted := hs.counted
    have hbegin := hs.beginCount hplays
    obtain ⟨active, hactive, hreopened, hdue⟩ : ∃ active, s.server.counted = some active ∧
        s.server.reopened = decide (active ≠ 0) ∧
        s.server.due m = decide (active ≠ 0 ∧ s.server.round + 1 ≤ m) := by
      have hvalid := hs.server
      have hnot := hplays.2
      have harrivals : s.server.arrivals = 4 := by
        simp only [Server.standing, base] at hA hE
        omega
      generalize s.server = q at hvalid hnot harrivals
      cases q with
      | inside w => cases w <;> first | exact ⟨_, rfl, rfl, rfl⟩ | cases harrivals
      | destroyGame i active | initGame i active =>
          have hpos : active ≠ 0 := Nat.pos_iff_ne_zero.mp hvalid
          exact ⟨active, rfl, (decide_eq_true hpos).symm, rfl⟩
      | arrive w => cases w <;> cases harrivals
      | _ => cases harrivals
    have htally := hcounted active hactive
    -- somebody attends, so that the game goes on
    have hgoes : active ≠ 0 ∧ s.server.round + 1 ≤ m := by
      cases p with
      | none => exact of_decide_eq_true (hdue.symm.trans (hserver.symm.trans h))
      | some j =>
          rw [hplayers, Bool.and_eq_true, decide_eq_true_iff] at h
          have hpos := tally_pos id (f := playing s.data.playerData) (a := j) h.1
          exact ⟨by omega, h.2⟩
    rw [hreopened, if_pos (decide_eq_true hgoes.1)] at hbegin
    rw [hg, hbegin, hserver, hdue, decide_eq_true hgoes, funext hplayers,
      decide_eq_true hgoes.2, id, Bool.toNat_true, Nat.add_comm]
    simp only [Bool.and_true]

/-- The server divides by the number of those who win. -/
theorem Sound.winning_pos {i : Nat} {best : Int × Nat} (hs : Sound m E s)
    (hq : s.server = .scan i [] best) : 0 < best.2 := by
  have hplays : s.server.Plays m := hs.plays (by simp [hq]) (by simp [hq])
  have hE := hs.server_eq (by rw [hq]; rfl)
  obtain ⟨seen, hseen, hbest⟩ := hs.scanning i [] best hq
  rw [List.append_nil] at hseen
  subst hseen
  refine (hbest.spec.2.2 (hs.exists_playing hplays ?_)).2
  rw [← hE, base, hq]
  rfl

theorem attends_congr {t : State n} (he : episodes t = episodes s)
    (hA : (standing t p).arrivals = (standing s p).arrivals) (hdue : goesOn m t p = goesOn m s p) :
    attends m t p = attends m s p := by
  rw [attends, attends, he, hA, hdue]

/-- A player that arrives was expected. -/
theorem Sound.attends_of_arrive {w : Wait} (hs : Sound m E s) (h : (s.client j).stage = .arrive w) :
    attends m s (some j) = true ∧ w.barrier = barrierOf (episodes s) := by
  have hdue : due m (s.data.playerData j).active (s.client j) = true := by rw [due, h]
  have hin : (s.client j).stage.isInside = false := by rw [h]; rfl
  have hE := hs.client_arrivals hdue hin
  refine ⟨hs.attends_iff.mpr (.inr ⟨hs.client_eq hin hdue, hdue⟩), ?_⟩
  rw [hs.episodes_eq, hE, h]
  exact (barrierOf_wait w _).symm

/-- Who attends an episode is the same until it ends: the steps of the players. -/
theorem Sound.attends_client {c : Fin n → Player} (hs : Sound m E s)
    (h : Turn m j s.data (s.client j) l d' q') (hc : c = Function.update s.client j q')
    (he : episodes ⟨d', s.server, c⟩ = episodes s) (p : Option (Fin n)) :
    attends m ⟨d', s.server, c⟩ p = attends m s p := by
  cases p with
  | none => exact attends_congr he rfl rfl
  | some k =>
      by_cases hk : k = j
      · subst hk
        have hself : c k = q' := by rw [hc, Function.update_self]
        rcases h.kind (hs.valid k) with ⟨w, hstage, -, rfl, rfl⟩ | ⟨w, hstage, -, -, rfl, rfl⟩ |
          ⟨-, hstanding, -, -, hdue⟩
        · -- it has arrived
          have hA := hs.client_arrivals (j := k) (by rw [due, hstage]) (by rw [hstage]; rfl)
          rw [hstage] at hA
          have hnew : (c k).standing.arrivals = E + 1 := by
            rw [hself, hA]
            rfl
          rw [(hs.attends_of_arrive hstage).1, attends, he, hs.episodes_eq, standing, hnew,
            decide_eq_true rfl, Bool.true_or]
        · refine attends_congr he ?_ ?_
          · change (c k).standing.arrivals = (s.client k).standing.arrivals
            rw [hself, Player.standing, Player.standing, hstage]
            cases w <;> rfl
          · change due m _ (c k) = due m _ (s.client k)
            rw [hself, due, due, hstage]
            cases w <;> rfl
        · refine attends_congr he ?_ ?_
          · change (c k).standing.arrivals = (s.client k).standing.arrivals
            rw [hself, hstanding]
          · change due m _ (c k) = due m _ (s.client k)
            rw [hself, hdue]
      · have hother : c k = s.client k := by rw [hc, Function.update_of_ne hk]
        refine attends_congr he ?_ ?_
        · exact congrArg (fun q : Player => q.standing.arrivals) hother
        · change due m _ (c k) = due m _ (s.client k)
          rw [hother, (hs.rows h).1 k hk]

/-- The server changes nothing in who plays. -/
theorem gameServerWork_active {q q' : Server n} {rand : Nat}
    (h : gameServerWork m q d rand = some (l, d', q')) (k : Fin n) :
    (d'.playerData k).active = (d.playerData k).active := by
  cases q with
  | inside w i active ticket =>
      obtain ⟨e, he, heq⟩ := Option.map_eq_some_iff.mp h
      obtain ⟨-, rfl⟩ := Data.leave_eq_some he
      cases heq
      rfl
  | scan i rest best | count i rest active => cases rest <;> cases h <;> rfl
  | award i rest best =>
      cases rest with
      | nil => cases h; rfl
      | cons j rest =>
          simp only [gameServerWork] at h
          split at h
          · cases h
            by_cases hk : k = j
            · subst hk
              simp [Data.row]
            · simp [Data.row, hk]
          · cases h
            rfl
  | destroyBegin i active | destroyGame i active =>
      simp only [gameServerWork] at h
      split at h
      · cases h
        rfl
      · cases h
  | ended i | crashed i => cases h
  | head | arrive | initBegin | initGame => cases h; rfl

/-- Whether the server will arrive once more, in a step that is no arrival. -/
theorem Sound.due_serve {q : Server n} {rand : Nat} (hs : Sound m E s)
    (h : gameServerWork m s.server s.data rand = some (l, d', q))
    (hno : ∀ w i active, s.server ≠ .arrive w i active) :
    q.standing.arrivals = s.server.standing.arrivals ∧ q.due m = s.server.due m := by
  obtain ⟨d, q₀, c⟩ := s
  have hpos := hs.round_pos
  have hvalid := hs.server
  cases q₀ with
  | head i =>
      cases h
      split
      · exact ⟨rfl, (decide_eq_true ‹_›).symm⟩
      · exact ⟨rfl, (decide_eq_false ‹_›).symm⟩
  | arrive w i active => exact absurd rfl (hno w i active)
  | inside w i active ticket =>
      obtain ⟨e, he, heq⟩ := Option.map_eq_some_iff.mp h
      cases heq
      have hround : 4 * i = 4 * (i - 1) + 4 := by
        change 1 ≤ i at hpos
        omega
      cases w with
      | game2 =>
          rw [Wait.afterServer]
          split
          · exact ⟨hround, (decide_eq_false fun h => h.1 ‹_›).symm⟩
          · exact ⟨rfl, rfl⟩
      | _ => exact ⟨rfl, rfl⟩
  | scan i rest best =>
      cases rest with
      | cons j rest => cases h; exact ⟨rfl, rfl⟩
      | nil =>
          cases h
          rw [if_neg (hs.winning_pos rfl).ne']
          exact ⟨rfl, rfl⟩
  | award i rest best =>
      cases rest with
      | nil => cases h; exact ⟨rfl, rfl⟩
      | cons j rest =>
          simp only [gameServerWork] at h
          split at h <;>
          · cases h
            exact ⟨rfl, rfl⟩
  | count i rest active =>
      cases rest with
      | nil =>
          cases h
          split <;> exact ⟨rfl, rfl⟩
      | cons j rest => cases h; exact ⟨rfl, rfl⟩
  | destroyBegin i active | destroyGame i active =>
      simp only [gameServerWork] at h
      split at h
      · cases h
        exact ⟨rfl, rfl⟩
      · cases h
  | initBegin i active => cases h; exact ⟨rfl, rfl⟩
  | initGame i active =>
      cases h
      have hactive : active ≠ 0 := Nat.pos_iff_ne_zero.mp hvalid
      refine ⟨?_, ?_⟩
      · change 4 * i = 4 * (i - 1) + 4
        change 1 ≤ i at hpos
        omega
      · simp [Server.due, hactive]
  | ended i | crashed i => cases h

/-- The steps of the server. -/
theorem Sound.attends_serve {q : Server n} {rand : Nat} (hs : Sound m E s)
    (h : gameServerWork m s.server s.data rand = some (l, d', q))
    (he : episodes ⟨d', q, s.client⟩ = episodes s) (p : Option (Fin n)) :
    attends m ⟨d', q, s.client⟩ p = attends m s p := by
  cases p with
  | some k =>
      refine attends_congr he rfl ?_
      change due m _ (s.client k) = due m _ (s.client k)
      rw [gameServerWork_active h]
  | none =>
      by_cases harrive : ∃ w i active, s.server = .arrive w i active
      · -- it has arrived
        obtain ⟨w, i, active, hq⟩ := harrive
        have hE := hs.server_eq (by rw [hq]; rfl)
        rw [hq] at h hE
        cases h
        have hnew : (standing ⟨s.data.arrive w.barrier, .inside w i active
            (s.data.barrier w.barrier).episode, s.client⟩ none).arrivals = E + 1 := by
          rw [← hE]
          rfl
        have hold : (standing s none).arrivals = E := by
          rw [← hE, ← hq]
          rfl
        rw [attends, attends, he, hs.episodes_eq, hnew, hold, decide_eq_true rfl, Bool.true_or,
          decide_eq_true rfl, Bool.true_and, goesOn, hq]
        exact (Bool.or_true _).symm
      · obtain ⟨hA, hdue⟩ := hs.due_serve h fun w i active hq => harrive ⟨w, i, active, hq⟩
        exact attends_congr he hA hdue

/-- **Who attends an episode is the same until it ends.** -/
theorem Sound.attends_step (hs : Sound m E s) (h : Step m s l t) (he : episodes t = episodes s) :
    attends m t = attends m s := by
  funext p
  cases h with
  | server rand l d q h => exact hs.attends_serve h he p
  | client j rand l d q h => exact hs.attends_client (playerWork_turn h) rfl he p

/-! ### The law of the barriers -/

/-- The barrier that is destroyed, or has been. -/
def Server.reopening : Server n → Option Bool
  | .destroyBegin _ _ | .initBegin _ _ => some false
  | .destroyGame _ _ | .initGame _ _ => some true
  | _ => none

/-- Nobody comes to a barrier while it is destroyed, and nobody is there when it is initialised. -/
theorem Sound.not_there {g : Bool} {w : Wait} (hs : Sound m E s) (hq : s.server.reopening = some g)
    (hw : w.barrier = g) : (s.client j).stage ≠ .arrive w ∧
      (s.server.emptied = true → (s.client j).stage ≠ .inside w) := by
  have hg : barrierOf E = !g := by
    have hE := hs.server_eq
    generalize s.server = q at hq hE
    cases q with
    | destroyBegin i active | initBegin i active =>
        cases hq
        rw [← hE rfl]
        exact barrierOf_wait .game2 (i - 1)
    | destroyGame i active | initGame i active =>
        cases hq
        rw [← hE rfl]
        exact decide_eq_false (by simp only [Server.standing, Server.arrivals]; omega)
    | _ => cases hq
  refine ⟨fun hstage => ?_, fun hempty hstage => ?_⟩
  · have hbarrier := (hs.attends_of_arrive hstage).2
    rw [hs.episodes_eq, hg, hw] at hbarrier
    cases g <;> cases hbarrier
  · have hin : (standing s (some j)).inside = true := by
      change (s.client j).stage.isInside = true
      rw [hstage]
      rfl
    have hA : (standing s (some j)).arrivals = 4 * ((s.client j).round - 1) + w.index + 1 := by
      change (s.client j).standing.arrivals = _
      rw [Player.standing, hstage]
      rfl
    have hge := hs.alternate.ge (some j) hin
    have hle := hs.alternate.le (some j)
    have hne := lingering_eq_zero.mp (hs.emptied hempty) (some j) hin
    have hE : E = 4 * ((s.client j).round - 1) + w.index := by omega
    rw [hE, barrierOf_wait, hw] at hg
    cases g <;> cases hg

/-- **The game with barriers**, for any number of players and rounds, whoever resigns when, and
however the steps are interleaved.  A barrier was initialised for as many as attend its episode,
and who attends it is the same from its start to its end; nobody is at a barrier that is initialised
again, or comes to it; there is no deadlock; the server looks at the cards of the round, finds a
winner, and has updated the scores of the round, but not of the next one, when they are read. -/
theorem lockstep_law (hn : 0 < n) {tr : List (Move (State n) (Option (Event n)))}
    (r : Run (Step m) (start n m) tr s) :
    (∀ p, attends m s p = true →
      (s.data.barrier (barrierOf (episodes s))).count = tally id (attends m s)) ∧
    (∀ l t, Step m s l t → episodes t = episodes s → attends m t = attends m s) ∧
    (∀ j w, (s.client j).stage = .arrive w →
      attends m s (some j) = true ∧ w.barrier = barrierOf (episodes s)) ∧
    (∀ g, s.server.reopening = some g → ∀ j w, w.barrier = g →
      (s.client j).stage ≠ .arrive w ∧
        (s.server.emptied = true → (s.client j).stage ≠ .inside w)) ∧
    (Live (gameServerWork m) (playerWork m) s ∨ (∃ i, s.server = .ended i) ∧
      ∀ j, (s.client j).stage = .left ∨ (s.client j).stage = .finished) ∧
    (∀ i rest best, s.server = .scan i rest best → ∀ j, playing s.data.playerData j = true →
      (drawn j (seen tr)).length = i ∧
        cardIn i j (seen tr) = some (s.data.playerData j).card) ∧
    (∀ i j card, .saw i j card ∈ seen tr → cardIn i j (seen tr) = some card) ∧
    ((∀ i best, s.server = .scan i [] best → 1 ≤ best.2) ∧ ∀ i, s.server ≠ .crashed i) ∧
    (∀ j, (s.client j).stage = .readScore →
      s.server.round = (s.client j).round ∧ s.server.published = true) ∧
    ∀ i j (p : Int), .scored i j p ∈ seen tr → p = points i j (seen tr) := by
  obtain ⟨⟨E, hs⟩, hR⟩ := record hn r
  refine ⟨fun p h => hs.count_eq h, fun l t h he => hs.attends_step h he,
    fun j w h => hs.attends_of_arrive h, fun g hq j w hw => hs.not_there hq hw, hs.live,
    fun i rest best hq j hj => ?_, hR.saw, ⟨fun i best hq => hs.winning_pos hq, fun i hq => ?_⟩,
    fun j hj => ?_, fun i j p h => (hR.scored i j p h).1⟩
  · have hplays : s.server.Plays m := hs.plays (by simp [hq]) (by simp [hq])
    have hE : E = base s + 1 := by
      rw [← hs.server_eq (by rw [hq]; rfl), base, hq]
      rfl
    have hround : s.server.round = i := by rw [hq]; rfl
    have hdraws := (hs.laid hE (hs.inRound_of_playing hplays hj)).2.1
    refine ⟨(hR.length j).trans (hdraws.trans hround), ?_⟩
    rw [← hround]
    exact (hR.row hs hplays hE j).2.1 hj
  · have hvalid := hs.server
    rw [hq] at hvalid
    exact hvalid
  · obtain ⟨hround, hpublished⟩ := hs.reading hj
    exact ⟨hround.symm, hpublished⟩

/-! ### Two rounds -/

/-- Two players for two rounds, in turns; the first has the lower card and resigns. -/
def twoRounds : List (Option (Fin 2) × Nat) :=
  (List.replicate 50 [(none, 0), (some 0, 0), (some 1, 1)]).flatten

theorem twoRounds_run : ∃ (tr : List (Move (State 2) (Option (Event 2)))) (s : State 2),
    Run (Step 2) (start 2 2) tr s ∧ s.server = .ended 3 ∧
      seen tr = [.drew 0 1, .drew 1 2, .saw 1 0 1, .saw 1 1 2, .awarded 1 1 2, .scored 1 0 0,
        .scored 1 1 2, .drew 1 1, .saw 2 1 1, .awarded 2 0 2, .awarded 2 1 2, .scored 2 1 2] := by
  obtain ⟨tr, r, hseen⟩ : ∃ tr, Run (Step 2) (start 2 2) tr
      (play (gameServerWork 2) (playerWork 2) (start 2 2) twoRounds).2 ∧
      seen tr = (play (gameServerWork 2) (playerWork 2) (start 2 2) twoRounds).1 :=
    play_run twoRounds
  exact ⟨tr, _, r, by decide +kernel, hseen.trans (by decide +kernel)⟩

theorem lockstep_law_twoRounds : ∃ (tr : List (Move (State 2) (Option (Event 2)))) (s : State 2),
    s.server = .ended 3 ∧ cardIn 2 1 (seen tr) = some 1 ∧ points 2 1 (seen tr) = 2 ∧
      ∀ i, s.server ≠ .crashed i := by
  obtain ⟨tr, s, r, hend, hseen⟩ := twoRounds_run
  obtain ⟨-, -, -, -, -, -, hsaw, hcrashed, -, hscored⟩ := lockstep_law (by decide) r
  refine ⟨tr, s, hend, hsaw 2 1 1 (by simp [hseen]), ?_, hcrashed.2⟩
  have h := hscored 2 1 2 (by simp [hseen])
  omega

end Sop2.Cards.Barriers
