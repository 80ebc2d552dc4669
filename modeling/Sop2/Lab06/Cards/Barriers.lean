import Sop2.Support.Barrier
import Sop2.Lab06.Cards.Table

/-!
# Lab06 — Cards — the game with barriers

`lab06/sop-cards/sop-cards.c`: one server and `n` players for `m` rounds, with two barriers at which
all of them wait in turns, each twice in a round.  Between the last two waits, and after them, the
server destroys the barriers and initialises them again, for those who go on playing.

A wait is two steps: to arrive, and to leave when the episode has ended.  `pthread_barrier_destroy`
returns when those of the last episode have left.
-/

namespace Sop2.Cards.Barriers
open Support Support.Shared

variable {n : Nat}

/-- `shared_data_t`; the barriers are `begin_barrier` (`false`) and `game_barrier` (`true`). -/
structure Data (n : Nat) where
  barrier : Bool → Barrier
  playerData : Table n

namespace Data

def arrive (d : Data n) (g : Bool) : Data n :=
  { d with barrier := Function.update d.barrier g (d.barrier g).arrive }

def depart (d : Data n) (g : Bool) : Data n :=
  { d with barrier := Function.update d.barrier g (d.barrier g).depart }

def leave (d : Data n) (g : Bool) (ticket : Nat) : Option (Data n) :=
  ((d.barrier g).leave ticket).map fun b => { d with barrier := Function.update d.barrier g b }

def init (d : Data n) (g : Bool) (count : Nat) : Data n :=
  { d with barrier := Function.update d.barrier g ((d.barrier g).init count) }

/-- A new row of `j`. -/
def row (d : Data n) (j : Fin n) (row : PlayerData) : Data n :=
  { d with playerData := Function.update d.playerData j row }

end Data

/-- The four waits of a round. -/
inductive Wait where
  | begin1
  | game1
  | begin2
  | game2
  deriving DecidableEq

def Wait.index : Wait → Nat
  | .begin1 => 0
  | .game1 => 1
  | .begin2 => 2
  | .game2 => 3

def Wait.barrier : Wait → Bool
  | .begin1 | .begin2 => false
  | .game1 | .game2 => true

/-- Where a player is in a round. -/
inductive Stage where
  | draw
  | arrive (w : Wait)
  | inside (w : Wait)
  | readScore
  | decide
  /-- Whether it has resigned. -/
  | check
  | left
  /-- After the last round. -/
  | finished
  /-- `ERR`. -/
  | failed
  deriving DecidableEq

structure Player where
  stage : Stage
  round : Nat
  cards : List Int
  lastScore : Int
  /-- The episode in which it arrived last. -/
  ticket : Nat
  deriving DecidableEq

/-- Where a player goes on after a wait. -/
def Wait.after : Wait → Stage
  | .begin1 => .arrive .game1
  | .game1 => .readScore
  | .begin2 => .arrive .game2
  | .game2 => .check

/-- `player_work`. -/
def playerWork (m : Nat) (j : Fin n) : Program (Data n) Nat (Event n) Player := fun q d rand =>
  match q.stage with
  | .draw =>
      if q.round ≤ m then
        match drawCard q.cards rand with
        | some (card, cards) =>
            some (some (.drew j card), d.row j { d.playerData j with card := card },
              { q with stage := .arrive .begin1, cards := cards })
        | none => some (none, d, { q with stage := .failed })
      else some (none, d, { q with stage := .finished })
  | .arrive w =>
      some (none, d.arrive w.barrier,
        { q with stage := .inside w, ticket := (d.barrier w.barrier).episode })
  | .inside w =>
      (d.leave w.barrier q.ticket).map fun d => (none, d, { q with stage := w.after })
  | .readScore =>
      some (some (.scored q.round j ((d.playerData j).score - q.lastScore)), d,
        { q with stage := .decide, lastScore := (d.playerData j).score })
  | .decide =>
      some (none, d.row j { d.playerData j with active := shouldResign rand },
        { q with stage := .arrive .begin2 })
  | .check =>
      if (d.playerData j).active = .resigned then some (none, d, { q with stage := .left })
      else some (none, d, { q with stage := .draw, round := q.round + 1 })
  | .left | .finished | .failed => none

/-- Where the server is; `best` are `winning_card` and `winning_count`, and `rest` are the rows that
are still to come. -/
inductive Server (n : Nat) where
  | head (i : Nat)
  | arrive (w : Wait) (i active : Nat)
  | inside (w : Wait) (i active ticket : Nat)
  | scan (i : Nat) (rest : List (Fin n)) (best : Int × Nat)
  | award (i : Nat) (rest : List (Fin n)) (best : Int × Nat)
  | count (i : Nat) (rest : List (Fin n)) (active : Nat)
  | destroyBegin (i active : Nat)
  | initBegin (i active : Nat)
  | destroyGame (i active : Nat)
  | initGame (i active : Nat)
  /-- `i - 1` rounds were played. -/
  | ended (i : Nat)
  /-- After the division by 0. -/
  | crashed (i : Nat)
  deriving DecidableEq

/-- Where the server goes on after a wait. -/
def Wait.afterServer (i active : Nat) : Wait → Server n
  | .begin1 => .scan i (List.finRange n) (-1, 0)
  | .game1 => .arrive .begin2 i active
  | .begin2 => .count i (List.finRange n) active
  | .game2 => if active = 0 then .ended (i + 1) else .destroyGame i active

/-- `game_server_work`. -/
def gameServerWork (m : Nat) : Program (Data n) Nat (Event n) (Server n) := fun q d _ =>
  match q with
  | .head i => some (none, d, if i ≤ m then .arrive .begin1 i 0 else .ended i)
  | .arrive w i active =>
      some (none, d.arrive w.barrier, .inside w i active (d.barrier w.barrier).episode)
  | .inside w i active ticket =>
      (d.leave w.barrier ticket).map fun d => (none, d, w.afterServer i active)
  | .scan i (j :: rest) best =>
      some (if (d.playerData j).active = .resigned then none
          else some (.saw i j (d.playerData j).card), d,
        .scan i rest (look (d.playerData j) best))
  | .scan i [] best =>
      some (none, d, if best.2 = 0 then .crashed i else .award i (List.finRange n) best)
  | .award i (j :: rest) best =>
      if (d.playerData j).card = best.1 then
        some (some (.awarded i j (n / best.2)),
          d.row j { d.playerData j with
            score := (d.playerData j).score + ((n / best.2 : Nat) : Int) },
          .award i rest best)
      else some (none, d, .award i rest best)
  | .award i [] _ => some (none, d, .arrive .game1 i 0)
  | .count i (j :: rest) active =>
      some (none, d,
        .count i rest (if (d.playerData j).active = .playing then active + 1 else active))
  | .count i [] active =>
      some (none, d, if active = 0 then .arrive .game2 i 0 else .destroyBegin i active)
  | .destroyBegin i active =>
      if (d.barrier false).destroyed then some (none, d, .initBegin i active) else none
  | .initBegin i active => some (none, d.init false (active + 1), .arrive .game2 i active)
  | .destroyGame i active =>
      if (d.barrier true).destroyed then some (none, d, .initGame i active) else none
  | .initGame i active => some (none, d.init true (active + 1), .head (i + 1))
  | .ended _ | .crashed _ => none

abbrev State (n : Nat) := Shared.State (Fin n) (Data n) (Server n) Player

abbrev Step (m : Nat) : State n → Option (Event n) → State n → Prop :=
  Shared.Step (gameServerWork m) (playerWork m)

/-- `main`, after the last `fork`. -/
def start (n m : Nat) : State n where
  data := ⟨fun _ => ⟨n + 1, 0, 0, 0⟩, fun _ => .zero⟩
  server := .head 1
  client _ := ⟨.draw, 1, createCards m, 0, 0⟩

/-! ### Arrivals -/

/-- How often a player has arrived in a round. -/
def Stage.arrivals : Stage → Nat
  | .draw | .finished | .failed => 0
  | .arrive w => w.index
  | .inside w => w.index + 1
  | .readScore | .decide => 2
  | .check | .left => 4

def Stage.isInside : Stage → Bool
  | .inside _ => true
  | _ => false

def Player.standing (q : Player) : Standing :=
  ⟨4 * (q.round - 1) + q.stage.arrivals, q.stage.isInside⟩

/-- `i`. -/
def Server.round : Server n → Nat
  | .head i | .arrive _ i _ | .inside _ i _ _ | .scan i _ _ | .award i _ _ | .count i _ _
  | .destroyBegin i _ | .initBegin i _ | .destroyGame i _ | .initGame i _ | .ended i
  | .crashed i => i

def Server.arrivals : Server n → Nat
  | .head _ | .ended _ => 0
  | .arrive w _ _ => w.index
  | .inside w _ _ _ => w.index + 1
  | .scan _ _ _ | .award _ _ _ | .crashed _ => 1
  | .count _ _ _ | .destroyBegin _ _ | .initBegin _ _ => 3
  | .destroyGame _ _ | .initGame _ _ => 4

def Server.isInside : Server n → Bool
  | .inside _ _ _ _ => true
  | _ => false

def Server.standing (q : Server n) : Standing :=
  ⟨4 * (q.round - 1) + q.arrivals, q.isInside⟩

/-- Where the processes stand; of them, `none` is the server. -/
def standing (s : State n) : Option (Fin n) → Standing
  | none => s.server.standing
  | some j => (s.client j).standing

/-- Whether it has drawn its card of the round. -/
def Stage.hasDrawn : Stage → Bool
  | .draw | .finished | .failed => false
  | _ => true

/-- How many cards it has drawn. -/
def Player.draws (q : Player) : Nat := q.round - 1 + q.stage.hasDrawn.toNat

/-- It has not yet decided in this round. -/
def Stage.undecided : Stage → Bool
  | .draw | .arrive .begin1 | .inside .begin1 | .arrive .game1 | .inside .game1 | .readScore
  | .decide | .finished | .failed => true
  | _ => false

/-- It has read its score of the round. -/
def Stage.hasRead : Stage → Bool
  | .decide | .arrive .begin2 | .inside .begin2 | .arrive .game2 | .inside .game2 | .check
  | .left => true
  | _ => false

/-- Whether a player that is not inside will arrive once more. -/
def due (m : Nat) (active : Activity) (q : Player) : Bool :=
  match q.stage with
  | .left | .finished | .failed => false
  | .inside .game2 | .check => decide (active = .playing ∧ q.round + 1 ≤ m)
  | .draw => decide (q.round ≤ m)
  | _ => true

/-- Whether the server will arrive once more, after it has left. -/
def Server.due (m : Nat) : Server n → Bool
  | .head i => decide (i ≤ m)
  | .inside .game2 i active _ | .destroyGame i active | .initGame i active =>
      decide (active ≠ 0 ∧ i + 1 ≤ m)
  | .ended _ | .crashed _ => false
  | _ => true

/-- The arrivals before the round of the server. -/
def base (s : State n) : Nat := 4 * (s.server.round - 1)

/-- The players of the server's round: who has arrived in it, or will. -/
def inRound (m : Nat) (s : State n) (j : Fin n) : Bool :=
  decide (base s < (s.client j).standing.arrivals) ||
    (decide ((s.client j).standing.arrivals = base s) &&
      due m (s.data.playerData j).active (s.client j))

/-! ### The steps of a player -/

/-- The steps of a player, one by one. -/
inductive Turn (m : Nat) (j : Fin n) (d : Data n) :
    Player → Option (Event n) → Data n → Player → Prop where
  | draw (i : Nat) (cards left : List Int) (last card : Int) (ticket : Nat) (hi : i ≤ m)
      (hperm : cards.Perm (card :: left)) :
      Turn m j d ⟨.draw, i, cards, last, ticket⟩ (some (.drew j card))
        (d.row j { d.playerData j with card := card }) ⟨.arrive .begin1, i, left, last, ticket⟩
  | fail (i : Nat) (last : Int) (ticket : Nat) (hi : i ≤ m) :
      Turn m j d ⟨.draw, i, [], last, ticket⟩ none d ⟨.failed, i, [], last, ticket⟩
  | finish (i : Nat) (cards : List Int) (last : Int) (ticket : Nat) (hi : m < i) :
      Turn m j d ⟨.draw, i, cards, last, ticket⟩ none d ⟨.finished, i, cards, last, ticket⟩
  | arrive (w : Wait) (i : Nat) (cards : List Int) (last : Int) (ticket : Nat) :
      Turn m j d ⟨.arrive w, i, cards, last, ticket⟩ none (d.arrive w.barrier)
        ⟨.inside w, i, cards, last, (d.barrier w.barrier).episode⟩
  | leave (w : Wait) (i : Nat) (cards : List Int) (last : Int) (ticket : Nat)
      (h : ticket < (d.barrier w.barrier).episode) :
      Turn m j d ⟨.inside w, i, cards, last, ticket⟩ none
        (d.depart w.barrier)
        ⟨w.after, i, cards, last, ticket⟩
  | readScore (i : Nat) (cards : List Int) (last : Int) (ticket : Nat) :
      Turn m j d ⟨.readScore, i, cards, last, ticket⟩
        (some (.scored i j ((d.playerData j).score - last))) d
        ⟨.decide, i, cards, (d.playerData j).score, ticket⟩
  | decide (i : Nat) (cards : List Int) (last : Int) (ticket : Nat) (active : Activity) :
      Turn m j d ⟨.decide, i, cards, last, ticket⟩ none
        (d.row j { d.playerData j with active := active }) ⟨.arrive .begin2, i, cards, last, ticket⟩
  | resigned (i : Nat) (cards : List Int) (last : Int) (ticket : Nat)
      (h : (d.playerData j).active = .resigned) :
      Turn m j d ⟨.check, i, cards, last, ticket⟩ none d ⟨.left, i, cards, last, ticket⟩
  | next (i : Nat) (cards : List Int) (last : Int) (ticket : Nat)
      (h : (d.playerData j).active = .playing) :
      Turn m j d ⟨.check, i, cards, last, ticket⟩ none d ⟨.draw, i + 1, cards, last, ticket⟩

theorem Data.leave_eq_some {d d' : Data n} {g : Bool} {ticket : Nat}
    (h : d.leave g ticket = some d') : ticket < (d.barrier g).episode ∧ d' = d.depart g := by
  obtain ⟨b, hb, rfl⟩ := Option.map_eq_some_iff.mp h
  unfold Barrier.leave at hb
  split at hb
  · cases hb
    exact ⟨‹_›, rfl⟩
  · cases hb

variable {m : Nat} {j : Fin n} {q q' : Player} {d d' : Data n} {l : Option (Event n)}

/-- Every step of a player is one of these. -/
theorem playerWork_turn {rand : Nat} (h : playerWork m j q d rand = some (l, d', q')) :
    Turn m j d q l d' q' := by
  obtain ⟨stage, i, cards, last, ticket⟩ := q
  cases stage with
  | draw =>
      simp only [playerWork] at h
      split at h
      · split at h
        · cases h
          exact .draw i cards _ last _ ticket ‹_› (drawCard_perm ‹_›)
        · cases h
          obtain rfl := drawCard_eq_none.mp ‹_›
          exact .fail i last ticket ‹_›
      · cases h
        exact .finish i cards last ticket (not_le.mp ‹_›)
  | arrive w => cases h; exact .arrive w i cards last ticket
  | inside w =>
      obtain ⟨e, he, heq⟩ := Option.map_eq_some_iff.mp h
      obtain ⟨hticket, rfl⟩ := Data.leave_eq_some he
      cases heq
      exact .leave w i cards last ticket hticket
  | readScore => cases h; exact .readScore i cards last ticket
  | decide => cases h; exact .decide i cards last ticket _
  | check =>
      simp only [playerWork] at h
      split at h
      · cases h
        exact .resigned i cards last ticket ‹_›
      · cases h
        refine .next i cards last ticket ?_
        cases hactive : (d.playerData j).active with
        | playing => rfl
        | resigned => exact absurd hactive ‹_›
  | left | finished | failed => cases h

/-- What can be said of a player by itself. -/
structure Player.Valid (m : Nat) (q : Player) : Prop where
  round_pos : 1 ≤ q.round
  round_le : q.round ≤ m ∨ q.round = m + 1 ∧ (q.stage = .draw ∨ q.stage = .finished)
  finished : q.stage = .finished → q.round = m + 1
  failed : q.stage ≠ .failed
  /-- It has the cards that it has not drawn. -/
  cards : q.cards.length + q.draws = m
  pos : ∀ c ∈ q.cards, 0 < c

theorem Player.valid_start : Player.Valid m ⟨.draw, 1, createCards m, 0, 0⟩ where
  round_pos := le_rfl
  round_le := by
    by_cases hm : m = 0
    · subst hm; exact .inr ⟨rfl, .inl rfl⟩
    · exact .inl (Nat.one_le_iff_ne_zero.mpr hm)
  finished := nofun
  failed := nofun
  cards := by simp [Player.draws, Stage.hasDrawn]
  pos := createCards_pos

theorem Player.Valid.turn (hq : q.Valid m) (h : Turn m j d q l d' q') : q'.Valid m := by
  obtain ⟨hpos, hle, hfin, hfail, hcards, hcpos⟩ := hq
  cases h with
  | draw i cards left last card ticket hi hperm =>
      refine ⟨hpos, .inl hi, nofun, nofun, ?_, fun c hc => hcpos c (hperm.mem_iff.mpr (by simp [hc]))⟩
      have := hperm.length_eq
      simp only [Player.draws, Stage.hasDrawn, Bool.toNat_true, Bool.toNat_false,
        List.length_cons] at hcards this ⊢
      omega
  | fail i last ticket hi =>
      -- there is a card for every round
      simp only [Player.draws, Stage.hasDrawn, Bool.toNat_false, List.length_nil] at hcards hpos
      omega
  | finish i cards last ticket hi =>
      have hi : i = m + 1 := (hle.resolve_left (Nat.not_le.mpr hi)).1
      exact ⟨hpos, .inr ⟨hi, .inr rfl⟩, fun _ => hi, nofun, hcards, hcpos⟩
  | next i cards last ticket hplaying =>
      have hi : i ≤ m := hle.resolve_right (by rintro ⟨-, h | h⟩ <;> cases h)
      refine ⟨Nat.succ_pos i, ?_, nofun, nofun, ?_, hcpos⟩
      · rcases Nat.lt_or_eq_of_le hi with hlt | rfl
        · exact .inl hlt
        · exact .inr ⟨rfl, .inl rfl⟩
      · simp only [Player.draws, Stage.hasDrawn, Bool.toNat_true, Bool.toNat_false] at hcards hpos ⊢
        omega
  | leave w i =>
      have hi : i ≤ m := hle.resolve_right (by rintro ⟨-, h | h⟩ <;> cases h)
      cases w <;> exact ⟨hpos, .inl hi, nofun, nofun, hcards, hcpos⟩
  | arrive w i | readScore i | decide i | resigned i =>
      have hi : i ≤ m := hle.resolve_right (by rintro ⟨-, h | h⟩ <;> cases h)
      exact ⟨hpos, .inl hi, nofun, nofun, hcards, hcpos⟩

/-- A step is an arrival, or somebody leaves, or it has nothing to do with the barriers. -/
theorem Turn.kind (h : Turn m j d q l d' q') (hq : q.Valid m) :
    (∃ w, q.stage = .arrive w ∧ l = none ∧ d' = d.arrive w.barrier ∧
        q' = { q with stage := .inside w, ticket := (d.barrier w.barrier).episode }) ∨
      (∃ w, q.stage = .inside w ∧ l = none ∧ q.ticket < (d.barrier w.barrier).episode ∧
        d' = d.depart w.barrier ∧ q' = { q with stage := w.after }) ∨
      (d'.barrier = d.barrier ∧ q'.standing = q.standing ∧ q.stage.isInside = false ∧
        (∀ k ≠ j, d'.playerData k = d.playerData k) ∧
        due m (d'.playerData j).active q' = due m (d.playerData j).active q) := by
  have hrow : ∀ row k, k ≠ j → (d.row j row).playerData k = d.playerData k :=
    fun row k hk => Function.update_of_ne hk ..
  cases h with
  | arrive w => exact .inl ⟨w, rfl, rfl, rfl, rfl⟩
  | leave w i cards last ticket h => exact .inr (.inl ⟨w, rfl, rfl, h, rfl, rfl⟩)
  | draw i cards left last card ticket hi =>
      exact .inr (.inr ⟨rfl, rfl, rfl, hrow _, (decide_eq_true hi).symm⟩)
  | fail i last ticket hi =>
      have hcards := hq.cards
      have hpos := hq.round_pos
      simp only [Player.draws, Stage.hasDrawn, Bool.toNat_false, List.length_nil] at hcards hpos
      omega
  | finish i cards last ticket hi =>
      exact .inr (.inr ⟨rfl, rfl, rfl, fun _ _ => rfl, (decide_eq_false (not_le.mpr hi)).symm⟩)
  | readScore => exact .inr (.inr ⟨rfl, rfl, rfl, fun _ _ => rfl, rfl⟩)
  | decide => exact .inr (.inr ⟨rfl, rfl, rfl, hrow _, rfl⟩)
  | resigned i cards last ticket h =>
      exact .inr (.inr ⟨rfl, rfl, rfl, fun _ _ => rfl, by simp [due, h]⟩)
  | next i cards last ticket h =>
      refine .inr (.inr ⟨rfl, ?_, rfl, fun _ _ => rfl, by simp [due, h]⟩)
      have hpos := hq.round_pos
      simp only [Player.standing, Stage.arrivals, Stage.isInside, Standing.mk.injEq, and_true]
        at hpos ⊢
      omega

/-- The flags: a player that has not decided plays, and one that has left has resigned. -/
theorem Turn.flags (h : Turn m j d q l d' q')
    (hq : q.stage.undecided = true → (d.playerData j).active = .playing) :
    (q'.stage.undecided = true → (d'.playerData j).active = .playing) ∧
      (q'.stage = .left → q.stage ≠ .left → (d'.playerData j).active = .resigned) ∧
      (q.stage ≠ .decide → (d'.playerData j).active = (d.playerData j).active) := by
  cases h with
  | draw => exact ⟨fun _ => by simpa [Data.row] using hq rfl, nofun, fun _ => by simp [Data.row]⟩
  | decide => exact ⟨nofun, nofun, fun h => absurd rfl h⟩
  | next i cards last ticket h => exact ⟨fun _ => h, nofun, fun _ => rfl⟩
  | resigned i cards last ticket h => exact ⟨nofun, fun _ _ => h, fun _ => rfl⟩
  | leave w => cases w <;> exact ⟨hq, nofun, fun _ => rfl⟩
  | arrive w => cases w <;> exact ⟨hq, nofun, fun _ => rfl⟩
  | fail | finish | readScore => exact ⟨fun _ => hq rfl, nofun, fun _ => rfl⟩

/-- What a step of a player shows. -/
theorem Turn.shows (h : Turn m j d q l d' q') :
    (∀ i k, points i k l.toList = 0) ∧ (∀ i k card, .saw i k card ∉ l.toList) ∧
      ∀ k ≠ j, drawn k l.toList = [] := by
  cases h with
  | draw => exact ⟨fun _ _ => rfl, by simp, fun k hk => by simp [drawn, Event.drawnBy?, hk.symm]⟩
  | readScore => simp [points, Event.pointsTo, drawn, Event.drawnBy?]
  | _ => simp [points, drawn]

/-- What it draws. -/
theorem Turn.draws (h : Turn m j d q l d' q') (hq : q.Valid m) :
    (drawn j l.toList).length + q.draws = q'.draws ∧
      (∀ c ∈ drawn j l.toList, q.stage = .draw ∧ drawn j l.toList = [c] ∧
        (d'.playerData j).card = c) ∧
      (drawn j l.toList = [] → (d'.playerData j).card = (d.playerData j).card) := by
  cases h with
  | draw i cards left last card ticket hi hperm =>
      have hdrawn : drawn j (some (Event.drew j card)).toList = [card] := by
        simp [drawn, Event.drawnBy?]
      rw [hdrawn]
      refine ⟨Nat.add_comm .., fun c hc => ?_, nofun⟩
      obtain rfl := List.mem_singleton.mp hc
      exact ⟨rfl, rfl, by simp [Data.row]⟩
  | next i cards last ticket h =>
      have hpos := hq.round_pos
      refine ⟨?_, by simp [drawn], fun _ => rfl⟩
      simp only [drawn, Option.toList_none, List.filterMap_nil, List.length_nil, Player.draws,
        Stage.hasDrawn, Bool.toNat_true, Bool.toNat_false] at hpos ⊢
      omega
  | readScore => exact ⟨by simp [drawn, Event.drawnBy?, Player.draws, Stage.hasDrawn],
      by simp [drawn, Event.drawnBy?], fun _ => rfl⟩
  | decide => exact ⟨by simp [drawn, Player.draws, Stage.hasDrawn], by simp [drawn],
      fun _ => by simp [Data.row]⟩
  | leave w => cases w <;> exact ⟨by simp [drawn, Player.draws, Wait.after, Stage.hasDrawn],
      by simp [drawn], fun _ => rfl⟩
  | finish | fail | arrive | resigned =>
      exact ⟨by simp [drawn, Player.draws, Stage.hasDrawn], by simp [drawn], fun _ => rfl⟩

/-- Only the server changes the scores. -/
theorem Turn.scores (h : Turn m j d q l d' q') (k : Fin n) :
    (d'.playerData k).score = (d.playerData k).score := by
  cases h with
  | draw | decide =>
      by_cases hk : k = j
      · subst hk
        simp [Data.row]
      · simp [Data.row, hk]
  | _ => rfl

theorem Turn.not_left (h : Turn m j d q l d' q') : q.stage ≠ .left := by
  cases h <;> nofun

end Sop2.Cards.Barriers
