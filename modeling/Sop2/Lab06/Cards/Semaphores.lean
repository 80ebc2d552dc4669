import Sop2.Support.Handshake
import Sop2.Lab06.Cards.Table

/-!
# Lab06 — Cards — the game with semaphores

`lab06/sop-cards/sop-cards-semaphores`: one server and `n` players for `m` rounds, with four
semaphores and a counter of the active players under a mutex.

The semaphores are the gates of `Support.Handshake`, in the order of a round: `sem_round_start`,
`sem_cards_ready`, `sem_results_ready` and `sem_players_done`.  Each player has its own time, which
counts the semaphores that it has passed.
-/

namespace Sop2.Cards.Semaphores
open Support Support.Shared

variable {n : Nat}

/-- `shared_data_t`; of the processes that can have the mutex, `none` is the server. -/
structure Data (n : Nat) where
  sem : Gate → Nat
  mxActive : Option (Option (Fin n))
  activePlayers : Nat
  playerData : Table n

namespace Data

def post (d : Data n) (g : Gate) : Data n :=
  { d with sem := Function.update d.sem g (d.sem g + 1) }

/-- `sem_wait`, which blocks at 0. -/
def wait (d : Data n) (g : Gate) : Option (Data n) :=
  if d.sem g = 0 then none else some { d with sem := Function.update d.sem g (d.sem g - 1) }

def lock (d : Data n) (p : Option (Fin n)) : Option (Data n) :=
  if d.mxActive = none then some { d with mxActive := some p } else none

def unlock (d : Data n) : Data n := { d with mxActive := none }

/-- A new row of `j`. -/
def row (d : Data n) (j : Fin n) (row : PlayerData) : Data n :=
  { d with playerData := Function.update d.playerData j row }

end Data

/-- Where a player is in a round. -/
inductive Stage where
  | waitRound
  | draw
  | postCards
  | waitResults
  | readScore
  | decide
  | postDone
  /-- It resigns. -/
  | lock
  | decrement
  | unlock
  | postLast
  | left
  /-- After the last round. -/
  | finished
  /-- `ERR`. -/
  | failed
  deriving DecidableEq

structure Player where
  stage : Stage
  round : Nat
  cards : List Int
  lastScore : Int
  deriving DecidableEq

/-- `player_work`. -/
def playerWork (m : Nat) (j : Fin n) : Program (Data n) Nat (Event n) Player := fun q d rand =>
  match q.stage with
  | .waitRound =>
      if q.round ≤ m then (d.wait .start).map fun d => (none, d, { q with stage := .draw })
      else some (none, d, { q with stage := .finished })
  | .draw =>
      match drawCard q.cards rand with
      | some (card, cards) =>
          some (some (.drew j card), d.row j { d.playerData j with card := card },
            { q with stage := .postCards, cards := cards })
      | none => some (none, d, { q with stage := .failed })
  | .postCards => some (none, d.post .ready, { q with stage := .waitResults })
  | .waitResults => (d.wait .results).map fun d => (none, d, { q with stage := .readScore })
  | .readScore =>
      some (some (.scored q.round j ((d.playerData j).score - q.lastScore)), d,
        { q with stage := .decide, lastScore := (d.playerData j).score })
  | .decide =>
      some (none, d.row j { d.playerData j with active := shouldResign rand },
        { q with stage := if shouldResign rand = .resigned then .lock else .postDone })
  | .lock => (d.lock (some j)).map fun d => (none, d, { q with stage := .decrement })
  | .decrement =>
      some (none, { d with activePlayers := d.activePlayers - 1 }, { q with stage := .unlock })
  | .unlock => some (none, d.unlock, { q with stage := .postLast })
  | .postLast => some (none, d.post .done, { q with stage := .left })
  | .postDone => some (none, d.post .done, { q with stage := .waitRound, round := q.round + 1 })
  | .left | .finished | .failed => none

/-- Where the server is; `cur` is `current_active`, `best` are `winning_card` and `winning_count`,
and `rest` are the rows that are still to come. -/
inductive Server (n : Nat) where
  | lock (i : Nat)
  | readActive (i : Nat)
  | unlock (i cur : Nat)
  | start (i cur k : Nat)
  | cards (i cur k : Nat)
  | scan (i cur : Nat) (rest : List (Fin n)) (best : Int × Nat)
  | award (i cur : Nat) (rest : List (Fin n)) (best : Int × Nat)
  | results (i cur k : Nat)
  | done (i cur k : Nat)
  | ended (i : Nat)
  deriving DecidableEq

/-- `game_server_work`. -/
def gameServerWork (m : Nat) : Program (Data n) Nat (Event n) (Server n) := fun q d _ =>
  match q with
  | .lock i =>
      if i ≤ m then (d.lock none).map fun d => (none, d, .readActive i)
      else some (none, d, .ended i)
  | .readActive i => some (none, d, .unlock i d.activePlayers)
  | .unlock i cur =>
      if cur = 0 then some (none, d.unlock, .ended i)
      else some (some (.round i cur), d.unlock, .start i cur 0)
  | .start i cur k =>
      if k < cur then some (none, d.post .start, .start i cur (k + 1))
      else some (none, d, .cards i cur 0)
  | .cards i cur k =>
      if k < cur then (d.wait .ready).map fun d => (none, d, .cards i cur (k + 1))
      else some (none, d, .scan i cur (List.finRange n) (-1, 0))
  | .scan i cur (j :: rest) best =>
      some (if (d.playerData j).active = .resigned then none
          else some (.saw i j (d.playerData j).card), d,
        .scan i cur rest (look (d.playerData j) best))
  | .scan i cur [] best =>
      if 0 < best.2 then some (none, d, .award i cur (List.finRange n) best)
      else some (none, d, .results i cur 0)
  | .award i cur (j :: rest) best =>
      if (d.playerData j).active = .playing ∧ (d.playerData j).card = best.1 then
        some (some (.awarded i j (cur / best.2)),
          d.row j { d.playerData j with
            score := (d.playerData j).score + ((cur / best.2 : Nat) : Int) },
          .award i cur rest best)
      else some (none, d, .award i cur rest best)
  | .award i cur [] _ => some (none, d, .results i cur 0)
  | .results i cur k =>
      if k < cur then some (none, d.post .results, .results i cur (k + 1))
      else some (none, d, .done i cur 0)
  | .done i cur k =>
      if k < cur then (d.wait .done).map fun d => (none, d, .done i cur (k + 1))
      else some (none, d, .lock (i + 1))
  | .ended _ => none

abbrev State (n : Nat) := Shared.State (Fin n) (Data n) (Server n) Player

abbrev Step (m : Nat) : State n → Option (Event n) → State n → Prop :=
  Shared.Step (gameServerWork m) (playerWork m)

/-- `main`, after the last `fork`. -/
def start (n m : Nat) : State n where
  data := ⟨fun _ => 0, none, n, fun _ => .zero⟩
  server := .lock 1
  client _ := ⟨.waitRound, 1, createCards m, 0⟩

/-! ### Times -/

/-- How many semaphores of the round a player has passed. -/
def Stage.gates : Stage → Nat
  | .waitRound | .finished => 0
  | .draw | .postCards | .failed => 1
  | .waitResults => 2
  | .readScore | .decide | .lock | .decrement | .unlock | .postDone | .postLast => 3
  | .left => 4

def Player.time (q : Player) : Nat := 4 * (q.round - 1) + q.stage.gates

/-- Whether it has drawn its card of the round. -/
def Stage.hasDrawn : Stage → Bool
  | .waitRound | .draw | .finished | .failed => false
  | _ => true

/-- How many cards it has drawn. -/
def Player.draws (q : Player) : Nat := q.round - 1 + q.stage.hasDrawn.toNat

/-- It has set its flag to `RESIGNED`. -/
def Stage.resigned : Stage → Bool
  | .lock | .decrement | .unlock | .postLast | .left => true
  | _ => false

/-- It is among the `active_players`. -/
def Stage.counted : Stage → Bool
  | .unlock | .postLast | .left => false
  | _ => true

def Stage.holding : Stage → Bool
  | .decrement | .unlock => true
  | _ => false

/-- `i`. -/
def Server.round : Server n → Nat
  | .lock i | .readActive i | .unlock i _ | .start i _ _ | .cards i _ _ | .scan i _ _ _
  | .award i _ _ _ | .results i _ _ | .done i _ _ | .ended i => i

/-- `current_active`, once it was read. -/
def Server.current : Server n → Option Nat
  | .lock _ | .readActive _ | .ended _ => none
  | .unlock _ cur | .start _ cur _ | .cards _ cur _ | .scan _ cur _ _ | .award _ cur _ _
  | .results _ cur _ | .done _ cur _ => some cur

def Server.holding : Server n → Bool
  | .readActive _ | .unlock _ _ => true
  | _ => false

/-- How often it has passed each of the semaphores in the round. -/
def Server.counts : Server n → Gate → Nat
  | .start _ _ k, .start => k
  | .cards _ cur _, .start | .scan _ cur _ _, .start | .award _ cur _ _, .start
  | .results _ cur _, .start | .done _ cur _, .start => cur
  | .cards _ _ k, .ready => k
  | .scan _ cur _ _, .ready | .award _ cur _ _, .ready | .results _ cur _, .ready
  | .done _ cur _, .ready => cur
  | .results _ _ k, .results => k
  | .done _ cur _, .results => cur
  | .done _ _ k, .done => k
  | _, _ => 0

theorem Server.counts_lock (i : Nat) : (Server.lock i : Server n).counts = fun _ => 0 := by
  funext g
  cases g <;> rfl

/-- The players that are in the round. -/
def inRound (s : State n) (j : Fin n) : Bool := decide (s.server.round ≤ (s.client j).round)

/-! ### The steps of a player -/

/-- The steps of a player, one by one. -/
inductive Turn (m : Nat) (j : Fin n) (d : Data n) :
    Player → Option (Event n) → Data n → Player → Prop where
  | waitRound (i : Nat) (cards : List Int) (last : Int) (v : Nat) (hi : i ≤ m)
      (hv : d.sem .start = v + 1) :
      Turn m j d ⟨.waitRound, i, cards, last⟩ none
        { d with sem := Function.update d.sem .start v } ⟨.draw, i, cards, last⟩
  | finish (i : Nat) (cards : List Int) (last : Int) (hi : m < i) :
      Turn m j d ⟨.waitRound, i, cards, last⟩ none d ⟨.finished, i, cards, last⟩
  | draw (i : Nat) (cards left : List Int) (last card : Int) (hperm : cards.Perm (card :: left)) :
      Turn m j d ⟨.draw, i, cards, last⟩ (some (.drew j card))
        (d.row j { d.playerData j with card := card }) ⟨.postCards, i, left, last⟩
  | fail (i : Nat) (last : Int) :
      Turn m j d ⟨.draw, i, [], last⟩ none d ⟨.failed, i, [], last⟩
  | postCards (i : Nat) (cards : List Int) (last : Int) :
      Turn m j d ⟨.postCards, i, cards, last⟩ none (d.post .ready) ⟨.waitResults, i, cards, last⟩
  | waitResults (i : Nat) (cards : List Int) (last : Int) (v : Nat)
      (hv : d.sem .results = v + 1) :
      Turn m j d ⟨.waitResults, i, cards, last⟩ none
        { d with sem := Function.update d.sem .results v } ⟨.readScore, i, cards, last⟩
  | readScore (i : Nat) (cards : List Int) (last : Int) :
      Turn m j d ⟨.readScore, i, cards, last⟩ (some (.scored i j ((d.playerData j).score - last))) d
        ⟨.decide, i, cards, (d.playerData j).score⟩
  | resign (i : Nat) (cards : List Int) (last : Int) :
      Turn m j d ⟨.decide, i, cards, last⟩ none
        (d.row j { d.playerData j with active := .resigned }) ⟨.lock, i, cards, last⟩
  | stay (i : Nat) (cards : List Int) (last : Int) :
      Turn m j d ⟨.decide, i, cards, last⟩ none
        (d.row j { d.playerData j with active := .playing }) ⟨.postDone, i, cards, last⟩
  | lock (i : Nat) (cards : List Int) (last : Int) (hfree : d.mxActive = none) :
      Turn m j d ⟨.lock, i, cards, last⟩ none { d with mxActive := some (some j) }
        ⟨.decrement, i, cards, last⟩
  | decrement (i : Nat) (cards : List Int) (last : Int) :
      Turn m j d ⟨.decrement, i, cards, last⟩ none
        { d with activePlayers := d.activePlayers - 1 } ⟨.unlock, i, cards, last⟩
  | unlock (i : Nat) (cards : List Int) (last : Int) :
      Turn m j d ⟨.unlock, i, cards, last⟩ none d.unlock ⟨.postLast, i, cards, last⟩
  | postLast (i : Nat) (cards : List Int) (last : Int) :
      Turn m j d ⟨.postLast, i, cards, last⟩ none (d.post .done) ⟨.left, i, cards, last⟩
  | postDone (i : Nat) (cards : List Int) (last : Int) :
      Turn m j d ⟨.postDone, i, cards, last⟩ none (d.post .done)
        ⟨.waitRound, i + 1, cards, last⟩

theorem Data.wait_eq_some {d d' : Data n} {g : Gate} (h : d.wait g = some d') :
    ∃ v, d.sem g = v + 1 ∧ d' = { d with sem := Function.update d.sem g v } := by
  unfold Data.wait at h
  split at h
  · cases h
  · exact ⟨d.sem g - 1, by omega, (Option.some.inj h).symm⟩

theorem Data.lock_eq_some {d d' : Data n} {p : Option (Fin n)} (h : d.lock p = some d') :
    d.mxActive = none ∧ d' = { d with mxActive := some p } := by
  unfold Data.lock at h
  split at h
  · exact ⟨‹_›, (Option.some.inj h).symm⟩
  · cases h

/-- Every step of a player is one of these. -/
theorem playerWork_turn {m : Nat} {j : Fin n} {q q' : Player} {d d' : Data n} {rand : Nat}
    {l : Option (Event n)} (h : playerWork m j q d rand = some (l, d', q')) :
    Turn m j d q l d' q' := by
  obtain ⟨stage, i, cards, last⟩ := q
  cases stage with
  | waitRound =>
      simp only [playerWork] at h
      split at h
      · obtain ⟨e, he, heq⟩ := Option.map_eq_some_iff.mp h
        obtain ⟨v, hv, rfl⟩ := Data.wait_eq_some he
        cases heq
        exact .waitRound i cards last v ‹_› hv
      · cases h
        exact .finish i cards last (by omega)
  | draw =>
      simp only [playerWork] at h
      split at h
      · cases h
        exact .draw i cards _ last _ (drawCard_perm ‹_›)
      · cases h
        obtain rfl := drawCard_eq_none.mp ‹_›
        exact .fail i last
  | waitResults =>
      obtain ⟨e, he, heq⟩ := Option.map_eq_some_iff.mp h
      obtain ⟨v, hv, rfl⟩ := Data.wait_eq_some he
      cases heq
      exact .waitResults i cards last v hv
  | decide =>
      cases h
      cases hresign : shouldResign rand with
      | resigned => exact .resign i cards last
      | playing => exact .stay i cards last
  | lock =>
      obtain ⟨e, he, heq⟩ := Option.map_eq_some_iff.mp h
      obtain ⟨hfree, rfl⟩ := Data.lock_eq_some he
      cases heq
      exact .lock i cards last hfree
  | postCards => cases h; exact .postCards i cards last
  | readScore => cases h; exact .readScore i cards last
  | decrement => cases h; exact .decrement i cards last
  | unlock => cases h; exact .unlock i cards last
  | postLast => cases h; exact .postLast i cards last
  | postDone => cases h; exact .postDone i cards last
  | left | finished | failed => cases h

variable {m : Nat} {j : Fin n} {q q' : Player} {d d' : Data n} {l : Option (Event n)}

/-- What can be said of a player by itself. -/
structure Player.Valid (m : Nat) (q : Player) : Prop where
  round_pos : 1 ≤ q.round
  round_le : q.round ≤ m ∨ q.round = m + 1 ∧ (q.stage = .waitRound ∨ q.stage = .finished)
  finished : q.stage = .finished → q.round = m + 1
  failed : q.stage ≠ .failed
  /-- It has the cards that it has not drawn. -/
  cards : q.cards.length + q.draws = m
  pos : ∀ c ∈ q.cards, 0 < c

theorem Player.valid_start : Player.Valid m ⟨.waitRound, 1, createCards m, 0⟩ where
  round_pos := le_rfl
  round_le := by
    by_cases hm : m = 0
    · subst hm; exact .inr ⟨rfl, .inl rfl⟩
    · exact .inl (Nat.one_le_iff_ne_zero.mpr hm)
  finished := nofun
  failed := nofun
  cards := by simp [Player.draws, Stage.hasDrawn]
  pos := createCards_pos

theorem Player.Valid.turn (hq : q.Valid m) (h : Turn m j d q l d' q') : q'.Valid m := by
  obtain ⟨hpos, hle, hfin, hfail, hcards, hcpos⟩ := hq
  cases h with
  | waitRound i cards last v hi hv => exact ⟨hpos, .inl hi, nofun, nofun, hcards, hcpos⟩
  | finish i cards last hi =>
      have hi : i = m + 1 := (hle.resolve_left (Nat.not_le.mpr hi)).1
      exact ⟨hpos, .inr ⟨hi, .inr rfl⟩, fun _ => hi, nofun, hcards, hcpos⟩
  | draw i cards left last card hperm =>
      have hi : i ≤ m := hle.resolve_right (by rintro ⟨-, h | h⟩ <;> cases h)
      refine ⟨hpos, .inl hi, nofun, nofun, ?_, fun c hc => hcpos c (hperm.mem_iff.mpr (by simp [hc]))⟩
      have := hperm.length_eq
      simp only [Player.draws, Stage.hasDrawn, Bool.toNat_true, Bool.toNat_false,
        List.length_cons] at hcards this ⊢
      omega
  | fail i last =>
      -- there is a card for every round
      have hi : i ≤ m := hle.resolve_right (by rintro ⟨-, h | h⟩ <;> cases h)
      simp only [Player.draws, Stage.hasDrawn, Bool.toNat_false, List.length_nil] at hcards hpos
      omega
  | postDone i cards last =>
      have hi : i ≤ m := hle.resolve_right (by rintro ⟨-, h | h⟩ <;> cases h)
      refine ⟨Nat.succ_pos i, ?_, nofun, nofun, ?_, hcpos⟩
      · rcases Nat.lt_or_eq_of_le hi with hlt | rfl
        · exact .inl hlt
        · exact .inr ⟨rfl, .inl rfl⟩
      · simp only [Player.draws, Stage.hasDrawn, Bool.toNat_true, Bool.toNat_false] at hcards hpos ⊢
        omega
  | postCards i | waitResults i | readScore i | resign i | stay i | lock i | decrement i | unlock i
  | postLast i =>
      have hi : i ≤ m := hle.resolve_right (by rintro ⟨-, h | h⟩ <;> cases h)
      exact ⟨hpos, .inl hi, nofun, nofun, hcards, hcpos⟩

/-- What a step does to the semaphores: one is passed, or none. -/
theorem Turn.passes (h : Turn m j d q l d' q') (hq : 1 ≤ q.round) :
    (∃ g v, q.time + 1 = 4 * (q.round - 1) + g.index ∧ q'.time = q.time + 1 ∧
        d'.sem = Function.update d.sem g v ∧
        if g.byServer then d.sem g = v + 1 else v = d.sem g + 1) ∨
      (q'.time = q.time ∧ d'.sem = d.sem) := by
  cases h with
  | waitRound i cards last v hi hv =>
      exact .inl ⟨.start, v, rfl, rfl, rfl, hv⟩
  | postCards => exact .inl ⟨.ready, _, rfl, rfl, rfl, rfl⟩
  | waitResults i cards last v hv =>
      exact .inl ⟨.results, v, rfl, rfl, rfl, hv⟩
  | postLast => exact .inl ⟨.done, _, rfl, rfl, rfl, rfl⟩
  | postDone i =>
      refine .inl ⟨.done, _, rfl, ?_, rfl, rfl⟩
      simp only [Player.time, Stage.gates] at hq ⊢
      omega
  | finish | draw | fail | readScore | resign | stay | lock | decrement | unlock =>
      exact .inr ⟨rfl, rfl⟩

theorem Turn.round_le (h : Turn m j d q l d' q') : q.round ≤ q'.round := by
  cases h with
  | postDone i => exact Nat.le_succ i
  | _ => exact le_rfl

/-- What has left does not go on. -/
theorem Turn.not_left (h : Turn m j d q l d' q') : q.stage ≠ .left := by
  cases h <;> nofun

theorem Turn.counted (h : Turn m j d q l d' q')
    (hd : q.stage.counted = true → 0 < d.activePlayers) :
    d'.activePlayers + q.stage.counted.toNat = d.activePlayers + q'.stage.counted.toNat := by
  cases h with
  | decrement =>
      have := hd rfl
      change d.activePlayers - 1 + 1 = d.activePlayers + 0
      omega
  | _ => rfl

/-- What a step does to the rows: only that of `j`, and not its score. -/
theorem Turn.rows (h : Turn m j d q l d' q') :
    (∀ k ≠ j, d'.playerData k = d.playerData k) ∧
      (d'.playerData j).score = (d.playerData j).score ∧
      (((d.playerData j).active = .resigned ↔ q.stage.resigned = true) →
        ((d'.playerData j).active = .resigned ↔ q'.stage.resigned = true)) := by
  cases h with
  | draw | resign | stay =>
      refine ⟨fun k hk => Function.update_of_ne hk .., ?_, fun h => ?_⟩ <;>
        simp_all [Data.row, Stage.resigned]
  | waitRound | finish | fail | postCards | waitResults | readScore | lock | decrement | unlock
  | postLast | postDone => exact ⟨fun _ _ => rfl, rfl, id⟩

/-- What a step does to the mutex. -/
theorem Turn.mutex (h : Turn m j d q l d' q') :
    (d'.mxActive = d.mxActive ∧ q'.stage.holding = q.stage.holding) ∨
      (d.mxActive = none ∧ d'.mxActive = some (some j) ∧ q'.stage.holding = true) ∨
      (d'.mxActive = none ∧ q.stage.holding = true ∧ q'.stage.holding = false) := by
  cases h with
  | lock i cards last hfree => exact .inr (.inl ⟨hfree, rfl, rfl⟩)
  | unlock => exact .inr (.inr ⟨rfl, rfl, rfl⟩)
  | waitRound | finish | draw | fail | postCards | waitResults | readScore | resign | stay
  | decrement | postLast | postDone => exact .inl ⟨rfl, rfl⟩

end Sop2.Cards.Semaphores
