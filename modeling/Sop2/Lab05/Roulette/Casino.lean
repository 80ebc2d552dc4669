import Sop2.Lab05.PipeUtils.SetUp
import Sop2.Lab05.Roulette.Player

/-!
# Lab05 — Roulette — the casino

`lab05/sop-roulette/sop-roulette.c` after the last `fork`: the croupier, who runs `server_work`, and
`n` players, who begin with `m` each, over two pipes each as in `sop-cards`.  A piece is an `int`.
What `rand` returns is left open.  The numbers are those of `player_work`, turn by turn, in
`Sop2.Lab05.Roulette.Player`.

After `ERR` everybody is killed; in the model only the process that finds the error stops.  A player
whose prize is no `int` is nowhere.

* `goes_serves`, `goes_plays`: what the croupier and a player can do.
* `step_cases`: a step is one of the croupier, or of one player, or belongs to the setting up.
* `tidy_run`: which ends a process has open at which place.
-/

namespace Sop2.Roulette
open Support Support.Piped
open PipeCards (Pipe allEnds mem_allEnds nodup_allEnds ends own)
open PipeUtils (setUp unused_setUp mem_setUp own_iff)

/-! ### The croupier -/

/-- What the croupier knows: the descriptors `rps` and `wps`, unless they are 0, and `any`. -/
structure Table (n : Nat) where
  rps : Fin n → Bool
  wps : Fin n → Bool
  any : Bool

/-- `player_pid`, `player_number` and `player_bet`. -/
structure Placed where
  pid : Int
  number : Int
  bet : Int
  deriving DecidableEq

/-- Where the croupier is in `server_work`, and behind it; with who is still to come. -/
inductive Croupier (n : Nat) where
  | draw (t : Table n)
  | players (t : Table n) (lucky : Int) (rest : List (Fin n))
  | number (t : Table n) (lucky pid : Int) (i : Fin n) (rest : List (Fin n))
  | bet (t : Table n) (lucky pid number : Int) (i : Fin n) (rest : List (Fin n))
  | answer (t : Table n) (lucky : Int) (b : Placed) (i : Fin n) (rest : List (Fin n))
  | tell (t : Table n) (lucky : Int) (b : Placed) (i : Fin n) (rest : List (Fin n))
  /-- At the end of the file of `i`. -/
  | closing (t : Table n) (lucky : Int) (i : Fin n) (rest : List (Fin n))
  /-- After `EPIPE`. -/
  | broken (t : Table n) (lucky : Int) (i : Fin n) (rest : List (Fin n))
  /-- `main` after `server_work`: these ends are closed, one by one. -/
  | cleanup (es : List (End (Pipe n)))
  | waiting
  | done
  | failed (t : Table n)

/-- What `rand` returns, what is in `lucky_number` when nothing was read into it, and what comes of
a `write` to descriptor 0. -/
inductive Answer where
  | lucky (r : Nat)
  | turn (r : Round)
  | stale (x : Int)
  | wrote
  | failed

/-- What can be seen of a step besides the pipes. -/
inductive Shown (n : Nat) where
  | placed (i : Fin n) (b : Placed)
  | lucky (x : Int)
  | casinoWins
  | saved (amount : Int)
  | won (prize : Int)
  | broke
  deriving DecidableEq

variable {n : Nat}

def Table.start (n : Nat) : Table n := ⟨fun _ => true, fun _ => true, false⟩

def Table.reset (t : Table n) : Table n := { t with any := false }

def Table.seen (t : Table n) : Table n := { t with any := true }

def Table.closeRps (t : Table n) (i : Fin n) : Table n :=
  { t with rps := Function.update t.rps i false }

def Table.closeWps (t : Table n) (i : Fin n) : Table n :=
  { t with wps := Function.update t.wps i false }

/-- The ends that the croupier has open. -/
def Table.holds (t : Table n) : End (Pipe n) → Bool
  | .read (.fromPlayer i) => t.rps i
  | .write (.toPlayer i) => t.wps i
  | _ => false

/-- `server_work`. -/
def serverWork : Croupier n → Op (Pipe n) Int Answer (Shown n) (Croupier n)
  | .draw t => .ask fun
      | .lucky r => some (none, .players t.reset (r % 37 : Nat) (List.finRange n))
      | _ => none
  | .players t lucky [] =>
      if t.any then .act (some (.lucky lucky)) (.draw t)
      else .act (some .casinoWins) (.cleanup ((allEnds n).filter t.holds))
  | .players t lucky (i :: rest) =>
      if t.rps i then
        .read (.fromPlayer i) (fun pid => .number t.seen lucky pid i rest)
          (.closing t.seen lucky i rest) none
      else .act none (.players t lucky rest)
  | .number t lucky pid i rest =>
      .read (.fromPlayer i) (fun number => .bet t lucky pid number i rest) (.closing t lucky i rest)
        none
  | .bet t lucky pid number i rest =>
      .read (.fromPlayer i) (fun bet => .answer t lucky ⟨pid, number, bet⟩ i rest)
        (.closing t lucky i rest) none
  | .answer t lucky b i rest =>
      if t.wps i then .write (.toPlayer i) lucky (.tell t lucky b i rest) (.broken t lucky i rest)
      else .ask fun
        | .wrote => some (none, .tell t lucky b i rest)
        | .failed => some (none, .failed t)
        | _ => none
  | .tell t lucky b i rest => .act (some (.placed i b)) (.players t lucky rest)
  | .closing t lucky i rest => .close (.read (.fromPlayer i)) (.players (t.closeRps i) lucky rest)
  | .broken t lucky i rest => .close (.write (.toPlayer i)) (.players (t.closeWps i) lucky rest)
  | .cleanup [] => .act none .waiting
  | .cleanup (e :: es) => .close e (.cleanup es)
  | .waiting => .wait .done
  | .done | .failed _ => .halt

/-! ### A player -/

/-- What is left after `amount -= bet`, the bet and the number. -/
structure Wager where
  rest : Int
  bet : Int
  number : Int
  deriving DecidableEq

/-- Where a player is in `player_work`, and behind it. -/
inductive Gambler where
  | deciding (amount : Int)
  | pid (w : Wager)
  | number (w : Wager)
  | bet (w : Wager)
  | result (w : Wager)
  /-- At the end of the file, with whatever is in `lucky_number`. -/
  | stale (w : Wager)
  | settle (w : Wager) (lucky : Int)
  | leaving (amount : Int)
  | closing (amount : Int)
  | exiting (amount : Int)
  | gone (amount : Int)
  | overflow (w : Wager)
  | failed (w : Wager)
  deriving DecidableEq

/-- `player_work`. -/
def playerWork (pid : Int) (i : Fin n) : Gambler → Op (Pipe n) Int Answer (Shown n) Gambler
  | .deciding amount =>
      if 0 < amount then .ask fun
        | .turn r =>
            if shouldResign r.resign probability then some (some (.saved amount), .leaving amount)
            else (place amount r).map fun (bet, rest) => (none, .pid ⟨rest, bet, number r⟩)
        | _ => none
      else .act (some .broke) (.leaving amount)
  | .pid w => .write (.fromPlayer i) pid (.number w) (.failed w)
  | .number w => .write (.fromPlayer i) w.number (.bet w) (.failed w)
  | .bet w => .write (.fromPlayer i) w.bet (.result w) (.failed w)
  | .result w => .read (.toPlayer i) (.settle w) (.stale w) none
  | .stale w => .ask fun
      | .stale x => some (none, .settle w x)
      | _ => none
  | .settle w lucky =>
      if lucky = w.number then
        match collect w.rest w.bet with
        | some (prize, amount) => .act (some (.won prize)) (.deciding amount)
        | none => .act none (.overflow w)
      else .act none (.deciding w.rest)
  | .leaving amount => .close (.read (.toPlayer i)) (.closing amount)
  | .closing amount => .close (.write (.fromPlayer i)) (.exiting amount)
  | .exiting amount => .exit (.gone amount)
  | .gone _ | .overflow _ | .failed _ => .halt

/-! ### What they can do -/

/-- One operation of the croupier: what is seen of it, and where it leads. -/
inductive Serves : Croupier n → Event (Pipe n) Int (Shown n) → Croupier n → Prop where
  | draw (t : Table n) (r : Nat) :
      Serves (.draw t) (.said none) (.players t.reset (r % 37 : Nat) (List.finRange n))
  | skip (t : Table n) (lucky : Int) (i : Fin n) (rest : List (Fin n)) (h : t.rps i = false) :
      Serves (.players t lucky (i :: rest)) (.said none) (.players t lucky rest)
  | roundEnds (t : Table n) (lucky : Int) (h : t.any = true) :
      Serves (.players t lucky []) (.said (some (.lucky lucky))) (.draw t)
  | wins (t : Table n) (lucky : Int) (h : t.any = false) :
      Serves (.players t lucky []) (.said (some .casinoWins))
        (.cleanup ((allEnds n).filter t.holds))
  | pid (t : Table n) (lucky pid : Int) (i : Fin n) (rest : List (Fin n)) (h : t.rps i = true) :
      Serves (.players t lucky (i :: rest)) (.read (.fromPlayer i) pid)
        (.number t.seen lucky pid i rest)
  | number (t : Table n) (lucky pid number : Int) (i : Fin n) (rest : List (Fin n)) :
      Serves (.number t lucky pid i rest) (.read (.fromPlayer i) number)
        (.bet t lucky pid number i rest)
  | bet (t : Table n) (lucky pid number bet : Int) (i : Fin n) (rest : List (Fin n)) :
      Serves (.bet t lucky pid number i rest) (.read (.fromPlayer i) bet)
        (.answer t lucky ⟨pid, number, bet⟩ i rest)
  | eofPid (t : Table n) (lucky : Int) (i : Fin n) (rest : List (Fin n)) (h : t.rps i = true) :
      Serves (.players t lucky (i :: rest)) (.eof (.fromPlayer i)) (.closing t.seen lucky i rest)
  | eofNumber (t : Table n) (lucky pid : Int) (i : Fin n) (rest : List (Fin n)) :
      Serves (.number t lucky pid i rest) (.eof (.fromPlayer i)) (.closing t lucky i rest)
  | eofBet (t : Table n) (lucky pid number : Int) (i : Fin n) (rest : List (Fin n)) :
      Serves (.bet t lucky pid number i rest) (.eof (.fromPlayer i)) (.closing t lucky i rest)
  | answer (t : Table n) (lucky : Int) (b : Placed) (i : Fin n) (rest : List (Fin n)) :
      Serves (.answer t lucky b i rest) (.wrote (.toPlayer i) lucky) (.tell t lucky b i rest)
  | epipe (t : Table n) (lucky : Int) (b : Placed) (i : Fin n) (rest : List (Fin n)) :
      Serves (.answer t lucky b i rest) (.epipe (.toPlayer i)) (.broken t lucky i rest)
  | stray (t : Table n) (lucky : Int) (b : Placed) (i : Fin n) (rest : List (Fin n))
      (h : t.wps i = false) :
      Serves (.answer t lucky b i rest) (.said none) (.tell t lucky b i rest)
  | strayFails (t : Table n) (lucky : Int) (b : Placed) (i : Fin n) (rest : List (Fin n))
      (h : t.wps i = false) : Serves (.answer t lucky b i rest) (.said none) (.failed t)
  | tell (t : Table n) (lucky : Int) (b : Placed) (i : Fin n) (rest : List (Fin n)) :
      Serves (.tell t lucky b i rest) (.said (some (.placed i b))) (.players t lucky rest)
  | closeRps (t : Table n) (lucky : Int) (i : Fin n) (rest : List (Fin n)) :
      Serves (.closing t lucky i rest) (.said none) (.players (t.closeRps i) lucky rest)
  | closeWps (t : Table n) (lucky : Int) (i : Fin n) (rest : List (Fin n)) :
      Serves (.broken t lucky i rest) (.said none) (.players (t.closeWps i) lucky rest)
  | cleanup (e : End (Pipe n)) (es : List (End (Pipe n))) :
      Serves (.cleanup (e :: es)) (.said none) (.cleanup es)
  | wait : Serves (.cleanup []) (.said none) .waiting
  | done : Serves .waiting (.said none) .done

theorem goes_serves {c c' : Croupier n} {e : Event (Pipe n) Int (Shown n)}
    (h : (serverWork c).Goes e c') : Serves c e c' := by
  cases c with
  | draw t =>
      obtain ⟨a, l, ha, rfl⟩ := h
      cases a <;> cases ha
      exact .draw t _
  | players t lucky rest =>
      cases rest with
      | nil =>
          cases hany : t.any with
          | true =>
              rw [serverWork, if_pos hany] at h
              obtain ⟨rfl, rfl⟩ := h
              exact .roundEnds t lucky hany
          | false =>
              rw [serverWork, if_neg (by simp [hany])] at h
              obtain ⟨rfl, rfl⟩ := h
              exact .wins t lucky hany
      | cons i rest =>
          cases hi : t.rps i with
          | true =>
              rw [serverWork, if_pos hi] at h
              obtain ⟨pid, rfl, rfl⟩ | ⟨rfl, rfl⟩ | ⟨-, h⟩ := h
              · exact .pid t lucky pid i rest hi
              · exact .eofPid t lucky i rest hi
              · cases h
          | false =>
              rw [serverWork, if_neg (by simp [hi])] at h
              obtain ⟨rfl, rfl⟩ := h
              exact .skip t lucky i rest hi
  | number t lucky pid i rest =>
      obtain ⟨number, rfl, rfl⟩ | ⟨rfl, rfl⟩ | ⟨-, h⟩ := h
      · exact .number t lucky pid number i rest
      · exact .eofNumber t lucky pid i rest
      · cases h
  | bet t lucky pid number i rest =>
      obtain ⟨bet, rfl, rfl⟩ | ⟨rfl, rfl⟩ | ⟨-, h⟩ := h
      · exact .bet t lucky pid number bet i rest
      · exact .eofBet t lucky pid number i rest
      · cases h
  | answer t lucky b i rest =>
      cases hi : t.wps i with
      | true =>
          rw [serverWork, if_pos hi] at h
          obtain ⟨rfl, rfl⟩ | ⟨rfl, rfl⟩ := h
          · exact .answer t lucky b i rest
          · exact .epipe t lucky b i rest
      | false =>
          rw [serverWork, if_neg (by simp [hi])] at h
          obtain ⟨a, l, ha, rfl⟩ := h
          cases a <;> cases ha
          · exact .stray t lucky b i rest hi
          · exact .strayFails t lucky b i rest hi
  | tell t lucky b i rest =>
      obtain ⟨rfl, rfl⟩ := h
      exact .tell t lucky b i rest
  | closing t lucky i rest =>
      obtain ⟨rfl, rfl⟩ := h
      exact .closeRps t lucky i rest
  | broken t lucky i rest =>
      obtain ⟨rfl, rfl⟩ := h
      exact .closeWps t lucky i rest
  | cleanup es =>
      cases es with
      | nil =>
          obtain ⟨rfl, rfl⟩ := h
          exact .wait
      | cons e es =>
          obtain ⟨rfl, rfl⟩ := h
          exact .cleanup e es
  | waiting =>
      obtain ⟨rfl, rfl⟩ := h
      exact .done
  | done | failed t => exact h.elim

/-- A bet that somebody with `amount` can place. -/
structure Wager.Fair (w : Wager) (amount : Int) : Prop where
  paid : w.rest + w.bet = amount
  bet : 1 ≤ w.bet
  rest : 0 ≤ w.rest
  number : 0 ≤ w.number ∧ w.number < 37

/-- One operation of a player: what is seen of it, and where it leads. -/
inductive Plays (pid : Int) (i : Fin n) :
    Gambler → Event (Pipe n) Int (Shown n) → Gambler → Prop where
  | resign (amount : Int) (h : 0 < amount) :
      Plays pid i (.deciding amount) (.said (some (.saved amount))) (.leaving amount)
  | broke (amount : Int) (h : amount ≤ 0) :
      Plays pid i (.deciding amount) (.said (some .broke)) (.leaving amount)
  | stake (amount : Int) (w : Wager) (h : w.Fair amount) :
      Plays pid i (.deciding amount) (.said none) (.pid w)
  | pid (w : Wager) : Plays pid i (.pid w) (.wrote (.fromPlayer i) pid) (.number w)
  | number (w : Wager) : Plays pid i (.number w) (.wrote (.fromPlayer i) w.number) (.bet w)
  | bet (w : Wager) : Plays pid i (.bet w) (.wrote (.fromPlayer i) w.bet) (.result w)
  | epipe (g : Gambler) (w : Wager) (h : g = .pid w ∨ g = .number w ∨ g = .bet w) :
      Plays pid i g (.epipe (.fromPlayer i)) (.failed w)
  | result (w : Wager) (lucky : Int) :
      Plays pid i (.result w) (.read (.toPlayer i) lucky) (.settle w lucky)
  | eof (w : Wager) : Plays pid i (.result w) (.eof (.toPlayer i)) (.stale w)
  | stale (w : Wager) (x : Int) : Plays pid i (.stale w) (.said none) (.settle w x)
  | won (w : Wager) : Plays pid i (.settle w w.number) (.said (some (.won (prizeFactor * w.bet))))
      (.deciding (w.rest + prizeFactor * w.bet))
  | overflow (w : Wager) : Plays pid i (.settle w w.number) (.said none) (.overflow w)
  | lost (w : Wager) (lucky : Int) (h : lucky ≠ w.number) :
      Plays pid i (.settle w lucky) (.said none) (.deciding w.rest)
  | leaving (amount : Int) : Plays pid i (.leaving amount) (.said none) (.closing amount)
  | closing (amount : Int) : Plays pid i (.closing amount) (.said none) (.exiting amount)
  | exiting (amount : Int) : Plays pid i (.exiting amount) (.said none) (.gone amount)

/-- What is staked can be staked. -/
theorem fair_of_place {amount b rest : Int} {r : Round} (hpos : 0 < amount)
    (h : place amount r = some (b, rest)) : (⟨rest, b, number r⟩ : Wager).Fair amount := by
  obtain ⟨hlow, hhigh⟩ := bet_range r hpos
  obtain ⟨b', hb, h⟩ := Option.bind_eq_some_iff.mp h
  obtain ⟨rest', hrest, heq⟩ := Option.map_eq_some_iff.mp h
  cases heq
  rw [int] at hb hrest
  split at hb <;> cases hb
  split at hrest <;> cases hrest
  refine ⟨sub_add_cancel .., hlow, sub_nonneg.mpr hhigh, ?_, ?_⟩
  · exact Int.emod_nonneg _ (by decide)
  · exact Int.emod_lt_of_pos _ (by decide)

theorem goes_plays {pid : Int} {i : Fin n} {g g' : Gambler} {e : Event (Pipe n) Int (Shown n)}
    (h : (playerWork pid i g).Goes e g') : Plays pid i g e g' := by
  cases g with
  | deciding amount =>
      by_cases hpos : 0 < amount
      · rw [playerWork, if_pos hpos] at h
        obtain ⟨a, l, ha, rfl⟩ := h
        cases a with
        | turn r =>
            simp only at ha
            split at ha
            · cases ha
              exact .resign amount hpos
            · obtain ⟨⟨b, rest⟩, hplace, heq⟩ := Option.map_eq_some_iff.mp ha
              cases heq
              exact .stake amount _ (fair_of_place hpos hplace)
        | lucky | stale | wrote | failed => cases ha
      · rw [playerWork, if_neg hpos] at h
        obtain ⟨rfl, rfl⟩ := h
        exact .broke amount (Int.not_lt.mp hpos)
  | pid w =>
      obtain ⟨rfl, rfl⟩ | ⟨rfl, rfl⟩ := h
      · exact .pid w
      · exact .epipe _ w (.inl rfl)
  | number w =>
      obtain ⟨rfl, rfl⟩ | ⟨rfl, rfl⟩ := h
      · exact .number w
      · exact .epipe _ w (.inr (.inl rfl))
  | bet w =>
      obtain ⟨rfl, rfl⟩ | ⟨rfl, rfl⟩ := h
      · exact .bet w
      · exact .epipe _ w (.inr (.inr rfl))
  | result w =>
      obtain ⟨lucky, rfl, rfl⟩ | ⟨rfl, rfl⟩ | ⟨-, h⟩ := h
      · exact .result w lucky
      · exact .eof w
      · cases h
  | stale w =>
      obtain ⟨a, l, ha, rfl⟩ := h
      cases a <;> cases ha
      exact .stale w _
  | settle w lucky =>
      by_cases hlucky : lucky = w.number
      · rw [playerWork, if_pos hlucky, collect_eq] at h
        subst hlucky
        split at h
        · rename_i prize amount hpaid
          split at hpaid <;> cases hpaid
          obtain ⟨rfl, rfl⟩ := h
          exact .won w
        · obtain ⟨rfl, rfl⟩ := h
          exact .overflow w
      · rw [playerWork, if_neg hlucky] at h
        obtain ⟨rfl, rfl⟩ := h
        exact .lost w lucky hlucky
  | leaving amount =>
      obtain ⟨rfl, rfl⟩ := h
      exact .leaving amount
  | closing amount =>
      obtain ⟨rfl, rfl⟩ := h
      exact .closing amount
  | exiting amount =>
      obtain ⟨rfl, rfl⟩ := h
      exact .exiting amount
  | gone | overflow | failed => exact h.elim

/-! ### The system -/

abbrev Place (n : Nat) := Croupier n ⊕ Gambler

def work (pids : Fin n → Int) :
    Option (Fin n) → Place n → Op (Pipe n) Int Answer (Shown n) (Place n)
  | none, .inl c => (serverWork c).map .inl
  | some i, .inr g => (playerWork (pids i) i g).map .inr
  | _, _ => .halt

/-- Where the work of a process begins. -/
def start (m : Int) : Option (Fin n) → Place n
  | none => .inl (.draw (.start n))
  | some _ => .inr (.deciding m)

abbrev State (n : Nat) := Piped.State (Option (Fin n)) (Pipe n) Int (SetUp (Pipe n) (Place n))

/-- What can be seen of a step. -/
abbrev Seen (n : Nat) := Event (Pipe n) Int (Shown n)

def op (pids : Fin n → Int) (m : Int) :
    Option (Fin n) → SetUp (Pipe n) (Place n) →
      Op (Pipe n) Int Answer (Shown n) (SetUp (Pipe n) (Place n)) :=
  withSetUp (work pids) (start m)

abbrev Step (cap : Nat) (pids : Fin n → Int) (m : Int) :
    State n → Option (Fin n) × Seen n → State n → Prop :=
  Piped.Step cap (op pids m)

def begin (n : Nat) : State n := everyEnd setUp

/-- Where the croupier is; before its work, where it will be. -/
def atTable : SetUp (Pipe n) (Place n) → Croupier n
  | .working (.inl c) => c
  | _ => .draw (.start n)

/-- Where a player is. -/
def atBets (m : Int) : SetUp (Pipe n) (Place n) → Gambler
  | .working (.inr g) => g
  | _ => .deciding m

def State.croupier (s : State n) : Croupier n := atTable (s.pc none)

def State.gambler (m : Int) (s : State n) (i : Fin n) : Gambler := atBets m (s.pc (some i))

variable {cap : Nat} {pids : Fin n → Int} {m : Int} {s t : State n} {e : Seen n}

/-- **What a step can be.**  The croupier goes on, or one player does; or nobody does, and somebody
closes an end that it does not use, or begins. -/
theorem step_cases {p : Option (Fin n)} (h : Step cap pids m s (p, e) t) :
    (p = none ∧ Serves s.croupier e t.croupier ∧ ∀ i, t.gambler m i = s.gambler m i) ∨
      (∃ i, p = some i ∧ Plays (pids i) i (s.gambler m i) e (t.gambler m i) ∧
        t.croupier = s.croupier ∧ ∀ j ≠ i, t.gambler m j = s.gambler m j) ∨
      e = .said none ∧ t.croupier = s.croupier ∧ ∀ i, t.gambler m i = s.gambler m i := by
  have hgoes := h.goes
  obtain ⟨q, hpc, hgoes⟩ := hgoes
  change (op pids m p (s.pc p)).Goes e q at hgoes
  have hself : t.pc p = q := by rw [hpc]; exact Function.update_self ..
  have hstays : ∀ r ≠ p, t.pc r = s.pc r := fun r hr => h.stays hr
  -- who does not work yet is where it was
  have setUp : e = .said none → atTable q = atTable (s.pc p) → atBets m q = atBets m (s.pc p) →
      e = .said none ∧ t.croupier = s.croupier ∧ ∀ i, t.gambler m i = s.gambler m i := by
    intro he htable hbets
    refine ⟨he, ?_, fun i => ?_⟩
    · by_cases hp : none = p
      · subst hp
        rw [State.croupier, State.croupier, hself, htable]
      · rw [State.croupier, State.croupier, hstays _ hp]
    · by_cases hp : some i = p
      · subst hp
        rw [State.gambler, State.gambler, hself, hbets]
      · rw [State.gambler, State.gambler, hstays _ hp]
  rcases withSetUp_goes hgoes with ⟨f, es, hq, rfl, rfl⟩ | ⟨hq, rfl, rfl⟩ | ⟨w, w', hq, rfl, hwork⟩
  · exact .inr (.inr (setUp rfl (by rw [hq]; rfl) (by rw [hq]; rfl)))
  · exact .inr (.inr (setUp rfl (by rw [hq]; cases p <;> rfl) (by rw [hq]; cases p <;> rfl)))
  · cases p with
    | none =>
        cases w with
        | inl c =>
            obtain ⟨c', hgo, rfl⟩ := Op.map_goes_iff.mp hwork
            refine .inl ⟨rfl, ?_, fun i => ?_⟩
            · rw [State.croupier, State.croupier, hself, hq]
              exact goes_serves hgo
            · rw [State.gambler, State.gambler, hstays _ (by simp)]
        | inr g => exact hwork.elim
    | some i =>
        cases w with
        | inl c => exact hwork.elim
        | inr g =>
            obtain ⟨g', hgo, rfl⟩ := Op.map_goes_iff.mp hwork
            refine .inr (.inl ⟨i, rfl, ?_, ?_, fun j hj => ?_⟩)
            · rw [State.gambler, State.gambler, hself, hq]
              exact goes_plays hgo
            · rw [State.croupier, State.croupier, hstays _ (by simp)]
            · rw [State.gambler, State.gambler, hstays _ (by simpa using hj)]

/-! ### The ends -/

/-- The ends that the croupier has open at a place. -/
def Croupier.holds : Croupier n → End (Pipe n) → Bool
  | .draw t | .players t _ _ | .number t _ _ _ _ | .bet t _ _ _ _ _ | .answer t _ _ _ _
  | .tell t _ _ _ _ | .closing t _ _ _ | .broken t _ _ _ | .failed t => t.holds
  | .cleanup es => fun e => decide (e ∈ es)
  | .waiting | .done => fun _ => false

/-- The ends that a player has open. -/
def Gambler.holds (i : Fin n) : Gambler → End (Pipe n) → Bool
  | .closing _ => ends i false true
  | .exiting _ | .gone _ => fun _ => false
  | _ => ends i true true

def holds : Option (Fin n) → Place n → End (Pipe n) → Bool
  | none, .inl c => c.holds
  | some i, .inr g => g.holds i
  | _, _ => fun _ => false

/-- Where the croupier can be. -/
def Croupier.Ok : Croupier n → Prop
  | .number t _ _ i _ | .bet t _ _ _ i _ => t.rps i = true
  | .cleanup es => es.Nodup
  | _ => True

/-- Where a process can be. -/
def ok : Option (Fin n) → Place n → Prop
  | none, .inl c => c.Ok
  | some _, .inr _ => True
  | _, _ => False

theorem Table.holds_closeRps (t : Table n) (i : Fin n) :
    (t.closeRps i).holds = Function.update t.holds (.read (.fromPlayer i)) false := by
  funext e
  obtain ⟨j | j⟩ | ⟨j | j⟩ := e <;> by_cases h : j = i <;>
    simp [holds, closeRps, h]

theorem Table.holds_closeWps (t : Table n) (i : Fin n) :
    (t.closeWps i).holds = Function.update t.holds (.write (.toPlayer i)) false := by
  funext e
  obtain ⟨j | j⟩ | ⟨j | j⟩ := e <;> by_cases h : j = i <;>
    simp [holds, closeWps, h]

/-- A player closes its read end. -/
theorem ends_read (i : Fin n) :
    ends i false true = Function.update (ends i true true) (.read (.toPlayer i)) false := by
  funext e
  obtain ⟨j | j⟩ | ⟨j | j⟩ := e <;> by_cases h : j = i <;>
    simp [ends, h]

/-- And then its write end. -/
theorem ends_write (i : Fin n) :
    (fun _ => false) = Function.update (ends i false true) (.write (.fromPlayer i)) false := by
  funext e
  obtain ⟨j | j⟩ | ⟨j | j⟩ := e <;> by_cases h : j = i <;>
    simp [ends, h]

/-- `main` closes the next of its ends. -/
theorem cleanup_holds {e : End (Pipe n)} {es : List (End (Pipe n))} (h : e ∉ es) :
    (Croupier.cleanup es).holds = Function.update (Croupier.cleanup (e :: es)).holds e false := by
  funext f
  by_cases hf : f = e
  · subst hf
    simp [Croupier.holds, h]
  · simp [Croupier.holds, hf]

/-- The croupier is where it can be. -/
theorem Serves.ok {c c' : Croupier n} {e : Event (Pipe n) Int (Shown n)} (hc : c.Ok)
    (h : Serves c e c') : c'.Ok := by
  cases h with
  | pid t lucky pid i rest hi => exact hi
  | number => exact hc
  | wins => exact nodup_allEnds.filter _
  | cleanup => exact List.Nodup.of_cons hc
  | _ => trivial

theorem serverWork_keeps {c : Croupier n} (hc : c.Ok) :
    (serverWork c).Keeps c.holds Croupier.holds := by
  cases c with
  | draw t =>
      intro a l c' ha
      cases a <;> cases ha
      rfl
  | players t lucky rest =>
      cases rest with
      | nil =>
          rw [serverWork]
          split
          · rfl
          · funext e
            simp [Croupier.holds, mem_allEnds]
      | cons i rest =>
          rw [serverWork]
          split
          · exact ⟨‹_›, fun _ => rfl, rfl, fun _ h => by cases h⟩
          · rfl
  | number | bet => exact ⟨hc, fun _ => rfl, rfl, fun _ h => by cases h⟩
  | answer t lucky b i rest =>
      rw [serverWork]
      split
      · exact ⟨‹_›, rfl, rfl⟩
      · intro a l c' ha
        cases a <;> cases ha <;> rfl
  | tell | waiting => rfl
  | closing t lucky i rest => exact t.holds_closeRps i
  | broken t lucky i rest => exact t.holds_closeWps i
  | cleanup es =>
      cases es with
      | nil =>
          funext e
          simp [Croupier.holds]
      | cons e es => exact cleanup_holds (List.nodup_cons.mp hc).1
  | done | failed => trivial

theorem playerWork_keeps (pid : Int) (i : Fin n) (g : Gambler) :
    (playerWork pid i g).Keeps (g.holds i) (Gambler.holds i) := by
  cases g with
  | deciding amount =>
      rw [playerWork]
      split
      · intro a l g' ha
        cases a with
        | turn r =>
            simp only at ha
            split at ha
            · cases ha
              rfl
            · obtain ⟨x, -, heq⟩ := Option.map_eq_some_iff.mp ha
              cases heq
              rfl
        | lucky | stale | wrote | failed => cases ha
      · rfl
  | pid | number | bet => exact ⟨by simp [Gambler.holds, ends], rfl, rfl⟩
  | result w => exact ⟨by simp [Gambler.holds, ends], fun _ => rfl, rfl, fun _ h => by cases h⟩
  | stale w =>
      intro a l g' ha
      cases a <;> cases ha
      rfl
  | settle w lucky =>
      rw [playerWork]
      split
      · split <;> rfl
      · rfl
  | leaving => exact ends_read i
  | closing => exact ends_write i
  | exiting => rfl
  | gone | overflow | failed => trivial

theorem keeps (pids : Fin n → Int) : Keeps (work pids) ok holds where
  still := by
    intro p q e q' hok hgoes
    cases p with
    | none =>
        cases q with
        | inl c =>
            obtain ⟨c', hgo, rfl⟩ := Op.map_goes_iff.mp hgoes
            exact (goes_serves hgo).ok hok
        | inr g => exact hok.elim
    | some i =>
        cases q with
        | inl c => exact hok.elim
        | inr g =>
            obtain ⟨g', -, rfl⟩ := Op.map_goes_iff.mp hgoes
            trivial
  keeps := by
    intro p q hok
    cases p with
    | none =>
        cases q with
        | inl c => exact (serverWork_keeps hok).map fun _ => rfl
        | inr g => exact hok.elim
    | some i =>
        cases q with
        | inl c => exact hok.elim
        | inr g => exact (playerWork_keeps (pids i) i g).map fun _ => rfl

theorem start_holds (m : Int) (p : Option (Fin n)) : holds p (start m p) = own p := by
  cases p <;> rfl

theorem start_ok (m : Int) (p : Option (Fin n)) : ok p (start m p) := by
  cases p <;> trivial

/-- Where all processes are, and the ends that they have open. -/
abbrev AllTidy (m : Int) (s : State n) : Prop :=
  Tidy (fun p => SetUp.Ok (ok p) (own p) (start m p)) (fun p => SetUp.holds (holds p) (own p)) s

theorem AllTidy.step (hs : AllTidy m s) {l : Option (Fin n) × Seen n} (h : Step cap pids m s l t) :
    AllTidy m t :=
  Tidy.step (keeps_withSetUp (keeps pids) (start_holds m)) hs h

theorem tidy_begin (n : Nat) (m : Int) : AllTidy m (begin n) := by
  refine tidy_everyEnd (start_ok m) unused_setUp fun p f => ?_
  rw [own_iff, mem_setUp]
  exact Decidable.em _

theorem tidy_run {tr : List (Move (State n) (Option (Fin n) × Seen n))}
    (r : Run (Step cap pids m) (begin n) tr s) : AllTidy m s :=
  r.invariant (fun hs h => hs.step h) (tidy_begin n m)

end Sop2.Roulette
