import Mathlib.Tactic.DeriveFintype
import Sop2.Lab05.Ship.Discard
import Sop2.Support.PipedSetUp

/-!
# Lab05 — Ship — the voyage

The whole of `sop-ship.c` after the last `fork`: the server, which deals, waits for a winner and then
for all, and `n` players with `m` cards each.  The player `i` reads its hand from the pipe `deal i`,
reads the pipe `ring i`, writes the pipe `ring (i + 1)`, and announces that it has won in the pipe
`shared`.  What `rand` returns is left open, and so is when `SIGINT` comes, to those players that get
it at all; the server goes on whatever comes.

After `ERR` everybody is killed; in the model only the process that finds the error stops.  A player
that gets no hand, and plays on with what is in its memory, has stopped too; there is none
(`no_err`).

* `Moves`: what a process does (`goes_moves`).
* `keeps_op`, `tidy_begin`: which ends a process has open at which place.
-/

namespace Sop2.Voyage
open Support Support.Piped
open Ship (isWinning chooseCardToDiscard)

inductive Pipe (n : Nat) where
  | deal (i : Fin n)
  | ring (i : Fin n)
  | shared
  deriving DecidableEq, Fintype

/-- What is written at once: a hand, a card, or a `pid_t`. -/
inductive Message (n m : Nat) where
  | hand (cards : Fin m → Nat)
  | card (card : Nat)
  | pid (i : Fin n)

/-- What is printed. -/
inductive Line (n : Nat) where
  | sails
  | passed (card : Nat)
  | won (i : Fin n)
  deriving DecidableEq

/-- What a player meets: `SIGINT` has come, or it has not, and `rand` returns this. -/
inductive Answer where
  | sigint
  | random (r : Nat)

/-- Where a process is. -/
inductive Place (n m : Nat) where
  /-- `main`, with the players that have no hand yet. -/
  | deal (rest : List (Fin n))
  | dealt (i : Fin n) (rest : List (Fin n))
  | awaiting
  | won (i : Fin n)
  | closing
  | waiting
  /-- `player_work`, before the hand is there. -/
  | receive
  | received (hand : Fin m → Nat)
  | check (hand : Fin m → Nat)
  | announce
  | passing (hand : Fin m → Nat) (discard : Fin m)
  | passed (hand : Fin m → Nat) (discard : Fin m)
  | drawing (hand : Fin m → Nat) (discard : Fin m)
  /-- Behind the loop, with the ends that are still to be closed. -/
  | leaving (es : List (End (Pipe n)))
  /-- After an error, with the ends that are open. -/
  | failed (es : List (End (Pipe n)))
  | gone

variable {n m : Nat}

/-- What can be seen of a step. -/
abbrev Seen (n m : Nat) := Event (Pipe n) (Message n m) (Line n)

/-- What the server has open while it deals. -/
def serverEnds (rest : List (Fin n)) : List (End (Pipe n)) :=
  rest.map (fun i => .write (.deal i)) ++ [.read .shared]

/-- What comes of the message from a winner. -/
def winner : Message n m → Place n m
  | .pid i => .won i
  | _ => .failed [.read .shared]

/-- `main`, behind the `fork`s. -/
def serverWork (hands : Fin n → Fin m → Nat) :
    Place n m → Op (Pipe n) (Message n m) Answer (Line n) (Place n m)
  | .deal [] => .act none .awaiting
  | .deal (i :: rest) =>
      .write (.deal i) (.hand (hands i)) (.dealt i rest) (.failed (serverEnds (i :: rest)))
  | .dealt i rest => .close (.write (.deal i)) (.deal rest)
  | .awaiting => .read .shared winner .closing none
  | .won i => .act (some (.won i)) .closing
  | .closing => .close (.read .shared) .waiting
  | .waiting => .wait .gone
  | _ => .halt

variable [NeZero n] [NeZero m]

/-- What the player `i` has open in its loop, in the order in which it closes them. -/
def ringEnds (i : Fin n) : List (End (Pipe n)) :=
  [.read (.ring i), .write (.ring (i + 1)), .write .shared]

/-- What comes of the message from the server. -/
def handed (i : Fin n) : Message n m → Place n m
  | .hand cards => .received cards
  | _ => .failed (.read (.deal i) :: ringEnds i)

/-- What comes of the message from the player before. -/
def drawn (i : Fin n) (hand : Fin m → Nat) (discard : Fin m) : Message n m → Place n m
  | .card card => .check (Function.update hand discard card)
  | _ => .failed (ringEnds i)

/-- `player_work`, and what comes behind it; `signalled` are those who may get `SIGINT`. -/
def playerWork (signalled : Fin n → Bool) (i : Fin n) :
    Place n m → Op (Pipe n) (Message n m) Answer (Line n) (Place n m)
  | .receive => .read (.deal i) (handed i) (.failed (.read (.deal i) :: ringEnds i)) none
  | .received hand => .close (.read (.deal i)) (.check hand)
  | .check hand => .ask fun
      | .sigint => if signalled i then some (none, .leaving (ringEnds i)) else none
      | .random r =>
          if isWinning hand then some (some .sails, .announce)
          else some (none, .passing hand (chooseCardToDiscard hand r))
  | .announce => .write .shared (.pid i) (.leaving (ringEnds i)) (.leaving (ringEnds i))
  | .passing hand discard =>
      .write (.ring (i + 1)) (.card (hand discard)) (.passed hand discard) (.leaving (ringEnds i))
  | .passed hand discard => .act (some (.passed (hand discard))) (.drawing hand discard)
  | .drawing hand discard =>
      .read (.ring i) (drawn i hand discard) (.leaving (ringEnds i)) none
  | .leaving [] => .exit .gone
  | .leaving (e :: es) => .close e (.leaving es)
  | _ => .halt

/-- The processes: the server, and the players. -/
def work (signalled : Fin n → Bool) (hands : Fin n → Fin m → Nat) :
    Option (Fin n) → Place n m → Op (Pipe n) (Message n m) Answer (Line n) (Place n m)
  | none => serverWork hands
  | some i => playerWork signalled i

/-- Where the work of a process begins. -/
def start : Option (Fin n) → Place n m
  | none => .deal (List.finRange n)
  | some _ => .receive

/-- All ends of all pipes, in the order in which they are closed. -/
def allEnds (n : Nat) : List (End (Pipe n)) :=
  .read .shared ::
    ((List.finRange n).flatMap fun j =>
      [.write (.deal j), .read (.deal j), .read (.ring j), .write (.ring j)]) ++
    [.write .shared]

/-- The ends that a process has open at a place. -/
def held : Option (Fin n) → Place n m → List (End (Pipe n))
  | _, .deal rest => serverEnds rest
  | _, .dealt i rest => serverEnds (i :: rest)
  | _, .awaiting | _, .won _ | _, .closing => [.read .shared]
  | some i, .receive | some i, .received _ => .read (.deal i) :: ringEnds i
  | some i, .check _ | some i, .announce | some i, .passing .. | some i, .passed ..
  | some i, .drawing .. => ringEnds i
  | _, .leaving es | _, .failed es => es
  | _, _ => []

def holds (p : Option (Fin n)) (q : Place n m) (e : End (Pipe n)) : Bool := decide (e ∈ held p q)

/-- The ends of a process. -/
def own : Option (Fin n) → End (Pipe n) → Bool
  | none, e => decide (e ∈ serverEnds (List.finRange n))
  | some i, e => decide (e ∈ .read (.deal i) :: ringEnds i)

/-- What a process closes before its work. -/
def unused (p : Option (Fin n)) : List (End (Pipe n)) := (allEnds n).filter fun e => !own p e

abbrev State (n m : Nat) :=
  Piped.State (Option (Fin n)) (Pipe n) (Message n m) (SetUp (Pipe n) (Place n m))

/-- `main`, behind the last `fork`. -/
def op (signalled : Fin n → Bool) (hands : Fin n → Fin m → Nat) : Option (Fin n) →
    SetUp (Pipe n) (Place n m) →
      Op (Pipe n) (Message n m) Answer (Line n) (SetUp (Pipe n) (Place n m)) :=
  withSetUp (work signalled hands) start

abbrev Step (cap : Nat) (signalled : Fin n → Bool) (hands : Fin n → Fin m → Nat) :
    State n m → Option (Fin n) × Seen n m → State n m → Prop :=
  Piped.Step cap (op signalled hands)

def begin (n m : Nat) [NeZero n] : State n m := everyEnd unused

variable {signalled : Fin n → Bool} {hands : Fin n → Fin m → Nat} {p : Option (Fin n)}

/-! ### What a process does -/

/-- One operation of a process: what is seen of it, and where it leads. -/
inductive Moves (signalled : Fin n → Bool) (hands : Fin n → Fin m → Nat) :
    Option (Fin n) → Place n m → Seen n m → Place n m → Prop where
  | deal (i : Fin n) (rest : List (Fin n)) : Moves signalled hands none (.deal (i :: rest))
      (.wrote (.deal i) (.hand (hands i))) (.dealt i rest)
  | dealFails (i : Fin n) (rest : List (Fin n)) : Moves signalled hands none (.deal (i :: rest))
      (.epipe (.deal i)) (.failed (serverEnds (i :: rest)))
  | dealt (i : Fin n) (rest : List (Fin n)) :
      Moves signalled hands none (.dealt i rest) (.said none) (.deal rest)
  | await : Moves signalled hands none (.deal []) (.said none) .awaiting
  | hear (c : Message n m) : Moves signalled hands none .awaiting (.read .shared c) (winner c)
  | nobody : Moves signalled hands none .awaiting (.eof .shared) .closing
  | won (i : Fin n) : Moves signalled hands none (.won i) (.said (some (.won i))) .closing
  | close : Moves signalled hands none .closing (.said none) .waiting
  | wait : Moves signalled hands none .waiting (.said none) .gone
  | receive (i : Fin n) (c : Message n m) :
      Moves signalled hands (some i) .receive (.read (.deal i) c) (handed i c)
  | noHand (i : Fin n) : Moves signalled hands (some i) .receive (.eof (.deal i))
      (.failed (.read (.deal i) :: ringEnds i))
  | received (i : Fin n) (hand : Fin m → Nat) :
      Moves signalled hands (some i) (.received hand) (.said none) (.check hand)
  | sigint (i : Fin n) (hand : Fin m → Nat) (h : signalled i = true) :
      Moves signalled hands (some i) (.check hand) (.said none) (.leaving (ringEnds i))
  | sails (i : Fin n) (hand : Fin m → Nat) (h : isWinning hand = true) :
      Moves signalled hands (some i) (.check hand) (.said (some .sails)) .announce
  | choose (i : Fin n) (hand : Fin m → Nat) (r : Nat) (h : isWinning hand = false) :
      Moves signalled hands (some i) (.check hand) (.said none)
        (.passing hand (chooseCardToDiscard hand r))
  | announce (i : Fin n) : Moves signalled hands (some i) .announce (.wrote .shared (.pid i))
      (.leaving (ringEnds i))
  | unheard (i : Fin n) :
      Moves signalled hands (some i) .announce (.epipe .shared) (.leaving (ringEnds i))
  | pass (i : Fin n) (hand : Fin m → Nat) (discard : Fin m) :
      Moves signalled hands (some i) (.passing hand discard)
        (.wrote (.ring (i + 1)) (.card (hand discard))) (.passed hand discard)
  | epipe (i : Fin n) (hand : Fin m → Nat) (discard : Fin m) :
      Moves signalled hands (some i) (.passing hand discard) (.epipe (.ring (i + 1)))
        (.leaving (ringEnds i))
  | passed (i : Fin n) (hand : Fin m → Nat) (discard : Fin m) :
      Moves signalled hands (some i) (.passed hand discard) (.said (some (.passed (hand discard))))
        (.drawing hand discard)
  | draw (i : Fin n) (hand : Fin m → Nat) (discard : Fin m) (c : Message n m) :
      Moves signalled hands (some i) (.drawing hand discard) (.read (.ring i) c)
        (drawn i hand discard c)
  | eof (i : Fin n) (hand : Fin m → Nat) (discard : Fin m) :
      Moves signalled hands (some i) (.drawing hand discard) (.eof (.ring i))
        (.leaving (ringEnds i))
  | leave (i : Fin n) (e : End (Pipe n)) (es : List (End (Pipe n))) :
      Moves signalled hands (some i) (.leaving (e :: es)) (.said none) (.leaving es)
  | exit (i : Fin n) : Moves signalled hands (some i) (.leaving []) (.said none) .gone

theorem goes_moves {q q' : Place n m} {e : Seen n m} (h : (work signalled hands p q).Goes e q') :
    Moves signalled hands p q e q' := by
  cases p with
  | none =>
      cases q with
      | deal rest =>
          cases rest with
          | nil =>
              obtain ⟨rfl, rfl⟩ := h
              exact .await
          | cons i rest =>
              obtain ⟨rfl, rfl⟩ | ⟨rfl, rfl⟩ := h
              · exact .deal i rest
              · exact .dealFails i rest
      | dealt i rest =>
          obtain ⟨rfl, rfl⟩ := h
          exact .dealt i rest
      | awaiting =>
          obtain ⟨c, rfl, rfl⟩ | ⟨rfl, rfl⟩ | ⟨-, h⟩ := h
          · exact .hear c
          · exact .nobody
          · cases h
      | won i =>
          obtain ⟨rfl, rfl⟩ := h
          exact .won i
      | closing =>
          obtain ⟨rfl, rfl⟩ := h
          exact .close
      | waiting =>
          obtain ⟨rfl, rfl⟩ := h
          exact .wait
      | _ => exact h.elim
  | some i =>
      cases q with
      | receive =>
          obtain ⟨c, rfl, rfl⟩ | ⟨rfl, rfl⟩ | ⟨-, h⟩ := h
          · exact .receive i c
          · exact .noHand i
          · cases h
      | received hand =>
          obtain ⟨rfl, rfl⟩ := h
          exact .received i hand
      | check hand =>
          obtain ⟨a, l, ha, rfl⟩ := h
          cases a with
          | sigint =>
              simp only at ha
              split at ha <;> cases ha
              exact .sigint i hand ‹_›
          | random r =>
              simp only at ha
              split at ha <;> cases ha
              · exact .sails i hand ‹_›
              · exact .choose i hand r (Bool.eq_false_iff.mpr ‹_›)
      | announce =>
          obtain ⟨rfl, rfl⟩ | ⟨rfl, rfl⟩ := h
          · exact .announce i
          · exact .unheard i
      | passing hand discard =>
          obtain ⟨rfl, rfl⟩ | ⟨rfl, rfl⟩ := h
          · exact .pass i hand discard
          · exact .epipe i hand discard
      | passed hand discard =>
          obtain ⟨rfl, rfl⟩ := h
          exact .passed i hand discard
      | drawing hand discard =>
          obtain ⟨c, rfl, rfl⟩ | ⟨rfl, rfl⟩ | ⟨-, h⟩ := h
          · exact .draw i hand discard c
          · exact .eof i hand discard
          · cases h
      | leaving es =>
          cases es with
          | nil =>
              obtain ⟨rfl, rfl⟩ := h
              exact .exit i
          | cons e es =>
              obtain ⟨rfl, rfl⟩ := h
              exact .leave i e es
      | _ => exact h.elim

/-! ### The ends -/

/-- The process can be at the place. -/
def belongs : Option (Fin n) → Place n m → Bool
  | none, .deal _ | none, .dealt .. | none, .awaiting | none, .won _ | none, .closing
  | none, .waiting => true
  | some _, .receive | some _, .received _ | some _, .check _ | some _, .announce
  | some _, .passing .. | some _, .passed .. | some _, .drawing .. | some _, .leaving _ => true
  | _, .failed _ | _, .gone => true
  | _, _ => false

/-- Where a process can be. -/
def ok (p : Option (Fin n)) (q : Place n m) : Prop := belongs p q = true ∧ (held p q).Nodup

omit [NeZero n] in
theorem mem_allEnds (e : End (Pipe n)) : e ∈ allEnds n := by
  rw [allEnds, List.mem_append, List.mem_cons, List.mem_flatMap]
  cases e with
  | read k | write k =>
      cases k with
      | shared => simp
      | deal i | ring i => exact .inl (.inr ⟨i, List.mem_finRange i, by simp⟩)

omit [NeZero n] in
theorem nodup_allEnds : (allEnds n).Nodup := by
  rw [allEnds, List.cons_append, List.nodup_cons, List.nodup_append]
  refine ⟨by simp, List.nodup_flatMap.mpr ⟨fun j _ => by simp, ?_⟩, by simp, fun a ha b hb => ?_⟩
  · refine (List.nodup_finRange n).imp fun {i j} hij => ?_
    simp [Function.onFun, hij.symm]
  · obtain ⟨j, -, hj⟩ := List.mem_flatMap.mp ha
    rintro rfl
    rw [List.mem_singleton.mp hb] at hj
    simp at hj

omit [NeZero n] in
theorem length_allEnds : (allEnds n).length = 4 * n + 2 := by
  simp [allEnds, List.length_flatMap, Nat.mul_comm]

omit [NeZero m] in
/-- One of them is closed. -/
theorem holds_close {q q' : Place n m} {f : End (Pipe n)} (h : held p q = f :: held p q')
    (hnodup : (held p q).Nodup) : holds p q' = Function.update (holds p q) f false := by
  rw [h] at hnodup
  funext e
  by_cases he : e = f
  · subst he
    rw [Function.update_self]
    exact decide_eq_false (List.nodup_cons.mp hnodup).1
  · rw [Function.update_of_ne he, holds, holds, h]
    simp [he]

omit [NeZero m] in
theorem held_winner (c : Message n m) : held none (winner c) = [.read .shared] := by
  cases c <;> rfl

omit [NeZero m] in
theorem held_handed (i : Fin n) (c : Message n m) :
    held (some i) (handed i c) = .read (.deal i) :: ringEnds i := by
  cases c <;> rfl

omit [NeZero m] in
theorem held_drawn (i : Fin n) (hand : Fin m → Nat) (discard : Fin m) (c : Message n m) :
    held (some i) (drawn i hand discard c) = ringEnds i := by
  cases c <;> rfl

omit [NeZero m] in
theorem holds_congr {q q' : Place n m} (h : held p q' = held p q) : holds p q' = holds p q := by
  funext e
  rw [holds, holds, h]

omit [NeZero m] in
theorem holds_nil {q : Place n m} (h : held p q = []) : holds p q = fun _ => false := by
  funext e
  rw [holds, h]
  rfl

/-- What a process has still to close comes from what it had. -/
theorem Moves.ok {q q' : Place n m} {e : Seen n m} (h : Moves signalled hands p q e q')
    (hq : ok p q) : ok p q' := by
  have hnodup := hq.2
  cases h with
  | deal | dealFails | await | nobody | won | noHand | sigint | sails | choose | announce | unheard
  | pass | epipe | passed | eof => exact ⟨rfl, hnodup⟩
  | dealt i rest | close | received i hand | leave i e es => exact ⟨rfl, hnodup.of_cons⟩
  | hear c => exact ⟨by cases c <;> rfl, by rw [held_winner]; exact hnodup⟩
  | receive i c => exact ⟨by cases c <;> rfl, by rw [held_handed]; exact hnodup⟩
  | draw i hand discard c => exact ⟨by cases c <;> rfl, by rw [held_drawn]; exact hnodup⟩
  | wait | exit => exact ⟨rfl, List.nodup_nil⟩

theorem keeps (signalled : Fin n → Bool) (hands : Fin n → Fin m → Nat) :
    Keeps (work signalled hands) ok holds where
  still := fun hq hgoes => (goes_moves hgoes).ok hq
  keeps := by
    intro p q hq
    have hnodup := hq.2
    cases p with
    | none =>
        cases q with
        | deal rest =>
            cases rest with
            | nil => exact holds_congr rfl
            | cons i rest =>
                refine ⟨?_, holds_congr rfl, holds_congr rfl⟩
                exact decide_eq_true (List.mem_cons_self ..)
        | dealt i rest => exact holds_close rfl hnodup
        | awaiting =>
            exact ⟨decide_eq_true (List.mem_cons_self ..), fun c => holds_congr (held_winner c),
              holds_congr rfl, nofun⟩
        | won i => exact holds_congr rfl
        | closing => exact holds_close rfl hnodup
        | waiting => exact holds_congr rfl
        | _ => trivial
    | some i =>
        cases q with
        | receive =>
            exact ⟨decide_eq_true (List.mem_cons_self ..), fun c => holds_congr (held_handed i c),
              holds_congr rfl, nofun⟩
        | received hand => exact holds_close rfl hnodup
        | check hand =>
            intro a l q ha
            cases a with
            | sigint =>
                simp only at ha
                split at ha <;> cases ha
                exact holds_congr rfl
            | random r =>
                simp only at ha
                split at ha <;> cases ha <;> exact holds_congr rfl
        | announce =>
            exact ⟨decide_eq_true (by simp [held, ringEnds]), holds_congr rfl, holds_congr rfl⟩
        | passing hand discard =>
            exact ⟨decide_eq_true (by simp [held, ringEnds]), holds_congr rfl, holds_congr rfl⟩
        | passed hand discard => exact holds_congr rfl
        | drawing hand discard =>
            exact ⟨decide_eq_true (by simp [held, ringEnds]),
              fun c => holds_congr (held_drawn i hand discard c), holds_congr rfl, nofun⟩
        | leaving es =>
            cases es with
            | nil => exact holds_nil rfl
            | cons e es => exact holds_close rfl hnodup
        | _ => trivial

theorem nodup_ringEnds (i : Fin n) : (ringEnds i).Nodup := by simp [ringEnds]

omit [NeZero n] in
theorem nodup_serverEnds {rest : List (Fin n)} (h : rest.Nodup) : (serverEnds rest).Nodup := by
  rw [serverEnds, List.nodup_append]
  refine ⟨h.map fun i j hij => ?_, by simp, by simp⟩
  cases hij
  rfl

omit [NeZero m] in
theorem start_ok (p : Option (Fin n)) : ok p (start p : Place n m) := by
  cases p with
  | none => exact ⟨rfl, nodup_serverEnds (List.nodup_finRange n)⟩
  | some i => exact ⟨rfl, List.nodup_cons.mpr ⟨by simp [ringEnds], nodup_ringEnds i⟩⟩

omit [NeZero m] in
theorem start_holds (p : Option (Fin n)) : holds p (start p : Place n m) = own p := by
  cases p <;> rfl

/-- The ends that a process has open, also while it sets up. -/
abbrev opens (p : Option (Fin n)) : SetUp (Pipe n) (Place n m) → End (Pipe n) → Bool :=
  SetUp.holds (holds p) (own p)

/-- Where all processes are, and the ends that they have open. -/
abbrev AllTidy (s : State n m) : Prop :=
  Tidy (fun p => SetUp.Ok (ok p) (own p) (start p)) opens s

/-- Where a process can be, and the ends that it has open there. -/
theorem keeps_op (signalled : Fin n → Bool) (hands : Fin n → Fin m → Nat) :
    Keeps (op signalled hands) (fun p => SetUp.Ok (ok p) (own p) (start p)) opens :=
  keeps_withSetUp (keeps signalled hands) start_holds

omit [NeZero m] in
theorem tidy_begin : AllTidy (begin n m) := by
  refine tidy_everyEnd start_ok (fun p => unused_filter nodup_allEnds) fun p e => ?_
  cases he : own p e with
  | true => exact .inl rfl
  | false => exact .inr (List.mem_filter.mpr ⟨mem_allEnds e, by rw [he]; rfl⟩)

theorem tidy_run {cap : Nat} {s : State n m}
    {tr : List (Move (State n m) (Option (Fin n) × Seen n m))}
    (r : Run (Step cap signalled hands) (begin n m) tr s) : AllTidy s :=
  tidy_begin.run (keeps_op signalled hands) r

end Sop2.Voyage
