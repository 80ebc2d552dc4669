import Sop2.Support.Decimal
import Sop2.Support.PipedSetUp
import Sop2.Support.PipedTokens

/-!
# Lab05 — Cycle — the ring

`lab05/sop-cycle/sop-cycle.c` after the last `fork`: `n` processes, of which the process `p` reads
the pipe `p - 1` and writes the pipe `p`, and a number that goes round.  What `rand` returns is left
open, and so is when `SIGINT` comes, to those processes that get it at all.

After `ERR` everybody is killed; in the model only the process that finds the error stops, so that
there are more runs here than there.

* `Moves`: what a process does, as the invariants need it (`goes_moves`).
* `keeps_op`, `tidy_begin`: which ends a process has open at which place.
-/

namespace Sop2.Cycle
open Support Support.Piped

/-- A buffer of `BUFSIZE` bytes. -/
abbrev Buffer := List UInt8

def bufSize : Nat := 12

/-- `memset`, and `snprintf(buf, BUFSIZE, "%d", val)`. -/
def number (val : Int) : Buffer := snprintf bufSize (printInt val)

/-- `atoi(buf) + rand() % 21 - 10`, unless the sum or the difference is no `int`. -/
def draw (buf : Buffer) (rand : Nat) : Option Int :=
  let sum := atoi buf + (rand % 21 : Nat)
  if IsInt32 sum ∧ IsInt32 (sum - 10) then some (sum - 10) else none

/-- Where a process is in `work`, and behind it. -/
inductive Place where
  /-- Before `send_initial_message`. -/
  | initial
  | check
  | reading
  | got (buf : Buffer)
  | writing (buf : Buffer)
  /-- After `EPIPE`. -/
  | broken
  /-- Behind the loop, with `writeEnd` open or not. -/
  | leaving (writeEnd : Bool)
  | closing (writeEnd : Bool)
  | out
  /-- `main`, before `wait` and in it. -/
  | waiting
  | blocked
  | gone
  /-- `ERR`. -/
  | failed

/-- What a process meets: `SIGINT` has come, or it has not; what `rand` returns. -/
inductive Answer where
  | sigint
  | quiet
  | random (r : Nat)

/-- What comes of a buffer that has been read. -/
def received (buf : Buffer) : Place := if atoi buf = 0 then .leaving true else .got buf

variable {n : Nat} [NeZero n]

/-- `work`, and what comes behind it; `signalled` are those who may get `SIGINT`. -/
def work (signalled : Fin n → Bool) (p : Fin n) : Place → Op (Fin n) Buffer Answer (List UInt8) Place
  | .initial => .write p (number 1) .check .failed
  | .check => .ask fun
      | .sigint => if signalled p then some (none, .leaving true) else none
      | .quiet => some (none, .reading)
      | .random _ => none
  | .reading =>
      -- the buffer is all zeros at the end of file, and when a signal interrupts `read`
      .read (p - 1) received (.leaving true) (if signalled p then some (.leaving true) else none)
  | .got buf => .ask fun
      | .random r => (draw buf r).map fun val => (some (cString buf), .writing (number val))
      | _ => none
  | .writing buf => .write p buf .check .broken
  | .broken => .close (.write p) (.leaving false)
  | .leaving writeEnd => .close (.read (p - 1)) (.closing writeEnd)
  | .closing writeEnd => if writeEnd then .close (.write p) .out else .act none .out
  | .out => if p = 0 then .act none .waiting else .exit .gone
  | .waiting => .ask fun
      | .sigint => if signalled p then some (none, .gone) else none
      | .quiet => some (none, .blocked)
      | .random _ => none
  | .blocked => .wait .gone
  | .failed => .exit .gone
  | .gone => .halt

/-- Where the work of a process begins. -/
def start (p : Fin n) : Place := if p = 0 then .initial else .check

/-- All ends of all pipes. -/
def allEnds (n : Nat) : List (End (Fin n)) :=
  (List.finRange n).flatMap fun i => [.read i, .write i]

/-- The ends of a process that it has not closed. -/
def ends (p : Fin n) (readEnd writeEnd : Bool) : End (Fin n) → Bool
  | .read k => readEnd && decide (k = p - 1)
  | .write k => writeEnd && decide (k = p)

/-- What a process closes before its work. -/
def unused (p : Fin n) : List (End (Fin n)) := (allEnds n).filter fun e => !ends p true true e

abbrev State (n : Nat) := Piped.State (Fin n) (Fin n) Buffer (SetUp (Fin n) Place)

/-- What can be seen of a step. -/
abbrev Seen (n : Nat) := Event (Fin n) Buffer (List UInt8)

/-- `create_pipes_and_fork`, behind the last `fork`. -/
def op (signalled : Fin n → Bool) :
    Fin n → SetUp (Fin n) Place → Op (Fin n) Buffer Answer (List UInt8) (SetUp (Fin n) Place) :=
  withSetUp (work signalled) start

abbrev Step (cap : Nat) (signalled : Fin n → Bool) : State n → Fin n × Seen n → State n → Prop :=
  Piped.Step cap (op signalled)

def begin (n : Nat) [NeZero n] : State n := everyEnd unused

variable {signalled : Fin n → Bool} {p : Fin n}

/-! ### What a process does -/

/-- Behind the loop. -/
def Place.left : Place → Bool
  | .initial | .check | .reading | .got _ | .writing _ => false
  | _ => true

/-- What only `main` does itself. -/
def Place.main : Place → Bool
  | .initial | .waiting | .blocked => true
  | _ => false

/-- How far it is to the end, behind the loop. -/
def Place.rank : Place → Nat
  | .broken => 6
  | .leaving _ => 5
  | .closing _ => 4
  | .out => 3
  | .waiting => 2
  | .blocked | .failed => 1
  | _ => 0

/-- One operation of the process `p`: what is seen of it, and where it leads. -/
inductive Moves (signalled : Fin n → Bool) (p : Fin n) : Place → Seen n → Place → Prop where
  | send : Moves signalled p .initial (.wrote p (number 1)) .check
  | sendFails : Moves signalled p .initial (.epipe p) .failed
  | sigint (h : signalled p = true) : Moves signalled p .check (.said none) (.leaving true)
  | quiet : Moves signalled p .check (.said none) .reading
  | receive (buf : Buffer) (h : atoi buf ≠ 0) :
      Moves signalled p .reading (.read (p - 1) buf) (.got buf)
  | zero (buf : Buffer) (h : atoi buf = 0) :
      Moves signalled p .reading (.read (p - 1) buf) (.leaving true)
  | eof : Moves signalled p .reading (.eof (p - 1)) (.leaving true)
  | interrupted (h : signalled p = true) : Moves signalled p .reading (.said none) (.leaving true)
  | drawn (buf : Buffer) (r : Nat) (val : Int) (h : draw buf r = some val) :
      Moves signalled p (.got buf) (.said (some (cString buf))) (.writing (number val))
  | write (buf : Buffer) : Moves signalled p (.writing buf) (.wrote p buf) .check
  | epipe (buf : Buffer) : Moves signalled p (.writing buf) (.epipe p) .broken
  /-- Behind the loop it is on its way to the end. -/
  | winding (q q' : Place) (hq : q.left = true) (hq' : q'.left = true) (hrank : q'.rank < q.rank)
      (hmain : q'.main = true → q.main = true ∨ p = 0) (hfailed : q' ≠ .failed) :
      Moves signalled p q (.said none) q'

theorem goes_moves {q q' : Place} {e : Seen n} (h : (work signalled p q).Goes e q') :
    Moves signalled p q e q' := by
  cases q with
  | initial =>
      obtain ⟨rfl, rfl⟩ | ⟨rfl, rfl⟩ := h
      · exact .send
      · exact .sendFails
  | check =>
      obtain ⟨a, l, ha, rfl⟩ := h
      cases a with
      | sigint =>
          simp only at ha
          split at ha <;> cases ha
          exact .sigint ‹_›
      | quiet => cases ha; exact .quiet
      | random r => cases ha
  | reading =>
      obtain ⟨buf, rfl, rfl⟩ | ⟨rfl, rfl⟩ | ⟨rfl, hq⟩ := h
      · rw [received]
        split
        · exact .zero buf ‹_›
        · exact .receive buf ‹_›
      · exact .eof
      · split at hq <;> cases hq
        exact .interrupted ‹_›
  | got buf =>
      obtain ⟨a, l, ha, rfl⟩ := h
      cases a with
      | random r =>
          obtain ⟨val, hval, heq⟩ := Option.map_eq_some_iff.mp ha
          cases heq
          exact .drawn buf r val hval
      | sigint | quiet => cases ha
  | writing buf =>
      obtain ⟨rfl, rfl⟩ | ⟨rfl, rfl⟩ := h
      · exact .write buf
      · exact .epipe buf
  | broken | blocked | failed =>
      obtain ⟨rfl, rfl⟩ := h
      exact .winding _ _ rfl rfl (by decide) nofun nofun
  | leaving writeEnd =>
      obtain ⟨rfl, rfl⟩ := h
      exact .winding _ _ rfl rfl (Nat.lt_succ_self 4) nofun nofun
  | closing writeEnd =>
      cases writeEnd with
      | true | false =>
          obtain ⟨rfl, rfl⟩ := h
          exact .winding _ _ rfl rfl (by decide) nofun nofun
  | out =>
      change Op.Goes e q' (if p = 0 then _ else _) at h
      split at h
      all_goals
        obtain ⟨rfl, rfl⟩ := h
      · exact .winding _ _ rfl rfl (by decide) (fun _ => .inr ‹_›) nofun
      · exact .winding _ _ rfl rfl (by decide) nofun nofun
  | waiting =>
      obtain ⟨a, l, ha, rfl⟩ := h
      cases a with
      | sigint =>
          simp only at ha
          split at ha <;> cases ha
          exact .winding _ _ rfl rfl (by decide) nofun nofun
      | quiet => cases ha; exact .winding _ _ rfl rfl (by decide) (fun _ => .inl rfl) nofun
      | random r => cases ha
  | gone => exact h.elim

/-! ### The ends -/

/-- The ends that a process has open at a place. -/
def holds (p : Fin n) : Place → End (Fin n) → Bool
  | .leaving writeEnd => ends p true writeEnd
  | .closing writeEnd => ends p false writeEnd
  | .out | .waiting | .blocked | .gone => ends p false false
  | _ => ends p true true

omit [NeZero n] in
theorem mem_allEnds (e : End (Fin n)) : e ∈ allEnds n := by
  rw [allEnds, List.mem_flatMap]
  cases e with
  | read i | write i => exact ⟨i, List.mem_finRange i, by simp⟩

omit [NeZero n] in
theorem nodup_allEnds : (allEnds n).Nodup := by
  refine List.nodup_flatMap.mpr ⟨fun i _ => by simp, ?_⟩
  refine (List.nodup_finRange n).imp fun {i j} hij => ?_
  simp [Function.onFun, hij.symm]

theorem ends_closed (p : Fin n) : ends p false false = fun _ => false := by
  funext e
  cases e <;> rfl

/-- The read end is closed. -/
theorem ends_read (p : Fin n) (writeEnd : Bool) :
    ends p false writeEnd = Function.update (ends p true writeEnd) (.read (p - 1)) false := by
  funext e
  by_cases he : e = .read (p - 1)
  · rw [he, Function.update_self]
    rfl
  · rw [Function.update_of_ne he]
    cases e with
    | read k =>
        have hk : k ≠ p - 1 := fun h => he (congrArg End.read h)
        simp [ends, hk]
    | write k => rfl

/-- The write end is closed. -/
theorem ends_write (p : Fin n) (readEnd : Bool) :
    ends p readEnd false = Function.update (ends p readEnd true) (.write p) false := by
  funext e
  by_cases he : e = .write p
  · rw [he, Function.update_self]
    rfl
  · rw [Function.update_of_ne he]
    cases e with
    | read k => rfl
    | write k =>
        have hk : k ≠ p := fun h => he (congrArg End.write h)
        simp [ends, hk]

theorem holds_received (p : Fin n) (buf : Buffer) : holds p (received buf) = ends p true true := by
  rw [received]
  split <;> rfl

/-- Where a process can be. -/
def ok (p : Fin n) (q : Place) : Prop := q.main = true → p = 0

theorem keeps (signalled : Fin n → Bool) : Keeps (work signalled) ok holds where
  still := by
    intro p q e q' hok hgoes hmain
    cases goes_moves hgoes with
    | winding q q' hq hq' hrank hzero hfailed => exact (hzero hmain).elim hok id
    | _ => cases hmain
  keeps := by
    intro p q _
    cases q with
    | initial | writing buf => exact ⟨by simp [holds, ends], rfl, rfl⟩
    | check =>
        intro a l q ha
        cases a with
        | sigint =>
            simp only at ha
            split at ha <;> cases ha
            rfl
        | quiet => cases ha; rfl
        | random r => cases ha
    | reading =>
        refine ⟨by simp [holds, ends], holds_received p, rfl, fun q hq => ?_⟩
        split at hq <;> cases hq
        rfl
    | got buf =>
        intro a l q ha
        cases a with
        | random r =>
            obtain ⟨val, -, hval⟩ := Option.map_eq_some_iff.mp ha
            cases hval
            rfl
        | sigint | quiet => cases ha
    | broken => exact ends_write p true
    | leaving writeEnd => exact ends_read p writeEnd
    | closing writeEnd =>
        cases writeEnd with
        | true => exact ends_write p false
        | false => rfl
    | out =>
        change Op.Keeps _ _ (if p = 0 then _ else _)
        split
        · rfl
        · exact ends_closed p
    | waiting =>
        intro a l q ha
        cases a with
        | sigint =>
            simp only at ha
            split at ha <;> cases ha
            rfl
        | quiet => cases ha; rfl
        | random r => cases ha
    | blocked => rfl
    | failed => exact ends_closed p
    | gone => trivial

theorem start_holds (p : Fin n) : holds p (start p) = ends p true true := by
  rw [start]
  split <;> rfl

theorem start_ok (p : Fin n) : ok p (start p) := by
  rw [start]
  split
  · exact fun _ => ‹_›
  · exact nofun

/-- Where a process can be, and the ends that it has open there. -/
theorem keeps_op (signalled : Fin n → Bool) :
    Keeps (op signalled) (fun p => SetUp.Ok (ok p) (ends p true true) (start p))
      (fun p => SetUp.holds (holds p) (ends p true true)) :=
  keeps_withSetUp (keeps signalled) start_holds

theorem tidy_begin : Tidy (fun p : Fin n => SetUp.Ok (ok p) (ends p true true) (start p))
    (fun p => SetUp.holds (holds p) (ends p true true)) (begin n) := by
  refine tidy_everyEnd start_ok (fun p => unused_filter nodup_allEnds) fun p e => ?_
  cases he : ends p true true e with
  | true => exact .inl rfl
  | false => exact .inr (List.mem_filter.mpr ⟨mem_allEnds e, by rw [he]; rfl⟩)

end Sop2.Cycle
