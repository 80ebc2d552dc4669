import Mathlib.Data.Fintype.Option
import Mathlib.Data.List.FinRange
import Sop2.Support.PipedEnds

/-!
# Lab05 — Cards — the game

`lab05/sop-cards/sop-cards.c` after the last `fork`: the server and `n` players, who play `m`
rounds over two pipes each.  What `rand` returns is left open, and so is what comes of descriptor
0: the descriptors that a process has closed are set to 0, and are used all the same.

After `ERR` everybody is killed; in the model only the process that finds the error stops, so that
there are more runs here than there.
-/

namespace Sop2.PipeCards
open Support Support.Piped

inductive Pipe (n : Nat) where
  | toPlayer (i : Fin n)
  | fromPlayer (i : Fin n)
  deriving DecidableEq

inductive Message where
  | newRound
  | number (k : Nat)
  deriving DecidableEq

/-- `atoi`. -/
def Message.atoi : Message → Nat
  | .newRound => 0
  | .number k => k

/-- What the server knows: the descriptors `rps` and `wps`, unless they are 0, and the scores. -/
structure Game (n : Nat) where
  round : Nat
  rps : Fin n → Bool
  wps : Fin n → Bool
  scores : Fin n → Nat
  played : Fin n → Nat
  max : Int

/-- Where a process is.  A player has closed `rp`, and reads descriptor 0, if `rp` is `false`. -/
inductive Place (n : Nat) where
  /-- These ends are closed, one by one. -/
  | closing (es : List (End (Pipe n))) (next : Place n)
  /-- The server: each of its loops, and who is still to come. -/
  | head (g : Game n)
  | announce (g : Game n) (rest : List (Fin n))
  | cards (g : Game n) (rest : List (Fin n))
  | points (g : Game n) (give : Nat) (rest : List (Fin n))
  | send (g : Game n) (give : Nat) (i : Fin n) (pts : Nat) (rest : List (Fin n))
  | scoreboard (g : Game n) (rest : List (Fin n))
  | waiting
  | done
  | crashed (g : Game n)
  /-- A player. -/
  | newRound (rp : Bool) (k : Nat) (cards : List Nat)
  | resign (rp : Bool) (k : Nat) (cards : List Nat)
  | draw (rp : Bool) (k : Nat) (cards : List Nat)
  | card (rp : Bool) (k : Nat) (card : Nat) (cards : List Nat)
  | result (rp : Bool) (k : Nat) (cards : List Nat)
  | gone
  | failed (rp wp : Bool)

/-- What `rand` returns, and what comes of a `read` or a `write` of descriptor 0. -/
inductive Answer where
  | random (r : Nat)
  | came (c : Message)
  | ended
  | wrote
  | failed

/-- What can be seen of a step besides the pipes. -/
inductive Shown (n : Nat) where
  | scored (i : Fin n) (pts : Nat)
  /-- Something is written to `wps[i]`, which is 0. -/
  | stray (i : Fin n)
  | final (i : Fin n) (score : Nat)
  deriving DecidableEq

variable {n : Nat}

/-! ### The server -/

def Game.start (n : Nat) : Game n where
  round := 1
  rps _ := true
  wps _ := true
  scores _ := 0
  played _ := 0
  max := -1

def Game.close (g : Game n) (i : Fin n) : Game n :=
  { g with rps := Function.update g.rps i false, wps := Function.update g.wps i false }

/-- Before the cards of a round are read. -/
def Game.deal (g : Game n) : Game n := { g with played := fun _ => 0, max := -1 }

def Game.play (g : Game n) (i : Fin n) (card : Nat) : Game n :=
  { g with played := Function.update g.played i card
           max := if g.max < card then card else g.max }

def Game.winnersCount (g : Game n) : Nat :=
  ((List.finRange n).filter fun i => g.rps i && decide ((g.played i : Int) = g.max)).length

def Game.pointsToGive (g : Game n) : Nat :=
  if 0 < g.winnersCount then n / g.winnersCount else 0

/-- `pts`. -/
def Game.pts (g : Game n) (give : Nat) (i : Fin n) : Nat :=
  if (g.played i : Int) = g.max then give else 0

def Game.score (g : Game n) (i : Fin n) (pts : Nat) : Game n :=
  { g with scores := Function.update g.scores i (g.scores i + pts) }

def Game.next (g : Game n) : Game n := { g with round := g.round + 1 }

/-- All ends of all pipes. -/
def allEnds (n : Nat) : List (End (Pipe n)) :=
  (List.finRange n).flatMap fun i =>
    [.read (.fromPlayer i), .write (.fromPlayer i), .read (.toPlayer i), .write (.toPlayer i)]

/-- The ends that the server has open. -/
def Game.holds (g : Game n) : End (Pipe n) → Bool
  | .read (.fromPlayer i) => g.rps i
  | .write (.toPlayer i) => g.wps i
  | _ => false

/-- `main` after `game_server_work`. -/
def Game.cleanup (g : Game n) : Place n := .closing ((allEnds n).filter g.holds) .waiting

/-- `game_server_work`. -/
def gameServerWork (m : Nat) : Place n → Op (Pipe n) Message Answer (Shown n) (Place n)
  | .head g =>
      if g.round ≤ m then .act none (.announce g (List.finRange n))
      else .act none (.scoreboard g (List.finRange n))
  | .announce g [] => .act none (.cards g.deal (List.finRange n))
  | .announce g (i :: rest) =>
      if g.wps i then
        .write (.toPlayer i) .newRound (.announce g rest)
          (.closing [.write (.toPlayer i), .read (.fromPlayer i)] (g.close i).cleanup)
      else .act none (.announce g rest)
  | .cards g [] => .act none (.points g g.pointsToGive (List.finRange n))
  | .cards g (i :: rest) =>
      if g.rps i then
        .read (.fromPlayer i) (fun c => .cards (g.play i c.atoi) rest)
          (.closing [.read (.fromPlayer i), .write (.toPlayer i)] (.cards (g.close i) rest)) none
      else .act none (.cards g rest)
  | .points g _ [] => .act none (.head g.next)
  | .points g give (i :: rest) =>
      -- `wps[0]`, whoever `i` is
      if g.wps ⟨0, i.pos⟩ then
        .act (some (.scored i (g.pts give i)))
          (.send (g.score i (g.pts give i)) give i (g.pts give i) rest)
      else .act none (.points g give rest)
  | .send g give i pts rest =>
      if g.wps i then
        .write (.toPlayer i) (.number pts) (.points g give rest)
          (.closing [.write (.toPlayer i), .read (.fromPlayer i)] (.points (g.close i) give rest))
      else .ask fun
        | .wrote => some (some (.stray i), .points g give rest)
        | .failed => some (some (.stray i), .crashed g)
        | _ => none
  | .scoreboard g [] => .act none g.cleanup
  | .scoreboard g (i :: rest) => .act (some (.final i (g.scores i))) (.scoreboard g rest)
  | .waiting => .wait .done
  | _ => .halt

/-! ### A player -/

/-- The card is replaced by the last one; there must be one. -/
def drawCard (cards : List Nat) (rand : Nat) : Option (Nat × List Nat) :=
  cards[rand % cards.length]?.map fun card =>
    (card, (cards.set (rand % cards.length) (cards.getLastD 0)).dropLast)

/-- `read(rp, …)`; where it goes on at the end of file, and at an error. -/
def receive (i : Fin n) (rp : Bool) (data : Message → Place n) (eof failed : Place n) :
    Op (Pipe n) Message Answer (Shown n) (Place n) :=
  if rp then .read (.toPlayer i) data eof none
  else .ask fun
    | .came c => some (none, data c)
    | .ended => some (none, eof)
    | .failed => some (none, failed)
    | _ => none

/-- After `player_work`; to close a descriptor twice is an error. -/
def leave (i : Fin n) (rp : Bool) : Place n :=
  if rp then .closing [.read (.toPlayer i), .write (.fromPlayer i)] .gone else .failed false true

/-- `player_work`. -/
def playerWork (m : Nat) (i : Fin n) : Place n → Op (Pipe n) Message Answer (Shown n) (Place n)
  | .newRound rp k cards =>
      if k ≤ m then
        receive i rp
          (fun c => if c = .newRound then .resign rp k cards else .failed rp true)
          (if rp then .closing [.read (.toPlayer i)] (.newRound false (k + 1) cards)
            else .newRound false (k + 1) cards)
          (.failed rp true)
      else .act none (leave i rp)
  | .resign rp k cards => .ask fun
      | .random r => some (none, if r % 100 < 5 then leave i rp else .draw rp k cards)
      | _ => none
  | .draw rp k cards => .ask fun
      | .random r => (drawCard cards r).map fun (card, cards) => (none, .card rp k card cards)
      | _ => none
  | .card rp k card cards =>
      -- at `EPIPE` both `player_work` and `main` close `wp`
      .write (.fromPlayer i) (.number card) (.result rp k cards)
        (.closing (.write (.fromPlayer i) :: if rp then [.read (.toPlayer i)] else [])
          (.failed false false))
  | .result rp k cards =>
      receive i rp (fun _ => .newRound rp (k + 1) cards) (leave i rp) (.failed rp true)
  | _ => .halt

/-! ### The system -/

/-- The server (`none`) or a player. -/
def op (m : Nat) (p : Option (Fin n)) : Place n → Op (Pipe n) Message Answer (Shown n) (Place n)
  | .closing [] next => .act none next
  | .closing (e :: es) next => .close e (.closing es next)
  | q =>
      match p with
      | none => gameServerWork m q
      | some i => playerWork m i q

abbrev State (n : Nat) := Piped.State (Option (Fin n)) (Pipe n) Message (Place n)

/-- What can be seen of a step. -/
abbrev Seen (n : Nat) := Event (Pipe n) Message (Shown n)

abbrev Step (cap m : Nat) : State n → Option (Fin n) × Seen n → State n → Prop :=
  Piped.Step cap (op m)

/-- Where the work of a process begins. -/
def work (m : Nat) : Option (Fin n) → Place n
  | none => .head (.start n)
  | some _ => .newRound true 1 ((List.range m).map (· + 1))

/-- The ends of a player. -/
def ends (i : Fin n) (rp wp : Bool) : End (Pipe n) → Bool
  | .read (.toPlayer j) => rp && decide (j = i)
  | .write (.fromPlayer j) => wp && decide (j = i)
  | _ => false

/-- The ends that a process uses. -/
def own : Option (Fin n) → End (Pipe n) → Bool
  | none => (Game.start n).holds
  | some i => ends i true true

/-- Everybody has every end of every pipe, and closes those that it does not use. -/
def begin (n m : Nat) : State n where
  pipes := ⟨fun _ => [], fun _ _ => true, fun _ _ => true⟩
  pc p := .closing ((allEnds n).filter fun e => !own p e) (work m p)

/-! ### The ends -/

/-- The ends that a process has open at a place. -/
def holds (p : Option (Fin n)) : Place n → End (Pipe n) → Bool
  | .closing es next => beside (holds p next) es
  | .head g | .announce g _ | .cards g _ | .points g _ _ | .send g _ _ _ _ | .scoreboard g _
  | .crashed g => g.holds
  | .newRound rp _ _ | .resign rp _ _ | .draw rp _ _ | .card rp _ _ _ | .result rp _ _ =>
      p.elim (fun _ => false) fun i => ends i rp true
  | .failed rp wp => p.elim (fun _ => false) fun i => ends i rp wp
  | .waiting | .done | .gone => fun _ => false

/-- The places of a process. -/
def Place.of (p : Option (Fin n)) : Place n → Prop
  | .closing es next => Unused (holds p next) es ∧ next.of p
  | .head g | .announce g _ | .cards g _ | .points g _ _ | .send g _ _ _ _ | .scoreboard g _
  | .crashed g => p = none ∧ g.rps = g.wps
  | .waiting | .done => p = none
  | .newRound _ _ _ | .resign _ _ _ | .draw _ _ _ | .card _ _ _ _ | .result _ _ _ | .gone
  | .failed _ _ => ∃ i, p = some i

theorem mem_allEnds (e : End (Pipe n)) : e ∈ allEnds n := by
  simp only [allEnds, List.mem_flatMap, List.mem_finRange, true_and]
  obtain ⟨i | i⟩ | ⟨i | i⟩ := e <;> exact ⟨i, by simp⟩

theorem nodup_allEnds : (allEnds n).Nodup := by
  refine List.nodup_flatMap.mpr ⟨fun i _ => by simp, ?_⟩
  refine (List.nodup_finRange n).imp fun {i j} hij => ?_
  simp [Function.onFun, hij.symm]

/-- Where a process goes on after it has closed what it is closing. -/
def Place.after : Place n → Place n
  | .closing _ next => next.after
  | q => q

theorem Place.of.after {p : Option (Fin n)} {q : Place n} (h : q.of p) : q.after.of p := by
  induction q with
  | closing es next ih => exact ih h.2
  | _ => exact h

theorem work_of (m : Nat) (p : Option (Fin n)) : (work m p).of p := by
  cases p with
  | none => exact ⟨rfl, rfl⟩
  | some i => exact ⟨i, rfl⟩

theorem work_holds (m : Nat) (p : Option (Fin n)) : holds p (work m p) = own p := by
  cases p <;> rfl

theorem cleanup_of (g : Game n) : g.cleanup.of none :=
  ⟨⟨nodup_allEnds.filter _, fun _ _ => rfl⟩, rfl⟩

theorem cleanup_holds (g : Game n) : holds none g.cleanup = g.holds := by
  change beside (fun _ => false) _ = g.holds
  funext e
  simp [beside, mem_allEnds]

@[simp] theorem Game.close_rps (g : Game n) (i : Fin n) :
    (g.close i).rps = Function.update g.rps i false := rfl

@[simp] theorem Game.close_wps (g : Game n) (i : Fin n) :
    (g.close i).wps = Function.update g.wps i false := rfl

/-- Both ends of a player are closed, in either order. -/
theorem unused_close (g : Game n) (i : Fin n) {es : List (End (Pipe n))}
    (hes : es = [.read (.fromPlayer i), .write (.toPlayer i)] ∨
      es = [.write (.toPlayer i), .read (.fromPlayer i)]) : Unused (g.close i).holds es := by
  refine ⟨?_, fun e he => ?_⟩
  · rcases hes with rfl | rfl <;> simp
  · have he : e = .read (.fromPlayer i) ∨ e = .write (.toPlayer i) := by
      rcases hes with rfl | rfl <;> (simp at he; tauto)
    rcases he with rfl | rfl <;> simp [Game.holds]

theorem beside_close {g : Game n} {i : Fin n} {es : List (End (Pipe n))}
    (hes : es = [.read (.fromPlayer i), .write (.toPlayer i)] ∨
      es = [.write (.toPlayer i), .read (.fromPlayer i)]) (hr : g.rps i = true)
    (hw : g.wps i = true) : beside (g.close i).holds es = g.holds := by
  funext e
  have he : e ∈ es ↔ e = .read (.fromPlayer i) ∨ e = .write (.toPlayer i) := by
    rcases hes with rfl | rfl
    · simp
    · simp [or_comm]
  simp only [beside, he]
  obtain ⟨j | j⟩ | ⟨j | j⟩ := e <;> by_cases hj : j = i <;>
    simp [Game.holds, hj, hr, hw]

theorem leave_of (i : Fin n) (rp : Bool) : (leave i rp).of (some i) := by
  cases rp with
  | true => exact ⟨⟨by simp, fun _ _ => rfl⟩, i, rfl⟩
  | false => exact ⟨i, rfl⟩

theorem leave_holds (i : Fin n) (rp : Bool) : holds (some i) (leave i rp) = ends i rp true := by
  cases rp with
  | true =>
      change beside (fun _ => false) _ = ends i true true
      funext e
      obtain ⟨j | j⟩ | ⟨j | j⟩ := e <;> simp [beside, ends]
  | false => rfl

variable {m : Nat} {p : Option (Fin n)} {i : Fin n} {q q' : Place n} {e : Seen n}

/-- What comes of a `read(rp, …)`. -/
theorem receive_goes {rp : Bool} {data : Message → Place n} {eof failed : Place n}
    (h : (receive i rp data eof failed).Goes e q') :
    (∃ c, q' = data c ∧ (rp = true → e = .read (.toPlayer i) c) ∧ (rp = false → e = .said none)) ∨
      (q' = eof ∧ (rp = true → e = .eof (.toPlayer i)) ∧ (rp = false → e = .said none)) ∨
      (rp = false ∧ q' = failed ∧ e = .said none) := by
  cases rp with
  | true =>
      obtain ⟨c, rfl, rfl⟩ | ⟨rfl, rfl⟩ | ⟨-, h⟩ := h
      · exact .inl ⟨c, rfl, fun _ => rfl, nofun⟩
      · exact .inr (.inl ⟨rfl, fun _ => rfl, nofun⟩)
      · cases h
  | false =>
      obtain ⟨a, l, ha, rfl⟩ := h
      cases a <;> cases ha
      · exact .inl ⟨_, rfl, nofun, fun _ => rfl⟩
      · exact .inr (.inl ⟨rfl, nofun, fun _ => rfl⟩)
      · exact .inr (.inr ⟨rfl, rfl, rfl⟩)

theorem receive_keeps {rp : Bool} {data : Message → Place n} {eof failed : Place n}
    (hdata : ∀ c, holds (some i) (data c) = ends i rp true)
    (heof : holds (some i) eof = ends i rp true)
    (hfailed : holds (some i) failed = ends i rp true) :
    (receive i rp data eof failed).Keeps (ends i rp true) (holds (some i)) := by
  cases rp with
  | true => exact ⟨by simp [ends], hdata, heof, nofun⟩
  | false =>
      intro a l q ha
      cases a <;> cases ha
      · exact hdata _
      · exact heof
      · exact hfailed

theorem server_of (hq : q.of none) (h : (gameServerWork m q).Goes e q') : q'.of none := by
  cases q with
  | head g => simp only [gameServerWork] at h; split at h <;> (obtain ⟨-, rfl⟩ := h; exact hq)
  | announce g rest =>
      cases rest with
      | nil => obtain ⟨-, rfl⟩ := h; exact hq
      | cons i rest =>
          simp only [gameServerWork] at h
          split at h
          · obtain ⟨-, rfl⟩ | ⟨-, rfl⟩ := h
            · exact hq
            · exact ⟨cleanup_holds (g.close i) ▸ unused_close g i (.inr rfl), cleanup_of _⟩
          · obtain ⟨-, rfl⟩ := h
            exact hq
  | cards g rest =>
      cases rest with
      | nil => obtain ⟨-, rfl⟩ := h; exact hq
      | cons i rest =>
          simp only [gameServerWork] at h
          split at h
          · obtain ⟨c, -, rfl⟩ | ⟨-, rfl⟩ | ⟨-, h⟩ := h
            · exact hq
            · exact ⟨unused_close g i (.inl rfl), rfl, by simp [hq.2]⟩
            · cases h
          · obtain ⟨-, rfl⟩ := h
            exact hq
  | points g give rest =>
      cases rest with
      | nil => obtain ⟨-, rfl⟩ := h; exact hq
      | cons i rest =>
          simp only [gameServerWork] at h
          split at h <;> (obtain ⟨-, rfl⟩ := h; exact hq)
  | send g give i pts rest =>
      simp only [gameServerWork] at h
      split at h
      · obtain ⟨-, rfl⟩ | ⟨-, rfl⟩ := h
        · exact hq
        · exact ⟨unused_close g i (.inr rfl), rfl, by simp [hq.2]⟩
      · obtain ⟨a, l, ha, -⟩ := h
        cases a <;> cases ha <;> exact hq
  | scoreboard g rest =>
      cases rest with
      | nil => obtain ⟨-, rfl⟩ := h; exact cleanup_of g
      | cons i rest => obtain ⟨-, rfl⟩ := h; exact hq
  | waiting => obtain ⟨-, rfl⟩ := h; rfl
  | closing | done | crashed | newRound | resign | draw | card | result | gone | failed =>
      exact h.elim

theorem server_keeps (hq : q.of none) :
    (gameServerWork m q).Keeps (holds none q) (holds none) := by
  cases q with
  | head g => simp only [gameServerWork]; split <;> rfl
  | announce g rest =>
      cases rest with
      | nil => rfl
      | cons i rest =>
          simp only [gameServerWork]
          split
          next hw =>
            refine ⟨hw, rfl, ?_⟩
            change beside (holds none (g.close i).cleanup) _ = _
            rw [cleanup_holds]
            exact beside_close (.inr rfl) (hq.2 ▸ hw) hw
          next => rfl
  | cards g rest =>
      cases rest with
      | nil => rfl
      | cons i rest =>
          simp only [gameServerWork]
          split
          next hr => exact ⟨hr, fun _ => rfl, beside_close (.inl rfl) hr (hq.2 ▸ hr), nofun⟩
          next => rfl
  | points g give rest =>
      cases rest with
      | nil => rfl
      | cons i rest => simp only [gameServerWork]; split <;> rfl
  | send g give i pts rest =>
      simp only [gameServerWork]
      split
      next hw => exact ⟨hw, rfl, beside_close (.inr rfl) (hq.2 ▸ hw) hw⟩
      next =>
        intro a l q ha
        cases a <;> cases ha <;> rfl
  | scoreboard g rest =>
      cases rest with
      | nil => exact cleanup_holds g
      | cons i rest => rfl
  | waiting => rfl
  | closing | done | crashed | newRound | resign | draw | card | result | gone | failed =>
      trivial

theorem player_of (h : (playerWork m i q).Goes e q') : q'.of (some i) := by
  cases q with
  | newRound rp k cards =>
      simp only [playerWork] at h
      split at h
      · obtain ⟨c, rfl, -⟩ | ⟨rfl, -⟩ | ⟨-, rfl, -⟩ := receive_goes h
        · split <;> exact ⟨i, rfl⟩
        · cases rp with
          | true =>
              refine ⟨⟨by simp, fun e he => ?_⟩, i, rfl⟩
              obtain rfl := List.mem_singleton.mp he
              change ends i false true (.read (.toPlayer i)) = false
              simp [ends]
          | false => exact ⟨i, rfl⟩
        · exact ⟨i, rfl⟩
      · obtain ⟨-, rfl⟩ := h
        exact leave_of i rp
  | resign rp k cards =>
      obtain ⟨a, l, ha, -⟩ := h
      cases a <;> simp only [Option.some.injEq, Prod.mk.injEq, reduceCtorEq] at ha
      obtain ⟨-, rfl⟩ := ha
      split
      · exact leave_of i rp
      · exact ⟨i, rfl⟩
  | draw rp k cards =>
      obtain ⟨a, l, ha, -⟩ := h
      cases a <;> simp only [Option.map_eq_some_iff, Prod.mk.injEq, reduceCtorEq] at ha
      obtain ⟨x, -, -, rfl⟩ := ha
      exact ⟨i, rfl⟩
  | card rp k card cards =>
      obtain ⟨-, rfl⟩ | ⟨-, rfl⟩ := h
      · exact ⟨i, rfl⟩
      · refine ⟨⟨?_, fun e he => ?_⟩, i, rfl⟩
        · cases rp <;> simp
        · obtain ⟨j | j⟩ | ⟨j | j⟩ := e <;> rfl
  | result rp k cards =>
      obtain ⟨c, rfl, -⟩ | ⟨rfl, -⟩ | ⟨-, rfl, -⟩ := receive_goes h
      · exact ⟨i, rfl⟩
      · exact leave_of i rp
      · exact ⟨i, rfl⟩
  | closing | head | announce | cards | points | send | scoreboard | waiting | done | crashed
  | gone | failed => exact h.elim

theorem player_keeps : (playerWork m i q).Keeps (holds (some i) q) (holds (some i)) := by
  cases q with
  | newRound rp k cards =>
      simp only [playerWork]
      split
      · refine receive_keeps (fun c => ?_) ?_ rfl
        · split <;> rfl
        · cases rp with
          | true =>
              change beside (ends i false true) [.read (.toPlayer i)] = _
              funext e
              obtain ⟨j | j⟩ | ⟨j | j⟩ := e <;> simp [beside, ends]
          | false => rfl
      · exact leave_holds i rp
  | resign rp k cards =>
      intro a l q ha
      cases a <;> simp only [Option.some.injEq, Prod.mk.injEq, reduceCtorEq] at ha
      obtain ⟨-, rfl⟩ := ha
      split
      · exact leave_holds i rp
      · rfl
  | draw rp k cards =>
      intro a l q ha
      cases a <;> simp only [Option.map_eq_some_iff, Prod.mk.injEq, reduceCtorEq] at ha
      obtain ⟨x, -, -, rfl⟩ := ha
      rfl
  | card rp k card cards =>
      have hwrite : ends i rp true (.write (.fromPlayer i)) = true := by simp [ends]
      refine ⟨hwrite, rfl, ?_⟩
      change beside (ends i false false) _ = ends i rp true
      funext e
      obtain ⟨j | j⟩ | ⟨j | j⟩ := e <;> cases rp <;> simp [beside, ends]
  | result rp k cards => exact receive_keeps (fun _ => rfl) (leave_holds i rp) rfl
  | closing | head | announce | cards | points | send | scoreboard | waiting | done | crashed
  | gone | failed => trivial

theorem op_cases (m : Nat) (p : Option (Fin n)) (q : Place n) :
    (∃ es next, q = .closing es next) ∨ q.after = q ∧
      op m p q = p.elim (gameServerWork m q) fun i => playerWork m i q := by
  cases q with
  | closing es next => exact .inl ⟨es, next, rfl⟩
  | _ => right; cases p <;> exact ⟨rfl, rfl⟩

/-- **Every operation keeps to it.** -/
theorem op_keeps : Keeps (op (n := n) m) (fun p q => q.of p) holds where
  still {p q e q'} hq h := by
    obtain ⟨es, next, rfl⟩ | ⟨-, hop⟩ := op_cases m p q
    · cases es with
      | nil => obtain ⟨-, rfl⟩ := h; exact hq.2
      | cons f es => obtain ⟨-, rfl⟩ := h; exact ⟨hq.1.tail, hq.2⟩
    · rw [hop] at h
      cases p with
      | none => exact server_of hq h
      | some i => exact player_of h
  keeps {p q} hq := by
    obtain ⟨es, next, rfl⟩ | ⟨-, hop⟩ := op_cases m p q
    · cases es with
      | nil => exact beside_nil.symm
      | cons f es => exact beside_cons hq.1
    · rw [hop]
      cases p with
      | none => exact server_keeps hq
      | some i => exact player_keeps

variable {cap : Nat} {s : State n} {tr : List (Move (State n) (Option (Fin n) × Seen n))}

theorem tidy_begin : Tidy (fun p q => q.of p) holds (begin n m) where
  ok p := ⟨work_holds m p ▸ unused_filter nodup_allEnds, work_of m p⟩
  has p := by
    change _ = beside (holds p (work m p)) _
    rw [work_holds, beside_filter fun e _ => mem_allEnds e]
    funext e
    simp only [mem_allEnds, decide_true]
    cases e <;> rfl

/-- **The ends are open as the places say.** -/
theorem tidy (r : Run (Step cap m) (begin n m) tr s) : Tidy (fun p q => q.of p) holds s :=
  tidy_begin.run op_keeps r

/-! ### Who uses the pipes -/

/-- The processes use their own ends only. -/
theorem op_uses {f : End (Pipe n)} (h : (op m p q).uses = some f) : own p f = true := by
  obtain ⟨es, next, rfl⟩ | ⟨-, hop⟩ := op_cases m p q
  · cases es <;> cases h
  · rw [hop] at h
    cases p with
    | none =>
        change (gameServerWork m q).uses = some f at h
        cases q with
        | head g => simp only [gameServerWork] at h; split at h <;> cases h
        | announce g rest | cards g rest =>
            cases rest with
            | nil => cases h
            | cons i rest =>
                simp only [gameServerWork] at h
                split at h <;> cases h
                rfl
        | points g give rest =>
            cases rest with
            | nil => cases h
            | cons i rest => simp only [gameServerWork] at h; split at h <;> cases h
        | send g give i pts rest =>
            simp only [gameServerWork] at h
            split at h <;> cases h
            rfl
        | scoreboard g rest => cases rest <;> cases h
        | closing | waiting | done | crashed | newRound | resign | draw | card | result | gone
        | failed => cases h
    | some i =>
        change (playerWork m i q).uses = some f at h
        cases q with
        | newRound rp k cards =>
            simp only [playerWork] at h
            split at h
            · cases rp <;> cases h
              simp [own, ends]
            · cases h
        | result rp k cards =>
            cases rp <;> cases h
            simp [own, ends]
        | card rp k card cards =>
            cases h
            simp [own, ends]
        | closing | head | announce | cards | points | send | scoreboard | waiting | done | crashed
        | resign | draw | gone | failed => cases h

/-- Only the server writes to the players, and reads what they write. -/
theorem own_server {f : End (Pipe n)} (hf : f = .write (.toPlayer i) ∨ f = .read (.fromPlayer i))
    (h : own p f = true) : p = none := by
  cases p with
  | none => rfl
  | some j => rcases hf with rfl | rfl <;> cases h

/-- Only `i` reads what is for it, and writes what is from it. -/
theorem own_player {f : End (Pipe n)} (hf : f = .read (.toPlayer i) ∨ f = .write (.fromPlayer i))
    (h : own p f = true) : p = some i := by
  cases p with
  | none => rcases hf with rfl | rfl <;> cases h
  | some j =>
      have hij : i = j := by rcases hf with rfl | rfl <;> simpa [own, ends] using h
      rw [hij]

end Sop2.PipeCards
