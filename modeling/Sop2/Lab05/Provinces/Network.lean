import Mathlib.Data.Fintype.Option
import Mathlib.Data.List.FinRange
import Sop2.Support.Int32
import Sop2.Support.PipedEnds

/-!
# Lab05 — Provinces — the network

`lab05/generated/generated.c` and `lab05/generated_harder/generated_harder.c` after the last `fork`,
without signals: Casa Rosada takes letters from a FIFO and writes to province 0, and the provinces
pass on what they read, over a pipe for each edge of a graph.  A province reads its pipes in turn
without waiting, and leaves when all of them have ended.

The two programs have this in common (`Net`), and differ in what is written for a letter, in what a
province does with what it has read, in whether a broken pipe is heeded, and in the reports that the
provinces of the second write when they leave.
-/

namespace Sop2.Provinces
open Support Support.Piped

inductive Pipe (n : Nat) where
  /-- `boss_to_p0`. -/
  | boss
  /-- `pipes[i][j]`. -/
  | edge (i j : Fin n)
  | reports
  deriving DecidableEq

/-- What the programs differ in: `μ` are the messages, and `σ` what a province remembers of them. -/
structure Net (n : Nat) (μ σ : Type) where
  /-- `matrix[i][j] == 1`. -/
  pipe : Fin n → Fin n → Bool
  start : σ
  /-- What Casa Rosada writes for a letter after so many others. -/
  inject : Nat → UInt8 → List μ
  /-- What a province remembers after a message that it does not ignore, and what it writes to whom;
  it is given the provinces it can still write to. -/
  receive : Fin n → σ → μ → Option (σ × (List (Fin n) → List (Fin n × μ)))
  /-- Whether somebody who finds a broken pipe closes it. -/
  heeds : Bool
  report : Option (Fin n → σ → μ)

/-- What a province knows in its loop: the `in_fds` and `out_fds` that are not -1. -/
structure Loop (n : Nat) (σ : Type) where
  state : σ
  ins : List (Pipe n)
  outs : List (Fin n)

/-- Where a process is. -/
inductive Place (n : Nat) (μ σ : Type) where
  /-- These ends are closed, one by one. -/
  | closing (es : List (End (Pipe n))) (next : Place n μ σ)
  /-- A province: before its loop, and in it; `rest` are the inputs to come, and `out` what is to be
  written. -/
  | check (l : Loop n σ)
  | poll (l : Loop n σ) (rest : List (Pipe n))
  | print (l : Loop n σ) (c : μ) (out : List (Fin n × μ)) (rest : List (Pipe n))
  | relay (l : Loop n σ) (out : List (Fin n × μ)) (rest : List (Pipe n))
  | report (l : Loop n σ)
  | gone
  /-- Casa Rosada, after `t` letters. -/
  | openFifo
  | fifo (t : Nat)
  | inject (cs : List μ) (t : Nat)
  | collect
  | waiting
  | done

/-- What can be seen of a step besides the pipes. -/
inductive Shown (μ : Type) where
  /-- Casa Rosada takes a byte from the FIFO. -/
  | byte (b : UInt8)
  /-- A province prints what it has read. -/
  | processed (c : μ)
  deriving DecidableEq

variable {n : Nat} {μ σ : Type}

/-- `'a' <= c && c <= 'z'`. -/
def isLetter (b : UInt8) : Bool := decide (97 ≤ b ∧ b ≤ 122)

def allPipes (n : Nat) : List (Pipe n) :=
  [.boss, .reports] ++ (List.finRange n).flatMap fun i => (List.finRange n).map (Pipe.edge i)

namespace Net

variable (net : Net n μ σ)

/-- The pipes that there are. -/
def has : Pipe n → Bool
  | .boss => true
  | .edge i j => net.pipe i j
  | .reports => net.report.isSome

/-- `in_fds`: a pipe of a province to itself is not among them. -/
def inputs (i : Fin n) : List (Pipe n) :=
  ((List.finRange n).filter fun j => net.pipe j i && decide (j ≠ i)).map (.edge · i) ++
    if i.val = 0 then [.boss] else []

/-- `out_fds`. -/
def outputs (i : Fin n) : List (Fin n) := (List.finRange n).filter (net.pipe i)

/-! ### Casa Rosada -/

/-- After the loop. -/
def hangup : Place n μ σ :=
  .closing [.write .boss] (if net.report.isSome then .collect else .waiting)

/-- The parent in `main`; the FIFO gives a byte or its end. -/
def casaRosada : Place n μ σ → Op (Pipe n) μ (Option UInt8) (Shown μ) (Place n μ σ)
  | .openFifo => .act none (.fifo 0)
  | .fifo t => .ask fun
      | none => some (none, net.hangup)
      | some b =>
          some (some (.byte b), if isLetter b then .inject (net.inject t b) (t + 1) else .fifo t)
  | .inject [] t => .act none (.fifo t)
  | .inject (c :: cs) t =>
      .write .boss c (.inject cs t) (if net.heeds then net.hangup else .inject cs t)
  | .collect => .read .reports (fun _ => .collect) (.closing [.read .reports] .waiting) none
  | .waiting => .wait .done
  | _ => .halt

/-! ### A province -/

/-- Before `exit`. -/
def cleanup (i : Fin n) (l : Loop n σ) : Place n μ σ :=
  .closing ((if net.report.isSome then [.write .reports] else []) ++
    l.outs.map fun j => .write (.edge i j)) .gone

/-- After a message was read. -/
def handle (i : Fin n) (l : Loop n σ) (rest : List (Pipe n)) (c : μ) : Place n μ σ :=
  match net.receive i l.state c with
  | none => .poll l rest
  | some (state, out) => .print { l with state := state } c (out l.outs) rest

/-- A child in `main`. -/
def province (i : Fin n) : Place n μ σ → Op (Pipe n) μ (Option UInt8) (Shown μ) (Place n μ σ)
  | .check l =>
      if l.ins = [] then .act none (if net.report.isSome then .report l else net.cleanup i l)
      else .act none (.poll l (net.inputs i))
  | .poll l [] => .act none (.check l)
  | .poll l (k :: rest) =>
      if k ∈ l.ins then
        .read k (net.handle i l rest)
          (.closing [.read k] (.poll { l with ins := l.ins.erase k } rest))
          (some (.poll l rest))
      else .act none (.poll l rest)
  | .print l c out rest => .act (some (.processed c)) (.relay l out rest)
  | .relay l [] rest => .act none (.poll l rest)
  | .relay l ((j, c) :: out) rest =>
      -- `out_fds[out] != -1` of `generated`; in `generated_harder`, which has no such test, no
      -- output of a province is ever closed in its loop
      if j ∈ l.outs then
        .write (.edge i j) c (.relay l out rest)
          (if net.heeds then
            .closing [.write (.edge i j)] (.relay { l with outs := l.outs.erase j } out rest)
          else .relay l out rest)
      else .act none (.relay l out rest)
  | .report l =>
      match net.report with
      | some f => .write .reports (f i l.state) (net.cleanup i l) (net.cleanup i l)
      | none => .halt
  | _ => .halt

/-! ### The system -/

/-- Casa Rosada (`none`) or a province. -/
def op (p : Option (Fin n)) :
    Place n μ σ → Op (Pipe n) μ (Option UInt8) (Shown μ) (Place n μ σ)
  | .closing [] next => .act none next
  | .closing (e :: es) next => .close e (.closing es next)
  | q =>
      match p with
      | none => net.casaRosada q
      | some i => net.province i q

/-- Where the work of a process begins. -/
def work : Option (Fin n) → Place n μ σ
  | none => .openFifo
  | some i => .check ⟨net.start, net.inputs i, net.outputs i⟩

/-- The ends that a process uses. -/
def own : Option (Fin n) → End (Pipe n) → Bool
  | none, .write .boss => true
  | none, .read .reports => net.report.isSome
  | some i, .read k => decide (k ∈ net.inputs i)
  | some i, .write (.edge a b) => decide (a = i ∧ b ∈ net.outputs i)
  | some _, .write .reports => net.report.isSome
  | _, _ => false

/-- All ends of all pipes. -/
def allEnds : List (End (Pipe n)) :=
  ((allPipes n).filter net.has).flatMap fun k => [.read k, .write k]

/-- Everybody has every end of every pipe, and closes those that it does not use. -/
def begin : Piped.State (Option (Fin n)) (Pipe n) μ (Place n μ σ) where
  pipes := ⟨fun _ => [], fun _ k => net.has k, fun _ k => net.has k⟩
  pc p := .closing (net.allEnds.filter fun e => !net.own p e) (net.work p)

end Net

abbrev State (n : Nat) (μ σ : Type) := Piped.State (Option (Fin n)) (Pipe n) μ (Place n μ σ)

/-- What can be seen of a step. -/
abbrev Seen (n : Nat) (μ : Type) := Event (Pipe n) μ (Shown μ)

abbrev Step (cap : Nat) (net : Net n μ σ) :
    State n μ σ → Option (Fin n) × Seen n μ → State n μ σ → Prop := Piped.Step cap net.op

abbrev Trace (n : Nat) (μ σ : Type) := List (Move (State n μ σ) (Option (Fin n) × Seen n μ))

/-! ### The two programs -/

/-- A directive; nobody looks at how many letters Casa Rosada had taken before it. -/
structure Directive where
  letter : UInt8
  origin : Nat
  deriving DecidableEq

/-- `lab05/generated`: a province passes on to all its outputs what is not its `last_char`. -/
def generated (matrix : Fin n → Fin n → Int) : Net n Directive UInt8 where
  pipe i j := decide (matrix i j = 1)
  start := 0
  inject t b := [⟨b, t⟩]
  receive _ lastChar c :=
    if c.letter ≠ lastChar then some (c.letter, fun outs => outs.map (·, c)) else none
  heeds := true
  report := none

/-- A line of the configuration. -/
structure Route (n : Nat) where
  path : List (Fin n)
  message : String

/-- `packet_t`; nobody looks at the letter and the route that it is for. -/
structure Packet (n : Nat) where
  path : List (Fin n)
  currentStep : Nat
  message : String
  id : Nat × Nat
  deriving DecidableEq

/-- What is written to the pipes of `lab05/generated_harder`. -/
inductive Message (n : Nat) where
  | packet (c : Packet n)
  | report (provinceId : Fin n) (messagesRelayed : Int)
  deriving DecidableEq

/-- The `matrix` of `load_config`. -/
def routesMatrix (routes : List (Route n)) (i j : Fin n) : Bool :=
  routes.any fun r => decide ((i, j) ∈ r.path.zip r.path.tail)

/-- The packet of a route. -/
def Route.packet (t : Nat) (r : Route n × Nat) : Message n :=
  .packet ⟨r.1.path, 0, r.1.message, (t, r.2)⟩

/-- A province sends a packet to the next of its path. -/
def Packet.forward (c : Packet n) : List (Fin n × Message n) :=
  match c.path[c.currentStep + 1]? with
  | some next => [(next, .packet { c with currentStep := c.currentStep + 1 })]
  | none => []

/-- `lab05/generated_harder`: Casa Rosada sends a packet along each route, for each letter. -/
def generatedHarder (routes : List (Route n)) : Net n (Message n) Int where
  pipe := routesMatrix routes
  start := 0
  inject t _ := routes.zipIdx.map (Route.packet t)
  receive _ messagesRelayed
    | .packet c => some (wrap32 (messagesRelayed + 1), fun _ => c.forward)
    | .report _ _ => none
  heeds := false
  report := some .report

/-! ### The ends -/

theorem mem_allPipes (k : Pipe n) : k ∈ allPipes n := by
  cases k <;> simp [allPipes]

theorem nodup_allPipes : (allPipes n).Nodup := by
  refine List.nodup_append.mpr ⟨by simp, List.nodup_flatMap.mpr ⟨fun i _ => ?_, ?_⟩, ?_⟩
  · exact (List.nodup_finRange n).map fun a b h => by cases h; rfl
  · refine (List.nodup_finRange n).imp fun {a b} hab => ?_
    simp only [Function.onFun, List.disjoint_left, List.mem_map, not_exists, not_and]
    rintro _ ⟨j, -, rfl⟩ j' - h
    cases h
    exact hab rfl
  · rintro a ha b hb rfl
    simp only [List.mem_cons, List.not_mem_nil, or_false] at ha
    rcases ha with rfl | rfl <;> simp at hb

variable {net : Net n μ σ} {p : Option (Fin n)} {i j : Fin n} {k : Pipe n} {l : Loop n σ}

theorem mem_allEnds {e : End (Pipe n)} :
    e ∈ net.allEnds ↔ ∃ k, net.has k = true ∧ (e = .read k ∨ e = .write k) := by
  simp [Net.allEnds, mem_allPipes]

theorem nodup_allEnds : net.allEnds.Nodup := by
  refine List.nodup_flatMap.mpr ⟨fun k _ => by simp, ?_⟩
  refine (nodup_allPipes.filter _).imp fun {a b} hab => ?_
  simp [Function.onFun, hab.symm]

theorem mem_inputs : k ∈ net.inputs i ↔
    (∃ j, k = .edge j i ∧ net.pipe j i = true ∧ j ≠ i) ∨ k = .boss ∧ i.val = 0 := by
  rw [Net.inputs, List.mem_append, List.mem_map]
  refine or_congr ⟨?_, ?_⟩ ?_
  · rintro ⟨j, hj, rfl⟩
    exact ⟨j, rfl, by simpa using hj⟩
  · rintro ⟨j, rfl, hj⟩
    exact ⟨j, by simpa using hj, rfl⟩
  · split <;> simp_all

theorem mem_outputs : j ∈ net.outputs i ↔ net.pipe i j = true := by simp [Net.outputs]

theorem nodup_inputs (net : Net n μ σ) (i : Fin n) : (net.inputs i).Nodup := by
  refine List.nodup_append.mpr ⟨?_, ?_, ?_⟩
  · exact ((List.nodup_finRange n).filter _).map fun a b h => by cases h; rfl
  · split <;> simp
  · rintro a ha b hb rfl
    obtain ⟨j, -, rfl⟩ := List.mem_map.mp ha
    split at hb <;> simp at hb

theorem nodup_outputs (net : Net n μ σ) (i : Fin n) : (net.outputs i).Nodup :=
  (List.nodup_finRange n).filter _

/-- The ends that a province has open in its loop. -/
def Loop.holds (net : Net n μ σ) (i : Fin n) (l : Loop n σ) : End (Pipe n) → Bool
  | .read k => decide (k ∈ l.ins)
  | .write (.edge a b) => decide (a = i ∧ b ∈ l.outs)
  | .write .reports => net.report.isSome
  | .write .boss => false

/-- The ends that a process has open at a place. -/
def Net.holds (net : Net n μ σ) (p : Option (Fin n)) : Place n μ σ → End (Pipe n) → Bool
  | .closing es next => beside (net.holds p next) es
  | .check l | .poll l _ | .print l _ _ _ | .relay l _ _ | .report l =>
      p.elim (fun _ => false) fun i => l.holds net i
  | .openFifo | .fifo _ | .inject _ _ => net.own none
  | .collect => fun e => decide (e = .read .reports)
  | .waiting | .done | .gone => fun _ => false

/-- What a province has open in its loop is its own. -/
structure Loop.Ok (net : Net n μ σ) (i : Fin n) (l : Loop n σ) : Prop where
  ins : l.ins.Sublist (net.inputs i)
  outs : l.outs.Sublist (net.outputs i)

/-- The places of a process; once it works it closes ends of its own only. -/
def Net.of (net : Net n μ σ) (p : Option (Fin n)) : Place n μ σ → Prop
  | .closing es next => Unused (net.holds p next) es ∧ net.of p next ∧
      (next = net.work p ∨ ∀ e ∈ es, net.own p e = true)
  | .check l | .poll l _ | .print l _ _ _ | .relay l _ _ => ∃ i, p = some i ∧ l.Ok net i
  | .report l => ∃ i, p = some i ∧ l.Ok net i ∧ l.ins = []
  | .gone => ∃ i, p = some i
  | .openFifo | .fifo _ | .inject _ _ | .waiting | .done => p = none
  | .collect => p = none ∧ net.report.isSome = true

/-- Where a process goes on after it has closed what it is closing. -/
def Place.after : Place n μ σ → Place n μ σ
  | .closing _ next => next.after
  | q => q

theorem Loop.Ok.nodup_ins (h : l.Ok net i) : l.ins.Nodup := (nodup_inputs net i).sublist h.ins

theorem Loop.Ok.nodup_outs (h : l.Ok net i) : l.outs.Nodup := (nodup_outputs net i).sublist h.outs

theorem work_of (net : Net n μ σ) (p : Option (Fin n)) : net.of p (net.work p) := by
  cases p with
  | none => rfl
  | some i => exact ⟨i, rfl, .refl _, .refl _⟩

theorem work_holds (net : Net n μ σ) (p : Option (Fin n)) :
    net.holds p (net.work p) = net.own p := by
  cases p with
  | none => rfl
  | some i =>
      funext e
      obtain k | (_ | ⟨a, b⟩ | _) := e <;> rfl

theorem hangup_of (net : Net n μ σ) : net.of none net.hangup := by
  refine ⟨⟨by simp, fun e he => ?_⟩, ?_, .inr fun e he => ?_⟩
  · rw [List.mem_singleton.mp he]
    split <;> rfl
  · split
    · exact ⟨rfl, ‹_›⟩
    · rfl
  · rw [List.mem_singleton.mp he]
    rfl

theorem hangup_holds (net : Net n μ σ) : net.holds none net.hangup = net.own none := by
  funext e
  cases h : net.report.isSome <;> obtain (_ | ⟨a, b⟩ | _) | (_ | ⟨a, b⟩ | _) := e <;>
    simp [Net.hangup, Net.holds, Net.own, beside, h]

theorem cleanup_of (hl : l.Ok net i) : net.of (some i) (net.cleanup i l) := by
  refine ⟨⟨List.nodup_append.mpr ⟨by split <;> simp, ?_, ?_⟩, fun _ _ => rfl⟩, ⟨i, rfl⟩,
    .inr fun e he => ?_⟩
  · exact hl.nodup_outs.map fun a b h => by cases h; rfl
  · rintro a ha b hb rfl
    obtain ⟨j, -, rfl⟩ := List.mem_map.mp hb
    split at ha <;> simp at ha
  · rcases List.mem_append.mp he with he | he
    · split at he
      next h => rw [List.mem_singleton.mp he]; exact h
      next => cases he
    · obtain ⟨j, hj, rfl⟩ := List.mem_map.mp he
      exact decide_eq_true ⟨rfl, hl.outs.subset hj⟩

theorem cleanup_holds (hins : l.ins = []) :
    net.holds (some i) (net.cleanup i l) = l.holds net i := by
  funext e
  cases h : net.report.isSome <;> obtain k | (_ | ⟨a, b⟩ | _) := e <;>
    simp [Net.cleanup, Net.holds, beside, Loop.holds, hins, h, eq_comm, Bool.and_comm]

/-- An input is closed. -/
theorem Loop.Ok.shut (hl : l.Ok net i) (k : Pipe n) : Loop.Ok net i { l with ins := l.ins.erase k } :=
  ⟨(List.erase_sublist ..).trans hl.ins, hl.outs⟩

/-- An output is closed. -/
theorem Loop.Ok.drop (hl : l.Ok net i) (j : Fin n) :
    Loop.Ok net i { l with outs := l.outs.erase j } :=
  ⟨hl.ins, (List.erase_sublist ..).trans hl.outs⟩

theorem shut_holds (hk : k ∈ l.ins) :
    beside (Loop.holds net i { l with ins := l.ins.erase k }) [.read k] = l.holds net i := by
  funext e
  obtain a | (_ | ⟨a, b⟩ | _) := e
  · by_cases ha : a = k
    · simp [beside, Loop.holds, ha, hk]
    · simp [beside, Loop.holds, ha, List.mem_erase_of_ne ha]
  all_goals simp [beside, Loop.holds]

theorem shut_unused (hl : l.Ok net i) (k : Pipe n) :
    Unused (Loop.holds net i { l with ins := l.ins.erase k }) [.read k] :=
  ⟨by simp, fun e he => by
    rw [List.mem_singleton.mp he]
    exact decide_eq_false hl.nodup_ins.not_mem_erase⟩

theorem drop_holds (hj : j ∈ l.outs) :
    beside (Loop.holds net i { l with outs := l.outs.erase j }) [.write (.edge i j)] =
      l.holds net i := by
  funext e
  obtain a | (_ | ⟨a, b⟩ | _) := e
  case write.edge =>
    by_cases hb : b = j
    · by_cases ha : a = i <;> simp [beside, Loop.holds, ha, hb, hj]
    · simp [beside, Loop.holds, hb, List.mem_erase_of_ne hb]
  all_goals simp [beside, Loop.holds]

theorem drop_unused (hl : l.Ok net i) (j : Fin n) :
    Unused (Loop.holds net i { l with outs := l.outs.erase j }) [.write (.edge i j)] :=
  ⟨by simp, fun e he => by
    rw [List.mem_singleton.mp he]
    exact decide_eq_false fun h => hl.nodup_outs.not_mem_erase h.2⟩

variable {q q' : Place n μ σ} {e : Seen n μ}

theorem boss_of (hq : net.of none q) (h : (net.casaRosada q).Goes e q') : net.of none q' := by
  cases q with
  | openFifo => obtain ⟨-, rfl⟩ := h; exact hq
  | fifo t =>
      obtain ⟨a, l, ha, -⟩ := h
      cases a with
      | none => cases ha; exact hangup_of net
      | some b =>
          simp only [Option.some.injEq, Prod.mk.injEq] at ha
          obtain ⟨-, rfl⟩ := ha
          split <;> rfl
  | inject cs t =>
      cases cs with
      | nil => obtain ⟨-, rfl⟩ := h; rfl
      | cons c cs =>
          obtain ⟨-, rfl⟩ | ⟨-, rfl⟩ := h
          · rfl
          · split
            · exact hangup_of net
            · rfl
  | collect =>
      obtain ⟨c, -, rfl⟩ | ⟨-, rfl⟩ | ⟨-, h⟩ := h
      · exact hq
      · exact ⟨⟨by simp, fun _ _ => rfl⟩, rfl, .inr fun e he => by
          rw [List.mem_singleton.mp he]
          exact hq.2⟩
      · cases h
  | waiting => obtain ⟨-, rfl⟩ := h; rfl
  | closing | done | check | poll | print | relay | report | gone => exact h.elim

theorem boss_keeps (hq : net.of none q) :
    (net.casaRosada q).Keeps (net.holds none q) (net.holds none) := by
  cases q with
  | openFifo => rfl
  | fifo t =>
      intro a l q ha
      cases a with
      | none => cases ha; exact hangup_holds net
      | some b =>
          simp only [Option.some.injEq, Prod.mk.injEq] at ha
          obtain ⟨-, rfl⟩ := ha
          split <;> rfl
  | inject cs t =>
      cases cs with
      | nil => rfl
      | cons c cs =>
          refine ⟨rfl, rfl, ?_⟩
          split
          · exact hangup_holds net
          · rfl
  | collect =>
      refine ⟨by simp [Net.holds], fun _ => rfl, ?_, nofun⟩
      funext e
      simp [Net.holds, beside]
  | waiting => rfl
  | closing | done | check | poll | print | relay | report | gone => trivial

theorem handle_of (hl : l.Ok net i) {rest : List (Pipe n)} {c : μ} :
    net.of (some i) (net.handle i l rest c) := by
  rw [Net.handle]
  split
  · exact ⟨i, rfl, hl⟩
  · exact ⟨i, rfl, hl.ins, hl.outs⟩

theorem handle_holds {rest : List (Pipe n)} {c : μ} :
    net.holds (some i) (net.handle i l rest c) = l.holds net i := by
  rw [Net.handle]
  split <;> rfl

theorem province_of (hq : net.of (some i) q) (h : (net.province i q).Goes e q') :
    net.of (some i) q' := by
  cases q with
  | check l =>
      obtain ⟨_, ⟨⟩, hl⟩ := hq
      simp only [Net.province] at h
      split at h
      · obtain ⟨-, rfl⟩ := h
        split
        · exact ⟨i, rfl, hl, ‹_›⟩
        · exact cleanup_of hl
      · obtain ⟨-, rfl⟩ := h
        exact ⟨i, rfl, hl⟩
  | poll l rest =>
      obtain ⟨_, ⟨⟩, hl⟩ := hq
      cases rest with
      | nil => obtain ⟨-, rfl⟩ := h; exact ⟨i, rfl, hl⟩
      | cons k rest =>
          simp only [Net.province] at h
          split at h
          · obtain ⟨c, -, rfl⟩ | ⟨-, rfl⟩ | ⟨-, h⟩ := h
            · exact handle_of hl
            · refine ⟨shut_unused hl k, ⟨i, rfl, hl.shut k⟩, .inr fun e he => ?_⟩
              rw [List.mem_singleton.mp he]
              exact decide_eq_true (hl.ins.subset ‹_›)
            · cases h
              exact ⟨i, rfl, hl⟩
          · obtain ⟨-, rfl⟩ := h
            exact ⟨i, rfl, hl⟩
  | print l c out rest => obtain ⟨-, rfl⟩ := h; exact hq
  | relay l out rest =>
      obtain ⟨_, ⟨⟩, hl⟩ := hq
      cases out with
      | nil => obtain ⟨-, rfl⟩ := h; exact ⟨i, rfl, hl⟩
      | cons jc out =>
          simp only [Net.province] at h
          split at h
          · obtain ⟨-, rfl⟩ | ⟨-, rfl⟩ := h
            · exact ⟨i, rfl, hl⟩
            · split
              · refine ⟨drop_unused hl jc.1, ⟨i, rfl, hl.drop jc.1⟩, .inr fun e he => ?_⟩
                rw [List.mem_singleton.mp he]
                exact decide_eq_true ⟨rfl, hl.outs.subset ‹_›⟩
              · exact ⟨i, rfl, hl⟩
          · obtain ⟨-, rfl⟩ := h
            exact ⟨i, rfl, hl⟩
  | report l =>
      obtain ⟨_, ⟨⟩, hl, -⟩ := hq
      simp only [Net.province] at h
      split at h
      · obtain ⟨-, rfl⟩ | ⟨-, rfl⟩ := h <;> exact cleanup_of hl
      · exact h.elim
  | closing | openFifo | fifo | inject | collect | waiting | done | gone => exact h.elim

theorem province_keeps (hq : net.of (some i) q) :
    (net.province i q).Keeps (net.holds (some i) q) (net.holds (some i)) := by
  cases q with
  | check l =>
      obtain ⟨_, ⟨⟩, hl⟩ := hq
      simp only [Net.province]
      split
      next hins =>
        change net.holds (some i) (if _ then _ else _) = _
        split
        · rfl
        · exact cleanup_holds hins
      next => rfl
  | poll l rest =>
      obtain ⟨_, ⟨⟩, hl⟩ := hq
      cases rest with
      | nil => rfl
      | cons k rest =>
          simp only [Net.province]
          split
          next hk =>
            refine ⟨decide_eq_true hk, fun c => handle_holds, shut_holds hk, fun q h => ?_⟩
            cases h
            rfl
          next => rfl
  | print l c out rest => rfl
  | relay l out rest =>
      obtain ⟨_, ⟨⟩, hl⟩ := hq
      cases out with
      | nil => rfl
      | cons jc out =>
          simp only [Net.province]
          split
          next hj =>
            refine ⟨decide_eq_true ⟨rfl, hj⟩, rfl, ?_⟩
            split
            · exact drop_holds hj
            · rfl
          next => rfl
  | report l =>
      obtain ⟨_, ⟨⟩, -, hins⟩ := hq
      simp only [Net.province]
      split
      next f hf => exact ⟨by simp [Net.holds, Loop.holds, hf], cleanup_holds hins, cleanup_holds hins⟩
      next => trivial
  | closing | openFifo | fifo | inject | collect | waiting | done | gone => trivial

theorem op_cases (net : Net n μ σ) (p : Option (Fin n)) (q : Place n μ σ) :
    (∃ es next, q = .closing es next) ∨ q.after = q ∧
      net.op p q = p.elim (net.casaRosada q) fun i => net.province i q := by
  cases q with
  | closing es next => exact .inl ⟨es, next, rfl⟩
  | _ => right; cases p <;> exact ⟨rfl, rfl⟩

/-- **Every operation keeps to it.** -/
theorem op_keeps (net : Net n μ σ) : Keeps net.op net.of net.holds where
  still {p q e q'} hq h := by
    obtain ⟨es, next, rfl⟩ | ⟨-, hop⟩ := op_cases net p q
    · cases es with
      | nil => obtain ⟨-, rfl⟩ := h; exact hq.2.1
      | cons f es =>
          obtain ⟨-, rfl⟩ := h
          exact ⟨hq.1.tail, hq.2.1, hq.2.2.imp id fun h e he => h e (List.mem_cons_of_mem _ he)⟩
    · rw [hop] at h
      cases p with
      | none => exact boss_of hq h
      | some i => exact province_of hq h
  keeps {p q} hq := by
    obtain ⟨es, next, rfl⟩ | ⟨-, hop⟩ := op_cases net p q
    · cases es with
      | nil => exact beside_nil.symm
      | cons f es => exact beside_cons hq.1
    · rw [hop]
      cases p with
      | none => exact boss_keeps hq
      | some i => exact province_keeps hq

theorem own_has {e : End (Pipe n)} (h : net.own p e = true) : e ∈ net.allEnds := by
  rw [mem_allEnds]
  cases p with
  | none =>
      obtain (_ | ⟨a, b⟩ | _) | (_ | ⟨a, b⟩ | _) := e <;> simp only [Net.own, reduceCtorEq] at h
      · exact ⟨.reports, h, .inl rfl⟩
      · exact ⟨.boss, rfl, .inr rfl⟩
  | some i =>
      obtain k | (_ | ⟨a, b⟩ | _) := e <;> simp only [Net.own, decide_eq_true_eq, reduceCtorEq] at h
      · refine ⟨k, ?_, .inl rfl⟩
        obtain ⟨j, rfl, hj, -⟩ | ⟨rfl, -⟩ := mem_inputs.mp h
        · exact hj
        · rfl
      · obtain ⟨rfl, hb⟩ := h
        exact ⟨.edge a b, mem_outputs.mp hb, .inr rfl⟩
      · exact ⟨.reports, h, .inr rfl⟩

theorem tidy_begin (net : Net n μ σ) : Tidy net.of net.holds net.begin where
  ok p := ⟨work_holds net p ▸ unused_filter nodup_allEnds, work_of net p, .inl rfl⟩
  has p := by
    change _ = beside (net.holds p (net.work p)) _
    rw [work_holds, beside_filter fun e h => own_has h]
    funext e
    obtain k | k := e <;> exact (Bool.eq_iff_iff.mpr (by simp [mem_allEnds, State.has, Net.begin]))

variable {cap : Nat} {s t : State n μ σ} {tr : Trace n μ σ}

/-- **The ends are open as the places say.** -/
theorem tidy (r : Run (Step cap net) net.begin tr s) : Tidy net.of net.holds s :=
  (tidy_begin net).run (op_keeps net) r

end Sop2.Provinces
