import Mathlib.Data.Fintype.Sigma
import Mathlib.Data.Fintype.Option
import Mathlib.Data.List.FinRange
import Sop2.Support.Int32
import Sop2.Support.PipedEnds

/-!
# Lab05 — Factory — the brigades

`lab05/sop-factory/sop-factory.c` after the last `fork`, without signals: three brigades of any
size and the boss.  The first brigade takes letters from a FIFO to `pipe12`, the second from there
to `pipe23`, one to four times each, and the third makes words of five.  Every worker reports to
the boss over a pipe of its own.

The pieces in the pipes are numbers: a letter, by its code, or the `items_processed` of a report,
which is an `int` and wraps.
What the FIFO gives, and when it ends, is left open, and so is what `rand` returns.

A worker leaves its loop for no other reason than the end of its file (`no_epipe`): whoever reads a
pipe does so until its last writer has closed it.
-/

namespace Sop2.Factory
open Support Support.Piped

inductive Brigade where
  | first
  | second
  | third
  deriving DecidableEq

instance : Fintype Brigade where
  elems := {.first, .second, .third}
  complete b := by cases b <;> decide

/-- A worker, by its brigade and its number there. -/
abbrev Worker (w : Brigade → Nat) := (b : Brigade) × Fin (w b)

inductive Pipe (w : Brigade → Nat) where
  | pipe12
  | pipe23
  /-- `boss_pipes1`, `boss_pipes2` and `boss_pipes3`. -/
  | report (k : Worker w)
  deriving DecidableEq

/-- Where a process is; `left` are the letters of a word that was not finished. -/
inductive Place (w : Brigade → Nat) where
  /-- The ends that are still to be closed before the work begins. -/
  | setup (rest : List (End (Pipe w)))
  | openFifo
  | fifo (items : Int)
  | pass (items letter : Int)
  | take (items : Int)
  /-- Before the number of copies is chosen. -/
  | choose (items letter : Int)
  | copy (items letter : Int) (copies i : Nat)
  | gather (items : Int) (word : List Int)
  | assemble (items : Int) (word : List Int)
  | report (items : Int) (left : List Int)
  | leave (items : Int) (left : List Int)
  | gone (items : Int) (left : List Int)
  /-- The boss waits for the workers, and then reads their reports. -/
  | waiting
  | collect (rest : List (Worker w))
  | summary (k : Worker w) (items : Int) (rest : List (Worker w))
  | next (k : Worker w) (rest : List (Worker w))
  | done
  deriving DecidableEq

/-- What the FIFO gives, or its end; and what `rand` returns. -/
inductive Answer where
  | byte (b : Option UInt8)
  | random (r : Nat)

/-- What can be seen of a step besides the pipes. -/
inductive Shown (w : Brigade → Nat) where
  | byte (b : UInt8)
  | word (letters : List Int)
  | report (k : Worker w) (items : Int)

variable {w : Brigade → Nat}

/-- `'a' <= letter && letter <= 'z'`. -/
def isLetter (b : UInt8) : Bool := decide (97 ≤ b ∧ b ≤ 122)

/-- All workers, in the order of the boss. -/
def workers (w : Brigade → Nat) : List (Worker w) :=
  [Brigade.first, Brigade.second, Brigade.third].flatMap fun b =>
    (List.finRange (w b)).map fun i => ⟨b, i⟩

/-- The ends that a process uses; of the processes, `none` is the boss. -/
def own : Option (Worker w) → End (Pipe w) → Bool
  | none, .read (.report _) => true
  | some ⟨.first, _⟩, .write .pipe12 => true
  | some ⟨.second, _⟩, .read .pipe12 => true
  | some ⟨.second, _⟩, .write .pipe23 => true
  | some ⟨.third, _⟩, .read .pipe23 => true
  | some k, .write (.report j) => decide (j = k)
  | _, _ => false

/-- All ends of all pipes, in the order in which they are closed. -/
def allEnds (w : Brigade → Nat) : List (End (Pipe w)) :=
  [.read .pipe12, .write .pipe12, .read .pipe23, .write .pipe23] ++
    (workers w).flatMap fun k => [.read (.report k), .write (.report k)]

/-- Where the work of a process begins. -/
def work : Option (Worker w) → Place w
  | none => .waiting
  | some ⟨.first, _⟩ => .openFifo
  | some ⟨.second, _⟩ => .take 0
  | some ⟨.third, _⟩ => .gather 0 []

/-- `first_brigade_work`, `second_brigade_work`, `third_brigade_work` and `main`. -/
def op (p : Option (Worker w)) : Place w → Op (Pipe w) Int Answer (Shown w) (Place w)
  | .setup [] => .act none (work p)
  | .setup (e :: es) => .close e (.setup es)
  | .openFifo => .act none (.fifo 0)
  | .fifo items => .ask fun
      | .byte none => some (none, .report items [])
      | .byte (some b) =>
          some (some (.byte b), if isLetter b then .pass items b.toNat else .fifo items)
      | .random _ => none
  | .pass items letter => .write .pipe12 letter (.fifo (wrap32 (items + 1))) (.report items [])
  | .take items => .read .pipe12 (.choose items) (.report items []) none
  | .choose items letter => .ask fun
      | .random r => some (none, .copy items letter (r % 4 + 1) 0)
      | .byte _ => none
  | .copy items letter copies i =>
      if i < copies then
        .write .pipe23 letter (.copy items letter copies (i + 1)) (.report (wrap32 (items + 1)) [])
      else .act none (.take (wrap32 (items + 1)))
  | .gather items word => .read .pipe23
      (fun letter =>
        if (word ++ [letter]).length = 5 then .assemble items (word ++ [letter])
        else .gather items (word ++ [letter]))
      (.report items word) none
  | .assemble items word => .act (some (.word word)) (.gather (wrap32 (items + 1)) [])
  | .report items left =>
      match p with
      | some k => .write (.report k) items (.leave items left) (.leave items left)
      | none => .halt
  | .leave items left => .exit (.gone items left)
  | .waiting => .wait (.collect (workers w))
  | .collect (k :: rest) =>
      .read (.report k) (fun items => .summary k items rest) (.next k rest) none
  | .collect [] => .exit .done
  | .summary k items rest => .act (some (.report k items)) (.next k rest)
  | .next k rest => .close (.read (.report k)) (.collect rest)
  | .gone _ _ | .done => .halt

abbrev State (w : Brigade → Nat) := Piped.State (Option (Worker w)) (Pipe w) Int (Place w)

/-- What can be seen of a step. -/
abbrev Seen (w : Brigade → Nat) := Event (Pipe w) Int (Shown w)

abbrev Step (cap : Nat) : State w → Option (Worker w) × Seen w → State w → Prop :=
  Piped.Step cap op

/-- Everybody has every end of every pipe. -/
def begin (w : Brigade → Nat) : State w where
  pipes := ⟨fun _ => [], fun _ _ => true, fun _ _ => true⟩
  pc p := .setup ((allEnds w).filter fun e => !own p e)

/-! ### The ends -/

/-- The places of a process. -/
def Place.of (p : Option (Worker w)) : Place w → Prop
  | .setup es => Unused (own p) es
  | .openFifo | .fifo _ | .pass _ _ => ∃ i, p = some ⟨.first, i⟩
  | .take _ | .choose _ _ | .copy _ _ _ _ => ∃ i, p = some ⟨.second, i⟩
  | .gather _ _ | .assemble _ _ => ∃ i, p = some ⟨.third, i⟩
  | .report _ _ | .leave _ _ | .gone _ _ => ∃ k, p = some k
  | .waiting | .done => p = none
  | .collect rest => p = none ∧ rest.Nodup
  | .summary k _ rest | .next k rest => p = none ∧ (k :: rest).Nodup

/-- The boss has the pipes open whose reports it has still to read. -/
def pending (ks : List (Worker w)) : End (Pipe w) → Bool
  | .read (.report k) => decide (k ∈ ks)
  | _ => false

/-- The ends that a process has open at a place. -/
def holds (p : Option (Worker w)) : Place w → End (Pipe w) → Bool
  | .setup es => beside (own p) es
  | .collect rest => pending rest
  | .summary k _ rest | .next k rest => pending (k :: rest)
  | .gone _ _ | .done => fun _ => false
  | _ => own p

theorem work_of (p : Option (Worker w)) : (work p).of p := by
  obtain _ | ⟨b, i⟩ := p
  · rfl
  · cases b with
    | first | second | third => exact ⟨i, rfl⟩

theorem work_holds (p : Option (Worker w)) : holds p (work p) = own p := by
  obtain _ | ⟨b, i⟩ := p
  · rfl
  · cases b with
    | first | second | third => rfl

theorem mem_workers (k : Worker w) : k ∈ workers w := by
  obtain ⟨b, i⟩ := k
  simp only [workers, List.mem_flatMap, List.mem_map, List.mem_finRange, true_and]
  exact ⟨b, by cases b <;> simp, i, rfl⟩

theorem nodup_workers : (workers w).Nodup := by
  refine List.nodup_flatMap.mpr ⟨fun b _ => ?_, ?_⟩
  · refine (List.nodup_finRange _).map fun i j h => ?_
    cases h
    rfl
  · have hne : [Brigade.first, .second, .third].Pairwise (· ≠ ·) := by decide
    refine hne.imp fun {a b} hab => ?_
    simp only [Function.onFun, List.disjoint_left, List.mem_map, not_exists, not_and]
    rintro _ ⟨i, -, rfl⟩ j -
    rintro h
    cases h
    exact hab rfl

theorem nodup_allEnds : (allEnds w).Nodup := by
  refine List.nodup_append.mpr ⟨by simp, ?_, ?_⟩
  · refine List.nodup_flatMap.mpr ⟨fun k _ => by simp, ?_⟩
    refine nodup_workers.imp fun {a b} hab => ?_
    simp [Function.onFun, hab.symm]
  · intro e he f hf h
    subst h
    obtain ⟨k, -, hk⟩ := List.mem_flatMap.mp hf
    simp only [List.mem_cons, List.not_mem_nil, or_false] at he hk
    rcases he with rfl | rfl | rfl | rfl <;> simp at hk

theorem mem_allEnds (e : End (Pipe w)) : e ∈ allEnds w := by
  simp only [allEnds, List.mem_append, List.mem_flatMap]
  obtain ⟨_ | _ | k⟩ | ⟨_ | _ | k⟩ := e
  case read.report | write.report => exact .inr ⟨k, mem_workers k, by simp⟩
  all_goals exact .inl (by simp)

theorem pending_workers : pending (workers w) = own none := by
  funext e
  obtain ⟨_ | _ | k⟩ | ⟨_ | _ | k⟩ := e <;> simp [pending, own, mem_workers]

theorem pending_cons {k : Worker w} {rest : List (Worker w)} (h : (k :: rest).Nodup) :
    pending rest = Function.update (pending (k :: rest)) (.read (.report k)) false := by
  funext e
  by_cases he : e = .read (.report k)
  · subst he
    rw [Function.update_self]
    exact decide_eq_false (List.nodup_cons.mp h).1
  · rw [Function.update_of_ne he]
    obtain ⟨_ | _ | j⟩ | ⟨_ | _ | j⟩ := e
    case read.report =>
      have hj : j ≠ k := fun h => he (h ▸ rfl)
      simp [pending, hj]
    all_goals rfl

/-- **Every operation keeps to it.** -/
theorem op_keeps : Keeps (op (w := w)) (fun p q => q.of p) holds where
  still {p q e q'} hq h := by
    cases q with
    | setup es =>
        cases es with
        | nil => obtain ⟨-, rfl⟩ := h; exact work_of p
        | cons f es => obtain ⟨-, rfl⟩ := h; exact Unused.tail hq
    | openFifo => obtain ⟨-, rfl⟩ := h; exact hq
    | fifo items =>
        obtain ⟨a, l, ha, -⟩ := h
        obtain ⟨i, rfl⟩ := hq
        rcases a with (_ | b) | r
        · cases ha; exact ⟨_, rfl⟩
        · simp only [Option.some.injEq, Prod.mk.injEq] at ha
          obtain ⟨-, rfl⟩ := ha
          split <;> exact ⟨i, rfl⟩
        · cases ha
    | pass items letter =>
        obtain ⟨i, rfl⟩ := hq
        obtain ⟨-, rfl⟩ | ⟨-, rfl⟩ := h
        · exact ⟨i, rfl⟩
        · exact ⟨_, rfl⟩
    | take items =>
        obtain ⟨i, rfl⟩ := hq
        obtain ⟨c, -, rfl⟩ | ⟨-, rfl⟩ | ⟨-, h⟩ := h
        · exact ⟨i, rfl⟩
        · exact ⟨_, rfl⟩
        · cases h
    | choose items letter =>
        obtain ⟨a, l, ha, -⟩ := h
        cases a <;> cases ha
        exact hq
    | copy items letter copies i =>
        obtain ⟨j, rfl⟩ := hq
        simp only [op] at h
        split at h
        · obtain ⟨-, rfl⟩ | ⟨-, rfl⟩ := h
          · exact ⟨j, rfl⟩
          · exact ⟨_, rfl⟩
        · obtain ⟨-, rfl⟩ := h
          exact ⟨j, rfl⟩
    | gather items word =>
        obtain ⟨i, rfl⟩ := hq
        obtain ⟨c, -, rfl⟩ | ⟨-, rfl⟩ | ⟨-, h⟩ := h
        · dsimp only
          split <;> exact ⟨i, rfl⟩
        · exact ⟨_, rfl⟩
        · cases h
    | assemble items word => obtain ⟨-, rfl⟩ := h; exact hq
    | report items left =>
        obtain ⟨k, rfl⟩ := hq
        obtain ⟨-, rfl⟩ | ⟨-, rfl⟩ := h <;> exact ⟨k, rfl⟩
    | leave items left => obtain ⟨-, rfl⟩ := h; exact hq
    | waiting => obtain ⟨-, rfl⟩ := h; exact ⟨hq, nodup_workers⟩
    | collect rest =>
        cases rest with
        | nil => obtain ⟨-, rfl⟩ := h; exact hq.1
        | cons k rest =>
            obtain ⟨c, -, rfl⟩ | ⟨-, rfl⟩ | ⟨-, h⟩ := h
            · exact hq
            · exact hq
            · cases h
    | summary k items rest => obtain ⟨-, rfl⟩ := h; exact hq
    | next k rest => obtain ⟨-, rfl⟩ := h; exact ⟨hq.1, hq.2.of_cons⟩
    | gone items left | done => exact h.elim
  keeps {p q} hq := by
    cases q with
    | setup es =>
        cases es with
        | nil => exact (work_holds p).trans beside_nil.symm
        | cons f es => exact beside_cons hq
    | openFifo => rfl
    | fifo items =>
        obtain ⟨i, rfl⟩ := hq
        intro a l q ha
        rcases a with (_ | b) | r
        · cases ha; rfl
        · simp only [Option.some.injEq, Prod.mk.injEq] at ha
          obtain ⟨-, rfl⟩ := ha
          split <;> rfl
        · cases ha
    | pass items letter =>
        obtain ⟨i, rfl⟩ := hq
        exact ⟨rfl, rfl, rfl⟩
    | take items =>
        obtain ⟨i, rfl⟩ := hq
        exact ⟨rfl, fun _ => rfl, rfl, nofun⟩
    | choose items letter =>
        intro a l q ha
        cases a <;> cases ha
        rfl
    | copy items letter copies i =>
        obtain ⟨j, rfl⟩ := hq
        simp only [op]
        split
        · exact ⟨rfl, rfl, rfl⟩
        · rfl
    | gather items word =>
        obtain ⟨i, rfl⟩ := hq
        refine ⟨rfl, fun c => ?_, rfl, nofun⟩
        dsimp only
        split <;> rfl
    | assemble items word => rfl
    | report items left =>
        obtain ⟨k, rfl⟩ := hq
        refine ⟨?_, rfl, rfl⟩
        obtain ⟨b, i⟩ := k
        cases b <;> simp [holds, own]
    | leave items left => rfl
    | waiting =>
        obtain rfl := hq
        exact pending_workers
    | collect rest =>
        cases rest with
        | nil => rfl
        | cons k rest => exact ⟨by simp [holds, pending], fun _ => rfl, rfl, nofun⟩
    | summary k items rest => rfl
    | next k rest => exact pending_cons hq.2
    | gone items left | done => trivial

variable {cap : Nat} {s t : State w} {tr : List (Move (State w) (Option (Worker w) × Seen w))}
  {p : Option (Worker w)}

theorem tidy_begin : Tidy (fun p q => q.of p) holds (begin w) where
  ok _ := unused_filter nodup_allEnds
  has p := by
    change _ = beside (own p) _
    rw [beside_filter fun e _ => mem_allEnds e]
    funext e
    simp only [mem_allEnds, decide_true]
    cases e <;> rfl

/-- **The ends are open as the places say.** -/
theorem tidy (r : Run (Step cap) (begin w) tr s) : Tidy (fun p q => q.of p) holds s :=
  tidy_begin.run op_keeps r

/-! ### The ends of the files -/

/-- The worker has left its loop. -/
def Place.past : Place w → Bool
  | .report _ _ | .leave _ _ | .gone _ _ => true
  | _ => false

/-- The pipe that a worker reads. -/
def source : Option (Worker w) → Option (Pipe w)
  | some ⟨.second, _⟩ => some .pipe12
  | some ⟨.third, _⟩ => some .pipe23
  | _ => none

/-- As long as no pipe is broken, who has left the loop has seen the end of its file. -/
theorem eof_of_past (r : Run (Step cap) (begin w) tr s)
    (hG : ∀ m ∈ tr, ∀ k, m.label.2 ≠ .epipe k) (h : (s.pc p).past = true) {k : Pipe w}
    (hk : source p = some k) : Event.eof k ∈ events p tr := by
  suffices hJ : (s.pc p).of p ∧
      ((s.pc p).past = true → ∀ k, source p = some k → Event.eof k ∈ events p tr) from
    hJ.2 h k hk
  refine locally (J := fun p es q => q.of p ∧
      (q.past = true → ∀ k, source p = some k → Event.eof k ∈ es))
    (G := fun _ e => ∀ k, e ≠ .epipe k) (fun {p es q e q'} hJ hG h => ?_) r
    (fun p => ⟨tidy_begin.ok p, nofun⟩) hG p
  obtain ⟨hof, hpast⟩ := hJ
  refine ⟨op_keeps.still hof h, fun hq' k hk => ?_⟩
  cases q with
  | take items =>
      obtain ⟨i, rfl⟩ := hof
      cases hk
      obtain ⟨c, -, rfl⟩ | ⟨rfl, rfl⟩ | ⟨-, h⟩ := h
      · cases hq'
      · simp
      · cases h
  | gather items word =>
      obtain ⟨i, rfl⟩ := hof
      cases hk
      obtain ⟨c, -, rfl⟩ | ⟨rfl, rfl⟩ | ⟨-, h⟩ := h
      · dsimp only at hq'
        split at hq' <;> cases hq'
      · simp
      · cases h
  | report items left | leave items left => exact List.mem_append_left _ (hpast rfl k hk)
  | fifo items | pass items letter => obtain ⟨i, rfl⟩ := hof; cases hk
  | copy items letter copies i =>
      simp only [op] at h
      split at h
      · obtain ⟨-, rfl⟩ | ⟨rfl, -⟩ := h
        · cases hq'
        · exact absurd rfl (hG _)
      · obtain ⟨-, rfl⟩ := h
        cases hq'
  | setup es =>
      cases es with
      | nil =>
          obtain ⟨-, rfl⟩ := h
          obtain _ | ⟨_ | _ | _, i⟩ := p <;> cases hq'
      | cons f es => obtain ⟨-, rfl⟩ := h; cases hq'
  | choose items letter =>
      obtain ⟨a, l, ha, -⟩ := h
      cases a <;> cases ha
      cases hq'
  | collect rest =>
      cases rest with
      | nil => obtain ⟨-, rfl⟩ := h; cases hq'
      | cons k rest => obtain ⟨c, -, rfl⟩ | ⟨-, rfl⟩ | ⟨-, h⟩ := h <;> first | cases hq' | cases h
  | openFifo | assemble items word | waiting | summary k items rest | next k rest =>
      obtain ⟨-, rfl⟩ := h
      cases hq'
  | gone items left | done => exact h.elim

/-- Who has closed the pipe it reads has left the loop. -/
theorem past_of_closed {q : Place w} (hq : q.of p) {k : Pipe w} (hk : source p = some k)
    (h : holds p q (.read k) = false) : q.past = true := by
  have hown : own p (.read k) = true := by
    obtain _ | ⟨_ | _ | _, i⟩ := p <;> cases hk <;> rfl
  cases q with
  | report | leave | gone => rfl
  | setup es => simp [holds, beside, hown] at h
  | collect rest | summary j items rest | next j rest => obtain ⟨rfl, -⟩ := hq; cases hk
  | done => obtain rfl := hq; cases hk
  | _ => exact absurd (h.symm.trans hown) Bool.false_ne_true

/-! ### The boss -/

/-- The boss has not waited for the workers yet. -/
def Place.early : Place w → Bool
  | .setup _ | .waiting => true
  | _ => false

theorem gone_of_halt {q : Place w} {k : Worker w} (hq : q.of (some k))
    (h : op (some k) q = .halt) : ∃ items left, q = .gone items left := by
  cases q with
  | gone items left => exact ⟨items, left, rfl⟩
  | done => cases hq
  | setup es => cases es <;> cases h
  | collect rest => cases hq.1
  | copy items letter copies i => simp only [op] at h; split at h <;> cases h
  | _ => cases h

/-- **The boss reads the reports of workers that are gone.** -/
theorem waited (r : Run (Step cap) (begin w) tr s) :
    (s.pc none).early = true ∨ ∀ k, ∃ items left, s.pc (some k) = .gone items left := by
  induction r with
  | refl => exact .inl rfl
  | @snoc t u tr l r h ih =>
      obtain ⟨_ | k, e⟩ := l
      · have hworkers : ∀ k, u.pc (some k) = t.pc (some k) := fun k => h.stays (by simp)
        rcases ih with hearly | hgone
        · obtain ⟨q, hpc, hgoes⟩ := h.goes
          cases hq : t.pc none with
          | setup es =>
              left
              rw [hpc, Function.update_self]
              rw [hq] at hgoes
              cases es <;> (obtain ⟨-, rfl⟩ := hgoes; rfl)
          | waiting =>
              right
              intro k
              rw [hworkers]
              have hhalt : op (some k) (t.pc (some k)) = .halt := by
                cases h with
                | wait _ _ _ hall => exact hall _ (by simp)
                | read _ _ _ _ _ _ _ hop | eof _ _ _ _ _ hop | again _ _ _ _ _ hop
                | write _ _ _ _ _ _ hop | epipe _ _ _ _ _ hop | close _ _ _ hop
                | act _ _ _ hop | ask _ _ _ _ _ hop | exit _ _ hop => rw [hq] at hop; cases hop
              exact gone_of_halt ((tidy r).ok (some k)) hhalt
          | _ => rw [hq] at hearly; cases hearly
        · exact .inr fun k => by rw [hworkers]; exact hgone k
      · rcases ih with hearly | hgone
        · left
          rw [h.stays (by simp)]
          exact hearly
        · -- who is gone takes no step
          obtain ⟨items, left, hleft⟩ := hgone k
          obtain ⟨q, -, hgoes⟩ := h.goes
          rw [hleft] at hgoes
          exact hgoes.elim

/-- **No write finds a broken pipe**, if there is somebody in the second and in the third
brigade. -/
theorem no_epipe (h₂ : 0 < w .second) (h₃ : 0 < w .third) (r : Run (Step cap) (begin w) tr s) :
    ∀ m ∈ tr, ∀ k, m.label.2 ≠ .epipe k := by
  induction r with
  | refl => simp
  | @snoc t u tr l r h ih =>
      refine forall_mem_snoc ih fun k hk => ?_
      have ht := tidy r
      obtain ⟨p, e⟩ := l
      obtain rfl : e = .epipe k := hk
      cases h with
      | epipe _ _ c ok broken hop hr =>
          have hopen := ht.writes op_keeps hop
          -- a reader that is done with `k` has seen its end, so that nobody writes to it any more
          have ended : ∀ q, source q = some k → False := by
            intro q hq
            have hclosed := ht.noReader.mp hr q
            have heof := eof_of_past r ih (past_of_closed (ht.ok q) hq hclosed) hq
            have hw := (ended_of_eof op_keeps tidy_begin r heof).2
            rw [ht.noWriter.mp hw p] at hopen
            cases hopen
          cases k with
          | pipe12 => exact ended (some ⟨.second, 0, h₂⟩) rfl
          | pipe23 => exact ended (some ⟨.third, 0, h₃⟩) rfl
          | report j =>
              have hclosed := ht.noReader.mp hr none
              rcases waited r with hearly | hgone
              · cases hq : t.pc none <;> rw [hq] at hearly hclosed <;>
                  simp [Place.early, holds, beside, own] at hearly hclosed
              · obtain _ | i := p
                · have hof := ht.ok none
                  cases hq : t.pc none <;> rw [hq] at hof hop <;> simp [Place.of] at hof
                  case setup es => cases es <;> cases hop
                  case collect rest => cases rest <;> cases hop
                  all_goals cases hop
                · obtain ⟨items, left, hleft⟩ := hgone i
                  rw [hleft] at hop
                  cases hop

end Sop2.Factory
