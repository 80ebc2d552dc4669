import Mathlib.Algebra.BigOperators.Fin
import Mathlib.Algebra.BigOperators.Ring.Finset
import Mathlib.Algebra.Order.BigOperators.Group.Finset
import Sop2.Lab05.Factory.Brigades

/-!
# Lab05 — Factory — conservation

No letter is lost, doubled or counted twice.

`Books`: the local account of a worker.  Its `items_processed` and what it has in hand are what it
has read; and what it has written follows from them.  What all the workers of a brigade have
written is what the next has read (`pipe_law`), since a pipe is empty once its readers have seen
its end.  The boss reads one report of every worker (`Ledger`).
-/

namespace Sop2.Factory
open Support Support.Piped

variable {w : Brigade → Nat}

/-- A letter that the FIFO gave. -/
def letter? : Seen w → Option UInt8
  | .said (some (.byte b)) => if isLetter b then some b else none
  | _ => none

def word? : Seen w → Option (List Int)
  | .said (some (.word letters)) => some letters
  | _ => none

def report? : Seen w → Option (Worker w × Int)
  | .said (some (.report k items)) => some (k, items)
  | _ => none

/-- `report.items_processed`. -/
def Place.items : Place w → Int
  | .fifo items | .pass items _ | .take items | .choose items _ | .copy items _ _ _
  | .gather items _ | .assemble items _ | .report items _ | .leave items _ | .gone items _ => items
  | _ => 0

/-- The letters that a worker has taken, and has not counted yet. -/
def Place.carried : Place w → Nat
  | .pass _ _ | .choose _ _ | .copy _ _ _ _ => 1
  | _ => 0

/-- The copies that a worker has made of a letter it has not counted yet. -/
def Place.copied : Place w → Nat
  | .copy _ _ _ i => i
  | _ => 0

/-- The unfinished word. -/
def Place.word : Place w → List Int
  | .gather _ word | .assemble _ word | .report _ word | .leave _ word | .gone _ word => word
  | _ => []

/-- The report has been written. -/
def Place.reported : Place w → Bool
  | .leave _ _ | .gone _ _ => true
  | _ => false

/-- The number of copies is between one and four, and the words are short. -/
def Place.bounded : Place w → Prop
  | .copy _ _ copies i => 1 ≤ copies ∧ copies ≤ 4 ∧ i ≤ copies
  | .gather _ word | .report _ word | .leave _ word | .gone _ word => word.length ≤ 4
  | .assemble _ word => word.length = 5
  | _ => True

/-- What a worker of the brigade `b` has, if it is one. -/
def share (b : Brigade) (p : Option (Worker w)) (n : Nat) : Nat :=
  match p with
  | some k => if k.1 = b then n else 0
  | none => 0

/-- What a process has seen, and where it is then; it has counted `n` items. -/
structure Books (p : Option (Worker w)) (n : Nat) (es : List (Seen w)) (q : Place w) : Prop where
  of : q.of p
  bounded : q.bounded
  items : q.items = wrap32 n
  letters : (es.filterMap letter?).length = share .first p (n + q.carried)
  passed : (es.filterMap (Event.written? .pipe12)).length = share .first p n
  taken : (es.filterMap (Event.taken? .pipe12)).length = share .second p (n + q.carried)
  copies_ge : share .second p (n + q.copied) ≤ (es.filterMap (Event.written? .pipe23)).length
  copies_le : (es.filterMap (Event.written? .pipe23)).length ≤ share .second p (4 * n + q.copied)
  gathered : es.filterMap (Event.taken? .pipe23) = (es.filterMap word?).flatten ++
    if p.any (·.1 = .third) then q.word else []
  words : (es.filterMap word?).length = share .third p n
  lengths : (es.filterMap word?).flatten.length = share .third p (5 * n)
  reports : ∀ j, es.filterMap (Event.written? (.report j)) =
    if p = some j ∧ q.reported then [q.items] else []

theorem books_start {p : Option (Worker w)} (es : List (End (Pipe w))) (h : Unused (own p) es) :
    Books p 0 [] (.setup es) where
  of := h
  bounded := trivial
  items := wrap32_zero.symm
  letters := by cases p <;> simp [share, Place.carried]
  passed := by cases p <;> simp [share]
  taken := by cases p <;> simp [share, Place.carried]
  copies_ge := by cases p <;> simp [share, Place.copied]
  copies_le := by simp
  gathered := by simp [Place.word]
  words := by cases p <;> simp [share]
  lengths := by cases p <;> simp [share]
  reports j := by simp [Place.reported]

/-- What one more event does to the books. -/
theorem Books.next {p : Option (Worker w)} {n n' : Nat} {es : List (Seen w)} {q q' : Place w}
    {e : Seen w} (hB : Books p n es q) (hof : q'.of p) (hb : q'.bounded)
    (hitems : q'.items = wrap32 n')
    (hletter : share .first p (n + q.carried) + (letter? e).toList.length =
      share .first p (n' + q'.carried))
    (hpass : share .first p n + (e.written? .pipe12).toList.length = share .first p n')
    (htake : share .second p (n + q.carried) + (e.taken? .pipe12).toList.length =
      share .second p (n' + q'.carried))
    (hge : share .second p (n' + q'.copied) ≤
      share .second p (n + q.copied) + (e.written? .pipe23).toList.length)
    (hle : share .second p (4 * n + q.copied) + (e.written? .pipe23).toList.length ≤
      share .second p (4 * n' + q'.copied))
    (hgather : (if p.any (·.1 = .third) then q.word else []) ++ (e.taken? .pipe23).toList =
      (word? e).toList.flatten ++ if p.any (·.1 = .third) then q'.word else [])
    (hword : share .third p n + (word? e).toList.length = share .third p n')
    (hlength : share .third p (5 * n) + (word? e).toList.flatten.length =
      share .third p (5 * n'))
    (hreport : ∀ j, (if p = some j ∧ q.reported then [q.items] else []) ++
      (e.written? (.report j)).toList = if p = some j ∧ q'.reported then [q'.items] else []) :
    Books p n' (es ++ [e]) q' where
  of := hof
  bounded := hb
  items := hitems
  letters := by rw [filterMap_snoc, List.length_append, hB.letters, hletter]
  passed := by rw [filterMap_snoc, List.length_append, hB.passed, hpass]
  taken := by rw [filterMap_snoc, List.length_append, hB.taken, htake]
  copies_ge := by
    rw [filterMap_snoc, List.length_append]
    exact hge.trans (Nat.add_le_add_right hB.copies_ge _)
  copies_le := by
    rw [filterMap_snoc, List.length_append]
    exact (Nat.add_le_add_right hB.copies_le _).trans hle
  gathered := by
    rw [filterMap_snoc, filterMap_snoc, hB.gathered, List.flatten_append, List.append_assoc,
      List.append_assoc, hgather]
  words := by rw [filterMap_snoc, List.length_append, hB.words, hword]
  lengths := by
    rw [filterMap_snoc, List.flatten_append, List.length_append, hB.lengths, hlength]
  reports j := by rw [filterMap_snoc, hB.reports, hreport]

/-- The numbers of a place. -/
def Place.numbers (q : Place w) : Int × Nat × Nat × List Int × Bool :=
  (q.items, q.carried, q.copied, q.word, q.reported)

/-- The event is none that counts. -/
structure Idle (e : Seen w) : Prop where
  letter : letter? e = none
  word : word? e = none
  written : ∀ k, e.written? k = none
  pipe12 : e.taken? .pipe12 = none
  pipe23 : e.taken? .pipe23 = none

/-- Nothing that counts. -/
theorem Books.quiet {p : Option (Worker w)} {n : Nat} {es : List (Seen w)} {q q' : Place w}
    {e : Seen w} (hB : Books p n es q) (hof : q'.of p) (hb : q'.bounded)
    (hnumbers : q'.numbers = q.numbers) (he : Idle e) : Books p n (es ++ [e]) q' := by
  simp only [Place.numbers, Prod.mk.injEq] at hnumbers
  obtain ⟨hitems, hcarried, hcopied, hword, hreported⟩ := hnumbers
  refine hB.next hof hb (hitems.trans hB.items) ?_ ?_ ?_ ?_ ?_ ?_ ?_ ?_ fun j => ?_ <;>
    simp [hitems, hcarried, hcopied, hword, hreported, he.letter, he.word, he.written, he.pipe12,
      he.pipe23]

/-- One step of one process. -/
theorem Books.step {p : Option (Worker w)} {n : Nat} {es : List (Seen w)} {q q' : Place w}
    {e : Seen w} (hB : Books p n es q) (hG : ∀ k, e ≠ .epipe k) (h : (op p q).Goes e q') :
    ∃ n', Books p n' (es ++ [e]) q' := by
  have hof := op_keeps.still hB.of h
  have of := hB.of
  have hb := hB.bounded
  have hitems := hB.items
  have hone : ∀ {items : Int}, items = wrap32 n → wrap32 (items + 1) = wrap32 (n + 1 : Nat) := by
    rintro _ rfl
    rw [wrap32_add, Nat.cast_succ]
  cases q with
  | setup es' =>
      cases es' with
      | nil =>
          obtain ⟨rfl, rfl⟩ := h
          have hwork : (work p).bounded ∧ (work p).numbers = (0, 0, 0, [], false) := by
            obtain _ | ⟨_ | _ | _, i⟩ := p <;> exact ⟨by simp [work, Place.bounded], rfl⟩
          exact ⟨n, hB.quiet hof hwork.1 hwork.2 ⟨rfl, rfl, fun _ => rfl, rfl, rfl⟩⟩
      | cons f es' =>
          obtain ⟨rfl, rfl⟩ := h
          exact ⟨n, hB.quiet hof trivial rfl ⟨rfl, rfl, fun _ => rfl, rfl, rfl⟩⟩
  | openFifo =>
      obtain ⟨rfl, rfl⟩ := h
      exact ⟨n, hB.quiet hof trivial rfl ⟨rfl, rfl, fun _ => rfl, rfl, rfl⟩⟩
  | fifo items =>
      obtain ⟨i, rfl⟩ := of
      obtain ⟨a, l, ha, rfl⟩ := h
      rcases a with (_ | b) | r
      · cases ha
        exact ⟨n, hB.quiet hof (Nat.zero_le _) rfl ⟨rfl, rfl, fun _ => rfl, rfl, rfl⟩⟩
      · simp only [Option.some.injEq, Prod.mk.injEq] at ha
        obtain ⟨rfl, rfl⟩ := ha
        cases hl : isLetter b with
        | true =>
            rw [hl, if_pos rfl] at hof
            rw [if_pos rfl]
            have hletter : letter? (w := w) (.said (some (.byte b))) = some b := by
              simp [letter?, hl]
            exact ⟨n, hB.next hof trivial hitems (by rw [hletter]; rfl) rfl rfl le_rfl le_rfl rfl
              rfl rfl (fun j => by simp [Place.reported, Event.written?])⟩
        | false =>
            rw [hl] at hof
            exact ⟨n, hB.quiet hof trivial rfl
              ⟨by simp [letter?, hl], rfl, fun _ => rfl, rfl, rfl⟩⟩
      · cases ha
  | pass items letter =>
      obtain ⟨i, rfl⟩ := of
      obtain ⟨rfl, rfl⟩ | ⟨rfl, -⟩ := h
      · exact ⟨n + 1, hB.next hof trivial (hone hitems) rfl rfl rfl le_rfl le_rfl rfl rfl rfl
          (fun j => by simp [Place.reported, Event.written?])⟩
      · exact absurd rfl (hG _)
  | take items =>
      obtain ⟨i, rfl⟩ := of
      obtain ⟨c, rfl, rfl⟩ | ⟨rfl, rfl⟩ | ⟨-, h⟩ := h
      · exact ⟨n, hB.next hof trivial hitems rfl rfl rfl le_rfl le_rfl rfl rfl rfl
          (fun j => by simp [Place.reported, Event.written?])⟩
      · exact ⟨n, hB.quiet hof (Nat.zero_le _) rfl ⟨rfl, rfl, fun _ => rfl, rfl, rfl⟩⟩
      · cases h
  | choose items letter =>
      obtain ⟨a, l, ha, rfl⟩ := h
      cases a with
      | byte b => cases ha
      | random r =>
          cases ha
          have hb' : 1 ≤ r % 4 + 1 ∧ r % 4 + 1 ≤ 4 ∧ 0 ≤ r % 4 + 1 := by omega
          exact ⟨n, hB.quiet hof hb' rfl ⟨rfl, rfl, fun _ => rfl, rfl, rfl⟩⟩
  | copy items letter copies i =>
      obtain ⟨j, rfl⟩ := of
      obtain ⟨hpos, hfour, hi⟩ := hb
      simp only [op] at h
      split at h
      · obtain ⟨rfl, rfl⟩ | ⟨rfl, -⟩ := h
        · exact ⟨n, hB.next hof ⟨hpos, hfour, ‹_›⟩ hitems rfl rfl rfl le_rfl le_rfl rfl rfl rfl
            (fun j => by simp [Place.reported, Event.written?])⟩
        · exact absurd rfl (hG _)
      · -- all copies are made, and the letter counts
        obtain ⟨rfl, rfl⟩ := h
        have hge : n + 1 ≤ n + i := by omega
        have hle : 4 * n + i ≤ 4 * (n + 1) := by omega
        exact ⟨n + 1, hB.next hof trivial (hone hitems) rfl rfl rfl hge hle rfl rfl rfl
          (fun j => by simp [Place.reported, Event.written?])⟩
  | gather items word =>
      obtain ⟨i, rfl⟩ := of
      obtain ⟨c, rfl, rfl⟩ | ⟨rfl, rfl⟩ | ⟨-, h⟩ := h
      · dsimp only at hof ⊢
        have hlen : word.length ≤ 4 := hb
        split
        · rw [if_pos ‹_›] at hof
          exact ⟨n, hB.next hof ‹_› hitems rfl rfl rfl le_rfl le_rfl rfl rfl rfl
            (fun j => by simp [Place.reported, Event.written?])⟩
        · rw [if_neg ‹_›] at hof
          have hb' : (word ++ [c]).length ≤ 4 := by simp_all; omega
          exact ⟨n, hB.next hof hb' hitems rfl rfl rfl le_rfl le_rfl rfl rfl rfl
            (fun j => by simp [Place.reported, Event.written?])⟩
      · exact ⟨n, hB.quiet hof hb rfl ⟨rfl, rfl, fun _ => rfl, rfl, rfl⟩⟩
      · cases h
  | assemble items word =>
      obtain ⟨i, rfl⟩ := of
      obtain ⟨rfl, rfl⟩ := h
      have hlen : word.length = 5 := hb
      refine ⟨n + 1, hB.next hof (Nat.zero_le _) (hone hitems) rfl rfl rfl le_rfl le_rfl ?_ rfl ?_
        (fun j => by simp [Place.reported, Event.written?])⟩
      · simp [Place.word, word?, Event.taken?]
      · simp [share, word?, hlen]
        omega
  | report items left =>
      obtain ⟨k, rfl⟩ := of
      obtain ⟨rfl, rfl⟩ | ⟨rfl, -⟩ := h
      · refine ⟨n, hB.next hof hb hitems rfl rfl rfl le_rfl le_rfl
          (by simp [Event.taken?, word?, Place.word]) rfl rfl fun j => ?_⟩
        by_cases hj : k = j
        · subst hj; simp [Place.reported, Event.written?, Place.items]
        · simp [Place.reported, Event.written?, hj]
      · exact absurd rfl (hG _)
  | leave items left =>
      obtain ⟨rfl, rfl⟩ := h
      exact ⟨n, hB.quiet hof hb rfl ⟨rfl, rfl, fun _ => rfl, rfl, rfl⟩⟩
  | waiting | next k rest =>
      obtain ⟨rfl, rfl⟩ := h
      exact ⟨n, hB.quiet hof trivial rfl ⟨rfl, rfl, fun _ => rfl, rfl, rfl⟩⟩
  | collect rest =>
      cases rest with
      | nil =>
          obtain ⟨rfl, rfl⟩ := h
          exact ⟨n, hB.quiet hof trivial rfl ⟨rfl, rfl, fun _ => rfl, rfl, rfl⟩⟩
      | cons k rest =>
          obtain ⟨c, rfl, rfl⟩ | ⟨rfl, rfl⟩ | ⟨-, h⟩ := h
          · exact ⟨n, hB.quiet hof trivial rfl ⟨rfl, rfl, fun _ => rfl, rfl, rfl⟩⟩
          · exact ⟨n, hB.quiet hof trivial rfl ⟨rfl, rfl, fun _ => rfl, rfl, rfl⟩⟩
          · cases h
  | summary k items rest =>
      obtain ⟨rfl, rfl⟩ := h
      exact ⟨n, hB.quiet hof trivial rfl ⟨rfl, rfl, fun _ => rfl, rfl, rfl⟩⟩
  | gone items left | done => exact h.elim

variable {cap : Nat} {s : State w} {tr : List (Move (State w) (Option (Worker w) × Seen w))}

/-- **The books of a run.** -/
theorem books (r : Run (Step cap) (begin w) tr s) (hG : ∀ m ∈ tr, ∀ k, m.label.2 ≠ .epipe k)
    (p : Option (Worker w)) : ∃ n, Books p n (events p tr) (s.pc p) :=
  locally (J := fun p es q => ∃ n, Books p n es q) (G := fun _ e => ∀ k, e ≠ .epipe k)
    (fun ⟨_, hB⟩ hG h => hB.step hG h) r (fun p => ⟨0, books_start _ (tidy_begin.ok p)⟩) hG p

/-! ### The reports -/

/-- What the boss has read of a report, or seen of its end, and what it has shown of them. -/
structure Collected (es : List (Seen w)) (ks : List (Worker w)) : Prop where
  shown : es.filterMap report? =
    ks.flatMap fun k => (es.filterMap (Event.taken? (.report k))).map (k, ·)
  read : ∀ k ∈ ks, es.filterMap (Event.taken? (.report k)) ≠ [] ∨ Event.eof (.report k) ∈ es

/-- What the boss has done with the reports at a place. -/
def Ledger (es : List (Seen w)) : Place w → Prop
  | .setup _ | .waiting => es.filterMap report? = [] ∧
      ∀ j, es.filterMap (Event.taken? (.report j)) = []
  | .collect rest => ∃ ks, ks ++ rest = workers w ∧ Collected es ks ∧
      ∀ j ∈ rest, es.filterMap (Event.taken? (.report j)) = []
  | .summary k items rest => ∃ ks, ks ++ k :: rest = workers w ∧ Collected es ks ∧
      es.filterMap (Event.taken? (.report k)) = [items] ∧
      ∀ j ∈ rest, es.filterMap (Event.taken? (.report j)) = []
  | .next k rest => ∃ ks, ks ++ k :: rest = workers w ∧ Collected es (ks ++ [k]) ∧
      ∀ j ∈ rest, es.filterMap (Event.taken? (.report j)) = []
  | .done => Collected es (workers w)
  | _ => True

variable {es : List (Seen w)} {e : Seen w} {ks : List (Worker w)} {k : Worker w}

/-- Nothing of these reports. -/
theorem Collected.snoc (h : Collected es ks) (hshown : report? e = none)
    (hread : ∀ k ∈ ks, e.taken? (.report k) = none) : Collected (es ++ [e]) ks where
  shown := by
    rw [filterMap_snoc, hshown, Option.toList_none, List.append_nil, h.shown]
    refine List.flatMap_congr fun k hk => ?_
    rw [filterMap_snoc, hread k hk, Option.toList_none, List.append_nil]
  read k hk := by
    rw [filterMap_snoc, hread k hk, Option.toList_none, List.append_nil]
    exact (h.read k hk).imp id (List.mem_append_left _)

/-- One more report is shown. -/
theorem Collected.show {items : Int} (h : Collected es ks)
    (hk : es.filterMap (Event.taken? (.report k)) = [items]) :
    Collected (es ++ [.said (some (.report k items))]) (ks ++ [k]) where
  shown := by
    rw [filterMap_snoc, h.shown, List.flatMap_append]
    congr 1
    · refine List.flatMap_congr fun j hj => ?_
      rw [filterMap_snoc]
      simp [Event.taken?]
    · rw [List.flatMap_singleton, filterMap_snoc, hk]
      simp [Event.taken?, report?]
  read j hj := by
    rw [filterMap_snoc]
    rcases List.mem_append.mp hj with hj | hj
    · refine (h.read j hj).imp (fun hne => ?_) (List.mem_append_left _)
      simpa [Event.taken?] using hne
    · obtain rfl := List.mem_singleton.mp hj
      rw [hk]
      exact .inl (by simp)

/-- A report that ends before it has begun. -/
theorem Collected.miss (h : Collected es ks)
    (hk : es.filterMap (Event.taken? (.report k)) = []) :
    Collected (es ++ [.eof (.report k)]) (ks ++ [k]) where
  shown := by
    rw [filterMap_snoc, h.shown, List.flatMap_append]
    have hsame : ∀ j : Worker w, (es ++ [Event.eof (Pipe.report k)]).filterMap
        (Event.taken? (Pipe.report j)) = es.filterMap (Event.taken? (Pipe.report j)) := by
      intro j
      rw [filterMap_snoc]
      simp [Event.taken?]
    rw [List.flatMap_singleton, hsame, hk, List.map_nil, List.append_nil]
    simp only [hsame, report?, Option.toList_none, List.append_nil]
  read j hj := by
    rw [filterMap_snoc]
    rcases List.mem_append.mp hj with hj | hj
    · refine (h.read j hj).imp (fun hne => ?_) (List.mem_append_left _)
      simpa [Event.taken?] using hne
    · obtain rfl := List.mem_singleton.mp hj
      exact .inr (by simp)

/-- One step of the boss. -/
theorem Ledger.step {q q' : Place w} (hof : q.of none) (hL : Ledger es q)
    (h : (op none q).Goes e q') : Ledger (es ++ [e]) q' := by
  -- a step that has nothing to do with the reports
  have quiet : ∀ {j : Worker w}, es.filterMap (Event.taken? (Pipe.report j)) = [] →
      (es ++ [Event.said none]).filterMap (Event.taken? (Pipe.report j)) = [] := by
    intro j hj
    rw [filterMap_snoc, hj]
    rfl
  cases q with
  | setup fs =>
      have hshown : (es ++ [Event.said none]).filterMap report? = [] := by
        rw [filterMap_snoc, hL.1]
        rfl
      cases fs <;> (obtain ⟨rfl, rfl⟩ := h; exact ⟨hshown, fun j => quiet (hL.2 j)⟩)
  | waiting =>
      obtain ⟨rfl, rfl⟩ := h
      refine ⟨[], rfl, ⟨?_, nofun⟩, fun j _ => quiet (hL.2 j)⟩
      rw [filterMap_snoc, hL.1]
      rfl
  | collect rest =>
      obtain ⟨ks, hks, hC, hrest⟩ := hL
      cases rest with
      | nil =>
          obtain ⟨rfl, rfl⟩ := h
          rw [List.append_nil] at hks
          subst hks
          exact hC.snoc rfl fun _ _ => rfl
      | cons k rest =>
          have hnodup := nodup_workers (w := w)
          rw [← hks, List.nodup_append] at hnodup
          obtain ⟨-, hnodup, hapart⟩ := hnodup
          obtain ⟨c, rfl, rfl⟩ | ⟨rfl, rfl⟩ | ⟨-, h⟩ := h
          · refine ⟨ks, hks, hC.snoc rfl fun j hj => ?_, ?_, fun j hj => ?_⟩
            · have hne : k ≠ j := fun h => hapart j hj k (List.mem_cons_self ..) h.symm
              simp [Event.taken?, hne]
            · rw [filterMap_snoc, hrest k (List.mem_cons_self ..)]
              simp [Event.taken?]
            · have hne : k ≠ j := fun h => (List.nodup_cons.mp hnodup).1 (h ▸ hj)
              rw [filterMap_snoc, hrest j (List.mem_cons_of_mem _ hj)]
              simp [Event.taken?, hne]
          · refine ⟨ks, hks, hC.miss (hrest k (List.mem_cons_self ..)), fun j hj => ?_⟩
            rw [filterMap_snoc, hrest j (List.mem_cons_of_mem _ hj)]
            rfl
          · cases h
  | summary k items rest =>
      obtain ⟨rfl, rfl⟩ := h
      obtain ⟨ks, hks, hC, hk, hrest⟩ := hL
      refine ⟨ks, hks, hC.show hk, fun j hj => ?_⟩
      rw [filterMap_snoc, hrest j hj]
      rfl
  | next k rest =>
      obtain ⟨rfl, rfl⟩ := h
      obtain ⟨ks, hks, hC, hrest⟩ := hL
      refine ⟨ks ++ [k], by rw [List.append_assoc]; exact hks, hC.snoc rfl fun _ _ => rfl,
        fun j hj => quiet (hrest j hj)⟩
  | done => exact h.elim
  | openFifo | fifo | pass | take | choose | copy | gather | assemble =>
      obtain ⟨i, hi⟩ := hof
      cases hi
  | report | leave | gone =>
      obtain ⟨k, hk⟩ := hof
      cases hk

/-- **The reports of a run.** -/
theorem ledger (r : Run (Step cap) (begin w) tr s) : Ledger (events none tr) (s.pc none) := by
  have h := locally (J := fun p es q => q.of p ∧ (p = none → Ledger es q)) (G := fun _ _ => True)
    (fun {p es q e q'} hJ _ h =>
      ⟨op_keeps.still hJ.1 h, fun hp => by subst hp; exact (hJ.2 rfl).step hJ.1 h⟩) r
    (fun p => ⟨tidy_begin.ok p, fun hp => by subst hp; exact ⟨rfl, fun _ => rfl⟩⟩)
    (fun _ _ => trivial) none
  exact h.2 rfl

/-! ### The whole shift -/

/-- The letters that the FIFO gave. -/
def letters (tr : List (Move (State w) (Option (Worker w) × Seen w))) : List UInt8 :=
  tr.filterMap fun m => letter? m.label.2

/-- The words that were assembled. -/
def assembled (tr : List (Move (State w) (Option (Worker w) × Seen w))) : List (List Int) :=
  tr.filterMap fun m => word? m.label.2

/-- The reports that the boss has shown. -/
def reports (tr : List (Move (State w) (Option (Worker w) × Seen w))) : List (Worker w × Int) :=
  tr.filterMap fun m => report? m.label.2

/-- What the reports of a brigade add up to. -/
def reported (b : Brigade) (tr : List (Move (State w) (Option (Worker w) × Seen w))) : Int :=
  ((reports tr).map fun r => if r.1.1 = b then r.2 else 0).sum

/-- How many items a worker has handled: letters that it has passed on, or taken, or words. -/
def handled (k : Worker w) (tr : List (Move (State w) (Option (Worker w) × Seen w))) : Nat :=
  match k.1 with
  | .first => ((events (some k) tr).filterMap (Event.written? .pipe12)).length
  | .second => ((events (some k) tr).filterMap (Event.taken? .pipe12)).length
  | .third => ((events (some k) tr).filterMap word?).length

/-- The letters that are left in unfinished words. -/
def unfinished (s : State w) : Nat :=
  ∑ i : Fin (w .third), (s.pc (some ⟨.third, i⟩)).word.length

theorem sum_share (b : Brigade) (f : Option (Worker w) → Nat) :
    ∑ p, share b p (f p) = ∑ i : Fin (w b), f (some ⟨b, i⟩) := by
  rw [Fintype.sum_option, Fintype.sum_sigma, Finset.sum_eq_single b]
  · simp [share]
  · intro c _ hc
    simp [share, hc]
  · simp

/-- Only the boss shows and reads reports. -/
theorem worker_sees {q q' : Place w} (hof : q.of (some k)) (h : (op (some k) q).Goes e q') :
    report? e = none ∧ ∀ j, e.taken? (.report j) = none := by
  cases q with
  | setup fs => cases fs <;> (obtain ⟨rfl, rfl⟩ := h; exact ⟨rfl, fun _ => rfl⟩)
  | openFifo | assemble | leave => obtain ⟨rfl, rfl⟩ := h; exact ⟨rfl, fun _ => rfl⟩
  | fifo items =>
      obtain ⟨a, l, ha, rfl⟩ := h
      rcases a with (_ | b) | r
      · cases ha; exact ⟨rfl, fun _ => rfl⟩
      · simp only [Option.some.injEq, Prod.mk.injEq] at ha
        obtain ⟨rfl, -⟩ := ha
        exact ⟨rfl, fun _ => rfl⟩
      · cases ha
  | choose items letter =>
      obtain ⟨a, l, ha, rfl⟩ := h
      cases a <;> cases ha
      exact ⟨rfl, fun _ => rfl⟩
  | pass | report => obtain ⟨rfl, -⟩ | ⟨rfl, -⟩ := h <;> exact ⟨rfl, fun _ => rfl⟩
  | copy items letter copies i =>
      simp only [op] at h
      split at h
      · obtain ⟨rfl, -⟩ | ⟨rfl, -⟩ := h <;> exact ⟨rfl, fun _ => rfl⟩
      · obtain ⟨rfl, -⟩ := h
        exact ⟨rfl, fun _ => rfl⟩
  | take | gather =>
      obtain ⟨c, rfl, -⟩ | ⟨rfl, -⟩ | ⟨-, h⟩ := h
      · exact ⟨rfl, fun j => by simp [Event.taken?]⟩
      · exact ⟨rfl, fun _ => rfl⟩
      · cases h
  | collect | summary | next => cases hof.1
  | waiting | done => cases hof
  | gone => exact h.elim

theorem workers_see (r : Run (Step cap) (begin w) tr s) (k : Worker w) :
    ∀ e ∈ events (some k) tr, report? e = none ∧ ∀ j, e.taken? (.report j) = none := by
  have h := locally (J := fun p es q => q.of p ∧
      (p ≠ none → ∀ e ∈ es, report? e = none ∧ ∀ j, e.taken? (.report j) = none))
    (G := fun _ _ => True) (fun {p es q e q'} hJ _ h => ⟨op_keeps.still hJ.1 h, fun hp => ?_⟩) r
    (fun p => ⟨tidy_begin.ok p, fun _ => nofun⟩) (fun _ _ => trivial) (some k)
  · exact h.2 nofun
  · obtain ⟨k, rfl⟩ := Option.ne_none_iff_exists'.mp hp
    exact forall_mem_snoc (hJ.2 hp) (worker_sees hJ.1 h)

/-- What a worker reports, once it is gone. -/
theorem written_report (r : Run (Step cap) (begin w) tr s)
    (hG : ∀ m ∈ tr, ∀ k, m.label.2 ≠ .epipe k) {items : Int} {left : List Int}
    (hk : s.pc (some k) = .gone items left) : written (.report k) tr = [items] := by
  have honly := filterMap_of_only (p := some k) (Event.written? (Pipe.report k))
    fun p hp e he => by
      obtain ⟨n, hB⟩ := books r hG p
      have hnone := hB.reports k
      rw [if_neg fun h => hp h.1] at hnone
      exact List.filterMap_eq_nil_iff.mp hnone e he
  obtain ⟨n, hB⟩ := books r hG (some k)
  rw [written, honly, hB.reports k, hk, if_pos ⟨rfl, rfl⟩]
  rfl

/-- What a worker has counted when it has nothing in hand. -/
theorem Books.handled {n : Nat} {q : Place w} (hB : Books (some k) n (events (some k) tr) q)
    (hidle : q.carried = 0) : Factory.handled k tr = n := by
  obtain ⟨b, i⟩ := k
  have hpassed := hB.passed
  have htaken := hB.taken
  have hwords := hB.words
  rw [hidle, Nat.add_zero] at htaken
  cases b with
  | first => exact hpassed
  | second => exact htaken
  | third => exact hwords

theorem mul_share (b : Brigade) (p : Option (Worker w)) (c n : Nat) :
    share b p (c * n) = c * share b p n := by
  cases p with
  | none => rfl
  | some k => simp only [share]; split <;> rfl

theorem length_share (b : Brigade) (p : Option (Worker w)) (word : List Int) :
    (if p.any (·.1 = b) then word else []).length = share b p word.length := by
  cases p with
  | none => rfl
  | some k => by_cases hk : k.1 = b <;> simp [share, hk]

/-- The letters of words, in any order. -/
theorem flatten_sum {ι : Type*} (t : Finset ι) (f : ι → List (List Int)) (l : List (List Int))
    (h : (l : Multiset (List Int)) = ∑ p ∈ t, (f p : Multiset (List Int))) :
    (l.flatten : Multiset Int) = ∑ p ∈ t, ((f p).flatten : Multiset Int) := by
  let φ : Multiset (List Int) →+ Multiset Int :=
    Multiset.sumAddMonoidHom.comp (Multiset.mapAddMonoidHom fun word => (word : Multiset Int))
  have hφ : ∀ l : List (List Int), φ l = (l.flatten : Multiset Int) := fun l =>
    Multiset.coe_join l
  rw [← hφ, h, map_sum]
  exact Finset.sum_congr rfl fun p _ => hφ (f p)

/-- The boss shows what the workers have counted. -/
theorem reports_eq (r : Run (Step cap) (begin w) tr s)
    (hG : ∀ m ∈ tr, ∀ k, m.label.2 ≠ .epipe k) (hend : s.pc none = .done)
    (hgone : ∀ k, ∃ items left, s.pc (some k) = .gone items left) :
    reports tr = (workers w).map fun k => (k, (s.pc (some k)).items) := by
  have hL := ledger r
  rw [hend] at hL
  have only : ∀ {α : Type} (f : Seen w → Option α),
      (∀ k, ∀ e ∈ events (some k) tr, f e = none) →
      (tr.filterMap fun m => f m.label.2) = (events none tr).filterMap f := by
    intro α f hf
    refine filterMap_of_only f fun p hp e he => ?_
    obtain ⟨k, rfl⟩ := Option.ne_none_iff_exists'.mp hp
    exact hf k e he
  have hread : ∀ k, (events none tr).filterMap (Event.taken? (.report k)) =
      [(s.pc (some k)).items] := by
    intro k
    obtain ⟨items, left, hk⟩ := hgone k
    have hlaw := pipe_law r (fun _ => rfl) (.report k)
    rw [written_report r hG hk, taken, only _ fun j e he => (workers_see r j e he).2 k] at hlaw
    rw [hk]
    rcases hL.read k (mem_workers k) with hne | heof
    · exact ((List.append_eq_singleton_iff.mp hlaw.symm).resolve_left fun h => hne h.1).1
    · rw [(ended_of_eof op_keeps tidy_begin r heof).1, List.append_nil] at hlaw
      exact hlaw.symm
  rw [reports, only _ fun j e he => (workers_see r j e he).1, hL.shown]
  simp only [hread, List.map_cons, List.map_nil]
  exact List.flatMap_pure_eq_map ..

/-- What a brigade reports. -/
theorem reported_eq (b : Brigade)
    (h : reports tr = (workers w).map fun k => (k, (s.pc (some k)).items)) :
    reported b tr = ∑ i : Fin (w b), (s.pc (some ⟨b, i⟩)).items := by
  have huniv : (workers w).toFinset = Finset.univ :=
    Finset.eq_univ_of_forall fun k => List.mem_toFinset.mpr (mem_workers k)
  rw [reported, h, List.map_map, ← List.sum_toFinset _ nodup_workers, huniv, Fintype.sum_sigma,
    Finset.sum_eq_single b]
  · simp
  · intro c _ hc
    simp [hc]
  · simp

/-- How many items a brigade has handled. -/
def handledBy (b : Brigade) (tr : List (Move (State w) (Option (Worker w) × Seen w))) : Nat :=
  ∑ i : Fin (w b), handled ⟨b, i⟩ tr

section
variable (h₂ : 0 < w .second) (h₃ : 0 < w .third) (r : Run (Step cap) (begin w) tr s)
  (hend : s.pc none = .done)
include h₂ h₃ r hend

/-- At the end all workers are gone, with what they have handled as the number to report. -/
theorem all_gone (k : Worker w) :
    ∃ left, s.pc (some k) = .gone (wrap32 (handled k tr)) left ∧ left.length ≤ 4 := by
  obtain ⟨items, left, hpc⟩ := (waited r).resolve_left (by rw [hend]; nofun) k
  obtain ⟨n, hB⟩ := books r (no_epipe h₂ h₃ r) (some k)
  rw [hpc] at hB
  rw [hB.handled rfl]
  obtain rfl : items = wrap32 n := hB.items
  exact ⟨left, hpc, hB.bounded⟩

/-- **No letter is lost on the way**, whatever the reports say of it. -/
theorem handled_law :
    handledBy .first tr = (letters tr).length ∧ handledBy .second tr = (letters tr).length ∧
      5 * handledBy .third tr + unfinished s = (written .pipe23 tr).length ∧
      handledBy .second tr ≤ (written .pipe23 tr).length ∧
      (written .pipe23 tr).length ≤ 4 * handledBy .second tr ∧
      ((assembled tr).flatten : Multiset Int) ≤ written .pipe23 tr := by
  have hG := no_epipe h₂ h₃ r
  have hgone := all_gone h₂ h₃ r hend
  choose n hB using books r hG
  -- the pipes between the brigades are empty
  have drained : ∀ k p, source p = some k → (s.pc p).past = true →
      written k tr = taken k tr := by
    intro k p hk hp
    have hempty := (ended_of_eof op_keeps tidy_begin r (eof_of_past r hG hp hk)).1
    have hlaw := pipe_law r (fun _ => rfl) k
    rwa [hempty, List.append_nil] at hlaw
  have h12 : written .pipe12 tr = taken .pipe12 tr := by
    obtain ⟨left, hpc, -⟩ := hgone ⟨.second, 0, h₂⟩
    exact drained _ (some ⟨.second, 0, h₂⟩) rfl (by rw [hpc]; rfl)
  have h23 : written .pipe23 tr = taken .pipe23 tr := by
    obtain ⟨left, hpc, -⟩ := hgone ⟨.third, 0, h₃⟩
    exact drained _ (some ⟨.third, 0, h₃⟩) rfl (by rw [hpc]; rfl)
  -- nobody has a letter in hand
  have hidle : ∀ p, (s.pc p).carried = 0 ∧ (s.pc p).copied = 0 := by
    intro p
    obtain _ | k := p
    · rw [hend]
      exact ⟨rfl, rfl⟩
    · obtain ⟨left, hpc, -⟩ := hgone k
      rw [hpc]
      exact ⟨rfl, rfl⟩
  have hhandled : ∀ b, handledBy b tr = ∑ p, share b p (n p) := by
    intro b
    rw [sum_share b n]
    exact Finset.sum_congr rfl fun i _ => (hB (some ⟨b, i⟩)).handled (hidle _).1
  have hletters : (letters tr).length = handledBy .first tr := by
    rw [hhandled, letters, length_events letter? r]
    refine Finset.sum_congr rfl fun p _ => ?_
    rw [(hB p).letters, (hidle p).1, Nat.add_zero]
  have hpassed : handledBy .first tr = handledBy .second tr := by
    rw [hhandled, hhandled]
    calc ∑ p, share .first p (n p)
        = (written .pipe12 tr).length := by
          rw [written, length_events _ r]
          exact Finset.sum_congr rfl fun p _ => (hB p).passed.symm
      _ = (taken .pipe12 tr).length := by rw [h12]
      _ = ∑ p, share .second p (n p) := by
          rw [taken, length_events _ r]
          refine Finset.sum_congr rfl fun p _ => ?_
          rw [(hB p).taken, (hidle p).1, Nat.add_zero]
  have hgathered : (written .pipe23 tr).length = 5 * handledBy .third tr + unfinished s := by
    rw [h23, taken, length_events _ r, hhandled, Finset.mul_sum, unfinished,
      ← sum_share .third fun p => (s.pc p).word.length, ← Finset.sum_add_distrib]
    refine Finset.sum_congr rfl fun p _ => ?_
    rw [(hB p).gathered, List.length_append, (hB p).lengths, mul_share, length_share]
  have hassembled : ((assembled tr).flatten : Multiset Int) =
      ∑ p, (((events p tr).filterMap word?).flatten : Multiset Int) :=
    flatten_sum _ _ _ (sum_events word? r)
  refine ⟨hletters.symm, (hletters.trans hpassed).symm, hgathered.symm, ?_, ?_, ?_⟩
  · rw [hhandled, written, length_events _ r]
    refine Finset.sum_le_sum fun p _ => ?_
    have hge := (hB p).copies_ge
    rwa [(hidle p).2, Nat.add_zero] at hge
  · rw [hhandled, written, length_events _ r, Finset.mul_sum]
    refine Finset.sum_le_sum fun p _ => ?_
    have hle := (hB p).copies_le
    rwa [(hidle p).2, Nat.add_zero, mul_share] at hle
  · rw [hassembled, h23, taken, sum_events _ r]
    refine Finset.sum_le_sum fun p _ => ?_
    rw [(hB p).gathered, ← Multiset.coe_add]
    exact Multiset.le_add_right ..

/-- What the brigades report, as long as every worker could count. -/
theorem reported_handled (hint : ∀ k, handled k tr ≤ 2147483647) (b : Brigade) :
    reported b tr = handledBy b tr := by
  have hG := no_epipe h₂ h₃ r
  have hgone := (waited r).resolve_left (by rw [hend]; nofun)
  rw [reported_eq b (reports_eq r hG hend hgone), handledBy, Nat.cast_sum]
  refine Finset.sum_congr rfl fun i _ => ?_
  obtain ⟨left, hpc, -⟩ := all_gone h₂ h₃ r hend ⟨b, i⟩
  rw [hpc, Place.items, wrap32_natCast (hint _)]

/-- **Conservation.**  In every run that ends, whatever the FIFO gives and however many copies are
made: each worker reports once, what an `int` holds of the number of items that it has handled;
the unfinished words are short, and the letters of the words are copies that were made.  If no
worker handled more items than an `int` can count: the first and the second brigade report the
letters that the FIFO gave; the words and what is left of them are the copies, of which there are
one to four of each letter. -/
theorem conservation :
    (reports tr).map Prod.fst = workers w ∧
      (∀ k, written (.report k) tr = [wrap32 (handled k tr)]) ∧
      (∀ i, (s.pc (some ⟨.third, i⟩)).word.length ≤ 4) ∧
      ((assembled tr).flatten : Multiset Int) ≤ written .pipe23 tr ∧
      ((∀ k, handled k tr ≤ 2147483647) →
        reported .first tr = (letters tr).length ∧ reported .second tr = (letters tr).length ∧
        5 * reported .third tr + unfinished s = (written .pipe23 tr).length ∧
        reported .second tr ≤ (written .pipe23 tr).length ∧
        (written .pipe23 tr).length ≤ 4 * reported .second tr) := by
  have hG := no_epipe h₂ h₃ r
  have hgone := all_gone h₂ h₃ r hend
  obtain ⟨hfirst, hsecond, hthird, hge, hle, hwords⟩ := handled_law h₂ h₃ r hend
  refine ⟨?_, fun k => ?_, fun i => ?_, hwords, fun hint => ?_⟩
  · rw [reports_eq r hG hend ((waited r).resolve_left (by rw [hend]; nofun)), List.map_map]
    exact List.map_id _
  · obtain ⟨left, hpc, -⟩ := hgone k
    exact written_report r hG hpc
  · obtain ⟨left, hpc, hleft⟩ := hgone ⟨.third, i⟩
    rw [hpc]
    exact hleft
  · simp only [reported_handled h₂ h₃ r hend hint]
    refine ⟨?_, ?_, ?_, ?_, ?_⟩ <;> norm_cast

end

/-! ### A word and a letter -/

/-- Two workers in each brigade. -/
abbrev two : Brigade → Nat := fun _ => 2

/-- The FIFO gives `ab`; the second brigade makes four copies of the `a` and two of the `b`, the
last of them once the third has made room for it. -/
def wordAndLetter : List (Option (Worker two) × Option Answer) :=
  let works (b : Brigade) (i : Fin 2) (n : Nat) : List (Option (Worker two) × Option Answer) :=
    quiet (some ⟨b, i⟩) n
  let asks (b : Brigade) (i : Fin 2) (a : Answer) : List (Option (Worker two) × Option Answer) :=
    [(some ⟨b, i⟩, some a)]
  works .first 0 16 ++ works .first 1 16 ++ works .second 0 14 ++ works .second 1 14 ++
    works .third 0 15 ++ works .third 1 15 ++ quiet none 11 ++
    asks .first 0 (.byte (some 97)) ++ works .first 0 1 ++
    asks .first 1 (.byte (some 98)) ++ works .first 1 1 ++
    asks .first 0 (.byte none) ++ works .first 0 2 ++
    asks .first 1 (.byte none) ++ works .first 1 2 ++
    works .second 0 1 ++ asks .second 0 (.random 3) ++ works .second 0 5 ++
    works .second 1 1 ++ asks .second 1 (.random 1) ++ works .second 1 1 ++
    works .third 0 4 ++ works .third 1 1 ++ works .second 1 2 ++ works .third 0 2 ++
    works .second 0 3 ++ works .second 1 3 ++ works .third 0 3 ++ works .third 1 3 ++
    quiet none 20

theorem wordAndLetter_run : ∃ (tr : List (Move (State two) (Option (Worker two) × Seen two)))
    (s : State two), Run (Step 5) (begin two) tr s ∧ s.pc none = .done ∧
      (letters tr).length = 2 ∧ assembled tr = [[97, 97, 97, 97, 98]] ∧ unfinished s = 1 := by
  have hplay : (play 5 op (begin two) wordAndLetter).map (fun x => (decide (x.2.pc none = .done),
      (x.1.filterMap fun l => letter? l.2).length, x.1.filterMap fun l => word? l.2,
      unfinished x.2)) = some (true, 2, [[97, 97, 97, 97, 98]], 1) := by
    decide +kernel
  obtain ⟨tr, t, r, h⟩ := play_map hplay
  simp only [Prod.mk.injEq, decide_eq_true_eq, List.filterMap_map] at h
  exact ⟨tr, t, r, h.1, h.2.1, h.2.2.1, h.2.2.2⟩

theorem handled_le (k : Worker w) : handled k tr ≤ handledBy k.1 tr :=
  Finset.single_le_sum (f := fun i => handled ⟨k.1, i⟩ tr) (fun _ _ => Nat.zero_le _)
    (Finset.mem_univ k.2)

theorem conservation_wordAndLetter :
    ∃ (tr : List (Move (State two) (Option (Worker two) × Seen two))) (s : State two),
      assembled tr = [[97, 97, 97, 97, 98]] ∧ unfinished s = 1 ∧ reported .first tr = 2 ∧
        reported .second tr = 2 ∧ 5 * reported .third tr + 1 = (written .pipe23 tr).length ∧
        ((assembled tr).flatten : Multiset Int) ≤ written .pipe23 tr := by
  obtain ⟨tr, s, r, hend, hletters, hword, hleft⟩ := wordAndLetter_run
  obtain ⟨-, -, -, hwords, hreports⟩ := conservation (by decide) (by decide) r hend
  have hint : ∀ k, handled k tr ≤ 2147483647 := by
    intro k
    obtain ⟨hfirst, hsecond, hthird, -, hle, -⟩ := handled_law (by decide) (by decide) r hend
    refine (handled_le k).trans ?_
    obtain ⟨b, i⟩ := k
    cases b with
    | first | second | third => dsimp only; omega
  obtain ⟨hfirst, hsecond, hthird, -⟩ := hreports hint
  rw [hletters] at hfirst hsecond
  rw [hleft] at hthird
  exact ⟨tr, s, hword, hleft, hfirst, hsecond, hthird, hwords⟩

/-! ### Two billion letters -/

/-- One worker in each brigade. -/
abbrev one : Brigade → Nat := fun _ => 1

/-- Nothing is in the pipes; the first two workers have counted `items` letters, and the third has
made `words` words, with no letter left. -/
def awaiting (items words : Int) : State one where
  pipes := ⟨fun _ => [], fun p k => own p (.read k), fun p k => own p (.write k)⟩
  pc
    | none => .waiting
    | some ⟨.first, _⟩ => .fifo items
    | some ⟨.second, _⟩ => .take items
    | some ⟨.third, _⟩ => .gather words []

/-- A state is known by its pipes and its processes. -/
theorem eq_awaiting {s : State one} {items words : Int} (hc : ∀ k, s.pipes.content k = [])
    (hr : ∀ p k, s.pipes.reads p k = own p (.read k))
    (hw : ∀ p k, s.pipes.writes p k = own p (.write k)) (hboss : s.pc none = .waiting)
    (hfirst : s.pc (some ⟨.first, 0⟩) = .fifo items)
    (hsecond : s.pc (some ⟨.second, 0⟩) = .take items)
    (hthird : s.pc (some ⟨.third, 0⟩) = .gather words []) : s = awaiting items words := by
  obtain ⟨⟨content, reads, writes⟩, pc⟩ := s
  obtain rfl : content = fun _ => [] := funext hc
  obtain rfl : reads = fun p k => own p (.read k) := funext fun p => funext (hr p)
  obtain rfl : writes = fun p k => own p (.write k) := funext fun p => funext (hw p)
  refine congrArg _ (funext fun p => ?_)
  obtain _ | ⟨b, i⟩ := p
  · exact hboss
  · obtain rfl : i = 0 := Subsingleton.elim (α := Fin 1) i 0
    cases b with
    | first => exact hfirst
    | second => exact hsecond
    | third => exact hthird

/-- The brigade's only worker takes its turns. -/
def turns (b : Brigade) (n : Nat) : List (Option (Worker one) × Option Answer) :=
  quiet (some ⟨b, 0⟩) n

/-- The FIFO gives an `a`, and the second brigade makes one copy of it. -/
def oneLetter : List (Option (Worker one) × Option Answer) :=
  (some ⟨.first, 0⟩, some (.byte (some 97))) :: turns .first 1 ++ turns .second 1 ++
    (some ⟨.second, 0⟩, some (.random 0)) :: turns .second 2 ++ turns .third 1

/-- Five letters make a word, and everybody waits again. -/
theorem awaiting_word (items words : Int) : ∃ tr items' words',
    Run (Step 5) (awaiting items words) tr (awaiting items' words') ∧ (letters tr).length = 5 := by
  have hplay : ∃ es s items' words', play 5 op (awaiting items words)
      (oneLetter ++ oneLetter ++ oneLetter ++ oneLetter ++ oneLetter ++ turns .third 1) =
        some (es, s) ∧ s = awaiting items' words' ∧
      (es.filterMap fun l => letter? l.2).length = 5 := by
    refine ⟨_, _, _, _, rfl, eq_awaiting (fun k => ?_) (fun _ _ => rfl) (fun _ _ => rfl) rfl rfl rfl
      rfl, rfl⟩
    cases k <;> rfl
  obtain ⟨es, s, items', words', hplay, rfl, hletters⟩ := hplay
  obtain ⟨tr, r, rfl⟩ := play_run hplay
  rw [List.filterMap_map] at hletters
  exact ⟨tr, items', words', r, hletters⟩

/-- Any number of words. -/
theorem awaiting_run (k : Nat) : ∃ tr items words,
    Run (Step 5) (begin one) tr (awaiting items words) ∧ (letters tr).length = 5 * k := by
  induction k with
  | zero =>
      have hplay : ∃ es s, play 5 op (begin one)
          (turns .first 10 ++ turns .second 8 ++ turns .third 9 ++ quiet none 8) =
            some (es, s) ∧ (∀ k, s.pipes.content k = []) ∧ s.pc none = .waiting ∧
          s.pc (some ⟨.first, 0⟩) = .fifo 0 ∧ s.pc (some ⟨.second, 0⟩) = .take 0 ∧
          s.pc (some ⟨.third, 0⟩) = .gather 0 [] ∧ (es.filterMap fun l => letter? l.2) = [] :=
        ⟨_, _, rfl, fun _ => rfl, rfl, rfl, rfl, rfl, rfl⟩
      obtain ⟨es, s, hplay, hempty, hboss, hfirst, hsecond, hthird, hnone⟩ := hplay
      obtain ⟨tr, r, rfl⟩ := play_run hplay
      have hown : ∀ p, s.has p = own p := by
        intro p
        rw [(tidy r).has p]
        obtain _ | ⟨b, i⟩ := p
        · rw [hboss]
          rfl
        · obtain rfl : i = 0 := Subsingleton.elim (α := Fin 1) i 0
          cases b with
          | first => rw [hfirst]; rfl
          | second => rw [hsecond]; rfl
          | third => rw [hthird]; rfl
      obtain rfl := eq_awaiting hempty (fun p k => congrFun (hown p) (.read k))
        (fun p k => congrFun (hown p) (.write k)) hboss hfirst hsecond hthird
      rw [List.filterMap_map] at hnone
      exact ⟨tr, 0, 0, r, congrArg List.length hnone⟩
  | succ k ih =>
      obtain ⟨tr, items, words, r, hletters⟩ := ih
      obtain ⟨tr', items', words', r', hfive⟩ := awaiting_word items words
      refine ⟨tr ++ tr', items', words', r.trans r', ?_⟩
      rw [letters, List.filterMap_append, List.length_append, ← letters, ← letters, hletters, hfive,
        Nat.mul_succ]

/-- The FIFO ends, and everybody goes. -/
theorem awaiting_end (items words : Int) : ∃ tr s, Run (Step 5) (awaiting items words) tr s ∧
    s.pc none = .done ∧ letters tr = [] := by
  have hplay : ∃ es s, play 5 op (awaiting items words)
      ((some ⟨.first, 0⟩, some (.byte none)) :: turns .first 2 ++ turns .second 3 ++
        turns .third 3 ++ quiet none 11) = some (es, s) ∧ s.pc none = .done ∧
      (es.filterMap fun l => letter? l.2) = [] := ⟨_, _, rfl, rfl, rfl⟩
  obtain ⟨es, s, hplay, hend, hnone⟩ := hplay
  obtain ⟨tr, r, rfl⟩ := play_run hplay
  rw [List.filterMap_map] at hnone
  exact ⟨tr, s, r, hend, hnone⟩

/-- Of 2147483650 letters the first brigade reports a negative number. -/
theorem letters_overflow :
    ∃ (tr : List (Move (State one) (Option (Worker one) × Seen one))) (s : State one),
      Run (Step 5) (begin one) tr s ∧ s.pc none = .done ∧ (letters tr).length = 2147483650 ∧
        reported .first tr = -2147483646 := by
  obtain ⟨tr, items, words, r, hletters⟩ := awaiting_run 429496730
  obtain ⟨tr', s, r', hend, hnone⟩ := awaiting_end items words
  have hall : (letters (tr ++ tr')).length = 2147483650 := by
    rw [letters, List.filterMap_append, List.length_append, ← letters, ← letters, hletters, hnone,
      List.length_nil]
  have r := r.trans r'
  have hgone := (waited r).resolve_left (by rw [hend]; nofun)
  obtain ⟨left, hpc, -⟩ := all_gone (by decide) (by decide) r hend ⟨.first, 0⟩
  have hfirst := (handled_law (by decide) (by decide) r hend).1
  rw [hall, handledBy, Fin.sum_univ_one] at hfirst
  rw [hfirst] at hpc
  refine ⟨_, s, r, hend, hall, ?_⟩
  rw [reported_eq .first (reports_eq r (no_epipe (by decide) (by decide) r) hend hgone),
    Fin.sum_univ_one, hpc, Place.items, wrap32_past (by decide) (by decide)]
  rfl

end Sop2.Factory
