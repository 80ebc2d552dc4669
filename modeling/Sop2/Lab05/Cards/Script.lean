import Mathlib.Algebra.BigOperators.Group.Finset.Basic
import Sop2.Support.Highest
import Sop2.Lab05.Cards.Game

/-!
# Lab05 — Cards — what the players are told

A player is told `new_round` and the points of the round, once for each of its cards, and `new_round`
once more if it resigns (`script`).  The points go to those who played the highest card of the round
(`pay`).

`Books` says how much a player has read and written at each of its places (`Counts`), if it has seen
no closed pipe; so it closes its ends only after it has resigned or played all its cards.
-/

namespace Sop2.PipeCards
open Support Support.Piped

variable {n m cap : Nat} {s : State n} {tr : List (Move (State n) (Option (Fin n) × Seen n))}
  {i : Fin n} {q q' : Place n} {e : Seen n} {es : List (Seen n)}
  {cs cs' : Fin n → List Nat} {k r : Nat}

/-! ### The points of a round -/

/-- What `i` gets for its card of the round after `r` others, if the players have played `cs`. -/
def pay (cs : Fin n → List Nat) (r : Nat) (i : Fin n) : Nat := portion (fun j => (cs j)[r]?) n i

def total (cs : Fin n → List Nat) (i : Fin n) (k : Nat) : Nat := ∑ r ∈ Finset.range k, pay cs r i

/-- The messages for `i`, when `told` rounds were announced to it, and `paid` of them paid. -/
def script (cs : Fin n → List Nat) (i : Fin n) (told paid : Nat) : List Message :=
  ((List.range paid).flatMap fun r => [.newRound, .number (pay cs r i)]) ++
    List.replicate (told - paid) .newRound

theorem script_self (cs : Fin n → List Nat) (i : Fin n) (k : Nat) :
    script cs i k k = (List.range k).flatMap fun r => [.newRound, .number (pay cs r i)] := by
  simp [script]

theorem script_tell (cs : Fin n → List Nat) (i : Fin n) (k : Nat) :
    script cs i (k + 1) k = script cs i k k ++ [.newRound] := by
  simp [script]

theorem script_pay (cs : Fin n → List Nat) (i : Fin n) (k : Nat) :
    script cs i (k + 1) (k + 1) = script cs i (k + 1) k ++ [.number (pay cs k i)] := by
  simp [script, List.range_succ]

theorem length_script (cs : Fin n → List Nat) (i : Fin n) (told paid : Nat) :
    (script cs i told paid).length = 2 * paid + (told - paid) := by
  simp [script, List.length_flatMap, mul_comm]

theorem script_begins (cs : Fin n → List Nat) (i : Fin n) {k told paid : Nat} (h : k ≤ paid) :
    script cs i k k <+: script cs i told paid := by
  rw [script_self, script, ← Nat.add_sub_cancel' h, List.range_add, List.flatMap_append,
    List.append_assoc]
  exact List.prefix_append ..

theorem total_succ (cs : Fin n → List Nat) (i : Fin n) (k : Nat) :
    total cs i (k + 1) = total cs i k + pay cs k i := Finset.sum_range_succ ..

/-- The points of a round depend on its cards alone. -/
theorem pay_congr (h : ∀ j, (cs' j)[r]? = (cs j)[r]?) (i : Fin n) : pay cs' r i = pay cs r i := by
  rw [pay, pay, funext h]

theorem total_congr (h : ∀ r < k, ∀ j, (cs' j)[r]? = (cs j)[r]?) (i : Fin n) :
    total cs' i k = total cs i k :=
  Finset.sum_congr rfl fun r hr => pay_congr (h r (Finset.mem_range.mp hr)) i

theorem script_congr (h : ∀ r < k, ∀ j, (cs' j)[r]? = (cs j)[r]?) (i : Fin n) (told : Nat) :
    script cs' i told k = script cs i told k := by
  rw [script, script]
  congr 1
  refine List.flatMap_congr fun r hr => ?_
  rw [pay_congr (h r (List.mem_range.mp hr))]

/-! ### A player -/

/-- How much a player has read and written, where it has never seen a closed pipe. -/
def Counts (m got put : Nat) : Place n → Prop
  | .newRound rp k _ => rp = true ∧ got = 2 * put ∧ put + 1 = k
  | .resign rp k _ | .draw rp k _ | .card rp k _ _ => rp = true ∧ got = 2 * put + 1 ∧ put + 1 = k
  | .result rp k _ => rp = true ∧ got + 1 = 2 * put ∧ put = k
  | .gone => got = 2 * put + 1 ∨ 2 * m ≤ got
  | .failed rp _ => rp = true
  | _ => True

/-- What `i` has read. -/
def heard (i : Fin n) (es : List (Seen n)) : List Message :=
  es.filterMap (Event.taken? (.toPlayer i))

/-- What `i` has written. -/
def said (i : Fin n) (es : List (Seen n)) : List Message :=
  es.filterMap (Event.written? (.fromPlayer i))

/-- Where a player can be that has seen a closed pipe. -/
def Place.lost : Place n → Prop
  | .newRound rp _ _ | .resign rp _ _ | .draw rp _ _ | .card rp _ _ _ | .result rp _ _ => rp = false
  | .gone | .failed _ _ => True
  | _ => False

/-- The account of a player. -/
def Books (m : Nat) (i : Fin n) (es : List (Seen n)) (q : Place n) : Prop :=
  (Event.eof (.toPlayer i) ∈ es ∨ Event.epipe (.fromPlayer i) ∈ es) ∧ q.after.lost ∨
    Counts m (heard i es).length (said i es).length q.after

theorem length_heard (e : Seen n) : (heard i (es ++ [e])).length =
    (heard i es).length + (e.taken? (.toPlayer i)).toList.length := by
  rw [heard, filterMap_snoc, List.length_append, heard]

theorem length_said (e : Seen n) : (said i (es ++ [e])).length =
    (said i es).length + (e.written? (.fromPlayer i)).toList.length := by
  rw [said, filterMap_snoc, List.length_append, said]

theorem leave_after (i : Fin n) : (leave i true).after = .gone := rfl

theorem Place.lost.step (hq : q.lost) (h : (playerWork m i q).Goes e q') : q'.after.lost := by
  cases q with
  | newRound rp k cards =>
      obtain rfl : rp = false := hq
      simp only [playerWork] at h
      split at h
      · obtain ⟨c, rfl, -⟩ | ⟨rfl, -⟩ | ⟨-, rfl, -⟩ := receive_goes h
        · split
          · rfl
          · trivial
        · rfl
        · trivial
      · obtain ⟨-, rfl⟩ := h
        trivial
  | resign rp k cards =>
      obtain rfl : rp = false := hq
      obtain ⟨a, l, ha, -⟩ := h
      cases a <;> simp only [Option.some.injEq, Prod.mk.injEq, reduceCtorEq] at ha
      obtain ⟨-, rfl⟩ := ha
      split
      · trivial
      · rfl
  | draw rp k cards =>
      obtain ⟨a, l, ha, -⟩ := h
      cases a <;> simp only [Option.map_eq_some_iff, Prod.mk.injEq, reduceCtorEq] at ha
      obtain ⟨x, -, -, rfl⟩ := ha
      exact hq
  | card rp k card cards =>
      obtain ⟨-, rfl⟩ | ⟨-, rfl⟩ := h
      · exact hq
      · trivial
  | result rp k cards =>
      obtain rfl : rp = false := hq
      obtain ⟨c, rfl, -⟩ | ⟨rfl, -⟩ | ⟨-, rfl, -⟩ := receive_goes h
      · rfl
      · trivial
      · trivial
  | closing | head | announce | cards | points | send | scoreboard | waiting | done | crashed
  | gone | failed => exact h.elim

/-- One step of a player that has seen no closed pipe. -/
theorem Counts.step (hC : Counts m (heard i es).length (said i es).length q)
    (h : (playerWork m i q).Goes e q') : Books m i (es ++ [e]) q' := by
  rw [Books, length_heard, length_said]
  cases q with
  | newRound rp k cards =>
      obtain ⟨rfl, hgot, hput⟩ := hC
      simp only [playerWork] at h
      split at h
      · obtain ⟨c, rfl, he, -⟩ | ⟨rfl, he, -⟩ | ⟨hrp, -⟩ := receive_goes h
        · obtain rfl := he rfl
          have hlen : ((Event.read (Pipe.toPlayer i) c : Seen n).taken?
            (.toPlayer i)).toList.length = 1 := by simp [Event.taken?]
          right
          split
          · exact ⟨rfl, by rw [hlen, hgot]; rfl, hput⟩
          · exact rfl
        · obtain rfl := he rfl
          exact .inl ⟨.inl (by simp), rfl⟩
        · cases hrp
      · obtain ⟨rfl, rfl⟩ := h
        right
        rw [leave_after]
        right
        change 2 * m ≤ (heard i es).length
        omega
  | resign rp k cards =>
      obtain ⟨rfl, hgot, hput⟩ := hC
      obtain ⟨a, l, ha, rfl⟩ := h
      cases a <;> simp only [Option.some.injEq, Prod.mk.injEq, reduceCtorEq] at ha
      obtain ⟨-, rfl⟩ := ha
      right
      split
      · exact .inl hgot
      · exact ⟨rfl, hgot, hput⟩
  | draw rp k cards =>
      obtain ⟨a, l, ha, rfl⟩ := h
      cases a <;> simp only [Option.map_eq_some_iff, Prod.mk.injEq, reduceCtorEq] at ha
      obtain ⟨x, -, -, rfl⟩ := ha
      exact .inr hC
  | card rp k card cards =>
      obtain ⟨rfl, hgot, hput⟩ := hC
      obtain ⟨rfl, rfl⟩ | ⟨rfl, rfl⟩ := h
      · have hlen : ((Event.wrote (Pipe.fromPlayer i) (.number card) : Seen n).written?
          (.fromPlayer i)).toList.length = 1 := by simp [Event.written?]
        rw [hlen]
        refine .inr ⟨rfl, ?_, hput⟩
        change (heard i es).length + 1 = 2 * ((said i es).length + 1)
        omega
      · exact .inl ⟨.inr (by simp), trivial⟩
  | result rp k cards =>
      obtain ⟨rfl, hgot, hput⟩ := hC
      obtain ⟨c, rfl, he, -⟩ | ⟨rfl, he, -⟩ | ⟨hrp, -⟩ := receive_goes h
      · obtain rfl := he rfl
        have hlen : ((Event.read (Pipe.toPlayer i) c : Seen n).taken?
          (.toPlayer i)).toList.length = 1 := by simp [Event.taken?]
        rw [hlen]
        exact .inr ⟨rfl, hgot, by rw [hput]; rfl⟩
      · obtain rfl := he rfl
        exact .inl ⟨.inl (by simp), trivial⟩
      · cases hrp
  | closing | head | announce | cards | points | send | scoreboard | waiting | done | crashed
  | gone | failed => exact h.elim

/-- One step of a player. -/
theorem Books.step (hB : Books m i es q) (h : (op m (some i) q).Goes e q') :
    Books m i (es ++ [e]) q' := by
  obtain ⟨fs, next, rfl⟩ | ⟨hafter, hop⟩ := op_cases m (some i) q
  · have hquiet : ∀ {q'}, q'.after = next.after → Books m i (es ++ [.said none]) q' := by
      intro q' hq'
      rw [Books, length_heard, length_said, hq']
      exact hB.imp (And.imp_left (Or.imp (List.mem_append_left _) (List.mem_append_left _))) id
    cases fs with
    | nil => obtain ⟨rfl, rfl⟩ := h; exact hquiet rfl
    | cons f fs => obtain ⟨rfl, rfl⟩ := h; exact hquiet rfl
  · rw [hop] at h
    rw [Books, hafter] at hB
    rcases hB with ⟨hclosed, hlost⟩ | hC
    · exact .inl ⟨hclosed.imp (List.mem_append_left _) (List.mem_append_left _), hlost.step h⟩
    · exact hC.step h

/-- **The books of a player.** -/
theorem books (r : Run (Step cap m) (begin n m) tr s) (i : Fin n) :
    Books m i (events (some i) tr) (s.pc (some i)) :=
  locally (J := fun p es q => ∀ i, p = some i → Books m i es q) (G := fun _ _ => True)
    (fun hJ _ h i hp => by subst hp; exact (hJ i rfl).step h) r
    (fun p i hp => by subst hp; exact .inr ⟨rfl, rfl, rfl⟩) (fun _ _ => trivial) (some i) i rfl

/-- A player that has closed its `rp` has resigned, or played all its cards. -/
theorem Counts.of_closed {got put : Nat} (hof : q.of (some i)) (h : Counts m got put q.after)
    (hclosed : holds (some i) q (.read (.toPlayer i)) = false) : got = 2 * put + 1 ∨ 2 * m ≤ got := by
  induction q with
  | closing es next ih =>
      refine ih hof.2 h ?_
      simp only [holds, beside, Bool.or_eq_false_iff] at hclosed
      exact hclosed.1
  | newRound | resign | draw | card | result =>
      obtain ⟨rfl, -⟩ := h
      simp [holds, ends] at hclosed
  | failed =>
      obtain rfl := h
      simp [holds, ends] at hclosed
  | gone => exact h
  | head | announce | cards | points | send | scoreboard | crashed => cases hof.1
  | waiting | done => cases hof

end Sop2.PipeCards
