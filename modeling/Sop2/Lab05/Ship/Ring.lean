import Mathlib.Data.Fin.Basic
import Sop2.Support.Pipes
import Sop2.Support.Runs

/-!
# Lab05 — Ship — the ring

`lab05/sop-ship/sop-ship.c` after the deal, without `SIGINT`: `n` players with `m` cards each; the
player `i` reads the ring pipe `i` and writes the ring pipe `i + 1`.

After the `fork` a player still has every end of every ring pipe open, and closes those that it
does not use, one after the other; which of them are still open at the deal is left open
(`unused`).  The server has closed its own before it dealt.  Which card is discarded is left open
too, instead of `choose_card_to_discard`.

* `State.cards`: the cards in the hands and in the pipes.  `Step.cards`: no step changes them.
* `occupancy`: there are as many cards in the pipes as players between a write and the read that
  belongs to it.
-/

namespace Sop2.Ship
open Support

/-- Where a player is in `player_work`.  The slot of a discarded card is pending until a card is
read into it. -/
inductive Place (m : Nat) where
  /-- Before the loop. -/
  | start
  | check
  | write (discard : Fin m)
  | read (discard : Fin m)
  /-- Out of the loop, before `close(ring_read_fd)`; with the slot that is still pending. -/
  | leaving (slot : Option (Fin m))
  /-- Before `close(ring_write_fd)`. -/
  | closing (slot : Option (Fin m))
  | gone (slot : Option (Fin m))
  deriving DecidableEq

structure Player (m : Nat) where
  hand : Fin m → Nat
  place : Place m

structure State (n m : Nat) where
  ring : Pipes (Fin n) (Fin n) Nat
  player : Fin n → Player m

/-- What a player prints. -/
inductive Event where
  | sails
  | passed (card : Nat)
  deriving DecidableEq

variable {n m : Nat} [NeZero n] [NeZero m]

/-- `is_winning`. -/
def isWinning (hand : Fin m → Nat) : Bool := decide (∀ i, hand i % 4 = hand 0 % 4)

/-- The player `i` goes on, and the ring is as it says. -/
def State.go (s : State n m) (i : Fin n) (p : Player m) (ring : Pipes (Fin n) (Fin n) Nat) :
    State n m :=
  ⟨ring, Function.update s.player i p⟩

/-- One step of one player; the label is who took it and what it printed.  A ring pipe holds at
most `cap` cards. -/
inductive Step (cap : Nat) : State n m → Fin n × Option Event → State n m → Prop where
  | closeRead {s : State n m} (i k : Fin n) (h : (s.player i).place = .start) (hk : k ≠ i) :
      Step cap s (i, none) (s.go i (s.player i) (s.ring.closeRead i k))
  | closeWrite {s : State n m} (i k : Fin n) (h : (s.player i).place = .start) (hk : k ≠ i + 1) :
      Step cap s (i, none) (s.go i (s.player i) (s.ring.closeWrite i k))
  | begin {s : State n m} (i : Fin n) (h : (s.player i).place = .start)
      (hr : ∀ k ≠ i, s.ring.reads i k = false) (hw : ∀ k ≠ i + 1, s.ring.writes i k = false) :
      Step cap s (i, none) (s.go i ⟨(s.player i).hand, .check⟩ s.ring)
  | win {s : State n m} (i : Fin n) (h : (s.player i).place = .check)
      (hw : isWinning (s.player i).hand = true) :
      Step cap s (i, some .sails) (s.go i ⟨(s.player i).hand, .leaving none⟩ s.ring)
  | choose {s : State n m} (i : Fin n) (d : Fin m) (h : (s.player i).place = .check)
      (hw : isWinning (s.player i).hand = false) :
      Step cap s (i, none) (s.go i ⟨(s.player i).hand, .write d⟩ s.ring)
  | write {s : State n m} (i : Fin n) (d : Fin m) (ring : Pipes (Fin n) (Fin n) Nat)
      (h : (s.player i).place = .write d)
      (hw : s.ring.Write cap (i + 1) ((s.player i).hand d) true ring) :
      Step cap s (i, some (.passed ((s.player i).hand d)))
        (s.go i ⟨(s.player i).hand, .read d⟩ ring)
  | epipe {s : State n m} (i : Fin n) (d : Fin m) (ring : Pipes (Fin n) (Fin n) Nat)
      (h : (s.player i).place = .write d)
      (hw : s.ring.Write cap (i + 1) ((s.player i).hand d) false ring) :
      Step cap s (i, none) (s.go i ⟨(s.player i).hand, .leaving none⟩ ring)
  | read {s : State n m} (i : Fin n) (d : Fin m) (card : Nat) (ring : Pipes (Fin n) (Fin n) Nat)
      (h : (s.player i).place = .read d) (hr : s.ring.Read i (some card) ring) :
      Step cap s (i, none) (s.go i ⟨Function.update (s.player i).hand d card, .check⟩ ring)
  | eof {s : State n m} (i : Fin n) (d : Fin m) (ring : Pipes (Fin n) (Fin n) Nat)
      (h : (s.player i).place = .read d) (hr : s.ring.Read i none ring) :
      Step cap s (i, none) (s.go i ⟨(s.player i).hand, .leaving (some d)⟩ ring)
  | leave {s : State n m} (i : Fin n) (slot : Option (Fin m))
      (h : (s.player i).place = .leaving slot) :
      Step cap s (i, none) (s.go i ⟨(s.player i).hand, .closing slot⟩ (s.ring.closeRead i i))
  | close {s : State n m} (i : Fin n) (slot : Option (Fin m))
      (h : (s.player i).place = .closing slot) :
      Step cap s (i, none)
        (s.go i ⟨(s.player i).hand, .gone slot⟩ (s.ring.closeWrite i (i + 1)))

/-- The cards are dealt; of the ends that a player does not use, those are open that `unused`
says. -/
def deal (unused : Fin n → Fin n → Bool × Bool) (hands : Fin n → Fin m → Nat) : State n m where
  ring :=
    { content := fun _ => []
      reads := fun i k => decide (k = i) || (unused i k).1
      writes := fun i k => decide (k = i + 1) || (unused i k).2 }
  player i := ⟨hands i, .start⟩

/-! ### The cards -/

/-- The slot that is pending. -/
def Place.slot : Place m → Option (Fin m)
  | .read d => some d
  | .leaving slot | .closing slot | .gone slot => slot
  | _ => none

/-- The cards of a hand, but for the pending slot. -/
def Player.held (p : Player m) : Multiset Nat :=
  ((Finset.univ.filter fun d => some d ≠ p.place.slot).val).map p.hand

/-- The cards in the hands, the pending slots not counted, and in the ring pipes. -/
def State.cards (s : State n m) : Multiset Nat := ∑ i, (s.player i).held + s.ring.all

/-- The cards that were dealt. -/
def dealt (hands : Fin n → Fin m → Nat) : Multiset Nat := ∑ i, Finset.univ.val.map (hands i)

variable {cap : Nat} {s t : State n m} {l : Fin n × Option Event}

omit [NeZero m] in
/-- The slots but for one. -/
theorem slots_but (d : Fin m) :
    (Finset.univ.filter fun e : Fin m => some e ≠ some d) = Finset.univ.erase d := by
  ext e
  simp

omit [NeZero m] in
/-- A card leaves its slot, which is pending then. -/
theorem held_pending {p q : Player m} {d : Fin m} (hp : p.place.slot = none)
    (hq : q.place.slot = some d) (hand : q.hand = p.hand) : p.held = q.held + {p.hand d} := by
  have hall : (Finset.univ.filter fun e : Fin m => some e ≠ none) = Finset.univ := by simp
  rw [Player.held, Player.held, hp, hq, hall, slots_but, hand, Finset.erase_val,
    ← Multiset.map_singleton, ← Multiset.map_add, add_comm, Multiset.singleton_add,
    Multiset.cons_erase (Finset.mem_univ d)]

omit [NeZero m] in
/-- What is written into the pending slot is not counted. -/
theorem held_fill {p q : Player m} {d : Fin m} {card : Nat} (hp : p.place.slot = some d)
    (hq : q.place.slot = some d) (hand : q.hand = Function.update p.hand d card) :
    q.held = p.held := by
  rw [Player.held, Player.held, hp, hq, hand]
  refine Multiset.map_congr rfl fun e he => Function.update_of_ne (fun h => ?_) ..
  have hne := (Finset.mem_filter.mp (Finset.mem_val.mp he)).2
  exact hne (congrArg some h)

omit [NeZero m] in
/-- What counts is the hand and the slot. -/
theorem held_congr {p q : Player m} (hand : q.hand = p.hand) (hslot : q.place.slot = p.place.slot) :
    q.held = p.held := by
  rw [Player.held, Player.held, hand, hslot]

omit [NeZero n] [NeZero m] in
/-- One player goes on, and no card is lost between it and the ring. -/
theorem cards_go {i : Fin n} {p : Player m} {ring : Pipes (Fin n) (Fin n) Nat}
    (h : p.held + ring.all = (s.player i).held + s.ring.all) : (s.go i p ring).cards = s.cards := by
  have hsum := sum_update_add Player.held s.player i p
  have hall : (s.go i p ring).cards + ((s.player i).held + s.ring.all) =
      s.cards + (p.held + ring.all) := by
    change ∑ j, (Function.update s.player i p j).held + ring.all + _ = _
    rw [add_add_add_comm, hsum, State.cards]
    abel
  rw [h] at hall
  exact add_right_cancel hall

/-- **No step changes the cards.** -/
theorem Step.cards (h : Step cap s l t) : t.cards = s.cards := by
  -- a player whose slot stays as it is, and a ring that holds the same
  have stay (i : Fin n) (q : Place m) (ring : Pipes (Fin n) (Fin n) Nat)
      (hslot : q.slot = (s.player i).place.slot) (hring : ring.all = s.ring.all) :
      (s.go i ⟨(s.player i).hand, q⟩ ring).cards = s.cards := by
    have hheld := held_congr (p := s.player i) (q := ⟨(s.player i).hand, q⟩) rfl hslot
    exact cards_go (by rw [hring, hheld])
  cases h with
  | closeRead i k h | closeWrite i k h => exact stay _ _ _ rfl rfl
  | begin i h hr hw => exact stay _ _ _ (by rw [h]; rfl) rfl
  | win i h hw | choose i d h hw => exact stay _ _ _ (by rw [h]; rfl) rfl
  | write i d ring h hw =>
      refine cards_go ?_
      have hheld := held_pending (p := s.player i) (q := ⟨(s.player i).hand, .read d⟩) (d := d)
        (by rw [h]; rfl) rfl rfl
      rw [hheld, hw.all]
      abel
  | epipe i d ring h hw =>
      cases hw
      exact stay _ _ _ (by rw [h]; rfl) rfl
  | read i d card ring h hr =>
      refine cards_go ?_
      have hfull := held_pending (p := ⟨Function.update (s.player i).hand d card, .check⟩)
        (q := ⟨Function.update (s.player i).hand d card, .read d⟩) (d := d) rfl rfl rfl
      have hfill := held_fill (p := s.player i)
        (q := ⟨Function.update (s.player i).hand d card, .read d⟩) (d := d) (by rw [h]; rfl) rfl
        rfl
      rw [hfull, hfill, hr.all]
      dsimp only
      rw [Function.update_self]
      abel
  | eof i d ring h hr =>
      cases hr
      exact stay _ _ _ (by rw [h]; rfl) rfl
  | leave i slot h | close i slot h => exact stay _ _ _ (by rw [h]; rfl) rfl

/-! ### The occupancy -/

variable {unused : Fin n → Fin n → Bool × Bool} {hands : Fin n → Fin m → Nat}
  {tr : List (Move (State n m) (Fin n × Option Event))}

/-- **The cards are those that were dealt.** -/
theorem cards_eq (r : Run (Step cap) (deal unused hands) tr s) : s.cards = dealt hands := by
  refine r.invariant (I := fun s => s.cards = dealt hands) (fun hs h => h.cards.trans hs) ?_
  have hall : (deal unused hands).ring.all = 0 := by simp [deal, Pipes.all]
  rw [State.cards, hall, add_zero, dealt]
  refine Finset.sum_congr rfl fun i _ => ?_
  simp [Player.held, deal, Place.slot]

omit [NeZero m] in
/-- A hand lacks one card while a slot is pending. -/
theorem held_card (p : Player m) : p.held.card + p.place.slot.isSome.toNat = m := by
  rw [Player.held, Multiset.card_map, Finset.card_val]
  cases p.place.slot with
  | none => simp
  | some d =>
      have hcard := Finset.card_erase_add_one (Finset.mem_univ d)
      rw [slots_but]
      simpa using hcard

omit [NeZero n] [NeZero m] in
/-- There are as many cards in the pipes as slots pending. -/
theorem all_card (hs : s.cards = dealt hands) :
    s.ring.all.card = tally (fun p : Player m => p.place.slot.isSome) s.player := by
  have hcards := congrArg Multiset.card hs
  have hheld : ∑ i, ((s.player i).held.card + (s.player i).place.slot.isSome.toNat) =
      ∑ _i : Fin n, m :=
    Finset.sum_congr rfl fun i _ => held_card (s.player i)
  rw [Finset.sum_add_distrib, ← tally_eq_sum (fun p : Player m => p.place.slot.isSome)] at hheld
  simp only [State.cards, dealt, Multiset.card_add, Multiset.card_sum, Multiset.card_map,
    Finset.card_val, Finset.card_univ, Fintype.card_fin] at hcards
  omega

omit [NeZero n] [NeZero m] in
/-- No pipe holds more cards than there are players. -/
theorem occupancy (hs : s.cards = dealt hands) (k : Fin n) : (s.ring.content k).length ≤ n := by
  calc (s.ring.content k).length ≤ s.ring.all.card := s.ring.length_le_all k
    _ = tally (fun p : Player m => p.place.slot.isSome) s.player := all_card hs
    _ ≤ n := by simpa using tally_le_card (fun p : Player m => p.place.slot.isSome) s.player

end Sop2.Ship
