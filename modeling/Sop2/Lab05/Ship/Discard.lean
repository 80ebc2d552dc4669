import Mathlib.Data.Fin.VecNotation
import Mathlib.Order.Lattice.Nat
import Sop2.Lab05.Ship.Progress
import Sop2.Support.Highest

/-!
# Lab05 — Ship — the discard

`is_winning` and `choose_card_to_discard` of `sop-ship.c`, and `player_work` of one player, with
`SIGINT`, in any surroundings: whatever card is read from the ring.

* `most`: the largest number of cards of one suit; it is `m` exactly for a winning hand
  (`most_eq_iff`).
* `discard_law`: the card that is given up is of another suit than the most frequent one, so the
  exchange does not lower `most`.
* `work_law`: over a run of `player_work`, `most` does not decrease, and the win is announced
  exactly when it is `m`.
* `Plays.work`: what the players of the ring do is `player_work`.
-/

namespace Sop2.Ship
open Support

variable {m : Nat}

/-! ### The choice -/

/-- `card % 4`. -/
def suit (card : Nat) : Fin 4 := ⟨card % 4, Nat.mod_lt _ (by decide)⟩

/-- `suit_counts`. -/
def suitCounts (hand : Fin m → Nat) : Fin 4 → Nat :=
  (List.finRange m).foldl
    (fun counts i => Function.update counts (suit (hand i)) (counts (suit (hand i)) + 1)) fun _ => 0

/-- `best_suit`. -/
def bestSuit (counts : Fin 4 → Nat) : Fin 4 :=
  [⟨1, by decide⟩, ⟨2, by decide⟩, ⟨3, by decide⟩].foldl
    (fun best i => if counts i > counts best then i else best) ⟨0, by decide⟩

/-- `bad_cards[0..bad_count)`; there is room for 52, and `main` deals at most 13 to a player. -/
def badCards (hand : Fin m → Nat) : List (Fin m) :=
  (List.finRange m).filter fun i => suit (hand i) ≠ bestSuit (suitCounts hand)

/-- `choose_card_to_discard`, for what `rand()` returns. -/
def chooseCardToDiscard [NeZero m] (hand : Fin m → Nat) (rand : Nat) : Fin m :=
  if h : (badCards hand).length > 0 then
    (badCards hand).get ⟨rand % (badCards hand).length, Nat.mod_lt _ h⟩
  else ⟨rand % m, Nat.mod_lt _ (NeZero.pos m)⟩

/-! ### How many cards of a suit -/

/-- The number of cards of the suit `s`. -/
def ofSuit (hand : Fin m → Nat) (s : Fin 4) : Nat := tally (fun card => decide (suit card = s)) hand

/-- The largest number of cards of one suit. -/
def most (hand : Fin m → Nat) : Nat := Finset.univ.sup (ofSuit hand)

theorem ofSuit_le_most (hand : Fin m → Nat) (s : Fin 4) : ofSuit hand s ≤ most hand :=
  Finset.le_sup (Finset.mem_univ s)

/-- Counting the suits of some slots. -/
theorem foldl_counts (hand : Fin m → Nat) (l : List (Fin m)) (counts : Fin 4 → Nat) (s : Fin 4) :
    l.foldl (fun counts i => Function.update counts (suit (hand i)) (counts (suit (hand i)) + 1))
        counts s =
      counts s + (l.filter fun i => decide (suit (hand i) = s)).length := by
  induction l generalizing counts with
  | nil => rfl
  | cons i l ih =>
      rw [List.foldl_cons, ih, List.filter_cons]
      by_cases hs : suit (hand i) = s
      · subst hs
        simp only [Function.update_self, decide_true, if_true, List.length_cons]
        rw [Nat.add_assoc, Nat.add_comm 1]
      · simp only [Function.update_of_ne (Ne.symm hs), hs, decide_false, Bool.false_eq_true,
          if_false]

theorem suitCounts_eq (hand : Fin m → Nat) : suitCounts hand = ofSuit hand := by
  funext s
  rw [suitCounts, foldl_counts, Nat.zero_add]
  exact (tally_finRange fun i => decide (suit (hand i) = s)).symm

/-- No suit that was looked at has more cards than the best one. -/
theorem le_foldl_best (counts : Fin 4 → Nat) (l : List (Fin 4)) (best : Fin 4) :
    ∀ s ∈ best :: l,
      counts s ≤
        counts (l.foldl (fun best i => if counts i > counts best then i else best) best) := by
  induction l generalizing best with
  | nil => simp
  | cons i l ih =>
      intro s hs
      rw [List.foldl_cons]
      have hbest := ih (if counts i > counts best then i else best) _ List.mem_cons_self
      rcases List.mem_cons.mp hs with rfl | hs
      · refine Nat.le_trans ?_ hbest
        split <;> omega
      · rcases List.mem_cons.mp hs with rfl | hs
        · refine Nat.le_trans ?_ hbest
          split <;> omega
        · exact ih _ s (List.mem_cons_of_mem _ hs)

theorem most_eq (hand : Fin m → Nat) : most hand = ofSuit hand (bestSuit (suitCounts hand)) := by
  refine Nat.le_antisymm (Finset.sup_le fun s _ => ?_) (ofSuit_le_most ..)
  have hmem : s ∈ (0 : Fin 4) :: [1, 2, 3] := by
    revert s
    decide
  rw [suitCounts_eq]
  exact le_foldl_best (ofSuit hand) [1, 2, 3] 0 s hmem

theorem ofSuit_eq_iff (hand : Fin m → Nat) (s : Fin 4) :
    ofSuit hand s = m ↔ ∀ i, suit (hand i) = s := by
  have hall := tally_eq_card_iff (fun card => decide (suit card = s)) (f := hand)
  rw [Fintype.card_fin] at hall
  simpa [ofSuit] using hall

theorem ofSuit_le (hand : Fin m → Nat) (s : Fin 4) : ofSuit hand s ≤ m := by
  simpa [ofSuit] using tally_le_card (fun card => decide (suit card = s)) hand

variable [NeZero m]

/-- A hand wins when all its cards are of one suit. -/
theorem isWinning_iff (hand : Fin m → Nat) :
    isWinning hand = true ↔ ∀ i, suit (hand i) = suit (hand 0) := by
  simp [isWinning, suit]

/-- **A hand wins when its largest number of cards of one suit is `m`.** -/
theorem most_eq_iff (hand : Fin m → Nat) : most hand = m ↔ isWinning hand = true := by
  rw [isWinning_iff]
  constructor
  · intro h i
    rw [most_eq, ofSuit_eq_iff] at h
    rw [h i, h 0]
  · intro h
    refine Nat.le_antisymm (Finset.sup_le fun s _ => ofSuit_le hand s) ?_
    have hfull := (ofSuit_eq_iff hand (suit (hand 0))).mpr h
    calc m = ofSuit hand (suit (hand 0)) := hfull.symm
      _ ≤ most hand := ofSuit_le_most ..

/-- A hand that does not win has a card of another suit than the best one. -/
theorem badCards_pos {hand : Fin m → Nat} (hw : isWinning hand = false) :
    (badCards hand).length > 0 := by
  rw [gt_iff_lt, List.length_pos_iff]
  intro hnone
  have hall : ∀ i, suit (hand i) = bestSuit (suitCounts hand) := by
    intro i
    by_contra hi
    have hmem : i ∈ badCards hand :=
      List.mem_filter.mpr ⟨List.mem_finRange i, decide_eq_true hi⟩
    rw [hnone] at hmem
    cases hmem
  have hwin : isWinning hand = true := (isWinning_iff hand).mpr fun i => by rw [hall i, hall 0]
  rw [hw] at hwin
  cases hwin

/-- The card that is given up is of another suit than the best one. -/
theorem suit_chooseCardToDiscard {hand : Fin m → Nat} (hw : isWinning hand = false) (rand : Nat) :
    suit (hand (chooseCardToDiscard hand rand)) ≠ bestSuit (suitCounts hand) := by
  rw [chooseCardToDiscard, dif_pos (badCards_pos hw)]
  have hmem := List.get_mem (badCards hand)
    ⟨rand % (badCards hand).length, Nat.mod_lt _ (badCards_pos hw)⟩
  exact of_decide_eq_true (List.mem_filter.mp hmem).2

omit [NeZero m] in
/-- A card of another suit than `s` is replaced: there are no fewer cards of the suit `s`. -/
theorem ofSuit_update {hand : Fin m → Nat} {d : Fin m} {s : Fin 4} (hd : suit (hand d) ≠ s)
    (card : Nat) : ofSuit hand s ≤ ofSuit (Function.update hand d card) s := by
  have hsum := tally_update (fun card => decide (suit card = s)) hand d card
  rw [decide_eq_false hd] at hsum
  change ofSuit (Function.update hand d card) s + 0 = ofSuit hand s + _ at hsum
  omega

/-- **The exchange.**  For every hand that does not win, every random value and every card received:
the discarded card is not of the best suit, of which there are most, and the exchange does not lower
their number. -/
theorem exchange {hand : Fin m → Nat} (hw : isWinning hand = false) (rand card : Nat) :
    ofSuit hand (bestSuit (suitCounts hand)) = most hand ∧
      suit (hand (chooseCardToDiscard hand rand)) ≠ bestSuit (suitCounts hand) ∧
      most hand ≤ most (Function.update hand (chooseCardToDiscard hand rand) card) := by
  have hsuit := suit_chooseCardToDiscard hw rand
  refine ⟨(most_eq hand).symm, hsuit, ?_⟩
  calc most hand = ofSuit hand (bestSuit (suitCounts hand)) := most_eq hand
    _ ≤ ofSuit (Function.update hand _ card) (bestSuit (suitCounts hand)) := ofSuit_update hsuit card
    _ ≤ _ := ofSuit_le_most ..

/-! ### `player_work` -/

/-- What is seen of a step of `player_work`. -/
inductive Act where
  | silent
  | prints (e : Event)
  /-- `SIGINT` has ended the loop. -/
  | interrupted
  deriving DecidableEq

/-- `player_work` of one player, between the deal and its end; a card in `receive` is any. -/
inductive Work : Player m → Act → Player m → Prop where
  | begin (hand : Fin m → Nat) : Work ⟨hand, .start⟩ .silent ⟨hand, .check⟩
  | interrupt (hand : Fin m → Nat) : Work ⟨hand, .check⟩ .interrupted ⟨hand, .leaving none⟩
  | win (hand : Fin m → Nat) (hw : isWinning hand = true) :
      Work ⟨hand, .check⟩ (.prints .sails) ⟨hand, .leaving none⟩
  | choose (hand : Fin m → Nat) (rand : Nat) (hw : isWinning hand = false) :
      Work ⟨hand, .check⟩ .silent ⟨hand, .write (chooseCardToDiscard hand rand)⟩
  | pass (hand : Fin m → Nat) (d : Fin m) :
      Work ⟨hand, .write d⟩ (.prints (.passed (hand d))) ⟨hand, .read d⟩
  | epipe (hand : Fin m → Nat) (d : Fin m) : Work ⟨hand, .write d⟩ .silent ⟨hand, .leaving none⟩
  | receive (hand : Fin m → Nat) (d : Fin m) (card : Nat) :
      Work ⟨hand, .read d⟩ .silent ⟨Function.update hand d card, .check⟩
  | eof (hand : Fin m → Nat) (d : Fin m) : Work ⟨hand, .read d⟩ .silent ⟨hand, .leaving (some d)⟩
  | leave (hand : Fin m → Nat) (slot : Option (Fin m)) :
      Work ⟨hand, .leaving slot⟩ .silent ⟨hand, .closing slot⟩
  | close (hand : Fin m → Nat) (slot : Option (Fin m)) :
      Work ⟨hand, .closing slot⟩ .silent ⟨hand, .gone slot⟩

/-- What is known of a player that is past its choice: the slot was chosen for the hand, which does
not win. -/
def Chosen (p : Player m) : Prop :=
  ∀ d, p.place = .write d ∨ p.place = .read d →
    isWinning p.hand = false ∧ ∃ rand, chooseCardToDiscard p.hand rand = d

variable {p q : Player m} {a : Act}

theorem Work.chosen (h : Work p a q) (hp : Chosen p) : Chosen q := by
  intro d hd
  cases h with
  | choose hand rand hw =>
      rcases hd with hd | hd
      · cases hd; exact ⟨hw, rand, rfl⟩
      · cases hd
  | pass hand d' =>
      rcases hd with hd | hd
      · cases hd
      · cases hd; exact hp d (.inl rfl)
  | begin | interrupt | win | epipe | receive | eof | leave | close =>
      rcases hd with hd | hd <;> cases hd

/-- **One step**: only a card that is read changes the hand. -/
theorem Work.most_le (h : Work p a q) (hp : Chosen p) : most p.hand ≤ most q.hand := by
  cases h with
  | receive hand d card =>
      -- the slot that is overwritten was chosen for this very hand
      obtain ⟨hw, rand, hd⟩ := hp d (.inr rfl)
      dsimp only at hw hd
      subst hd
      exact (exchange hw rand card).2.2
  | begin | interrupt | win | choose | pass | epipe | eof | leave | close => exact Nat.le_refl _

/-- The win is announced at the test, unless `SIGINT` came before, with `m` cards of one suit. -/
theorem Work.sails_iff (h : Work p a q) :
    a = .prints .sails ↔ p.place = .check ∧ a ≠ .interrupted ∧ most p.hand = m := by
  rw [most_eq_iff]
  cases h with
  | win hand hw => simp [hw]
  | choose hand rand hw => simp [hw]
  | begin | interrupt | pass | epipe | receive | eof | leave | close => simp

/-- Where a player is in its loop, and whether it has announced its win. -/
def Announced (p : Player m) (announced : Prop) : Prop :=
  match p.place with
  | .start | .check => ¬ announced
  | .write _ | .read _ => ¬ announced ∧ most p.hand ≠ m
  | .leaving _ | .closing _ | .gone _ => announced ↔ most p.hand = m

theorem Work.announced (h : Work p a q) (ha : a ≠ .interrupted) {announced : Prop}
    (hp : Announced p announced) : Announced q (announced ∨ a = .prints .sails) := by
  cases h with
  | win hand hw => simpa [Announced, most_eq_iff] using hw
  | interrupt => exact absurd rfl ha
  | choose hand rand hw =>
      -- an exchange only follows a test that failed
      have hne : most hand ≠ m := by rw [Ne, most_eq_iff, hw]; simp
      simpa [Announced, hne] using hp
  | begin | pass | epipe | receive | eof | leave | close =>
      simp only [Announced] at hp ⊢
      simp_all

variable {hand : Fin m → Nat} {tr : List (Move (Player m) Act)}

/-- A player before its choice. -/
theorem chosen_start (hand : Fin m → Nat) : Chosen (⟨hand, .start⟩ : Player m) := by
  rintro d (hd | hd) <;> cases hd

/-- **The discard strategy.**  An exchange does not lower the largest number of cards of one suit.
So over every run of `player_work` it does not decrease; the player announces a win at exactly those
tests at which it is `m`; and if no `SIGINT` ended the loop, then a player that is past its test has
announced a win exactly if it is `m`. -/
theorem discard_law :
    (∀ (hand : Fin m → Nat) (rand card : Nat), isWinning hand = false →
      ofSuit hand (bestSuit (suitCounts hand)) = most hand ∧
        suit (hand (chooseCardToDiscard hand rand)) ≠ bestSuit (suitCounts hand) ∧
        most hand ≤ most (Function.update hand (chooseCardToDiscard hand rand) card)) ∧
    ∀ (hand : Fin m → Nat) (tr : List (Move (Player m) Act)) (p : Player m),
      Run Work ⟨hand, .start⟩ tr p →
      (∀ mv ∈ tr, most mv.before.hand ≤ most mv.after.hand) ∧
        (∀ mv ∈ tr, mv.label = .prints .sails ↔
          mv.before.place = .check ∧ mv.label ≠ .interrupted ∧ most mv.before.hand = m) ∧
        ((∀ mv ∈ tr, mv.label ≠ .interrupted) →
          Announced p (∃ mv ∈ tr, mv.label = .prints .sails)) := by
  refine ⟨fun hand rand card hw => exchange hw rand card, fun hand tr p r => ⟨?_, ?_, ?_⟩⟩
  · intro mv hmv
    obtain ⟨-, hchosen⟩ := r.invariant_at (C := fun _ _ _ => True)
      (fun hp h _ => h.chosen hp) (chosen_start hand) fun _ _ => trivial
    exact (r.step_of_mem mv hmv).most_le (hchosen mv hmv).1
  · exact fun mv hmv => (r.step_of_mem mv hmv).sails_iff
  · intro hquiet
    induction r with
    | refl => simp [Announced]
    | @snoc p q tr a r h ih =>
        have hp := ih fun mv hmv => hquiet mv (List.mem_append_left _ hmv)
        have hq := h.announced (hquiet ⟨p, a, q⟩ (by simp)) hp
        simpa [or_and_right, exists_or] using hq

/-- Three cards of one suit, and the fourth that is read. -/
theorem discard_law_fourth : ∃ (tr : List (Move (Player 4) Act)) (p : Player 4),
    Run Work ⟨![0, 4, 8, 13], .start⟩ tr p ∧ most p.hand = 4 ∧
      Announced p (∃ mv ∈ tr, mv.label = .prints .sails) := by
  have r := (((((Run.one (Work.begin ![0, 4, 8, 13])).snoc (.choose _ 0 (by decide))).snoc
    (.pass _ _)).snoc (.receive _ _ 12)).snoc (.win _ (by decide)))
  refine ⟨_, _, r, by decide, ((discard_law (m := 4)).2 _ _ _ r).2.2 (by simp)⟩

/-! ### The ring -/

variable {n : Nat} [NeZero n] {cap : Nat} {s t : State n m} {l : Fin n × Option Event}

/-- A step of the ring in which a card is discarded as `choose_card_to_discard` says. -/
def Plays (cap : Nat) (s : State n m) (l : Fin n × Option Event) (t : State n m) : Prop :=
  Step cap s l t ∧ ∀ i d, (s.player i).place = .check → (t.player i).place = .write d →
    ∃ rand, chooseCardToDiscard (s.player i).hand rand = d

/-- What is printed. -/
def Act.ofEvent : Option Event → Act
  | none => .silent
  | some e => .prints e

omit [NeZero m] in
/-- A player by where it is. -/
theorem player_eq {p : Player m} {q : Place m} (h : p.place = q) : ∃ hand, p = ⟨hand, q⟩ := by
  subst h
  exact ⟨p.hand, rfl⟩

omit [NeZero m] [NeZero n] in
@[simp] theorem go_player_self (j : Fin n) (p : Player m) (ring : Pipes (Fin n) (Fin n) Nat) :
    (s.go j p ring).player j = p :=
  Function.update_self ..

omit [NeZero n] in
/-- The player that goes on, and the others. -/
theorem go_player (j : Fin n) (p : Player m) (ring : Pipes (Fin n) (Fin n) Nat) (i : Fin n)
    (a : Act) (h : Work (s.player j) a p) :
    (s.go j p ring).player i = s.player i ∨
      i = j ∧ Work (s.player i) a ((s.go j p ring).player i) := by
  by_cases hi : i = j
  · subst hi
    rw [go_player_self]
    exact .inr ⟨rfl, h⟩
  · exact .inl (Function.update_of_ne hi ..)

/-- **The players of the ring** do nothing but `player_work`: one takes a step of it, or closes a
pipe before it, and the others none. -/
theorem Plays.work (h : Plays cap s l t) (i : Fin n) :
    t.player i = s.player i ∨ i = l.1 ∧ Work (s.player i) (Act.ofEvent l.2) (t.player i) := by
  obtain ⟨h, hchoice⟩ := h
  cases h with
  | closeRead j k hp hk | closeWrite j k hp hk =>
      left
      by_cases hi : i = j
      · subst hi; exact go_player_self ..
      · exact Function.update_of_ne hi ..
  | begin j hp hr hw =>
      refine go_player j _ _ i _ ?_
      obtain ⟨hand, hp⟩ := player_eq hp
      rw [hp]
      exact .begin hand
  | win j hp hw =>
      refine go_player j _ _ i _ ?_
      obtain ⟨hand, hp⟩ := player_eq hp
      rw [hp] at hw ⊢
      exact .win hand hw
  | choose j d hp hw =>
      refine go_player j _ _ i _ ?_
      obtain ⟨rand, rfl⟩ := hchoice j d hp (by rw [go_player_self])
      obtain ⟨hand, hp⟩ := player_eq hp
      rw [hp] at hw ⊢
      exact .choose hand rand hw
  | write j d ring hp hw =>
      refine go_player j _ _ i _ ?_
      obtain ⟨hand, hp⟩ := player_eq hp
      rw [hp]
      exact .pass hand d
  | epipe j d ring hp hw =>
      refine go_player j _ _ i _ ?_
      obtain ⟨hand, hp⟩ := player_eq hp
      rw [hp]
      exact .epipe hand d
  | read j d card ring hp hr =>
      refine go_player j _ _ i _ ?_
      obtain ⟨hand, hp⟩ := player_eq hp
      rw [hp]
      exact .receive hand d card
  | eof j d ring hp hr =>
      refine go_player j _ _ i _ ?_
      obtain ⟨hand, hp⟩ := player_eq hp
      rw [hp]
      exact .eof hand d
  | leave j slot hp =>
      refine go_player j _ _ i _ ?_
      obtain ⟨hand, hp⟩ := player_eq hp
      rw [hp]
      exact .leave hand slot
  | close j slot hp =>
      refine go_player j _ _ i _ ?_
      obtain ⟨hand, hp⟩ := player_eq hp
      rw [hp]
      exact .close hand slot

/-- **Over a run of the ring** no player's largest number of cards of one suit decreases. -/
theorem ring_most_le {unused : Fin n → Fin n → Bool × Bool} {hands : Fin n → Fin m → Nat}
    {tr : List (Move (State n m) (Fin n × Option Event))}
    (r : Run (Plays cap) (deal unused hands) tr s) :
    ∀ mv ∈ tr, ∀ i, most (mv.before.player i).hand ≤ most (mv.after.player i).hand := by
  have keep {s t : State n m} {l : Fin n × Option Event} (hs : ∀ i, Chosen (s.player i))
      (h : Plays cap s l t) (i : Fin n) : Chosen (t.player i) := by
    rcases h.work i with e | ⟨-, hwork⟩
    · rw [e]; exact hs i
    · exact hwork.chosen (hs i)
  intro mv hmv i
  obtain ⟨-, hchosen⟩ := r.invariant_at (I := fun s => ∀ i, Chosen (s.player i))
    (C := fun _ _ _ => True) (fun hs h _ => keep hs h) (fun i => chosen_start (hands i))
    fun _ _ => trivial
  rcases (r.step_of_mem mv hmv).work i with e | ⟨-, hwork⟩
  · rw [e]
  · exact hwork.most_le ((hchosen mv hmv).1 i)

end Sop2.Ship
