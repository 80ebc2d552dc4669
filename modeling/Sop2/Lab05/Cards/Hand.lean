import Sop2.Lab05.Cards.Game
import Sop2.Lab06.Cards.Deck

/-!
# Lab05 — Cards — the hand in its array

The array `cards` of `player_work` in `lab05/sop-cards/sop-cards.c`, and `remaining`: the drawn card
is overwritten with the last of those that remain.

* `Hand.Holds`: the cards that are not yet drawn are the first `remaining`.
* `Hand.Holds.drawCard`: so a draw from the array is `drawCard` of `Game` on what it holds.
* `draws_law`: here and in the two programs of `lab06`, the cards are drawn without replacement.
-/

namespace Sop2.PipeCards
open Support

/-- Why nothing can be drawn. -/
inductive Halt where
  /-- `rand() % remaining`, and nothing remains. -/
  | divisionByZero
  /-- An index outside `cards`. -/
  | outside
  deriving DecidableEq, Repr

/-- `cards` and `remaining`. -/
structure Hand where
  cards : List Nat
  remaining : Nat

/-- `cards[i] = i + 1` for all `i` below `m`. -/
def Hand.create (m : Nat) : Hand := ⟨(List.range m).map (· + 1), m⟩

/-- The draw of `player_work`. -/
def Hand.drawCard (h : Hand) (rand : Nat) : Except Halt (Nat × Hand) :=
  if h.remaining = 0 then .error .divisionByZero
  else
    let randId := rand % h.remaining
    match h.cards[randId]?, h.cards[h.remaining - 1]? with
    | some myCard, some last => .ok (myCard, ⟨h.cards.set randId last, h.remaining - 1⟩)
    | _, _ => .error .outside

/-! ### What the array holds -/

/-- The cards that are not yet drawn are `left`, and they are the first `remaining`. -/
def Hand.Holds (h : Hand) (left : List Nat) : Prop :=
  ∃ stale, h.cards = left ++ stale ∧ h.remaining = left.length

/-- The first `remaining` cards. -/
def Hand.undrawn (h : Hand) : List Nat := h.cards.take h.remaining

theorem Hand.Holds.undrawn {h : Hand} {left : List Nat} (hh : h.Holds left) : h.undrawn = left := by
  obtain ⟨stale, hcards, hremaining⟩ := hh
  rw [Hand.undrawn, hremaining, hcards, List.take_left]

theorem Hand.holds_create (m : Nat) : (Hand.create m).Holds ((List.range m).map (· + 1)) :=
  ⟨[], by simp [Hand.create], by simp [Hand.create]⟩

theorem drawCard_ne_none {left : List Nat} (hne : left ≠ []) (rand : Nat) :
    ∃ r, PipeCards.drawCard left rand = some r := by
  have hlt : rand % left.length < left.length := Nat.mod_lt _ (List.length_pos_iff.mpr hne)
  rw [PipeCards.drawCard, List.getElem?_eq_getElem hlt]
  exact ⟨_, rfl⟩

/-- One that is not empty, by its last element. -/
theorem eq_append_last {left : List Nat} (hne : left ≠ []) :
    ∃ before last, left = before ++ [last] := by
  rcases List.eq_nil_or_concat left with hnil | ⟨before, last, h⟩
  · exact absurd hnil hne
  · exact ⟨before, last, h.trans List.concat_eq_append⟩

/-- The last card takes the place of the one at `idx`, and stays where it is. -/
theorem set_last (before : List Nat) (last : Nat) {idx : Nat}
    (hidx : idx < (before ++ [last]).length) :
    ∃ rest, (before ++ [last]).set idx last = rest ++ [last] ∧
      (before ++ [last]).Perm ((before ++ [last])[idx] :: rest) := by
  rcases Nat.lt_or_ge idx before.length with hlt | hge
  · refine ⟨before.set idx last, List.set_append_left _ _ hlt, ?_⟩
    rw [List.getElem_append_left hlt]
    calc (before ++ [last]).Perm (last :: before) := List.perm_append_singleton ..
      _ |>.Perm (last :: before[idx] :: before.eraseIdx idx) :=
          (List.getElem_cons_eraseIdx_perm hlt).symm.cons last
      _ |>.Perm (before[idx] :: last :: before.eraseIdx idx) := .swap ..
      _ |>.Perm (before[idx] :: before.set idx last) :=
          (List.set_perm_cons_eraseIdx hlt last).symm.cons _
  · -- the last one itself
    obtain rfl : idx = before.length := by
      rw [List.length_append, List.length_singleton] at hidx
      omega
    refine ⟨before, ?_, ?_⟩
    · rw [List.set_append_right _ _ (Nat.le_refl _), Nat.sub_self, List.set_cons_zero]
    · rw [List.getElem_concat_length rfl]
      exact List.perm_append_singleton ..

/-- The card that is drawn, and what is left of the others. -/
theorem drawCard_perm {left left' : List Nat} {rand card : Nat}
    (h : PipeCards.drawCard left rand = some (card, left')) : left.Perm (card :: left') := by
  obtain ⟨c, hc, heq⟩ := Option.map_eq_some_iff.mp h
  cases heq
  obtain ⟨hlt, rfl⟩ := List.getElem?_eq_some_iff.mp hc
  obtain ⟨before, last, rfl⟩ := eq_append_last (List.ne_nil_of_length_pos (Nat.zero_lt_of_lt hlt))
  obtain ⟨rest, hset, hperm⟩ := set_last before last hlt
  rw [List.getLastD_concat, hset, List.dropLast_concat]
  exact hperm

/-- **The draw in the array.**  The card is the one that `drawCard` takes from the cards not yet
drawn, and the others are the prefix again. -/
theorem Hand.Holds.drawCard {h : Hand} {left left' : List Nat} (hh : h.Holds left) {rand card : Nat}
    (hdraw : PipeCards.drawCard left rand = some (card, left')) :
    ∃ h', h.drawCard rand = .ok (card, h') ∧ h'.Holds left' := by
  obtain ⟨stale, hcards, hremaining⟩ := hh
  obtain ⟨c, hc, heq⟩ := Option.map_eq_some_iff.mp hdraw
  cases heq
  obtain ⟨hlt, rfl⟩ := List.getElem?_eq_some_iff.mp hc
  obtain ⟨before, last, rfl⟩ := eq_append_last (List.ne_nil_of_length_pos (Nat.zero_lt_of_lt hlt))
  obtain ⟨rest, hset, -⟩ := set_last before last hlt
  have hpos : h.remaining ≠ 0 := by rw [hremaining]; simp
  have hfirst : h.cards[rand % h.remaining]? =
      some ((before ++ [last])[rand % (before ++ [last]).length]) := by
    rw [hremaining, hcards, List.getElem?_append_left hlt, List.getElem?_eq_getElem hlt]
  have hlast : h.cards[h.remaining - 1]? = some last := by
    rw [hremaining, hcards]
    simp
  refine ⟨⟨h.cards.set (rand % h.remaining) last, h.remaining - 1⟩, ?_, ⟨last :: stale, ?_, ?_⟩⟩
  · rw [Hand.drawCard, if_neg hpos]
    simp only [hfirst, hlast]
  · rw [hremaining, hcards, List.getLastD_concat, List.set_append_left _ _ hlt, hset,
      List.dropLast_concat, List.append_assoc, List.singleton_append]
  · rw [hremaining]
    simp

/-- `player_work` draws without replacement. -/
theorem Hand.drawer : Drawer Hand.drawCard Hand.undrawn fun h => h.Holds h.undrawn where
  step := by
    intro h hh hne rand
    obtain ⟨⟨card, left⟩, hdraw⟩ := drawCard_ne_none hne rand
    obtain ⟨h', hh', hleft⟩ := hh.drawCard hdraw
    refine ⟨card, h', hh', ?_, ?_⟩
    · rw [hleft.undrawn]; exact hleft
    · rw [hleft.undrawn]; exact drawCard_perm hdraw

theorem mem_create {m c : Nat} : c ∈ (Hand.create m).cards ↔ 1 ≤ c ∧ c ≤ m := by
  rw [Hand.create, List.mem_map]
  constructor
  · rintro ⟨i, hi, rfl⟩
    have := List.mem_range.mp hi
    omega
  · intro h
    exact ⟨c - 1, List.mem_range.mpr (by omega), by omega⟩

theorem nodup_create (m : Nat) : (Hand.create m).cards.Nodup :=
  List.nodup_range.map fun i j h => by simpa using h

/-! ### All draws of a game -/

/-- The first `k` cards that `draw_card` of `lab06` draws of `m`: no call ends with `ERR`, and the
cards not drawn are the first `last + 1`. -/
theorem deck_draws (rand : Nat → Nat) {m k : Nat} (hk : k ≤ m) :
    ∃ drawn d, drawMany Cards.Deck.drawCard rand (Cards.Deck.create m) k = .ok (drawn, d) ∧
      drawn.length = k ∧ d.last + 1 = m - k ∧
      Drawn (Cards.createCards m) drawn (d.cards.take (d.last + 1).toNat) := by
  have hcreate := Cards.Deck.holds_create m
  have hstart : (Cards.Deck.create m).undrawn = Cards.createCards m := hcreate.undrawn
  obtain ⟨drawn, d, hrun, ⟨_, -, hlast⟩, hlen, hleft, hdrawn⟩ := Cards.Deck.drawer.drawn rand
    (s := Cards.Deck.create m) (hstart.symm ▸ hcreate)
    (hstart.symm ▸ Cards.nodup_createCards m) (k := k) (by rw [hstart]; simpa using hk)
  rw [hstart] at hleft hdrawn
  rw [Cards.length_createCards] at hleft
  exact ⟨drawn, d, hrun, hlen, by omega, hdrawn⟩

/-- The first `k` cards that `player_work` of `lab05` draws of `m`: nothing is divided by 0, and the
cards not drawn are the first `remaining`. -/
theorem hand_draws (rand : Nat → Nat) {m k : Nat} (hk : k ≤ m) :
    ∃ drawn h, drawMany Hand.drawCard rand (Hand.create m) k = .ok (drawn, h) ∧
      drawn.length = k ∧ h.remaining = m - k ∧
      Drawn (Hand.create m).cards drawn (h.cards.take h.remaining) := by
  have hcreate := Hand.holds_create m
  have hstart : (Hand.create m).undrawn = (Hand.create m).cards := hcreate.undrawn
  obtain ⟨drawn, h, hrun, ⟨_, -, hremaining⟩, hlen, hleft, hdrawn⟩ := Hand.drawer.drawn rand
    (s := Hand.create m) (hstart.symm ▸ hcreate) (hstart.symm ▸ nodup_create m) (k := k)
    (by rw [hstart]; simpa [Hand.create] using hk)
  rw [hstart] at hleft hdrawn
  have hm : (Hand.create m).cards.length = m := by simp [Hand.create]
  exact ⟨drawn, h, hrun, hlen, by omega, hdrawn⟩

/-- **Drawing without replacement.**  For every number of cards and every random stream, in all
three programs: the first `k` cards drawn are different numbers from 1 to `m`, all of them if `k` is
`m`; the cards not yet drawn are the prefix of the array; and no draw fails. -/
theorem draws_law (rand : Nat → Nat) {m k : Nat} (hk : k ≤ m) :
    (∃ drawn d, drawMany Cards.Deck.drawCard rand (Cards.Deck.create m) k = .ok (drawn, d) ∧
      drawn.length = k ∧ (∀ c ∈ drawn, 1 ≤ c ∧ c ≤ m) ∧ d.last + 1 = m - k ∧
      Drawn (Cards.createCards m) drawn (d.cards.take (d.last + 1).toNat)) ∧
    ∃ drawn h, drawMany Hand.drawCard rand (Hand.create m) k = .ok (drawn, h) ∧
      drawn.length = k ∧ (∀ c ∈ drawn, 1 ≤ c ∧ c ≤ m) ∧ h.remaining = m - k ∧
      Drawn (Hand.create m).cards drawn (h.cards.take h.remaining) := by
  obtain ⟨drawn, d, hrun, hlen, hlast, hdrawn⟩ := deck_draws rand hk
  obtain ⟨drawn', h, hrun', hlen', hremaining, hdrawn'⟩ := hand_draws rand hk
  refine ⟨⟨drawn, d, hrun, hlen, fun c hc => ?_, hlast, hdrawn⟩,
    ⟨drawn', h, hrun', hlen', fun c hc => ?_, hremaining, hdrawn'⟩⟩
  · exact Cards.mem_createCards.mp (hdrawn.mem_drawn c hc)
  · exact mem_create.mp (hdrawn'.mem_drawn c hc)

/-- All of three cards, drawn in either way. -/
theorem draws_law_three :
    (∃ drawn d, drawMany Cards.Deck.drawCard (fun i => 5 * i) (Cards.Deck.create 3) 3 =
      .ok (drawn, d) ∧ drawn.Perm [1, 2, 3]) ∧
    ∃ drawn h, drawMany Hand.drawCard (fun i => 5 * i) (Hand.create 3) 3 = .ok (drawn, h) ∧
      drawn.Perm [1, 2, 3] := by
  obtain ⟨⟨drawn, d, hrun, hlen, -, -, hdrawn⟩, drawn', h, hrun', hlen', -, -, hdrawn'⟩ :=
    draws_law (fun i => 5 * i) (m := 3) (k := 3) (Nat.le_refl 3)
  exact ⟨⟨drawn, d, hrun, hdrawn.all hlen⟩, drawn', h, hrun', hdrawn'.all hlen'⟩

end Sop2.PipeCards
