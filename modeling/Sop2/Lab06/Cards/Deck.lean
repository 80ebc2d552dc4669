import Sop2.Lab06.Cards.Table
import Sop2.Support.Draws

/-!
# Lab06 — Cards — the deck in its array

`draw_card` of `sop-cards.c` and `sop-cards-semaphores`, which have it word for word, on the array
`cards` and its `last` index: the drawn card is taken out, the cards behind it move to the left, and
it is put at the end.

* `Deck.Holds`: the cards that are not yet drawn are the first `last + 1`.
* `Deck.Holds.drawCard`: so `draw_card` on the array is `drawCard` of `Table` on what it holds.
* `Deck.drawer`: and it draws without replacement.
-/

namespace Sop2.Cards
open Support

/-- Why a call of `draw_card` gives no card. -/
inductive Halt where
  /-- `ERR("draw_card")`. -/
  | err
  /-- An index outside `cards`. -/
  | outside
  deriving DecidableEq, Repr

/-- `cards` and `last` of `player_work`. -/
structure Deck where
  cards : List Int
  last : Int

/-- After `create_cards(cards, m)`. -/
def Deck.create (m : Nat) : Deck := ⟨createCards m, m - 1⟩

/-- `cards[i] = cards[i + 1]`, for a number of indices from `i` on. -/
def shift (cards : List Int) (i : Nat) : Nat → Except Halt (List Int)
  | 0 => .ok cards
  | k + 1 =>
      match cards[i + 1]? with
      | none => .error .outside
      | some c => shift (cards.set i c) (i + 1) k

/-- `draw_card`. -/
def Deck.drawCard (d : Deck) (rand : Nat) : Except Halt (Int × Deck) :=
  if d.last < 0 then .error .err
  else
    let cardIdx := rand % (d.last + 1).toNat
    match d.cards[cardIdx]? with
    | none => .error .outside
    | some drawn =>
        match shift d.cards cardIdx (d.last.toNat - cardIdx) with
        | .error e => .error e
        | .ok cards =>
            if d.last.toNat < cards.length then
              .ok (drawn, ⟨cards.set d.last.toNat drawn, d.last - 1⟩)
            else .error .outside

/-! ### What the array holds -/

/-- The cards that are not yet drawn are `left`, and they are the first `last + 1`. -/
def Deck.Holds (d : Deck) (left : List Int) : Prop :=
  ∃ drawn, d.cards = left ++ drawn ∧ d.last = (left.length : Int) - 1

/-- The first `last + 1` cards. -/
def Deck.undrawn (d : Deck) : List Int := d.cards.take (d.last + 1).toNat

theorem Deck.Holds.undrawn {d : Deck} {left : List Int} (h : d.Holds left) : d.undrawn = left := by
  obtain ⟨drawn, hcards, hlast⟩ := h
  have hlen : (d.last + 1).toNat = left.length := by omega
  rw [Deck.undrawn, hlen, hcards, List.take_left]

theorem Deck.holds_create (m : Nat) : (Deck.create m).Holds (createCards m) :=
  ⟨[], by simp [Deck.create], by simp [Deck.create]⟩

/-- The cards of `mid` move to the left by one, over the card before them. -/
theorem shift_eq (before mid after : List Int) (x : Int) :
    ∃ y, shift (before ++ x :: mid ++ after) before.length mid.length =
      .ok (before ++ mid ++ y :: after) := by
  induction mid generalizing before x with
  | nil => exact ⟨x, by simp [shift]⟩
  | cons c mid ih =>
      obtain ⟨y, hy⟩ := ih (before ++ [c]) c
      refine ⟨y, ?_⟩
      have hget : (before ++ x :: c :: mid ++ after)[before.length + 1]? = some c := by simp
      have hset : (before ++ x :: c :: mid ++ after).set before.length c =
          before ++ [c] ++ c :: mid ++ after := by simp
      rw [List.length_append, List.length_singleton] at hy
      simp only [List.length_cons, shift, hget, hset, hy]
      simp

/-- **`draw_card` in the array.**  The card is the one that `drawCard` takes from the cards not yet
drawn, and the others are the prefix again. -/
theorem Deck.Holds.drawCard {d : Deck} {left left' : List Int} (h : d.Holds left) {rand : Nat}
    {drawn : Int} (hdraw : Cards.drawCard left rand = some (drawn, left')) :
    ∃ d', d.drawCard rand = .ok (drawn, d') ∧ d'.Holds left' := by
  obtain ⟨after, hcards, hlast⟩ := h
  obtain ⟨c, hget, heq⟩ := Option.map_eq_some_iff.mp hdraw
  cases heq
  obtain ⟨hlt, rfl⟩ := List.getElem?_eq_some_iff.mp hget
  generalize hidx : rand % left.length = idx at *
  -- the card, and what stands before and behind it
  obtain ⟨before, x, mid, hleft, hbefore, hx⟩ : ∃ before x mid, left = before ++ x :: mid ∧
      before.length = idx ∧ left[idx] = x :=
    ⟨left.take idx, left[idx], left.drop (idx + 1), by simp, by simp; omega, rfl⟩
  have hmod : rand % (d.last + 1).toNat = before.length := by
    rw [hbefore, ← hidx]
    congr 1
    omega
  have hlen : left.length = before.length + (mid.length + 1) := by simp [hleft]
  have hsteps : d.last.toNat - before.length = mid.length := by omega
  have hend : d.last.toNat = (before ++ mid).length := by rw [List.length_append]; omega
  have hfirst : (before ++ x :: mid ++ after)[before.length]? = some x := by simp
  have hshape : d.cards = before ++ x :: mid ++ after := by rw [hcards, hleft]
  obtain ⟨y, hshift⟩ := shift_eq before mid after x
  have herase : left.eraseIdx idx = before ++ mid := by
    rw [hleft, ← hbefore, List.eraseIdx_append_of_length_le (Nat.le_refl _), Nat.sub_self]
    rfl
  refine ⟨⟨before ++ mid ++ x :: after, d.last - 1⟩, ?_, ⟨x :: after, by rw [herase], ?_⟩⟩
  · rw [Deck.drawCard, if_neg (by omega)]
    simp only [hmod, hshape, hfirst, hsteps, hshift]
    rw [if_pos (by rw [hend]; simp), hend, hx]
    simp
  · rw [herase, List.length_append]
    dsimp only
    omega

/-- `draw_card` draws without replacement. -/
theorem Deck.drawer : Drawer Deck.drawCard Deck.undrawn fun d => d.Holds d.undrawn where
  step := by
    intro d hd hne rand
    obtain ⟨⟨drawn, left⟩, hdraw⟩ : ∃ r, Cards.drawCard d.undrawn rand = some r :=
      Option.ne_none_iff_exists'.mp fun hnone => hne (drawCard_eq_none.mp hnone)
    obtain ⟨d', hd', hleft⟩ := hd.drawCard hdraw
    refine ⟨drawn, d', hd', ?_, ?_⟩
    · rw [hleft.undrawn]; exact hleft
    · rw [hleft.undrawn]; exact drawCard_perm hdraw

/-- The cards are the numbers from 1 to `m`. -/
theorem mem_createCards {m : Nat} {c : Int} : c ∈ createCards m ↔ 1 ≤ c ∧ c ≤ m := by
  rw [createCards, List.mem_map]
  constructor
  · rintro ⟨i, hi, rfl⟩
    have := List.mem_range.mp hi
    omega
  · intro h
    exact ⟨(c - 1).toNat, List.mem_range.mpr (by omega), by omega⟩

theorem nodup_createCards (m : Nat) : (createCards m).Nodup :=
  List.nodup_range.map fun i j h => by omega

end Sop2.Cards
