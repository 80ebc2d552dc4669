import Mathlib.Data.List.Perm.Basic
import Mathlib.Algebra.Order.Ring.Int
import Sop2.Support.Highest
import Sop2.Support.Shared

/-!
# Lab06 — Cards — the table

What the two programs of `lab06/sop-cards` have in common: the data of the players in the shared
memory, the cards, and what can be seen of a game.  The server looks at the cards of those who play,
one after the other, for the highest of them and how often it was drawn (`look`).
-/

namespace Sop2.Cards
open Support

inductive Activity where
  | playing
  | resigned
  deriving DecidableEq

/-- `player_data_t`. -/
structure PlayerData where
  card : Int
  score : Int
  active : Activity
  deriving DecidableEq

/-- After `memset`. -/
def PlayerData.zero : PlayerData := ⟨0, 0, .playing⟩

/-- The rows of the players. -/
abbrev Table (n : Nat) := Fin n → PlayerData

/-- What can be seen of a game. -/
inductive Event (n : Nat) where
  /-- The server begins a round with `active` players. -/
  | round (i active : Nat)
  | drew (j : Fin n) (card : Int)
  /-- The server looks at a card. -/
  | saw (i : Nat) (j : Fin n) (card : Int)
  /-- `score += winning_score`. -/
  | awarded (i : Nat) (j : Fin n) (points : Nat)
  /-- A player reads its score. -/
  | scored (i : Nat) (j : Fin n) (points : Int)
  deriving DecidableEq

variable {n : Nat}

/-! ### The cards -/

def createCards (m : Nat) : List Int := (List.range m).map fun i : Nat => (i : Int) + 1

/-- `draw_card`: the card, and the cards that are left; `ERR` when there are none. -/
def drawCard (cards : List Int) (rand : Nat) : Option (Int × List Int) :=
  cards[rand % cards.length]?.map fun drawn => (drawn, cards.eraseIdx (rand % cards.length))

def shouldResign (rand : Nat) : Activity := if rand % 5 = 0 then .resigned else .playing

@[simp] theorem length_createCards (m : Nat) : (createCards m).length = m := by simp [createCards]

theorem createCards_pos {m : Nat} : ∀ c ∈ createCards m, 0 < c := by
  intro c hc
  obtain ⟨i, -, rfl⟩ := List.mem_map.mp hc
  exact Int.lt_add_one_of_le (Int.natCast_nonneg i)

theorem drawCard_eq_none {cards : List Int} {rand : Nat} :
    drawCard cards rand = none ↔ cards = [] := by
  rw [drawCard, Option.map_eq_none_iff, List.getElem?_eq_none_iff]
  constructor
  · intro h
    by_contra hne
    exact absurd (Nat.mod_lt rand (List.length_pos_iff.mpr hne)) (Nat.not_lt.mpr h)
  · rintro rfl
    exact Nat.zero_le _

theorem drawCard_perm {cards left : List Int} {rand : Nat} {drawn : Int}
    (h : drawCard cards rand = some (drawn, left)) : cards.Perm (drawn :: left) := by
  obtain ⟨c, hc, heq⟩ := Option.map_eq_some_iff.mp h
  cases heq
  obtain ⟨hlt, rfl⟩ := List.getElem?_eq_some_iff.mp hc
  exact (List.getElem_cons_eraseIdx_perm hlt).symm

/-! ### The highest card -/

/-- Who plays. -/
def playing (table : Table n) (j : Fin n) : Bool := decide ((table j).active = .playing)

def cardOf (table : Table n) (j : Fin n) : Int := (table j).card

/-- The server looks at one row: `winning_card` and `winning_count`. -/
def look (row : PlayerData) (best : Int × Nat) : Int × Nat :=
  if row.active = .resigned then best else challenge best row.card

/-- After the rows `l`. -/
abbrev HighestOf (table : Table n) (l : List (Fin n)) (best : Int × Nat) : Prop :=
  Highest (-1) (valuesOf (playing table) (cardOf table) l) best

theorem HighestOf.look {table : Table n} {l : List (Fin n)} {best : Int × Nat} {j : Fin n}
    (h : HighestOf table l best) (hj : (table j).active = .playing → 0 < (table j).card) :
    HighestOf table (l ++ [j]) (look (table j) best) := by
  rw [HighestOf, valuesOf_snoc, Cards.look]
  cases hactive : (table j).active with
  | resigned =>
      rw [if_neg (by simp [playing, hactive]), if_pos rfl, List.append_nil]
      exact h
  | playing =>
      rw [if_pos (by simp [playing, hactive]), if_neg (by simp)]
      exact h.snoc (lt_trans (by decide) (hj hactive))

/-- Whether `j` plays and has the card. -/
def holds (table : Table n) (card : Int) : Fin n → Bool :=
  hasValue (playing table) (cardOf table) card

theorem holds_iff {table : Table n} {card : Int} {j : Fin n} :
    holds table card j = true ↔ (table j).active = .playing ∧ (table j).card = card := by
  rw [holds, hasValue, Bool.and_eq_true, decide_eq_true_iff, playing, decide_eq_true_iff]
  rfl

/-- What `j` gets. -/
def prize (table : Table n) (points : Nat) (best : Int × Nat) (j : Fin n) : Nat :=
  if holds table best.1 j then points / tally id (holds table best.1) else 0

/-- The server compares one row. -/
theorem prize_eq {table : Table n} {points : Nat} {best : Int × Nat}
    (h : HighestOf table (List.finRange n) best) (j : Fin n) :
    prize table points best j =
      if (table j).active = .playing ∧ (table j).card = best.1 then points / best.2 else 0 := by
  rw [prize, h.spec.2.1]
  exact if_congr holds_iff rfl rfl

theorem sum_prize_le (table : Table n) (points : Nat) (best : Int × Nat) :
    ∑ j, prize table points best j ≤ points := sum_share_le (holds table best.1) points

section
variable {table : Table n} {j : Fin n} {x : Int}

/-- A new score changes neither who plays nor the cards. -/
theorem playing_score : playing (Function.update table j { table j with score := x }) =
    playing table := by
  funext k
  by_cases hk : k = j
  · subst hk; simp [playing]
  · simp [playing, hk]

theorem cardOf_score : cardOf (Function.update table j { table j with score := x }) =
    cardOf table := by
  funext k
  by_cases hk : k = j
  · subst hk; simp [cardOf]
  · simp [cardOf, hk]

theorem highestOf_score {l : List (Fin n)} {best : Int × Nat} :
    HighestOf (Function.update table j { table j with score := x }) l best ↔
      HighestOf table l best := by
  rw [HighestOf, playing_score, cardOf_score]

theorem prize_score {points : Nat} {best : Int × Nat} :
    prize (Function.update table j { table j with score := x }) points best =
      prize table points best := by
  have hholds : holds (Function.update table j { table j with score := x }) best.1 =
      holds table best.1 := by
    rw [holds, playing_score, cardOf_score, holds]
  funext k
  rw [prize, hholds, prize]

end

/-! ### What is seen -/

def Event.drawnBy? (j : Fin n) : Event n → Option Int
  | .drew j' card => if j' = j then some card else none
  | _ => none

/-- The cards that `j` has drawn, in order. -/
def drawn (j : Fin n) (es : List (Event n)) : List Int := es.filterMap (Event.drawnBy? j)

def Event.pointsTo (i : Nat) (j : Fin n) : Event n → Nat
  | .awarded i' j' points => if i' = i ∧ j' = j then points else 0
  | _ => 0

/-- The points that the server has added to the score of `j` in round `i`. -/
def points (i : Nat) (j : Fin n) (es : List (Event n)) : Nat :=
  (es.map (Event.pointsTo i j)).sum

theorem drawn_append (j : Fin n) (es fs : List (Event n)) :
    drawn j (es ++ fs) = drawn j es ++ drawn j fs := List.filterMap_append ..

theorem points_append (i : Nat) (j : Fin n) (es fs : List (Event n)) :
    points i j (es ++ fs) = points i j es + points i j fs := by
  rw [points, List.map_append, List.sum_append]
  rfl

end Sop2.Cards
