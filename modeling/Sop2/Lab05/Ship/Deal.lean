import Sop2.Lab05.Ship.Ring
import Sop2.Lab06.Bitronka.Sorting
import Sop2.Support.Shuffle

/-!
# Lab05 — Ship — the deal

`shuffle` of `sop-ship.c`, which `lab06/bitronka/sop-shop.c` has word for word, and what `main`
deals from the shuffled deck.

* `shuffle_law`: both are fair; the sequences of choices are the permutations of the array.
* `nodup_dealt_hands`: `main` deals no card twice.
-/

namespace Sop2.Bitronka
open Support

variable {N : Nat} {α : Type*}

/-- `shuffle(shelf, N)`. -/
def shuffleAll (rand : Nat → Nat) (shelf : Fin N → α) : Fin N → α :=
  match N, shelf with
  | 0, shelf => shelf
  | n + 1, shelf => shuffle rand shelf n (Nat.lt_succ_self n)

theorem shuffle_eq_loop (rand : Nat → Nat) (log : Fin N → α) (i : Nat) (h : i < N) :
    shuffle rand log i h = Shuffle.loop rand log i h := by
  induction i generalizing log with
  | zero => rfl
  | succ i ih => rw [shuffle, ih, Shuffle.loop]; rfl

theorem shuffleAll_eq (rand : Nat → Nat) (shelf : Fin N → α) :
    shuffleAll rand shelf = Shuffle.shuffle rand shelf := by
  cases N with
  | zero => rfl
  | succ n => exact shuffle_eq_loop rand shelf n _

end Sop2.Bitronka

namespace Sop2.Ship
open Support

variable {size : Nat} {α : Type*}

/-- `shuffle(deck, size)`; `rand i` is what `rand()` returns at the index `i`. -/
def shuffle (rand : Nat → Nat) (deck : Fin size → α) : Fin size → α := Shuffle.shuffle rand deck

/-- **The shuffle.**  For every array of distinct values and both programs: what the choices `j` in
`0, …, i` at each `i` from `size - 1` down to 1 make of the array is a bijection onto its
permutations, of which there are `size!`. -/
theorem shuffle_law {a : Fin size → α} (ha : Function.Injective a) :
    Shuffle.Fair shuffle a ∧ Shuffle.Fair Bitronka.shuffleAll a ∧
      Nat.card { b // Shuffle.Rearranges a b } = size.factorial := by
  have hfair : Shuffle.Fair Shuffle.shuffle a := Shuffle.fair_shuffle ha
  have hshop : Bitronka.shuffleAll (N := size) (α := α) = Shuffle.shuffle := by
    funext rand shelf
    exact Bitronka.shuffleAll_eq rand shelf
  refine ⟨hfair, ?_, Shuffle.card_rearranges ha⟩
  rw [hshop]
  exact hfair

/-- The six orders of three items. -/
theorem shuffle_law_three :
    Set.BijOn (fun c : Shuffle.Choices 3 => shuffle c.rand ![7, 8, 9]) Set.univ
        { b | Shuffle.Rearranges ![7, 8, 9] b } ∧
      Nat.card { b // Shuffle.Rearranges ![7, 8, 9] b } = Nat.factorial 3 := by
  have h := shuffle_law (a := ![7, 8, 9]) (by decide)
  exact ⟨h.1.bij, h.2.2⟩

/-! ### The cards that are dealt -/

/-- `deck`, before it is shuffled. -/
def deck : Fin 52 → Nat := fun i => i

/-- The hands that `main` deals: the player `i` gets the cards from `deck_index`, which is `i * m`,
on. -/
def hands {n m : Nat} (hnm : n * m ≤ 52) (rand : Nat → Nat) (i : Fin n) (k : Fin m) : Nat :=
  shuffle rand deck
    ⟨i * m + k, calc
      i * m + k < (i + 1) * m := by rw [Nat.succ_mul]; exact Nat.add_lt_add_left k.isLt _
      _ ≤ n * m := Nat.mul_le_mul_right m i.isLt
      _ ≤ 52 := hnm⟩

/-- The shuffled deck has every card once. -/
theorem shuffle_deck_injective (rand : Nat → Nat) : Function.Injective (shuffle rand deck) := by
  have hdeck : Function.Injective deck := Fin.val_injective
  obtain ⟨σ, hσ⟩ := (Shuffle.fair_shuffle hdeck).rearranges rand
  rw [shuffle, hσ]
  exact hdeck.comp σ.injective

/-- A card tells who got it, and where in the hand. -/
theorem hands_inj {n m : Nat} {hnm : n * m ≤ 52} {rand : Nat → Nat} {i i' : Fin n} {k k' : Fin m}
    (h : hands hnm rand i k = hands hnm rand i' k') : i = i' ∧ k = k' := by
  have hidx : (i * m + k : Nat) = i' * m + k' := congrArg Fin.val (shuffle_deck_injective rand h)
  have hm : 0 < m := Nat.zero_lt_of_lt k.isLt
  constructor
  · have hdiv := congrArg (· / m) hidx
    simp only [Nat.add_comm _ k.val, Nat.add_comm _ k'.val, Nat.add_mul_div_right _ _ hm,
      Nat.div_eq_of_lt k.isLt, Nat.div_eq_of_lt k'.isLt, Nat.zero_add] at hdiv
    exact Fin.ext hdiv
  · have hmod := congrArg (· % m) hidx
    simp only [Nat.add_comm _ k.val, Nat.add_comm _ k'.val, Nat.add_mul_mod_self_right,
      Nat.mod_eq_of_lt k.isLt, Nat.mod_eq_of_lt k'.isLt] at hmod
    exact Fin.ext hmod

/-- **The deal.**  No card is dealt twice. -/
theorem nodup_dealt_hands {n m : Nat} [NeZero n] [NeZero m] (hnm : n * m ≤ 52)
    (rand : Nat → Nat) : (dealt (hands (n := n) (m := m) hnm rand)).Nodup := by
  change (Finset.univ.val.bind fun i => Finset.univ.val.map (hands hnm rand i)).Nodup
  rw [Multiset.nodup_bind]
  refine ⟨fun i _ => ?_, ?_⟩
  · exact Finset.univ.nodup.map fun k k' h => (hands_inj h).2
  · refine Multiset.Nodup.pairwise (fun i _ i' _ hne => ?_) Finset.univ.nodup
    rw [Function.onFun, Multiset.disjoint_left]
    intro card hcard hcard'
    obtain ⟨k, -, rfl⟩ := Multiset.mem_map.mp hcard
    obtain ⟨k', -, h⟩ := Multiset.mem_map.mp hcard'
    exact hne (hands_inj h).1.symm

end Sop2.Ship
