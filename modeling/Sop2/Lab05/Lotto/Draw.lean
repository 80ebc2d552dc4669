import Mathlib.Data.Finset.Dedup
import Sop2.Lab05.Lotto.Game

/-!
# Lab05 — Lotto — the draw

`draw`, `compare` and `get_reward` of `sop-lotto.c` on their arrays, for any `RAND_MAX`: an index
outside an array has no defined behaviour, and there is no result.

* `index_range`: the index that is computed in `draw` is in the rest of `numbers_all`.
* `rounds_perm`: so every swap is one, and `numbers_all` stays a permutation.
* `compareAt_eq`: on two draws `compare` counts the common numbers.
* `draw_law`: two draws, their comparison and its reward.
* `drawAt_eq`, `compareAt_compare`: `draw` and `compare` of `Game` are these, for its `RAND_MAX`.
-/

namespace Sop2.Lotto
open Support

/-! ### The functions -/

/-- `numbers_all` before the loop of swaps. -/
def numbersAll : List Nat := (List.range numbersMax).map (· + 1)

/-- `j`. -/
def index (R i r : Nat) : Nat := i + r / (R / (numbersMax - i) + 1)

/-- `SWAP(numbers_all[i], numbers_all[j])`. -/
def swapAt (all : List Nat) (i j : Nat) : Option (List Nat) :=
  match all[i]?, all[j]? with
  | some x, some y => some ((all.set i y).set j x)
  | _, _ => none

/-- `numbers_all` after the first `k` rounds of the loop; `rand i` is what `rand()` returns in the
round `i`. -/
def rounds (R : Nat) (rand : Nat → Nat) : Nat → Option (List Nat)
  | 0 => some numbersAll
  | k + 1 => (rounds R rand k).bind fun all => swapAt all k (index R k (rand k))

/-- `draw`. -/
def drawAt (R : Nat) (rand : Nat → Nat) : Option (List Nat) :=
  (rounds R rand (numbersMax - 1)).bind fun all => (List.range numbersCount).mapM fun i => all[i]?

/-- `compare`. -/
def compareAt (bet numbers : List Nat) : Nat :=
  numbers.foldl (fun result number =>
    bet.foldl (fun result b => if number = b then result + 1 else result) result) 0

/-- `get_reward`. -/
def getRewardAt (matched : Nat) : Option Nat := [0, 0, 0, 24, 160, 6000, 10000000][matched]?

/-! ### The index -/

/-- **The index is in the rest of the array**, for every `RAND_MAX` and random value up to it. -/
theorem index_range {R i r : Nat} (hi : i < numbersMax) (hr : r ≤ R) :
    i ≤ index R i r ∧ index R i r < numbersMax := by
  have hpos : 0 < numbersMax - i := Nat.sub_pos_of_lt hi
  have hdiv : r / (R / (numbersMax - i) + 1) < numbersMax - i := by
    rw [Nat.div_lt_iff_lt_mul (Nat.succ_pos _)]
    calc r ≤ R := hr
      _ < (numbersMax - i) * (R / (numbersMax - i) + 1) := Nat.lt_mul_div_succ R hpos
  refine ⟨Nat.le_add_right .., ?_⟩
  calc index R i r < i + (numbersMax - i) := Nat.add_lt_add_left hdiv i
    _ = numbersMax := Nat.add_sub_cancel' hi.le

/-! ### The array -/

theorem length_numbersAll : numbersAll.length = numbersMax := by simp [numbersAll]

theorem mem_numbersAll {c : Nat} : c ∈ numbersAll ↔ 1 ≤ c ∧ c ≤ numbersMax := by
  rw [numbersAll, List.mem_map]
  constructor
  · rintro ⟨i, hi, rfl⟩
    have := List.mem_range.mp hi
    omega
  · intro h
    exact ⟨c - 1, List.mem_range.mpr (by omega), by omega⟩

theorem nodup_numbersAll : numbersAll.Nodup :=
  List.nodup_range.map fun i j h => by simpa using h

/-- A swap of two indices of the array. -/
theorem swapAt_perm {all : List Nat} {i j : Nat} (hi : i < all.length) (hj : j < all.length) :
    ∃ all', swapAt all i j = some all' ∧ all'.Perm all := by
  refine ⟨(all.set i all[j]).set j all[i], ?_, ?_⟩
  · rw [swapAt, List.getElem?_eq_getElem hi, List.getElem?_eq_getElem hj]
  -- as a vector, where the swap of two elements is known to be a permutation
  · let vec : Vector Nat all.length := ⟨all.toArray, rfl⟩
    have hvec : (vec.swap i j hi hj).Perm vec := Vector.swap_perm hi hj
    rw [Vector.perm_iff_toList_perm, Vector.toList_swap] at hvec
    exact hvec

/-- **`numbers_all` stays a permutation.** -/
theorem rounds_perm {R : Nat} {rand : Nat → Nat} (hrand : ∀ i, rand i ≤ R) :
    ∀ k, k ≤ numbersMax - 1 → ∃ all, rounds R rand k = some all ∧ all.Perm numbersAll
  | 0, _ => ⟨_, rfl, .refl _⟩
  | k + 1, hk => by
      obtain ⟨all, hall, hperm⟩ := rounds_perm hrand k (Nat.le_of_succ_le hk)
      have hlen : all.length = numbersMax := hperm.length_eq.trans length_numbersAll
      have hlt : k < numbersMax := Nat.lt_of_lt_of_le hk (Nat.sub_le _ _)
      have hk' : k < all.length := by rw [hlen]; exact hlt
      have hindex : index R k (rand k) < all.length := by
        rw [hlen]
        exact (index_range hlt (hrand k)).2
      obtain ⟨all', hswap, hperm'⟩ := swapAt_perm hk' hindex
      exact ⟨all', by rw [rounds, hall, Option.bind_some, hswap], hperm'.trans hperm⟩

/-- A draw: different numbers from 1 to `NUMBERS_MAX`. -/
structure Lawful (numbers : List Nat) : Prop where
  length : numbers.length = numbersCount
  nodup : numbers.Nodup
  range : ∀ c ∈ numbers, 1 ≤ c ∧ c ≤ numbersMax

/-- The first elements of a list that has as many. -/
theorem mapM_range (all : List Nat) :
    ∀ k, k ≤ all.length → (List.range k).mapM (fun i => all[i]?) = some (all.take k) := by
  intro k
  induction k with
  | zero => exact fun _ => rfl
  | succ k ih =>
      intro hk
      have hlast : [k].mapM (fun i => all[i]?) = some [all[k]] := by
        rw [List.mapM_cons, List.getElem?_eq_getElem hk]
        rfl
      rw [List.range_succ, List.mapM_append, ih (Nat.le_of_succ_le hk), hlast,
        List.take_add_one, List.getElem?_eq_getElem hk]
      rfl

theorem drawAt_lawful {R : Nat} {rand : Nat → Nat} (hrand : ∀ i, rand i ≤ R) :
    ∃ numbers, drawAt R rand = some numbers ∧ Lawful numbers := by
  obtain ⟨all, hall, hperm⟩ := rounds_perm hrand (numbersMax - 1) (Nat.le_refl _)
  have hlen : all.length = numbersMax := hperm.length_eq.trans length_numbersAll
  have hle : numbersCount ≤ all.length := by rw [hlen]; decide
  refine ⟨all.take numbersCount, ?_, ?_, ?_, ?_⟩
  · rw [drawAt, hall, Option.bind_some, mapM_range all _ hle]
  · rw [List.length_take, Nat.min_eq_left hle]
  · exact (hperm.nodup_iff.mpr nodup_numbersAll).sublist (List.take_sublist ..)
  · exact fun c hc => mem_numbersAll.mp (hperm.mem_iff.mp (List.mem_of_mem_take hc))

/-! ### The comparison -/

theorem foldl_count (bet : List Nat) (number result : Nat) :
    bet.foldl (fun result b => if number = b then result + 1 else result) result =
      result + bet.count number := by
  induction bet generalizing result with
  | nil => rfl
  | cons b bet ih =>
      rw [List.foldl_cons, ih, List.count_cons]
      by_cases h : number = b
      · subst h; simp; omega
      · have h' : ¬ b = number := fun e => h e.symm
        simp [h, h']

/-- `compare`, with the bounds of its loops gone. -/
theorem compareAt_sum (bet numbers : List Nat) :
    compareAt bet numbers = (numbers.map fun number => bet.count number).sum := by
  have hfold (result : Nat) : numbers.foldl (fun result number =>
      bet.foldl (fun result b => if number = b then result + 1 else result) result) result =
      result + (numbers.map fun number => bet.count number).sum := by
    induction numbers generalizing result with
    | nil => rfl
    | cons number numbers ih =>
        rw [List.foldl_cons, ih, foldl_count, List.map_cons, List.sum_cons, Nat.add_assoc]
  rw [compareAt, hfold, Nat.zero_add]

theorem sum_mem (bet numbers : List Nat) :
    (numbers.map fun number => if number ∈ bet then 1 else 0).sum =
      (numbers.filter (· ∈ bet)).length := by
  induction numbers with
  | nil => rfl
  | cons number numbers ih =>
      rw [List.map_cons, List.sum_cons, ih, List.filter_cons]
      by_cases h : number ∈ bet
      · simp [h, Nat.add_comm]
      · simp [h]

/-- **`compare` counts the common numbers** of two draws. -/
theorem compareAt_eq {bet numbers : List Nat} (hbet : bet.Nodup) (hnumbers : numbers.Nodup) :
    compareAt bet numbers = (bet.toFinset ∩ numbers.toFinset).card := by
  have hcount : numbers.map (fun number => bet.count number) =
      numbers.map fun number => if number ∈ bet then 1 else 0 :=
    List.map_congr_left fun number _ => hbet.count
  have hfilter : bet.toFinset ∩ numbers.toFinset = (numbers.filter (· ∈ bet)).toFinset := by
    ext number
    simp [and_comm]
  rw [compareAt_sum, hcount, sum_mem, hfilter, List.toFinset_card_of_nodup (hnumbers.filter _)]

theorem compareAt_comm {bet numbers : List Nat} (hbet : bet.Nodup) (hnumbers : numbers.Nodup) :
    compareAt bet numbers = compareAt numbers bet := by
  rw [compareAt_eq hbet hnumbers, compareAt_eq hnumbers hbet, Finset.inter_comm]

theorem compareAt_le {bet numbers : List Nat} (hbet : Lawful bet) (hnumbers : Lawful numbers) :
    compareAt bet numbers ≤ numbersCount := by
  calc compareAt bet numbers = (bet.toFinset ∩ numbers.toFinset).card :=
        compareAt_eq hbet.nodup hnumbers.nodup
    _ ≤ bet.toFinset.card := Finset.card_le_card Finset.inter_subset_left
    _ ≤ bet.length := bet.toFinset_card_le
    _ = numbersCount := hbet.length

/-- `get_reward` reads inside its table. -/
theorem getRewardAt_eq {matched : Nat} (h : matched ≤ numbersCount) :
    getRewardAt matched = some (getReward ⟨matched, Nat.lt_succ_of_le h⟩) :=
  List.getElem?_eq_getElem (Nat.lt_succ_of_le h)

/-- **Draw and reward.**  For every `RAND_MAX` and any two streams of values up to it: each index is
in the rest of the array, which stays a permutation of the numbers from 1 to `NUMBERS_MAX`; the two
draws are lawful; to compare them either way counts their common numbers, at most `NUMBERS`, and
gives the same entry of the table. -/
theorem draw_law {R : Nat} {rand rand' : Nat → Nat} (hrand : ∀ i, rand i ≤ R)
    (hrand' : ∀ i, rand' i ≤ R) :
    (∀ i < numbersMax - 1, i ≤ index R i (rand i) ∧ index R i (rand i) < numbersMax) ∧
      (∀ k ≤ numbersMax - 1, ∃ all, rounds R rand k = some all ∧ all.Perm numbersAll) ∧
      ∃ numbers numbers', drawAt R rand = some numbers ∧ drawAt R rand' = some numbers' ∧
        Lawful numbers ∧ Lawful numbers' ∧
        compareAt numbers numbers' = (numbers.toFinset ∩ numbers'.toFinset).card ∧
        compareAt numbers numbers' = compareAt numbers' numbers ∧
        compareAt numbers numbers' ≤ numbersCount ∧
        ∃ reward, getRewardAt (compareAt numbers numbers') = some reward ∧
          getRewardAt (compareAt numbers' numbers) = some reward := by
  refine ⟨fun i hi => index_range (Nat.lt_of_lt_of_le hi (Nat.sub_le _ _)) (hrand i),
    rounds_perm hrand, ?_⟩
  obtain ⟨numbers, hdraw, hnumbers⟩ := drawAt_lawful hrand
  obtain ⟨numbers', hdraw', hnumbers'⟩ := drawAt_lawful hrand'
  have hcomm := compareAt_comm hnumbers.nodup hnumbers'.nodup
  have hle := compareAt_le hnumbers hnumbers'
  refine ⟨numbers, numbers', hdraw, hdraw', hnumbers, hnumbers',
    compareAt_eq hnumbers.nodup hnumbers'.nodup, hcomm, hle, _, getRewardAt_eq hle, ?_⟩
  rw [← hcomm]
  exact getRewardAt_eq hle

/-- With the least `RAND_MAX`, and nothing but zeros and nothing but its greatest value. -/
theorem draw_law_least :
    ∃ numbers numbers', drawAt 49 (fun _ => 0) = some numbers ∧
      drawAt 49 (fun _ => 49) = some numbers' ∧ Lawful numbers ∧ Lawful numbers' := by
  obtain ⟨-, -, numbers, numbers', h, h', hn, hn', -⟩ :=
    draw_law (fun _ => Nat.zero_le 49) fun _ => Nat.le_refl 49
  exact ⟨numbers, numbers', h, h', hn, hn'⟩

/-! ### The game -/

/-- What `rand()` returns in each round. -/
def stream (rand : Fin (numbersMax - 1) → Rand) (i : Nat) : Nat :=
  if h : i < numbersMax - 1 then rand ⟨i, h⟩ else 0

theorem swapAt_toList {n i j : Nat} (all : Vector Nat n) (hi : i < n) (hj : j < n) :
    swapAt all.toList i j = some (all.swap i j hi hj).toList := by
  have hi' : all.toList[i]? = some all[i] := by simp [hi]
  have hj' : all.toList[j]? = some all[j] := by simp [hj]
  rw [swapAt, hi', hj', Vector.toList_swap]

/-- The loop of `draw`, round by round. -/
theorem rounds_eq (rand : Fin (numbersMax - 1) → Rand) :
    ∀ k, k ≤ numbersMax - 1 → rounds randMax (stream rand) k =
      some (((List.finRange (numbersMax - 1)).take k).foldl (swap rand)
        (.ofFn fun i => i + 1)).toList
  | 0, _ => rfl
  | k + 1, hk => by
      have hget : (List.finRange (numbersMax - 1))[k]? = some ⟨k, hk⟩ := by
        rw [List.getElem?_eq_getElem (Nat.lt_of_lt_of_eq hk List.length_finRange.symm),
          List.getElem_finRange]
        rfl
      have hstream : stream rand k = rand ⟨k, hk⟩ := dif_pos hk
      rw [rounds, rounds_eq rand k (Nat.le_of_succ_le hk), Option.bind_some, hstream,
        List.take_add_one, hget, Option.toList_some, List.foldl_append, List.foldl_cons,
        List.foldl_nil]
      exact swapAt_toList _ _ _

/-- `draw` of `Game`. -/
theorem drawAt_eq (rand : Fin (numbersMax - 1) → Rand) :
    drawAt randMax (stream rand) = some (draw rand).list := by
  have hrounds : rounds randMax (stream rand) (numbersMax - 1) = some (shuffle rand).toList := by
    rw [rounds_eq rand _ (Nat.le_refl _), List.take_of_length_le, shuffle]
    exact Nat.le_of_eq List.length_finRange
  have hle : numbersCount ≤ (shuffle rand).toList.length := by
    rw [Vector.length_toList]
    decide
  rw [drawAt, hrounds, Option.bind_some, mapM_range _ _ hle, draw]

/-- `compare` of `Game`. -/
theorem compareAt_compare (bet numbers : Numbers) :
    compareAt bet.list numbers.list = compare bet numbers :=
  compareAt_sum ..

/-- The reward of `Game` is the one in the table, whichever way the two draws are compared. -/
theorem getRewardAt_reward (winning bet : Numbers) :
    getRewardAt (compareAt winning.list bet.list) = some (reward winning bet) ∧
      getRewardAt (compareAt bet.list winning.list) = some (reward winning bet) := by
  rw [compareAt_comm bet.nodup winning.nodup, compareAt_compare]
  exact ⟨getRewardAt_eq (compare_le winning bet), getRewardAt_eq (compare_le winning bet)⟩

end Sop2.Lotto
