import Mathlib.Algebra.BigOperators.Fin
import Mathlib.Data.Fintype.BigOperators
import Mathlib.Data.Fintype.Perm
import Mathlib.Data.List.FinRange
import Mathlib.SetTheory.Cardinal.Finite

/-!
# Support — Shuffle

The shuffle by Fisher and Yates, in place and from the last index down to 1: the element at `i` is
swapped with the one at a chosen `j` in `0, …, i`.

* `perm`: the loop rearranges every array by one and the same permutation of its indices
  (`loop_eq`).
* `choice_of_perm`: the permutation tells the choices, the last index first, since no later swap
  touches it (`perm_fixes`).
* `perm_bijective`: so every permutation comes from exactly one sequence of choices.
* `Fair`: what this says of a function that shuffles arrays (`fair_shuffle`).
-/

namespace Support.Shuffle

variable {n : Nat} {α : Type*}

/-! ### The loop -/

/-- The index that is swapped with `i + 1`, for what `rand` returned there. -/
def pick (rand : Nat → Nat) (i : Nat) (h : i + 1 < n) : Fin n :=
  ⟨rand (i + 1) % (i + 2), Nat.lt_of_le_of_lt (Nat.le_of_lt_succ (Nat.mod_lt _ (Nat.succ_pos _))) h⟩

/-- The loop from `i` down to 1; `rand i` is what `rand()` returns at `i`. -/
def loop (rand : Nat → Nat) (a : Fin n → α) : (i : Nat) → i < n → Fin n → α
  | 0, _ => a
  | i + 1, h =>
      loop rand (a ∘ Equiv.swap ⟨i + 1, h⟩ (pick rand i h)) i (Nat.lt_of_succ_lt h)

/-- The loop from `n - 1` down to 1. -/
def shuffle (rand : Nat → Nat) (a : Fin n → α) : Fin n → α :=
  match n, a with
  | 0, a => a
  | m + 1, a => loop rand a m (Nat.lt_succ_self m)

/-! ### The permutation of the indices -/

/-- Where the loop from `i` takes its elements from. -/
def perm (rand : Nat → Nat) : (i : Nat) → i < n → Equiv.Perm (Fin n)
  | 0, _ => 1
  | i + 1, h => Equiv.swap ⟨i + 1, h⟩ (pick rand i h) * perm rand i (Nat.lt_of_succ_lt h)

theorem loop_eq (rand : Nat → Nat) (a : Fin n → α) :
    ∀ (i : Nat) (h : i < n), loop rand a i h = a ∘ perm rand i h
  | 0, _ => rfl
  | i + 1, h => by
      rw [loop, loop_eq rand _ i, perm, Equiv.Perm.coe_mul, Function.comp_assoc]

/-- The loop from `i` leaves the elements behind `i` where they are. -/
theorem perm_fixes (rand : Nat → Nat) :
    ∀ (i : Nat) (h : i < n) (k : Fin n), i < k → perm rand i h k = k
  | 0, _, _, _ => rfl
  | i + 1, h, k, hk => by
      have hpick : k ≠ pick rand i h := by
        intro e
        have hlt : (pick rand i h).val < i + 2 := Nat.mod_lt _ (Nat.succ_pos _)
        rw [← e] at hlt
        omega
      have htop : k ≠ ⟨i + 1, h⟩ := by
        rintro rfl
        exact Nat.lt_irrefl _ hk
      rw [perm, Equiv.Perm.mul_apply, perm_fixes rand i _ k (Nat.lt_of_succ_lt hk),
        Equiv.swap_apply_of_ne_of_ne htop hpick]

/-- The element that comes to `i + 1` is the one that was picked there. -/
theorem perm_top (rand : Nat → Nat) (i : Nat) (h : i + 1 < n) :
    perm rand (i + 1) h ⟨i + 1, h⟩ = pick rand i h := by
  rw [perm, Equiv.Perm.mul_apply, perm_fixes rand i _ _ (Nat.lt_succ_self i), Equiv.swap_apply_left]

/-- Different choices at some index give different permutations. -/
theorem choice_of_perm {rand rand' : Nat → Nat} :
    ∀ (i : Nat) (h : i < n), perm rand i h = perm rand' i h →
      ∀ k, 0 < k → k ≤ i → rand k % (k + 1) = rand' k % (k + 1)
  | 0, _, _, _, hk, hle => absurd (Nat.lt_of_lt_of_le hk hle) (Nat.lt_irrefl 0)
  | i + 1, h, e, k, hk, hle => by
      have htop : pick rand i h = pick rand' i h := by
        rw [← perm_top rand, ← perm_top rand', e]
      rcases Nat.lt_or_eq_of_le hle with hlt | rfl
      -- with the first swaps equal, what the rest of the loop does is equal too
      · have hrest : perm rand i (Nat.lt_of_succ_lt h) = perm rand' i (Nat.lt_of_succ_lt h) := by
          rw [perm, perm, htop] at e
          exact mul_left_cancel e
        exact choice_of_perm i _ hrest k hk (Nat.le_of_lt_succ hlt)
      · exact congrArg Fin.val htop

/-! ### Sequences of choices -/

/-- What a shuffle of `n` elements chooses: for each index `k + 1` from `n - 1` down to 1 one of
`0, …, k + 1`. -/
abbrev Choices (n : Nat) : Type := (k : Fin (n - 1)) → Fin (k + 2)

/-- The choices for what `rand` returns. -/
def Choices.ofRand (rand : Nat → Nat) : Choices n :=
  fun k => ⟨rand (k + 1) % (k + 2), Nat.mod_lt _ (Nat.succ_pos _)⟩

/-- The choices as return values of `rand`. -/
def Choices.rand (c : Choices n) (i : Nat) : Nat :=
  if h : i - 1 < n - 1 then c ⟨i - 1, h⟩ else 0

theorem Choices.rand_succ (c : Choices n) {k : Nat} (h : k < n - 1) : c.rand (k + 1) = c ⟨k, h⟩ :=
  dif_pos h

theorem card_choices (n : Nat) : Fintype.card (Choices n) = n.factorial := by
  have hprod : ∀ m, ∏ k ∈ Finset.range m, (k + 2) = (m + 1).factorial := by
    intro m
    induction m with
    | zero => rfl
    | succ m ih => rw [Finset.prod_range_succ, ih, Nat.factorial_succ (m + 1), Nat.mul_comm]
  rw [Fintype.card_pi]
  simp only [Fintype.card_fin]
  rw [Fin.prod_univ_eq_prod_range (fun k => k + 2), hprod]
  cases n with
  | zero => rfl
  | succ m => rfl

/-- The permutation of the whole loop. -/
def permOf (rand : Nat → Nat) : (n : Nat) → Equiv.Perm (Fin n)
  | 0 => 1
  | m + 1 => perm rand m (Nat.lt_succ_self m)

theorem shuffle_eq (rand : Nat → Nat) (a : Fin n → α) : shuffle rand a = a ∘ permOf rand n := by
  cases n with
  | zero => rfl
  | succ m => exact loop_eq rand a m _

theorem permOf_injective : Function.Injective fun c : Choices n => permOf c.rand n := by
  intro c c' h
  cases n with
  | zero => exact funext fun k => k.elim0
  | succ m =>
      funext k
      have hk := choice_of_perm m _ h (k + 1) (Nat.succ_pos _) k.isLt
      rw [c.rand_succ k.isLt, c'.rand_succ k.isLt, Nat.mod_eq_of_lt (c k).isLt,
        Nat.mod_eq_of_lt (c' k).isLt] at hk
      exact Fin.ext hk

/-- **Fisher and Yates.**  The sequences of choices are the permutations of the indices. -/
theorem permOf_bijective : Function.Bijective fun c : Choices n => permOf c.rand n := by
  rw [Fintype.bijective_iff_injective_and_card]
  exact ⟨permOf_injective, by rw [card_choices, Fintype.card_perm, Fintype.card_fin]⟩

/-- Nothing but the choices counts. -/
theorem permOf_ofRand (rand : Nat → Nat) :
    permOf (Choices.ofRand rand : Choices n).rand n = permOf rand n := by
  cases n with
  | zero => rfl
  | succ m =>
      suffices h : ∀ i (hi : i < m + 1),
          perm (Choices.ofRand rand : Choices (m + 1)).rand i hi = perm rand i hi from h m _
      intro i
      induction i with
      | zero => exact fun _ => rfl
      | succ i ih =>
          intro hi
          have hpick : pick (Choices.ofRand rand : Choices (m + 1)).rand i hi = pick rand i hi := by
            refine Fin.ext ?_
            change Choices.rand _ (i + 1) % (i + 2) = _
            rw [Choices.rand_succ _ (Nat.lt_of_succ_lt_succ hi)]
            exact Nat.mod_mod _ _
          rw [perm, perm, hpick, ih]

/-! ### Functions that shuffle -/

/-- `b` has the elements of `a` in some order. -/
def Rearranges (a b : Fin n → α) : Prop := ∃ σ : Equiv.Perm (Fin n), b = a ∘ σ

theorem Rearranges.perm {a b : Fin n → α} (h : Rearranges a b) :
    (List.ofFn b).Perm (List.ofFn a) := by
  obtain ⟨σ, rfl⟩ := h
  exact σ.ofFn_comp_perm a

/-- An array of `n` distinct values has `n!` rearrangements. -/
theorem card_rearranges {a : Fin n → α} (ha : Function.Injective a) :
    Nat.card { b // Rearranges a b } = n.factorial := by
  have hbij : Function.Bijective
      (fun σ : Equiv.Perm (Fin n) => (⟨a ∘ σ, σ, rfl⟩ : { b // Rearranges a b })) := by
    constructor
    · intro σ τ h
      exact DFunLike.coe_injective (ha.comp_left (Subtype.ext_iff.mp h))
    · rintro ⟨_, σ, rfl⟩
      exact ⟨σ, rfl⟩
  rw [← Nat.card_congr (Equiv.ofBijective _ hbij), Nat.card_eq_fintype_card, Fintype.card_perm,
    Fintype.card_fin]

/-- `f` shuffles the array `a`: it rearranges it, by what it chooses; the results for the sequences
of choices are the rearrangements of `a`, each for exactly one of them. -/
structure Fair (f : (Nat → Nat) → (Fin n → α) → Fin n → α) (a : Fin n → α) : Prop where
  rearranges : ∀ rand, Rearranges a (f rand a)
  chosen : ∀ rand, f rand a = f (Choices.ofRand rand : Choices n).rand a
  bij : Set.BijOn (fun c : Choices n => f c.rand a) Set.univ { b | Rearranges a b }

theorem fair_shuffle {a : Fin n → α} (ha : Function.Injective a) : Fair shuffle a where
  rearranges rand := ⟨permOf rand n, shuffle_eq rand a⟩
  chosen rand := by rw [shuffle_eq, shuffle_eq, permOf_ofRand]
  bij := by
    refine ⟨fun c _ => ⟨_, shuffle_eq _ a⟩, fun c _ c' _ h => ?_, ?_⟩
    · dsimp only at h
      rw [shuffle_eq, shuffle_eq] at h
      exact permOf_injective (DFunLike.coe_injective (ha.comp_left h))
    · rintro _ ⟨σ, rfl⟩
      obtain ⟨c, hc⟩ := permOf_bijective.2 σ
      dsimp only at hc
      refine ⟨c, trivial, ?_⟩
      dsimp only
      rw [shuffle_eq, hc]

end Support.Shuffle
