import Mathlib.Algebra.Order.Ring.Int
import Sop2.Support.Bytes
import Sop2.Support.Runs

/-!
# Lab05 — Roulette — the player

`player_work` of `lab05/sop-roulette/sop-roulette.c`, one turn of its loop after the other.  What
`rand` returns is left open, and so are the lucky numbers and the calls that fail; a sum, a
difference or a product that is no `int` has no defined behaviour.

* `play_of_wins`, `play_of_bets`: what a turn does to the money.
* `Purse.step`: a purse is an `int`, and never negative.
* `money_law`: all is well with the money exactly as long as no bet that wins is too large.
* `rounds_law`: which purses last for `k` rounds, whatever is drawn.
-/

namespace Sop2.Roulette
open Support

/-! ### Numbers -/

/-- `INT_MIN`. -/
def int32Min : Int := -2147483648

/-- The value is an `int`. -/
def IsInt (x : Int) : Prop := int32Min ≤ x ∧ x ≤ int32Max

instance : DecidablePred IsInt := fun _ => inferInstanceAs (Decidable (_ ∧ _))

/-- An `int` that is computed. -/
def int (x : Int) : Option Int := if IsInt x then some x else none

theorem int_of_isInt {x : Int} (h : IsInt x) : int x = some x := if_pos h

theorem int_eq_none {x : Int} : int x = none ↔ ¬ IsInt x := by
  simp [int]

theorem isInt_of_range {x y : Int} (hy : IsInt y) (h₀ : 0 ≤ x) (h : x ≤ y) : IsInt x :=
  ⟨le_trans (by decide) h₀, h.trans hy.2⟩

/-! ### The game -/

/-- `PROBABILITY`. -/
def probability : Nat := 10

/-- `PRIZE_FACTOR`. -/
def prizeFactor : Int := 35

/-- `should_resign`, when `rand` returns `r`. -/
def shouldResign (r probability : Nat) : Bool := r % probability = 0

/-- What a turn of the loop meets: the three values of `rand`, how many of the three `write`s come
to pass, and the lucky number, unless `read` fails. -/
structure Round where
  resign : Nat
  bet : Nat
  number : Nat
  written : Nat
  luckyNumber : Option Int

/-- What a player prints or writes. -/
inductive Said where
  | saved (amount : Int)
  | wrote (x : Int)
  | won (prize : Int)
  | broke
  deriving DecidableEq

/-- Where a player is: at the top of the loop, or behind `player_work`, with its `amount`; in `ERR`;
or nowhere, after an overflow. -/
inductive Player where
  | playing (amount : Int)
  | done (amount : Int)
  | failed
  | overflow
  deriving DecidableEq

/-- Behind the loop. -/
def leave (amount : Int) (said : List Said) : Player × List Said :=
  (.done amount, if amount ≤ 0 then said ++ [.broke] else said)

/-- `int bet = rand() % amount + 1`, without a look at its size. -/
def bet (amount : Int) (r : Round) : Int := (r.bet : Int).tmod amount + 1

/-- The number that the bet is placed on. -/
def number (r : Round) : Int := r.number % 37

/-- `bet`, and `amount -= bet`. -/
def place (amount : Int) (r : Round) : Option (Int × Int) :=
  (int (bet amount r)).bind fun bet => (int (amount - bet)).map fun amount => (bet, amount)

/-- `35 * bet`, and `amount += 35 * bet`. -/
def collect (amount bet : Int) : Option (Int × Int) :=
  (int (prizeFactor * bet)).bind fun prize =>
    (int (amount + prize)).map fun amount => (prize, amount)

/-- The `write`s that come to pass. -/
def written (pid bet : Int) (r : Round) : List Said :=
  ([pid, number r, bet].take r.written).map .wrote

/-- One turn of the loop of `player_work`. -/
def play (pid amount : Int) (r : Round) : Player × List Said :=
  if 0 < amount then
    if shouldResign r.resign probability then leave amount [.saved amount]
    else
      match place amount r with
      | none => (.overflow, [])
      | some (bet, amount) =>
          let said := written pid bet r
          if r.written < 3 then (.failed, said)
          else
            match r.luckyNumber with
            | none => (.failed, said)
            | some luckyNumber =>
                if luckyNumber = number r then
                  match collect amount bet with
                  | none => (.overflow, said)
                  | some (prize, amount) => (.playing amount, said ++ [.won prize])
                else (.playing amount, said)
  else leave amount []

/-- One turn, with what it meets and what is said. -/
inductive Turn (pid : Int) : Player → Round × List Said → Player → Prop where
  | intro {amount : Int} {r : Round} {said : List Said} {p : Player}
      (h : play pid amount r = (p, said)) : Turn pid (.playing amount) (r, said) p

/-- The player places a bet in the round. -/
def Bets (amount : Int) (r : Round) : Prop :=
  0 < amount ∧ shouldResign r.resign probability = false

/-- The player places a bet, and wins. -/
def Wins (amount : Int) (r : Round) : Prop :=
  Bets amount r ∧ 3 ≤ r.written ∧ r.luckyNumber = some (number r)

/-- All is well with the money in a turn: the bet can be taken; the prize can be paid, in the rounds
that are `counted`; and who is broke has nothing left, and no debts. -/
structure Sound (counted : Int → Round → Prop) (p : Player) (l : Round × List Said) (q : Player) :
    Prop where
  taken : ∀ amount : Int, p = .playing amount → Bets amount l.1 →
    1 ≤ bet amount l.1 ∧ bet amount l.1 ≤ amount ∧ IsInt (amount - bet amount l.1)
  paid : ∀ amount : Int, p = .playing amount → counted amount l.1 →
    IsInt (prizeFactor * bet amount l.1) ∧
      IsInt (amount - bet amount l.1 + prizeFactor * bet amount l.1)
  defined : q ≠ .overflow
  solvent : ∀ amount : Int, q = .playing amount ∨ q = .done amount → 0 ≤ amount
  broke : Said.broke ∈ l.2 → q = .done 0

/-- The bet of a `counted` round is not too large. -/
def Modest (counted : Int → Round → Prop) (p : Player) (l : Round × List Said) : Prop :=
  ∀ amount : Int, p = .playing amount → counted amount l.1 →
    amount + 34 * bet amount l.1 ≤ int32Max

/-- What the player has is an `int`, and not negative. -/
def Purse : Player → Prop
  | .playing amount | .done amount => 0 ≤ amount ∧ amount ≤ int32Max
  | .failed | .overflow => True

/-- A round in which all the money is staked, on the number that wins. -/
def allIn (amount : Int) : Round := ⟨1, (amount - 1).toNat, 7, 3, some 7⟩

/-! ### One turn -/

variable {pid amount m : Int} {r : Round} {p q : Player} {said : List Said}

theorem bet_range (r : Round) (h : 0 < amount) : 1 ≤ bet amount r ∧ bet amount r ≤ amount := by
  have hlow : 0 ≤ (r.bet : Int).tmod amount := Int.tmod_nonneg _ (Int.natCast_nonneg _)
  have hhigh : (r.bet : Int).tmod amount < amount := Int.tmod_lt_of_pos _ h
  unfold bet
  constructor <;> omega

/-- The bet can always be taken. -/
theorem place_eq (r : Round) (h : 0 < amount) (hmax : amount ≤ int32Max) :
    place amount r = some (bet amount r, amount - bet amount r) := by
  obtain ⟨hone, hall⟩ := bet_range r h
  have hamount : IsInt amount := ⟨le_trans (by decide) h.le, hmax⟩
  have hbet : IsInt (bet amount r) := isInt_of_range hamount (by omega) hall
  have hrest : IsInt (amount - bet amount r) := isInt_of_range hamount (by omega) (by omega)
  rw [place, int_of_isInt hbet, Option.bind_some, int_of_isInt hrest, Option.map_some]

theorem collect_eq (amount bet : Int) :
    collect amount bet = if IsInt (prizeFactor * bet) ∧ IsInt (amount + prizeFactor * bet)
      then some (prizeFactor * bet, amount + prizeFactor * bet) else none := by
  unfold collect
  by_cases hprize : IsInt (prizeFactor * bet)
  · rw [int_of_isInt hprize, Option.bind_some]
    by_cases hsum : IsInt (amount + prizeFactor * bet)
    · rw [int_of_isInt hsum, if_pos ⟨hprize, hsum⟩]
      rfl
    · rw [int_eq_none.mpr hsum, if_neg fun h => hsum h.2]
      rfl
  · rw [int_eq_none.mpr hprize, if_neg fun h => hprize h.1]
    rfl

@[simp] theorem broke_notMem_written (pid bet : Int) (r : Round) :
    Said.broke ∉ written pid bet r := by
  intro h
  obtain ⟨x, -, hx⟩ := List.mem_map.mp h
  cases hx

/-- A turn in which no bet is placed. -/
theorem play_of_not_bets (h₀ : 0 ≤ amount) (h : ¬ Bets amount r)
    (hp : play pid amount r = (p, said)) :
    p = .done amount ∧ (Said.broke ∈ said → amount = 0) := by
  unfold play at hp
  by_cases hpos : 0 < amount
  · have hresign : shouldResign r.resign probability = true := by
      rw [← Bool.not_eq_false]
      exact fun hstays => h ⟨hpos, hstays⟩
    rw [if_pos hpos, if_pos hresign, leave, if_neg (by omega)] at hp
    cases hp
    exact ⟨rfl, by simp⟩
  · rw [if_neg hpos] at hp
    cases hp
    exact ⟨rfl, fun _ => by omega⟩

/-- A turn in which a bet is placed that does not win. -/
theorem play_of_loses (hmax : amount ≤ int32Max) (h : Bets amount r) (hw : ¬ Wins amount r)
    (hp : play pid amount r = (p, said)) :
    (p = .failed ∨ p = .playing (amount - bet amount r)) ∧ Said.broke ∉ said := by
  unfold play at hp
  rw [if_pos h.1, if_neg (by rw [h.2]; simp), place_eq r h.1 hmax] at hp
  dsimp only at hp
  split at hp
  · cases hp
    exact ⟨.inl rfl, by simp⟩
  · rename_i hwritten
    split at hp
    · cases hp
      exact ⟨.inl rfl, by simp⟩
    · rename_i luckyNumber hlucky
      split at hp
      · rename_i heq
        exact absurd ⟨h, Nat.not_lt.mp hwritten, heq ▸ hlucky⟩ hw
      · cases hp
        exact ⟨.inr rfl, by simp⟩

/-- A turn in which the bet wins. -/
theorem play_of_wins (hmax : amount ≤ int32Max) (h : Wins amount r)
    (hp : play pid amount r = (p, said)) :
    (p = if IsInt (prizeFactor * bet amount r) ∧
          IsInt (amount - bet amount r + prizeFactor * bet amount r)
        then .playing (amount - bet amount r + prizeFactor * bet amount r) else .overflow) ∧
      Said.broke ∉ said := by
  obtain ⟨⟨hpos, hresign⟩, hwritten, hlucky⟩ := h
  unfold play at hp
  rw [if_pos hpos, if_neg (by rw [hresign]; simp), place_eq r hpos hmax] at hp
  dsimp only at hp
  rw [if_neg (Nat.not_lt.mpr hwritten), hlucky] at hp
  dsimp only at hp
  rw [if_pos rfl, collect_eq] at hp
  split at hp
  · rename_i heq
    split at heq
    · cases heq
    · cases hp
      exact ⟨(if_neg ‹_›).symm, by simp⟩
  · rename_i heq
    split at heq
    · cases heq
      cases hp
      exact ⟨(if_pos ‹_›).symm, by simp⟩
    · cases heq

/-! ### Every turn -/

/-- What is known of the prize is known when it has been paid. -/
theorem modest_prize (h₀ : 0 < amount) :
    amount + 34 * bet amount r ≤ int32Max ↔ IsInt (prizeFactor * bet amount r) ∧
      IsInt (amount - bet amount r + prizeFactor * bet amount r) := by
  obtain ⟨hone, hall⟩ := bet_range r h₀
  unfold IsInt int32Min prizeFactor
  constructor
  · intro h
    constructor <;> constructor <;> omega
  · rintro ⟨-, -, h⟩
    omega

theorem Purse.step {l : Round × List Said} (hp : Purse p) (h : Turn pid p l q) : Purse q := by
  obtain ⟨hplay⟩ := h
  rename_i amount r said
  obtain ⟨h₀, hmax⟩ := hp
  by_cases hb : Bets amount r
  · obtain ⟨hone, hall⟩ := bet_range r hb.1
    by_cases hw : Wins amount r
    · obtain ⟨rfl, -⟩ := play_of_wins hmax hw hplay
      split
      · rename_i hint
        refine ⟨?_, hint.2.2⟩
        unfold prizeFactor
        omega
      · trivial
    · obtain ⟨rfl | rfl, -⟩ := play_of_loses hmax hb hw hplay
      · trivial
      · constructor <;> omega
  · obtain ⟨rfl, -⟩ := play_of_not_bets h₀ hb hplay
    exact ⟨h₀, hmax⟩

theorem Purse.nonneg (hp : Purse p) (h : p = .playing amount ∨ p = .done amount) : 0 ≤ amount := by
  rcases h with rfl | rfl
  · exact hp.1
  · exact hp.1

/-- **One turn** is sound exactly if its bet is modest, whatever rounds are counted, as long as
those are in which the prize is paid. -/
theorem sound_iff {counted : Int → Round → Prop} (hbets : ∀ {a r}, counted a r → Bets a r)
    (hwins : ∀ {a r}, Wins a r → counted a r) {l : Round × List Said} (hp : Purse p)
    (h : Turn pid p l q) : Sound counted p l q ↔ Modest counted p l := by
  have hq := hp.step h
  obtain ⟨hplay⟩ := h
  rename_i amount r said
  obtain ⟨h₀, hmax⟩ := hp
  constructor
  · rintro hsound _ ⟨⟩ hc
    exact (modest_prize (hbets hc).1).mpr (hsound.paid _ rfl hc)
  · intro hmodest
    refine ⟨?_, ?_, ?_, fun _ => hq.nonneg, ?_⟩
    · rintro _ ⟨⟩ hb
      obtain ⟨hone, hall⟩ := bet_range r hb.1
      have hrest : IsInt (amount - bet amount r) :=
        isInt_of_range ⟨by decide, le_refl int32Max⟩ (by omega) (by omega)
      exact ⟨hone, hall, hrest⟩
    · rintro _ ⟨⟩ hc
      exact (modest_prize (hbets hc).1).mp (hmodest _ rfl hc)
    · rintro rfl
      by_cases hb : Bets amount r
      · by_cases hw : Wins amount r
        · have hint := (modest_prize hb.1).mp (hmodest _ rfl (hwins hw))
          obtain ⟨heq, -⟩ := play_of_wins hmax hw hplay
          rw [if_pos hint] at heq
          cases heq
        · obtain ⟨heq | heq, -⟩ := play_of_loses hmax hb hw hplay <;> cases heq
      · cases (play_of_not_bets h₀ hb hplay).1
    · intro hbroke
      by_cases hb : Bets amount r
      · by_cases hw : Wins amount r
        · exact absurd hbroke (play_of_wins hmax hw hplay).2
        · exact absurd hbroke (play_of_loses hmax hb hw hplay).2
      · obtain ⟨rfl, hzero⟩ := play_of_not_bets h₀ hb hplay
        rw [hzero hbroke]

/-! ### Runs -/

variable {tr : List (Move Player (Round × List Said))}

theorem sound_run {counted : Int → Round → Prop} (hbets : ∀ {a r}, counted a r → Bets a r)
    (hwins : ∀ {a r}, Wins a r → counted a r) (hp : Purse p) (r : Run (Turn pid) p tr q) :
    (∀ mv ∈ tr, Sound counted mv.before mv.label mv.after) ↔
      ∀ mv ∈ tr, Modest counted mv.before mv.label :=
  r.law_moves (J := Purse) (C := fun p l _ => Modest counted p l)
    (fun hp h _ => hp.step h) (fun hp h => (sound_iff hbets hwins hp h).mpr)
    (fun hp h => (sound_iff hbets hwins hp h).mp) hp

/-- **The money.**  In every game, from every purse that `main` accepts, all is well with the money
in all rounds exactly if no bet that wins is too large for its prize; and the prizes of all bets,
also of those that are lost, could be paid exactly if no bet at all is too large. -/
theorem money_law (pid m : Int) (hm : 100 ≤ m) (hmax : m ≤ int32Max)
    (tr : List (Move Player (Round × List Said))) (p : Player)
    (r : Run (Turn pid) (.playing m) tr p) :
    ((∀ mv ∈ tr, Sound Wins mv.before mv.label mv.after) ↔
      ∀ mv ∈ tr, Modest Wins mv.before mv.label) ∧
    ((∀ mv ∈ tr, Sound Bets mv.before mv.label mv.after) ↔
      ∀ mv ∈ tr, Modest Bets mv.before mv.label) := by
  have hp : Purse (.playing m) := ⟨by omega, hmax⟩
  exact ⟨sound_run And.left id hp r, sound_run id And.left hp r⟩

/-- 35 * 100000000 is no `int`. -/
theorem allIn_overflows : bet 100000000 (allIn 100000000) = 100000000 ∧
    ¬ IsInt (prizeFactor * 100000000) ∧
    play 1 100000000 (allIn 100000000) =
      (.overflow, [.wrote 1, .wrote 7, .wrote 100000000]) ∧
    ¬ ∀ (pid m : Int), 100 ≤ m → m ≤ int32Max →
      ∀ (tr : List (Move Player (Round × List Said))) (p : Player),
        Run (Turn pid) (.playing m) tr p → ∀ mv ∈ tr, Sound Wins mv.before mv.label mv.after := by
  refine ⟨by decide, by decide, by decide, fun h => ?_⟩
  have r : Run (Turn 1) (.playing 100000000) _ _ := .one (.intro (r := allIn 100000000) rfl)
  exact (h 1 100000000 (by decide) (by decide) _ _ r _ (List.mem_singleton_self _)).defined rfl

/-- From a hundred, one such round is well. -/
theorem money_law_allIn : ∃ tr, Run (Turn 1) (.playing 100) tr (.playing 3500) ∧
    ∀ mv ∈ tr, Sound Wins mv.before mv.label mv.after := by
  have r : Run (Turn 1) (.playing 100) _ (.playing 3500) := .one (.intro (r := allIn 100) rfl)
  refine ⟨_, r, (money_law 1 100 (by decide) (by decide) _ _ r).1.mpr fun mv hmv => ?_⟩
  obtain rfl := List.mem_singleton.mp hmv
  rintro _ ⟨⟩ -
  decide

/-! ### So many rounds -/

theorem bet_allIn (h : 0 < amount) : bet amount (allIn amount) = amount := by
  have hrand : ((allIn amount).bet : Int) = amount - 1 := Int.toNat_of_nonneg (by omega)
  rw [bet, hrand, Int.tmod_eq_of_lt (by omega) (by omega)]
  omega

theorem wins_allIn (h : 0 < amount) : Wins amount (allIn amount) :=
  ⟨⟨h, rfl⟩, le_refl 3, rfl⟩

/-- A round in which everything is won. -/
theorem turn_allIn (pid : Int) (h : 0 < amount) (hmax : 35 * amount ≤ int32Max) :
    ∃ said, Turn pid (.playing amount) (allIn amount, said) (.playing (35 * amount)) := by
  cases hplay : play pid amount (allIn amount) with
  | mk p said =>
      obtain ⟨hp, -⟩ := play_of_wins (by omega) (wins_allIn h) hplay
      have hint := (modest_prize (r := allIn amount) h).mp (by rw [bet_allIn h]; omega)
      rw [if_pos hint, bet_allIn h, prizeFactor, sub_self, zero_add] at hp
      exact ⟨said, .intro (hp ▸ hplay)⟩

/-- So many of them. -/
theorem run_allIn (pid : Int) (h : 0 < m) (k : Nat) (hmax : 35 ^ k * m ≤ int32Max) :
    ∃ tr, Run (Turn pid) (.playing m) tr (.playing (35 ^ k * m)) ∧ tr.length = k := by
  induction k with
  | zero => exact ⟨[], by rw [pow_zero, one_mul]; exact .refl _, rfl⟩
  | succ k ih =>
      have hpos : 0 < 35 ^ k * m := Int.mul_pos (Int.pow_pos (by decide)) h
      rw [pow_succ', mul_assoc] at hmax
      obtain ⟨tr, r, hlen⟩ := ih (by omega)
      obtain ⟨said, hturn⟩ := turn_allIn pid hpos hmax
      refine ⟨_, by rw [pow_succ', mul_assoc]; exact r.snoc hturn, ?_⟩
      rw [List.length_append, hlen, List.length_singleton]

/-- A purse grows by no more than that. -/
theorem Purse.growth {l : Round × List Said} (hp : Purse (.playing amount))
    (h : Turn pid (.playing amount) l (.playing m)) : m ≤ 35 * amount := by
  obtain ⟨hplay⟩ := h
  rename_i r said
  obtain ⟨h₀, hmax⟩ := hp
  by_cases hb : Bets amount r
  · obtain ⟨hone, hall⟩ := bet_range r hb.1
    by_cases hw : Wins amount r
    · have hp := (play_of_wins hmax hw hplay).1
      split at hp
      · cases hp
        unfold prizeFactor
        omega
      · cases hp
    · obtain ⟨hp | hp, -⟩ := play_of_loses hmax hb hw hplay
      · cases hp
      · cases hp
        omega
  · cases (play_of_not_bets h₀ hb hplay).1

theorem run_growth (hp : Purse (.playing m)) (r : Run (Turn pid) (.playing m) tr p) :
    Purse p ∧ ∀ amount : Int, p = .playing amount → amount ≤ 35 ^ tr.length * m := by
  induction r with
  | refl =>
      refine ⟨hp, ?_⟩
      rintro _ ⟨⟩
      rw [List.length_nil, pow_zero, one_mul]
  | @snoc t u tr l r hturn ih =>
      obtain ⟨ht, hle⟩ := ih
      refine ⟨ht.step hturn, fun last hu => ?_⟩
      subst hu
      cases t with
      | playing amount =>
          have hgrowth := ht.growth hturn
          have hamount := hle amount rfl
          rw [List.length_append, List.length_singleton, pow_succ', mul_assoc]
          omega
      | done | failed | overflow => cases hturn

/-- As long as the purse can grow so much, no bet is too large. -/
theorem modest_run (hp : Purse (.playing m)) {k : Nat} (hk : 35 ^ k * m ≤ int32Max)
    (r : Run (Turn pid) (.playing m) tr p) (hlen : tr.length ≤ k) :
    ∀ mv ∈ tr, Modest Wins mv.before mv.label := by
  induction r with
  | refl => simp
  | @snoc t u tr l r hturn ih =>
      rw [List.length_append, List.length_singleton] at hlen
      refine forall_mem_snoc (ih (by omega)) fun amount hbefore hwins => ?_
      have hamount := (run_growth hp r).2 amount hbefore
      obtain ⟨hone, hall⟩ := bet_range l.1 hwins.1.1
      have hpow : (35 : Int) ^ (tr.length + 1) ≤ 35 ^ k := pow_le_pow_right₀ (by decide) hlen
      calc amount + 34 * bet amount l.1 ≤ 35 * amount := by omega
        _ ≤ 35 * (35 ^ tr.length * m) := by omega
        _ = 35 ^ (tr.length + 1) * m := by rw [pow_succ', mul_assoc]
        _ ≤ 35 ^ k * m := mul_le_mul_of_nonneg_right hpow hp.1
        _ ≤ int32Max := hk

/-- **So many rounds.**  Whatever is drawn in them, all is well with the money in the first `k`
rounds exactly if the purse can be multiplied by 35 so many times. -/
theorem rounds_law (pid m : Int) (h : 0 < m) (hmax : m ≤ int32Max) (k : Nat) :
    (∀ (tr : List (Move Player (Round × List Said))) (p : Player),
      Run (Turn pid) (.playing m) tr p → tr.length ≤ k →
        ∀ mv ∈ tr, Sound Wins mv.before mv.label mv.after) ↔ 35 ^ k * m ≤ int32Max := by
  have hp : Purse (.playing m) := ⟨h.le, hmax⟩
  constructor
  · intro hsound
    induction k with
    | zero => rwa [pow_zero, one_mul]
    | succ k ih =>
        have hk := ih fun tr p r hlen => hsound tr p r (by omega)
        obtain ⟨tr, r, hlen⟩ := run_allIn pid h k hk
        have hpos : 0 < 35 ^ k * m := Int.mul_pos (Int.pow_pos (by decide)) h
        -- one more of these rounds
        have hlast := hsound _ _ (r.snoc (.intro (r := allIn (35 ^ k * m)) rfl))
          (by rw [List.length_append, hlen, List.length_singleton]) _
          (List.mem_append_right _ (List.mem_singleton_self _))
        have hprize := (hlast.paid _ rfl (wins_allIn hpos)).1.2
        rw [bet_allIn hpos] at hprize
        rwa [pow_succ', mul_assoc]
  · intro hk tr p r hlen
    exact (sound_run And.left id hp r).mpr (modest_run hp hk r hlen)

end Sop2.Roulette
