import Mathlib.Algebra.Order.BigOperators.Group.List
import Mathlib.Data.List.Nodup
import Sop2.Lab05.Cards.Game

/-!
# Lab05 — Lotto — the game

`lab05/sop-lotto/sop-lotto.c` after the last `fork`: the totalisator and `n` players, who play for
`t` weeks over two pipes each, as in `sop-cards`.  What `rand` returns is left open.  The sums are
without bound.

A message that is not of the kind that is read (`crashed`, `failed`) does not come, and what would
become of it is left out; after `ERR` everybody is killed, here only the process that finds the
error stops.
-/

namespace Sop2.Lotto
open Support Support.Piped
open PipeCards (Pipe allEnds mem_allEnds nodup_allEnds ends own own_server own_player)

/-! ### The numbers -/

/-- `RAND_MAX`. -/
def randMax : Nat := 2147483647

/-- What `rand` returns. -/
abbrev Rand := Fin (randMax + 1)

/-- `NUMBERS_MAX`. -/
def numbersMax : Nat := 49

/-- `NUMBERS`. -/
def numbersCount : Nat := 6

/-- `BET_PRICE`. -/
def betPrice : Nat := 3

/-- `RESIGN_PROBABILITY`. -/
def resignProbability : Nat := 100

/-- Numbers that were drawn: all different. -/
structure Numbers where
  list : List Nat
  nodup : list.Nodup
  length : list.length = numbersCount
  deriving DecidableEq

/-- `j`, where the number in place `i` goes. -/
def target (i : Fin (numbersMax - 1)) (r : Rand) : Fin numbersMax where
  val := i + r / (randMax / (numbersMax - i) + 1)
  isLt := by
    have hpos : 0 < numbersMax - (i : Nat) := by unfold numbersMax at *; omega
    have hdiv : (r : Nat) / (randMax / (numbersMax - i) + 1) < numbersMax - i := by
      rw [Nat.div_lt_iff_lt_mul (Nat.succ_pos _)]
      have hmod := Nat.div_add_mod randMax (numbersMax - i)
      have hlt := Nat.mod_lt randMax hpos
      rw [Nat.mul_succ]
      omega
    omega

/-- `SWAP(numbers_all[i], numbers_all[j])`. -/
def swap (rand : Fin (numbersMax - 1) → Rand) (all : Vector Nat numbersMax)
    (i : Fin (numbersMax - 1)) : Vector Nat numbersMax :=
  all.swap i (target i (rand i)) (i.isLt.trans (by decide)) (target i (rand i)).isLt

/-- `numbers_all` after the loops. -/
def shuffle (rand : Fin (numbersMax - 1) → Rand) : Vector Nat numbersMax :=
  (List.finRange (numbersMax - 1)).foldl (swap rand) (.ofFn fun i => i + 1)

theorem shuffle_perm (rand : Fin (numbersMax - 1) → Rand) :
    (shuffle rand).toList.Perm ((Vector.ofFn fun i : Fin numbersMax => i.val + 1).toList) := by
  rw [shuffle]
  generalize Vector.ofFn (fun i : Fin numbersMax => i.val + 1) = all
  induction List.finRange (numbersMax - 1) generalizing all with
  | nil => exact .refl _
  | cons i rest ih =>
      refine (ih (swap rand all i)).trans ?_
      exact Vector.perm_iff_toList_perm.mp (Vector.swap_perm ..)

theorem nodup_shuffle (rand : Fin (numbersMax - 1) → Rand) : (shuffle rand).toList.Nodup := by
  rw [(shuffle_perm rand).nodup_iff, Vector.toList_ofFn]
  exact List.nodup_ofFn.mpr fun i j h => Fin.ext (Nat.succ.inj h)

/-- `draw`. -/
def draw (rand : Fin (numbersMax - 1) → Rand) : Numbers where
  list := (shuffle rand).toList.take numbersCount
  nodup := (nodup_shuffle rand).sublist (List.take_sublist ..)
  length := by rw [List.length_take, Vector.length_toList]; rfl

/-- `compare`. -/
def compare (bet numbers : Numbers) : Nat :=
  (numbers.list.map fun number => bet.list.count number).sum

theorem compare_le (bet numbers : Numbers) : compare bet numbers ≤ numbersCount := by
  have hle : ∀ x ∈ numbers.list.map fun number => bet.list.count number, x ≤ 1 := by
    simp only [List.mem_map]
    rintro x ⟨number, -, rfl⟩
    exact List.nodup_iff_count_le_one.mp bet.nodup number
  simpa [compare, numbers.length] using List.sum_le_card_nsmul _ 1 hle

/-- `get_reward`. -/
def getReward (matched : Fin (numbersCount + 1)) : Nat :=
  [0, 0, 0, 24, 160, 6000, 10000000].get matched

/-- What a bet wins. -/
def reward (winning bet : Numbers) : Nat :=
  getReward ⟨compare winning bet, Nat.lt_succ_of_le (compare_le winning bet)⟩

/-! ### The processes -/

inductive Message where
  | pid (p : Nat)
  | numbers (ns : Numbers)
  deriving DecidableEq

/-- What the totalisator knows: the descriptors `rps` and `wps`, unless they are 0, and the sums. -/
structure Books (n : Nat) where
  /-- `j`. -/
  week : Nat
  rps : Fin n → Bool
  wps : Fin n → Bool
  totalBet : Nat
  totalReward : Nat
  any : Bool

/-- Where a process is. -/
inductive Place (n : Nat) where
  /-- These ends are closed, one by one. -/
  | closing (es : List (End (Pipe n))) (next : Place n)
  /-- The totalisator: its loops, with who is still to come, and the body of the inner one. -/
  | week (b : Books n)
  | players (b : Books n) (winning : Numbers) (rest : List (Fin n))
  | numbers (b : Books n) (winning : Numbers) (i : Fin n) (rest : List (Fin n))
  | count (b : Books n) (winning : Numbers) (i : Fin n) (bet : Numbers) (rest : List (Fin n))
  | answer (b : Books n) (winning : Numbers) (i : Fin n) (rest : List (Fin n))
  /-- At the end of `totalisator_work`. -/
  | ended (b : Books n)
  | waiting
  | done
  | crashed (b : Books n)
  /-- A player, after `k` weeks. -/
  | play (k : Nat)
  | draw (k : Nat)
  | pid (k : Nat) (bet : Numbers)
  | bet (k : Nat) (bet : Numbers)
  | result (k : Nat) (bet : Numbers)
  | compare (k : Nat) (bet winning : Numbers)
  | exiting
  | gone
  | failed

/-- What `rand` returns, once or for a `draw`, and what comes of a `write` to descriptor 0. -/
inductive Answer where
  | random (r : Rand)
  | stream (rand : Fin (numbersMax - 1) → Rand)
  | wrote
  | failed

/-- What can be seen of a step besides the pipes. -/
inductive Shown (n : Nat) where
  /-- The totalisator compares a bet of `i` with the draw. -/
  | counted (i : Fin n) (bet winning : Numbers)
  /-- The player compares its bet with the draw. -/
  | checked (bet winning : Numbers)
  | total (bet reward : Nat)
  deriving DecidableEq

variable {n : Nat}

def Books.start (n : Nat) : Books n where
  week := 0
  rps _ := true
  wps _ := true
  totalBet := 0
  totalReward := 0
  any := false

def Books.closeRps (b : Books n) (i : Fin n) : Books n :=
  { b with rps := Function.update b.rps i false }

def Books.closeWps (b : Books n) (i : Fin n) : Books n :=
  { b with wps := Function.update b.wps i false }

@[simp] theorem Books.closeRps_self (b : Books n) (i : Fin n) : (b.closeRps i).rps i = false :=
  Function.update_self ..

theorem Books.closeRps_of_ne (b : Books n) {i j : Fin n} (h : j ≠ i) :
    (b.closeRps i).rps j = b.rps j :=
  Function.update_of_ne h ..

/-- At the start of a week. -/
def Books.reset (b : Books n) : Books n := { b with any := false }

def Books.seen (b : Books n) : Books n := { b with any := true }

/-- Lines 161 to 164. -/
def Books.count (b : Books n) (winning bet : Numbers) : Books n :=
  { b with totalReward := b.totalReward + reward winning bet, totalBet := b.totalBet + betPrice }

def Books.next (b : Books n) : Books n := { b with week := b.week + 1 }

/-- The ends that the totalisator has open. -/
def Books.holds (b : Books n) : End (Pipe n) → Bool
  | .read (.fromPlayer i) => b.rps i
  | .write (.toPlayer i) => b.wps i
  | _ => false

/-- `main` after `totalisator_work`. -/
def Books.cleanup (b : Books n) : Place n := .closing ((allEnds n).filter b.holds) .waiting

/-- `totalisator_work`. -/
def totalisatorWork (t : Nat) : Place n → Op (Pipe n) Message Answer (Shown n) (Place n)
  | .week b =>
      if b.week < t then .ask fun
        | .stream rand => some (none, .players b.reset (draw rand) (List.finRange n))
        | _ => none
      else .act none (.ended b)
  | .players b _ [] => .act none (if b.any then .week b.next else .ended b)
  | .players b winning (i :: rest) =>
      if b.rps i then
        .read (.fromPlayer i) (fun _ => .numbers b.seen winning i rest)
          (.closing [.read (.fromPlayer i)] (.players (b.seen.closeRps i) winning rest)) none
      else .act none (.players b winning rest)
  | .numbers b winning i rest =>
      .read (.fromPlayer i)
        (fun
          | .numbers bet => .count b winning i bet rest
          | .pid _ => .crashed b)
        (.closing [.read (.fromPlayer i)] (.players (b.closeRps i) winning rest)) none
  | .count b winning i bet rest =>
      .act (some (.counted i bet winning)) (.answer (b.count winning bet) winning i rest)
  | .answer b winning i rest =>
      if b.wps i then
        .write (.toPlayer i) (.numbers winning) (.players b winning rest)
          (.closing [.write (.toPlayer i)] (.players (b.closeWps i) winning rest))
      else .ask fun
        | .wrote => some (none, .players b winning rest)
        | .failed => some (none, .crashed b)
        | _ => none
  | .ended b => .act (some (.total b.totalBet b.totalReward)) b.cleanup
  | .waiting => .wait .done
  | _ => .halt

/-- After `player_work`; `exit` closes what is left. -/
def leave (i : Fin n) : Place n := .closing [.read (.toPlayer i)] .exiting

/-- `player_work`. -/
def playerWork (t : Nat) (pids : Fin n → Nat) (i : Fin n) :
    Place n → Op (Pipe n) Message Answer (Shown n) (Place n)
  | .play k =>
      if k < t then .ask fun
        | .random r =>
            some (none, if (r : Nat) % resignProbability = 0 then leave i else .draw k)
        | _ => none
      else .act none (leave i)
  | .draw k => .ask fun
      | .stream rand => some (none, .pid k (draw rand))
      | _ => none
  | .pid k bet => .write (.fromPlayer i) (.pid (pids i)) (.bet k bet) (leave i)
  | .bet k bet => .write (.fromPlayer i) (.numbers bet) (.result k bet) (leave i)
  | .result k bet =>
      .read (.toPlayer i)
        (fun
          | .numbers winning => .compare k bet winning
          | .pid _ => .failed)
        (leave i) none
  | .compare k bet winning => .act (some (.checked bet winning)) (.play (k + 1))
  | .exiting => .exit .gone
  | _ => .halt

/-- The totalisator (`none`) or a player. -/
def op (t : Nat) (pids : Fin n → Nat) (p : Option (Fin n)) :
    Place n → Op (Pipe n) Message Answer (Shown n) (Place n)
  | .closing [] next => .act none next
  | .closing (e :: es) next => .close e (.closing es next)
  | q =>
      match p with
      | none => totalisatorWork t q
      | some i => playerWork t pids i q

abbrev State (n : Nat) := Piped.State (Option (Fin n)) (Pipe n) Message (Place n)

/-- What can be seen of a step. -/
abbrev Seen (n : Nat) := Event (Pipe n) Message (Shown n)

abbrev Step (cap t : Nat) (pids : Fin n → Nat) : State n → Option (Fin n) × Seen n → State n → Prop :=
  Piped.Step cap (op t pids)

/-- Where the work of a process begins. -/
def work : Option (Fin n) → Place n
  | none => .week (.start n)
  | some _ => .play 0

/-- Everybody has every end of every pipe, and closes those that it does not use. -/
def begin (n : Nat) : State n where
  pipes := ⟨fun _ => [], fun _ _ => true, fun _ _ => true⟩
  pc p := .closing ((allEnds n).filter fun e => !own p e) (work p)

/-! ### The ends -/

/-- The ends that a process has open at a place. -/
def holds (p : Option (Fin n)) : Place n → End (Pipe n) → Bool
  | .closing es next => beside (holds p next) es
  | .week b | .players b _ _ | .numbers b _ _ _ | .count b _ _ _ _ | .answer b _ _ _ | .ended b
  | .crashed b => b.holds
  | .play _ | .draw _ | .pid _ _ | .bet _ _ | .result _ _ | .compare _ _ _ | .failed =>
      p.elim (fun _ => false) fun i => ends i true true
  | .exiting => p.elim (fun _ => false) fun i => ends i false true
  | .waiting | .done | .gone => fun _ => false

/-- The places of a process. -/
def Place.of (p : Option (Fin n)) : Place n → Prop
  | .closing es next => Unused (holds p next) es ∧ next.of p
  | .numbers b _ i _ => p = none ∧ b.rps i = true
  | .week _ | .players _ _ _ | .count _ _ _ _ _ | .answer _ _ _ _ | .ended _ | .crashed _
  | .waiting | .done => p = none
  | .play _ | .draw _ | .pid _ _ | .bet _ _ | .result _ _ | .compare _ _ _ | .exiting | .gone
  | .failed => ∃ i, p = some i

/-- Where a process goes on after it has closed what it is closing. -/
def Place.after : Place n → Place n
  | .closing _ next => next.after
  | q => q

theorem work_of (p : Option (Fin n)) : (work p).of p := by
  cases p with
  | none => rfl
  | some i => exact ⟨i, rfl⟩

theorem work_holds (p : Option (Fin n)) : holds p (work p) = own p := by
  cases p with
  | none =>
      funext e
      obtain ⟨i | i⟩ | ⟨i | i⟩ := e <;> rfl
  | some i => rfl

theorem cleanup_of (b : Books n) : b.cleanup.of none :=
  ⟨⟨nodup_allEnds.filter _, fun _ _ => rfl⟩, rfl⟩

theorem cleanup_holds (b : Books n) : holds none b.cleanup = b.holds := by
  funext e
  simp [Books.cleanup, holds, beside, mem_allEnds]

theorem holds_closeRps {b : Books n} {i : Fin n} (h : b.rps i = true) :
    Unused (b.closeRps i).holds [.read (.fromPlayer i)] ∧
      beside (b.closeRps i).holds [.read (.fromPlayer i)] = b.holds := by
  refine ⟨⟨by simp, fun e he => ?_⟩, ?_⟩
  · obtain rfl := List.mem_singleton.mp he
    exact Function.update_self ..
  · funext e
    obtain ⟨j | j⟩ | ⟨j | j⟩ := e <;> by_cases hj : j = i <;>
      simp [beside, Books.holds, Books.closeRps, hj, h]

theorem holds_closeWps {b : Books n} {i : Fin n} (h : b.wps i = true) :
    Unused (b.closeWps i).holds [.write (.toPlayer i)] ∧
      beside (b.closeWps i).holds [.write (.toPlayer i)] = b.holds := by
  refine ⟨⟨by simp, fun e he => ?_⟩, ?_⟩
  · obtain rfl := List.mem_singleton.mp he
    exact Function.update_self ..
  · funext e
    obtain ⟨j | j⟩ | ⟨j | j⟩ := e <;> by_cases hj : j = i <;>
      simp [beside, Books.holds, Books.closeWps, hj, h]

theorem leave_of (i : Fin n) : (leave i).of (some i) :=
  ⟨⟨by simp, fun e he => by obtain rfl := List.mem_singleton.mp he; rfl⟩, i, rfl⟩

theorem leave_holds (i : Fin n) : holds (some i) (leave i) = ends i true true := by
  funext e
  obtain ⟨j | j⟩ | ⟨j | j⟩ := e <;> simp [leave, holds, beside, ends]

variable {t : Nat} {pids : Fin n → Nat} {p : Option (Fin n)} {i : Fin n} {q q' : Place n}
  {e : Seen n}

theorem totalisator_of (hq : q.of none) (h : (totalisatorWork t q).Goes e q') : q'.of none := by
  cases q with
  | week b =>
      simp only [totalisatorWork] at h
      split at h
      · obtain ⟨a, l, ha, -⟩ := h
        cases a <;> cases ha
        rfl
      · obtain ⟨-, rfl⟩ := h
        rfl
  | players b w rest =>
      cases rest with
      | nil =>
          obtain ⟨-, rfl⟩ := h
          split <;> rfl
      | cons i rest =>
          simp only [totalisatorWork] at h
          split at h
          next hr =>
            obtain ⟨c, -, rfl⟩ | ⟨-, rfl⟩ | ⟨-, h⟩ := h
            · exact ⟨rfl, hr⟩
            · exact ⟨(holds_closeRps (b := b.seen) hr).1, rfl⟩
            · cases h
          next =>
            obtain ⟨-, rfl⟩ := h
            rfl
  | numbers b w i rest =>
      obtain ⟨c, -, rfl⟩ | ⟨-, rfl⟩ | ⟨-, h⟩ := h
      · cases c <;> rfl
      · exact ⟨(holds_closeRps hq.2).1, rfl⟩
      · cases h
  | count b w i bet rest =>
      obtain ⟨-, rfl⟩ := h
      rfl
  | answer b w i rest =>
      simp only [totalisatorWork] at h
      split at h
      next hw =>
        obtain ⟨-, rfl⟩ | ⟨-, rfl⟩ := h
        · rfl
        · exact ⟨(holds_closeWps hw).1, rfl⟩
      next =>
        obtain ⟨a, l, ha, -⟩ := h
        cases a <;> cases ha <;> rfl
  | ended b =>
      obtain ⟨-, rfl⟩ := h
      exact cleanup_of b
  | waiting =>
      obtain ⟨-, rfl⟩ := h
      rfl
  | closing | done | crashed | play | draw | pid | bet | result | compare | exiting | gone
  | failed => exact h.elim

theorem totalisator_keeps (hq : q.of none) :
    (totalisatorWork t q).Keeps (holds none q) (holds none) := by
  cases q with
  | week b =>
      simp only [totalisatorWork]
      split
      · intro a l q ha
        cases a <;> cases ha
        rfl
      · rfl
  | players b w rest =>
      cases rest with
      | nil =>
          simp only [totalisatorWork]
          split <;> rfl
      | cons i rest =>
          simp only [totalisatorWork]
          split
          next hr => exact ⟨hr, fun _ => rfl, (holds_closeRps (b := b.seen) hr).2, (by simp)⟩
          next => rfl
  | numbers b w i rest =>
      exact ⟨hq.2, fun c => by cases c <;> rfl, (holds_closeRps hq.2).2, (by simp)⟩
  | count b w i bet rest => rfl
  | answer b w i rest =>
      simp only [totalisatorWork]
      split
      next hw => exact ⟨hw, rfl, (holds_closeWps hw).2⟩
      next =>
        intro a l q ha
        cases a <;> cases ha <;> rfl
  | ended b => exact cleanup_holds b
  | waiting => rfl
  | closing | done | crashed | play | draw | pid | bet | result | compare | exiting | gone
  | failed => trivial

theorem player_of (h : (playerWork t pids i q).Goes e q') : q'.of (some i) := by
  cases q with
  | play k =>
      simp only [playerWork] at h
      split at h
      · obtain ⟨a, l, ha, -⟩ := h
        cases a <;> cases ha
        split
        · exact leave_of i
        · exact ⟨i, rfl⟩
      · obtain ⟨-, rfl⟩ := h
        exact leave_of i
  | draw k =>
      obtain ⟨a, l, ha, -⟩ := h
      cases a <;> cases ha
      exact ⟨i, rfl⟩
  | pid k bet | bet k bet =>
      obtain ⟨-, rfl⟩ | ⟨-, rfl⟩ := h
      · exact ⟨i, rfl⟩
      · exact leave_of i
  | result k bet =>
      obtain ⟨c, -, rfl⟩ | ⟨-, rfl⟩ | ⟨-, h⟩ := h
      · cases c <;> exact ⟨i, rfl⟩
      · exact leave_of i
      · cases h
  | compare k bet w =>
      obtain ⟨-, rfl⟩ := h
      exact ⟨i, rfl⟩
  | exiting =>
      obtain ⟨-, rfl⟩ := h
      exact ⟨i, rfl⟩
  | closing | week | players | numbers | count | answer | ended | waiting | done | crashed | gone
  | failed => exact h.elim

theorem player_keeps : (playerWork t pids i q).Keeps (holds (some i) q) (holds (some i)) := by
  have hends : ∀ {f : End (Pipe n)}, f = .read (.toPlayer i) ∨ f = .write (.fromPlayer i) →
      ends i true true f = true := by
    rintro f (rfl | rfl) <;> simp [ends]
  cases q with
  | play k =>
      simp only [playerWork]
      split
      · intro a l q ha
        cases a <;> cases ha
        split
        · exact leave_holds i
        · rfl
      · exact leave_holds i
  | draw k =>
      intro a l q ha
      cases a <;> cases ha
      rfl
  | pid k bet | bet k bet => exact ⟨hends (.inr rfl), rfl, leave_holds i⟩
  | result k bet =>
      exact ⟨hends (.inl rfl), fun c => by cases c <;> rfl, leave_holds i, (by simp)⟩
  | compare k bet w => rfl
  | exiting => rfl
  | closing | week | players | numbers | count | answer | ended | waiting | done | crashed | gone
  | failed => trivial

theorem op_cases (t : Nat) (pids : Fin n → Nat) (p : Option (Fin n)) (q : Place n) :
    (∃ es next, q = .closing es next) ∨ q.after = q ∧
      op t pids p q = p.elim (totalisatorWork t q) fun i => playerWork t pids i q := by
  cases q with
  | closing es next => exact .inl ⟨es, next, rfl⟩
  | _ => right; cases p <;> exact ⟨rfl, rfl⟩

/-- **Every operation keeps to it.** -/
theorem op_keeps : Keeps (op t pids) (fun p q => q.of p) holds where
  still {p q e q'} hq h := by
    obtain ⟨es, next, rfl⟩ | ⟨-, hop⟩ := op_cases t pids p q
    · cases es with
      | nil => obtain ⟨-, rfl⟩ := h; exact hq.2
      | cons f es => obtain ⟨-, rfl⟩ := h; exact ⟨hq.1.tail, hq.2⟩
    · rw [hop] at h
      cases p with
      | none => exact totalisator_of hq h
      | some i => exact player_of h
  keeps {p q} hq := by
    obtain ⟨es, next, rfl⟩ | ⟨-, hop⟩ := op_cases t pids p q
    · cases es with
      | nil => exact beside_nil.symm
      | cons f es => exact beside_cons hq.1
    · rw [hop]
      cases p with
      | none => exact totalisator_keeps hq
      | some i => exact player_keeps

theorem tidy_begin : Tidy (fun p q => q.of p) holds (begin n) where
  ok p := ⟨work_holds p ▸ unused_filter nodup_allEnds, work_of p⟩
  has p := by
    change _ = beside (holds p (work p)) _
    rw [work_holds, beside_filter fun e _ => mem_allEnds e]
    funext e
    simp only [mem_allEnds, decide_true]
    cases e <;> rfl

/-- The processes use their own ends only. -/
theorem op_uses {f : End (Pipe n)} (h : (op t pids p q).uses = some f) : own p f = true := by
  obtain ⟨es, next, rfl⟩ | ⟨-, hop⟩ := op_cases t pids p q
  · cases es <;> cases h
  · rw [hop] at h
    cases p with
    | none =>
        change (totalisatorWork t q).uses = some f at h
        cases q with
        | week b => simp only [totalisatorWork] at h; split at h <;> cases h
        | players b w rest =>
            cases rest with
            | nil => cases h
            | cons i rest =>
                simp only [totalisatorWork] at h
                split at h <;> cases h
                rfl
        | numbers b w i rest =>
            cases h
            rfl
        | answer b w i rest =>
            simp only [totalisatorWork] at h
            split at h <;> cases h
            rfl
        | closing | count | ended | waiting | done | crashed | play | draw | pid | bet | result
        | compare | exiting | gone | failed => cases h
    | some i =>
        change (playerWork t pids i q).uses = some f at h
        cases q with
        | play k => simp only [playerWork] at h; split at h <;> cases h
        | pid k bet | bet k bet | result k bet =>
            cases h
            simp [own, ends]
        | closing | week | players | numbers | count | answer | ended | waiting | done | crashed
        | draw | compare | exiting | gone | failed => cases h

end Sop2.Lotto
