import Sop2.Lab05.Roulette.Exchange

/-!
# Lab05 — Roulette — the accounts

What the croupier prints settles what every player has.

* `Game`: the game of one player against the wheel, in its own terms; `Game.balance` is what it has
  then.
* `Serves.paced`: the croupier answers every player once a round, so that the bet with a number meets
  the draw with that number (`Serves.faces`).
* `Stand.step`: a player keeps to the game.
* `settlement_law`: what the players print, from what the croupier prints.
-/

namespace Sop2.Roulette
open Support Support.Piped
open PipeCards (Pipe allEnds)

/-! ### The game of one player -/

/-- What a bet brings in. -/
def gain (b : Placed) (lucky : Int) : Int :=
  if lucky = b.number then prizeFactor * b.bet - b.bet else -b.bet

/-- A player begins with `m` and places bets that it can pay; what it has in the end. -/
inductive Game (pid m : Int) : List (Placed × Int) → Int → Prop where
  | start : Game pid m [] m
  | turn {ps : List (Placed × Int)} {amount : Int} {b : Placed} (lucky : Int)
      (h : Game pid m ps amount) (hpid : b.pid = pid) (hbet : 1 ≤ b.bet) (hpaid : b.bet ≤ amount)
      (hnumber : 0 ≤ b.number ∧ b.number < 37) :
      Game pid m (ps ++ [(b, lucky)]) (amount + gain b lucky)

/-- The prizes. -/
def winnings (ps : List (Placed × Int)) : List Int :=
  ps.filterMap fun p => if p.2 = p.1.number then some (prizeFactor * p.1.bet) else none

variable {pid m amount : Int} {ps : List (Placed × Int)}

theorem Game.balance (h : Game pid m ps amount) :
    amount = m + (ps.map fun p => gain p.1 p.2).sum := by
  induction h with
  | start => simp
  | turn lucky h hpid hbet hpaid hnumber ih =>
      rw [List.map_append, List.sum_append, ← Int.add_assoc, ← ih]
      simp

theorem Game.nonneg (hm : 0 ≤ m) (h : Game pid m ps amount) : 0 ≤ amount := by
  induction h with
  | start => exact hm
  | @turn ps amount b lucky h hpid hbet hpaid hnumber ih =>
      rw [gain, prizeFactor]
      split <;> omega

theorem winnings_snoc (b : Placed) (lucky : Int) :
    winnings (ps ++ [(b, lucky)]) =
      winnings ps ++ if lucky = b.number then [prizeFactor * b.bet] else [] := by
  rw [winnings, List.filterMap_append]
  split <;> simp [winnings, *]

theorem zip_append_of_length_le {α β : Type*} {xs : List α} {ys : List β}
    (h : xs.length ≤ ys.length) (zs : List β) : xs.zip (ys ++ zs) = xs.zip ys := by
  induction xs generalizing ys with
  | nil => rfl
  | cons x xs ih =>
      cases ys with
      | nil => cases h
      | cons y ys =>
          rw [List.cons_append, List.zip_cons_cons, List.zip_cons_cons, ih (Nat.le_of_succ_le_succ h)]

/-! ### The rounds of the croupier -/

variable {n cap : Nat} {pids : Fin n → Int} {s t : State n} {i j : Fin n} {e : Seen n}
  {c c' : Croupier n} {g g' : Gambler} {ys : List Int}

/-- The bet that has been answered and not yet printed. -/
def Croupier.pending : Croupier n → Fin n → List Placed
  | .tell _ _ b j _, i => if i = j then [b] else []
  | _, _ => []

/-- The draw that has not yet been printed. -/
def Croupier.drawn : Croupier n → List Int
  | .players _ lucky _ | .number _ lucky _ _ _ | .bet _ lucky _ _ _ _ | .answer _ lucky _ _ _
  | .tell _ lucky _ _ _ | .closing _ lucky _ _ | .broken _ lucky _ _ => [lucky]
  | _ => []

/-- The players that are still to be answered in the round. -/
def Croupier.agenda : Croupier n → List (Fin n)
  | .players _ _ rest | .tell _ _ _ _ rest | .closing _ _ _ rest | .broken _ _ _ rest => rest
  | .number _ _ _ i rest | .bet _ _ _ _ i rest | .answer _ _ _ i rest => i :: rest
  | _ => []

/-- Nobody has been there yet in the round. -/
def Croupier.idle : Croupier n → Bool
  | .players t _ _ => !t.any
  | _ => false

/-- The bet of `i` that the croupier prints. -/
def placedIn (i : Fin n) : Seen n → List Placed
  | .said (some (.placed j b)) => if i = j then [b] else []
  | _ => []

/-- The draw that it prints. -/
def luckyIn : Seen n → List Int
  | .said (some (.lucky x)) => [x]
  | _ => []

/-- The bet of `i` that it answers, with the draw. -/
def answered (i : Fin n) : Croupier n → Seen n → List (Placed × Int)
  | .answer _ lucky b j _, .wrote _ _ => if i = j then [(b, lucky)] else []
  | _, _ => []

/-- How many of the bets of `i`, `p` and `l` of the draws have been printed. -/
structure Paced (c : Croupier n) (i : Fin n) (p l : Nat) : Prop where
  upper : p + (c.pending i).length ≤ l + c.drawn.length
  live : c.live i = true → p + (c.pending i).length + c.agenda.count i = l + c.drawn.length
  idle : c.idle = true → p ≤ l

theorem Serves.nodup (h : Serves c e c') (hc : c.agenda.Nodup) : c'.agenda.Nodup := by
  cases h with
  | draw => exact List.nodup_finRange n
  | skip | eofPid | eofNumber | eofBet => exact hc.of_cons
  | answer | stray => exact hc.of_cons
  | epipe => exact hc.of_cons
  | roundEnds | wins | strayFails | cleanup | wait | done => exact List.nodup_nil
  | pid | number | bet | tell | closeRps | closeWps => exact hc

theorem Serves.paced {p l : Nat} (h : Serves c e c') (hc : c.Fine) (he : ∀ k, e ≠ .epipe k)
    (hlistens : ∀ x, e = .wrote (.toPlayer i) x → c.live i = true) (hp : Paced c i p l) : Paced c' i (p + (placedIn i e).length) (l + (luckyIn e).length) := by
  obtain ⟨hupper, hlive, hidle⟩ := hp
  cases h with
  | draw t r =>
      refine ⟨Nat.le_succ_of_le hupper, fun hi => ?_, fun _ => hupper⟩
      have hcount : (List.finRange n).count i = 1 :=
        List.count_eq_one_of_mem (List.nodup_finRange n) (List.mem_finRange i)
      have hlive := hlive hi
      simp only [Croupier.pending, Croupier.agenda, Croupier.drawn, hcount, placedIn, luckyIn]
        at hlive ⊢
      simpa using hlive
  | skip t lucky j rest hj =>
      refine ⟨hupper, fun hi => ?_, hidle⟩
      have hij : j ≠ i := by
        rintro rfl
        exact absurd (hj.symm.trans hi) (by decide)
      have hlive := hlive hi
      rwa [Croupier.agenda, List.count_cons_of_ne hij] at hlive
  | roundEnds => exact ⟨hupper, hlive, nofun⟩
  | wins t lucky hany =>
      have hle := hidle (by rw [Croupier.idle, hany]; rfl)
      exact ⟨hle, nofun, nofun⟩
  | pid t lucky pid j rest hj => exact ⟨hupper, hlive, nofun⟩
  | number | bet => exact ⟨hupper, hlive, nofun⟩
  | eofPid t lucky j rest | eofNumber t lucky pid j rest | eofBet t lucky pid number j rest =>
      refine ⟨hupper, fun hi => ?_, nofun⟩
      obtain ⟨hi, hij⟩ := Bool.and_eq_true_iff.mp hi
      have hlive := hlive hi
      rwa [Croupier.agenda, List.count_cons_of_ne (Ne.symm (of_decide_eq_true hij))] at hlive
  | answer t lucky b j rest =>
      by_cases hij : i = j
      · subst hij
        have hlive := hlive (hlistens lucky rfl)
        have hpending : (Croupier.tell t lucky b i rest).pending i = [b] := if_pos rfl
        rw [Croupier.agenda, List.count_cons_self] at hlive
        refine ⟨?_, fun _ => ?_, nofun⟩
        · rw [hpending]
          change p + 1 ≤ l + 1
          change p + 0 + (_ + 1) = l + 1 at hlive
          omega
        · rw [hpending]
          change p + 1 + rest.count i = l + 1
          change p + 0 + (_ + 1) = l + 1 at hlive
          omega
      · have hpending : (Croupier.tell t lucky b j rest).pending i = [] := if_neg hij
        refine ⟨by rw [hpending]; exact hupper, fun hi => ?_, nofun⟩
        have hlive := hlive hi
        rw [Croupier.agenda, List.count_cons_of_ne (Ne.symm hij)] at hlive
        rw [hpending]
        exact hlive
  | epipe => exact absurd rfl (he _)
  | stray t lucky b j rest hj | strayFails t lucky b j rest hj =>
      rw [hc.1 j] at hj
      cases hj
  | tell t lucky b j rest =>
      -- the bet is not pending any more, but printed
      refine ⟨hupper, hlive, fun hany => ?_⟩
      rw [Croupier.idle, hc.2] at hany
      cases hany
  | closeRps t lucky j rest =>
      refine ⟨hupper, fun hi => hlive ((live_closeRps t lucky i j rest).symm.trans hi),
        fun hany => ?_⟩
      rw [Croupier.idle, show (t.closeRps j).any = t.any from rfl, hc.2] at hany
      cases hany
  | closeWps => exact hc.elim
  | cleanup | wait | done => exact ⟨hupper, nofun, nofun⟩

/-- **The bet with a number meets the draw with that number.** -/
theorem Serves.faces {P : List Placed} {L : List Int} (h : Serves c e c') (hc : c.Fine)
    (hnodup : c.agenda.Nodup) (he : ∀ k, e ≠ .epipe k)
    (hlistens : ∀ x, e = .wrote (.toPlayer i) x → c.live i = true)
    (hp : Paced c i P.length L.length) :
    (P ++ placedIn i e ++ c'.pending i).zip (L ++ luckyIn e ++ c'.drawn) =
      (P ++ c.pending i).zip (L ++ c.drawn) ++ answered i c e := by
  have hnil : ∀ {α : Type} (xs : List α), xs ++ [] = xs := List.append_nil
  cases h with
  | draw t r =>
      simp only [placedIn, luckyIn, answered, Croupier.pending, Croupier.drawn, hnil]
      exact zip_append_of_length_le hp.upper _
  | wins t lucky hany =>
      have hle := hp.idle (by rw [Croupier.idle, hany]; rfl)
      simp only [placedIn, luckyIn, answered, Croupier.pending, Croupier.drawn, hnil]
      exact (zip_append_of_length_le hle _).symm
  | roundEnds | skip | pid | number | bet | eofPid | eofNumber | eofBet | closeRps | cleanup | wait
  | done =>
      simp only [placedIn, luckyIn, answered, Croupier.pending, Croupier.drawn, hnil]
  | tell t lucky b j rest =>
      simp only [placedIn, luckyIn, answered, Croupier.pending, Croupier.drawn, hnil]
  | answer t lucky b j rest =>
      simp only [placedIn, luckyIn, answered, Croupier.pending, Croupier.drawn, hnil]
      by_cases hij : i = j
      · subst hij
        have hlive := hp.live (hlistens lucky rfl)
        have hcount : rest.count i = 0 := List.count_eq_zero.mpr (List.nodup_cons.mp hnodup).1
        rw [Croupier.agenda, List.count_cons_self, hcount] at hlive
        have hlength : P.length = L.length := Nat.succ_injective hlive
        rw [if_pos rfl, if_pos rfl, List.zip_append hlength,
          zip_append_of_length_le hlength.le]
        rfl
      · rw [if_neg hij, if_neg hij, hnil, hnil]
  | epipe => exact absurd rfl (he _)
  | stray t lucky b j rest hj | strayFails t lucky b j rest hj =>
      rw [hc.1 j] at hj
      cases hj
  | closeWps => exact hc.elim

/-- Who is answered has placed the bet, and waits for the answer. -/
theorem Serves.answers {before after : Pipe n → List Int} (h : Serves c e c')
    (hshift : e.Shifts before after)
    (hT : Talk pid (heard c i) (before (.fromPlayer i)) (before (.toPlayer i)) g) :
    (answered i c e = [] ∧ after (.toPlayer i) = before (.toPlayer i)) ∨
      ∃ w lucky, g = .result w ∧ answered i c e = [(⟨pid, w.number, w.bet⟩, lucky)] ∧
        before (.toPlayer i) = [] ∧ after (.toPlayer i) = [lucky] := by
  cases h with
  | answer t lucky b j rest =>
      rw [show after = _ from hshift]
      by_cases hij : i = j
      · subst hij
        rw [heard, if_pos rfl] at hT
        obtain ⟨w, rfl, rfl, -, hto⟩ := hT.placed
        exact .inr ⟨w, lucky, rfl, if_pos rfl, hto, by rw [Function.update_self, hto]; rfl⟩
      · exact .inl ⟨if_neg hij, Function.update_of_ne (by simpa using hij) ..⟩
  | pid | number | bet =>
      rw [show before = _ from hshift]
      exact .inl ⟨rfl, (Function.update_of_ne (by simp) ..).symm⟩
  | _ =>
      rw [show after = before from hshift]
      exact .inl ⟨rfl, rfl⟩

/-! ### What a player has -/

/-- The bet that is placed. -/
def Gambler.wager : Gambler → Option Wager
  | .pid w | .number w | .bet w | .result w | .settle w _ | .overflow w => some w
  | _ => none

/-- What a player has, while it has not placed a bet. -/
def Gambler.purse : Gambler → Option Int
  | .deciding amount | .leaving amount | .closing amount | .exiting amount | .gone amount =>
      some amount
  | _ => none

/-- The bet that has been answered and not settled, with the draw; `ys` is in the pipe. -/
def facing (pid : Int) : Gambler → List Int → List (Placed × Int)
  | .result w, ys => ys.map fun lucky => (⟨pid, w.number, w.bet⟩, lucky)
  | .settle w lucky, _ => [(⟨pid, w.number, w.bet⟩, lucky)]
  | .overflow w, _ => [(⟨pid, w.number, w.bet⟩, w.number)]
  | _, _ => []

/-- The last line of somebody who leaves with `amount`. -/
def lastLine (amount : Int) : Shown n := if 0 < amount then .saved amount else .broke

def farewell : Gambler → List (Shown n)
  | .leaving amount | .closing amount | .exiting amount | .gone amount => [lastLine amount]
  | _ => []

/-- The line that is printed in a step. -/
def lineIn : Seen n → List (Shown n)
  | .said (some l) => [l]
  | _ => []

/-- A player that has been answered `ps` has `settled` these, and has `amount` from them. -/
structure Stand (pid m : Int) (ps settled : List (Placed × Int)) (lines : List (Shown n))
    (g : Gambler) (ys : List Int) (amount : Int) : Prop where
  game : Game pid m settled amount
  faced : ps = settled ++ facing pid g ys
  fair : ∀ w, g.wager = some w → w.Fair amount
  purse : ∀ a, g.purse = some a → a = amount
  lines : lines = (winnings settled).map .won ++ farewell g

theorem Talk.silent {heard xs : List Int} (h : Talk pid heard xs ys g) (hg : ∀ w, g ≠ .result w) :
    ys = [] := by
  cases h with
  | asks => rfl
  | answered w lucky => exact absurd rfl (hg w)

/-- A bet is settled. -/
theorem Stand.settle {settled : List (Placed × Int)} {lines : List (Shown n)} {w : Wager}
    {lucky : Int} (hs : Stand pid m ps settled lines (.settle w lucky) ys amount) :
    Stand pid m ps ps (lines ++ if lucky = w.number then [.won (prizeFactor * w.bet)] else [])
      (.deciding (w.rest + if lucky = w.number then prizeFactor * w.bet else 0)) ys
      (w.rest + if lucky = w.number then prizeFactor * w.bet else 0) := by
  obtain ⟨hpaid, hbet, hrest, hnumber⟩ := hs.fair w rfl
  have hps : ps = settled ++ [(⟨pid, w.number, w.bet⟩, lucky)] := hs.faced
  have hgain : amount + gain ⟨pid, w.number, w.bet⟩ lucky =
      w.rest + if lucky = w.number then prizeFactor * w.bet else 0 := by
    change amount + (if lucky = w.number then prizeFactor * w.bet - w.bet else -w.bet) = _
    split <;> omega
  refine ⟨?_, (List.append_nil _).symm, nofun, fun a ha => (Option.some.inj ha).symm, ?_⟩
  · rw [hps, ← hgain]
    exact hs.game.turn lucky rfl hbet (by change w.bet ≤ amount; omega) hnumber
  · have hlines : lines = (winnings settled).map .won := hs.lines.trans (List.append_nil _)
    refine Eq.trans ?_ (List.append_nil _).symm
    rw [hps, winnings_snoc, hlines, List.map_append]
    congr 1
    change _ = List.map _ (if lucky = w.number then _ else _)
    split <;> rfl

/-- **A player keeps to the game.** -/
theorem Stand.step {before after : Pipe n → List Int} {heard : List Int}
    {settled : List (Placed × Int)} {lines : List (Shown n)} (h : Plays pid i g e g')
    (hshift : e.Shifts before after) (he : ∀ k, e ≠ .epipe k) (heof : ∀ k, e ≠ .eof k)
    (hT : Talk pid heard (before (.fromPlayer i)) (before (.toPlayer i)) g)
    (hs : Stand pid m ps settled lines g (before (.toPlayer i)) amount) :
    ∃ settled' amount',
      Stand pid m ps settled' (lines ++ lineIn e) g' (after (.toPlayer i)) amount' := by
  cases h with
  | resign a hpos =>
      have hlines : lines = (winnings settled).map .won := hs.lines.trans (List.append_nil _)
      refine ⟨settled, amount, hs.game, hs.faced, nofun, hs.purse, ?_⟩
      change lines ++ [.saved a] = _ ++ [lastLine a]
      rw [hlines, lastLine, if_pos hpos]
  | broke a hneg =>
      have hlines : lines = (winnings settled).map .won := hs.lines.trans (List.append_nil _)
      refine ⟨settled, amount, hs.game, hs.faced, nofun, hs.purse, ?_⟩
      change lines ++ [.broke] = _ ++ [lastLine a]
      rw [hlines, lastLine, if_neg (Int.not_lt.mpr hneg)]
  | stake a w hw =>
      refine ⟨settled, amount, hs.game, hs.faced, fun w' hw' => ?_, nofun,
        (List.append_nil _).trans hs.lines⟩
      cases hw'
      exact hs.purse a rfl ▸ hw
  | pid w | number w =>
      exact ⟨settled, amount, hs.game, hs.faced, hs.fair, nofun,
        (List.append_nil _).trans hs.lines⟩
  | bet w =>
      have hto : after (.toPlayer i) = [] := by
        rw [show after = _ from hshift, Function.update_of_ne (by simp)]
        exact hT.silent nofun
      exact ⟨settled, amount, hs.game, by rw [hto]; exact hs.faced, hs.fair, nofun,
        (List.append_nil _).trans hs.lines⟩
  | epipe => exact absurd rfl (he _)
  | eof => exact absurd rfl (heof _)
  | stale w x => exact absurd rfl (hT.defined w).2
  | result w lucky =>
      have hfaced := hs.faced
      have hbefore : before (.toPlayer i) = lucky :: after (.toPlayer i) := by
        rw [show before = _ from hshift, Function.update_self]
      obtain ⟨hone, -, -⟩ := hT.size
      rw [hbefore] at hfaced hone
      have hnil : after (.toPlayer i) = [] := List.eq_nil_of_length_eq_zero (by simpa using hone)
      rw [hnil] at hfaced
      exact ⟨settled, amount, hs.game, hfaced, hs.fair, nofun,
        (List.append_nil _).trans hs.lines⟩
  | won w =>
      have hsettle := hs.settle
      rw [if_pos rfl, if_pos rfl] at hsettle
      rw [show after = before from hshift]
      exact ⟨_, _, hsettle⟩
  | lost w lucky hne =>
      have hsettle := hs.settle
      rw [if_neg hne, if_neg hne, add_zero] at hsettle
      rw [show after = before from hshift]
      exact ⟨_, _, hsettle⟩
  | overflow w =>
      exact ⟨settled, amount, hs.game, hs.faced, hs.fair, nofun,
        (List.append_nil _).trans hs.lines⟩
  | leaving a | closing a | exiting a =>
      exact ⟨settled, amount, hs.game, hs.faced, nofun, hs.purse,
        (List.append_nil _).trans hs.lines⟩

/-! ### All of them -/

variable {tr : List (Move (State n) (Option (Fin n) × Seen n))}

/-- The bets of `i` that the croupier has printed. -/
def placedBy (i : Fin n) (tr : List (Move (State n) (Option (Fin n) × Seen n))) : List Placed :=
  tr.flatMap fun x => placedIn i x.label.2

/-- The draws that it has printed. -/
def luckies (tr : List (Move (State n) (Option (Fin n) × Seen n))) : List Int :=
  tr.flatMap fun x => luckyIn x.label.2

/-- The lines that the player `i` has printed. -/
def linesOf (i : Fin n) (tr : List (Move (State n) (Option (Fin n) × Seen n))) : List (Shown n) :=
  tr.flatMap fun x => if x.label.1 = some i then lineIn x.label.2 else []

/-- The bets of `i` that have been answered, with the draws. -/
def faced (i : Fin n) (tr : List (Move (State n) (Option (Fin n) × Seen n))) (s : State n) :
    List (Placed × Int) :=
  (placedBy i tr ++ s.croupier.pending i).zip (luckies tr ++ s.croupier.drawn)

theorem placedBy_snoc (x : Move (State n) (Option (Fin n) × Seen n)) :
    placedBy i (tr ++ [x]) = placedBy i tr ++ placedIn i x.label.2 := by
  simp [placedBy]

theorem luckies_snoc (x : Move (State n) (Option (Fin n) × Seen n)) :
    luckies (tr ++ [x]) = luckies tr ++ luckyIn x.label.2 := by
  simp [luckies]

theorem linesOf_snoc (x : Move (State n) (Option (Fin n) × Seen n)) :
    linesOf i (tr ++ [x]) =
      linesOf i tr ++ if x.label.1 = some i then lineIn x.label.2 else [] := by
  simp [linesOf]

/-- Behind `server_work`. -/
def Croupier.behind : Croupier n → Bool
  | .cleanup _ | .waiting | .done => true
  | _ => false

/-- What has been printed, and where the processes are. -/
structure Books (pids : Fin n → Int) (m : Int)
    (tr : List (Move (State n) (Option (Fin n) × Seen n))) (s : State n) : Prop where
  nodup : s.croupier.agenda.Nodup
  paced : ∀ i, Paced s.croupier i (placedBy i tr).length (luckies tr).length
  stand : ∀ i, ∃ settled amount, Stand (pids i) m (faced i tr s) settled (linesOf i tr)
    (s.gambler m i) (s.pipes.content (.toPlayer i)) amount
  closed : (∃ x ∈ tr, x.label.2 = .said (some .casinoWins)) → s.croupier.behind = true

/-- Whom the croupier answers it still reads from. -/
theorem Exchange.listens (hs : Exchange pids m s) (h : Serves s.croupier e c') (x : Int)
    (he : e = .wrote (.toPlayer i) x) : s.croupier.live i = true := by
  have htalk := hs.talk i
  have hgone := hs.gone i
  generalize s.croupier = c at h htalk hgone ⊢
  cases h with
  | answer t lucky b j rest =>
      cases he
      rw [heard, if_pos rfl] at htalk
      obtain ⟨w, hw, -⟩ := htalk.placed
      by_contra hlive
      have hdone := hgone (Bool.eq_false_iff.mpr hlive)
      rw [hw] at hdone
      cases hdone
  | _ => cases he

/-- What the players print is not what the croupier prints. -/
theorem Plays.prints (h : Plays pid i g e g') (j : Fin n) :
    placedIn j e = [] ∧ luckyIn e = [] ∧ e ≠ .said (some .casinoWins) := by
  cases h <;> exact ⟨rfl, rfl, nofun⟩

theorem Serves.behind (h : Serves c e c')
    (hc : c.behind = true ∨ e = .said (some .casinoWins)) : c'.behind = true := by
  cases h with
  | wins | cleanup | wait | done => rfl
  | _ => rcases hc with hc | hc <;> cases hc

theorem Books.step {l : Option (Fin n) × Seen n} (hs : Books pids m tr s)
    (hE : Exchange pids m s) (hT : AllTidy m s) (h : Step cap pids m s l t) :
    Books pids m (tr ++ [⟨s, l, t⟩]) t := by
  have hshift := h.shifts
  obtain ⟨p, e⟩ := l
  have hclosed : (∃ x ∈ tr ++ [⟨s, (p, e), t⟩], x.label.2 = .said (some .casinoWins)) →
      s.croupier.behind = true ∨ e = .said (some .casinoWins) := by
    rintro ⟨x, hx, hlabel⟩
    rcases List.mem_append.mp hx with hx | hx
    · exact .inl (hs.closed ⟨x, hx, hlabel⟩)
    · obtain rfl := List.mem_singleton.mp hx
      exact .inr hlabel
  rcases step_cases h with ⟨rfl, hserves, hg⟩ | ⟨i, rfl, hplays, hc, hothers⟩ | ⟨rfl, hc, hg⟩
  · have hepipe := hE.croupier_epipe hT h hserves
    have hlistens := fun i => hE.listens hserves (i := i)
    refine ⟨hserves.nodup hs.nodup, fun i => ?_, fun i => ?_, fun hx => hserves.behind (hclosed hx)⟩
    · rw [placedBy_snoc, luckies_snoc, List.length_append, List.length_append]
      exact hserves.paced hE.fine hepipe (hlistens i) (hs.paced i)
    · obtain ⟨settled, amount, hstand⟩ := hs.stand i
      have hfaces := hserves.faces hE.fine hs.nodup hepipe (hlistens i) (hs.paced i)
      refine ⟨settled, amount, ?_⟩
      rw [faced, placedBy_snoc, luckies_snoc, hfaces, linesOf_snoc, if_neg (by simp),
        List.append_nil, hg i]
      rcases hserves.answers hshift (hE.talk i) with ⟨hnone, hto⟩ | ⟨w, lucky, hw, hone, hbefore, hto⟩
      · rw [hnone, List.append_nil, hto]
        exact hstand
      · rw [hbefore] at hstand
        rw [hone, hto]
        have hfaced := hstand.faced
        rw [hw, facing, List.map_nil, List.append_nil] at hfaced
        refine ⟨hstand.game, ?_, hstand.fair, hstand.purse, hstand.lines⟩
        rw [← faced, hfaced, hw]
        rfl
  · have hepipe := hE.player_epipe hT h hplays
    have hsame : ∀ j, faced j (tr ++ [⟨s, (some i, e), t⟩]) t = faced j tr s := fun j => by
      obtain ⟨hplaced, hlucky, -⟩ := hplays.prints j
      rw [faced, placedBy_snoc, luckies_snoc, hplaced, hlucky, List.append_nil, List.append_nil, hc]
      rfl
    refine ⟨hc ▸ hs.nodup, fun j => ?_, fun j => ?_, fun hx => ?_⟩
    · obtain ⟨hplaced, hlucky, -⟩ := hplays.prints j
      rw [placedBy_snoc, luckies_snoc, hplaced, hlucky, List.append_nil, List.append_nil, hc]
      exact hs.paced j
    · obtain ⟨settled, amount, hstand⟩ := hs.stand j
      rw [hsame, linesOf_snoc]
      by_cases hj : j = i
      · subst hj
        rw [if_pos rfl]
        exact Stand.step hplays hshift (fun k => (hepipe k).1) (fun k => (hepipe k).2) (hE.talk j)
          hstand
      · rw [if_neg (by simpa using Ne.symm hj), List.append_nil, hothers j hj,
          (hplays.elsewhere hshift hj).2]
        exact ⟨settled, amount, hstand⟩
    · rw [hc]
      exact (hclosed hx).resolve_right (hplays.prints i).2.2
  · have hplaced : ∀ i, placedBy i (tr ++ [⟨s, (p, .said none), t⟩]) = placedBy i tr := fun i =>
      (placedBy_snoc _).trans (List.append_nil _)
    have hlucky : luckies (tr ++ [⟨s, (p, .said none), t⟩]) = luckies tr :=
      (luckies_snoc _).trans (List.append_nil _)
    refine ⟨hc ▸ hs.nodup, fun i => ?_, fun i => ?_, fun hx => ?_⟩
    · rw [hplaced, hlucky, hc]
      exact hs.paced i
    · obtain ⟨settled, amount, hstand⟩ := hs.stand i
      refine ⟨settled, amount, ?_⟩
      rw [faced, hplaced, hlucky, linesOf_snoc, hc, hg, ← faced,
        show t.pipes.content = s.pipes.content from hshift, show lineIn (.said none) = [] from rfl,
        ite_self, List.append_nil]
      exact hstand
    · rw [hc]
      exact (hclosed hx).resolve_right nofun

/-- A player leaves. -/
def resigns (i : Fin n) : List (Option (Fin n) × Option Answer) :=
  (some i, some (.turn ⟨0, 0, 0, 3, none⟩)) :: quiet (some i) 3

end Sop2.Roulette
