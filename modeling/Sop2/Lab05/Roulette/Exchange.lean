import Sop2.Lab05.Roulette.Casino

/-!
# Lab05 — Roulette — the exchange

What is between the croupier and each of the players, over whole runs.

* `Talk`: a player has said a part of its bet, which the croupier has heard or which is in the pipe;
  or it has its answer, and nothing else is anywhere.
* `Exchange.step`: that is kept, and so nobody finds a broken pipe, a player finds no end of a file,
  and the croupier finds one only between two bets.
* `progress`: some process can go on, unless all have ended or a prize is no `int`.
-/

namespace Sop2.Roulette
open Support Support.Piped
open PipeCards (Pipe allEnds mem_allEnds nodup_allEnds ends own)

variable {n cap : Nat} {pids : Fin n → Int} {m pid : Int} {s t : State n} {i j : Fin n}
  {e : Seen n} {c c' : Croupier n} {g g' : Gambler} {xs ys : List Int}

/-! ### One player and the croupier -/

/-- What the croupier has heard of the bet of `i`. -/
def heard : Croupier n → Fin n → List Int
  | .number _ _ pid j _, i => if i = j then [pid] else []
  | .bet _ _ pid number j _, i => if i = j then [pid, number] else []
  | .answer _ _ b j _, i => if i = j then [b.pid, b.number, b.bet] else []
  | _, _ => []

/-- What a player has said of its bet. -/
def said (pid : Int) : Gambler → Option (List Int)
  | .number _ => some [pid]
  | .bet w => some [pid, w.number]
  | .result w => some [pid, w.number, w.bet]
  | .stale _ | .failed _ => none
  | _ => some []

/-- What the croupier has heard, what is in the two pipes, and where the player is. -/
inductive Talk (pid : Int) : List Int → List Int → List Int → Gambler → Prop where
  | asks {heard xs : List Int} {g : Gambler} (h : said pid g = some (heard ++ xs)) :
      Talk pid heard xs [] g
  | answered (w : Wager) (lucky : Int) : Talk pid [] [] [lucky] (.result w)

/-- The player will not write any more. -/
def Gambler.done : Gambler → Bool
  | .exiting _ | .gone _ => true
  | _ => false

/-- The croupier will read from the player again. -/
def Croupier.live : Croupier n → Fin n → Bool
  | .draw t, i | .players t _ _, i | .number t _ _ _ _, i | .bet t _ _ _ _ _, i
  | .answer t _ _ _ _, i | .tell t _ _ _ _, i | .broken t _ _ _, i | .failed t, i => t.rps i
  | .closing t _ j _, i => t.rps i && decide (i ≠ j)
  | _, _ => false

/-- Nothing has gone wrong with the croupier, and it knows what it has seen. -/
def Croupier.Fine : Croupier n → Prop
  | .draw t => ∀ i, t.wps i = true
  | .players t _ rest => (∀ i, t.wps i = true) ∧ (t.any = false → ∀ i ∉ rest, t.rps i = false)
  | .number t _ _ _ _ | .bet t _ _ _ _ _ | .answer t _ _ _ _ | .tell t _ _ _ _
  | .closing t _ _ _ => (∀ i, t.wps i = true) ∧ t.any = true
  | .broken _ _ _ _ | .failed _ => False
  | .cleanup _ | .waiting | .done => True

theorem Talk.hear {x : Int} {heard : List Int} (h : Talk pid heard (x :: xs) ys g) :
    Talk pid (heard ++ [x]) xs ys g := by
  cases h with
  | asks h => exact .asks (by rw [h, List.append_assoc]; rfl)

/-- Who has said nothing has not been heard. -/
theorem Talk.nothing {heard : List Int} (h : Talk pid heard xs ys g)
    (hg : said pid g = some []) : heard = [] ∧ xs = [] ∧ ys = [] := by
  cases h with
  | asks h =>
      obtain ⟨h₁, h₂⟩ := List.append_eq_nil_iff.mp (Option.some.inj (h.symm.trans hg))
      exact ⟨h₁, h₂, rfl⟩
  | answered w lucky => cases hg

/-- Whose bet has been heard waits for the answer. -/
theorem Talk.placed {b : Placed} (h : Talk pid [b.pid, b.number, b.bet] xs ys g) :
    ∃ w, g = .result w ∧ b = ⟨pid, w.number, w.bet⟩ ∧ xs = [] ∧ ys = [] := by
  cases h with
  | asks h =>
      cases g with
      | result w =>
          obtain ⟨pid', number, bet⟩ := b
          simp only [said, List.cons_append, List.nil_append, Option.some.injEq,
            List.cons.injEq] at h
          obtain ⟨rfl, rfl, rfl, hnil⟩ := h
          exact ⟨w, rfl, rfl, hnil.symm, rfl⟩
      | deciding | pid | number | bet | stale | settle | leaving | closing | exiting | gone
      | overflow | failed => simp [said] at h

theorem Talk.defined {heard : List Int} (h : Talk pid heard xs ys g) (w : Wager) :
    g ≠ .failed w ∧ g ≠ .stale w := by
  cases h with
  | asks h => constructor <;> rintro rfl <;> cases h
  | answered => exact ⟨nofun, nofun⟩

/-- How much there can be in the pipes. -/
theorem Talk.size {heard : List Int} (h : Talk pid heard xs ys g) :
    ys.length ≤ 1 ∧ xs.length ≤ 3 ∧ (ys = [] ∨ xs = []) := by
  cases h with
  | asks h =>
      have hlength : (heard ++ xs).length ≤ 3 := by
        cases g with
        | stale | failed => cases h
        | _ => exact (Option.some.inj h) ▸ by simp
      rw [List.length_append] at hlength
      exact ⟨Nat.zero_le 1, by omega, .inl rfl⟩
  | answered => exact ⟨Nat.le_refl 1, Nat.zero_le 3, .inr rfl⟩

/-! ### The croupier goes on -/

/-- To read from a player no more is to close its file. -/
theorem live_closeRps (t : Table n) (lucky : Int) (i j : Fin n) (rest : List (Fin n)) :
    (Croupier.players (t.closeRps j) lucky rest).live i =
      (Croupier.closing t lucky j rest).live i := by
  change Function.update t.rps j false i = (t.rps i && decide (i ≠ j))
  rw [Function.update_apply]
  split <;> simp [*]

theorem Serves.fine (h : Serves c e c') (hc : c.Fine) (he : ∀ k, e ≠ .epipe k) : c'.Fine := by
  cases h with
  | draw t r => exact ⟨hc, fun _ i hi => absurd (List.mem_finRange i) hi⟩
  | skip t lucky i rest hi =>
      refine ⟨hc.1, fun hany j hj => ?_⟩
      by_cases hji : j = i
      · rw [hji]
        exact hi
      · exact hc.2 hany j fun hmem => (List.mem_cons.mp hmem).elim hji hj
  | roundEnds t lucky hany => exact hc.1
  | wins => trivial
  | pid t lucky pid i rest hi => exact ⟨hc.1, rfl⟩
  | number | bet | answer | eofNumber | eofBet => exact hc
  | eofPid t lucky i rest hi => exact ⟨hc.1, rfl⟩
  | epipe => exact absurd rfl (he _)
  | stray t lucky b i rest hi | strayFails t lucky b i rest hi =>
      rw [hc.1 i] at hi
      cases hi
  | tell t lucky b i rest =>
      exact ⟨hc.1, fun hany => absurd (hc.2.symm.trans hany) (by decide)⟩
  | closeRps t lucky i rest =>
      exact ⟨hc.1, fun hany => absurd (hc.2.symm.trans hany) (by decide)⟩
  | closeWps => exact hc.elim
  | cleanup | wait | done => trivial

/-- It stops to read from a player at the end of the file. -/
theorem Serves.live (h : Serves c e c') (hc : c.Fine) (hlive : c'.live i = false) :
    c.live i = false ∨ e = .eof (.fromPlayer i) := by
  cases h with
  | wins t lucky hany => exact .inl (hc.2 hany i List.not_mem_nil)
  | eofPid t lucky j rest | eofNumber t lucky pid j rest | eofBet t lucky pid number j rest =>
      by_cases hij : i = j
      · exact .inr (by rw [hij])
      · rw [Croupier.live, decide_eq_true hij, Bool.and_true] at hlive
        exact .inl hlive
  | closeRps t lucky j rest => exact .inl ((live_closeRps t lucky i j rest).symm.trans hlive)
  | closeWps => exact .inl hlive
  | draw | skip | roundEnds | pid | number | bet | answer | epipe | stray | strayFails | tell | cleanup
  | wait | done => exact .inl hlive

/-- What the croupier hears is what comes out of the pipe. -/
theorem Serves.talk {before after : Pipe n → List Int} (h : Serves c e c') (hc : c.Fine)
    (hshift : e.Shifts before after) (he : ∀ k, e ≠ .epipe k)
    (heof : e = .eof (.fromPlayer i) → said pid g = some [])
    (hT : Talk pid (heard c i) (before (.fromPlayer i)) (before (.toPlayer i)) g) :
    Talk pid (heard c' i) (after (.fromPlayer i)) (after (.toPlayer i)) g := by
  -- a piece is read from the pipe of `j`
  have hears : ∀ {j x}, e = .read (.fromPlayer j) x →
      heard c' i = (if i = j then heard c i ++ [x] else heard c i) →
      Talk pid (heard c' i) (after (.fromPlayer i)) (after (.toPlayer i)) g := by
    rintro j x rfl hheard
    rw [show before = _ from hshift] at hT
    by_cases hij : i = j
    · subst hij
      rw [Function.update_self, Function.update_of_ne (by simp)] at hT
      rw [hheard, if_pos rfl]
      exact hT.hear
    · rw [Function.update_of_ne (by simpa using hij), Function.update_of_ne (by simp)] at hT
      rwa [hheard, if_neg hij]
  -- at the end of a file nothing has been heard
  have ends : ∀ {j}, e = .eof (.fromPlayer j) → heard c' i = [] → (i ≠ j → heard c i = []) →
      Talk pid (heard c' i) (after (.fromPlayer i)) (after (.toPlayer i)) g := by
    rintro j rfl hheard hother
    rw [show after = before from hshift, hheard]
    by_cases hij : i = j
    · subst hij
      have hnothing := hT.nothing (heof rfl)
      rwa [hnothing.1] at hT
    · rwa [hother hij] at hT
  cases h with
  | draw | skip | roundEnds | wins | tell | closeRps | cleanup | wait | done =>
      rw [show after = before from hshift]
      exact hT
  | pid t lucky x j rest hj =>
      refine hears rfl ?_
      rw [heard]
      split <;> rfl
  | number t lucky pid x j rest | bet t lucky pid number x j rest =>
      refine hears rfl ?_
      rw [heard, heard]
      split <;> rfl
  | eofPid t lucky j rest hj => exact ends rfl rfl fun _ => rfl
  | eofNumber t lucky pid j rest | eofBet t lucky pid number j rest =>
      exact ends rfl rfl fun hij => if_neg hij
  | answer t lucky b j rest =>
      rw [show after = _ from hshift, Function.update_of_ne (by simp)]
      by_cases hij : i = j
      · subst hij
        rw [heard, if_pos rfl] at hT
        obtain ⟨w, rfl, -, hfrom, hto⟩ := hT.placed
        rw [Function.update_self, hfrom, hto]
        exact .answered w lucky
      · rw [Function.update_of_ne (by simpa using hij)]
        rwa [heard, if_neg hij] at hT
  | epipe => exact absurd rfl (he _)
  | stray t lucky b j rest hj | strayFails t lucky b j rest hj =>
      rw [hc.1 j] at hj
      cases hj
  | closeWps => exact hc.elim

/-! ### A player goes on -/

theorem Plays.done (h : Plays pid i g e g') (hg : g.done = true) : g'.done = true := by
  cases h with
  | exiting => rfl
  | epipe g w h => obtain rfl | rfl | rfl := h <;> cases hg
  | _ => cases hg

/-- What a player says is in the pipe. -/
theorem Plays.talk {before after : Pipe n → List Int} {heard : List Int} (h : Plays pid i g e g')
    (hshift : e.Shifts before after) (he : ∀ k, e ≠ .epipe k) (heof : ∀ k, e ≠ .eof k)
    (hT : Talk pid heard (before (.fromPlayer i)) (before (.toPlayer i)) g) :
    Talk pid heard (after (.fromPlayer i)) (after (.toPlayer i)) g' := by
  -- nothing is written
  have stays : after = before → said pid g' = said pid g → (∀ w, g ≠ .result w) →
      Talk pid heard (after (.fromPlayer i)) (after (.toPlayer i)) g' := by
    intro hsame hsaid hg
    rw [hsame]
    generalize before (.fromPlayer i) = xs at hT ⊢
    generalize before (.toPlayer i) = ys at hT ⊢
    cases hT with
    | asks h => exact .asks (hsaid.trans h)
    | answered w lucky => exact absurd rfl (hg w)
  -- a piece is written
  have speaks : ∀ {x}, e = .wrote (.fromPlayer i) x →
      said pid g' = (said pid g).map (· ++ [x]) → (∀ w, g ≠ .result w) →
      Talk pid heard (after (.fromPlayer i)) (after (.toPlayer i)) g' := by
    rintro x rfl hsaid hg
    rw [show after = _ from hshift, Function.update_self, Function.update_of_ne (by simp)]
    generalize before (.fromPlayer i) = xs at hT ⊢
    generalize before (.toPlayer i) = ys at hT ⊢
    cases hT with
    | asks h => exact .asks (by rw [hsaid, h, Option.map_some, List.append_assoc])
    | answered w lucky => exact absurd rfl (hg w)
  cases h with
  | resign | broke | stake | won | overflow | lost | leaving | closing | exiting =>
      exact stays hshift rfl nofun
  | stale w x =>
      generalize before (.fromPlayer i) = xs at hT
      generalize before (.toPlayer i) = ys at hT
      cases hT with
      | asks h => cases h
  | pid w | number w | bet w => exact speaks rfl rfl nofun
  | epipe => exact absurd rfl (he _)
  | eof => exact absurd rfl (heof _)
  | result w lucky =>
      rw [show before = _ from hshift, Function.update_self, Function.update_of_ne (by simp)] at hT
      generalize after (.fromPlayer i) = xs at hT ⊢
      generalize after (.toPlayer i) = ys at hT ⊢
      cases hT with
      | answered _ _ => exact .asks rfl

/-! ### All of them -/

/-- What is between the croupier and the players. -/
structure Exchange (pids : Fin n → Int) (m : Int) (s : State n) : Prop where
  talk : ∀ i, Talk (pids i) (heard s.croupier i) (s.pipes.content (.fromPlayer i))
    (s.pipes.content (.toPlayer i)) (s.gambler m i)
  gone : ∀ i, s.croupier.live i = false → (s.gambler m i).done = true
  fine : s.croupier.Fine

/-- The ends that the croupier uses. -/
theorem croupier_has (hs : AllTidy m s) {f : End (Pipe n)} (hf : own none f = true) :
    s.has none f = s.croupier.holds f := by
  have hok := hs.ok none
  rw [hs.has none, State.croupier]
  cases hpc : s.pc none with
  | closing es =>
      change beside (own none) es f = own none f
      rw [beside, hf]
      rfl
  | working q =>
      cases q with
      | inl c => rfl
      | inr g =>
          rw [hpc] at hok
          exact hok.elim

/-- The ends that a player uses. -/
theorem gambler_has (hs : AllTidy m s) {f : End (Pipe n)} (hf : own (some i) f = true) :
    s.has (some i) f = (s.gambler m i).holds i f := by
  have hok := hs.ok (some i)
  rw [hs.has (some i), State.gambler]
  cases hpc : s.pc (some i) with
  | closing es =>
      change beside (own (some i)) es f = own (some i) f
      rw [beside, hf]
      rfl
  | working q =>
      cases q with
      | inl c =>
          rw [hpc] at hok
          exact hok.elim
      | inr g => rfl

theorem said_of_done (h : g.done = true) : said pid g = some [] := by
  cases g with
  | exiting | gone => rfl
  | _ => cases h

/-- Nobody writes to the croupier any more: the player is done. -/
theorem done_of_noWriter (hs : AllTidy m s) (h : s.pipes.NoWriter (.fromPlayer i)) :
    (s.gambler m i).done = true := by
  have hhas : s.has (some i) (.write (.fromPlayer i)) = false := h (some i)
  rw [gambler_has hs (by simp [own, ends])] at hhas
  cases hg : s.gambler m i with
  | exiting | gone => rfl
  | _ =>
      rw [hg] at hhas
      simp [Gambler.holds, ends] at hhas

/-- Nobody reads what the croupier answers: the player has no bet. -/
theorem said_of_noReader (hs : AllTidy m s) (h : s.pipes.NoReader (.toPlayer i)) :
    said pid (s.gambler m i) = some [] := by
  have hhas : s.has (some i) (.read (.toPlayer i)) = false := h (some i)
  rw [gambler_has hs (by simp [own, ends])] at hhas
  cases hg : s.gambler m i with
  | closing | exiting | gone => rfl
  | _ =>
      rw [hg] at hhas
      simp [Gambler.holds, ends] at hhas

/-- An end that the croupier has closed is one of a player that it does not read from. -/
theorem live_of_holds (hc : c.Fine)
    (h : c.holds (.read (.fromPlayer i)) = false ∨ c.holds (.write (.toPlayer i)) = false) :
    c.live i = false := by
  cases c with
  | draw t =>
      rcases h with h | h
      · exact h
      · exact absurd (h.symm.trans (hc i)) (by decide)
  | players t | number t | bet t | answer t | tell t =>
      rcases h with h | h
      · exact h
      · exact absurd (h.symm.trans (hc.1 i)) (by decide)
  | closing t =>
      rcases h with h | h
      · rw [Croupier.live, show t.rps i = false from h, Bool.false_and]
      · exact absurd (h.symm.trans (hc.1 i)) (by decide)
  | broken | failed => exact hc.elim
  | cleanup | waiting | done => rfl

/-- Whom the croupier does not hear has done. -/
theorem Exchange.done (hs : Exchange pids m s) (hT : AllTidy m s)
    (h : s.pipes.NoReader (.fromPlayer i) ∨ s.pipes.NoWriter (.toPlayer i)) :
    (s.gambler m i).done = true := by
  refine hs.gone i (live_of_holds hs.fine ?_)
  rcases h with h | h
  · exact .inl ((croupier_has hT rfl).symm.trans (h none))
  · exact .inr ((croupier_has hT rfl).symm.trans (h none))

/-- The croupier finds no broken pipe. -/
theorem Exchange.croupier_epipe (hs : Exchange pids m s) (hT : AllTidy m s)
    (h : Step cap pids m s (none, e) t) (hserves : Serves s.croupier e t.croupier) (k : Pipe n) :
    e ≠ .epipe k := by
  rintro rfl
  generalize hc : s.croupier = c at hserves
  generalize t.croupier = c' at hserves
  cases hserves with
  | epipe x lucky b j rest =>
      have hnothing := (hs.talk j).nothing (said_of_noReader hT h.of_epipe)
      rw [hc, heard, if_pos rfl] at hnothing
      cases hnothing.1

/-- A player finds none, and no end of a file. -/
theorem Exchange.player_epipe (hs : Exchange pids m s) (hT : AllTidy m s)
    (h : Step cap pids m s (some i, e) t) (hplays : Plays (pids i) i (s.gambler m i) e g')
    (k : Pipe n) : e ≠ .epipe k ∧ e ≠ .eof k := by
  constructor
  · rintro rfl
    generalize hg : s.gambler m i = g at hplays
    cases hplays with
    | epipe g w hw =>
        have hdone := hs.done hT (.inl h.of_epipe)
        rw [hg] at hdone
        obtain rfl | rfl | rfl := hw <;> cases hdone
  · rintro rfl
    generalize hg : s.gambler m i = g at hplays
    cases hplays with
    | eof w =>
        have hdone := hs.done hT (.inr h.of_eof.2)
        rw [hg] at hdone
        cases hdone

/-- What a player does is between it and the croupier only. -/
theorem Plays.elsewhere {before after : Pipe n → List Int} (h : Plays pid i g e g')
    (hshift : e.Shifts before after) (hj : j ≠ i) :
    after (.fromPlayer j) = before (.fromPlayer j) ∧
      after (.toPlayer j) = before (.toPlayer j) := by
  cases h with
  | pid | number | bet =>
      rw [show after = _ from hshift]
      exact ⟨Function.update_of_ne (by simpa using hj) .., Function.update_of_ne (by simp) ..⟩
  | result =>
      rw [show before = _ from hshift]
      exact ⟨(Function.update_of_ne (by simp) ..).symm,
        (Function.update_of_ne (by simpa using hj) ..).symm⟩
  | _ => exact ⟨congrFun hshift _, congrFun hshift _⟩

theorem Exchange.step {l : Option (Fin n) × Seen n} (hs : Exchange pids m s) (hT : AllTidy m s)
    (h : Step cap pids m s l t) : Exchange pids m t := by
  have hshift := h.shifts
  obtain ⟨p, e⟩ := l
  rcases step_cases h with ⟨rfl, hserves, hg⟩ | ⟨i, rfl, hplays, hc, hothers⟩ | ⟨rfl, hc, hg⟩
  · have hepipe := hs.croupier_epipe hT h hserves
    have heof : ∀ i, e = .eof (.fromPlayer i) → (s.gambler m i).done = true := by
      rintro i rfl
      exact done_of_noWriter hT h.of_eof.2
    refine ⟨fun i => ?_, fun i hlive => ?_, hserves.fine hs.fine hepipe⟩
    · rw [hg]
      exact hserves.talk hs.fine hshift hepipe (fun he => said_of_done (heof i he)) (hs.talk i)
    · rw [hg]
      rcases hserves.live hs.fine hlive with hlive | he
      · exact hs.gone i hlive
      · exact heof i he
  · have hepipe := hs.player_epipe hT h hplays
    refine ⟨fun j => ?_, fun j hlive => ?_, ?_⟩
    · rw [hc]
      by_cases hj : j = i
      · subst hj
        exact hplays.talk hshift (fun k => (hepipe k).1) (fun k => (hepipe k).2) (hs.talk j)
      · obtain ⟨hfrom, hto⟩ := hplays.elsewhere hshift hj
        rw [hothers j hj, hfrom, hto]
        exact hs.talk j
    · rw [hc] at hlive
      by_cases hj : j = i
      · subst hj
        exact hplays.done (hs.gone j hlive)
      · rw [hothers j hj]
        exact hs.gone j hlive
    · rw [hc]
      exact hs.fine
  · refine ⟨fun i => ?_, fun i hlive => ?_, ?_⟩
    · rw [hc, hg, show t.pipes.content = s.pipes.content from hshift]
      exact hs.talk i
    · rw [hg]
      exact hs.gone i (hc ▸ hlive)
    · rw [hc]
      exact hs.fine

theorem exchange_begin (n : Nat) (pids : Fin n → Int) (m : Int) : Exchange pids m (begin n) where
  talk _ := .asks rfl
  gone _ h := nomatch h
  fine _ := rfl

/-- **What is between them**, in every reachable state. -/
theorem exchange_run {tr : List (Move (State n) (Option (Fin n) × Seen n))}
    (r : Run (Step cap pids m) (begin n) tr s) : Exchange pids m s ∧ AllTidy m s :=
  r.invariant (I := fun s => Exchange pids m s ∧ AllTidy m s)
    (fun hs h => ⟨hs.1.step hs.2 h, hs.2.step h⟩) ⟨exchange_begin n pids m, tidy_begin n m⟩

/-! ### Some process goes on -/

/-- All processes have ended. -/
def Ended (s : State n) : Prop :=
  s.pc none = .working (.inl .done) ∧ ∀ i, ∃ amount, s.pc (some i) = .working (.inr (.gone amount))

/-- Some process can go on, or a prize is no `int`. -/
def Goes (cap : Nat) (pids : Fin n → Int) (m : Int) (s : State n) : Prop :=
  (∃ l t, Step cap pids m s l t) ∨ ∃ i w, s.gambler m i = .overflow w

theorem goes_of_closing {p : Option (Fin n)} {es : List (End (Pipe n))}
    (h : s.pc p = .closing es) : Goes cap pids m s := by
  cases es with
  | nil => exact .inl ⟨_, _, .act p none (.working (start m p)) (by rw [h]; rfl)⟩
  | cons f es => exact .inl ⟨_, _, .close p f (.closing es) (by rw [h]; rfl)⟩

/-- Who writes to a pipe that is empty goes on. -/
theorem goes_of_write {p : Option (Fin n)} {k : Pipe n} {x : Int}
    {q q' : SetUp (Pipe n) (Place n)} (hcap : 0 < cap)
    (h : op pids m p (s.pc p) = .write k x q q') (hk : s.pipes.content k = []) :
    Goes cap pids m s := by
  by_cases hr : s.pipes.NoReader k
  · exact .inl ⟨_, _, .epipe p k x q q' h hr⟩
  · exact .inl ⟨_, _, .write p k x q q' _ h (.ok hr (by rw [hk]; exact hcap))⟩

/-- A player to whom the croupier listens, and who has not done, goes on. -/
theorem player_goes (hcap : 0 < cap) (hs : Exchange pids m s)
    (hfrom : s.pipes.content (.fromPlayer i) = []) (hheard : (heard s.croupier i).length ≤ 2)
    (hpc : s.pc (some i) = .working (.inr g)) (hg : ∀ amount, g ≠ .gone amount) :
    Goes cap pids m s := by
  have hop : op pids m (some i) (s.pc (some i)) =
      ((playerWork (pids i) i g).map .inr).map .working := by rw [hpc]; rfl
  have hgambler : s.gambler m i = g := by rw [State.gambler, hpc]; rfl
  have htalk := hs.talk i
  rw [hgambler, hfrom] at htalk
  generalize heard s.croupier i = xs at htalk hheard
  generalize hto : s.pipes.content (.toPlayer i) = ys at htalk
  cases g with
  | deciding amount =>
      by_cases hpos : 0 < amount
      · rw [playerWork, if_pos hpos] at hop
        exact .inl ⟨_, _, .ask (some i) _ (.turn ⟨0, 0, 0, 0, none⟩) (some (.saved amount))
          (.working (.inr (.leaving amount))) hop rfl⟩
      · rw [playerWork, if_neg hpos] at hop
        exact .inl ⟨_, _, .act (some i) _ _ hop⟩
  | pid w | number w | bet w => exact goes_of_write hcap hop hfrom
  | result w =>
      cases htalk with
      | asks h =>
          rw [said, List.append_nil, Option.some.injEq] at h
          rw [← h] at hheard
          exact absurd hheard (by simp)
      | answered _ lucky => exact .inl ⟨_, _, .read (some i) _ _ _ _ lucky _ hop (.data _ _ hto)⟩
  | stale w | failed w =>
      cases htalk with
      | asks h => cases h
  | settle w lucky =>
      by_cases hlucky : lucky = w.number
      · rw [playerWork, if_pos hlucky] at hop
        cases hcollect : collect w.rest w.bet with
        | some x =>
            rw [hcollect] at hop
            exact .inl ⟨_, _, .act (some i) _ _ hop⟩
        | none =>
            rw [hcollect] at hop
            exact .inl ⟨_, _, .act (some i) _ _ hop⟩
      · rw [playerWork, if_neg hlucky] at hop
        exact .inl ⟨_, _, .act (some i) _ _ hop⟩
  | leaving amount | closing amount => exact .inl ⟨_, _, .close (some i) _ _ hop⟩
  | exiting amount => exact .inl ⟨_, _, .exit (some i) _ hop⟩
  | gone amount => exact absurd rfl (hg amount)
  | overflow w => exact .inr ⟨i, w, hgambler⟩

/-- Where a player is, unless it goes on. -/
theorem working_or_goes (hT : AllTidy m s) (i : Fin n) :
    (∃ g, s.pc (some i) = .working (.inr g) ∧ s.gambler m i = g) ∨ Goes cap pids m s := by
  cases hpc : s.pc (some i) with
  | closing es => exact .inr (goes_of_closing hpc)
  | working q =>
      cases q with
      | inl c =>
          have hok := hT.ok (some i)
          rw [hpc] at hok
          exact hok.elim
      | inr g => exact .inl ⟨g, rfl, by rw [State.gambler, hpc]; rfl⟩

/-- When the croupier reads from a player, it goes on, or that does. -/
theorem goes_of_read (hcap : 0 < cap) (hs : Exchange pids m s) (hT : AllTidy m s)
    {data : Int → SetUp (Pipe n) (Place n)} {eof : SetUp (Pipe n) (Place n)}
    (h : op pids m none (s.pc none) = .read (.fromPlayer i) data eof none)
    (hheard : (heard s.croupier i).length ≤ 2) : Goes cap pids m s := by
  cases hk : s.pipes.content (.fromPlayer i) with
  | cons x xs => exact .inl ⟨_, _, .read none _ data eof none x _ h (.data x xs hk)⟩
  | nil =>
      by_cases hw : s.pipes.NoWriter (.fromPlayer i)
      · exact .inl ⟨_, _, .eof none _ data eof none h hk hw⟩
      · -- somebody has the write end: who has not begun yet, or the player
        obtain ⟨p, hp⟩ := Pipes.not_noWriter.mp hw
        have hhas : s.has p (.write (.fromPlayer i)) = true := hp
        have hok := hT.ok p
        rw [hT.has p] at hhas
        cases hpc : s.pc p with
        | closing es => exact goes_of_closing hpc
        | working q =>
            rw [hpc] at hhas hok
            cases p with
            | none =>
                cases q with
                | inl c =>
                    -- the croupier has none of the write ends, but to close them
                    refine absurd h ?_
                    rw [hpc]
                    cases c with
                    | cleanup es =>
                        cases es <;> exact nofun
                    | draw | players | number | bet | answer | tell | closing | broken | failed
                    | waiting | done => cases hhas
                | inr g => exact hok.elim
            | some j =>
                cases q with
                | inl c => exact hok.elim
                | inr g =>
                    have hij : i = j := by
                      cases g with
                      | exiting | gone => cases hhas
                      | _ => simpa [SetUp.holds, holds, Gambler.holds, ends] using hhas
                    subst hij
                    refine player_goes hcap hs hk hheard hpc fun amount hg => ?_
                    rw [hg] at hhas
                    cases hhas

/-- At the end of `server_work` every player that has not gone goes on. -/
theorem gone_or_goes (hs : Exchange pids m s) (hT : AllTidy m s) (hlive : s.croupier.live i = false) :
    (∃ amount, s.pc (some i) = .working (.inr (.gone amount))) ∨ Goes cap pids m s := by
  have hplace : _ ∨ Goes cap pids m s := working_or_goes hT i
  rcases hplace with ⟨g, hpc, hg⟩ | hgoes
  · have hdone := hs.gone i hlive
    rw [hg] at hdone
    cases g with
    | exiting amount =>
        exact .inr (.inl ⟨_, _, .exit (some i) (.working (.inr (.gone amount))) (by rw [hpc]; rfl)⟩)
    | gone amount => exact .inl ⟨amount, hpc⟩
    | _ => cases hdone
  · exact .inr hgoes

/-- **Some process goes on**, unless all have ended or a prize is no `int`. -/
theorem progress (hcap : 0 < cap) (hs : Exchange pids m s) (hT : AllTidy m s) :
    Ended s ∨ Goes cap pids m s := by
  cases hpc : s.pc none with
  | closing es => exact .inr (goes_of_closing hpc)
  | working q =>
      cases q with
      | inr g =>
          have hok := hT.ok none
          rw [hpc] at hok
          exact hok.elim
      | inl c =>
          have hop : op pids m none (s.pc none) = ((serverWork c).map .inl).map .working := by
            rw [hpc]; rfl
          have hcroupier : s.croupier = c := by rw [State.croupier, hpc]; rfl
          have hfine := hs.fine
          rw [hcroupier] at hfine
          -- behind `server_work` all players have gone, or one goes on
          have hall : (∀ i, c.live i = false) →
              (∀ i, ∃ amount, s.pc (some i) = .working (.inr (.gone amount))) ∨
                Goes cap pids m s := fun hlive => by
            by_cases hgoes : Goes cap pids m s
            · exact .inr hgoes
            · exact .inl fun i => (gone_or_goes hs hT (hcroupier ▸ hlive i)).resolve_right hgoes
          cases c with
          | draw t => exact .inr (.inl ⟨_, _, .ask none _ (.lucky 0) none _ hop rfl⟩)
          | players t lucky rest =>
              cases rest with
              | nil =>
                  rw [serverWork] at hop
                  split at hop <;> exact .inr (.inl ⟨_, _, .act none _ _ hop⟩)
              | cons i rest =>
                  rw [serverWork] at hop
                  split at hop
                  · exact .inr (goes_of_read hcap hs hT hop (by rw [hcroupier]; simp [heard]))
                  · exact .inr (.inl ⟨_, _, .act none _ _ hop⟩)
          | number t lucky pid i rest | bet t lucky pid number i rest =>
              exact .inr (goes_of_read hcap hs hT hop (by rw [hcroupier]; simp [heard]))
          | answer t lucky b i rest =>
              rw [serverWork, if_pos (hfine.1 i)] at hop
              have htalk := hs.talk i
              rw [hcroupier, heard, if_pos rfl] at htalk
              obtain ⟨w, -, -, -, hto⟩ := htalk.placed
              exact .inr (goes_of_write hcap hop hto)
          | tell => exact .inr (.inl ⟨_, _, .act none _ _ hop⟩)
          | closing | broken => exact .inr (.inl ⟨_, _, .close none _ _ hop⟩)
          | cleanup es =>
              cases es with
              | nil => exact .inr (.inl ⟨_, _, .act none _ _ hop⟩)
              | cons e es => exact .inr (.inl ⟨_, _, .close none _ _ hop⟩)
          | waiting =>
              rcases hall fun _ => rfl with hgone | hgoes
              · refine .inr (.inl ⟨_, _, .wait none _ hop fun p hp => ?_⟩)
                cases p with
                | none => exact absurd rfl hp
                | some i =>
                    obtain ⟨amount, hi⟩ := hgone i
                    rw [hi]
                    rfl
              · exact .inr hgoes
          | done => exact (hall fun _ => rfl).imp_left fun hgone => ⟨hpc, hgone⟩
          | failed => exact hfine.elim

/-- **The exchange.**  Whatever is drawn, in every reachable state: nobody has called `ERR`, nor gone
on with a number that it has not read; no pipe to a player holds more than one `int`, and none while
there is something in the pipe from it, which holds three at most; and some process can go on, unless
all have ended or some prize was no `int`. -/
theorem exchange_law (hcap : 0 < cap) {tr : List (Move (State n) (Option (Fin n) × Seen n))}
    (r : Run (Step cap pids m) (begin n) tr s) :
    (∀ t, s.croupier ≠ .failed t) ∧
    (∀ i w, s.gambler m i ≠ .failed w ∧ s.gambler m i ≠ .stale w) ∧
    (∀ i, (s.pipes.content (.toPlayer i)).length ≤ 1 ∧
      (s.pipes.content (.fromPlayer i)).length ≤ 3 ∧
      (s.pipes.content (.toPlayer i) = [] ∨ s.pipes.content (.fromPlayer i) = [])) ∧
    (Ended s ∨ (∃ l t, Step cap pids m s l t) ∨ ∃ i w, s.gambler m i = .overflow w) := by
  obtain ⟨hs, hT⟩ := exchange_run r
  refine ⟨fun t ht => ?_, fun i w => (hs.talk i).defined w, fun i => (hs.talk i).size,
    progress hcap hs hT⟩
  have hfine := hs.fine
  rw [ht] at hfine
  exact hfine

/-! ### Two players -/

/-- A player stays, and places a bet that it can pay on a number. -/
def stakes (i : Fin n) (bet number : Nat) : List (Option (Fin n) × Option Answer) :=
  (some i, some (.turn ⟨1, bet - 1, number, 3, none⟩)) :: quiet (some i) 3

/-- The croupier draws a number, and goes on. -/
def draws (lucky k : Nat) : List (Option (Fin n) × Option Answer) :=
  (none, some (.lucky lucky)) :: quiet none k

/-- Two players, who have 100 each, bet 51 on 7 and 100 on 8. -/
def twoBets : List (Option (Fin 2) × Option Answer) :=
  quiet none 5 ++ quiet (some 0) 7 ++ quiet (some 1) 7 ++ stakes 0 51 7 ++ stakes 1 100 8

/-- 7 is drawn, and the croupier has answered the first player and not the second. -/
theorem exchange_law_twoBets : ∃ s : State 2, s.pipes.content (.toPlayer 0) = [7] ∧
    s.pipes.content (.fromPlayer 1) = [1001, 8, 100] ∧ s.pipes.content (.fromPlayer 0) = [] ∧
    s.pipes.content (.toPlayer 1) = [] ∧ (∀ i w, s.gambler 100 i ≠ .failed w) ∧
    (Ended s ∨ (∃ l t, Step 3 (fun i => 1000 + i) 100 s l t) ∨
      ∃ i w, s.gambler 100 i = .overflow w) := by
  have hplay : (Piped.play 3 (op (fun i => 1000 + i) 100) (begin 2) (twoBets ++ draws 7 5)).map
      (fun x => (x.2.pipes.content (.toPlayer 0), x.2.pipes.content (.fromPlayer 1))) =
      some ([7], [1001, 8, 100]) := by
    decide +kernel
  obtain ⟨tr, s, r, h⟩ := play_map hplay
  obtain ⟨hto, hfrom⟩ := Prod.mk.inj h
  obtain ⟨-, hfine, hsize, hgoes⟩ := exchange_law (by decide) r
  refine ⟨s, hto, hfrom, (hsize 0).2.2.resolve_left ?_, (hsize 1).2.2.resolve_right ?_,
    fun i w => (hfine i w).1, hgoes⟩
  · rw [hto]
    exact List.cons_ne_nil _ _
  · rw [hfrom]
    exact List.cons_ne_nil _ _

end Sop2.Roulette
