import Sop2.Lab05.Lotto.Accounts

/-!
# Lab05 — Lotto — the settlement

The totalisator and a player compare the same bet with the same draw, each for itself.

* `Honest`: the accounts of all the processes, in every reachable state.  The pipes give what was
  written to them, so nobody finds a broken pipe, the totalisator finds an end of file only between
  two bets, and a player finds none.
* `accounts_law`: at the end of `totalisator_work` every bet has been counted, once, and with the draw
  that its player compares it with.
-/

namespace Sop2.Lotto
open Support Support.Piped
open PipeCards (Pipe ends own own_server own_player turn)

variable {n t cap : Nat} {pids : Fin n → Nat} {s s' : State n}
  {tr : List (Move (State n) (Option (Fin n) × Seen n))} {i j : Fin n} {q q' : Place n} {e : Seen n}
  {es : List (Seen n)} {p k : Nat} {bs ws cs : List Numbers} {b : Books n}

/-! ### What an account says -/

/-- The bet that a player has made and not compared yet. -/
def Place.betting : Place n → List Numbers
  | .result _ ns | .compare _ ns _ => [ns]
  | _ => []

/-- The draw that a player has read and not compared yet. -/
def Place.drawn : Place n → List Numbers
  | .compare _ _ winning => [winning]
  | _ => []

/-- What a player has done, wherever it is. -/
structure Played (t : Nat) (i : Fin n) (es : List (Seen n)) (q : Place n) (bs ws : List Numbers) :
    Prop where
  length : bs.length = ws.length
  upper : (bs ++ q.betting).length ≤ t
  bets : numbersIn (said i es) = bs ++ q.betting
  heard : heard i es = (ws ++ q.drawn).map .numbers
  checked : checked es = bs.zip ws

theorem numbersIn_append (ms ms' : List Message) :
    numbersIn (ms ++ ms') = numbersIn ms ++ numbersIn ms' := List.filterMap_append ..

theorem Stand.played {begun drawn : List Message} (h : Stand p k i es begun drawn bs ws)
    (hbegun : numbersIn begun = q.betting) (hdrawn : drawn = q.drawn.map .numbers)
    (hk : k + q.betting.length ≤ t) : Played t i es q bs ws where
  length := h.bets.trans h.draws.symm
  upper := by rwa [List.length_append, h.bets]
  bets := by rw [h.said, numbersIn_append, numbersIn_script, hbegun]
  heard := by rw [h.heard, hdrawn, List.map_append]
  checked := h.checked

theorem Counts.played (h : Counts t p i es q) : ∃ bs ws, Played t i es q bs ws := by
  cases q with
  | play k | result k _ | compare k _ _ =>
      obtain ⟨hk, bs, ws, hst⟩ := h
      exact ⟨bs, ws, hst.played rfl rfl hk⟩
  | draw k | pid k _ | bet k _ =>
      obtain ⟨hk, bs, ws, hst⟩ := h
      exact ⟨bs, ws, hst.played rfl rfl (Nat.le_of_lt hk)⟩
  | exiting | gone =>
      obtain ⟨k, hk, bs, ws, hst⟩ := h
      exact ⟨bs, ws, hst.played rfl rfl hk⟩
  | closing | week | players | numbers | count | answer | ended | waiting | done | crashed
  | failed => exact h.elim

/-- What a player writes are bets. -/
theorem Counts.said_begins (h : Counts t p i es q) : ∃ bs, said i es <+: script p bs := by
  cases q with
  | play k | draw k | pid k _ =>
      obtain ⟨-, bs, ws, hst⟩ := h
      exact ⟨bs, by rw [hst.said, List.append_nil]⟩
  | bet k bet =>
      obtain ⟨-, bs, ws, hst⟩ := h
      refine ⟨bs ++ [bet], ?_⟩
      rw [hst.said, script_snoc, List.prefix_append_right_inj]
      exact ⟨[.numbers bet], rfl⟩
  | result k bet | compare k bet _ =>
      obtain ⟨-, bs, ws, hst⟩ := h
      exact ⟨bs ++ [bet], by rw [hst.said, script_snoc]⟩
  | exiting | gone =>
      obtain ⟨k, -, bs, ws, hst⟩ := h
      exact ⟨bs, by rw [hst.said, List.append_nil]⟩
  | closing | week | players | numbers | count | answer | ended | waiting | done | crashed
  | failed => exact h.elim

/-- A player that has closed an end has done with its bets. -/
theorem Counts.of_closed (hof : q.of (some i)) (h : Counts t p i es q.after)
    (hclosed : holds (some i) q (.read (.toPlayer i)) = false ∨
      holds (some i) q (.write (.fromPlayer i)) = false) :
    ∃ k bs ws, Stand p k i es [] [] bs ws := by
  induction q with
  | closing es next ih =>
      refine ih hof.2 h ?_
      simp only [holds, beside, Bool.or_eq_false_iff] at hclosed
      exact hclosed.imp And.left And.left
  | play | draw | pid | bet | result | compare => simp [holds, ends] at hclosed
  | exiting | gone =>
      obtain ⟨k, -, bs, ws, hst⟩ := h
      exact ⟨k, bs, ws, hst⟩
  | failed | week | players | numbers | count | answer | ended | crashed | waiting | done =>
      exact False.elim h

/-- Nothing is said. -/
theorem Counts.quiet (h : Counts t p i es q) : Counts t p i (es ++ [.said none]) q := by
  cases q with
  | play | draw | pid | bet | result | compare =>
      obtain ⟨hk, bs, ws, hst⟩ := h
      exact ⟨hk, bs, ws, hst.snoc rfl rfl rfl⟩
  | exiting | gone =>
      obtain ⟨k, hk, bs, ws, hst⟩ := h
      exact ⟨k, hk, bs, ws, hst.snoc rfl rfl rfl⟩
  | closing | week | players | numbers | count | answer | ended | waiting | done | crashed
  | failed => exact h

/-! ### What the ledger says -/

theorem Ledger.quiet (h : Ledger t pids es q) : Ledger t pids (es ++ [.said none]) q := by
  cases q with
  | week | players | numbers | count | answer | ended =>
      exact ⟨h.1.quiet (fun i hi => ⟨hi, rfl⟩) rfl rfl rfl rfl, h.2⟩
  | waiting | done =>
      obtain ⟨b, hrows, hlast⟩ := h
      exact ⟨b, hrows.quiet (fun i hi => ⟨hi, rfl⟩) rfl rfl rfl rfl, hlast⟩
  | closing | crashed | play | draw | pid | bet | result | compare | exiting | gone | failed =>
      exact h

theorem Ledger.rows (h : Ledger t pids es q) :
    ∃ b ahead unsent turn shown, Rows pids es b ahead unsent turn shown := by
  cases q with
  | week | players | numbers | count | answer | ended => exact ⟨_, _, _, _, _, h.1⟩
  | waiting | done =>
      obtain ⟨b, hrows, -⟩ := h
      exact ⟨_, _, _, _, _, hrows⟩
  | closing | crashed | play | draw | pid | bet | result | compare | exiting | gone | failed =>
      exact h.elim

/-- The sums have been shown. -/
def Settled (t : Nat) (pids : Fin n → Nat) (es : List (Seen n)) : Prop :=
  ∃ b, Rows pids es b nothing nothing (fun _ => 0) [(b.totalBet, b.totalReward)] ∧
    ∀ i, b.rps i = true → b.week = t

/-- Before that the totalisator has every `wps[i]`, and every `rps[i]` of which it did not find the
end. -/
theorem Ledger.holds_or_settled (h : Ledger t pids es q.after) :
    (∀ i, holds none q (.write (.toPlayer i)) = true ∧
      (.eof (.fromPlayer i) ∉ es → holds none q (.read (.fromPlayer i)) = true)) ∨
    Settled t pids es := by
  induction q with
  | closing es' next ih =>
      refine (ih h).imp_left fun hh i => ⟨?_, fun hne => ?_⟩
      · simp [holds, beside, (hh i).1]
      · simp [holds, beside, (hh i).2 hne]
  | week | players | numbers | count | answer | ended =>
      refine .inl fun i => ⟨h.1.wps i, fun hne => ?_⟩
      exact Bool.of_not_eq_false fun hi => hne (h.1.eof i hi)
  | waiting | done => exact .inr h
  | crashed | play | draw | pid | bet | result | compare | exiting | gone | failed => exact h.elim

/-- Who is about to be written to has a bet counted that is not answered. -/
theorem Ledger.answers {c : Message} {ok broken : Place n} (h : Ledger t pids es q)
    (hop : totalisatorWork t q = .write (.toPlayer i) c ok broken) :
    (sentTo i es).length < (counted i es).length := by
  cases q with
  | answer b winning j rest =>
      simp only [totalisatorWork, h.1.wps j, if_true] at hop
      cases hop
      have hsent := congrArg List.length (h.1.sent i)
      rw [List.length_map, only_self, List.length_append, List.length_singleton] at hsent
      omega
  | week b => simp only [totalisatorWork] at hop; split at hop <;> cases hop
  | players b winning rest =>
      cases rest with
      | nil => cases hop
      | cons j rest => simp only [totalisatorWork] at hop; split at hop <;> cases hop
  | closing | numbers | count | ended | waiting | done | crashed | play | draw | pid | bet | result
  | compare | exiting | gone | failed => cases hop

/-- Both of a bet have been read. -/
theorem Rows.length_took {ahead unsent : Fin n → List Message} {turn : Fin n → Nat}
    {shown : List (Nat × Nat)} (h : Rows pids es b ahead unsent turn shown) (i : Fin n) :
    2 * (counted i es).length ≤ (tookFrom i es).length := by
  rw [h.took, List.length_append, length_script, List.length_map]
  exact Nat.le_add_right ..

/-! ### What the operations of a player say -/

theorem Counts.reads {o : Pipe n} {data : Message → Place n} {eof : Place n}
    {again : Option (Place n)} (h : Counts t p i es q)
    (hop : playerWork t pids i q = .read o data eof again) :
    ∃ k < t, (heard i es).length = k ∧ (said i es).length = 2 * k + 2 := by
  cases q with
  | result k bet =>
      obtain ⟨hk, bs, ws, hst⟩ := h
      refine ⟨k, hk, ?_, ?_⟩
      · rw [hst.heard, List.append_nil, List.length_map, hst.draws]
      · rw [hst.said, List.length_append, length_script, hst.bets]
        rfl
  | play k => simp only [playerWork] at hop; split at hop <;> cases hop
  | closing | week | players | numbers | count | answer | ended | waiting | done | crashed
  | draw | pid | bet | compare | exiting | gone | failed => cases hop

theorem Counts.writes {o : Pipe n} {c : Message} {ok broken : Place n} (h : Counts t p i es q)
    (hop : playerWork t pids i q = .write o c ok broken) : (said i es).length < 2 * t := by
  cases q with
  | pid k bet | bet k bet =>
      obtain ⟨hk, bs, ws, hst⟩ := h
      rw [hst.said, List.length_append, length_script, hst.bets]
      simp only [List.length_nil, List.length_singleton]
      omega
  | play k => simp only [playerWork] at hop; split at hop <;> cases hop
  | closing | week | players | numbers | count | answer | ended | waiting | done | crashed
  | draw | result | compare | exiting | gone | failed => cases hop

/-! ### Both sides of a pipe -/

section
variable (run : Run (Step cap t pids) (begin n) tr s)
include run

theorem written_toPlayer (i : Fin n) : written (.toPlayer i) tr = sentTo i (events none tr) :=
  written_of_only op_keeps tidy_begin run fun _ _ _ h => own_server (.inl rfl) (op_uses h)

theorem taken_toPlayer (i : Fin n) : taken (.toPlayer i) tr = heard i (events (some i) tr) :=
  taken_of_only op_keeps tidy_begin run fun _ _ _ h => own_player (.inl rfl) (op_uses h)

theorem written_fromPlayer (i : Fin n) : written (.fromPlayer i) tr = said i (events (some i) tr) :=
  written_of_only op_keeps tidy_begin run fun _ _ _ h => own_player (.inr rfl) (op_uses h)

theorem taken_fromPlayer (i : Fin n) : taken (.fromPlayer i) tr = tookFrom i (events none tr) :=
  taken_of_only op_keeps tidy_begin run fun _ _ _ h => own_server (.inr rfl) (op_uses h)

theorem said_eq (i : Fin n) : said i (events (some i) tr) =
    tookFrom i (events none tr) ++ s.pipes.content (.fromPlayer i) := by
  rw [← written_fromPlayer run, ← taken_fromPlayer run]
  exact pipe_law run (fun _ => rfl) _

theorem sentTo_eq (i : Fin n) : sentTo i (events none tr) =
    heard i (events (some i) tr) ++ s.pipes.content (.toPlayer i) := by
  rw [← written_toPlayer run, ← taken_toPlayer run]
  exact pipe_law run (fun _ => rfl) _

/-- What the totalisator has read when it has found the end. -/
theorem said_of_eof (i : Fin n) (h : .eof (.fromPlayer i) ∈ events none tr) :
    said i (events (some i) tr) = tookFrom i (events none tr) := by
  rw [said_eq run, (ended_of_eof op_keeps tidy_begin run h).1, List.append_nil]

end

/-! ### The accounts of a run -/

/-- The accounts of all the processes. -/
structure Honest (t : Nat) (pids : Fin n → Nat) (s : State n)
    (tr : List (Move (State n) (Option (Fin n) × Seen n))) : Prop where
  ledger : Ledger t pids (events none tr) (s.pc none).after
  counts : ∀ i, Counts t (pids i) i (events (some i) tr) (s.pc (some i)).after
  spared : ∀ i, ∀ e ∈ events (some i) tr, Spared i e

section
variable (run : Run (Step cap t pids) (begin n) tr s) (hH : Honest t pids s tr)
include run hH

/-- The end of its file a player would find only when the totalisator has passed it over. -/
theorem Honest.no_eof (h : Step cap t pids s (some i, .eof (.toPlayer i)) s') : False := by
  have htidy := tidy_begin.run op_keeps run
  cases h with
  | eof _ _ data eof again hop hempty hw =>
      have hC := hH.counts i
      obtain ⟨es, next, hq⟩ | ⟨hafter, hplayer⟩ := op_cases t pids (some i) (s.pc (some i))
      · rw [hq] at hop
        cases es <;> cases hop
      · rw [hafter] at hC
        obtain ⟨k, hk, hheard, hsaid⟩ := hC.reads (hplayer.symm.trans hop)
        rcases hH.ledger.holds_or_settled with hh | ⟨b, hrows, hlast⟩
        · have hopen := (hh i).1
          rw [htidy.noWriter.mp hw none] at hopen
          cases hopen
        · have hcounted : (counted i (events none tr)).length = k := by
            have hsent := congrArg List.length (hrows.sent i)
            rwa [List.length_map, nothing, List.append_nil, sentTo_eq run, hempty,
              List.append_nil, hheard] at hsent
          cases hi : b.rps i with
          | true =>
              have hlength := hrows.length i hi
              rw [hlast i hi] at hlength
              omega
          | false =>
              rw [said_of_eof run i (hrows.eof i hi), hrows.took, nothing, List.append_nil,
                length_script, List.length_map] at hsaid
              omega

/-- A player would find a broken pipe only when the totalisator has found its end. -/
theorem Honest.no_epipe (h : Step cap t pids s (some i, .epipe (.fromPlayer i)) s') : False := by
  have htidy := tidy_begin.run op_keeps run
  cases h with
  | epipe _ _ c ok broken hop hr =>
      have hC := hH.counts i
      obtain ⟨es, next, hq⟩ | ⟨hafter, hplayer⟩ := op_cases t pids (some i) (s.pc (some i))
      · rw [hq] at hop
        cases es <;> cases hop
      · rw [hafter] at hC
        have hsaid := hC.writes (hplayer.symm.trans hop)
        have hne : .eof (.fromPlayer i) ∉ events none tr := fun hend => by
          have hopen := htidy.writes op_keeps hop
          rw [htidy.noWriter.mp (ended_of_eof op_keeps tidy_begin run hend).2] at hopen
          cases hopen
        rcases hH.ledger.holds_or_settled with hh | ⟨b, hrows, hlast⟩
        · have hopen := (hh i).2 hne
          rw [htidy.noReader.mp hr none] at hopen
          cases hopen
        · have hi : b.rps i = true := Bool.of_not_eq_false fun hi => hne (hrows.eof i hi)
          have hlength := hrows.length i hi
          have htook := hrows.length_took i
          have hle := congrArg List.length (said_eq run i)
          rw [List.length_append] at hle
          rw [hlast i hi] at hlength
          omega

/-- A player reads draws. -/
theorem Honest.reads {c : Message} (h : Step cap t pids s (some i, .read (.toPlayer i) c) s') :
    ∃ winning, c = .numbers winning := by
  cases h with
  | read _ _ data eof again _ pipes hop hr =>
      cases hr with
      | data _ rest hcontent =>
          obtain ⟨b, ahead, unsent, turn, shown, hrows⟩ := hH.ledger.rows
          have hc : c ∈ (counted i (events none tr)).map fun x => Message.numbers x.2 := by
            rw [hrows.sent, sentTo_eq run, hcontent]
            simp
          obtain ⟨x, -, rfl⟩ := List.mem_map.mp hc
          exact ⟨x.2, rfl⟩

theorem Honest.isSpared (h : Step cap t pids s (some i, e) s') : Spared i e where
  eof := by
    rintro rfl
    exact hH.no_eof run h
  epipe := by
    rintro rfl
    exact hH.no_epipe run h
  numbers := by
    rintro c rfl
    exact hH.reads run h

/-- The totalisator would find a broken pipe only if the player did not wait for its draw. -/
theorem Honest.answered (h : Step cap t pids s (none, .epipe (.toPlayer i)) s') : False := by
  have htidy := tidy_begin.run op_keeps run
  cases h with
  | epipe _ _ c ok broken hop hr =>
      have hL := hH.ledger
      obtain ⟨es, next, hq⟩ | ⟨hafter, hserver⟩ := op_cases t pids none (s.pc none)
      · rw [hq] at hop
        cases es <;> cases hop
      · rw [hafter] at hL
        have hsent := hL.answers (hserver.symm.trans hop)
        obtain ⟨k, bs, ws, hst⟩ := (hH.counts i).of_closed (htidy.ok (some i))
          (.inl (htidy.noReader.mp hr (some i)))
        obtain ⟨b, ahead, unsent, turn, shown, hrows⟩ := hL.rows
        have htook := hrows.length_took i
        have hsaid := congrArg List.length (said_eq run i)
        have hheard := congrArg List.length (sentTo_eq run i)
        rw [hst.said, List.append_nil, length_script, List.length_append, hst.bets] at hsaid
        rw [hst.heard, List.append_nil, List.length_append, List.length_map, hst.draws] at hheard
        omega

theorem Honest.isRegular (h : Step cap t pids s (none, e) s') :
    Regular pids (events none tr) e where
  epipe i := by
    rintro rfl
    exact hH.answered run h
  read i c := by
    rintro rfl
    obtain ⟨bs, hbs⟩ := (hH.counts i).said_begins
    have hsaid := said_eq (run.snoc h) i
    rw [events_snoc, events_snoc, if_neg (by simp), if_pos rfl, List.append_nil, tookFrom_snoc]
      at hsaid
    refine ⟨bs, List.IsPrefix.trans ⟨s'.pipes.content (.fromPlayer i), ?_⟩ hbs⟩
    rw [hsaid]
    simp [Event.taken?]
  eof i := by
    rintro rfl
    have htidy := tidy_begin.run op_keeps run
    cases h with
    | eof _ _ data eof again hop hempty hw =>
        obtain ⟨k, bs, ws, hst⟩ := (hH.counts i).of_closed (htidy.ok (some i))
          (.inr (htidy.noWriter.mp hw (some i)))
        refine ⟨bs, ?_⟩
        have hsaid := said_eq run i
        rwa [hempty, hst.said, List.append_nil, List.append_nil, eq_comm] at hsaid

end

theorem Rows.start (pids : Fin n → Nat) :
    Rows pids [] (.start n) nothing nothing (fun _ => 0) [] where
  took _ := rfl
  sent _ := rfl
  length _ _ := rfl
  eof := nofun
  wps _ := rfl
  totalBet := by simp [counted, Books.start]
  totalReward := by simp [counted, Books.start]
  totals := rfl

theorem Stand.start (p : Nat) (i : Fin n) : Stand p 0 i [] [] [] [] [] :=
  ⟨rfl, rfl, rfl, rfl, rfl⟩

/-- **The accounts of a run.** -/
theorem honest (run : Run (Step cap t pids) (begin n) tr s) : Honest t pids s tr := by
  induction run with
  | refl =>
      exact ⟨⟨Rows.start pids, Nat.zero_le _⟩, fun i => ⟨Nat.zero_le _, [], [], Stand.start ..⟩,
        fun _ _ => nofun⟩
  | @snoc s s' tr l run h ih =>
      obtain ⟨p, e⟩ := l
      obtain ⟨q', hpc, hgoes⟩ := h.goes
      cases p with
      | none =>
          have hother : ∀ i, events (some i) (tr ++ [⟨s, (none, e), s'⟩]) = events (some i) tr :=
            fun i => by rw [events_snoc, if_neg (by simp), List.append_nil]
          refine ⟨?_, fun i => ?_, fun i => ?_⟩
          · have hL := ih.ledger
            rw [events_snoc, if_pos rfl, hpc, Function.update_self]
            change (op t pids none (s.pc none)).Goes e q' at hgoes
            obtain ⟨es, next, hq⟩ | ⟨hafter, hserver⟩ := op_cases t pids none (s.pc none)
            · rw [hq] at hL hgoes
              cases es <;> (obtain ⟨rfl, rfl⟩ := hgoes; exact hL.quiet)
            · rw [hafter] at hL
              rw [hserver] at hgoes
              exact hL.step ((tidy_begin.run op_keeps run).ok none) (ih.isRegular run h) hgoes
          · rw [hother, h.stays (by simp)]
            exact ih.counts i
          · rw [hother]
            exact ih.spared i
      | some i =>
          have hS := ih.isSpared run h
          have hself : events (some i) (tr ++ [⟨s, (some i, e), s'⟩]) = events (some i) tr ++ [e] := by
            rw [events_snoc, if_pos rfl]
          have hother : ∀ p ≠ some i, events p (tr ++ [⟨s, (some i, e), s'⟩]) = events p tr :=
            fun p hp => by rw [events_snoc, if_neg (Ne.symm hp), List.append_nil]
          refine ⟨?_, fun j => ?_, fun j => ?_⟩
          · rw [hother none (by simp), h.stays (by simp)]
            exact ih.ledger
          · by_cases hj : j = i
            · subst hj
              have hC := ih.counts j
              rw [hself, hpc, Function.update_self]
              change (op t pids (some j) (s.pc (some j))).Goes e q' at hgoes
              obtain ⟨es, next, hq⟩ | ⟨hafter, hplayer⟩ := op_cases t pids (some j) (s.pc (some j))
              · rw [hq] at hC hgoes
                cases es <;> (obtain ⟨rfl, rfl⟩ := hgoes; exact hC.quiet)
              · rw [hafter] at hC
                rw [hplayer] at hgoes
                exact hC.step hS hgoes
            · have hne : some j ≠ some i := by simpa using hj
              rw [hother _ hne, h.stays hne]
              exact ih.counts j
          · by_cases hj : j = i
            · subst hj
              rw [hself]
              exact forall_mem_snoc (ih.spared j) hS
            · rw [hother _ (by simpa using hj)]
              exact ih.spared j

/-! ### The settlement -/

/-- The bets that `i` has placed. -/
def betsOf (i : Fin n) (tr : List (Move (State n) (Option (Fin n) × Seen n))) : List Numbers :=
  numbersIn (written (.fromPlayer i) tr)

/-- The bets of `i` that the totalisator has compared with a draw. -/
def countedFor (i : Fin n) (tr : List (Move (State n) (Option (Fin n) × Seen n))) :
    List (Numbers × Numbers) :=
  counted i (events none tr)

/-- The bets that `i` has compared with a draw. -/
def checkedBy (i : Fin n) (tr : List (Move (State n) (Option (Fin n) × Seen n))) :
    List (Numbers × Numbers) :=
  checked (events (some i) tr)

/-- Whether a player waits for a draw. -/
def Place.awaits : Place n → Bool
  | .result _ _ => true
  | _ => false

theorem zip_prefix {α β : Type*} {xs xs' : List α} {ys ys' : List β} (hx : xs <+: xs')
    (hy : ys <+: ys') (h : xs.length = ys.length) : xs.zip ys <+: xs'.zip ys' := by
  obtain ⟨x, rfl⟩ := hx
  obtain ⟨y, rfl⟩ := hy
  rw [List.zip_append h]
  exact List.prefix_append ..

section
variable (run : Run (Step cap t pids) (begin n) tr s)
include run

theorem counted_betsOf (i : Fin n) : (countedFor i tr).map Prod.fst <+: betsOf i tr := by
  obtain ⟨b, ahead, unsent, turn, shown, hrows⟩ := (honest run).ledger.rows
  rw [betsOf, written_fromPlayer run, said_eq run, hrows.took, numbersIn_append, numbersIn_append,
    numbersIn_script, List.append_assoc]
  exact List.prefix_append ..

theorem draws_counted (i : Fin n) :
    taken (.toPlayer i) tr <+: (countedFor i tr).map fun c => .numbers c.2 := by
  obtain ⟨b, ahead, unsent, turn, shown, hrows⟩ := (honest run).ledger.rows
  rw [countedFor, hrows.sent, sentTo_eq run, taken_toPlayer run, List.append_assoc]
  exact List.prefix_append ..

/-- Both sides compare the same bets with the same draws. -/
theorem checked_counted (i : Fin n) : checkedBy i tr <+: countedFor i tr := by
  obtain ⟨bs, ws, hP⟩ := ((honest run).counts i).played
  have hdraws : ws <+: (countedFor i tr).map Prod.snd := by
    have hd := (draws_counted run i).filterMap Message.numbers?
    rw [taken_toPlayer run, hP.heard] at hd
    simp only [List.filterMap_map, Function.comp_def, Message.numbers?] at hd
    rw [List.filterMap_some, List.filterMap_eq_map'] at hd
    exact (List.prefix_append ..).trans hd
  have hbets : bs <+: (countedFor i tr).map Prod.fst := by
    have hplaced : bs <+: betsOf i tr := by
      rw [betsOf, written_fromPlayer run, hP.bets]
      exact List.prefix_append ..
    refine List.prefix_of_prefix_length_le hplaced (counted_betsOf run i) ?_
    rw [hP.length, List.length_map]
    exact (hdraws.length_le).trans_eq (List.length_map ..)
  have hzip := zip_prefix hbets hdraws hP.length
  rwa [← List.zip_of_prod rfl rfl, ← hP.checked] at hzip

/-- What has been shown, and when. -/
theorem settled_of_total {bet reward : Nat}
    (h : .said (some (.total bet reward)) ∈ events none tr) :
    ∃ b, Rows pids (events none tr) b nothing nothing (fun _ => 0) [(bet, reward)] ∧
      bet = b.totalBet ∧ reward = b.totalReward ∧ ∀ i, b.rps i = true → b.week = t := by
  have htotal : (bet, reward) ∈ totals (events none tr) :=
    List.mem_filterMap.mpr ⟨_, h, rfl⟩
  have hL := (honest run).ledger
  cases hq : (s.pc none).after with
  | week | players | numbers | count | answer | ended =>
      rw [hq] at hL
      rw [hL.1.totals] at htotal
      cases htotal
  | waiting | done =>
      rw [hq] at hL
      obtain ⟨b, hrows, hlast⟩ := hL
      rw [hrows.totals, List.mem_singleton] at htotal
      cases htotal
      exact ⟨b, hrows, rfl, rfl, hlast⟩
  | closing | crashed | play | draw | pid | bet | result | compare | exiting | gone | failed =>
      rw [hq] at hL
      exact hL.elim

/-- A player has received a draw for each of its bets, but for the one for which it waits. -/
theorem length_betsOf (i : Fin n) : (betsOf i tr).length =
    (taken (.toPlayer i) tr).length + (s.pc (some i)).after.awaits.toNat := by
  obtain ⟨bs, ws, hP⟩ := ((honest run).counts i).played
  have hplace : (s.pc (some i)).after.betting.length =
      (s.pc (some i)).after.drawn.length + (s.pc (some i)).after.awaits.toNat := by
    cases (s.pc (some i)).after <;> rfl
  rw [betsOf, written_fromPlayer run, taken_toPlayer run, hP.bets, hP.heard, List.length_map,
    List.length_append, List.length_append, hplace, hP.length]
  omega

/-- Who is not amid a bet has compared all of them. -/
theorem length_checkedBy (i : Fin n) (h : (s.pc (some i)).after.betting = []) :
    (checkedBy i tr).length = (betsOf i tr).length := by
  obtain ⟨bs, ws, hP⟩ := ((honest run).counts i).played
  rw [betsOf, checkedBy, written_fromPlayer run, hP.bets, hP.checked, h, List.append_nil,
    List.length_zip, ← hP.length, Nat.min_self]

/-- At the end every bet has been counted. -/
theorem counted_of_settled {shown : List (Nat × Nat)}
    (hrows : Rows pids (events none tr) b nothing nothing (fun _ => 0) shown)
    (hlast : ∀ i, b.rps i = true → b.week = t) (i : Fin n) :
    (countedFor i tr).map Prod.fst = betsOf i tr := by
  cases hi : b.rps i with
  | true =>
      refine (counted_betsOf run i).eq_of_length_le ?_
      obtain ⟨bs, ws, hP⟩ := ((honest run).counts i).played
      have hlength := hrows.length i hi
      rw [hlast i hi, Nat.add_zero] at hlength
      rw [List.length_map, countedFor, hlength, betsOf, written_fromPlayer run, hP.bets]
      exact hP.upper
  | false =>
      rw [betsOf, written_fromPlayer run, said_of_eof run i (hrows.eof i hi), hrows.took, nothing,
        List.append_nil, numbersIn_script]
      rfl

/-- **The accounts of the totalisator and of the players agree**, in every run: both compare the
same bets with the same draws, and a player receives one draw for each bet, until the program ends.
When `totalisator_work` ends every bet has been counted, and its draw has been written. -/
theorem accounts_law :
    (∀ i, checkedBy i tr <+: countedFor i tr ∧ (countedFor i tr).map Prod.fst <+: betsOf i tr ∧
      taken (.toPlayer i) tr <+: ((countedFor i tr).map fun c => .numbers c.2) ∧
      (betsOf i tr).length =
        (taken (.toPlayer i) tr).length + (s.pc (some i)).after.awaits.toNat ∧
      .eof (.toPlayer i) ∉ events (some i) tr) ∧
    ∀ totalBet totalReward, .said (some (.total totalBet totalReward)) ∈ events none tr →
      totalBet = betPrice * ∑ i, (betsOf i tr).length ∧
      totalReward = ∑ i, ((countedFor i tr).map won).sum ∧
      (∀ i, (countedFor i tr).map Prod.fst = betsOf i tr ∧
        written (.toPlayer i) tr = (countedFor i tr).map fun c => .numbers c.2) ∧
      (∀ i, (s.pc (some i)).after.betting = [] → checkedBy i tr = countedFor i tr) ∧
      ((∀ i, (s.pc (some i)).after.betting = []) →
        totalReward = ∑ i, ((checkedBy i tr).map won).sum) := by
  refine ⟨fun i => ⟨checked_counted run i, counted_betsOf run i, draws_counted run i,
    length_betsOf run i, fun h => ((honest run).spared i _ h).eof rfl⟩, ?_⟩
  intro totalBet totalReward htotal
  obtain ⟨b, hrows, rfl, rfl, hlast⟩ := settled_of_total run htotal
  have hall := counted_of_settled run hrows hlast
  have hchecked : ∀ i, (s.pc (some i)).after.betting = [] → checkedBy i tr = countedFor i tr := by
    intro i hi
    refine (checked_counted run i).eq_of_length ?_
    rw [length_checkedBy run i hi, ← hall, List.length_map]
  refine ⟨?_, hrows.totalReward, fun i => ⟨hall i, ?_⟩, hchecked, fun h => ?_⟩
  · rw [hrows.totalBet]
    congr 1
    exact Finset.sum_congr rfl fun i _ => by rw [← hall, List.length_map]; rfl
  · rw [written_toPlayer run, countedFor, hrows.sent, nothing, List.append_nil]
  · rw [hrows.totalReward]
    exact Finset.sum_congr rfl fun i _ => by rw [hchecked i (h i)]; rfl

end

/-! ### Two players -/

/-- A player that reads the last draw, stays and bets. -/
def bets (i : Fin n) (reads : Nat) (rand : Fin (numbersMax - 1) → Rand) :
    List (Option (Fin n) × Option Answer) :=
  quiet (some i) reads ++ [(some i, some (.random 1)), (some i, some (.stream rand))] ++
    quiet (some i) 2

/-- A player that reads the last draw and resigns. -/
def resigns (i : Fin n) (reads : Nat) : List (Option (Fin n) × Option Answer) :=
  quiet (some i) reads ++ (some i, some (.random 100)) :: quiet (some i) 3

/-- A week of the totalisator. -/
def draws (rand : Fin (numbersMax - 1) → Rand) (k : Nat) : List (Option (Fin n) × Option Answer) :=
  (none, some (.stream rand)) :: quiet none k

/-- Two players bet, the second resigns, and the first bets once more. -/
def twoWeeks : List (Option (Fin 2) × Option Answer) :=
  bets 0 7 (fun _ => 0) ++ bets 1 7 (fun _ => 2147483647) ++ quiet none 5 ++ draws (fun _ => 0) 9 ++
    bets 0 2 (fun _ => 0) ++ resigns 1 2 ++ draws (fun _ => 0) 10 ++ quiet (some 0) 6

def Place.isGone : Place n → Bool
  | .gone => true
  | _ => false

theorem Place.betting_of_isGone (h : q.isGone = true) : q.after.betting = [] := by
  cases q with
  | gone => rfl
  | closing | week | players | numbers | count | answer | ended | waiting | done | crashed | play
  | draw | pid | bet | result | compare | exiting | failed => cases h

theorem accounts_law_twoWeeks : ∃ tr s, Run (Step 5 2 fun i => 7 + i) (begin 2) tr s ∧
    .said (some (.total 9 20006000)) ∈ events none tr ∧ (∀ i, (s.pc (some i)).isGone = true) ∧
    (betsOf 0 tr).length = 2 ∧ (betsOf 1 tr).length = 1 ∧
    9 = betPrice * ∑ i, (betsOf i tr).length ∧
    20006000 = ∑ i, ((checkedBy i tr).map won).sum := by
  have hplay : (play 5 (op 2 fun i => 7 + i) (begin 2) twoWeeks).map
      (fun x => (decide ((none, .said (some (.total 9 20006000))) ∈ x.1),
        decide (∀ i, (x.2.pc (some i)).isGone = true),
        (numbersIn (x.1.filterMap fun l => l.2.written? (.fromPlayer 0))).length,
        (numbersIn (x.1.filterMap fun l => l.2.written? (.fromPlayer 1))).length)) =
      some (true, true, 2, 1) := by
    decide +kernel
  obtain ⟨tr, s, r, h⟩ := play_map hplay
  simp only [Prod.mk.injEq, decide_eq_true_eq, List.filterMap_map] at h
  obtain ⟨htotal, hgone, hfirst, hsecond⟩ := h
  obtain ⟨m, m_in, hm⟩ := List.mem_map.mp htotal
  have hsaid := mem_events.mpr ⟨m, m_in, hm⟩
  obtain ⟨hbet, -, -, -, hreward⟩ := (accounts_law r).2 _ _ hsaid
  exact ⟨tr, s, r, hsaid, hgone, hfirst, hsecond, hbet,
    hreward fun i => Place.betting_of_isGone (hgone i)⟩

end Sop2.Lotto
