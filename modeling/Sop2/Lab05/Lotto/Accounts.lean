import Sop2.Lab05.Cards.Rounds
import Sop2.Lab05.Lotto.Game

/-!
# Lab05 — Lotto — the accounts

What each process has seen, as long as the others keep to their side.

* `Counts`: what a player has said, heard and compared at each of its places, where it finds neither
  an end of file nor a broken pipe.
* `Ledger`: what the totalisator has read from each player, written to it, and added up, at each of
  its places, where it finds no broken pipe, and an end of file only between two bets.
-/

namespace Sop2.Lotto
open Support Support.Piped
open PipeCards (Pipe allEnds ends own own_server own_player turn turn_head turn_tail turn_other
  turn_finRange)

variable {n t cap : Nat} {pids : Fin n → Nat} {s s' : State n}
  {tr : List (Move (State n) (Option (Fin n) × Seen n))} {i j : Fin n} {q q' : Place n} {e : Seen n}
  {es : List (Seen n)} {p k : Nat} {bs ws cs : List Numbers} {b : Books n}

/-! ### What is said -/

/-- What a player writes for the bets `bs`. -/
def script (p : Nat) (bs : List Numbers) : List Message := bs.flatMap fun bet => [.pid p, .numbers bet]

theorem script_snoc (p : Nat) (bs : List Numbers) (bet : Numbers) :
    script p (bs ++ [bet]) = script p bs ++ [.pid p, .numbers bet] := by
  simp [script]

theorem length_script (p : Nat) (bs : List Numbers) : (script p bs).length = 2 * bs.length := by
  simp [script, List.length_flatMap, mul_comm]

/-- Behind a whole number of bets comes a pid. -/
theorem pid_of_prefix {c : Message} (h : script p cs ++ [c] <+: script p bs) : c = .pid p := by
  induction cs generalizing bs with
  | nil =>
      cases bs with
      | nil => simp [script] at h
      | cons bet bs => exact (List.cons_prefix_cons.mp h).1
  | cons d cs ih =>
      cases bs with
      | nil => simp [script] at h
      | cons bet bs => exact ih (List.cons_prefix_cons.mp (List.cons_prefix_cons.mp h).2).2

/-- Behind a pid come the numbers. -/
theorem numbers_of_prefix {c : Message} (h : script p cs ++ [.pid p, c] <+: script p bs) :
    ∃ bet, c = .numbers bet := by
  induction cs generalizing bs with
  | nil =>
      cases bs with
      | nil => simp [script] at h
      | cons bet bs => exact ⟨bet, (List.cons_prefix_cons.mp (List.cons_prefix_cons.mp h).2).1⟩
  | cons d cs ih =>
      cases bs with
      | nil => simp [script] at h
      | cons bet bs => exact ih (List.cons_prefix_cons.mp (List.cons_prefix_cons.mp h).2).2

/-! ### A player -/

def Message.numbers? : Message → Option Numbers
  | .numbers ns => some ns
  | .pid _ => none

/-- The numbers among what was said. -/
def numbersIn (ms : List Message) : List Numbers := ms.filterMap Message.numbers?

theorem numbersIn_script (p : Nat) (bs : List Numbers) : numbersIn (script p bs) = bs := by
  induction bs with
  | nil => rfl
  | cons bet bs ih => exact congrArg (bet :: ·) ih

def checked? : Seen n → Option (Numbers × Numbers)
  | .said (some (.checked bet winning)) => some (bet, winning)
  | _ => none

/-- The bets that a player has compared, each with the draw. -/
def checked (es : List (Seen n)) : List (Numbers × Numbers) := es.filterMap checked?

/-- What `i` has written. -/
def said (i : Fin n) (es : List (Seen n)) : List Message :=
  es.filterMap (Event.written? (.fromPlayer i))

/-- What `i` has read. -/
def heard (i : Fin n) (es : List (Seen n)) : List Message :=
  es.filterMap (Event.taken? (.toPlayer i))

/-- The player `i` after `k` weeks, with the bets `bs` and the draws `ws`, and with what it has
written and read of the week after. -/
structure Stand (p k : Nat) (i : Fin n) (es : List (Seen n)) (begun drawn : List Message)
    (bs ws : List Numbers) : Prop where
  bets : bs.length = k
  draws : ws.length = k
  said : said i es = script p bs ++ begun
  heard : heard i es = ws.map .numbers ++ drawn
  checked : checked es = bs.zip ws

/-- What a player has done at a place. -/
def Counts (t p : Nat) (i : Fin n) (es : List (Seen n)) : Place n → Prop
  | .play k => k ≤ t ∧ ∃ bs ws, Stand p k i es [] [] bs ws
  | .draw k | .pid k _ => k < t ∧ ∃ bs ws, Stand p k i es [] [] bs ws
  | .bet k _ => k < t ∧ ∃ bs ws, Stand p k i es [.pid p] [] bs ws
  | .result k bet => k < t ∧ ∃ bs ws, Stand p k i es [.pid p, .numbers bet] [] bs ws
  | .compare k bet winning =>
      k < t ∧ ∃ bs ws, Stand p k i es [.pid p, .numbers bet] [.numbers winning] bs ws
  | .exiting | .gone => ∃ k ≤ t, ∃ bs ws, Stand p k i es [] [] bs ws
  | _ => False

theorem said_snoc (i : Fin n) (es : List (Seen n)) (e : Seen n) :
    said i (es ++ [e]) = said i es ++ (e.written? (.fromPlayer i)).toList := filterMap_snoc ..

theorem heard_snoc (i : Fin n) (es : List (Seen n)) (e : Seen n) :
    heard i (es ++ [e]) = heard i es ++ (e.taken? (.toPlayer i)).toList := filterMap_snoc ..

theorem checked_snoc (es : List (Seen n)) (e : Seen n) :
    checked (es ++ [e]) = checked es ++ (checked? e).toList := filterMap_snoc ..

/-- One more thing is seen. -/
theorem Stand.snoc {begun drawn begun' drawn' : List Message}
    (h : Stand p k i es begun drawn bs ws)
    (hsaid : begun ++ (e.written? (.fromPlayer i)).toList = begun')
    (hheard : drawn ++ (e.taken? (.toPlayer i)).toList = drawn') (hcheck : checked? e = none) :
    Stand p k i (es ++ [e]) begun' drawn' bs ws where
  bets := h.bets
  draws := h.draws
  said := by rw [said_snoc, h.said, List.append_assoc, hsaid]
  heard := by rw [heard_snoc, h.heard, List.append_assoc, hheard]
  checked := by rw [checked_snoc, hcheck, h.checked]; exact List.append_nil _

/-- The week is over. -/
theorem Stand.check {bet winning : Numbers}
    (h : Stand p k i es [.pid p, .numbers bet] [.numbers winning] bs ws) :
    Stand p (k + 1) i (es ++ [.said (some (.checked bet winning))]) [] [] (bs ++ [bet])
      (ws ++ [winning]) where
  bets := by rw [List.length_append, h.bets]; rfl
  draws := by rw [List.length_append, h.draws]; rfl
  said := by rw [said_snoc, h.said, script_snoc]; rfl
  heard := by rw [heard_snoc, h.heard, List.map_append]; rfl
  checked := by
    rw [checked_snoc, h.checked, List.zip_append (h.bets.trans h.draws.symm)]
    rfl

/-- What a player does not see. -/
structure Spared (i : Fin n) (e : Seen n) : Prop where
  eof : e ≠ .eof (.toPlayer i)
  epipe : e ≠ .epipe (.fromPlayer i)
  numbers : ∀ c, e = .read (.toPlayer i) c → ∃ winning, c = .numbers winning

/-- **One step of a player.** -/
theorem Counts.step (hC : Counts t (pids i) i es q) (hs : Spared i e)
    (h : (playerWork t pids i q).Goes e q') : Counts t (pids i) i (es ++ [e]) q'.after := by
  cases q with
  | play k =>
      obtain ⟨hk, bs, ws, hst⟩ := hC
      simp only [playerWork] at h
      split at h
      next hlt =>
        obtain ⟨a, l, ha, rfl⟩ := h
        cases a <;> cases ha
        have hst := hst.snoc (e := .said none) rfl rfl rfl
        split
        · exact ⟨k, hk, bs, ws, hst⟩
        · exact ⟨hlt, bs, ws, hst⟩
      next =>
        obtain ⟨rfl, rfl⟩ := h
        exact ⟨k, hk, bs, ws, hst.snoc rfl rfl rfl⟩
  | draw k =>
      obtain ⟨hk, bs, ws, hst⟩ := hC
      obtain ⟨a, l, ha, rfl⟩ := h
      cases a <;> cases ha
      exact ⟨hk, bs, ws, hst.snoc rfl rfl rfl⟩
  | pid k bet =>
      obtain ⟨hk, bs, ws, hst⟩ := hC
      obtain ⟨rfl, rfl⟩ | ⟨rfl, -⟩ := h
      · exact ⟨hk, bs, ws, hst.snoc (by simp [Event.written?]) rfl rfl⟩
      · exact (hs.epipe rfl).elim
  | bet k bet =>
      obtain ⟨hk, bs, ws, hst⟩ := hC
      obtain ⟨rfl, rfl⟩ | ⟨rfl, -⟩ := h
      · exact ⟨hk, bs, ws, hst.snoc (by simp [Event.written?]) rfl rfl⟩
      · exact (hs.epipe rfl).elim
  | result k bet =>
      obtain ⟨hk, bs, ws, hst⟩ := hC
      obtain ⟨c, rfl, rfl⟩ | ⟨rfl, -⟩ | ⟨-, h⟩ := h
      · obtain ⟨winning, rfl⟩ := hs.numbers c rfl
        exact ⟨hk, bs, ws, hst.snoc rfl (by simp [Event.taken?]) rfl⟩
      · exact (hs.eof rfl).elim
      · cases h
  | compare k bet winning =>
      obtain ⟨hk, bs, ws, hst⟩ := hC
      obtain ⟨rfl, rfl⟩ := h
      exact ⟨hk, _, _, hst.check⟩
  | exiting =>
      obtain ⟨k, hk, bs, ws, hst⟩ := hC
      obtain ⟨rfl, rfl⟩ := h
      exact ⟨k, hk, bs, ws, hst.snoc rfl rfl rfl⟩
  | closing | week | players | numbers | count | answer | ended | waiting | done | crashed | gone
  | failed => exact h.elim

/-! ### The totalisator -/

def counted? (i : Fin n) : Seen n → Option (Numbers × Numbers)
  | .said (some (.counted j bet winning)) => if j = i then some (bet, winning) else none
  | _ => none

/-- The bets of `i` that were counted, each with the draw. -/
def counted (i : Fin n) (es : List (Seen n)) : List (Numbers × Numbers) := es.filterMap (counted? i)

/-- What was read from `i`. -/
def tookFrom (i : Fin n) (es : List (Seen n)) : List Message :=
  es.filterMap (Event.taken? (.fromPlayer i))

/-- What was written to `i`. -/
def sentTo (i : Fin n) (es : List (Seen n)) : List Message :=
  es.filterMap (Event.written? (.toPlayer i))

def total? : Seen n → Option (Nat × Nat)
  | .said (some (.total bet reward)) => some (bet, reward)
  | _ => none

/-- The sums that were shown. -/
def totals (es : List (Seen n)) : List (Nat × Nat) := es.filterMap total?

/-- What a bet and the draw win. -/
def won (c : Numbers × Numbers) : Nat := reward c.2 c.1

/-- What the totalisator has done: `ahead` was read from the players of bets that are not counted,
and `unsent` is still to be written to them; `turn` is 1 for those whose bet of the week is
counted. -/
structure Rows (pids : Fin n → Nat) (es : List (Seen n)) (b : Books n)
    (ahead unsent : Fin n → List Message) (turn : Fin n → Nat) (shown : List (Nat × Nat)) : Prop where
  took : ∀ i, tookFrom i es = script (pids i) ((counted i es).map Prod.fst) ++ ahead i
  sent : ∀ i, ((counted i es).map fun c => Message.numbers c.2) = sentTo i es ++ unsent i
  length : ∀ i, b.rps i = true → (counted i es).length = b.week + turn i
  eof : ∀ i, b.rps i = false → .eof (.fromPlayer i) ∈ es
  wps : ∀ i, b.wps i = true
  totalBet : b.totalBet = betPrice * ∑ i, (counted i es).length
  totalReward : b.totalReward = ∑ i, ((counted i es).map won).sum
  totals : totals es = shown

/-- Nothing. -/
def nothing : Fin n → List Message := fun _ => []

/-- Something of `i`. -/
def only (i : Fin n) (ms : List Message) : Fin n → List Message := Function.update nothing i ms

/-- The body of the inner loop, for `i`. -/
structure Turn (t : Nat) (b : Books n) (i : Fin n) (rest : List (Fin n)) : Prop where
  week : b.week < t
  nodup : (i :: rest).Nodup
  rps : b.rps i = true
  any : b.any = true

/-- What the totalisator has done at a place. -/
def Ledger (t : Nat) (pids : Fin n → Nat) (es : List (Seen n)) : Place n → Prop
  | .week b => Rows pids es b nothing nothing (fun _ => 0) [] ∧ b.week ≤ t
  | .players b _ rest => Rows pids es b nothing nothing (turn rest) [] ∧ b.week < t ∧ rest.Nodup ∧
      (b.any = false → ∀ i, i ∉ rest → b.rps i = false)
  | .numbers b _ i rest =>
      Rows pids es b (only i [.pid (pids i)]) nothing (turn (i :: rest)) [] ∧ Turn t b i rest
  | .count b _ i bet rest =>
      Rows pids es b (only i [.pid (pids i), .numbers bet]) nothing (turn (i :: rest)) [] ∧
        Turn t b i rest
  | .answer b winning i rest =>
      Rows pids es b nothing (only i [.numbers winning]) (turn rest) [] ∧ Turn t b i rest
  | .ended b => Rows pids es b nothing nothing (fun _ => 0) [] ∧ ∀ i, b.rps i = true → b.week = t
  | .waiting | .done => ∃ b, Rows pids es b nothing nothing (fun _ => 0)
      [(b.totalBet, b.totalReward)] ∧ ∀ i, b.rps i = true → b.week = t
  | _ => False

theorem tookFrom_snoc (i : Fin n) (es : List (Seen n)) (e : Seen n) :
    tookFrom i (es ++ [e]) = tookFrom i es ++ (e.taken? (.fromPlayer i)).toList := filterMap_snoc ..

theorem sentTo_snoc (i : Fin n) (es : List (Seen n)) (e : Seen n) :
    sentTo i (es ++ [e]) = sentTo i es ++ (e.written? (.toPlayer i)).toList := filterMap_snoc ..

theorem counted_snoc (i : Fin n) (es : List (Seen n)) (e : Seen n) :
    counted i (es ++ [e]) = counted i es ++ (counted? i e).toList := filterMap_snoc ..

theorem totals_snoc (es : List (Seen n)) (e : Seen n) :
    totals (es ++ [e]) = totals es ++ (total? e).toList := filterMap_snoc ..

theorem only_self (i : Fin n) (ms : List Message) : only i ms i = ms := Function.update_self ..

theorem only_of_ne (h : j ≠ i) (ms : List Message) : only i ms j = [] := Function.update_of_ne h ..

/-- One more thing is seen, of a bet that is not counted yet. -/
theorem Rows.snoc {b' : Books n} {ahead unsent ahead' unsent' : Fin n → List Message}
    {turn turn' : Fin n → Nat} {shown shown' : List (Nat × Nat)}
    (h : Rows pids es b ahead unsent turn shown)
    (htook : ∀ i, ahead i ++ (e.taken? (.fromPlayer i)).toList = ahead' i)
    (hsent : ∀ i, unsent i = (e.written? (.toPlayer i)).toList ++ unsent' i)
    (hcounted : ∀ i, counted? i e = none) (htotals : shown ++ (total? e).toList = shown')
    (hlength : ∀ i, b'.rps i = true → b.rps i = true ∧ b.week + turn i = b'.week + turn' i)
    (heof : ∀ i, b'.rps i = false → b.rps i = false ∨ e = .eof (.fromPlayer i))
    (hwps : b'.wps = b.wps) (hbet : b'.totalBet = b.totalBet)
    (hreward : b'.totalReward = b.totalReward) :
    Rows pids (es ++ [e]) b' ahead' unsent' turn' shown' := by
  have hc : ∀ i, counted i (es ++ [e]) = counted i es := fun i => by
    rw [counted_snoc, hcounted]
    exact List.append_nil _
  exact
    { took := fun i => by rw [tookFrom_snoc, hc, h.took, List.append_assoc, htook]
      sent := fun i => by rw [sentTo_snoc, hc, h.sent, List.append_assoc, hsent]
      length := fun i hi => by
        obtain ⟨hi, hw⟩ := hlength i hi
        rw [hc, h.length i hi, hw]
      eof := fun i hi => by
        rcases heof i hi with hi | rfl
        · exact List.mem_append_left _ (h.eof i hi)
        · simp
      wps := fun i => by rw [hwps, h.wps]
      totalBet := by simp only [hc, hbet, h.totalBet]
      totalReward := by simp only [hc, hreward, h.totalReward]
      totals := by rw [totals_snoc, h.totals, htotals] }

/-- A bet of `i` is counted. -/
theorem Rows.count {bet winning : Numbers} {rest : List (Fin n)}
    (h : Rows pids es b (only i [.pid (pids i), .numbers bet]) nothing (turn (i :: rest)) [])
    (ht : Turn t b i rest) :
    Rows pids (es ++ [.said (some (.counted i bet winning))]) (b.count winning bet) nothing
      (only i [.numbers winning]) (turn rest) [] := by
  have hcounted : (fun j => counted j (es ++ [.said (some (.counted i bet winning))])) =
      Function.update (fun j => counted j es) i (counted i es ++ [(bet, winning)]) := by
    funext j
    rw [counted_snoc]
    by_cases hj : j = i
    · subst hj
      rw [Function.update_self, counted?, if_pos rfl]
      rfl
    · rw [Function.update_of_ne hj, counted?, if_neg (Ne.symm hj)]
      exact List.append_nil _
  have hself := congrFun hcounted i
  simp only [Function.update_self] at hself
  have hother : ∀ j ≠ i, counted j (es ++ [.said (some (.counted i bet winning))]) =
      counted j es := fun j hj => (congrFun hcounted j).trans (Function.update_of_ne hj ..)
  have hsum : ∀ g : List (Numbers × Numbers) → Nat,
      ∑ j, g (counted j (es ++ [.said (some (.counted i bet winning))])) + g (counted i es) =
        ∑ j, g (counted j es) + g (counted i es ++ [(bet, winning)]) := fun g => by
    rw [← sum_update_add g (fun j => counted j es), ← hcounted]
  exact
    { took := fun j => by
        rw [tookFrom_snoc]
        by_cases hj : j = i
        · subst hj
          rw [h.took, hself, List.map_append, List.map_singleton, script_snoc, only_self]
          rfl
        · rw [h.took, hother j hj, only_of_ne hj]
          exact List.append_nil _
      sent := fun j => by
        rw [sentTo_snoc]
        by_cases hj : j = i
        · subst hj
          rw [hself, List.map_append, h.sent, only_self]
          simp [nothing, Event.written?]
        · rw [hother j hj, h.sent, only_of_ne hj]
          simp [nothing, Event.written?]
      length := fun j hj => by
        by_cases hji : j = i
        · subst hji
          rw [hself, List.length_append, h.length j hj, turn_head, turn_tail ht.nodup]
          rfl
        · rw [hother j hji, h.length j hj, turn_other hji]
          rfl
      eof := fun j hj => List.mem_append_left _ (h.eof j hj)
      wps := h.wps
      totalBet := by
        have hs := hsum List.length
        rw [List.length_append, List.length_singleton] at hs
        change b.totalBet + betPrice = _
        rw [h.totalBet, ← Nat.mul_succ]
        congr 1
        omega
      totalReward := by
        have hs := hsum fun c => (c.map won).sum
        rw [List.map_append, List.sum_append, List.map_singleton, List.sum_singleton] at hs
        change b.totalReward + reward winning bet = _
        rw [h.totalReward]
        change _ + won (bet, winning) = _
        omega
      totals := by rw [totals_snoc, h.totals]; rfl }

/-- What the totalisator does not see, and what it reads. -/
structure Regular (pids : Fin n → Nat) (es : List (Seen n)) (e : Seen n) : Prop where
  epipe : ∀ i, e ≠ .epipe (.toPlayer i)
  read : ∀ i c, e = .read (.fromPlayer i) c → ∃ bs, tookFrom i es ++ [c] <+: script (pids i) bs
  eof : ∀ i, e = .eof (.fromPlayer i) → ∃ bs, tookFrom i es = script (pids i) bs

/-- Nothing is read from or written to anybody. -/
theorem Rows.quiet {ahead unsent : Fin n → List Message} {turn : Fin n → Nat}
    {shown : List (Nat × Nat)} (h : Rows pids es b ahead unsent turn shown) {b' : Books n}
    {turn' : Fin n → Nat}
    (hlength : ∀ i, b'.rps i = true → b.rps i = true ∧ b.week + turn i = b'.week + turn' i)
    (hrps : b'.rps = b.rps) (hwps : b'.wps = b.wps) (hbet : b'.totalBet = b.totalBet)
    (hreward : b'.totalReward = b.totalReward) :
    Rows pids (es ++ [.said none]) b' ahead unsent turn' shown :=
  h.snoc (fun _ => List.append_nil _) (fun _ => rfl) (fun _ => rfl) (List.append_nil _) hlength
    (fun i hi => .inl (by rwa [← hrps])) hwps hbet hreward

/-- Who has gone is passed over. -/
theorem turn_skip {rest : List (Fin n)} (hi : b.rps i = false) (j : Fin n) (hj : b.rps j = true) :
    turn (i :: rest) j = turn rest j :=
  turn_other fun hji => by rw [hji, hi] at hj; cases hj

/-- **One step of the totalisator.** -/
theorem Ledger.step (hof : q.of none) (hL : Ledger t pids es q) (hR : Regular pids es e)
    (h : (totalisatorWork t q).Goes e q') : Ledger t pids (es ++ [e]) q'.after := by
  cases q with
  | week b =>
      obtain ⟨hrows, hweek⟩ := hL
      simp only [totalisatorWork] at h
      split at h
      next hlt =>
        obtain ⟨a, l, ha, rfl⟩ := h
        cases a <;> cases ha
        refine ⟨hrows.quiet (fun i hi => ⟨hi, ?_⟩) rfl rfl rfl rfl, hlt, List.nodup_finRange n,
          fun _ i hi => (hi (List.mem_finRange i)).elim⟩
        rw [turn_finRange]
        rfl
      next hge =>
        obtain ⟨rfl, rfl⟩ := h
        exact ⟨hrows.quiet (fun i hi => ⟨hi, rfl⟩) rfl rfl rfl rfl, fun _ _ => by omega⟩
  | players b winning rest =>
      obtain ⟨hrows, hweek, hnodup, hany⟩ := hL
      cases rest with
      | nil =>
          obtain ⟨rfl, rfl⟩ := h
          split
          next => exact ⟨hrows.quiet (fun i hi => ⟨hi, rfl⟩) rfl rfl rfl rfl, hweek⟩
          next hno =>
            have hgone : ∀ i, b.rps i = false :=
              fun i => hany (Bool.eq_false_iff.mpr hno) i List.not_mem_nil
            refine ⟨hrows.quiet (fun i hi => ?_) rfl rfl rfl rfl, fun i hi => ?_⟩
            · rw [hgone i] at hi; cases hi
            · rw [hgone i] at hi; cases hi
      | cons i rest =>
          simp only [totalisatorWork] at h
          split at h
          next hi =>
            obtain ⟨c, rfl, rfl⟩ | ⟨rfl, rfl⟩ | ⟨-, h⟩ := h
            · obtain ⟨bs, hbs⟩ := hR.read i c rfl
              rw [hrows.took, nothing, List.append_nil] at hbs
              obtain rfl := pid_of_prefix hbs
              refine ⟨hrows.snoc (fun j => ?_) (fun _ => rfl) (fun _ => rfl) rfl
                (fun j hj => ⟨hj, rfl⟩) (fun j hj => .inl hj) rfl rfl rfl,
                hweek, hnodup, hi, rfl⟩
              by_cases hj : j = i
              · subst hj
                simp [nothing, Event.taken?, only_self]
              · simp [nothing, Event.taken?, only_of_ne hj, Ne.symm hj]
            · refine ⟨hrows.snoc (fun _ => List.append_nil _) (fun _ => rfl) (fun _ => rfl) rfl
                (fun j hj => ?_) (fun j hj => ?_) rfl rfl rfl, hweek, hnodup.of_cons, (by rintro ⟨⟩)⟩
              · by_cases hji : j = i
                · subst hji
                  rw [Books.closeRps_self] at hj
                  cases hj
                · rw [Books.closeRps_of_ne _ hji] at hj
                  exact ⟨hj, by rw [turn_other hji]; rfl⟩
              · by_cases hji : j = i
                · exact .inr (by rw [hji])
                · rw [Books.closeRps_of_ne _ hji] at hj
                  exact .inl hj
            · cases h
          next hi =>
            obtain ⟨rfl, rfl⟩ := h
            have hi : b.rps i = false := Bool.eq_false_iff.mpr hi
            refine ⟨hrows.quiet (fun j hj => ⟨hj, by rw [turn_skip hi j hj]⟩) rfl rfl rfl rfl, hweek,
              hnodup.of_cons, fun hno j hj => ?_⟩
            by_cases hji : j = i
            · rw [hji, hi]
            · exact hany hno j (by simp [hji, hj])
  | numbers b winning i rest =>
      obtain ⟨hrows, ht⟩ := hL
      obtain ⟨c, rfl, rfl⟩ | ⟨rfl, rfl⟩ | ⟨-, h⟩ := h
      · obtain ⟨bs, hbs⟩ := hR.read i c rfl
        rw [hrows.took, only_self, List.append_assoc] at hbs
        obtain ⟨bet, rfl⟩ := numbers_of_prefix hbs
        refine ⟨hrows.snoc (fun j => ?_) (fun _ => rfl) (fun _ => rfl) rfl
          (fun j hj => ⟨hj, rfl⟩) (fun j hj => .inl hj) rfl rfl rfl, ht⟩
        by_cases hj : j = i
        · subst hj
          simp [Event.taken?, only_self]
        · simp [Event.taken?, only_of_ne hj, Ne.symm hj]
      · -- there is no end of file in the middle of a bet
        obtain ⟨bs, hbs⟩ := hR.eof i rfl
        have hlen := congrArg List.length hbs
        rw [hrows.took, only_self, List.length_append, length_script, length_script] at hlen
        simp only [List.length_singleton] at hlen
        omega
      · cases h
  | count b winning i bet rest =>
      obtain ⟨hrows, ht⟩ := hL
      obtain ⟨rfl, rfl⟩ := h
      exact ⟨hrows.count ht, ht.week, ht.nodup, ht.rps, ht.any⟩
  | answer b winning i rest =>
      obtain ⟨hrows, ht⟩ := hL
      simp only [totalisatorWork, hrows.wps i, if_true] at h
      obtain ⟨rfl, rfl⟩ | ⟨rfl, -⟩ := h
      · refine ⟨hrows.snoc (fun _ => rfl) (fun j => ?_) (fun _ => rfl) rfl
          (fun j hj => ⟨hj, rfl⟩) (fun j hj => .inl hj) rfl rfl rfl, ht.week, ht.nodup.of_cons,
          fun hno => ?_⟩
        · by_cases hj : j = i
          · subst hj
            simp [nothing, Event.written?, only_self]
          · simp [nothing, Event.written?, only_of_ne hj, Ne.symm hj]
        · rw [ht.any] at hno
          cases hno
      · exact (hR.epipe i rfl).elim
  | ended b =>
      obtain ⟨hrows, hlast⟩ := hL
      obtain ⟨rfl, rfl⟩ := h
      exact ⟨b, hrows.snoc (fun _ => List.append_nil _) (fun _ => rfl) (fun _ => rfl) rfl
        (fun i hi => ⟨hi, rfl⟩) (fun i hi => .inl hi) rfl rfl rfl, hlast⟩
  | waiting =>
      obtain ⟨b, hrows, hlast⟩ := hL
      obtain ⟨rfl, rfl⟩ := h
      exact ⟨b, hrows.quiet (fun i hi => ⟨hi, rfl⟩) rfl rfl rfl rfl, hlast⟩
  | closing | done | crashed | play | draw | pid | bet | result | compare | exiting | gone
  | failed => exact h.elim

end Sop2.Lotto
