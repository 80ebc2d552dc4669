import Sop2.Lab05.Cards.Script

/-!
# Lab05 — Cards — the rounds

When the server gives out the points it looks at `wps[0]` where it should look at `wps[i]`.  As long
as slot 0 is closed exactly when slot `i` is (`Matched`), the rounds are as they should be
(`points_law`): the descriptors that are 0 are not used, and no player is passed over.

* `Ledger`: what the server has read, written and added up at each of its places.
* `no_epipe`: the server finds no broken pipe, since the players leave only where it looks for the
  end of their files.
-/

namespace Sop2.PipeCards
open Support Support.Piped

variable {n m cap : Nat} {s t : State n} {tr : List (Move (State n) (Option (Fin n) × Seen n))}
  {i j : Fin n} {q q' : Place n} {e : Seen n} {es : List (Seen n)} {g g' : Game n}
  {cs cs' : Fin n → List Nat} {out out' : Fin n → List Message} {rest : List (Fin n)}
  {k r read told paid scored : Nat}

/-- Slot 0 is closed exactly when the slot is whose points the server is about to give out. -/
def Place.matched : Place n → Bool
  | .points g _ (i :: _) => decide (g.wps ⟨0, i.pos⟩ = g.wps i)
  | _ => true

def Matched (s : State n) : Prop := (s.pc none).matched = true

/-! ### What the server does -/

/-- The cards that the server has read from `i`. -/
def cardsOf (es : List (Seen n)) (i : Fin n) : List Nat :=
  (es.filterMap (Event.taken? (.fromPlayer i))).map Message.atoi

/-- What the server has written to `i`. -/
def sentTo (es : List (Seen n)) (i : Fin n) : List Message :=
  es.filterMap (Event.written? (.toPlayer i))

theorem cardsOf_snoc (h : ∀ i, e.taken? (.fromPlayer i) = none) :
    cardsOf (es ++ [e]) = cardsOf es := by
  funext i
  rw [cardsOf, filterMap_snoc, h, Option.toList_none, List.append_nil, cardsOf]

theorem sentTo_snoc (h : ∀ i, e.written? (.toPlayer i) = none) : sentTo (es ++ [e]) = sentTo es := by
  funext i
  rw [sentTo, filterMap_snoc, h, Option.toList_none, List.append_nil, sentTo]

theorem cardsOf_read (i : Fin n) (c : Message) : cardsOf (es ++ [.read (.fromPlayer i) c]) =
    Function.update (cardsOf es) i (cardsOf es i ++ [c.atoi]) := by
  funext j
  rw [cardsOf, filterMap_snoc]
  by_cases hj : j = i
  · subst hj
    simp [Event.taken?, cardsOf]
  · simp [Event.taken?, cardsOf, hj, Ne.symm hj]

theorem sentTo_wrote (i : Fin n) (c : Message) : sentTo (es ++ [.wrote (.toPlayer i) c]) =
    Function.update (sentTo es) i (sentTo es i ++ [c]) := by
  funext j
  rw [sentTo, filterMap_snoc]
  by_cases hj : j = i
  · subst hj
    simp [Event.written?, sentTo]
  · simp [Event.written?, sentTo, hj, Ne.symm hj]

/-! ### The ledger -/

/-- What the server has done for `i`: the cards it has read, the rounds it has announced, the points
it has sent, and those it has added to the score. -/
structure Row (cs : Fin n → List Nat) (out : Fin n → List Message) (g : Game n) (i : Fin n)
    (read told paid scored : Nat) : Prop where
  read : (cs i).length = read
  sent : out i = script cs i told paid
  score : g.scores i = total cs i scored

/-- The row of `i`; who is gone has had a round announced, and no more of it. -/
def Account (cs : Fin n → List Nat) (out : Fin n → List Message) (g : Game n) (i : Fin n)
    (read told paid scored : Nat) : Prop :=
  if g.rps i then Row cs out g i read told paid scored
  else ∃ k < g.round, Row cs out g i k (k + 1) k k

/-- Whether it was the turn of `i` already. -/
def turn (rest : List (Fin n)) (i : Fin n) : Nat := if i ∈ rest then 0 else 1

/-- `max` is the highest card that was read. -/
structure Best (cs : Fin n → List Nat) (g : Game n) (r : Nat) (rest : List (Fin n)) : Prop where
  card : ∀ i, g.rps i = true → i ∉ rest → (cs i)[r]? = some (g.played i)
  upper : ∀ i, g.rps i = true → i ∉ rest → (g.played i : Int) ≤ g.max
  mem : (∃ i, g.rps i = true ∧ i ∉ rest ∧ (g.played i : Int) = g.max) ∨
    (g.max = -1 ∧ ∀ i, g.rps i = true → i ∈ rest)

/-- What the server has done at a place. -/
def Ledger (m : Nat) (cs : Fin n → List Nat) (out : Fin n → List Message) : Place n → Prop
  | .head g | .scoreboard g _ => ∃ r, g.round = r + 1 ∧ ∀ i, Account cs out g i r r r r
  | .announce g rest => ∃ r, g.round = r + 1 ∧ r < m ∧ rest.Nodup ∧
      ∀ i, Account cs out g i r (r + turn rest i) r r
  | .cards g rest => ∃ r, g.round = r + 1 ∧ r < m ∧ rest.Nodup ∧ Best cs g r rest ∧
      ∀ i, Account cs out g i (r + turn rest i) (r + 1) r r
  | .points g give rest => ∃ r, g.round = r + 1 ∧ r < m ∧ rest.Nodup ∧
      (∀ i, g.rps i = true → g.pts give i = pay cs r i) ∧
      ∀ i, Account cs out g i (r + 1) (r + 1) (r + turn rest i) (r + turn rest i)
  | .send g give j pts rest => ∃ r, g.round = r + 1 ∧ r < m ∧ (j :: rest).Nodup ∧
      g.rps j = true ∧ pts = pay cs r j ∧ (∀ i, g.rps i = true → g.pts give i = pay cs r i) ∧
      ∀ i, Account cs out g i (r + 1) (r + 1) (r + turn (j :: rest) i) (r + turn rest i)
  | .waiting | .done => ∀ i, ∃ k, out i = script cs i k k ∨ out i = script cs i (k + 1) k
  | .crashed _ => False
  | _ => True

theorem turn_head : turn (i :: rest) i = 0 := if_pos (List.mem_cons_self ..)

theorem turn_tail (h : (i :: rest).Nodup) : turn rest i = 1 := if_neg (List.nodup_cons.mp h).1

theorem turn_other (h : j ≠ i) : turn (i :: rest) j = turn rest j := by simp [turn, h]

theorem turn_finRange (i : Fin n) : turn (List.finRange n) i = 0 := if_pos (List.mem_finRange i)

theorem Account.open_row (h : Account cs out g i read told paid scored) (hi : g.rps i = true) :
    Row cs out g i read told paid scored := by
  rwa [Account, if_pos hi] at h

theorem Row.account (h : Row cs out g i read told paid scored) (hi : g.rps i = true) :
    Account cs out g i read told paid scored := by
  rwa [Account, if_pos hi]

theorem Account.closed_row (h : Account cs out g i read told paid scored) (hi : g.rps i = false) :
    ∃ k < g.round, Row cs out g i k (k + 1) k k := by
  rwa [Account, if_neg (Bool.eq_false_iff.mp hi)] at h

/-- Who is gone is passed over. -/
theorem Account.skip (h : Account cs out g i read told paid scored) (hi : g.rps i = false)
    (read' told' paid' scored' : Nat) : Account cs out g i read' told' paid' scored' := by
  rw [Account, if_neg (Bool.eq_false_iff.mp hi)]
  exact h.closed_row hi

/-- A row that a step is not about. -/
theorem Account.congr (h : Account cs out g i read told paid scored) (hround : g.round = r + 1)
    (hpaid : paid ≤ r ∨ cs' = cs) (hscored : scored ≤ r ∨ cs' = cs)
    (hcards : ∀ k < r, ∀ j, (cs' j)[k]? = (cs j)[k]?) (hread : (cs' i).length = (cs i).length)
    (hout : out' i = out i) (hrps : g'.rps i = g.rps i) (hround' : g.round ≤ g'.round)
    (hscore : g'.scores i = g.scores i) : Account cs' out' g' i read told paid scored := by
  have hscript : ∀ told k, k ≤ r ∨ cs' = cs → script cs' i told k = script cs i told k := by
    rintro told k (hk | rfl)
    · exact script_congr (fun k' hk' => hcards k' (hk'.trans_le hk)) i told
    · rfl
  have htotal : ∀ k, k ≤ r ∨ cs' = cs → total cs' i k = total cs i k := by
    rintro k (hk | rfl)
    · exact total_congr (fun k' hk' => hcards k' (hk'.trans_le hk)) i
    · rfl
  cases hi : g.rps i with
  | true =>
      have hrow := h.open_row hi
      refine Row.account ⟨?_, ?_, ?_⟩ (hrps.trans hi)
      · rw [hread, hrow.read]
      · rw [hout, hrow.sent, hscript _ _ hpaid]
      · rw [hscore, hrow.score, htotal _ hscored]
  | false =>
      obtain ⟨k, hk, hrow⟩ := h.closed_row hi
      have hle : k ≤ r := by omega
      rw [Account, if_neg (Bool.eq_false_iff.mp (hrps.trans hi))]
      refine ⟨k, hk.trans_le hround', ?_, ?_, ?_⟩
      · rw [hread, hrow.read]
      · rw [hout, hrow.sent, hscript _ _ (.inl hle)]
      · rw [hscore, hrow.score, htotal _ (.inl hle)]

/-- A step that reads no card. -/
theorem Account.same (h : Account cs out g i read told paid scored) (hround : g.round = r + 1)
    (hout : out' i = out i) (hrps : g'.rps i = g.rps i) (hround' : g.round ≤ g'.round)
    (hscore : g'.scores i = g.scores i) : Account cs out' g' i read told paid scored :=
  h.congr hround (.inr rfl) (.inr rfl) (fun _ _ _ => rfl) rfl hout hrps hround' hscore

/-- What `i` has been told. -/
theorem Account.messages (h : Account cs out g i read told paid scored)
    (htold : told = paid ∨ told = paid + 1) :
    ∃ k, out i = script cs i k k ∨ out i = script cs i (k + 1) k := by
  cases hi : g.rps i with
  | true =>
      have hsent := (h.open_row hi).sent
      rcases htold with rfl | rfl
      · exact ⟨_, .inl hsent⟩
      · exact ⟨_, .inr hsent⟩
  | false =>
      obtain ⟨k, -, hrow⟩ := h.closed_row hi
      exact ⟨k, .inr hrow.sent⟩

/-! ### The points of a round -/

theorem best_deal : Best cs g.deal r (List.finRange n) where
  card i _ hi := absurd (List.mem_finRange i) hi
  upper i _ hi := absurd (List.mem_finRange i) hi
  mem := .inr ⟨rfl, fun i _ => List.mem_finRange i⟩

/-- The card of `i` is read. -/
theorem Best.play (h : Best cs g r (i :: rest)) (hi : g.rps i = true) (c : Nat)
    (hnodup : (i :: rest).Nodup) (hcard : (cs' i)[r]? = some c)
    (hother : ∀ j ≠ i, cs' j = cs j) : Best cs' (g.play i c) r rest := by
  have hnotin := (List.nodup_cons.mp hnodup).1
  have hplayed : ∀ j ≠ i, (g.play i c).played j = g.played j :=
    fun j hj => Function.update_of_ne hj ..
  have hself : (g.play i c).played i = c := Function.update_self ..
  have hle : g.max ≤ (g.play i c).max ∧ (c : Int) ≤ (g.play i c).max := by
    simp only [Game.play]
    split <;> omega
  refine ⟨fun j hj hrest => ?_, fun j hj hrest => ?_, ?_⟩
  · by_cases hji : j = i
    · rw [hji, hself, hcard]
    · rw [hplayed j hji, hother j hji]
      exact h.card j hj (by simp [hji, hrest])
  · by_cases hji : j = i
    · rw [hji, hself]
      exact hle.2
    · rw [hplayed j hji]
      exact (h.upper j hj (by simp [hji, hrest])).trans hle.1
  · by_cases hmax : g.max < c
    · exact .inl ⟨i, hi, hnotin, by rw [hself]; exact (if_pos hmax).symm⟩
    · have heq : (g.play i c).max = g.max := if_neg hmax
      rw [heq]
      rcases h.mem with ⟨j, hj, hrest, hjmax⟩ | ⟨hneg, -⟩
      · have hji : j ≠ i := fun hji => hrest (hji ▸ List.mem_cons_self ..)
        exact .inl ⟨j, hj, fun hin => hrest (List.mem_cons_of_mem _ hin), by rw [hplayed j hji, hjmax]⟩
      · omega

/-- Nothing comes from `i`. -/
theorem Best.close (h : Best cs g r (i :: rest)) : Best cs (g.close i) r rest := by
  have hopen : ∀ j, (g.close i).rps j = true → j ≠ i ∧ g.rps j = true := by
    intro j hj
    by_cases hji : j = i
    · subst hji
      simp at hj
    · exact ⟨hji, by simpa [hji] using hj⟩
  refine ⟨fun j hj hrest => ?_, fun j hj hrest => ?_, ?_⟩
  · obtain ⟨hji, hj⟩ := hopen j hj
    exact h.card j hj (by simp [hji, hrest])
  · obtain ⟨hji, hj⟩ := hopen j hj
    exact h.upper j hj (by simp [hji, hrest])
  · rcases h.mem with ⟨j, hj, hrest, hmax⟩ | ⟨hneg, hall⟩
    · have hji : j ≠ i := fun hji => hrest (hji ▸ List.mem_cons_self ..)
      exact .inl ⟨j, by simpa [hji] using hj, fun hin => hrest (List.mem_cons_of_mem _ hin), hmax⟩
    · refine .inr ⟨hneg, fun j hj => ?_⟩
      obtain ⟨hji, hj⟩ := hopen j hj
      exact (List.mem_cons.mp (hall j hj)).resolve_left hji

/-- Nothing was to come from `i`. -/
theorem Best.skip (h : Best cs g r (i :: rest)) (hi : g.rps i = false) : Best cs g r rest := by
  have hopen : ∀ j, g.rps j = true → j ≠ i := by
    rintro j hj rfl
    rw [hi] at hj
    cases hj
  refine ⟨fun j hj hrest => h.card j hj (by simp [hopen j hj, hrest]),
    fun j hj hrest => h.upper j hj (by simp [hopen j hj, hrest]), ?_⟩
  rcases h.mem with ⟨j, hj, hrest, hmax⟩ | ⟨hneg, hall⟩
  · exact .inl ⟨j, hj, fun hin => hrest (List.mem_cons_of_mem _ hin), hmax⟩
  · exact .inr ⟨hneg, fun j hj => (List.mem_cons.mp (hall j hj)).resolve_left (hopen j hj)⟩

/-- **The points of a round** go to those who played its highest card. -/
theorem Best.pts (h : Best cs g r []) (hclosed : ∀ j, g.rps j = false → (cs j).length ≤ r)
    (hi : g.rps i = true) : g.pts g.pointsToGive i = pay cs r i := by
  obtain ⟨w, hw, -, hmax⟩ := h.mem.resolve_right fun h => absurd (h.2 i hi) List.not_mem_nil
  have hvalue : ∀ j, (cs j)[r]? = if g.rps j then some (g.played j) else none := by
    intro j
    cases hj : g.rps j with
    | true => exact h.card j hj List.not_mem_nil
    | false => exact List.getElem?_eq_none_iff.mpr (hclosed j hj)
  have hbest : ∀ j, (cs j)[r]? = some (g.played w) ↔
      g.rps j = true ∧ (g.played j : Int) = g.max := by
    intro j
    rw [hvalue, ← hmax]
    cases g.rps j <;> simp
  have hcount : (tally id fun j => decide ((cs j)[r]? = some (g.played w))) = g.winnersCount := by
    rw [tally_finRange, Game.winnersCount]
    congr 1
    refine List.filter_congr fun j _ => ?_
    rw [Bool.eq_iff_iff, decide_eq_true_iff, hbest]
    simp
  have hgive : g.pointsToGive = n / g.winnersCount := by
    rw [Game.pointsToGive]
    split
    · rfl
    next hpos => rw [Nat.le_zero.mp (not_lt.mp hpos), Nat.div_zero]
  have hupper : ∀ j d, (cs j)[r]? = some d → d ≤ g.played w := by
    intro j d hj
    rw [hvalue] at hj
    cases hrps : g.rps j with
    | true =>
        rw [hrps, if_pos rfl] at hj
        cases hj
        have hle := h.upper j hrps List.not_mem_nil
        omega
    | false => simp [hrps] at hj
  rw [pay, portion_eq n hupper ⟨w, (hbest w).mpr ⟨hw, hmax⟩⟩, hcount, Game.pts, hgive]
  refine if_congr ?_ rfl rfl
  rw [hbest]
  simp [hi]

/-! ### The steps of the server -/

/-- It is the turn of `i`, and then of the rest. -/
theorem forall_turn {P Q : Fin n → Nat → Prop} (h : ∀ j, P j (turn (i :: rest) j))
    (hnodup : (i :: rest).Nodup) (hi : P i 0 → Q i 1) (hother : ∀ j ≠ i, ∀ d, P j d → Q j d)
    (j : Fin n) : Q j (turn rest j) := by
  by_cases hj : j = i
  · subst hj
    rw [turn_tail hnodup]
    exact hi (turn_head ▸ h j)
  · rw [← turn_other hj]
    exact hother j hj _ (h j)

/-- One more message for `i`. -/
theorem Row.send (h : Row cs out g i read told paid scored) {c : Message} {told' paid' : Nat}
    (hc : script cs i told' paid' = script cs i told paid ++ [c]) :
    Row cs (Function.update out i (out i ++ [c])) g i read told' paid' scored :=
  ⟨h.read, by rw [Function.update_self, h.sent, hc], h.score⟩

/-- The round is announced to `i`. -/
theorem Ledger.tell (h : Ledger m cs out (.announce g (i :: rest))) (hi : g.rps i = true) :
    Ledger m cs (Function.update out i (out i ++ [.newRound])) (.announce g rest) := by
  obtain ⟨r, hround, hr, hnodup, hA⟩ := h
  refine ⟨r, hround, hr, hnodup.of_cons,
    forall_turn (P := fun j d => Account cs out g j r (r + d) r r)
      (Q := fun j d => Account cs _ g j r (r + d) r r) hA hnodup (fun hself => ?_)
      fun j hj d hother => ?_⟩
  · exact ((hself.open_row hi).send (script_tell ..)).account hi
  · exact hother.same hround (Function.update_of_ne hj ..) rfl le_rfl rfl

/-- The card of `i` is read. -/
theorem Ledger.play (h : Ledger m cs out (.cards g (i :: rest))) (hi : g.rps i = true) (c : Nat) :
    Ledger m (Function.update cs i (cs i ++ [c])) out (.cards (g.play i c) rest) := by
  obtain ⟨r, hround, hr, hnodup, hB, hA⟩ := h
  have hlen : (cs i).length = r := by
    have hrow := (hA i).open_row hi
    rw [turn_head] at hrow
    exact hrow.read
  have hcards : ∀ k < r, ∀ j, (Function.update cs i (cs i ++ [c]) j)[k]? = (cs j)[k]? := by
    intro k hk j
    by_cases hj : j = i
    · subst hj
      rw [Function.update_self]
      exact List.getElem?_append_left (hlen ▸ hk)
    · rw [Function.update_of_ne hj]
  refine ⟨r, hround, hr, hnodup.of_cons, hB.play hi c hnodup ?_
    fun j hj => Function.update_of_ne hj ..,
    forall_turn (P := fun j d => Account cs out g j (r + d) (r + 1) r r)
      (Q := fun j d => Account _ out (g.play i c) j (r + d) (r + 1) r r) hA hnodup
      (fun hself => ?_) fun j hj d hother => ?_⟩
  · rw [Function.update_self, ← hlen, List.getElem?_concat_length]
  · have hrow := hself.open_row hi
    refine Row.account ⟨?_, ?_, ?_⟩ hi
    · rw [Function.update_self, List.length_append, hlen, List.length_singleton]
    · rw [hrow.sent, script_congr hcards]
    · exact hrow.score.trans (total_congr hcards i).symm
  · exact hother.congr hround (.inl le_rfl) (.inl le_rfl) hcards
      (by rw [Function.update_of_ne hj]) rfl rfl le_rfl rfl

/-- `i` has resigned. -/
theorem Ledger.resigned (h : Ledger m cs out (.cards g (i :: rest))) (hi : g.rps i = true) :
    Ledger m cs out (.cards (g.close i) rest) := by
  obtain ⟨r, hround, hr, hnodup, hB, hA⟩ := h
  refine ⟨r, hround, hr, hnodup.of_cons, hB.close,
    forall_turn (P := fun j d => Account cs out g j (r + d) (r + 1) r r)
      (Q := fun j d => Account cs out (g.close i) j (r + d) (r + 1) r r) hA hnodup
      (fun hself => ?_) fun j hj d hother => ?_⟩
  · have hrow := hself.open_row hi
    have hgone : (g.close i).rps i = false := Function.update_self ..
    have hlt : r < (g.close i).round := by
      change r < g.round
      omega
    rw [Account, if_neg (Bool.eq_false_iff.mp hgone)]
    exact ⟨r, hlt, hrow.read, hrow.sent, hrow.score⟩
  · exact hother.same hround rfl (Function.update_of_ne hj ..) le_rfl rfl

/-- The points of `i` are added to its score. -/
theorem Ledger.award {give : Nat} (h : Ledger m cs out (.points g give (i :: rest)))
    (hi : g.rps i = true) :
    Ledger m cs out (.send (g.score i (g.pts give i)) give i (g.pts give i) rest) := by
  obtain ⟨r, hround, hr, hnodup, hpts, hA⟩ := h
  refine ⟨r, hround, hr, hnodup, hi, hpts i hi, hpts,
    forall_turn
      (P := fun j d => Account cs out g j (r + 1) (r + 1) (r + turn (i :: rest) j) (r + d))
      (Q := fun j d => Account cs out (g.score i (g.pts give i)) j (r + 1) (r + 1)
        (r + turn (i :: rest) j) (r + d)) hA hnodup (fun hself => ?_) fun j hj d hother => ?_⟩
  · have hrow := hself.open_row hi
    refine Row.account ⟨hrow.read, hrow.sent, ?_⟩ hi
    change Function.update g.scores i _ i = _
    rw [Function.update_self, hrow.score, hpts i hi, total_succ]
    rfl
  · exact hother.same hround rfl rfl le_rfl (Function.update_of_ne hj ..)

/-- The points of `i` are sent. -/
theorem Ledger.pay {give pts : Nat} (h : Ledger m cs out (.send g give i pts rest)) :
    Ledger m cs (Function.update out i (out i ++ [.number pts])) (.points g give rest) := by
  obtain ⟨r, hround, hr, hnodup, hi, rfl, hpts, hA⟩ := h
  refine ⟨r, hround, hr, hnodup.of_cons, hpts,
    forall_turn
      (P := fun j d => Account cs out g j (r + 1) (r + 1) (r + d) (r + turn rest j))
      (Q := fun j d => Account cs _ g j (r + 1) (r + 1) (r + d) (r + turn rest j)) hA hnodup
      (fun hself => ?_) fun j hj d hother => ?_⟩
  · exact ((hself.open_row hi).send (script_pay ..)).account hi
  · exact hother.same hround (Function.update_of_ne hj ..) rfl le_rfl rfl

/-- One step of the server, which finds no broken pipe. -/
theorem Ledger.step (hof : q.of none) (hL : Ledger m (cardsOf es) (sentTo es) q)
    (hM : q.matched = true) (hne : ∀ k, e ≠ .epipe k) (h : (gameServerWork m q).Goes e q') :
    Ledger m (cardsOf (es ++ [e])) (sentTo (es ++ [e])) q'.after := by
  cases q with
  | head g =>
      obtain ⟨r, hround, hA⟩ := hL
      simp only [gameServerWork] at h
      split at h
      · obtain ⟨rfl, rfl⟩ := h
        rw [cardsOf_snoc fun _ => rfl, sentTo_snoc fun _ => rfl]
        refine ⟨r, hround, by omega, List.nodup_finRange n, fun i => ?_⟩
        rw [turn_finRange]
        exact hA i
      · obtain ⟨rfl, rfl⟩ := h
        rw [cardsOf_snoc fun _ => rfl, sentTo_snoc fun _ => rfl]
        exact ⟨r, hround, hA⟩
  | announce g rest =>
      cases rest with
      | nil =>
          obtain ⟨r, hround, hr, -, hA⟩ := hL
          obtain ⟨rfl, rfl⟩ := h
          rw [cardsOf_snoc fun _ => rfl, sentTo_snoc fun _ => rfl]
          refine ⟨r, hround, hr, List.nodup_finRange n, best_deal, fun i => ?_⟩
          rw [turn_finRange]
          exact (hA i).same hround rfl rfl le_rfl rfl
      | cons i rest =>
          simp only [gameServerWork] at h
          split at h
          next hw =>
            obtain ⟨rfl, rfl⟩ | ⟨rfl, -⟩ := h
            · rw [cardsOf_snoc fun _ => rfl, sentTo_wrote]
              exact hL.tell (hof.2 ▸ hw)
            · exact absurd rfl (hne _)
          next hw =>
            obtain ⟨r, hround, hr, hnodup, hA⟩ := hL
            obtain ⟨rfl, rfl⟩ := h
            rw [cardsOf_snoc fun _ => rfl, sentTo_snoc fun _ => rfl]
            have hi : g.rps i = false := hof.2 ▸ Bool.eq_false_iff.mpr hw
            exact ⟨r, hround, hr, hnodup.of_cons,
              forall_turn (P := fun j d => Account _ _ g j r (r + d) r r) hA hnodup
                (fun h => h.skip hi ..) fun _ _ _ h => h⟩
  | cards g rest =>
      cases rest with
      | nil =>
          obtain ⟨r, hround, hr, -, hB, hA⟩ := hL
          obtain ⟨rfl, rfl⟩ := h
          rw [cardsOf_snoc fun _ => rfl, sentTo_snoc fun _ => rfl]
          refine ⟨r, hround, hr, List.nodup_finRange n, fun i hi => hB.pts (fun j hj => ?_) hi,
            fun i => ?_⟩
          · obtain ⟨k, hk, hrow⟩ := (hA j).closed_row hj
            rw [hrow.read]
            omega
          · rw [turn_finRange]
            exact hA i
      | cons i rest =>
          simp only [gameServerWork] at h
          split at h
          next hi =>
            obtain ⟨c, rfl, rfl⟩ | ⟨rfl, rfl⟩ | ⟨-, h⟩ := h
            · rw [cardsOf_read, sentTo_snoc fun _ => rfl]
              exact hL.play hi c.atoi
            · rw [cardsOf_snoc fun _ => rfl, sentTo_snoc fun _ => rfl]
              exact hL.resigned hi
            · cases h
          next hi =>
            obtain ⟨r, hround, hr, hnodup, hB, hA⟩ := hL
            obtain ⟨rfl, rfl⟩ := h
            rw [cardsOf_snoc fun _ => rfl, sentTo_snoc fun _ => rfl]
            have hi := Bool.eq_false_iff.mpr hi
            exact ⟨r, hround, hr, hnodup.of_cons, hB.skip hi,
              forall_turn (P := fun j d => Account _ _ g j (r + d) (r + 1) r r) hA hnodup
                (fun h => h.skip hi ..) fun _ _ _ h => h⟩
  | points g give rest =>
      cases rest with
      | nil =>
          obtain ⟨r, hround, -, -, -, hA⟩ := hL
          obtain ⟨rfl, rfl⟩ := h
          rw [cardsOf_snoc fun _ => rfl, sentTo_snoc fun _ => rfl]
          exact ⟨r + 1, by rw [← hround]; rfl,
            fun i => (hA i).same hround rfl rfl (Nat.le_succ _) rfl⟩
      | cons i rest =>
          have hM : g.wps ⟨0, i.pos⟩ = g.wps i := of_decide_eq_true hM
          simp only [gameServerWork] at h
          split at h
          next hw =>
            obtain ⟨rfl, rfl⟩ := h
            rw [cardsOf_snoc fun _ => rfl, sentTo_snoc fun _ => rfl]
            exact hL.award (by rw [hof.2, ← hM, hw])
          next hw =>
            obtain ⟨r, hround, hr, hnodup, hpts, hA⟩ := hL
            obtain ⟨rfl, rfl⟩ := h
            rw [cardsOf_snoc fun _ => rfl, sentTo_snoc fun _ => rfl]
            have hi : g.rps i = false := by rw [hof.2, ← hM, Bool.eq_false_iff.mpr hw]
            exact ⟨r, hround, hr, hnodup.of_cons, hpts,
              forall_turn (P := fun j d => Account _ _ g j (r + 1) (r + 1) (r + d) (r + d)) hA
                hnodup (fun h => h.skip hi ..) fun _ _ _ h => h⟩
  | send g give i pts rest =>
      have hi : g.rps i = true := by
        obtain ⟨-, -, -, -, hi, -⟩ := hL
        exact hi
      have hw : g.wps i = true := hof.2 ▸ hi
      simp only [gameServerWork, hw, if_true] at h
      obtain ⟨rfl, rfl⟩ | ⟨rfl, -⟩ := h
      · rw [cardsOf_snoc fun _ => rfl, sentTo_wrote]
        exact hL.pay
      · exact absurd rfl (hne _)
  | scoreboard g rest =>
      obtain ⟨r, hround, hA⟩ := hL
      cases rest with
      | nil =>
          obtain ⟨rfl, rfl⟩ := h
          rw [cardsOf_snoc fun _ => rfl, sentTo_snoc fun _ => rfl]
          exact fun i => (hA i).messages (.inl rfl)
      | cons i rest =>
          obtain ⟨rfl, rfl⟩ := h
          rw [cardsOf_snoc fun _ => rfl, sentTo_snoc fun _ => rfl]
          exact ⟨r, hround, hA⟩
  | waiting =>
      obtain ⟨rfl, rfl⟩ := h
      rw [cardsOf_snoc fun _ => rfl, sentTo_snoc fun _ => rfl]
      exact hL
  | closing | done | crashed | newRound | resign | draw | card | result | gone | failed =>
      exact h.elim

/-- Where the server writes. -/
theorem server_writes {k : Pipe n} {c : Message} {ok broken : Place n}
    (h : gameServerWork m q = .write k c ok broken) :
    (∃ g i rest, q = .announce g (i :: rest) ∧ k = .toPlayer i ∧ g.wps i = true) ∨
      ∃ g give i pts rest, q = .send g give i pts rest ∧ k = .toPlayer i ∧ g.wps i = true := by
  cases q with
  | announce g rest =>
      cases rest with
      | nil => cases h
      | cons i rest =>
          simp only [gameServerWork] at h
          split at h <;> cases h
          exact .inl ⟨g, i, rest, rfl, rfl, ‹_›⟩
  | send g give i pts rest =>
      simp only [gameServerWork] at h
      split at h <;> cases h
      exact .inr ⟨g, give, i, pts, rest, rfl, rfl, ‹_›⟩
  | head g => simp only [gameServerWork] at h; split at h <;> cases h
  | cards g rest | points g give rest =>
      cases rest with
      | nil => cases h
      | cons i rest => simp only [gameServerWork] at h; split at h <;> cases h
  | scoreboard g rest => cases rest <;> cases h
  | closing | waiting | done | crashed | newRound | resign | draw | card | result | gone | failed =>
      cases h

/-! ### Both sides of a pipe -/

section
variable (run : Run (Step cap m) (begin n m) tr s)
include run

theorem written_toPlayer (i : Fin n) : written (.toPlayer i) tr = sentTo (events none tr) i :=
  written_of_only op_keeps tidy_begin run fun _ _ _ h => own_server (.inl rfl) (op_uses h)

theorem taken_fromPlayer (i : Fin n) :
    (taken (.fromPlayer i) tr).map Message.atoi = cardsOf (events none tr) i := by
  rw [cardsOf, taken_of_only op_keeps tidy_begin run fun _ _ _ h => own_server (.inr rfl) (op_uses h)]

theorem taken_toPlayer (i : Fin n) : taken (.toPlayer i) tr = heard i (events (some i) tr) :=
  taken_of_only op_keeps tidy_begin run fun _ _ _ h => own_player (.inl rfl) (op_uses h)

theorem written_fromPlayer (i : Fin n) : written (.fromPlayer i) tr = said i (events (some i) tr) :=
  written_of_only op_keeps tidy_begin run fun _ _ _ h => own_player (.inr rfl) (op_uses h)

theorem heard_begins (i : Fin n) : heard i (events (some i) tr) <+: sentTo (events none tr) i := by
  rw [← taken_toPlayer run, ← written_toPlayer run, pipe_law run (fun _ => rfl)]
  exact List.prefix_append ..

theorem length_cardsOf_le (i : Fin n) :
    (cardsOf (events none tr) i).length ≤ (said i (events (some i) tr)).length := by
  rw [← taken_fromPlayer run, List.length_map, ← written_fromPlayer run, pipe_law run (fun _ => rfl),
    List.length_append]
  exact Nat.le_add_right ..

/-- Whoever has played a card in every round up to now still listens. -/
theorem reader_open (hread : holds none (s.pc none) (.read (.fromPlayer i)) = true)
    (hwrite : holds none (s.pc none) (.write (.toPlayer i)) = true)
    (hlt : (sentTo (events none tr) i).length < 2 * m)
    (hle : (sentTo (events none tr) i).length ≤ 2 * (cardsOf (events none tr) i).length) :
    ¬ s.pipes.NoReader (.toPlayer i) := by
  intro hnone
  have ht := tidy run
  have heof : Event.eof (.toPlayer i) ∉ events (some i) tr := by
    intro heof
    have hw := ht.noWriter.mp (ended_of_eof op_keeps tidy_begin run heof).2 none
    rw [hwrite] at hw
    cases hw
  have hepipe : Event.epipe (.fromPlayer i) ∉ events (some i) tr := by
    intro hepipe
    have hr := ht.noReader.mp (noReader_of_epipe run hepipe) none
    rw [hread] at hr
    cases hr
  have hC := (books run i).resolve_left fun h => h.1.elim heof hepipe
  have hgot := hC.of_closed (ht.ok (some i)) (ht.noReader.mp hnone (some i))
  have hheard := (heard_begins run i).length_le
  have hcards := length_cardsOf_le run i
  omega

theorem Row.reader_open (hrow : Row (cardsOf (events none tr)) (sentTo (events none tr)) g i read
      told paid scored) (hread : holds none (s.pc none) (.read (.fromPlayer i)) = true)
    (hwrite : holds none (s.pc none) (.write (.toPlayer i)) = true)
    (hlt : 2 * paid + (told - paid) < 2 * m) (hle : 2 * paid + (told - paid) ≤ 2 * read) :
    ¬ s.pipes.NoReader (.toPlayer i) := by
  have hlen := congrArg List.length hrow.sent
  rw [length_script] at hlen
  exact PipeCards.reader_open run hread hwrite (by rwa [hlen]) (by rwa [hlen, hrow.read])

/-- **The server finds no broken pipe.** -/
theorem no_epipe
    (hL : Ledger m (cardsOf (events none tr)) (sentTo (events none tr)) (s.pc none).after)
    {k : Pipe n} (h : Step cap m s (none, .epipe k) t) : False := by
  have hof := (tidy run).ok none
  cases h with
  | epipe _ _ c ok broken hop hnone =>
      obtain ⟨es, next, hq⟩ | ⟨hafter, hserver⟩ := op_cases m none (s.pc none)
      · rw [hq] at hop
        cases es <;> cases hop
      · rw [hafter] at hL
        rw [hserver] at hop
        obtain ⟨g, i, rest, hq, rfl, hw⟩ | ⟨g, give, i, pts, rest, hq, rfl, hw⟩ :=
          server_writes hop
        · rw [hq] at hL hof
          obtain ⟨r, hround, hr, hnodup, hA⟩ := hL
          have hi : g.rps i = true := hof.2 ▸ hw
          have hrow := (hA i).open_row hi
          rw [turn_head] at hrow
          exact hrow.reader_open run (by rw [hq]; exact hi) (by rw [hq]; exact hw) (by omega)
            (by omega) hnone
        · rw [hq] at hL hof
          obtain ⟨r, hround, hr, hnodup, hi, -, -, hA⟩ := hL
          have hrow := (hA i).open_row hi
          rw [turn_head] at hrow
          exact hrow.reader_open run (by rw [hq]; exact hi) (by rw [hq]; exact hw) (by omega)
            (by omega) hnone

/-- **The ledger of a run.** -/
theorem ledger (hG : ∀ mv ∈ tr, Matched mv.before) :
    Ledger m (cardsOf (events none tr)) (sentTo (events none tr)) (s.pc none).after := by
  induction run with
  | refl => exact ⟨0, rfl, fun i => ⟨rfl, rfl, rfl⟩⟩
  | @snoc t u tr l run h ih =>
      have hL := ih fun mv hmv => hG mv (List.mem_append_left _ hmv)
      have hM : Matched t := hG ⟨t, l, u⟩ (by simp)
      obtain ⟨p, e⟩ := l
      rw [events_snoc]
      cases p with
      | some i =>
          rw [if_neg (by simp), List.append_nil, h.stays (by simp)]
          exact hL
      | none =>
          have hne : ∀ k, e ≠ .epipe k := by
            rintro k rfl
            exact no_epipe run hL h
          have hof := (tidy run).ok none
          rw [if_pos rfl]
          obtain ⟨q', hpc, hgoes⟩ := h.goes
          rw [hpc, Function.update_self]
          change (op m none (t.pc none)).Goes e q' at hgoes
          obtain ⟨es, next, hq⟩ | ⟨hafter, hserver⟩ := op_cases m none (t.pc none)
          · rw [hq] at hL hgoes
            cases es <;> (obtain ⟨rfl, rfl⟩ := hgoes
                          rw [cardsOf_snoc fun _ => rfl, sentTo_snoc fun _ => rfl]
                          exact hL)
          · rw [hafter] at hL
            rw [hserver] at hgoes
            exact hL.step hof hM hne hgoes

end

/-! ### The rounds of a game -/

/-- The player whose descriptors are used. -/
def slot : Seen n → Option (Fin n)
  | .read (.fromPlayer i) _ | .eof (.fromPlayer i) | .wrote (.toPlayer i) _ | .epipe (.toPlayer i)
  | .said (some (.stray i)) => some i
  | _ => none

/-- What the server knows, at a place in its loops. -/
def Place.game : Place n → Option (Game n)
  | .head g | .announce g _ | .cards g _ | .points g _ _ | .send g _ _ _ _ | .scoreboard g _ => some g
  | _ => none

/-- The slot is not marked closed. -/
def Place.opened (q : Place n) (i : Fin n) : Prop :=
  ∃ g, q.game = some g ∧ g.rps i = true ∧ g.wps i = true

/-- The server uses the descriptors that it has. -/
theorem slot_opened (hof : q.of none) (hL : Ledger m cs out q)
    (h : (gameServerWork m q).Goes e q') (hi : slot e = some i) : q.opened i := by
  cases q with
  | head g => simp only [gameServerWork] at h; split at h <;> (obtain ⟨rfl, -⟩ := h; cases hi)
  | announce g rest =>
      cases rest with
      | nil => obtain ⟨rfl, -⟩ := h; cases hi
      | cons j rest =>
          simp only [gameServerWork] at h
          split at h
          next hw => obtain ⟨rfl, -⟩ | ⟨rfl, -⟩ := h <;> cases hi <;> exact ⟨g, rfl, hof.2 ▸ hw, hw⟩
          next => obtain ⟨rfl, -⟩ := h; cases hi
  | cards g rest =>
      cases rest with
      | nil => obtain ⟨rfl, -⟩ := h; cases hi
      | cons j rest =>
          simp only [gameServerWork] at h
          split at h
          next hr =>
            obtain ⟨c, rfl, -⟩ | ⟨rfl, -⟩ | ⟨-, h⟩ := h
            · cases hi; exact ⟨g, rfl, hr, hof.2 ▸ hr⟩
            · cases hi; exact ⟨g, rfl, hr, hof.2 ▸ hr⟩
            · cases h
          next => obtain ⟨rfl, -⟩ := h; cases hi
  | points g give rest =>
      cases rest with
      | nil => obtain ⟨rfl, -⟩ := h; cases hi
      | cons j rest =>
          simp only [gameServerWork] at h
          split at h <;> (obtain ⟨rfl, -⟩ := h; cases hi)
  | send g give j pts rest =>
      obtain ⟨r, -, -, -, hj, -⟩ := hL
      have hw : g.wps j = true := hof.2 ▸ hj
      simp only [gameServerWork, hw, if_true] at h
      obtain ⟨rfl, -⟩ | ⟨rfl, -⟩ := h <;> cases hi <;> exact ⟨g, rfl, hj, hw⟩
  | scoreboard g rest => cases rest <;> (obtain ⟨rfl, -⟩ := h; cases hi)
  | waiting => obtain ⟨rfl, -⟩ := h; cases hi
  | closing | done | crashed | newRound | resign | draw | card | result | gone | failed =>
      exact h.elim

theorem Ledger.messages (hof : q.of none) (hL : Ledger m cs out q.after) (i : Fin n) :
    ∃ k, out i = script cs i k k ∨ out i = script cs i (k + 1) k := by
  have hturn : ∀ rest, turn rest i = 0 ∨ turn rest i = 1 := by
    intro rest
    rw [turn]
    split <;> simp
  induction q with
  | closing es next ih => exact ih hof.2 hL
  | head g | scoreboard g rest =>
      obtain ⟨r, -, hA⟩ := hL
      exact (hA i).messages (.inl rfl)
  | announce g rest =>
      obtain ⟨r, -, -, -, hA⟩ := hL
      have hrest := hturn rest
      exact (hA i).messages (by omega)
  | cards g rest =>
      obtain ⟨r, -, -, -, -, hA⟩ := hL
      exact (hA i).messages (.inr rfl)
  | points g give rest =>
      obtain ⟨r, -, -, -, -, hA⟩ := hL
      have hrest := hturn rest
      exact (hA i).messages (by omega)
  | send g give j pts rest =>
      obtain ⟨r, -, -, -, -, -, -, hA⟩ := hL
      have hrest := hturn (j :: rest)
      exact (hA i).messages (by omega)
  | waiting | done => exact hL i
  | crashed g => exact hL.elim
  | newRound | resign | draw | card | result | gone | failed => obtain ⟨j, hj⟩ := hof; cases hj

/-- The cards that were read from the players in a run. -/
def cardsRead (tr : List (Move (State n) (Option (Fin n) × Seen n))) (i : Fin n) : List Nat :=
  (taken (.fromPlayer i) tr).map Message.atoi

/-- What holds of the rounds of a run. -/
structure Rounds (tr : List (Move (State n) (Option (Fin n) × Seen n))) (s : State n) : Prop where
  /-- The server uses no descriptor that is 0. -/
  opened : ∀ mv ∈ tr, mv.label.1 = none → ∀ i, slot mv.label.2 = some i →
    (mv.before.pc none).opened i
  /-- Between the rounds: a card a round, and the points for each of them. -/
  between : ∀ g, s.pc none = .head g → ∀ i,
    (g.rps i = true → (cardsRead tr i).length + 1 = g.round) ∧
    written (.toPlayer i) tr = script (cardsRead tr) i
      (if g.rps i then (cardsRead tr i).length else (cardsRead tr i).length + 1)
      (cardsRead tr i).length ∧
    g.scores i = total (cardsRead tr) i (cardsRead tr i).length
  /-- At any time. -/
  sent : ∀ i, ∃ k, written (.toPlayer i) tr = script (cardsRead tr) i k k ∨
    written (.toPlayer i) tr = script (cardsRead tr) i (k + 1) k
  received : ∀ i k cards, s.pc (some i) = .newRound true k cards →
    taken (.toPlayer i) tr = script (cardsRead tr) i (k - 1) (k - 1)

/-- **The rounds of a game**, as long as slot 0 is closed exactly when the slot is whose points are
given out. -/
theorem points_law (run : Run (Step cap m) (begin n m) tr s) (hG : ∀ mv ∈ tr, Matched mv.before) :
    Rounds tr s := by
  have hL := ledger run hG
  have hof := (tidy run).ok none
  have hcards : cardsRead tr = cardsOf (events none tr) := funext (taken_fromPlayer run)
  have hsent : ∀ i, ∃ k, written (.toPlayer i) tr = script (cardsRead tr) i k k ∨
      written (.toPlayer i) tr = script (cardsRead tr) i (k + 1) k := by
    intro i
    rw [written_toPlayer run, hcards]
    exact hL.messages hof i
  refine ⟨?_, fun g hg i => ?_, hsent, fun i k cards hk => ?_⟩
  · clear hL hof hcards hsent
    induction run with
    | refl => nofun
    | @snoc t u tr l run h ih =>
        have hG' : ∀ mv ∈ tr, Matched mv.before := fun mv hmv =>
          hG mv (List.mem_append_left _ hmv)
        refine forall_mem_snoc (ih hG') fun hl i hi => ?_
        obtain ⟨p, e⟩ := l
        obtain rfl : p = none := hl
        have hL := ledger run hG'
        obtain ⟨q', -, hgoes⟩ := h.goes
        change (op m none (t.pc none)).Goes e q' at hgoes
        obtain ⟨es, next, hq⟩ | ⟨hafter, hserver⟩ := op_cases m none (t.pc none)
        · rw [hq] at hgoes
          cases es <;> (obtain ⟨rfl, rfl⟩ := hgoes; cases hi)
        · rw [hafter] at hL
          rw [hserver] at hgoes
          exact slot_opened ((tidy run).ok none) hL hgoes hi
  · rw [written_toPlayer run, hcards]
    rw [hg] at hL
    obtain ⟨r, hround, hA⟩ := hL
    cases hi : g.rps i with
    | true =>
        have hrow := (hA i).open_row hi
        rw [hrow.read]
        exact ⟨fun _ => hround.symm, hrow.sent, hrow.score⟩
    | false =>
        obtain ⟨k, -, hrow⟩ := (hA i).closed_row hi
        rw [hrow.read]
        exact ⟨nofun, hrow.sent, hrow.score⟩
  · have hC : Books m i (events (some i) tr) (s.pc (some i)) := books run i
    rw [Books, hk] at hC
    obtain ⟨-, hgot, hput⟩ := hC.resolve_left fun h => by cases h.2
    -- what the player has read is the beginning of what it was told
    obtain ⟨paid, hpaid⟩ := hsent i
    obtain ⟨told, hwritten, htold⟩ : ∃ told, written (.toPlayer i) tr =
        script (cardsRead tr) i told paid ∧ told ≤ paid + 1 := by
      rcases hpaid with h | h
      · exact ⟨paid, h, Nat.le_succ _⟩
      · exact ⟨paid + 1, h, le_rfl⟩
    have hprefix : taken (.toPlayer i) tr <+: script (cardsRead tr) i told paid := by
      rw [← hwritten, pipe_law run (fun _ => rfl)]
      exact List.prefix_append ..
    have hlen : (taken (.toPlayer i) tr).length = 2 * (k - 1) := by
      rw [taken_toPlayer run, hgot]
      omega
    have hle := hprefix.length_le
    rw [hlen, length_script] at hle
    have hscript : script (cardsRead tr) i (k - 1) (k - 1) <+: script (cardsRead tr) i told paid :=
      script_begins _ _ (by omega)
    refine (List.prefix_of_prefix_length_le hprefix hscript ?_).eq_of_length ?_ <;>
      rw [hlen, length_script] <;> omega

/-! ### Two games -/

/-- A player that reads what it is told, and plays the card that `rand` points at. -/
def plays (i : Fin n) (reads rand : Nat) : List (Option (Fin n) × Option Answer) :=
  quiet (some i) reads ++ [(some i, some (.random 99)), (some i, some (.random rand)), (some i, none)]

/-- A player that resigns. -/
def resigns (i : Fin n) (reads : Nat) : List (Option (Fin n) × Option Answer) :=
  quiet (some i) reads ++ [(some i, some (.random 0))] ++ quiet (some i) 3

/-- Two players play a card each, and both resign in the second round. -/
def bothResign : List (Option (Fin 2) × Option Answer) :=
  quiet none 9 ++ plays 0 8 0 ++ plays 1 8 1 ++ quiet none 12 ++ resigns 0 2 ++ resigns 1 2 ++
    quiet none 12

/-- The server goes through the points of the second round with both slots closed. -/
theorem points_law_bothResign : ∃ (tr : List (Move (State 2) (Option (Fin 2) × Seen 2)))
    (s : State 2), (s.pc none).game.map Game.round = some 3 ∧
      (s.pc none).game.map (fun g => (g.rps 0, g.rps 1)) = some (false, false) ∧
      cardsRead tr 0 = [1] ∧ cardsRead tr 1 = [2] ∧
      Rounds tr s := by
  have hplay : (play 5 (op 5) (begin 2 5) bothResign).map (fun x =>
      ((x.2.pc none).game.map Game.round, (x.2.pc none).game.map (fun g => (g.rps 0, g.rps 1)),
        (x.1.filterMap fun l => l.2.taken? (.fromPlayer 0)).map Message.atoi,
        (x.1.filterMap fun l => l.2.taken? (.fromPlayer 1)).map Message.atoi)) =
      some (some 3, some (false, false), [1], [2]) := by
    decide +kernel
  have hheeds : heeds 5 (op 5) (fun s _ => (s.pc none).matched) (begin 2 5) bothResign = true := by
    decide +kernel
  obtain ⟨⟨es, t⟩, hplay, h⟩ := Option.map_eq_some_iff.mp hplay
  obtain ⟨tr, r, rfl, hall⟩ := play_heeds _ hplay hheeds
  simp only [Prod.mk.injEq, List.filterMap_map] at h
  exact ⟨tr, t, h.1, h.2.1, h.2.2.1, h.2.2.2, points_law r hall⟩

/-- Of three players the second resigns in the first round, and the first in the second. -/
def firstResigns : List (Option (Fin 3) × Option Answer) :=
  quiet none 12 ++ plays 0 12 0 ++ resigns 1 12 ++ plays 2 12 1 ++ quiet none 10 ++
    [(none, some .wrote)] ++ quiet none 8 ++ resigns 0 2 ++ plays 2 2 0 ++ quiet none 11

/-- The server is before the third round, and `i` is connected. -/
def Place.third (q : Place n) (i : Fin n) : Bool :=
  match q with
  | .head g => decide (g.round = 3) && g.rps i && g.wps i
  | _ => false

theorem Place.third_iff (h : q.third i = true) :
    ∃ g, q = .head g ∧ g.round = 3 ∧ g.rps i = true ∧ g.wps i = true := by
  cases q with
  | head g =>
      simp only [third, Bool.and_eq_true, decide_eq_true_eq] at h
      exact ⟨g, rfl, h.1.1, h.1.2, h.2⟩
  | _ => cases h

/-- In the first round the server writes to a descriptor that is 0; in the second the player that is
left plays the highest card, and is told nothing. -/
theorem firstResigns_unpaid : ∃ (tr : List (Move (State 3) (Option (Fin 3) × Seen 3)))
    (s : State 3), Run (Step 5 5) (begin 3 5) tr s ∧
      (∃ g, s.pc none = .head g ∧ g.round = 3 ∧ g.rps 2 = true ∧ g.wps 2 = true) ∧
      (cardsRead tr 2).length = 2 ∧ pay (cardsRead tr) 1 2 = 3 ∧
      written (.toPlayer 2) tr = [.newRound, .number 3, .newRound] ∧
      (∃ mv ∈ tr, mv.label = (none, .said (some (.stray 1)))) ∧ ¬ Rounds tr s := by
  have hplay : (play 5 (op 5) (begin 3 5) firstResigns).map (fun x =>
      ((x.2.pc none).third 2,
        (x.1.filterMap fun l => l.2.taken? (.fromPlayer 2)).length,
        pay (fun i => (x.1.filterMap fun l => l.2.taken? (.fromPlayer i)).map Message.atoi) 1 2,
        x.1.filterMap fun l => l.2.written? (.toPlayer 2),
        decide ((none, .said (some (.stray 1))) ∈ x.1))) =
      some (true, 2, 3, [.newRound, .number 3, .newRound], true) := by
    decide +kernel
  obtain ⟨tr, t, r, h⟩ := play_map hplay
  simp only [Prod.mk.injEq, List.filterMap_map, decide_eq_true_eq] at h
  obtain ⟨hthird, hlen, hpay, hwritten, hstray⟩ := h
  obtain ⟨g, hg, hround, hr, hw⟩ := Place.third_iff hthird
  have hcards : (cardsRead tr 2).length = 2 := (List.length_map ..).trans hlen
  have htold : written (.toPlayer 2) tr = [.newRound, .number 3, .newRound] := hwritten
  obtain ⟨mv, hmv, hlabel⟩ := List.mem_map.mp hstray
  refine ⟨tr, t, r, ⟨g, hg, hround, hr, hw⟩, hcards, hpay, htold, ⟨mv, hmv, hlabel⟩, fun hR => ?_⟩
  obtain ⟨-, hscript, -⟩ := hR.between g hg 2
  have hlen := congrArg List.length hscript
  rw [htold, hcards, if_pos hr, length_script] at hlen
  cases hlen

end Sop2.PipeCards
