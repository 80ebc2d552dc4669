import Mathlib.Algebra.Order.BigOperators.Group.Finset
import Sop2.Lab06.Cards.Lockstep

/-!
# Lab06 — Cards — the scores

What is seen of a game with semaphores.  While the server looks at the cards and adds the points,
no player can take a step (`Sound.still`), so that the rows are those of the round; and a player
reads its score while the server is past that (`Sound.reading`).

`game_law` collects what holds in every state of a game.
-/

namespace Sop2.Cards.Semaphores
open Support Support.Shared

variable {n m : Nat} {s t : State n} {es : List (Event n)} {j : Fin n} {d d' : Data n}
  {q q' : Player} {l : Option (Event n)}

/-! ### What lockstep gives -/

/-- Nobody moves between the last card and the first result. -/
theorem Sound.still (hs : Sound m s) (hready : s.server.counts .ready = crowd (inRound s))
    (hresults : s.server.counts .results = 0) :
    ¬ Turn m j s.data (s.client j) l d' q' := by
  intro h
  have hge := hs.round_le_of_ne_left h.not_left
  have hhere : inRound s j = true := decide_eq_true hge
  have hlow := hs.gates.all_taken (g := .ready) rfl hready hhere
  have hhigh := hs.gates.results_eq_zero hresults j
  have hgates := (hs.gates_eq (k := 2) (by decide) hhere (le_antisymm hhigh hlow)).2
  have hsem : s.data.sem .results = 0 := by
    have := hs.gates.posted .results rfl
    omega
  generalize s.client j = q at h hgates
  cases h with
  | waitResults i cards last v hv => omega
  | _ => cases hgates

/-- The places after the points were added. -/
def Server.published : Server n → Bool
  | .results _ _ _ | .done _ _ _ => true
  | _ => false

/-- A player reads its score while the server waits for it to do so. -/
theorem Sound.reading (hs : Sound m s) (h : (s.client j).stage.gates = 3) :
    (s.client j).round = s.server.round ∧ s.server.published = true := by
  have hleft : (s.client j).stage ≠ .left := fun hleft => by rw [hleft] at h; cases h
  have hge := hs.round_le_of_ne_left hleft
  have hle := hs.gates.time_le j
  have hpos := hs.round_pos
  simp only [Player.time, h] at hle
  have hround : (s.client j).round = s.server.round := by omega
  refine ⟨hround, ?_⟩
  by_contra hnot
  have hzero : s.server.counts .results = 0 := by
    generalize s.server = q at hnot
    cases q <;> first | rfl | exact absurd rfl hnot
  have hhigh := hs.gates.results_eq_zero hzero j
  simp only [Player.time, h, hround] at hhigh
  omega

/-! ### The record of a game -/

/-- `cur`, once the server has announced it. -/
def Server.announced : Server n → Option Nat
  | .lock _ | .readActive _ | .unlock _ _ | .ended _ => none
  | .start _ cur _ | .cards _ cur _ | .scan _ cur _ _ | .award _ cur _ _ | .results _ cur _
  | .done _ cur _ => some cur

/-- The places where points of the round may have been added. -/
def Server.awarding : Server n → Bool
  | .award _ _ _ _ | .results _ _ _ | .done _ _ _ => true
  | _ => false

/-- It has read its score of the round. -/
def Stage.hasRead : Stage → Bool
  | .waitRound | .draw | .postCards | .waitResults | .readScore | .finished | .failed => false
  | _ => true

/-- The points of the round that it has not read. -/
def Player.due (j : Fin n) (es : List (Event n)) (q : Player) : Int :=
  if q.stage.hasRead then 0 else (points q.round j es : Int)

/-- What the places of the server say about the points of the round. -/
def Tallied (es : List (Event n)) (table : Table n) : Server n → Prop
  | .scan _ _ rest best => ∃ seen, seen ++ rest = List.finRange n ∧ HighestOf table seen best
  | .award i cur rest best => HighestOf table (List.finRange n) best ∧
      ∃ paid, paid ++ rest = List.finRange n ∧
        ∀ j, points i j es = if j ∈ paid then prize table cur best j else 0
  | .results i cur 0 => ∃ best, HighestOf table (List.finRange n) best ∧
      ∀ j, points i j es = prize table cur best j
  | _ => True

structure Record (es : List (Event n)) (s : State n) : Prop where
  length : ∀ j, (drawn j es).length = (s.client j).draws
  card : ∀ j, drawn j es ≠ [] → (drawn j es).getLast? = some (s.data.playerData j).card
  pos : ∀ j, ∀ c ∈ drawn j es, 0 < c
  later : ∀ i j, s.server.round < i → points i j es = 0
  before : s.server.awarding = false → ∀ j, points s.server.round j es = 0
  tallied : Tallied es s.data.playerData s.server
  rounds : ∀ i cur, .round i cur ∈ es →
    i < s.server.round ∨ i = s.server.round ∧ s.server.announced = some cur
  sum : ∀ i cur, .round i cur ∈ es → ∑ j, points i j es ≤ cur
  last : ∀ j, (s.client j).lastScore + (s.client j).due j es = (s.data.playerData j).score
  shown : ∀ i j (p : Int), .scored i j p ∈ es → p = points i j es ∧
    (i < s.server.round ∨ i = s.server.round ∧ s.server.published = true)

theorem record_start : Record [] (start n m) where
  length _ := rfl
  card _ h := absurd rfl h
  pos _ _ hc := by cases hc
  later _ _ _ := rfl
  before _ _ := rfl
  tallied := trivial
  rounds _ _ h := by cases h
  sum _ _ h := by cases h
  last _ := rfl
  shown _ _ _ h := by cases h

/-- What a step of a player shows. -/
theorem Turn.shows (h : Turn m j d q l d' q') (i : Nat) (k : Fin n) :
    points i k l.toList = 0 ∧ (∀ i cur, .round i cur ∉ l.toList) ∧ (k ≠ j → drawn k l.toList = []) := by
  cases h with
  | draw =>
      exact ⟨rfl, by simp, fun hk => by simp [drawn, Event.drawnBy?, Ne.symm hk]⟩
  | readScore => simp [points, Event.pointsTo, drawn, Event.drawnBy?]
  | _ => simp [points, drawn]

/-- What it draws. -/
theorem Turn.draws (h : Turn m j d q l d' q') (hq : q.Valid m) :
    (drawn j l.toList).length + q.draws = q'.draws ∧
      (∀ c ∈ drawn j l.toList, 0 < c ∧ drawn j l.toList = [c] ∧ (d'.playerData j).card = c) ∧
      (drawn j l.toList = [] → (d'.playerData j).card = (d.playerData j).card) := by
  cases h with
  | draw i cards left last card hperm =>
      have hdrawn : drawn j (some (Event.drew j card)).toList = [card] := by
        simp [drawn, Event.drawnBy?]
      rw [hdrawn]
      refine ⟨Nat.add_comm .., fun c hc => ?_, nofun⟩
      obtain rfl := List.mem_singleton.mp hc
      exact ⟨hq.pos _ (hperm.mem_iff.mpr (by simp)), rfl, by simp [Data.row]⟩
  | postDone i cards last =>
      have hpos := hq.round_pos
      refine ⟨?_, by simp [drawn], fun _ => rfl⟩
      simp only [drawn, Option.toList_none, List.filterMap_nil, List.length_nil, Player.draws,
        Stage.hasDrawn, Bool.toNat_true, Bool.toNat_false] at hpos ⊢
      omega
  | readScore => exact ⟨by simp [drawn, Event.drawnBy?, Player.draws, Stage.hasDrawn],
      by simp [drawn, Event.drawnBy?], fun _ => rfl⟩
  | resign | stay => exact ⟨by simp [drawn, Player.draws, Stage.hasDrawn], by simp [drawn],
      fun _ => by simp [Data.row]⟩
  | waitRound | finish | fail | postCards | waitResults | lock | decrement | unlock | postLast =>
      exact ⟨by simp [drawn, Player.draws, Stage.hasDrawn], by simp [drawn], fun _ => rfl⟩

/-- The places of the server at which nobody else can move. -/
theorem Sound.tallied_turn (hs : Sound m s) (h : Turn m j s.data (s.client j) l d' q')
    (fs : List (Event n)) : Tallied fs d'.playerData s.server := by
  obtain ⟨d, q₀, c⟩ := s
  have hcurrent := hs.current
  cases q₀ with
  | scan i cur rest best => exact absurd h (hs.still (hcurrent cur rfl) rfl)
  | award i cur rest best => exact absurd h (hs.still (hcurrent cur rfl) rfl)
  | results i cur k =>
      cases k with
      | zero => exact absurd h (hs.still (hcurrent cur rfl) rfl)
      | succ k => trivial
  | lock | readActive | unlock | start | cards | done | ended => trivial

/-- **A step of a player.** -/
theorem Record.client (hs : Sound m s) (hR : Record es s)
    (h : Turn m j s.data (s.client j) l d' q') :
    Record (es ++ l.toList) ⟨d', s.server, Function.update s.client j q'⟩ := by
  have hself : Function.update s.client j q' j = q' := Function.update_self ..
  have hother : ∀ k ≠ j, Function.update s.client j q' k = s.client k :=
    fun k hk => Function.update_of_ne hk ..
  generalize Function.update s.client j q' = c at hself hother ⊢
  have hpoints : ∀ i k, points i k (es ++ l.toList) = points i k es := fun i k => by
    rw [points_append, (h.shows i k).1, Nat.add_zero]
  have hround : ∀ i cur, Event.round i cur ∈ es ++ l.toList → Event.round i cur ∈ es :=
    fun i cur hmem => (List.mem_append.mp hmem).resolve_right ((h.shows 0 j).2.1 i cur)
  have hdrawn : ∀ k ≠ j, drawn k (es ++ l.toList) = drawn k es := fun k hk => by
    rw [drawn_append, (h.shows 0 k).2.2 hk, List.append_nil]
  obtain ⟨hdraws, hdrew, hsame⟩ := h.draws (hs.valid j)
  obtain ⟨hrows, hscore, -⟩ := h.rows
  refine ⟨fun k => ?_, fun k hne => ?_, fun k c hc => ?_, fun i k hi => ?_, fun hb k => ?_,
    hs.tallied_turn h _, fun i cur hmem => hR.rounds i cur (hround i cur hmem),
    fun i cur hmem => ?_, fun k => ?_, fun i k p hmem => ?_⟩
  · dsimp only
    by_cases hk : k = j
    · subst hk
      rw [hself, drawn_append, List.length_append, hR.length, ← hdraws, Nat.add_comm]
    · rw [hother k hk, hdrawn k hk]
      exact hR.length k
  · dsimp only
    by_cases hk : k = j
    · subst hk
      rw [drawn_append] at hne ⊢
      cases hl : drawn k l.toList with
      | nil =>
          rw [hl, List.append_nil] at hne
          rw [List.append_nil, hsame hl]
          exact hR.card k hne
      | cons card cards =>
          obtain ⟨-, hone, hcard⟩ := hdrew card (by rw [hl]; simp)
          rw [hone] at hl
          rw [← hl, List.getLast?_concat, hcard]
    · rw [hdrawn k hk] at hne ⊢
      rw [hrows k hk]
      exact hR.card k hne
  · by_cases hk : k = j
    · subst hk
      rw [drawn_append] at hc
      rcases List.mem_append.mp hc with hc | hc
      · exact hR.pos k c hc
      · exact (hdrew c hc).1
    · rw [hdrawn k hk] at hc
      exact hR.pos k c hc
  · rw [hpoints]
    exact hR.later i k hi
  · rw [hpoints]
    exact hR.before hb k
  · simp only [hpoints]
    exact hR.sum i cur (hround i cur hmem)
  · have hdue : ∀ q : Player, q.due k (es ++ l.toList) = q.due k es := fun q => by
      rw [Player.due, hpoints, Player.due]
    dsimp only
    rw [hdue]
    by_cases hk : k = j
    · subst hk
      have hlast := hR.last k
      rw [hself, hscore]
      have hreading := fun h => hs.reading (j := k) h
      generalize s.client k = q at h hlast hreading
      cases h with
      | readScore => simp [Player.due, Stage.hasRead]
      | postDone i cards last =>
          -- the server has not begun with the next round
          obtain ⟨hi, -⟩ := hreading rfl
          change i = s.server.round at hi
          have hnone := hR.later (i + 1) k (by omega)
          simpa [Player.due, Stage.hasRead, hnone] using hlast
      | _ => exact hlast
    · rw [hother k hk, hrows k hk]
      exact hR.last k
  · dsimp only
    rw [hpoints]
    rcases List.mem_append.mp hmem with hmem | hmem
    · exact hR.shown i k p hmem
    · have hlast := hR.last j
      have hreading := fun h => hs.reading (j := j) h
      generalize s.client j = q at h hlast hreading
      cases h with
      | readScore i' cards last =>
          simp only [Option.toList_some, List.mem_singleton, Event.scored.injEq] at hmem
          obtain ⟨rfl, rfl, rfl⟩ := hmem
          change last + (points i k es : Int) = _ at hlast
          exact ⟨by omega, .inr (hreading rfl)⟩
      | _ => simp at hmem

/-- A step of the server that adds no points, in one round. -/
theorem Record.serve (hR : Record es s) {q : Server n} {fs : List (Event n)}
    (hround : q.round = s.server.round) (hrows : d'.playerData = s.data.playerData)
    (hdrawn : ∀ j, drawn j fs = []) (hpoints : ∀ i j, points i j fs = 0)
    (hscored : ∀ i j p, .scored i j p ∉ fs)
    (hannounced : ∀ cur, s.server.announced = some cur → q.announced = some cur)
    (hrounds : ∀ i cur, .round i cur ∈ fs →
      i = q.round ∧ q.announced = some cur ∧ s.server.awarding = false)
    (hawarding : q.awarding = false → s.server.awarding = false)
    (hpublished : s.server.published = true → q.published = true)
    (htallied : Tallied (es ++ fs) s.data.playerData q) :
    Record (es ++ fs) ⟨d', q, s.client⟩ := by
  have hpoints : ∀ i k, points i k (es ++ fs) = points i k es := fun i k => by
    rw [points_append, hpoints, Nat.add_zero]
  have hdrawn : ∀ k, drawn k (es ++ fs) = drawn k es := fun k => by
    rw [drawn_append, hdrawn, List.append_nil]
  refine ⟨fun k => ?_, fun k => ?_, fun k => ?_, fun i k hi => ?_, fun hb k => ?_, ?_,
    fun i cur hmem => ?_, fun i cur hmem => ?_, fun k => ?_, fun i k p hmem => ?_⟩
  · rw [hdrawn]
    exact hR.length k
  · rw [hdrawn]
    dsimp only
    rw [hrows]
    exact hR.card k
  · rw [hdrawn]
    exact hR.pos k
  · rw [hpoints]
    exact hR.later i k (hround ▸ hi)
  · rw [hpoints]
    dsimp only
    rw [hround]
    exact hR.before (hawarding hb) k
  · dsimp only
    rw [hrows]
    exact htallied
  · dsimp only
    rcases List.mem_append.mp hmem with hmem | hmem
    · rw [hround]
      exact (hR.rounds i cur hmem).imp_right fun h => ⟨h.1, hannounced cur h.2⟩
    · exact .inr ⟨(hrounds i cur hmem).1, (hrounds i cur hmem).2.1⟩
  · simp only [hpoints]
    rcases List.mem_append.mp hmem with hmem | hmem
    · exact hR.sum i cur hmem
    · -- no points have been added yet
      obtain ⟨rfl, -, hbefore⟩ := hrounds i cur hmem
      rw [hround, Finset.sum_eq_zero fun k _ => hR.before hbefore k]
      exact Nat.zero_le cur
  · rw [show Player.due k (es ++ fs) = Player.due k es from funext fun q => by
      rw [Player.due, hpoints, Player.due]]
    dsimp only
    rw [hrows]
    exact hR.last k
  · rw [hpoints]
    dsimp only
    rw [hround]
    obtain ⟨hp, hi⟩ := hR.shown i k p ((List.mem_append.mp hmem).resolve_right (hscored i k p))
    exact ⟨hp, hi.imp_right fun h => ⟨h.1, hpublished h.2⟩⟩

/-- A step of the server that shows nothing. -/
theorem Record.quiet (hR : Record es s) {q : Server n} (hround : q.round = s.server.round)
    (hrows : d'.playerData = s.data.playerData)
    (hannounced : ∀ cur, s.server.announced = some cur → q.announced = some cur)
    (hawarding : q.awarding = false → s.server.awarding = false)
    (hpublished : s.server.published = true → q.published = true)
    (htallied : Tallied es s.data.playerData q) : Record (es ++ []) ⟨d', q, s.client⟩ :=
  hR.serve hround hrows (fun _ => rfl) (fun _ _ => rfl) (fun _ _ _ => List.not_mem_nil) hannounced
    (fun _ _ h => absurd h List.not_mem_nil) hawarding hpublished (by rwa [List.append_nil])

/-- While the server scores, who plays has laid its card of the round. -/
theorem Sound.laid (hs : Sound m s) (hR : Record es s)
    (hready : s.server.counts .ready = crowd (inRound s)) (hresults : s.server.counts .results = 0)
    (hj : playing s.data.playerData j = true) :
    (s.client j).round = s.server.round ∧ (s.client j).stage = .waitResults ∧
      (drawn j es).length = s.server.round ∧
      (drawn j es).getLast? = some (s.data.playerData j).card ∧ 0 < (s.data.playerData j).card := by
  have hflag := hs.flag j
  rw [of_decide_eq_true hj, (hs.counted_eq hresults j).2] at hflag
  have hhere : inRound s j = true := by simpa using hflag
  have hlow := hs.gates.all_taken (g := .ready) rfl hready hhere
  have hhigh := hs.gates.results_eq_zero hresults j
  obtain ⟨hround, hgates⟩ := hs.gates_eq (k := 2) (by decide) hhere (le_antisymm hhigh hlow)
  have hstage : (s.client j).stage = .waitResults := by
    generalize (s.client j).stage = stage at hgates
    cases stage <;> first | rfl | cases hgates
  have hlength := hR.length j
  have hpos := hs.round_pos
  rw [Player.draws, hstage, hround] at hlength
  have hlength : (drawn j es).length = s.server.round := by
    rw [hlength]
    exact Nat.sub_add_cancel hpos
  have hne : drawn j es ≠ [] := fun h => by
    rw [h, List.length_nil] at hlength
    omega
  have hlast := hR.card j hne
  exact ⟨hround, hstage, hlength, hlast, hR.pos j _ (List.mem_of_getLast? hlast)⟩

/-- The server adds points to a score. -/
theorem Record.award {c : Fin n → Player} {i cur : Nat} {rest : List (Fin n)} {best : Int × Nat}
    (hs : Sound m ⟨d, .award i cur (j :: rest) best, c⟩)
    (hR : Record es ⟨d, .award i cur (j :: rest) best, c⟩)
    (hj : (d.playerData j).active = .playing ∧ (d.playerData j).card = best.1) :
    Record (es ++ [.awarded i j (cur / best.2)])
      ⟨d.row j { d.playerData j with
        score := (d.playerData j).score + ((cur / best.2 : Nat) : Int) },
        .award i cur rest best, c⟩ := by
  obtain ⟨hbest, paid, hpaid, hpoints⟩ := hR.tallied
  have hcur : cur = crowd (inRound ⟨d, .award i cur (j :: rest) best, c⟩) := hs.current cur rfl
  obtain ⟨hround, hstage, -⟩ := hs.laid hR (j := j) hcur rfl (decide_eq_true hj.1)
  have hnodup : (paid ++ j :: rest).Nodup := hpaid ▸ List.nodup_finRange n
  have hfresh : j ∉ paid := fun hmem =>
    (List.nodup_append.mp hnodup).2.2 j hmem j (List.mem_cons_self ..) rfl
  have hprize : prize d.playerData cur best j = cur / best.2 := by
    rw [prize_eq hbest, if_pos hj]
  have hnew : ∀ i' k, points i' k (es ++ [.awarded i j (cur / best.2)]) =
      points i' k es + if i = i' ∧ j = k then cur / best.2 else 0 := fun i' k => by
    rw [points_append]
    rfl
  have hsame : ∀ i' k, i' ≠ i →
      points i' k (es ++ [.awarded i j (cur / best.2)]) = points i' k es := fun i' k hi => by
    rw [hnew, if_neg fun h => hi h.1.symm, Nat.add_zero]
  have hother : ∀ i' k, k ≠ j →
      points i' k (es ++ [.awarded i j (cur / best.2)]) = points i' k es := fun i' k hk => by
    rw [hnew, if_neg fun h => hk h.2.symm, Nat.add_zero]
  have hnow : ∀ k, points i k (es ++ [.awarded i j (cur / best.2)]) =
      if k ∈ paid ++ [j] then prize d.playerData cur best k else 0 := by
    intro k
    by_cases hk : k = j
    · subst hk
      rw [hnew, hpoints, if_neg hfresh, if_pos ⟨rfl, rfl⟩, if_pos (by simp), hprize, Nat.zero_add]
    · rw [hother i k hk, hpoints]
      simp [hk]
  have hdrawn : ∀ k, drawn k (es ++ [.awarded i j (cur / best.2)]) = drawn k es := fun k => by
    rw [drawn_append]
    exact List.append_nil _
  have hold : ∀ {e : Event n}, e ∈ es ++ [.awarded i j (cur / best.2)] →
      e ≠ .awarded i j (cur / best.2) → e ∈ es := fun hmem hne =>
    (List.mem_append.mp hmem).resolve_right fun h => hne (List.mem_singleton.mp h)
  refine ⟨fun k => ?_, fun k hne => ?_, fun k => ?_, fun i' k hi => ?_, (by rintro ⟨⟩), ?_,
    fun i' cur' hmem => hR.rounds i' cur' (hold hmem (by simp)), fun i' cur' hmem => ?_, fun k => ?_,
    fun i' k p hmem => ?_⟩
  · rw [hdrawn]
    exact hR.length k
  · rw [hdrawn] at hne ⊢
    rw [hR.card k hne]
    by_cases hk : k = j
    · subst hk
      simp [Data.row]
    · simp [Data.row, hk]
  · rw [hdrawn]
    exact hR.pos k
  · rw [hsame i' k (Nat.ne_of_gt hi)]
    exact hR.later i' k hi
  · refine ⟨highestOf_score.mpr hbest, paid ++ [j], by simpa using hpaid, fun k => ?_⟩
    rw [hnow, Data.row, prize_score]
  · rcases hR.rounds i' cur' (hold hmem (by simp)) with hi | ⟨hi, hcur'⟩
    · simp only [hsame i' _ (Nat.ne_of_lt hi)]
      exact hR.sum i' cur' (hold hmem (by simp))
    · obtain rfl : i' = i := hi
      obtain rfl : cur = cur' := Option.some.inj hcur'
      calc ∑ k, points i' k (es ++ [.awarded i' j (cur / best.2)])
          ≤ ∑ k, prize d.playerData cur best k := Finset.sum_le_sum fun k _ => by
            rw [hnow]
            split
            · exact le_rfl
            · exact Nat.zero_le _
        _ ≤ cur := sum_prize_le ..
  · have hlast := hR.last k
    by_cases hk : k = j
    · subst hk
      change (c k).round = i at hround
      change (c k).stage = .waitResults at hstage
      simp only [Player.due, hstage, hround, Stage.hasRead, hnew, Data.row, Function.update_self,
        and_self, if_true, Bool.false_eq_true, if_false] at hlast ⊢
      push_cast
      omega
    · have hdue : ∀ q : Player,
          q.due k (es ++ [.awarded i j (cur / best.2)]) = q.due k es := fun q => by
        rw [Player.due, hother _ k hk, Player.due]
      rw [hdue]
      simpa [Data.row, hk] using hlast
  · obtain ⟨hp, hi | ⟨-, hi⟩⟩ := hR.shown i' k p (hold hmem (by simp))
    · rw [hsame i' k (Nat.ne_of_lt hi)]
      exact ⟨hp, .inl hi⟩
    · cases hi

/-- The next round begins. -/
theorem Record.nextRound {c : Fin n → Player} {i cur k : Nat}
    (hR : Record es ⟨d, .done i cur k, c⟩) : Record es ⟨d, .lock (i + 1), c⟩ where
  length := hR.length
  card := hR.card
  pos := hR.pos
  later i' k hi := hR.later i' k (Nat.lt_of_succ_lt hi)
  before _ j := hR.later (i + 1) j (Nat.lt_succ_self i)
  tallied := trivial
  rounds i' cur' hmem := .inl <| by
    rcases hR.rounds i' cur' hmem with hi | ⟨rfl, -⟩
    · exact Nat.lt_succ_of_lt hi
    · exact Nat.lt_succ_self _
  sum := hR.sum
  last := hR.last
  shown i' k p hmem := by
    obtain ⟨hp, hi⟩ := hR.shown i' k p hmem
    refine ⟨hp, .inl ?_⟩
    rcases hi with hi | ⟨rfl, -⟩
    · exact Nat.lt_succ_of_lt hi
    · exact Nat.lt_succ_self _

/-- **A step of the server.** -/
theorem Record.server (hs : Sound m s) (hR : Record es s) {rand : Nat} {q : Server n}
    (h : gameServerWork m s.server s.data rand = some (l, d', q)) :
    Record (es ++ l.toList) ⟨d', q, s.client⟩ := by
  obtain ⟨d, q₀, c⟩ := s
  cases q₀ with
  | lock i =>
      simp only [gameServerWork] at h
      split at h
      · obtain ⟨e, he, heq⟩ := Option.map_eq_some_iff.mp h
        obtain ⟨-, rfl⟩ := Data.lock_eq_some he
        cases heq
        exact hR.quiet rfl rfl (by rintro _ ⟨⟩) id (by rintro ⟨⟩) trivial
      · cases h
        exact hR.quiet rfl rfl (by rintro _ ⟨⟩) id (by rintro ⟨⟩) trivial
  | readActive i =>
      cases h
      exact hR.quiet rfl rfl (by rintro _ ⟨⟩) id (by rintro ⟨⟩) trivial
  | unlock i cur =>
      simp only [gameServerWork] at h
      split at h
      · cases h
        exact hR.quiet rfl rfl (by rintro _ ⟨⟩) id (by rintro ⟨⟩) trivial
      · cases h
        refine hR.serve rfl rfl (fun _ => rfl) (fun _ _ => rfl) (fun _ _ _ => by simp)
          (by rintro _ ⟨⟩) (fun i' cur' hmem => ?_) id (by rintro ⟨⟩) trivial
        obtain ⟨rfl, rfl⟩ := Event.round.inj (List.mem_singleton.mp hmem)
        exact ⟨rfl, rfl, rfl⟩
  | start i cur k =>
      simp only [gameServerWork] at h
      split at h <;>
      · cases h
        exact hR.quiet rfl rfl (fun _ => id) id (by rintro ⟨⟩) trivial
  | cards i cur k =>
      simp only [gameServerWork] at h
      split at h
      · obtain ⟨e, he, heq⟩ := Option.map_eq_some_iff.mp h
        obtain ⟨v, hv, rfl⟩ := Data.wait_eq_some he
        cases heq
        exact hR.quiet rfl rfl (fun _ => id) id (by rintro ⟨⟩) trivial
      · cases h
        exact hR.quiet rfl rfl (fun _ => id) id (by rintro ⟨⟩) ⟨[], rfl, highest_nil _⟩
  | scan i cur rest best =>
      obtain ⟨seen, hseen, hbest⟩ := hR.tallied
      cases rest with
      | cons j rest =>
          cases h
          have hpos := fun hj => (hs.laid hR (hs.current cur rfl) rfl
            (decide_eq_true (p := (d.playerData j).active = .playing) hj)).2.2.2.2
          refine hR.serve rfl rfl (fun k => ?_) (fun i' k => ?_) (fun i' k p => ?_) (fun _ => id)
            (fun i' cur' => ?_) id (by rintro ⟨⟩)
            ⟨seen ++ [j], by simpa using hseen, hbest.look hpos⟩ <;>
          · split <;> simp [drawn, points, Event.drawnBy?, Event.pointsTo]
      | nil =>
          rw [List.append_nil] at hseen
          subst hseen
          simp only [gameServerWork] at h
          split at h
          · cases h
            refine hR.quiet rfl rfl (fun _ => id) (by rintro ⟨⟩) (by rintro ⟨⟩)
              ⟨hbest, [], rfl, fun j => ?_⟩
            rw [if_neg List.not_mem_nil]
            exact hR.before rfl j
          · cases h
            -- nobody plays
            refine hR.quiet rfl rfl (fun _ => id) (by rintro ⟨⟩) (by rintro ⟨⟩)
              ⟨best, hbest, fun j => ?_⟩
            have hcount : best.2 = 0 := by omega
            rw [prize_eq hbest, hcount, Nat.div_zero, ite_self]
            exact hR.before rfl j
  | award i cur rest best =>
      cases rest with
      | cons j rest =>
          simp only [gameServerWork] at h
          split at h
          · cases h
            exact hR.award hs ‹_›
          · cases h
            obtain ⟨hbest, paid, hpaid, hpoints⟩ := hR.tallied
            refine hR.quiet rfl rfl (fun _ => id) id (by rintro ⟨⟩)
              ⟨hbest, paid ++ [j], by simpa using hpaid, fun k => ?_⟩
            rw [hpoints]
            by_cases hk : k = j
            · subst hk
              have hnone : prize d'.playerData cur best k = 0 := by
                rw [prize_eq hbest]
                exact if_neg ‹_›
              rw [hnone, ite_self, ite_self]
            · simp [hk]
      | nil =>
          cases h
          obtain ⟨hbest, paid, hpaid, hpoints⟩ := hR.tallied
          rw [List.append_nil] at hpaid
          subst hpaid
          refine hR.quiet rfl rfl (fun _ => id) (by rintro ⟨⟩) (by rintro ⟨⟩)
            ⟨best, hbest, fun j => ?_⟩
          rw [hpoints, if_pos (List.mem_finRange j)]
  | results i cur k =>
      simp only [gameServerWork] at h
      split at h <;>
      · cases h
        exact hR.quiet rfl rfl (fun _ => id) (by rintro ⟨⟩) (fun _ => rfl) trivial
  | done i cur k =>
      simp only [gameServerWork] at h
      split at h
      · obtain ⟨e, he, heq⟩ := Option.map_eq_some_iff.mp h
        obtain ⟨v, hv, rfl⟩ := Data.wait_eq_some he
        cases heq
        exact hR.quiet rfl rfl (fun _ => id) (by rintro ⟨⟩) (fun _ => rfl) trivial
      · cases h
        simpa using hR.nextRound
  | ended i => cases h

/-- **The record of a game.** -/
theorem record {tr : List (Move (State n) (Option (Event n)))} (r : Run (Step m) (start n m) tr s) :
    Record (seen tr) s := by
  have h := traced (J := fun es s => Sound m s ∧ Record es s) (fun {es l s t} hJ h => by
    refine ⟨hJ.1.step h, ?_⟩
    cases h with
    | server rand l d q h => exact hJ.2.server hJ.1 h
    | client j rand l d q h => exact hJ.2.client hJ.1 (playerWork_turn h)) r
    ⟨sound_start, record_start⟩
  exact h.2

/-! ### The law of the game -/

/-- The rounds that a player has entered. -/
def Player.entered (q : Player) : Nat :=
  if q.stage = .waitRound ∨ q.stage = .finished then q.round - 1 else q.round

/-- The rounds that the server has started. -/
def Server.started : Server n → Nat
  | .lock i | .readActive i | .unlock i _ | .ended i => i - 1
  | .start i _ _ | .cards i _ _ | .scan i _ _ _ | .award i _ _ _ | .results i _ _ | .done i _ _ => i

theorem Stage.gates_pos {stage : Stage} (h : ¬ (stage = .waitRound ∨ stage = .finished)) :
    0 < stage.gates := by
  revert h
  cases stage <;> decide

/-- No player enters a round before the server starts it. -/
theorem Sound.entered_le (hs : Sound m s) (j : Fin n) :
    (s.client j).entered ≤ s.server.started := by
  have hle := hs.gates.time_le j
  have hround := hs.round_pos
  have hstarted : s.server.started = s.server.round ∨
      (∀ g, s.server.counts g = 0) ∧ s.server.started = s.server.round - 1 := by
    generalize s.server = q
    cases q with
    | lock | readActive | unlock | ended => exact .inr ⟨fun g => by cases g <;> rfl, rfl⟩
    | _ => exact .inl rfl
  rw [Player.entered]
  simp only [Player.time] at hle
  rcases hstarted with hstarted | ⟨hzero, hstarted⟩
  · rw [hstarted]
    split
    · omega
    · have hgates := Stage.gates_pos ‹_›
      omega
  · have htime := (hs.gates.unstarted hzero).2 j
    rw [hstarted]
    simp only [Player.time] at htime
    split
    · omega
    · have hgates := Stage.gates_pos ‹_›
      omega

/-- What holds when the server is about to start a round. -/
theorem Sound.roundStart {i : Nat} {c : Fin n → Player} (hs : Sound m ⟨d, .lock i, c⟩)
    (hR : Record es ⟨d, .lock i, c⟩) :
    (∀ g, d.sem g = 0) ∧ d.activePlayers = tally id (playing d.playerData) ∧
      ∀ j, playing d.playerData j = true → (drawn j es).length = i - 1 := by
  obtain ⟨hsem, htime⟩ := hs.gates.unstarted fun g => congrFun (Server.counts_lock i) g
  have hplaying : ∀ j, playing d.playerData j = (c j).stage.counted := by
    intro j
    have hflag := hs.flag j
    obtain ⟨hcounted, hresigned⟩ := hs.counted_eq rfl j
    dsimp only at hflag hcounted hresigned
    rw [hresigned, ← hcounted] at hflag
    rw [playing, hcounted]
    cases hactive : (d.playerData j).active <;> simp_all
  refine ⟨hsem, ?_, fun j hj => ?_⟩
  · rw [show playing d.playerData = fun j => (c j).stage.counted from funext hplaying]
    exact hs.active
  · have hlength := hR.length j
    have hhere : i ≤ (c j).round := of_decide_eq_true <| by
      rw [hplaying, (hs.counted_eq rfl j).1] at hj
      exact hj
    have hle : 4 * ((c j).round - 1) + (c j).stage.gates ≤ 4 * (i - 1) := htime j
    rw [hlength, Player.draws]
    have hnone : (c j).stage.hasDrawn = false := by
      have hgates : (c j).stage.gates = 0 := by omega
      generalize (c j).stage = stage at hgates
      cases stage <;> first | rfl | cases hgates
    dsimp only
    rw [hnone, Bool.toNat_false]
    omega

/-- **The game with semaphores**, for any number of players and rounds, whoever resigns when, and
however the steps are interleaved.  At the start of a round the semaphores are 0, the counter is
that of those who play, and they have drawn a card in each round before; nobody enters a round
before the server starts it; who plays has laid its card of the round when the server scores; who
reads its score does so after the server has updated it; the points go to those who play and have
the highest card, and are no more than there were players; and there is no deadlock. -/
theorem game_law {tr : List (Move (State n) (Option (Event n)))}
    (r : Run (Step m) (start n m) tr s) :
    (∀ i, s.server = .lock i → (∀ g, s.data.sem g = 0) ∧
      s.data.activePlayers = tally id (playing s.data.playerData) ∧
      ∀ j, playing s.data.playerData j = true → (drawn j (seen tr)).length = i - 1) ∧
    (∀ j, (s.client j).entered ≤ s.server.started ∧
      (drawn j (seen tr)).length ≤ (s.client j).entered) ∧
    (∀ i cur rest best, s.server = .scan i cur rest best ∨ s.server = .award i cur rest best →
      cur = tally id (playing s.data.playerData) ∧
      ∀ j, playing s.data.playerData j = true → (drawn j (seen tr)).length = i ∧
        (drawn j (seen tr)).getLast? = some (s.data.playerData j).card) ∧
    (∀ j, (s.client j).stage = .readScore →
      s.server.round = (s.client j).round ∧ s.server.published = true) ∧
    (∀ i j (p : Int), .scored i j p ∈ seen tr → p = points i j (seen tr)) ∧
    (∀ i cur, s.server = .results i cur 0 → ∃ best : Int × Nat,
      (∀ j, playing s.data.playerData j = true → (s.data.playerData j).card ≤ best.1) ∧
      ((∃ j, playing s.data.playerData j = true) → ∃ j, holds s.data.playerData best.1 j = true) ∧
      ∀ j, points i j (seen tr) = prize s.data.playerData cur best j) ∧
    (∀ i cur, .round i cur ∈ seen tr → ∑ j, points i j (seen tr) ≤ cur) ∧
    (Live (gameServerWork m) (playerWork m) s ∨ (∃ i, s.server = .ended i) ∧
      ∀ j, (s.client j).stage = .left ∨ (s.client j).stage = .finished) := by
  have hs := sound r
  have hR := record r
  refine ⟨fun i hi => ?_, fun j => ⟨hs.entered_le j, ?_⟩, fun i cur rest best hq => ?_,
    fun j hj => ?_, fun i j p hp => (hR.shown i j p hp).1, fun i cur hq => ?_, hR.sum, hs.live⟩
  · obtain ⟨d, q, c⟩ := s
    obtain rfl : q = .lock i := hi
    exact hs.roundStart hR
  · rw [hR.length, Player.draws, Player.entered]
    have hpos := (hs.valid j).round_pos
    generalize s.client j = q at hpos
    obtain ⟨stage, i, cards, last⟩ := q
    cases stage <;> simp [Stage.hasDrawn] at hpos ⊢ <;> omega
  · have hready : s.server.counts .ready = crowd (inRound s) := by
      rcases hq with hq | hq <;>
      · rw [hq]
        exact hs.current cur (by rw [hq]; rfl)
    have hresults : s.server.counts .results = 0 := by rcases hq with hq | hq <;> rw [hq] <;> rfl
    have hround : s.server.round = i := by rcases hq with hq | hq <;> rw [hq] <;> rfl
    have hcur : cur = crowd (inRound s) := by
      rcases hq with hq | hq <;> exact hs.current cur (by rw [hq]; rfl)
    refine ⟨?_, fun j hj => ?_⟩
    · rw [hcur, crowd]
      congr 1
      funext j
      have hflag := hs.flag j
      rw [(hs.counted_eq hresults j).2] at hflag
      rw [playing]
      cases hactive : (s.data.playerData j).active <;> simp_all
    · obtain ⟨-, -, hlength, hlast, -⟩ := hs.laid hR hready hresults hj
      exact ⟨hround ▸ hlength, hlast⟩
  · obtain ⟨hround, hpub⟩ := hs.reading (j := j) (by rw [hj]; rfl)
    exact ⟨hround.symm, hpub⟩
  · have htallied := hR.tallied
    rw [hq] at htallied
    obtain ⟨best, hbest, hpoints⟩ := htallied
    obtain ⟨hupper, -, hmem⟩ := hbest.spec
    refine ⟨best, hupper, fun hplays => ?_, hpoints⟩
    obtain ⟨⟨j, hj, hcard⟩, -⟩ := hmem hplays
    exact ⟨j, holds_iff.mpr ⟨of_decide_eq_true hj, hcard⟩⟩

/-! ### Two rounds -/

/-- Two players for two rounds, in turns; the first has the lower card and resigns. -/
def twoRounds : List (Option (Fin 2) × Nat) :=
  (List.replicate 45 [(none, 0), (some 0, 0), (some 1, 1)]).flatten

theorem twoRounds_run : ∃ (tr : List (Move (State 2) (Option (Event 2)))) (s : State 2),
    Run (Step 2) (start 2 2) tr s ∧ s.server = .ended 3 ∧
      seen tr = [.round 1 2, .drew 0 1, .drew 1 2, .saw 1 0 1, .saw 1 1 2, .awarded 1 1 2,
        .scored 1 0 0, .scored 1 1 2, .round 2 1, .drew 1 1, .saw 2 1 1, .awarded 2 1 1,
        .scored 2 1 1] := by
  obtain ⟨tr, r, hseen⟩ : ∃ tr, Run (Step 2) (start 2 2) tr
      (play (gameServerWork 2) (playerWork 2) (start 2 2) twoRounds).2 ∧
      seen tr = (play (gameServerWork 2) (playerWork 2) (start 2 2) twoRounds).1 :=
    play_run twoRounds
  exact ⟨tr, _, r, by decide +kernel, hseen.trans (by decide +kernel)⟩

theorem game_law_twoRounds : ∃ (tr : List (Move (State 2) (Option (Event 2)))) (s : State 2),
    s.server = .ended 3 ∧ ∑ j, points 1 j (seen tr) ≤ 2 ∧ points 1 1 (seen tr) = 2 ∧
      ∀ j, (drawn j (seen tr)).length ≤ (s.client j).entered := by
  obtain ⟨tr, s, r, hend, hseen⟩ := twoRounds_run
  obtain ⟨-, hentered, -, -, hscored, -, hsum, -⟩ := game_law r
  refine ⟨tr, s, hend, hsum 1 2 (by simp [hseen]), ?_, fun j => (hentered j).2⟩
  have h := hscored 1 1 2 (by simp [hseen])
  omega

end Sop2.Cards.Semaphores
