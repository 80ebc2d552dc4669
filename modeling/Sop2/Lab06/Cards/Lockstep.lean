import Sop2.Lab06.Cards.Semaphores

/-!
# Lab06 — Cards — lockstep

The invariant of the game with semaphores: how many players have passed which semaphore, who still
counts as active, and who holds the mutex.

* `sound`: it holds in every state of a game.
* `Sound.live`: so somebody can always go on, until the server has ended and all players have left.
-/

namespace Sop2.Cards.Semaphores
open Support Support.Shared

variable {n m : Nat} {j : Fin n} {q q' : Player} {d d' : Data n} {l : Option (Event n)}

/-! ### The invariant -/

/-- Who is in the section of the mutex. -/
def holding (s : State n) : Option (Fin n) → Bool
  | none => s.server.holding
  | some j => (s.client j).stage.holding

/-- What holds in every state of a game. -/
structure Sound (m : Nat) (s : State n) : Prop where
  gates : Handshake (4 * (s.server.round - 1)) (inRound s) (fun j => (s.client j).time) s.data.sem
    s.server.counts
  current : ∀ cur, s.server.current = some cur → cur = crowd (inRound s)
  active : s.data.activePlayers = tally Stage.counted fun j => (s.client j).stage
  flag : ∀ j, (s.data.playerData j).active = .resigned ↔ (s.client j).stage.resigned = true
  mutex : ∀ p, s.data.mxActive = some p ↔ holding s p = true
  round_pos : 1 ≤ s.server.round
  round_le : s.server.round ≤ m ∨ s.server = .lock (m + 1) ∨ s.server = .ended (m + 1)
  valid : ∀ j, (s.client j).Valid m
  /-- Who is behind has left. -/
  gone : ∀ j, (s.client j).round < s.server.round → (s.client j).stage = .left
  ended : ∀ i, s.server = .ended i → i = m + 1 ∨ crowd (inRound s) = 0

theorem sound_start : Sound m (start n m) where
  gates := by
    rw [show (start n m).server.counts = fun _ => 0 from Server.counts_lock 1]
    exact Handshake.begin (fun _ => rfl) (fun _ => Nat.zero_le _) fun _ _ => Nat.zero_le _
  current := nofun
  active := by
    rw [(tally_eq_card_iff _).mpr fun _ => rfl, Fintype.card_fin]
    rfl
  flag _ := by simp [start, PlayerData.zero, Stage.resigned]
  mutex p := by cases p <;> simp [start, holding, Server.holding, Stage.holding]
  round_pos := le_rfl
  round_le := by
    by_cases hm : m = 0
    · subst hm; exact .inr (.inl rfl)
    · exact .inl (Nat.one_le_iff_ne_zero.mpr hm)
  valid _ := Player.valid_start
  gone _ h := absurd h (lt_irrefl 1)
  ended := nofun

variable {s t : State n}

/-- The server plays, if it is neither at the lock at the head of its loop nor at the end. -/
theorem Sound.plays (hs : Sound m s) (hlock : ∀ i, s.server ≠ .lock i)
    (hended : ∀ i, s.server ≠ .ended i) : s.server.round ≤ m := by
  refine hs.round_le.resolve_right ?_
  rintro (h | h)
  · exact hlock _ h
  · exact hended _ h

/-- Who can still move is in the round. -/
theorem Sound.round_le_of_ne_left (hs : Sound m s) (h : (s.client j).stage ≠ .left) :
    s.server.round ≤ (s.client j).round :=
  not_lt.mp fun hlt => h (hs.gone j hlt)

/-- A table of the players, when one of them moves. -/
theorem apply_update {α β γ : Type*} [DecidableEq α] (f : β → γ) (c : α → β) (a : α) (b : β) :
    (fun x => f (Function.update c a b x)) = Function.update (fun x => f (c x)) a (f b) :=
  Function.comp_update f c a b

/-- **A step of a player.** -/
theorem Sound.client (hs : Sound m s) (h : Turn m j s.data (s.client j) l d' q') :
    Sound m ⟨d', s.server, Function.update s.client j q'⟩ := by
  have hvalid := hs.valid j
  have hge := hs.round_le_of_ne_left h.not_left
  have hself : Function.update s.client j q' j = q' := Function.update_self ..
  have hother : ∀ k ≠ j, Function.update s.client j q' k = s.client k :=
    fun k hk => Function.update_of_ne hk ..
  have htimes := apply_update Player.time s.client j q'
  have hstages := apply_update Player.stage s.client j q'
  generalize Function.update s.client j q' = c at hself hother htimes hstages ⊢
  have hhere : inRound s j = true := decide_eq_true hge
  have hsame : inRound ⟨d', s.server, c⟩ = inRound s := by
    funext k
    by_cases hk : k = j
    · subst hk
      rw [hhere]
      refine decide_eq_true ?_
      dsimp only
      rw [hself]
      exact hge.trans h.round_le
    · exact congrArg (fun q => decide (s.server.round ≤ q.round)) (hother k hk)
  obtain ⟨hrows, -, hflag⟩ := h.rows
  refine ⟨?_, ?_, ?_, fun k => ?_, fun p => ?_, hs.round_pos, hs.round_le, fun k => ?_, fun k => ?_,
    ?_⟩
  · rw [hsame]
    dsimp only
    rw [htimes]
    rcases h.passes hvalid.round_pos with ⟨g, v, htime, htime', hsem, hv⟩ | ⟨htime, hsem⟩
    · rw [htime', hsem]
      refine hs.gates.client ?_ hhere hv
      -- a player that is a round ahead would have to pass the first semaphore again
      have hle := hs.gates.time_le j
      have hpos := g.index_pos
      have hround := hs.round_pos
      rcases Nat.eq_or_lt_of_le hge with heq | hlt
      · rw [heq]
        exact htime
      · have hstart : g = .start := Gate.index_inj (show g.index = 1 by omega)
        subst hstart
        have hzero := (hs.gates.together (i := j) (by omega)).2.2
        change s.data.sem .start = v + 1 at hv
        omega
    · rw [htime, hsem, Function.update_eq_self j fun k => (s.client k).time]
      exact hs.gates
  · rw [hsame]
    exact hs.current
  · have hcounted := h.counted fun hc => by
      rw [hs.active]
      exact tally_pos _ hc
    have hupdate := tally_update Stage.counted (fun k => (s.client k).stage) j q'.stage
    have hactive := hs.active
    dsimp only at hupdate ⊢
    rw [hstages]
    omega
  · dsimp only
    by_cases hk : k = j
    · subst hk
      rw [hself]
      exact hflag (hs.flag k)
    · rw [hother k hk, hrows k hk]
      exact hs.flag k
  · have hp := hs.mutex p
    have hj : s.data.mxActive = some (some j) ↔ (s.client j).stage.holding = true :=
      hs.mutex (some j)
    by_cases hpj : p = some j
    · subst hpj
      change d'.mxActive = _ ↔ (c j).stage.holding = true
      rw [hself]
      rcases h.mutex with ⟨hd, hq⟩ | ⟨-, hd, hq⟩ | ⟨hd, -, hq⟩
      · rw [hd, hq]
        exact hj
      · simp [hd, hq]
      · simp [hd, hq]
    · have hsame : holding ⟨d', s.server, c⟩ p = holding s p := by
        cases p with
        | none => rfl
        | some k =>
            exact congrArg (fun q : Player => q.stage.holding)
              (hother k fun h => hpj (congrArg some h))
      rw [hsame]
      rcases h.mutex with ⟨hd, hq⟩ | ⟨hfree, hd, hq⟩ | ⟨hd, hq, -⟩
      · exact hd ▸ hp
      · rw [hfree] at hp
        simp only [reduceCtorEq, false_iff] at hp
        simp [hd, Ne.symm hpj, hp]
      · have howner := hj.mpr hq
        rw [howner] at hp
        simp only [Option.some.injEq] at hp
        simp [hd, ← hp, Ne.symm hpj]
  · dsimp only
    by_cases hk : k = j
    · subst hk
      rw [hself]
      exact hvalid.turn h
    · rw [hother k hk]
      exact hs.valid k
  · dsimp only
    by_cases hk : k = j
    · subst hk
      rw [hself]
      exact fun hlt => absurd (hge.trans h.round_le) (not_le.mpr hlt)
    · rw [hother k hk]
      exact hs.gone k
  · rw [hsame]
    exact hs.ended

/-- A step of the server in one round. -/
theorem Sound.serve (hs : Sound m s) {q : Server n} (hround : q.round = s.server.round)
    (hle : q.round ≤ m ∨ q = .ended (m + 1))
    (hgates : Handshake (4 * (s.server.round - 1)) (inRound s) (fun j => (s.client j).time) d'.sem
      q.counts)
    (hcurrent : ∀ cur, q.current = some cur → cur = crowd (inRound s))
    (hactive : d'.activePlayers = s.data.activePlayers)
    (hflag : ∀ j, (d'.playerData j).active = (s.data.playerData j).active)
    (hmutex : (d'.mxActive = s.data.mxActive ∧ q.holding = s.server.holding) ∨
      (s.data.mxActive = none ∧ d'.mxActive = some none ∧ q.holding = true) ∨
      (d'.mxActive = none ∧ s.server.holding = true ∧ q.holding = false))
    (hended : ∀ i, q = .ended i → i = m + 1 ∨ crowd (inRound s) = 0) :
    Sound m ⟨d', q, s.client⟩ := by
  have hsame : inRound ⟨d', q, s.client⟩ = inRound s :=
    funext fun j => congrArg (fun i => decide (i ≤ (s.client j).round)) hround
  refine ⟨?_, ?_, hactive.trans hs.active, fun j => ?_, fun p => ?_, hround ▸ hs.round_pos,
    hle.imp_right .inr, hs.valid, fun j hj => hs.gone j (hround ▸ hj), ?_⟩
  · rw [hsame]
    dsimp only
    rw [hround]
    exact hgates
  · rw [hsame]
    exact hcurrent
  · dsimp only
    rw [hflag j]
    exact hs.flag j
  · have hp := hs.mutex p
    have hnone : s.data.mxActive = some none ↔ s.server.holding = true := hs.mutex none
    cases p with
    | none =>
        change d'.mxActive = _ ↔ q.holding = true
        rcases hmutex with ⟨hd, hq⟩ | ⟨-, hd, hq⟩ | ⟨hd, -, hq⟩
        · rw [hd, hq]
          exact hnone
        · simp [hd, hq]
        · simp [hd, hq]
    | some j =>
        change d'.mxActive = _ ↔ (s.client j).stage.holding = true
        change _ ↔ (s.client j).stage.holding = true at hp
        rcases hmutex with ⟨hd, hq⟩ | ⟨hfree, hd, hq⟩ | ⟨hd, hq, -⟩
        · rw [hd]
          exact hp
        · rw [hfree] at hp
          rw [hd]
          simpa using hp
        · rw [hnone.mpr hq] at hp
          rw [hd]
          simpa using hp
  · rw [hsame]
    exact hended

/-- The server passes a semaphore. -/
theorem Sound.pass (hs : Sound m s) {g : Gate} {q : Server n} {v : Nat}
    (hround : q.round = s.server.round) (hm : q.round ≤ m)
    (hcounts : q.counts = Function.update s.server.counts g (s.server.counts g + 1))
    (hcurrent : q.current = s.server.current) (hholding : q.holding = s.server.holding)
    (hlt : s.server.counts g < crowd (inRound s))
    (hprev : ∀ g', g'.index < g.index → s.server.counts g' = crowd (inRound s))
    (hv : if g.byServer then v = s.data.sem g + 1 else s.data.sem g = v + 1)
    (hended : ∀ i, q ≠ .ended i) :
    Sound m ⟨{ s.data with sem := Function.update s.data.sem g v }, q, s.client⟩ :=
  hs.serve hround (.inl hm) (hcounts ▸ hs.gates.server hlt hprev hv) (hcurrent ▸ hs.current) rfl
    (fun _ => rfl) (.inl ⟨rfl, hholding⟩) fun i hi => absurd hi (hended i)

/-- Everybody that is active is in the round, while nobody has its results. -/
theorem Sound.counted_eq (hs : Sound m s) (hx : s.server.counts .results = 0) (j : Fin n) :
    (s.client j).stage.counted = inRound s j ∧ (s.client j).stage.resigned = !inRound s j := by
  have htime := hs.gates.results_eq_zero hx j
  by_cases hge : s.server.round ≤ (s.client j).round
  · have hgates : (s.client j).stage.gates ≤ 2 := by
      simp only [Player.time] at htime
      omega
    rw [inRound, decide_eq_true hge]
    generalize (s.client j).stage = stage at hgates ⊢
    cases stage <;> first | exact ⟨rfl, rfl⟩ | (revert hgates; decide)
  · rw [inRound, decide_eq_false hge, hs.gone j (not_le.mp hge)]
    exact ⟨rfl, rfl⟩

/-- The server goes on to the next round. -/
theorem Sound.nextRound {c : Fin n → Player} {i cur : Nat}
    (hs : Sound m ⟨d, .done i cur cur, c⟩) (hi : i ≤ m)
    (hcur : cur = crowd (inRound ⟨d, .done i cur cur, c⟩)) :
    Sound m ⟨d, .lock (i + 1), c⟩ := by
  obtain ⟨hall, -⟩ := hs.gates.finished (x := Server.counts (.done i cur cur)) hcur
  have hpos : 1 ≤ i := hs.round_pos
  have hT : 4 * (i + 1 - 1) = 4 * (i - 1) + 4 := by omega
  refine ⟨?_, nofun, hs.active, hs.flag, fun p => ?_, Nat.succ_pos i, ?_, hs.valid,
    fun j hj => ?_, nofun⟩
  · rw [show (Server.lock (i + 1) : Server n).counts = _ from Server.counts_lock _]
    change Handshake (4 * (i + 1 - 1)) _ _ _ _
    rw [hT]
    exact hs.gates.round hcur fun j hj =>
      decide_eq_true ((Nat.le_succ i).trans (of_decide_eq_true hj))
  · have hp := hs.mutex p
    cases p <;> exact hp
  · rcases Nat.lt_or_eq_of_le hi with hlt | rfl
    · exact .inl hlt
    · exact .inr (.inl rfl)
  · -- who was in the round has passed its last semaphore, and is a round ahead if it goes on
    change (c j).round < i + 1 at hj
    rcases Nat.lt_or_eq_of_le (Nat.le_of_lt_succ hj) with hlt | heq
    · exact hs.gone j hlt
    · have htime := hall j (decide_eq_true heq.ge)
      change 4 * ((c j).round - 1) + (c j).stage.gates = 4 * (i - 1) + 4 at htime
      have hgates : (c j).stage.gates = 4 := by
        rw [heq] at htime
        omega
      change (c j).stage = .left
      generalize (c j).stage = stage at hgates ⊢
      cases stage <;> first | rfl | cases hgates

/-- **A step of the server.** -/
theorem Sound.server (hs : Sound m s) {rand : Nat} {q : Server n}
    (h : gameServerWork m s.server s.data rand = some (l, d', q)) :
    Sound m ⟨d', q, s.client⟩ := by
  obtain ⟨d, q₀, c⟩ := s
  have hgates := hs.gates
  have hcurrent := hs.current
  have hle := hs.gates.le
  have hbound := hs.round_le
  cases q₀ with
  | lock i =>
      simp only [gameServerWork] at h
      split at h
      · obtain ⟨e, he, heq⟩ := Option.map_eq_some_iff.mp h
        obtain ⟨hfree, rfl⟩ := Data.lock_eq_some he
        cases heq
        exact hs.serve rfl (.inl ‹_›) (hgates.of_counts fun g => by cases g <;> rfl)
          (by rintro _ ⟨⟩) rfl (fun _ => rfl) (.inr (.inl ⟨hfree, rfl, rfl⟩)) (by simp)
      · cases h
        have hi : i = m + 1 := by
          rcases hbound with hi | hi | hi
          · exact absurd hi ‹_›
          · cases hi; rfl
          · cases hi
        subst hi
        exact hs.serve rfl (.inr rfl) (hgates.of_counts fun g => by cases g <;> rfl)
          (by rintro _ ⟨⟩) rfl (fun _ => rfl) (.inl ⟨rfl, rfl⟩) fun i hi => .inl (by cases hi; rfl)
  | readActive i =>
      cases h
      have hi : i ≤ m := hs.plays (by simp) (by simp)
      refine hs.serve rfl (.inl hi) (hgates.of_counts fun g => by cases g <;> rfl)
        (fun cur hcur => ?_) rfl (fun _ => rfl) (.inl ⟨rfl, rfl⟩) (by simp)
      obtain rfl := Option.some.inj hcur
      refine hs.active.trans ?_
      rw [crowd, tally, tally]
      congr 1
      refine Finset.filter_congr fun j _ => ?_
      rw [(hs.counted_eq rfl j).1, id]
  | unlock i cur =>
      have hi : i ≤ m := hs.plays (by simp) (by simp)
      simp only [gameServerWork] at h
      split at h
      · cases h
        refine hs.serve rfl (.inl hi) (hgates.of_counts fun g => by cases g <;> rfl)
          (by rintro _ ⟨⟩) rfl (fun _ => rfl) (.inr (.inr ⟨rfl, rfl, rfl⟩)) fun i hi => .inr ?_
        rw [← hcurrent cur rfl]
        assumption
      · cases h
        exact hs.serve rfl (.inl hi) (hgates.of_counts fun g => by cases g <;> rfl) hcurrent rfl
          (fun _ => rfl) (.inr (.inr ⟨rfl, rfl, rfl⟩)) (by simp)
  | start i cur k =>
      have hi : i ≤ m := hs.plays (by simp) (by simp)
      have hcur := hcurrent cur rfl
      simp only [gameServerWork] at h
      split at h
      · cases h
        exact hs.pass (g := .start) rfl hi (funext fun g => by cases g <;> rfl) rfl rfl
          (hcur ▸ ‹k < cur›) (fun g hg => by cases g <;> exact absurd hg (by decide)) rfl (by simp)
      · cases h
        obtain rfl : k = cur := le_antisymm (hcur ▸ hle .start) (not_lt.mp ‹_›)
        exact hs.serve rfl (.inl hi) (hgates.of_counts fun g => by cases g <;> rfl) hcurrent rfl
          (fun _ => rfl) (.inl ⟨rfl, rfl⟩) (by simp)
  | cards i cur k =>
      have hi : i ≤ m := hs.plays (by simp) (by simp)
      have hcur := hcurrent cur rfl
      simp only [gameServerWork] at h
      split at h
      · obtain ⟨e, he, heq⟩ := Option.map_eq_some_iff.mp h
        obtain ⟨v, hv, rfl⟩ := Data.wait_eq_some he
        cases heq
        exact hs.pass (g := .ready) rfl hi (funext fun g => by cases g <;> rfl) rfl rfl
          (hcur ▸ ‹k < cur›) (fun g hg => by
            cases g <;> first | exact hcur | exact absurd hg (by decide)) hv (by simp)
      · cases h
        obtain rfl : k = cur := le_antisymm (hcur ▸ hle .ready) (not_lt.mp ‹_›)
        exact hs.serve rfl (.inl hi) (hgates.of_counts fun g => by cases g <;> rfl) hcurrent rfl
          (fun _ => rfl) (.inl ⟨rfl, rfl⟩) (by simp)
  | scan i cur rest best =>
      have hi : i ≤ m := hs.plays (by simp) (by simp)
      cases rest with
      | cons j rest =>
          cases h
          exact hs.serve rfl (.inl hi) (hgates.of_counts fun g => by cases g <;> rfl) hcurrent rfl
            (fun _ => rfl) (.inl ⟨rfl, rfl⟩) (by simp)
      | nil =>
          simp only [gameServerWork] at h
          split at h
          all_goals
            cases h
            exact hs.serve rfl (.inl hi) (hgates.of_counts fun g => by cases g <;> rfl) hcurrent
              rfl (fun _ => rfl) (.inl ⟨rfl, rfl⟩) (by simp)
  | award i cur rest best =>
      have hi : i ≤ m := hs.plays (by simp) (by simp)
      cases rest with
      | cons j rest =>
          simp only [gameServerWork] at h
          split at h
          · cases h
            refine hs.serve rfl (.inl hi) (hgates.of_counts fun g => by cases g <;> rfl) hcurrent
              rfl (fun k => ?_) (.inl ⟨rfl, rfl⟩) (by simp)
            by_cases hk : k = j
            · subst hk
              simp [Data.row]
            · simp [Data.row, hk]
          · cases h
            exact hs.serve rfl (.inl hi) (hgates.of_counts fun g => by cases g <;> rfl) hcurrent
              rfl (fun _ => rfl) (.inl ⟨rfl, rfl⟩) (by simp)
      | nil =>
          cases h
          exact hs.serve rfl (.inl hi) (hgates.of_counts fun g => by cases g <;> rfl) hcurrent rfl
            (fun _ => rfl) (.inl ⟨rfl, rfl⟩) (by simp)
  | results i cur k =>
      have hi : i ≤ m := hs.plays (by simp) (by simp)
      have hcur := hcurrent cur rfl
      simp only [gameServerWork] at h
      split at h
      · cases h
        exact hs.pass (g := .results) rfl hi (funext fun g => by cases g <;> rfl) rfl rfl
          (hcur ▸ ‹k < cur›) (fun g hg => by
            cases g <;> first | exact hcur | exact absurd hg (by decide)) rfl (by simp)
      · cases h
        obtain rfl : k = cur := le_antisymm (hcur ▸ hle .results) (not_lt.mp ‹_›)
        exact hs.serve rfl (.inl hi) (hgates.of_counts fun g => by cases g <;> rfl) hcurrent rfl
          (fun _ => rfl) (.inl ⟨rfl, rfl⟩) (by simp)
  | done i cur k =>
      have hi : i ≤ m := hs.plays (by simp) (by simp)
      have hcur := hcurrent cur rfl
      simp only [gameServerWork] at h
      split at h
      · obtain ⟨e, he, heq⟩ := Option.map_eq_some_iff.mp h
        obtain ⟨v, hv, rfl⟩ := Data.wait_eq_some he
        cases heq
        exact hs.pass (g := .done) rfl hi (funext fun g => by cases g <;> rfl) rfl rfl
          (hcur ▸ ‹k < cur›) (fun g hg => by
            cases g <;> first | exact hcur | exact absurd hg (by decide)) hv (by simp)
      · cases h
        obtain rfl : k = cur := le_antisymm (hcur ▸ hle .done) (not_lt.mp ‹_›)
        exact hs.nextRound hi hcur
  | ended i => cases h

theorem Sound.step (hs : Sound m s) (h : Step m s l t) : Sound m t := by
  cases h with
  | server rand l d q h => exact hs.server h
  | client j rand l d q h => exact hs.client (playerWork_turn h)

/-- **Every state of a game is sound.** -/
theorem sound {tr : List (Move (State n) (Option (Event n)))} (r : Run (Step m) (start n m) tr s) :
    Sound m s :=
  r.invariant (fun hs h => hs.step h) sound_start

/-! ### No deadlock -/

/-- Nobody stays in the section of the mutex. -/
theorem Sound.mutex_free (hs : Sound m s) (h : ¬ Live (gameServerWork m) (playerWork m) s) :
    s.data.mxActive = none := by
  cases howner : s.data.mxActive with
  | none => rfl
  | some p =>
      refine absurd ?_ h
      have hp := (hs.mutex p).mp howner
      cases p with
      | none =>
          change s.server.holding = true at hp
          refine Live.server (a := 0) ?_
          generalize s.server = q at hp ⊢
          cases q with
          | readActive i => rfl
          | unlock i cur =>
              simp only [gameServerWork]
              split <;> rfl
          | _ => cases hp
      | some j =>
          change (s.client j).stage.holding = true at hp
          refine Live.client (i := j) (a := 0) ?_
          generalize s.client j = q at hp ⊢
          obtain ⟨stage, i, cards, last⟩ := q
          cases stage <;> first | rfl | cases hp

/-- Where a player is that cannot go on. -/
inductive Idle (m : Nat) (d : Data n) (q : Player) : Prop where
  | left (h : q.stage = .left)
  | finished (h : q.stage = .finished)
  | waitRound (h : q.stage = .waitRound) (hm : q.round ≤ m) (hsem : d.sem .start = 0)
  | waitResults (h : q.stage = .waitResults) (hsem : d.sem .results = 0)

theorem Sound.idle (hs : Sound m s) (h : ¬ Live (gameServerWork m) (playerWork m) s) (j : Fin n) :
    Idle m s.data (s.client j) := by
  have hstuck : playerWork m j (s.client j) s.data 0 = none := by
    by_contra hne
    exact h (Live.client (Option.isSome_iff_ne_none.mpr hne))
  have hvalid := hs.valid j
  have hfree := hs.mutex_free h
  generalize s.client j = q at hstuck hvalid ⊢
  obtain ⟨stage, i, cards, last⟩ := q
  cases stage with
  | left => exact .left rfl
  | finished => exact .finished rfl
  | waitRound =>
      simp only [playerWork] at hstuck
      split at hstuck
      · refine .waitRound rfl ‹_› ?_
        by_contra hne
        simp [Data.wait, hne] at hstuck
      · cases hstuck
  | waitResults =>
      refine .waitResults rfl ?_
      by_contra hne
      simp [playerWork, Data.wait, hne] at hstuck
  | draw =>
      simp only [playerWork] at hstuck
      split at hstuck <;> cases hstuck
  | lock => simp [playerWork, Data.lock, hfree] at hstuck
  | failed => exact absurd rfl hvalid.failed
  | postCards | readScore | decide | postDone | decrement | unlock | postLast => cases hstuck

/-- A player of the round, by what it has passed. -/
theorem Sound.gates_eq (hs : Sound m s) {k : Nat} (hk : k < 4) (hj : inRound s j = true)
    (htime : (s.client j).time = 4 * (s.server.round - 1) + k) :
    (s.client j).round = s.server.round ∧ (s.client j).stage.gates = k := by
  have hge := of_decide_eq_true hj
  have hpos := hs.round_pos
  simp only [Player.time] at htime
  exact ⟨by omega, by omega⟩

/-- The server does not wait in vain. -/
theorem Sound.not_waiting (hs : Sound m s) (hm : s.server.round ≤ m)
    (hidle : ∀ j, Idle m s.data (s.client j)) (g g' : Gate) (hg : g.byServer = true)
    (hg' : g'.byServer = false) (hnext : g'.index = g.index + 1)
    (hbefore : ∀ j, inRound s j = true →
      4 * (s.server.round - 1) + g.index ≤ (s.client j).time + 1)
    (hx : s.server.counts g = crowd (inRound s)) (hx' : s.server.counts g' < crowd (inRound s)) :
    s.data.sem g' ≠ 0 := by
  intro hsem
  obtain ⟨j, hj, hgo⟩ := hs.gates.waiting hg hg' hnext hbefore hx hx' hsem
  have hindex := g.index_pos
  have hindex' := g'.index_le
  have hgates : (s.client j).round = s.server.round ∧
      ((s.client j).stage.gates = g.index ∨
        (s.client j).stage.gates + 1 = g.index ∧ s.data.sem g ≠ 0) := by
    rcases hgo with htime | ⟨htime, hpos⟩
    · obtain ⟨hround, hk⟩ := hs.gates_eq (k := g.index) (by omega) hj (by omega)
      exact ⟨hround, .inl hk⟩
    · obtain ⟨hround, hk⟩ := hs.gates_eq (k := g.index - 1) (by omega) hj (by omega)
      exact ⟨hround, .inr ⟨by omega, by omega⟩⟩
  obtain ⟨hround, hgates⟩ := hgates
  cases hidle j with
  | left h =>
      rw [h] at hgates
      simp only [Stage.gates] at hgates
      omega
  | finished h =>
      have := (hs.valid j).finished h
      omega
  | waitRound h _ hzero =>
      rw [h] at hgates
      cases g with
      | start => rcases hgates with h | ⟨-, h⟩ <;> [cases h; exact h hzero]
      | results => rcases hgates with h | ⟨h, -⟩ <;> cases h
      | ready | done => cases hg
  | waitResults h hzero =>
      rw [h] at hgates
      cases g with
      | start => rcases hgates with h | ⟨h, -⟩ <;> cases h
      | results => rcases hgates with h | ⟨-, h⟩ <;> [cases h; exact h hzero]
      | ready | done => cases hg

/-- **No deadlock.**  Somebody can go on, or the server has ended and all players have left. -/
theorem Sound.live (hs : Sound m s) :
    Live (gameServerWork m) (playerWork m) s ∨
      (∃ i, s.server = .ended i) ∧
        ∀ j, (s.client j).stage = .left ∨ (s.client j).stage = .finished := by
  by_cases h : Live (gameServerWork m) (playerWork m) s
  · exact .inl h
  right
  have hfree := hs.mutex_free h
  have hidle := hs.idle h
  have hserver : gameServerWork m s.server s.data 0 = none := by
    by_contra hne
    exact h (Live.server (Option.isSome_iff_ne_none.mpr hne))
  obtain ⟨d, q, c⟩ := s
  have hcurrent := hs.current
  cases q with
  | lock i =>
      simp only [gameServerWork] at hserver
      split at hserver
      · change d.mxActive = none at hfree
        simp [Data.lock, hfree] at hserver
      · cases hserver
  | cards i cur k =>
      have hi : i ≤ m := hs.plays (by simp) (by simp)
      have hcur := hcurrent cur rfl
      simp only [gameServerWork] at hserver
      split at hserver
      · refine absurd ?_ (hs.not_waiting hi hidle .start .ready rfl rfl rfl
          (fun j hj => ?_) hcur (hcur ▸ ‹k < cur›))
        · by_contra hne
          change d.sem .ready ≠ 0 at hne
          simp [Data.wait, hne] at hserver
        · exact Nat.succ_le_succ (hs.gates.le_of_here j hj)
      · cases hserver
  | done i cur k =>
      have hi : i ≤ m := hs.plays (by simp) (by simp)
      have hcur := hcurrent cur rfl
      simp only [gameServerWork] at hserver
      split at hserver
      · refine absurd ?_ (hs.not_waiting hi hidle .results .done rfl rfl rfl
          (fun j hj => ?_) hcur (hcur ▸ ‹k < cur›))
        · by_contra hne
          change d.sem .done ≠ 0 at hne
          simp [Data.wait, hne] at hserver
        · exact Nat.succ_le_succ (hs.gates.all_taken (g := .ready) rfl hcur hj)
      · cases hserver
  | ended i =>
      refine ⟨⟨i, rfl⟩, fun j => ?_⟩
      by_cases hj : i ≤ (c j).round
      · rcases hs.ended i rfl with rfl | hzero
        · -- the last round is over
          cases hidle j with
          | left h => exact .inl h
          | finished h => exact .inr h
          | waitRound h hm hsem =>
              change (c j).round ≤ m at hm
              omega
          | waitResults h hsem =>
              rcases (hs.valid j).round_le with hm | ⟨-, hstage | hstage⟩
              · change (c j).round ≤ m at hm
                omega
              · rw [hstage] at h; cases h
              · rw [hstage] at h; cases h
        · exact absurd hzero (Nat.pos_iff_ne_zero.mp (tally_pos id (a := j) (decide_eq_true hj)))
      · exact .inl (hs.gone j (not_le.mp hj))
  | readActive i => cases hserver
  | unlock i cur =>
      simp only [gameServerWork] at hserver
      split at hserver <;> cases hserver
  | start i cur k | results i cur k =>
      simp only [gameServerWork] at hserver
      split at hserver <;> cases hserver
  | scan i cur rest best =>
      cases rest with
      | cons j rest => cases hserver
      | nil =>
          simp only [gameServerWork] at hserver
          split at hserver <;> cases hserver
  | award i cur rest best =>
      cases rest with
      | cons j rest =>
          simp only [gameServerWork] at hserver
          split at hserver <;> cases hserver
      | nil => cases hserver

end Sop2.Cards.Semaphores
