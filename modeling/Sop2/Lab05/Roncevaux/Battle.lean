import Sop2.Lab05.Roncevaux.Fight

/-!
# Lab05 — Roncevaux — the battle

Who leaves the fight alive has no living enemy.

A knight knows its enemies only by their ends.  It takes one for dead when nobody can read the
pipe of that enemy, and it takes all for dead when nobody can write to its own; and a knight closes
its read end only when it is done, and the write end to an enemy only when it is done or that enemy
has closed its read end (`Sound`).  So whoever is the first to be done alive is right about its
enemies, and of these none will be done alive.
-/

namespace Sop2.Roncevaux
open Support

variable {size : Army → Nat} {cap : Nat} {s t : State size}
  {l : Option (Name size) × Option Event}

/-- The knight is done with the loop of `child_work`. -/
def Place.done : Place size → Bool
  | .closeOwn | .closing _ | .ending _ | .killed | .exited => true
  | _ => false

def Place.fighting : Place size → Bool
  | .reading | .striking => true
  | _ => false

theorem other_ne (a : Army) : a.other ≠ a := by
  cases a <;> exact Army.noConfusion

theorem other_other (a : Army) : a.other.other = a := by
  cases a <;> rfl

/-! ### Exchanging two elements -/

section
variable {α : Type*} {xs : List α} {x y : α} {i j k : Nat}

theorem swap_getElem?_of_ne (hi : k ≠ i) (hj : k ≠ j) : (swap xs i j)[k]? = xs[k]? := by
  unfold swap
  split
  · rw [List.getElem?_set_ne hj.symm, List.getElem?_set_ne hi.symm]
  · rfl

theorem swap_getElem? (hi : xs[i]? = some x) (hj : xs[j]? = some y) (k : Nat) :
    (swap xs i j)[k]? = if k = j then some x else if k = i then some y else xs[k]? := by
  have hilen := (List.getElem?_eq_some_iff.mp hi).1
  have hjlen := (List.getElem?_eq_some_iff.mp hj).1
  have hswap : swap xs i j = (xs.set i y).set j x := by simp only [swap, hi, hj]
  by_cases hkj : k = j
  · rw [if_pos hkj, hkj, hswap, List.getElem?_set_self (by rwa [List.length_set])]
  · rw [if_neg hkj]
    by_cases hki : k = i
    · rw [if_pos hki, hki, hswap, List.getElem?_set_ne (Ne.symm (hki ▸ hkj)),
        List.getElem?_set_self hilen]
    · rw [if_neg hki, swap_getElem?_of_ne hki hkj]

end

variable {pipes pipes' : Pipes (Option (Name size)) (Name size) Int} {k : Name size}
  {f f' : Fighter size} {e : Option Event}

/-- What a knight does without the pipes. -/
theorem turn_cases (h : f.turn = some f') :
    (∃ place, f' = { f with place := place }) ∧ (f.place.done = true → f'.place.done = true) ∧
      (f'.place.fighting = true → f.alive = true) ∧
      (f'.place.done = true → f.place.done = true ∨ f.alive = false ∨ f.aliveEnemies = 0) := by
  obtain ⟨knight, alive, n, slots, place⟩ := f
  cases place with
  | outer =>
      cases h
      refine ⟨⟨_, rfl⟩, nofun, fun h => ?_, fun h => ?_⟩
      · dsimp only at h
        split at h
        · exact (‹_ ∧ _› : alive = true ∧ _).1
        · cases h
      · dsimp only at h
        split at h
        · cases h
        · rcases not_and_or.mp ‹_› with h | h
          · exact .inr (.inl (Bool.eq_false_iff.mpr h))
          · exact .inr (.inr (Nat.eq_zero_of_not_pos h))
  | test =>
      cases h
      refine ⟨⟨_, rfl⟩, nofun, fun h => ?_, fun h => ?_⟩
      · dsimp only at h
        split at h
        · cases h
        · exact Bool.not_eq_false _ ▸ (not_or.mp ‹_›).1
      · dsimp only at h
        split at h
        · exact .inr ‹_›
        · cases h
  | striking =>
      simp only [Fighter.turn] at h
      split at h
      · cases h
        exact ⟨⟨_, rfl⟩, nofun, nofun, nofun⟩
      · cases h
  | closing es | ending es =>
      cases es with
      | nil =>
          cases h
          exact ⟨⟨_, rfl⟩, fun _ => rfl, nofun, fun _ => .inl rfl⟩
      | cons e es => cases h
  | born | reading | closeOwn | killed | exited => cases h

/-! ### What a turn does -/

/-- Whether a knight is done after a turn, and alive. -/
theorem Turn.place (h : Turn cap pipes k f e pipes' f') :
    (f.place.done = true → f'.place.done = true) ∧ (f.alive = false → f'.alive = false) ∧
      ((f.place.fighting = true → f.alive = true) →
        f'.place.fighting = true → f'.alive = true) ∧
      (f'.place.done = true → f.place.done = true ∨ f'.alive = false ∨ f.aliveEnemies = 0) := by
  cases h with
  | bornRead j h hj | bornWrite j h hj | killedRead j h | killedWrite j h =>
      exact ⟨id, id, id, .inl⟩
  | fight h hr hw | again h hempty hw | eof pipes' h hr
  | strike enemy e r d pipes' h henemy he hr hd hw =>
      rw [h]
      exact ⟨nofun, id, fun _ => nofun, nofun⟩
  | go f' h =>
      obtain ⟨⟨place, rfl⟩, hdone, hfighting, hleaves⟩ := turn_cases h
      exact ⟨hdone, id, fun _ => hfighting, hleaves⟩
  | hit buf hp pipes' h hr hl hsign | broken enemy e r d pipes' h henemy he hr hd hw =>
      exact ⟨id, id, id, .inl⟩
  | die buf hp pipes' h hr hl hsign =>
      rw [h]
      exact ⟨nofun, fun _ => rfl, fun _ => nofun, nofun⟩
  | trap r h hpos hr hd =>
      exact ⟨fun _ => rfl, fun _ => rfl, fun _ => nofun, fun _ => .inr (.inl rfl)⟩
  | closeOwn h | closing e es h | ending e es h | reaped h hr hw =>
      rw [h]
      exact ⟨fun _ => rfl, id, fun _ => nofun, fun _ => .inl rfl⟩

/-- Which read ends are open after a turn. -/
theorem Turn.reads (h : Turn cap pipes k f e pipes' f') :
    (∀ p j, pipes'.reads p j = true → pipes.reads p j = true) ∧
      ∀ p j, pipes'.reads p j = false →
        pipes.reads p j = false ∨ p = some k ∧ (j ≠ k ∨ f'.place.done = true) := by
  have same : pipes'.reads = pipes.reads →
      (∀ p j, pipes'.reads p j = true → pipes.reads p j = true) ∧
        ∀ p j, pipes'.reads p j = false →
          pipes.reads p j = false ∨ p = some k ∧ (j ≠ k ∨ f'.place.done = true) := fun h => by
    rw [h]
    exact ⟨fun _ _ => id, fun _ _ => .inl⟩
  cases h with
  | bornRead j h hj =>
      refine ⟨fun p i hp => (Pipes.closeRead_reads.mp hp).1, fun p i hp => ?_⟩
      refine (Pipes.closeRead_closed hp).imp_right fun ⟨hpk, hij⟩ => ⟨hpk, .inl ?_⟩
      exact hij ▸ hj
  | closeOwn h =>
      refine ⟨fun p i hp => (Pipes.closeRead_reads.mp hp).1, fun p i hp => ?_⟩
      exact (Pipes.closeRead_closed hp).imp_right fun ⟨hpk, _⟩ => ⟨hpk, .inr rfl⟩
  | killedRead j h =>
      refine ⟨fun p i hp => (Pipes.closeRead_reads.mp hp).1, fun p i hp => ?_⟩
      exact (Pipes.closeRead_closed hp).imp_right fun ⟨hpk, _⟩ => ⟨hpk, .inr (by rw [h]; rfl)⟩
  | hit buf hp pipes' h hr | die buf hp pipes' h hr | eof pipes' h hr => exact same hr.reads
  | strike enemy e r d pipes' h henemy he hr hd hw
  | broken enemy e r d pipes' h henemy he hr hd hw =>
      exact same hw.reads
  | _ => exact same rfl

/-- Which write ends are open after a turn. -/
theorem Turn.writes (h : Turn cap pipes k f e pipes' f') :
    (∀ p j, pipes'.writes p j = true → pipes.writes p j = true) ∧
      ∀ p j, pipes'.writes p j = false → pipes.writes p j = false ∨
        p = some k ∧ (j.1 = k.1 ∨ f'.place.done = true ∨ pipes.NoReader j) := by
  have same : pipes'.writes = pipes.writes →
      (∀ p j, pipes'.writes p j = true → pipes.writes p j = true) ∧
        ∀ p j, pipes'.writes p j = false → pipes.writes p j = false ∨
          p = some k ∧ (j.1 = k.1 ∨ f'.place.done = true ∨ pipes.NoReader j) := fun h => by
    rw [h]
    exact ⟨fun _ _ => id, fun _ _ => .inl⟩
  have close : ∀ {i : Name size}, pipes' = pipes.closeWrite (some k) i →
      (i.1 = k.1 ∨ f'.place.done = true ∨ pipes.NoReader i) →
      (∀ p j, pipes'.writes p j = true → pipes.writes p j = true) ∧
        ∀ p j, pipes'.writes p j = false → pipes.writes p j = false ∨
          p = some k ∧ (j.1 = k.1 ∨ f'.place.done = true ∨ pipes.NoReader j) := fun h hi => by
    subst h
    refine ⟨fun p j hp => (Pipes.closeWrite_writes.mp hp).1, fun p j hp => ?_⟩
    refine (Pipes.closeWrite_closed hp).imp_right fun ⟨hpk, hij⟩ => ⟨hpk, ?_⟩
    exact hij ▸ hi
  cases h with
  | bornWrite j h hj => exact close rfl (.inl hj)
  | broken enemy e r d pipes' h henemy he hr hd hw =>
      cases hw with
      | epipe hr => exact close rfl (.inr (.inr hr))
  | closing e es h | ending e es h => exact close rfl (.inr (.inl rfl))
  | killedWrite j h => exact close rfl (.inr (.inl (by rw [h]; rfl)))
  | hit buf hp pipes' h hr | die buf hp pipes' h hr | eof pipes' h hr => exact same hr.writes
  | strike enemy e r d pipes' h henemy he hr hd hw => exact same hw.writes
  | _ => exact same rfl

/-- What a turn does to the enemies that count as alive. -/
theorem Turn.enemies (h : Turn cap pipes k f e pipes' f') :
    (f'.aliveEnemies = f.aliveEnemies ∧ f'.enemyPipes = f.enemyPipes) ∨
      f.place.fighting = true ∧ (f'.aliveEnemies = 0 ∧ pipes.NoWriter k ∨
        ∃ enemy j, enemy < f.aliveEnemies ∧ f.enemyPipes[enemy]? = some j ∧ pipes.NoReader j ∧
          f'.aliveEnemies = f.aliveEnemies - 1 ∧
          f'.enemyPipes = swap f.enemyPipes enemy (f.aliveEnemies - 1)) := by
  cases h with
  | go f' h =>
      obtain ⟨⟨place, rfl⟩, -⟩ := turn_cases h
      exact .inl ⟨rfl, rfl⟩
  | eof pipes' h hr =>
      cases hr with
      | eof hempty hw => exact .inr ⟨by rw [h]; rfl, .inl ⟨rfl, hw⟩⟩
  | broken enemy e r d pipes' h henemy he hr hd hw =>
      cases hw with
      | epipe hr => exact .inr ⟨by rw [h]; rfl, .inr ⟨enemy, e, henemy, he, hr, rfl, rfl⟩⟩
  | _ => exact .inl ⟨rfl, rfl⟩

/-! ### Who has closed what -/

/-- **The invariant of the battle**: who has closed which end, and whom a knight takes for dead. -/
structure Sound (s : State size) : Prop where
  reads : ∀ k, s.pipes.reads (some k) k = false → (s.fighter k).place.done = true
  writes : ∀ k e, e.1 = k.1.other → s.pipes.writes (some e) k = false →
    (s.fighter e).place.done = true ∨ s.pipes.reads (some k) k = false
  fighting : ∀ k, (s.fighter k).place.fighting = true → (s.fighter k).alive = true
  leaves : ∀ k, (s.fighter k).place.done = true → (s.fighter k).alive = true →
    (s.fighter k).aliveEnemies = 0
  victory : ∀ k, (s.fighter k).alive = true → (s.fighter k).aliveEnemies = 0 →
    ∀ e, e.1 = k.1.other → (s.fighter e).alive = false
  enemies : ∀ k, 0 < (s.fighter k).aliveEnemies → ∀ e, e.1 = k.1.other →
    (∃ i < (s.fighter k).aliveEnemies, (s.fighter k).enemyPipes[i]? = some e) ∨
      s.pipes.NoReader e

theorem sound_battle (army : Name size → Knight) : Sound (battle army) where
  reads _ h := by cases h
  writes _ _ _ h := by cases h
  fighting _ _ := rfl
  leaves _ h := by cases h
  victory k _ hzero e he := by
    -- there are no enemies
    obtain ⟨a, i⟩ := e
    obtain rfl : a = k.1.other := he
    have hsize : size k.1.other = 0 := hzero
    have hlt := i.isLt
    omega
  enemies k _ e he := by
    obtain ⟨a, i⟩ := e
    obtain rfl : a = k.1.other := he
    refine .inl ⟨i, i.isLt, ?_⟩
    simp [battle, Roncevaux.enemies]

/-- Of the enemies of a knight who is alive, those that are done have died. -/
theorem Sound.dead_of_done (hs : Sound s) (hk : (s.fighter k).alive = true) {j : Name size}
    (hj : j.1 = k.1.other) (hdone : (s.fighter j).place.done = true) :
    (s.fighter j).alive = false := by
  refine Bool.eq_false_iff.mpr fun halive => ?_
  have hdead := hs.victory j halive (hs.leaves j hdone halive) k (by rw [hj, other_other])
  rw [hk] at hdead
  cases hdead

/-- Nobody can read the pipe of a knight: it is done. -/
theorem Sound.done_of_noReader (hs : Sound s) {j : Name size} (h : s.pipes.NoReader j) :
    (s.fighter j).place.done = true :=
  hs.reads j (h (some j))

/-- Nobody can write to a knight who fights: all its enemies are done. -/
theorem Sound.done_of_noWriter (hs : Sound s) (hk : (s.fighter k).place.fighting = true)
    (h : s.pipes.NoWriter k) {j : Name size} (hj : j.1 = k.1.other) :
    (s.fighter j).place.done = true := by
  refine (hs.writes k j hj (h (some j))).resolve_right fun hclosed => ?_
  have hdone := hs.reads k hclosed
  cases hplace : (s.fighter k).place with
  | closeOwn | closing es | ending es | killed | exited => rw [hplace] at hk; cases hk
  | born | outer | reading | test | striking => rw [hplace] at hdone; cases hdone

/-- A knight who takes all its enemies for dead is right. -/
theorem Sound.victory_turn (hs : Sound s) (h : Turn cap s.pipes k (s.fighter k) e pipes f)
    (hf : f.alive = true) (hzero : f.aliveEnemies = 0) {j : Name size} (hj : j.1 = k.1.other) :
    (s.fighter j).alive = false := by
  have halive : (s.fighter k).alive = true := by
    refine Bool.not_eq_false _ ▸ fun hdead => ?_
    rw [h.place.2.1 hdead] at hf
    cases hf
  rcases h.enemies with ⟨hsame, -⟩ | ⟨hfighting, ⟨-, hw⟩ | ⟨enemy, i, hlt, hi, hr, hless, -⟩⟩
  · exact hs.victory k halive (hsame ▸ hzero) j hj
  · exact hs.dead_of_done halive hj (hs.done_of_noWriter hfighting hw hj)
  · -- the last enemy that counted as alive
    refine hs.dead_of_done halive hj ?_
    rcases hs.enemies k (Nat.zero_lt_of_lt hlt) j hj with ⟨i', hi', hj'⟩ | hj'
    · obtain rfl : i' = enemy := by omega
      rw [hi] at hj'
      cases hj'
      exact hs.done_of_noReader hr
    · exact hs.done_of_noReader hj'

/-- The enemies that do not count as alive have no reader. -/
theorem Sound.enemies_turn (hs : Sound s) (h : Turn cap s.pipes k (s.fighter k) e pipes f)
    (hpos : 0 < f.aliveEnemies) {j : Name size} (hj : j.1 = k.1.other) :
    (∃ i < f.aliveEnemies, f.enemyPipes[i]? = some j) ∨ s.pipes.NoReader j := by
  rcases h.enemies with ⟨hsame, hslots⟩ | ⟨-, ⟨hzero, -⟩ | ⟨enemy, i, hlt, hi, hr, hless, hswap⟩⟩
  · rw [hsame, hslots]
    exact hs.enemies k (hsame ▸ hpos) j hj
  · omega
  · rcases hs.enemies k (Nat.zero_lt_of_lt hlt) j hj with ⟨i', hi', hj'⟩ | hj'
    · rw [hless, hswap]
      by_cases hne : i' = enemy
      · -- the enemy itself
        subst hne
        rw [hi] at hj'
        cases hj'
        exact .inr hr
      · left
        by_cases hlast : i' = (s.fighter k).aliveEnemies - 1
        · subst hlast
          exact ⟨enemy, by omega, by rw [swap_getElem? hi hj', if_neg (Ne.symm hne), if_pos rfl]⟩
        · exact ⟨i', by omega, (swap_getElem?_of_ne hne hlast).trans hj'⟩
    · exact .inr hj'

/-- A knight's turn. -/
theorem Sound.knight (hs : Sound s) (h : Turn cap s.pipes k (s.fighter k) e pipes f) :
    Sound ⟨pipes, Function.update s.fighter k f⟩ := by
  obtain ⟨hdone, hdead, hfighting, hleaves⟩ := h.place
  obtain ⟨hreads, hreads'⟩ := h.reads
  obtain ⟨hwrites, hwrites'⟩ := h.writes
  have hdone' : ∀ j, (s.fighter j).place.done = true →
      (Function.update s.fighter k f j).place.done = true := fun j hj => by
    by_cases hjk : j = k
    · subst hjk
      rw [Function.update_self]
      exact hdone hj
    · rwa [Function.update_of_ne hjk]
  have hdead' : ∀ j, (s.fighter j).alive = false →
      (Function.update s.fighter k f j).alive = false := fun j hj => by
    by_cases hjk : j = k
    · subst hjk
      rw [Function.update_self]
      exact hdead hj
    · rwa [Function.update_of_ne hjk]
  have hnoReader : ∀ j, s.pipes.NoReader j → pipes.NoReader j := fun j hj p =>
    Bool.eq_false_iff.mpr fun hp => by
      have := hreads p j hp
      rw [hj p] at this
      cases this
  refine ⟨fun j hj => ?_, fun j i hi hj => ?_, ?_, ?_, ?_, ?_⟩
  · rcases hreads' _ _ hj with hj | ⟨hjk, hj⟩
    · exact hdone' j (hs.reads j hj)
    · obtain rfl := Option.some.inj hjk
      dsimp only
      rw [Function.update_self]
      exact hj.resolve_left (absurd rfl)
  · rcases hwrites' _ _ hj with hj | ⟨hik, hj⟩
    · refine (hs.writes j i hi hj).imp (hdone' i) fun h => ?_
      exact Bool.eq_false_iff.mpr fun hp => by
        rw [hreads _ _ hp] at h
        cases h
    · obtain rfl := Option.some.inj hik
      rcases hj with hj | hj | hj
      · exact absurd (hi.symm.trans hj.symm) (other_ne _)
      · left
        dsimp only
        rw [Function.update_self]
        exact hj
      · exact .inr (hnoReader j hj (some j))
  · refine (Function.forall_update_iff s.fighter fun _ f =>
      f.place.fighting = true → f.alive = true).mpr ⟨hfighting (hs.fighting k), ?_⟩
    exact fun j _ => hs.fighting j
  · refine (Function.forall_update_iff s.fighter fun _ f =>
      f.place.done = true → f.alive = true → f.aliveEnemies = 0).mpr
      ⟨fun hf halive => ?_, fun j _ => hs.leaves j⟩
    have halive' : (s.fighter k).alive = true := by
      refine Bool.not_eq_false _ ▸ fun hk => ?_
      rw [hdead hk] at halive
      cases halive
    have hzero : (s.fighter k).aliveEnemies = 0 := by
      rcases hleaves hf with hk | hk | hk
      · exact hs.leaves k hk halive'
      · rw [halive] at hk
        cases hk
      · exact hk
    rcases h.enemies with ⟨hsame, -⟩ | ⟨-, ⟨hnone, -⟩ | ⟨enemy, i, hlt, -⟩⟩
    · exact hsame.trans hzero
    · exact hnone
    · omega
  · refine (Function.forall_update_iff s.fighter fun j f => f.alive = true → f.aliveEnemies = 0 →
      ∀ e, e.1 = j.1.other → (Function.update s.fighter k _ e).alive = false).mpr ⟨?_, ?_⟩
    · exact fun halive hzero j hj => hdead' j (hs.victory_turn h halive hzero hj)
    · exact fun j _ halive hzero i hi => hdead' i (hs.victory j halive hzero i hi)
  · refine (Function.forall_update_iff s.fighter fun j f => 0 < f.aliveEnemies →
      ∀ e, e.1 = j.1.other → (∃ i < f.aliveEnemies, f.enemyPipes[i]? = some e) ∨
        pipes.NoReader e).mpr ⟨?_, ?_⟩
    · exact fun hpos j hj => (hs.enemies_turn h hpos hj).imp_right (hnoReader j)
    · exact fun j _ hpos i hi => (hs.enemies j hpos i hi).imp_right (hnoReader i)

/-- The parent closes an end. -/
theorem Sound.parent (hs : Sound s) {pipes : Pipes (Option (Name size)) (Name size) Int}
    (hr : ∀ j, pipes.reads (some j) = s.pipes.reads (some j))
    (hw : ∀ j, pipes.writes (some j) = s.pipes.writes (some j))
    (hparent : ∀ j, pipes.reads none j = true → s.pipes.reads none j = true) :
    Sound ⟨pipes, s.fighter⟩ where
  reads j h := hs.reads j (hr j ▸ h)
  writes j e he h := hr j ▸ hs.writes j e he (hw e ▸ h)
  fighting := hs.fighting
  leaves := hs.leaves
  victory := hs.victory
  enemies k hpos e he := (hs.enemies k hpos e he).imp_right fun hno p => by
    cases p with
    | none =>
        refine Bool.eq_false_iff.mpr fun hp => ?_
        have hopen := hparent e hp
        rw [hno none] at hopen
        cases hopen
    | some j => exact (congrFun (hr j) e).trans (hno (some j))

theorem Sound.step (hs : Sound s) (h : Step cap s l t) : Sound t := by
  cases h with
  | knight k e pipes f h => exact hs.knight h
  | parentRead j =>
      refine hs.parent (fun _ => Pipes.closeRead_of_ne nofun) (fun _ => rfl) fun i hp => ?_
      exact (Pipes.closeRead_reads.mp hp).1
  | parentWrite j =>
      exact hs.parent (fun _ => rfl) (fun _ => Pipes.closeWrite_of_ne nofun) fun _ => id

/-! ### The outcome -/

variable {army : Name size → Knight}
  {tr : List (Move (State size) (Option (Name size) × Option Event))}

/-- The knight is done with the fight, alive. -/
def Fighter.survived (f : Fighter size) : Bool := f.place.done && f.alive

/-- **The outcome.**  In every state that can be reached: if a knight is done with the fight and
alive, all its enemies have died, of a stroke or of `SIGFPE`; so of two enemies not both survive;
and once all knights have ended, the survivors are of one army. -/
theorem outcome (r : Run (Step cap) (battle army) tr s) :
    (∀ k, (s.fighter k).survived = true → ∀ e, e.1 = k.1.other → (s.fighter e).alive = false) ∧
      (∀ k e, e.1 = k.1.other →
        ¬ ((s.fighter k).survived = true ∧ (s.fighter e).survived = true)) ∧
      ((∀ k, (s.fighter k).place = .exited) →
        ∀ k e, (s.fighter k).alive = true → (s.fighter e).alive = true → e.1 = k.1) := by
  have hs : Sound s := r.invariant (fun hs h => hs.step h) (sound_battle army)
  have hdead : ∀ k, (s.fighter k).survived = true → ∀ e, e.1 = k.1.other →
      (s.fighter e).alive = false := fun k hk e he => by
    obtain ⟨hdone, halive⟩ := (Bool.and_eq_true _ _).mp hk
    exact hs.victory k halive (hs.leaves k hdone halive) e he
  refine ⟨hdead, fun k e he ⟨hk, hsurvived⟩ => ?_, fun hall k e hk hsurvived => ?_⟩
  · have halive := ((Bool.and_eq_true _ _).mp hsurvived).2
    rw [hdead k hk e he] at halive
    cases halive
  · have hdone : (s.fighter k).survived = true := by
      rw [Fighter.survived, hall, hk]
      rfl
    by_contra hne
    have hother : e.1 = k.1.other := by
      revert hne
      cases e.1 <;> cases k.1 <;> simp [Army.other]
    rw [hdead k hdone e hother] at hsurvived
    cases hsurvived

/-- One knight on each side. -/
abbrev duel : Army → Nat := fun _ => 1

def roland : Name duel := ⟨.franci, 0⟩

def marsil : Name duel := ⟨.saraceni, 0⟩

theorem duel_cases {Q : Name duel → Prop} (hr : Q roland) (hm : Q marsil) : ∀ j, Q j := by
  rintro ⟨a, i⟩
  obtain rfl : i = 0 := Subsingleton.elim (α := Fin 1) i 0
  cases a with
  | franci => exact hr
  | saraceni => exact hm

/-- A knight of attack 5 draws the random value 5. -/
theorem damage_five : damage 5 5 = some 5 := by
  rw [damage, wrap32_eq (by decide)]
  rfl

/-- The first stroke is deadly. -/
theorem outcome_duel : ∃ s : State duel, (s.fighter marsil).survived = true ∧
    (s.fighter roland).alive = false := by
  have r := (((((((((((((((((((((Run.one
    (.knight roland _ _ _ (.bornRead marsil rfl (by decide))) :
    Run (Step 65536) (battle fun _ => ⟨3, 5⟩) _ _).snoc
    (.knight roland _ _ _ (.bornWrite roland rfl rfl))).snoc
    (.knight marsil _ _ _ (.bornRead roland rfl (by decide)))).snoc
    (.knight marsil _ _ _ (.bornWrite marsil rfl rfl))).snoc
    (.knight roland _ _ _ (.fight rfl (duel_cases (absurd rfl) fun _ => rfl)
      (duel_cases (fun _ => rfl) nofun)))).snoc
    (.knight marsil _ _ _ (.fight rfl (duel_cases (fun _ => rfl) (absurd rfl))
      (duel_cases nofun fun _ => rfl)))).snoc
    (.knight marsil _ _ _ (.go _ rfl))).snoc
    (.knight marsil _ _ _ (.again rfl rfl (Pipes.not_noWriter.mpr ⟨some roland, rfl⟩)))).snoc
    (.knight marsil _ _ _ (.go _ rfl))).snoc
    (.knight marsil _ _ _ (.strike 0 roland 5 5 _ rfl (by decide) rfl (by decide) damage_five
      (.ok (Pipes.not_noReader.mpr ⟨some roland, rfl⟩) (by decide))))).snoc
    (.knight roland _ _ _ (.go _ rfl))).snoc
    (.knight roland _ _ _ (.die 5 (-2) _ rfl (.data 5 [] rfl) (.inl rfl) (by decide)))).snoc
    (.knight roland _ _ _ (.go _ rfl))).snoc
    (.knight roland _ _ _ (.closeOwn rfl))).snoc
    (.parentRead roland)).snoc
    (.knight marsil _ _ _ (.go _ rfl))).snoc
    (.knight marsil _ _ _ (.again rfl rfl (Pipes.not_noWriter.mpr ⟨some roland, rfl⟩)))).snoc
    (.knight marsil _ _ _ (.go _ rfl))).snoc
    (.knight marsil _ _ _ (.broken 0 roland 5 5 _ rfl (by decide) rfl (by decide) damage_five
      (.epipe fun p => p.casesOn rfl (duel_cases rfl rfl))))).snoc
    (.knight marsil _ _ _ (.go _ rfl))).snoc
    (.knight marsil _ _ _ (.go _ rfl)))
  exact ⟨_, rfl, (outcome r).1 marsil rfl roland rfl⟩

end Sop2.Roncevaux
