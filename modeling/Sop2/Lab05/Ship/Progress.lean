import Sop2.Lab05.Ship.Ring
import Sop2.Support.Rings

/-!
# Lab05 — Ship — the ring goes on

While a player is in its loop, some player is not blocked.

A player that waits for a card waits for its predecessor, and one that waits for room waits for
its successor.  If all players in their loops were blocked, then all that have left them having
closed their ends, the ring would be full of players that wait for cards, or full of players that
wait for room (`pred_reads`, `succ_writes`); and the number of the cards in the pipes is against
both.

A player that has left its loop may still have to close its ends: until then the others may all be
blocked (`blocked_by_winner`).
-/

namespace Sop2.Ship
open Support

variable {n m : Nat} [NeZero n] [NeZero m] {cap : Nat} {s t : State n m}
  {l : Fin n × Option Event}

def Place.inLoop : Place m → Bool
  | .check | .write _ | .read _ => true
  | _ => false

/-- Out of the loop, with an end of a ring pipe still to be closed. -/
def Place.isLeaving : Place m → Bool
  | .leaving _ | .closing _ => true
  | _ => false

/-- The `read` or the `write` of the player `i` blocks. -/
def Blocked (cap : Nat) (s : State n m) (i : Fin n) : Prop :=
  (∃ d, (s.player i).place = .read d ∧ s.ring.content i = [] ∧ ¬ s.ring.NoWriter i) ∨
    ∃ d, (s.player i).place = .write d ∧ ¬ s.ring.NoReader (i + 1) ∧
      cap ≤ (s.ring.content (i + 1)).length

/-- Blocked are the players in their loops that cannot take a step. -/
theorem blocked_iff {i : Fin n} (hi : (s.player i).place.inLoop = true) :
    Blocked cap s i ↔ ¬ ∃ e t, Step cap s (i, e) t := by
  cases hplace : (s.player i).place with
  | check =>
      refine iff_of_false (fun h => ?_) (not_not.mpr ?_)
      · rcases h with ⟨d, h, -⟩ | ⟨d, h, -⟩ <;> rw [hplace] at h <;> cases h
      · cases hw : isWinning (s.player i).hand with
        | true => exact ⟨_, _, .win i hplace hw⟩
        | false => exact ⟨_, _, .choose i 0 hplace hw⟩
  | write d =>
      have hwrite : (¬ ∃ b ring, s.ring.Write cap (i + 1) ((s.player i).hand d) b ring) ↔ _ :=
        Pipes.not_write_iff
      constructor
      · rintro (⟨d', h, -⟩ | ⟨d', -, hfull⟩) ⟨e, t, hstep⟩
        · cases hplace.symm.trans h
        · refine hwrite.mpr hfull ?_
          cases hstep with
          | write i d' ring h hw | epipe i d' ring h hw =>
              cases hplace.symm.trans h
              exact ⟨_, _, hw⟩
          | closeRead _ _ h | closeWrite _ _ h | begin _ h | win _ h | choose _ _ h
          | read _ _ _ _ h | eof _ _ _ h | leave _ _ h | close _ _ h =>
              cases hplace.symm.trans h
      · refine fun hno => .inr ⟨d, hplace, hwrite.mp ?_⟩
        rintro ⟨b, ring, hw⟩
        cases b with
        | true => exact hno ⟨_, _, .write i d ring hplace hw⟩
        | false => exact hno ⟨_, _, .epipe i d ring hplace hw⟩
  | read d =>
      have hread : (¬ ∃ card ring, s.ring.Read i card ring) ↔ _ := Pipes.not_read_iff
      constructor
      · rintro (⟨d', -, hempty⟩ | ⟨d', h, -⟩) ⟨e, t, hstep⟩
        · refine hread.mpr hempty ?_
          cases hstep with
          | read i d' card ring h hr => exact ⟨_, _, hr⟩
          | eof i d' ring h hr => exact ⟨_, _, hr⟩
          | closeRead _ _ h | closeWrite _ _ h | begin _ h | win _ h | choose _ _ h
          | write _ _ _ h | epipe _ _ _ h | leave _ _ h | close _ _ h =>
              cases hplace.symm.trans h
        · cases hplace.symm.trans h
      · refine fun hno => .inl ⟨d, hplace, hread.mp ?_⟩
        rintro ⟨card, ring, hr⟩
        cases card with
        | some card => exact hno ⟨_, _, .read i d card ring hplace hr⟩
        | none => exact hno ⟨_, _, .eof i d ring hplace hr⟩
  | _ => rw [hplace] at hi; cases hi

/-! ### The ends -/

/-- The player has not closed the read end of its own pipe. -/
def Place.keepsRead : Place m → Bool
  | .closing _ | .gone _ => false
  | _ => true

/-- The player has not closed the write end of the next pipe. -/
def Place.keepsWrite : Place m → Bool
  | .gone _ => false
  | _ => true

/-- The ends that a player has open are those that it uses, but before the loop; and it closes
them when it leaves. -/
structure Ends (s : State n m) : Prop where
  reads : ∀ i k, s.ring.reads i k = true →
    ((s.player i).place = .start ∨ k = i) ∧ (s.player i).place.keepsRead = true
  writes : ∀ i k, s.ring.writes i k = true →
    ((s.player i).place = .start ∨ k = i + 1) ∧ (s.player i).place.keepsWrite = true

omit [NeZero m] in
/-- One player moves on, and opens nothing. -/
theorem Ends.go (hs : Ends s) {i : Fin n} {p : Player m} {ring : Pipes (Fin n) (Fin n) Nat}
    (hr : ∀ j k, ring.reads j k = true → s.ring.reads j k = true)
    (hw : ∀ j k, ring.writes j k = true → s.ring.writes j k = true)
    (hri : ∀ k, ring.reads i k = true → (p.place = .start ∨ k = i) ∧ p.place.keepsRead = true)
    (hwi : ∀ k, ring.writes i k = true →
      (p.place = .start ∨ k = i + 1) ∧ p.place.keepsWrite = true) :
    Ends (s.go i p ring) where
  reads := (Function.forall_update_iff s.player fun j q => ∀ k, ring.reads j k = true →
      (q.place = .start ∨ k = j) ∧ q.place.keepsRead = true).mpr
    ⟨hri, fun j _ k h => hs.reads j k (hr j k h)⟩
  writes := (Function.forall_update_iff s.player fun j q => ∀ k, ring.writes j k = true →
      (q.place = .start ∨ k = j + 1) ∧ q.place.keepsWrite = true).mpr
    ⟨hwi, fun j _ k h => hs.writes j k (hw j k h)⟩

omit [NeZero m] in
/-- One player moves on after the start, and keeps its ends. -/
theorem Ends.stay (hs : Ends s) {i : Fin n} {p : Player m} {ring : Pipes (Fin n) (Fin n) Nat}
    (hstart : (s.player i).place ≠ .start) (hr : ring.reads = s.ring.reads)
    (hw : ring.writes = s.ring.writes) (hri : p.place.keepsRead = true)
    (hwi : p.place.keepsWrite = true) : Ends (s.go i p ring) := by
  refine hs.go (fun j k h => hr ▸ h) (fun j k h => hw ▸ h) (fun k h => ?_) fun k h => ?_
  · exact ⟨.inr ((hs.reads i k (hr ▸ h)).1.resolve_left hstart), hri⟩
  · exact ⟨.inr ((hs.writes i k (hw ▸ h)).1.resolve_left hstart), hwi⟩

theorem Ends.step (hs : Ends s) (h : Step cap s l t) : Ends t := by
  cases h with
  | closeRead i k h hk =>
      exact hs.go (fun _ _ h => (Pipes.closeRead_reads.mp h).1) (fun _ _ => id)
        (fun _ _ => ⟨.inl h, by rw [h]; rfl⟩) fun _ _ => ⟨.inl h, by rw [h]; rfl⟩
  | closeWrite i k h hk =>
      exact hs.go (fun _ _ => id) (fun _ _ h => (Pipes.closeWrite_writes.mp h).1)
        (fun _ _ => ⟨.inl h, by rw [h]; rfl⟩) fun _ _ => ⟨.inl h, by rw [h]; rfl⟩
  | begin i h hr hw =>
      refine hs.go (fun _ _ => id) (fun _ _ => id) (fun k hk => ⟨.inr ?_, rfl⟩)
        fun k hk => ⟨.inr ?_, rfl⟩
      · by_contra hne
        rw [hr k hne] at hk
        cases hk
      · by_contra hne
        rw [hw k hne] at hk
        cases hk
  | win i h hw => exact hs.stay (by simp [h]) rfl rfl rfl rfl
  | choose i d h hw => exact hs.stay (by simp [h]) rfl rfl rfl rfl
  | write i d ring h hw | epipe i d ring h hw =>
      exact hs.stay (by simp [h]) hw.reads hw.writes rfl rfl
  | read i d card ring h hr => exact hs.stay (by simp [h]) hr.reads hr.writes rfl rfl
  | eof i d ring h hr => exact hs.stay (by simp [h]) hr.reads hr.writes rfl rfl
  | leave i slot h =>
      refine hs.go (fun _ _ h => (Pipes.closeRead_reads.mp h).1) (fun _ _ => id) (fun k hk => ?_)
        fun k hk => ⟨.inr ((hs.writes i k hk).1.resolve_left (by simp [h])), rfl⟩
      obtain ⟨hread, hne⟩ := Pipes.closeRead_reads.mp hk
      exact absurd ⟨rfl, (hs.reads i k hread).1.resolve_left (by simp [h])⟩ hne
  | close i slot h =>
      refine hs.go (fun _ _ => id) (fun _ _ h => (Pipes.closeWrite_writes.mp h).1) (fun k hk => ?_)
        fun k hk => ?_
      · have hkeeps := (hs.reads i k hk).2
        rw [h] at hkeeps
        cases hkeeps
      · obtain ⟨hwrite, hne⟩ := Pipes.closeWrite_writes.mp hk
        exact absurd ⟨rfl, (hs.writes i k hwrite).1.resolve_left (by simp [h])⟩ hne

omit [NeZero m] in
theorem ends_deal (unused : Fin n → Fin n → Bool × Bool) (hands : Fin n → Fin m → Nat) :
    Ends (deal unused hands) :=
  ⟨fun _ _ _ => ⟨.inl rfl, rfl⟩, fun _ _ _ => ⟨.inl rfl, rfl⟩⟩

/-! ### Round the ring -/

omit [NeZero n] [NeZero m] in
/-- Who has started, and has an end open, is in its loop, unless it is leaving. -/
theorem inLoop_of {q : Place m} (hstart : q ≠ .start) (hleaving : q.isLeaving = false)
    (h : q.keepsRead = true ∨ q.keepsWrite = true) : q.inLoop = true := by
  cases q with
  | start => exact absurd rfl hstart
  | check | write d | read d => rfl
  | leaving slot | closing slot => cases hleaving
  | gone slot => rcases h with h | h <;> cases h

/-- The player is between a write and the read that belongs to it. -/
def Place.isRead : Place m → Bool
  | .read _ => true
  | _ => false

def Place.isWrite : Place m → Bool
  | .write _ => true
  | _ => false

section
variable (hE : Ends s) (hcap : 0 < cap) (hstart : ∀ i, (s.player i).place ≠ .start)
  (hleaving : ∀ i, (s.player i).place.isLeaving = false)
  (hblocked : ∀ i, (s.player i).place.inLoop = true → Blocked cap s i)
include hE hcap hstart hleaving hblocked

omit [NeZero m] in
/-- Who waits for a card waits for its predecessor; if that is blocked too, it waits for a card. -/
theorem pred_reads {i : Fin n} (hi : (s.player (i + 1)).place.isRead = true) :
    (s.player i).place.isRead = true := by
  have hloop : (s.player (i + 1)).place.inLoop = true := by
    cases hplace : (s.player (i + 1)).place with
    | read d => rfl
    | _ => rw [hplace] at hi; cases hi
  rcases hblocked (i + 1) hloop with ⟨d, -, hempty, hw⟩ | ⟨d, h, -⟩
  · obtain ⟨p, hp⟩ := Pipes.not_noWriter.mp hw
    obtain ⟨hown, hkeeps⟩ := hE.writes p (i + 1) hp
    obtain rfl := add_right_cancel (hown.resolve_left (hstart p))
    rcases hblocked i (inLoop_of (hstart i) (hleaving i) (.inr hkeeps)) with
      ⟨d', h, -⟩ | ⟨d', -, -, hfull⟩
    · rw [h]
      rfl
    · rw [hempty] at hfull
      exact absurd hcap (Nat.not_lt.mpr hfull)
  · rw [h] at hi
    cases hi

omit [NeZero m] in
/-- Who waits for room waits for its successor; if that is blocked too, it waits for room. -/
theorem succ_writes {i : Fin n} (hi : (s.player i).place.isWrite = true) :
    (s.player (i + 1)).place.isWrite = true := by
  have hloop : (s.player i).place.inLoop = true := by
    cases hplace : (s.player i).place with
    | write d => rfl
    | _ => rw [hplace] at hi; cases hi
  rcases hblocked i hloop with ⟨d, h, -⟩ | ⟨d, -, hr, hfull⟩
  · rw [h] at hi
    cases hi
  · obtain ⟨p, hp⟩ := Pipes.not_noReader.mp hr
    obtain ⟨hown, hkeeps⟩ := hE.reads p (i + 1) hp
    obtain rfl := hown.resolve_left (hstart p)
    rcases hblocked (i + 1) (inLoop_of (hstart _) (hleaving _) (.inl hkeeps)) with
      ⟨d', -, hempty, -⟩ | ⟨d', h, -⟩
    · rw [hempty] at hfull
      exact absurd hcap (Nat.not_lt.mpr hfull)
    · rw [h]
      rfl

end

omit [NeZero m] in
/-- **Some player is not blocked**, of those in their loops, when all others have closed their
ends. -/
theorem progress (hE : Ends s) {hands : Fin n → Fin m → Nat} (hs : s.cards = dealt hands)
    (hcap : 0 < cap) (hstart : ∀ i, (s.player i).place ≠ .start)
    (hleaving : ∀ i, (s.player i).place.isLeaving = false)
    (hin : ∃ i, (s.player i).place.inLoop = true) :
    ∃ i, (s.player i).place.inLoop = true ∧ ¬ Blocked cap s i := by
  by_contra hno
  have hblocked : ∀ i, (s.player i).place.inLoop = true → Blocked cap s i := fun i hi =>
    not_not.mp fun h => hno ⟨i, hi, h⟩
  have hcount := all_card hs
  have hpred := fun i => pred_reads hE hcap hstart hleaving hblocked (i := i)
  have hsucc := fun i => succ_writes hE hcap hstart hleaving hblocked (i := i)
  obtain ⟨i, hi⟩ := hin
  rcases hblocked i hi with ⟨d, h, -⟩ | ⟨d, h, -, hfull⟩
  · -- all wait for cards, the pipes are empty, and all slots are pending
    have hall : ∀ j, (s.player j).place.isRead = true := fun j => by
      by_contra hj
      refine ring_induction (Q := fun j => (s.player j).place.isRead ≠ true)
        (fun j hj h => hj (hpred j h)) hj i ?_
      rw [h]
      rfl
    have hread : ∀ j, (s.player j).place.slot.isSome = true ∧ s.ring.content j = [] := fun j => by
      have hj := hall j
      cases hplace : (s.player j).place with
      | read d =>
          refine ⟨rfl, ?_⟩
          rcases hblocked j (by rw [hplace]; rfl) with ⟨_, -, hempty, -⟩ | ⟨d', h, -⟩
          · exact hempty
          · cases hplace.symm.trans h
      | _ => rw [hplace] at hj; cases hj
    have hempty : s.ring.all = 0 := Finset.sum_eq_zero fun j _ => by rw [(hread j).2]; rfl
    rw [hempty, (tally_eq_card_iff fun p : Player m => p.place.slot.isSome).mpr fun j =>
      (hread j).1, Fintype.card_fin] at hcount
    exact NeZero.ne n hcount.symm
  · -- all wait for room, and no slot is pending
    have hall := ring_induction hsucc (i := i) (by rw [h]; rfl)
    rw [tally_eq_zero _ fun j => ?_] at hcount
    · have hle := s.ring.length_le_all (i + 1)
      omega
    · have hj := hall j
      cases hplace : (s.player j).place with
      | write d => rfl
      | _ => rw [hplace] at hj; cases hj

/-! ### The game -/

variable {unused : Fin n → Fin n → Bool × Bool} {hands : Fin n → Fin m → Nat}
  {tr : List (Move (State n m) (Fin n × Option Event))}

/-- A player that is leaving closes its ends; nothing blocks it. -/
theorem leaves {i : Fin n} (hi : (s.player i).place.isLeaving = true) :
    ∃ e t, Step cap s (i, e) t := by
  cases hplace : (s.player i).place with
  | leaving slot => exact ⟨_, _, .leave i slot hplace⟩
  | closing slot => exact ⟨_, _, .close i slot hplace⟩
  | _ => rw [hplace] at hi; cases hi

/-- **The game.**  In every state that can be reached: the cards in the hands, pending slots not
counted, and in the ring pipes are those that were dealt; no pipe holds more cards than there are
players; and once all players have started, while some player is in its loop, some player in its
loop is not blocked, or a player that has left its loop is yet to close its ends, and can. -/
theorem game (hcap : 0 < cap) (r : Run (Step cap) (deal unused hands) tr s) :
    s.cards = dealt hands ∧ ((dealt hands).Nodup → s.cards.Nodup) ∧
      (∀ k, (s.ring.content k).length ≤ n) ∧
      ((∀ i, (s.player i).place ≠ .start) → (∃ i, (s.player i).place.inLoop = true) →
        (∃ i, (s.player i).place.inLoop = true ∧ ¬ Blocked cap s i) ∨
          ∃ i e t, (s.player i).place.isLeaving = true ∧ Step cap s (i, e) t) := by
  have hs := cards_eq r
  refine ⟨hs, fun hnodup => hs ▸ hnodup, occupancy hs, fun hstart hin => ?_⟩
  by_cases hleaving : ∃ i, (s.player i).place.isLeaving = true
  · obtain ⟨i, hi⟩ := hleaving
    obtain ⟨e, t, hstep⟩ := (leaves hi : ∃ e t, Step cap s (i, e) t)
    exact .inr ⟨i, e, t, hi, hstep⟩
  · refine .inl (progress ?_ hs hcap hstart (fun i => ?_) hin)
    · exact r.invariant (I := Ends) (fun hE h => hE.step h) (ends_deal unused hands)
    · exact Bool.eq_false_iff.mpr fun h => hleaving ⟨i, h⟩

/-- Four hands of one suit each, but for one card of the second. -/
def threeShips (i d : Fin 4) : Nat := if i = 1 ∧ d = 3 then 50 else i + 4 * d

/-- Three players have won, and closed nothing yet; the other has passed a card. -/
theorem threeShips_run : ∃ (tr : List (Move (State 4 4) (Fin 4 × Option Event))) (s : State 4 4),
    Run (Step 16384) (deal (fun _ _ => (false, false)) threeShips) tr s ∧
      (s.player 1).place = .read 3 ∧ s.ring.content 1 = [] ∧ s.ring.writes 0 1 = true ∧
      s.ring.content 2 = [50] ∧ ∀ i ≠ 1, (s.player i).place = .leaving none := by
  have r := (((((((((Run.one (.begin 0 rfl (by decide) (by decide)) :
    Run (Step 16384) (deal (fun _ _ => (false, false)) threeShips) _ _).snoc
    (.begin 1 rfl (by decide) (by decide))).snoc
    (.begin 2 rfl (by decide) (by decide))).snoc
    (.begin 3 rfl (by decide) (by decide))).snoc
    (.win 0 rfl (by decide))).snoc
    (.choose 1 3 rfl (by decide))).snoc
    (.write 1 3 _ rfl (.ok (Pipes.not_noReader.mpr ⟨2, rfl⟩) (by decide)))).snoc
    (.win 2 rfl (by decide))).snoc
    (.win 3 rfl (by decide)))
  exact ⟨_, _, r, rfl, rfl, rfl, rfl, by decide⟩

/-- There and then the game is as it should be. -/
theorem game_threeShips : ∃ s : State 4 4, s.ring.content 2 = [50] ∧ s.cards = dealt threeShips ∧
    ∀ k, (s.ring.content k).length ≤ 4 := by
  obtain ⟨tr, s, r, -, -, -, h, -⟩ := threeShips_run
  have hgame := game (by decide) r
  exact ⟨s, h, hgame.1, hgame.2.2.1⟩

/-- The only player that is still in its loop is blocked, by the winner before it, which has not
closed its write end yet. -/
theorem blocked_by_winner :
    ∃ (tr : List (Move (State 4 4) (Fin 4 × Option Event))) (s : State 4 4),
      Run (Step 16384) (deal (fun _ _ => (false, false)) threeShips) tr s ∧
        (dealt threeShips).Nodup ∧ (∀ i, (s.player i).place ≠ .start) ∧
        (∃ i, (s.player i).place.inLoop = true) ∧
        ∀ i, (s.player i).place.inLoop = true → Blocked 16384 s i := by
  obtain ⟨tr, s, r, h₁, hempty, hwrites, -, hothers⟩ := threeShips_run
  refine ⟨tr, s, r, by decide, fun i => ?_, ⟨1, by rw [h₁]; rfl⟩, fun i hi => ?_⟩
  · by_cases hi : i = 1
    · rw [hi, h₁]
      simp
    · rw [hothers i hi]
      simp
  · by_cases h : i = 1
    · subst h
      exact .inl ⟨3, h₁, hempty, Pipes.not_noWriter.mpr ⟨0, hwrites⟩⟩
    · rw [hothers i h] at hi
      cases hi

end Sop2.Ship
