import Mathlib.Algebra.BigOperators.Ring.Finset
import Mathlib.Algebra.Group.Action.Defs
import Mathlib.Algebra.Order.BigOperators.Group.Finset
import Sop2.Lab05.Ship.Voyage
import Sop2.Support.PipedTokens
import Sop2.Support.Rings

/-!
# Lab05 — Ship — landfall

How the processes of `sop-ship.c` come to an end, whatever signals come and when.

* `no_err`: no `write` of the server fails, and every player gets the hand that it was dealt.
* `progress`: some process can go on, unless all have ended.  A ring of players that wait for each
  other would wait for cards with empty hands and empty pipes, or for room with full hands and a full
  pipe; there are `n` cards less in the hands than that, or none (`Slots`).
* `winding_down`: once some player has left its loop, there is only so much that can still happen.
-/

namespace Sop2.Voyage
open Support Support.Piped

variable {n m : Nat} [NeZero n] [NeZero m] {cap : Nat} {signalled : Fin n → Bool}
  {hands : Fin n → Fin m → Nat} {p : Option (Fin n)} {i : Fin n} {s t : State n m}
  {l : Option (Fin n) × Seen n m} {tr : List (Move (State n m) (Option (Fin n) × Seen n m))}

/-! ### The deal -/

/-- What is written to a pipe. -/
def fits (hands : Fin n → Fin m → Nat) : Pipe n → Message n m → Prop
  | .deal i, .hand cards => cards = hands i
  | .ring _, .card _ | .shared, .pid _ => True
  | _, _ => False

theorem op_writes (p : Option (Fin n)) (q : SetUp (Pipe n) (Place n m)) :
    (op signalled hands p q).Writes (fits hands) := by
  cases q with
  | closing es => cases es <;> trivial
  | working q =>
      cases p with
      | none =>
          cases q with
          | deal rest =>
              cases rest with
              | nil => trivial
              | cons i rest => exact rfl
          | _ => trivial
      | some i =>
          cases q with
          | leaving es => cases es <;> trivial
          | _ => trivial

/-- The player has no hand yet. -/
def early : SetUp (Pipe n) (Place n m) → Bool
  | .closing _ | .working .receive => true
  | _ => false

/-- The server has nothing dealt to `i` yet. -/
def undealt (i : Fin n) : SetUp (Pipe n) (Place n m) → Bool
  | .closing _ => true
  | .working (.deal rest) | .working (.dealt _ rest) => decide (i ∈ rest)
  | _ => false

/-- The hand of a player is in its pipe from when it is dealt to when it is read, and nobody has
failed. -/
structure Dealing (s : State n m) : Prop where
  before : ∀ i, undealt i (s.pc none) = true →
    s.pipes.content (.deal i) = [] ∧ early (s.pc (some i)) = true
  after : ∀ i, undealt i (s.pc none) = false → early (s.pc (some i)) = true →
    s.pipes.content (.deal i) ≠ []
  noErr : ∀ p es, s.pc p ≠ .working (.failed es)

omit [NeZero m] in
/-- Who is setting up has its own ends. -/
theorem opens_closing {es : List (End (Pipe n))} {e : End (Pipe n)} (h : own p e = true) :
    opens (m := m) p (.closing es) e = true := by
  change beside (own p) es e = true
  rw [beside, h]
  rfl

omit [NeZero m] in
theorem opens_of_early {q : SetUp (Pipe n) (Place n m)} (h : early q = true) :
    opens (some i) q (.read (.deal i)) = true := by
  have hown : own (some i) (.read (.deal i)) = true := decide_eq_true (List.mem_cons_self ..)
  cases q with
  | closing es => exact opens_closing hown
  | working q =>
      cases q with
      | receive => exact hown
      | _ => cases h

omit [NeZero m] in
theorem opens_of_undealt {q : SetUp (Pipe n) (Place n m)} (h : undealt i q = true) :
    opens none q (.write (.deal i)) = true := by
  have hmem : ∀ {rest : List (Fin n)}, i ∈ rest →
      (.write (.deal i) : End (Pipe n)) ∈ serverEnds rest := fun hi =>
    List.mem_append_left _ (List.mem_map_of_mem hi)
  cases q with
  | closing es => exact opens_closing (decide_eq_true (hmem (List.mem_finRange i)))
  | working q =>
      cases q with
      | deal rest => exact decide_eq_true (hmem (of_decide_eq_true h))
      | dealt j rest =>
          exact decide_eq_true (hmem (List.mem_cons_of_mem _ (of_decide_eq_true h)))
      | _ => cases h

/-- Who moves has not failed, so that nobody has. -/
theorem Dealing.err (hs : Dealing s) (h : Step cap signalled hands s l t)
    (herr : ∀ es, t.pc l.1 ≠ .working (.failed es)) (p : Option (Fin n))
    (es : List (End (Pipe n))) : t.pc p ≠ .working (.failed es) := by
  by_cases hp : p = l.1
  · rw [hp]
    exact herr es
  · rw [h.stays hp]
    exact hs.noErr p es

/-- A move that has nothing to do with the deal. -/
theorem Dealing.keep (hs : Dealing s) (h : Step cap signalled hands s l t)
    (hserver : ∀ i, undealt i (t.pc none) = undealt i (s.pc none))
    (hplayer : ∀ i, early (t.pc (some i)) = early (s.pc (some i)))
    (hwritten : ∀ i, l.2.written? (.deal i) = none) (htaken : ∀ i, l.2.taken? (.deal i) = none)
    (herr : ∀ es, t.pc l.1 ≠ .working (.failed es)) : Dealing t where
  before i := by
    rw [hserver, hplayer, h.content_eq (hwritten i) (htaken i)]
    exact hs.before i
  after i := by
    rw [hserver, hplayer, h.content_eq (hwritten i) (htaken i)]
    exact hs.after i
  noErr := hs.err h herr

/-- What is read is in the pipe. -/
theorem fits_of_read {k : Pipe n} {c : Message n m} (hF : Fits (fits hands) s)
    (h : Step cap signalled hands s (p, .read k c) t) : fits hands k c := by
  have hshift : s.pipes.content = _ := h.shifts
  refine hF k c ?_
  rw [hshift, Function.update_self]
  exact List.mem_cons_self ..

theorem Dealing.server {e : Seen n m} (hs : Dealing s) (hT : AllTidy s) (hF : Fits (fits hands) s)
    (h : Step cap signalled hands s (none, e) t) : Dealing t := by
  have hgoes : (op signalled hands none (s.pc none)).Goes e (t.pc none) := h.goes_at
  have hplayers : ∀ i, t.pc (some i) = s.pc (some i) := fun i => h.stays nofun
  have hkeep := fun hserver => hs.keep h hserver fun i => by rw [hplayers]
  have hok := hT.ok none
  rcases withSetUp_goes hgoes with ⟨f, es, hq, rfl, hq'⟩ | ⟨hq, rfl, hq'⟩ | ⟨w, w', hq, hq', hwork⟩
  · exact hkeep (fun i => by rw [hq, hq']; rfl) (fun _ => rfl) (fun _ => rfl) fun es h => by
      rw [hq'] at h
      cases h
  · refine hkeep (fun i => ?_) (fun _ => rfl) (fun _ => rfl) fun es h => ?_
    · rw [hq, hq']
      exact decide_eq_true (List.mem_finRange i)
    · rw [hq'] at h
      cases h
  · rw [hq] at hok
    cases goes_moves hwork with
    | deal j rest =>
        -- the hand of `j` is in its pipe now
        have hj : j ∉ rest := fun hj =>
          (List.nodup_cons.mp hok.2).1 (List.mem_append_left _ (List.mem_map_of_mem hj))
        have hshift : t.pipes.content = _ := h.shifts
        have hsame : ∀ i ≠ j, t.pipes.content (.deal i) = s.pipes.content (.deal i) := fun i hi => by
          rw [hshift, Function.update_of_ne fun h => hi (Pipe.deal.inj h)]
        have hundealt : ∀ i ≠ j, undealt i (s.pc none) = undealt i (t.pc none) := fun i hi => by
          rw [hq, hq']
          simp [undealt, hi]
        refine ⟨fun i hi => ?_, fun i hi => ?_, hs.err h fun es h => ?_⟩
        · have hne : i ≠ j := by
            rintro rfl
            rw [hq'] at hi
            exact hj (of_decide_eq_true hi)
          rw [hsame i hne, hplayers]
          exact hs.before i ((hundealt i hne).trans hi)
        · rw [hplayers]
          by_cases hne : i = j
          · intro
            rw [hne, hshift, Function.update_self]
            exact List.append_ne_nil_of_right_ne_nil _ (List.cons_ne_nil _ _)
          · rw [hsame i hne]
            exact hs.after i ((hundealt i hne).trans hi)
        · rw [hq'] at h
          cases h
    | dealFails j rest =>
        -- the player `j` has the pipe open
        have hearly := (hs.before j (by rw [hq]; simp [undealt])).2
        have hopen := opens_of_early (i := j) hearly
        rw [hT.noReader.mp h.of_epipe (some j)] at hopen
        cases hopen
    | hear c =>
        have hfits := fits_of_read hF h
        refine hkeep (fun i => ?_) (fun _ => rfl) (fun _ => by simp [Event.taken?])
          fun es h => ?_
        · rw [hq, hq']
          cases c <;> rfl
        · rw [hq'] at h
          cases c with
          | pid i => cases h
          | hand cards | card card => exact hfits.elim
    | dealt | await | nobody | won | close | wait =>
        exact hkeep (fun i => by rw [hq, hq']; rfl) (fun _ => rfl) (fun _ => rfl) fun es h => by
          rw [hq'] at h
          cases h

theorem Dealing.player {j : Fin n} {e : Seen n m} (hs : Dealing s) (hT : AllTidy s)
    (hF : Fits (fits hands) s) (h : Step cap signalled hands s (some j, e) t) : Dealing t := by
  have hgoes : (op signalled hands (some j) (s.pc (some j))).Goes e (t.pc (some j)) := h.goes_at
  have hserver : t.pc none = s.pc none := h.stays nofun
  have hothers : ∀ i ≠ j, t.pc (some i) = s.pc (some i) := fun i hi =>
    h.stays fun heq => hi (Option.some.inj heq)
  have hkeep := fun hj : early (t.pc (some j)) = early (s.pc (some j)) =>
    hs.keep h (fun i => by rw [hserver]) fun i => by
      by_cases hi : i = j
      · rw [hi, hj]
      · rw [hothers i hi]
  rcases withSetUp_goes hgoes with ⟨f, es, hq, rfl, hq'⟩ | ⟨hq, rfl, hq'⟩ | ⟨w, w', hq, hq', hwork⟩
  · exact hkeep (by rw [hq, hq']; rfl) (fun _ => rfl) (fun _ => rfl) fun es h => by
      rw [hq'] at h
      cases h
  · exact hkeep (by rw [hq, hq']; rfl) (fun _ => rfl) (fun _ => rfl) fun es h => by
      rw [hq'] at h
      cases h
  · cases goes_moves hwork with
    | receive _ c =>
        have hfits := fits_of_read hF h
        have hshift : s.pipes.content = _ := h.shifts
        have hlate : early (t.pc (some j)) = false := by
          rw [hq']
          cases c <;> rfl
        have hsame : ∀ i ≠ j, t.pipes.content (.deal i) = s.pipes.content (.deal i) := fun i hi => by
          rw [hshift, Function.update_of_ne fun h => hi (Pipe.deal.inj h)]
        refine ⟨fun i hi => ?_, fun i hi hearly => ?_, hs.err h fun es h => ?_⟩
        · rw [hserver] at hi
          have hne : i ≠ j := by
            rintro rfl
            have hempty := (hs.before i hi).1
            rw [hshift, Function.update_self] at hempty
            cases hempty
          rw [hsame i hne, hothers i hne]
          exact hs.before i hi
        · have hne : i ≠ j := by
            rintro rfl
            rw [hlate] at hearly
            cases hearly
          rw [hserver] at hi
          rw [hothers i hne] at hearly
          rw [hsame i hne]
          exact hs.after i hi hearly
        · rw [hq'] at h
          cases c with
          | hand cards => cases h
          | card | pid => exact hfits.elim
    | noHand =>
        -- the hand is in the pipe, or the server has it open
        obtain ⟨hempty, hw⟩ := h.of_eof
        cases hj : undealt j (s.pc none) with
        | true =>
            have hopen := opens_of_undealt hj
            rw [hT.noWriter.mp hw none] at hopen
            cases hopen
        | false => exact absurd hempty (hs.after j hj (by rw [hq]; rfl))
    | draw _ hand discard c =>
        have hfits := fits_of_read hF h
        refine hkeep ?_ (fun _ => rfl) (fun _ => by simp [Event.taken?]) fun es h => ?_
        · rw [hq, hq']
          cases c <;> rfl
        · rw [hq'] at h
          cases c with
          | card card => cases h
          | hand | pid => exact hfits.elim
    | announce | pass =>
        refine hkeep (by rw [hq, hq']; rfl) (fun _ => by simp [Event.written?]) (fun _ => rfl)
          fun es h => ?_
        rw [hq'] at h
        cases h
    | _ =>
        exact hkeep (by rw [hq, hq']; rfl) (fun _ => rfl) (fun _ => rfl) fun es h => by
          rw [hq'] at h
          cases h

omit [NeZero m] in
theorem dealing_begin : Dealing (begin n m) :=
  ⟨fun _ _ => ⟨rfl, rfl⟩, nofun, nofun⟩

theorem fits_run (r : Run (Step cap signalled hands) (begin n m) tr s) : Fits (fits hands) s :=
  Fits.run op_writes r fun _ => rfl

theorem dealing_run (r : Run (Step cap signalled hands) (begin n m) tr s) : Dealing s := by
  induction r with
  | refl => exact dealing_begin
  | @snoc t u tr l r h ih =>
      obtain ⟨p, e⟩ := l
      cases p with
      | none => exact ih.server (tidy_run r) (fits_run r) h
      | some j => exact ih.player (tidy_run r) (fits_run r) h

/-! ### The cards -/

/-- A card in a ring pipe. -/
def ringCost : Pipe n → Nat
  | .ring _ => 1
  | _ => 0

/-- A player has all its cards, or lacks one; one that has left its loop counts as `gone`. -/
def slot (gone : Nat) : Option (Fin n) → SetUp (Pipe n) (Place n m) → Nat
  | none, _ => 0
  | some _, .working (.passed ..) | some _, .working (.drawing ..) => 0
  | some _, .working (.leaving _) | some _, .working (.failed _) | some _, .working .gone => gone
  | some _, _ => 1

/-- There are as many cards in the ring as players lack one, but for those that have left. -/
def Slots (s : State n m) : Prop :=
  s.weigh ringCost (slot 0) ≤ n ∧ n ≤ s.weigh ringCost (slot 1)

/-- A card that is passed is in the ring. -/
theorem slot_goes {q q' : SetUp (Pipe n) (Place n m)} {e : Seen n m}
    (h : (op signalled hands p q).Goes e q') :
    slot 0 p q' + e.into ringCost ≤ slot 0 p q + e.out ringCost ∧
      slot 1 p q + e.out ringCost ≤ slot 1 p q' + e.into ringCost := by
  rcases withSetUp_goes h with ⟨f, es, rfl, rfl, rfl⟩ | ⟨rfl, rfl, rfl⟩ | ⟨w, w', rfl, rfl, hgoes⟩
  · cases p with
    | none | some i => exact ⟨Nat.le_refl _, Nat.le_refl _⟩
  · cases p with
    | none | some i => exact ⟨Nat.le_refl _, Nat.le_refl _⟩
  · cases goes_moves hgoes with
    | receive i c | draw i hand discard c =>
        cases c <;> simp [slot, handed, drawn, Event.into, Event.out, ringCost]
    | leave i e es => exact ⟨Nat.le_refl _, Nat.le_refl _⟩
    | _ => exact ⟨by simp [slot, Event.into, Event.out, ringCost],
        by simp [slot, Event.into, Event.out, ringCost]⟩

theorem Slots.step (hs : Slots s) (h : Step cap signalled hands s l t) : Slots t := by
  obtain ⟨hless, hmore⟩ := slot_goes h.goes_at
  have hzero : t.weigh ringCost (slot 0) + l.2.out ringCost + slot 0 l.1 (s.pc l.1) =
      s.weigh ringCost (slot 0) + l.2.into ringCost + slot 0 l.1 (t.pc l.1) := h.weigh
  have hone : t.weigh ringCost (slot 1) + l.2.out ringCost + slot 1 l.1 (s.pc l.1) =
      s.weigh ringCost (slot 1) + l.2.into ringCost + slot 1 l.1 (t.pc l.1) := h.weigh
  obtain ⟨hle, hge⟩ := hs
  exact ⟨by omega, by omega⟩

omit [NeZero m] in
theorem slots_begin : Slots (begin n m) := by
  have hpipes : ∑ k, ((begin n m).pipes.content k).length * ringCost k = 0 := by
    simp [begin, everyEnd]
  have hplaces : ∀ gone, ∑ p, slot gone p ((begin n m).pc p) = n := fun gone => by
    rw [Fintype.sum_option]
    change 0 + ∑ i : Fin n, 1 = n
    simp
  rw [Slots, State.weigh, State.weigh, hpipes, hplaces, hplaces, Nat.zero_add]
  exact ⟨Nat.le_refl n, Nat.le_refl n⟩

theorem slots_run (r : Run (Step cap signalled hands) (begin n m) tr s) : Slots s :=
  r.invariant (I := Slots) (fun hs h => hs.step h) slots_begin

/-! ### Some process goes on -/

/-- The player waits for a card. -/
def Draws (s : State n m) (i : Fin n) : Prop :=
  (∃ hand discard, s.pc (some i) = .working (.drawing hand discard)) ∧
    s.pipes.content (.ring i) = [] ∧ ¬ s.pipes.NoWriter (.ring i)

/-- The player waits for room. -/
def Passes (cap : Nat) (s : State n m) (i : Fin n) : Prop :=
  (∃ hand discard, s.pc (some i) = .working (.passing hand discard)) ∧
    ¬ s.pipes.NoReader (.ring (i + 1)) ∧ cap ≤ (s.pipes.content (.ring (i + 1))).length

/-- The player waits until it can say that it has won. -/
def Announces (cap : Nat) (s : State n m) (i : Fin n) : Prop :=
  s.pc (some i) = .working .announce ∧
    ¬ s.pipes.NoReader .shared ∧ cap ≤ (s.pipes.content .shared).length

/-- The server waits for a winner. -/
def Awaits (s : State n m) : Prop :=
  s.pc none = .working .awaiting ∧ s.pipes.content .shared = [] ∧ ¬ s.pipes.NoWriter .shared

/-- Nobody can go on. -/
abbrev AllBlocked (cap : Nat) (signalled : Fin n → Bool) (hands : Fin n → Fin m → Nat)
    (s : State n m) : Prop :=
  ∀ p, (op signalled hands p (s.pc p)).Blocks cap (op signalled hands) s p

section
variable (hcap : 0 < cap) (hT : AllTidy s) (hD : Dealing s)
  (hblocked : AllBlocked cap signalled hands s)
include hcap hT hD hblocked

/-- **What keeps the server.** -/
theorem server_blocked :
    Awaits s ∨ s.pc none = .working .waiting ∨ s.pc none = .working .gone := by
  have h := hblocked none
  have hok := hT.ok none
  cases hq : s.pc none with
  | closing es =>
      rw [hq] at h
      cases es <;> exact h.elim
  | working q =>
      rw [hq] at h hok
      cases q with
      | deal rest =>
          cases rest with
          | nil => exact h.elim
          | cons i rest =>
              have hempty := (hD.before i (by rw [hq]; simp [undealt])).1
              have hfull : cap ≤ (s.pipes.content (.deal i)).length := h.2
              rw [hempty] at hfull
              exact absurd hcap (Nat.not_lt.mpr hfull)
      | awaiting => exact .inl ⟨hq, h.1, h.2.1⟩
      | waiting => exact .inr (.inl rfl)
      | gone => exact .inr (.inr rfl)
      | dealt | won | closing => exact h.elim
      | failed es => exact absurd hq (hD.noErr none es)
      | _ => cases hok.1

/-- **What keeps a player.** -/
theorem player_place (i : Fin n) :
    s.pc (some i) = .working .gone ∨ Draws s i ∨ Passes cap s i ∨ Announces cap s i := by
  have h := hblocked (some i)
  have hok := hT.ok (some i)
  cases hq : s.pc (some i) with
  | closing es =>
      rw [hq] at h
      cases es <;> exact h.elim
  | working q =>
      rw [hq] at h hok
      cases q with
      | receive =>
          -- the hand is in the pipe
          have hdealt : undealt i (s.pc none) = false := by
            rcases server_blocked hcap hT hD hblocked with hawaits | hserver | hserver
            · rw [hawaits.1]
              rfl
            · rw [hserver]
              rfl
            · rw [hserver]
              rfl
          exact absurd h.1 (hD.after i hdealt (by rw [hq]; rfl))
      | check hand =>
          have hrandom := h (.random 0)
          simp only [Option.map_eq_none_iff] at hrandom
          split at hrandom <;> cases hrandom
      | announce => exact .inr (.inr (.inr ⟨hq, h⟩))
      | passing hand discard => exact .inr (.inr (.inl ⟨⟨hand, discard, hq⟩, h⟩))
      | drawing hand discard => exact .inr (.inl ⟨⟨hand, discard, hq⟩, h.1, h.2.1⟩)
      | leaving es => cases es <;> exact h.elim
      | gone => exact .inl rfl
      | received | passed => exact h.elim
      | failed es => exact absurd hq (hD.noErr _ es)
      | _ => cases hok.1

/-- Who has an end open: a player that waits in its loop, or a server that waits for a winner. -/
theorem opens_blocked {e : End (Pipe n)} (h : s.has p e = true) :
    (p = none ∧ Awaits s ∧ e = .read .shared) ∨
      ∃ i, p = some i ∧ e ∈ ringEnds i ∧ (Draws s i ∨ Passes cap s i ∨ Announces cap s i) := by
  rw [hT.has p] at h
  cases p with
  | none =>
      rcases server_blocked hcap hT hD hblocked with hawaits | hq | hq
      · rw [hawaits.1] at h
        exact .inl ⟨rfl, hawaits, List.mem_singleton.mp (of_decide_eq_true h)⟩
      · rw [hq] at h
        cases h
      · rw [hq] at h
        cases h
  | some i =>
      refine .inr ⟨i, rfl, ?_⟩
      rcases player_place hcap hT hD hblocked i with hq | hwaits
      · rw [hq] at h
        cases h
      · refine ⟨?_, hwaits⟩
        rcases hwaits with ⟨⟨_, _, hq⟩, -⟩ | ⟨⟨_, _, hq⟩, -⟩ | ⟨hq, -⟩ <;> rw [hq] at h <;>
          exact of_decide_eq_true h

/-- Nobody waits for room in the pipe `shared`: the only one who reads it is a server that has nothing
to read. -/
theorem not_announces (i : Fin n) : ¬ Announces cap s i := by
  rintro ⟨-, hr, hfull⟩
  obtain ⟨q, hq⟩ := Pipes.not_noReader.mp hr
  rcases opens_blocked hcap hT hD hblocked (p := q) (e := .read .shared) hq with
    ⟨-, hawaits, -⟩ | ⟨j, -, hmem, -⟩
  · rw [hawaits.2.1] at hfull
    exact absurd hcap (Nat.not_lt.mpr hfull)
  · simp [ringEnds] at hmem

/-- Who waits for a card waits for the player before it; if that cannot go on, it waits for a card
too. -/
theorem pred_draws (h : Draws s i) : Draws s (i - 1) := by
  obtain ⟨q, hq⟩ := Pipes.not_noWriter.mp h.2.2
  rcases opens_blocked hcap hT hD hblocked (p := q) (e := .write (.ring i)) hq with
    ⟨-, -, he⟩ | ⟨j, -, hmem, hwaits⟩
  · cases he
  · obtain rfl : i = j + 1 := by simpa [ringEnds] using hmem
    rw [add_sub_cancel_right]
    rcases hwaits with hdraws | ⟨-, -, hfull⟩ | hannounces
    · exact hdraws
    · rw [h.2.1] at hfull
      exact absurd hcap (Nat.not_lt.mpr hfull)
    · exact absurd hannounces (not_announces hcap hT hD hblocked j)

/-- Who waits for room waits for the player behind it; if that cannot go on, it waits for room
too. -/
theorem succ_passes (h : Passes cap s i) : Passes cap s (i + 1) := by
  obtain ⟨q, hq⟩ := Pipes.not_noReader.mp h.2.1
  rcases opens_blocked hcap hT hD hblocked (p := q) (e := .read (.ring (i + 1))) hq with
    ⟨-, -, he⟩ | ⟨j, -, hmem, hwaits⟩
  · cases he
  · obtain rfl : i + 1 = j := by simpa [ringEnds] using hmem
    rcases hwaits with ⟨-, hempty, -⟩ | hpasses | hannounces
    · have hfull := h.2.2
      rw [hempty] at hfull
      exact absurd hcap (Nat.not_lt.mpr hfull)
    · exact hpasses
    · exact absurd hannounces (not_announces hcap hT hD hblocked _)

/-- Nobody waits for a card: all would, and there would be none. -/
theorem not_draws (hS : Slots s) (i : Fin n) : ¬ Draws s i := by
  intro h
  have hall := ring_induction_pred (fun j => pred_draws hcap hT hD hblocked (i := j)) h
  have hzero : s.weigh ringCost (slot 1) = 0 := by
    have hpipes : ∑ k, (s.pipes.content k).length * ringCost k = 0 :=
      Finset.sum_eq_zero fun k _ => by
        cases k with
        | ring j =>
            rw [(hall j).2.1]
            rfl
        | deal | shared => rfl
    have hplaces : ∑ p, slot 1 p (s.pc p) = 0 := Finset.sum_eq_zero fun p _ => by
      cases p with
      | none => rfl
      | some j =>
          obtain ⟨⟨hand, discard, hq⟩, -⟩ := hall j
          rw [hq]
          rfl
    rw [State.weigh, hpipes, hplaces]
  have hn := hS.2
  rw [hzero] at hn
  exact absurd (NeZero.pos n) (Nat.not_lt.mpr hn)

/-- Nobody waits for room: all would, and have all their cards. -/
theorem not_passes (hS : Slots s) (i : Fin n) : ¬ Passes cap s i := by
  intro h
  have hall := ring_induction (fun j => succ_passes hcap hT hD hblocked (i := j)) h
  have hplaces : ∑ p, slot 0 p (s.pc p) = n := by
    rw [Fintype.sum_option, Finset.sum_congr rfl fun j _ => ?_]
    · change 0 + ∑ j : Fin n, 1 = n
      simp
    · obtain ⟨⟨hand, discard, hq⟩, -⟩ := hall j
      rw [hq]
      rfl
  have hfull := h.2.2
  have hpipe : (s.pipes.content (.ring (i + 1))).length * 1 ≤
      ∑ k, (s.pipes.content k).length * ringCost k :=
    Finset.single_le_sum (f := fun k => (s.pipes.content k).length * ringCost k)
      (fun _ _ => Nat.zero_le _) (Finset.mem_univ (Pipe.ring (i + 1)))
  have hle := hS.1
  rw [State.weigh, hplaces] at hle
  omega

end

/-- **Some process goes on**, unless all have ended. -/
theorem progress (hcap : 0 < cap) (hT : AllTidy s) (hD : Dealing s) (hS : Slots s) :
    (∀ p, s.pc p = .working .gone) ∨ ∃ l t, Step cap signalled hands s l t := by
  by_contra hno
  obtain ⟨hended, hstep⟩ := not_or.mp hno
  have hblocked : AllBlocked cap signalled hands s := fun p =>
    blocks_of_stuck fun ⟨e, t, h⟩ => hstep ⟨_, _, h⟩
  have hplayers : ∀ i, s.pc (some i) = .working .gone := fun i =>
    (player_place hcap hT hD hblocked i).resolve_right fun h => by
      rcases h with h | h | h
      · exact not_draws hcap hT hD hblocked hS i h
      · exact not_passes hcap hT hD hblocked hS i h
      · exact not_announces hcap hT hD hblocked i h
  rcases server_blocked hcap hT hD hblocked with ⟨-, -, hw⟩ | hq | hq
  · -- nobody is left to write
    obtain ⟨q, hq⟩ := Pipes.not_noWriter.mp hw
    rcases opens_blocked hcap hT hD hblocked (p := q) (e := .write .shared) hq with
      ⟨-, -, he⟩ | ⟨i, -, -, hwaits⟩
    · cases he
    · rcases hwaits with ⟨⟨_, _, h⟩, -⟩ | ⟨⟨_, _, h⟩, -⟩ | ⟨h, -⟩ <;> rw [hplayers i] at h <;>
        cases h
  · -- nobody is left to wait for
    have hwait := hblocked none
    rw [hq] at hwait
    obtain ⟨r, hne, hr⟩ := hwait
    cases r with
    | none => exact hne rfl
    | some i =>
        rw [hplayers i] at hr
        exact hr rfl
  · refine hended fun p => ?_
    cases p with
    | none => exact hq
    | some i => exact hplayers i

/-! ### Winding down -/

/-- Out of the loop. -/
def left : SetUp (Pipe n) (Place n m) → Bool
  | .working .announce | .working (.leaving _) | .working (.failed _) | .working .gone => true
  | _ => false

/-- What is still to be done with a card in a pipe, when the player `z` has left its loop. -/
def cost (z : Fin n) : Pipe n → Nat
  | .ring k => 4 * away z k
  | _ => 0

/-- What is still to be done with a card that `p` passes on. -/
def passOn (z : Fin n) : Option (Fin n) → Nat
  | none => 0
  | some i => 4 * away z (i + 1)

/-- What a process has still to do. -/
def effort (z : Fin n) (p : Option (Fin n)) : SetUp (Pipe n) (Place n m) → Nat
  | .closing es => passOn z p + 2 * n + 11 + es.length
  | .working (.deal rest) => 2 * rest.length + 5
  | .working (.dealt _ rest) => 2 * rest.length + 6
  | .working .awaiting => 4
  | .working (.won _) => 3
  | .working .closing => 2
  | .working .waiting => 1
  | .working .receive => passOn z p + 10
  | .working (.received _) => passOn z p + 9
  | .working (.check _) => passOn z p + 8
  | .working (.passing ..) => passOn z p + 7
  | .working (.passed ..) => 6
  | .working (.drawing ..) => 5
  | .working .announce => 5
  | .working (.leaving es) => es.length + 1
  | .working (.failed _) | .working .gone => 0

/-- Every operation uses something up. -/
theorem effort_lt {z : Fin n} {q q' : SetUp (Pipe n) (Place n m)} {e : Seen n m}
    (h : (op signalled hands p q).Goes e q') (hz : p = some z → left q = true) :
    effort z p q' + e.into (cost z) < effort z p q + e.out (cost z) := by
  rcases withSetUp_goes h with ⟨f, es, rfl, rfl, rfl⟩ | ⟨rfl, rfl, rfl⟩ | ⟨w, w', rfl, rfl, hgoes⟩
  · exact Nat.lt_succ_self _
  · cases p with
    | none =>
        change 2 * (List.finRange n).length + 5 < passOn z none + 2 * n + 11
        rw [List.length_finRange]
        omega
    | some i =>
        change passOn z (some i) + 10 < passOn z (some i) + 2 * n + 11
        omega
  · cases goes_moves hgoes with
    | receive i c | hear c =>
        cases c <;> simp [effort, handed, winner, Event.into, Event.out, cost]
    | draw i hand discard c =>
        have hsucc : away z (i + 1) + 1 = away z i := away_succ fun hi => by
          have hleft := hz (congrArg some hi)
          cases hleft
        cases c with
        | card card =>
            change 4 * away z (i + 1) + 8 < 5 + 4 * away z i
            omega
        | hand | pid => exact Nat.lt_add_right _ (by decide : 0 < 5)
    | deal i rest =>
        change 2 * rest.length + 6 < 2 * (rest.length + 1) + 5
        omega
    | pass i hand discard =>
        change 6 + 4 * away z (i + 1) < 4 * away z (i + 1) + 7
        omega
    | sigint i hand hsig =>
        change 4 < passOn z (some i) + 8
        omega
    | sails i hand hwin =>
        change 5 < passOn z (some i) + 8
        omega
    | epipe i hand discard =>
        change 4 < passOn z (some i) + 7
        omega
    | _ => simp [effort, Event.into, Event.out, cost, ringEnds]

theorem left_step (h : Step cap signalled hands s l t) (hi : left (s.pc (some i)) = true) :
    left (t.pc (some i)) = true := by
  by_cases hl : some i = l.1
  · have hgoes := h.goes_at
    rw [hl] at hi ⊢
    rcases withSetUp_goes hgoes with ⟨f, es, hq, -, -⟩ | ⟨hq, -, -⟩ | ⟨w, w', hq, hq', hwork⟩
    · rw [hq] at hi
      cases hi
    · rw [hq] at hi
      cases hi
    · rw [hq] at hi
      rw [hq']
      generalize l.1 = p at hwork
      generalize l.2 = e at hwork
      cases goes_moves hwork <;> first | rfl | cases hi
  · rwa [h.stays hl]

/-- How much can still happen once some player has left its loop. -/
def windingDown (n : Nat) : Nat := (n + 1) * (10 * n + 13) + n * (4 * n)

omit [NeZero m] in
theorem effort_le {z : Fin n} {q : SetUp (Pipe n) (Place n m)}
    (hq : SetUp.Ok (ok p) (own p) (start p) q) : effort z p q ≤ 10 * n + 13 := by
  have hpass : passOn z p ≤ 4 * n := by
    cases p with
    | none => exact Nat.zero_le _
    | some i => exact Nat.mul_le_mul_left 4 (away_lt z (i + 1)).le
  have hends : ∀ {es : List (End (Pipe n))}, es.Nodup → es.length ≤ 4 * n + 2 := fun hes =>
    length_allEnds (n := n) ▸ (hes.subperm fun e _ => mem_allEnds e).length_le
  cases q with
  | closing es =>
      have := hends hq.1.nodup
      simp only [effort]
      omega
  | working q =>
      cases q with
      | deal rest | dealt i rest | leaving es =>
          have hlength := hends hq.2
          cases p <;> simp [held, serverEnds] at hlength <;> simp only [effort] <;> omega
      | _ =>
          simp only [effort]
          omega

/-- **Winding down.**  Once some player has left its loop, every run has an end. -/
theorem winding_down {z : Fin n} (hT : AllTidy s) (hS : Slots s)
    (hz : left (s.pc (some z)) = true) {tr : List (Move (State n m) (Option (Fin n) × Seen n m))}
    (r : Run (Step cap signalled hands) s tr t) : tr.length ≤ windingDown n := by
  have hrun := r.length_le (J := fun s => left (s.pc (some z)) = true)
    (Φ := fun s => s.weigh (cost z) (effort z)) (fun hz h => left_step h hz)
    (fun {s l t} hz h => by
      have hweigh : t.weigh (cost z) (effort z) + l.2.out (cost z) + effort z l.1 (s.pc l.1) =
          s.weigh (cost z) (effort z) + l.2.into (cost z) + effort z l.1 (t.pc l.1) := h.weigh
      have hlt := effort_lt h.goes_at (z := z) fun hp => by rw [hp]; exact hz
      omega) hz
  -- there are not more cards in the ring than players
  have hpipes : ∑ k, (s.pipes.content k).length * cost z k ≤ n * (4 * n) := by
    have hring : ∑ k, (s.pipes.content k).length * ringCost k ≤ n := (Nat.le_add_right _ _).trans hS.1
    calc ∑ k, (s.pipes.content k).length * cost z k
        ≤ ∑ k, (s.pipes.content k).length * ringCost k * (4 * n) :=
          Finset.sum_le_sum fun k _ => by
            rw [Nat.mul_assoc]
            refine Nat.mul_le_mul_left _ ?_
            cases k with
            | ring j =>
                rw [ringCost, Nat.one_mul]
                exact Nat.mul_le_mul_left 4 (away_lt z j).le
            | deal | shared => exact Nat.zero_le _
      _ = (∑ k, (s.pipes.content k).length * ringCost k) * (4 * n) := (Finset.sum_mul ..).symm
      _ ≤ n * (4 * n) := Nat.mul_le_mul_right _ hring
  have hplaces : ∑ p, effort z p (s.pc p) ≤ (n + 1) * (10 * n + 13) := by
    have hsum := Finset.sum_le_card_nsmul Finset.univ (fun p => effort z p (s.pc p)) (10 * n + 13)
      fun p _ => effort_le (hT.ok p)
    rwa [Finset.card_univ, Fintype.card_option, Fintype.card_fin, smul_eq_mul] at hsum
  rw [State.weigh, State.weigh] at hrun
  rw [windingDown]
  omega

/-- **The end.**  In every reachable state nobody has failed, and some process can go on, unless all
have ended, who have no end of a pipe open then.  Once some player has left its loop, for whatever
reason, and whatever the others do, not more than `windingDown n` things can still happen; so all
processes come to an end. -/
theorem landfall_law (hcap : 0 < cap) (r : Run (Step cap signalled hands) (begin n m) tr s) :
    (∀ p es, s.pc p ≠ .working (.failed es)) ∧
    ((∀ p, s.pc p = .working .gone) ∧ (∀ p e, s.has p e = false) ∨
      ∃ l t, Step cap signalled hands s l t) ∧
    ((∃ i, left (s.pc (some i)) = true) → ∀ tr' t, Run (Step cap signalled hands) s tr' t →
      tr'.length ≤ windingDown n) := by
  have hT := tidy_run r
  have hD := dealing_run r
  refine ⟨hD.noErr, (progress hcap hT hD (slots_run r)).imp_left fun hgone => ⟨hgone, fun p e => ?_⟩,
    fun ⟨_, hz⟩ _ _ r' => winding_down hT (slots_run r) hz r'⟩
  rw [hT.has p, hgone p]
  cases p <;> rfl

/-- Four hands of one suit each. -/
def oneSuit (i d : Fin 4) : Nat := i + 4 * d

/-- The server has dealt, and the player `i` has looked at its hand. -/
def firstTurns (i : Fin 4) : List (Option (Fin 4) × Option Answer) :=
  List.replicate 23 (none, none) ++ List.replicate 17 (some i, none) ++ [(some i, some (.random 0))]

/-- The first player has won, and from there it is not far to the end. -/
theorem landfall_law_oneSuit : ∃ s : State 4 4, left (s.pc (some 0)) = true ∧
    ∀ tr t, Run (Step 1 (fun _ => false) oneSuit) s tr t → tr.length ≤ 329 := by
  have hplay : (play 1 (op (fun _ => false) oneSuit) (begin 4 4) (firstTurns 0)).map
      (fun x => left (x.2.pc (some 0))) = some true := by decide +kernel
  obtain ⟨tr, s, r, h⟩ := play_map hplay
  exact ⟨s, h, (landfall_law (by decide) r).2.2 ⟨0, h⟩⟩

end Sop2.Voyage
