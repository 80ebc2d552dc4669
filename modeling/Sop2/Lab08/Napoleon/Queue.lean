import Mathlib.Data.Fintype.Basic
import Mathlib.Data.List.Perm.Basic
import Mathlib.Logic.Function.Basic
import Sop2.Support.Runs

/-!
# Lab08 — Napoleon — the reports

`lab08/napoleon/napoleon.c`: the stack of reports between `main`, which receives them, and the
adjutants, who wait on `stack_cond` for them (`adjutant_thread`, the event loop and the end of
`main`).

A section of `main` under `stack_mutex` is one step.  A section of an adjutant is several, because
`do_work` changes without the mutex: `SIGINT` is blocked in every thread but for the time that
`main` spends in `epoll_pwait`, and there the signal ends the wait.  The mutex is free when no
adjutant is inside such a section (`Free`).

* `Sound`: the invariant.  Whoever is about to wait has seen an empty stack that is still empty,
  so a report is never on the stack with all adjutants asleep; and nothing is pushed after
  `do_work` was cleared.
* `report_law`: every report that was pushed is on the stack or was popped by one adjutant, and
  the stack is empty when they have all left.
-/

namespace Sop2.Napoleon
open Support

/-- `STACK_SIZE`. -/
def stackSize : Int := 16

/-- `MAX_EVENTS`. -/
def maxEvents : Nat := 10

/-- The adjutants; `WORKERS_COUNT` is 4. -/
abbrev Worker := Fin 4

theorem worker_cases : ∀ i : Worker, i = 0 ∨ i = 1 ∨ i = 2 ∨ i = 3 := by decide

-- reports are copied as a whole; what they say does not matter here
variable {M : Type*}

/-- Where an adjutant is. -/
inductive Adjutant (M : Type*) where
  /-- Outside, and on the way to the mutex; also inside `pthread_cond_wait` after it was woken. -/
  | lock
  /-- Inside, before the condition of the inner loop. -/
  | testing
  /-- Inside, about to call `pthread_cond_wait`. -/
  | waiting
  | asleep
  /-- Inside, after the inner loop. -/
  | leaving
  | busy (msg : M)
  | gone
  deriving DecidableEq

/-- Where `main` is. -/
inductive Main (M : Type*) where
  /-- At the condition of the event loop. -/
  | check
  | epoll
  /-- So many events of the batch are still to be handled. -/
  | receive (events : Nat)
  /-- A datagram was received. -/
  | received (msg : M) (events : Nat)
  /-- After the event loop. -/
  | broadcast
  | joining

/-- The stack, `do_work`, and where the threads are. -/
structure State (M : Type*) where
  doWork : Bool
  stack : Int → M
  top : Int
  main : Main M
  adj : Worker → Adjutant M

/-- Before the event loop; the stack is not initialised. -/
def begin (stack : Int → M) : State M := ⟨true, stack, 0, .check, fun _ => .lock⟩

/-- The adjutant holds `stack_mutex`. -/
def Adjutant.Holds : Adjutant M → Prop
  | .testing | .waiting | .leaving => True
  | _ => False

/-- The adjutant is awake in the locking part of its loop, or busy with a report. -/
def Adjutant.Active : Adjutant M → Prop
  | .lock | .testing | .leaving | .busy _ => True
  | _ => False

instance : DecidablePred (Adjutant.Holds (M := M))
  | .testing | .waiting | .leaving => .isTrue trivial
  | .lock | .asleep | .busy _ | .gone => .isFalse id

/-- `stack_mutex` can be taken. -/
def State.Free (s : State M) : Prop := ∀ i, ¬ (s.adj i).Holds

instance (s : State M) : Decidable s.Free := inferInstanceAs (Decidable (∀ _, ¬ _))

/-- The adjutants `W` that are asleep are woken. -/
def wake (W : Worker → Bool) (adj : Worker → Adjutant M) : Worker → Adjutant M := fun i =>
  match adj i, W i with
  | .asleep, true => .lock
  | a, _ => a

inductive Label (M : Type*) where
  | main
  | sigint
  | push (msg : M)
  | reject (msg : M)
  | broadcast
  | adjutant (i : Worker)
  | pop (i : Worker) (msg : M)

/-- One step of a thread.  `pthread_cond_signal` wakes somebody if somebody sleeps. -/
inductive Step : State M → Label M → State M → Prop where
  | check {s : State M} (h : s.main = .check) :
      Step s .main { s with main := if s.doWork then .epoll else .broadcast }
  | ready {s : State M} (nfds : Nat) (h : s.main = .epoll) (hn : nfds ≤ maxEvents) :
      Step s .main { s with main := .receive nfds }
  /-- `EINTR` for another reason. -/
  | interrupted {s : State M} (h : s.main = .epoll) : Step s .main { s with main := .check }
  | sigint {s : State M} (h : s.main = .epoll) :
      Step s .sigint { s with doWork := false, main := .check }
  | handled {s : State M} (h : s.main = .receive 0) : Step s .main { s with main := .check }
  | nothing {s : State M} (k : Nat) (h : s.main = .receive (k + 1)) :
      Step s .main { s with main := .receive k }
  | received {s : State M} (k : Nat) (msg : M) (h : s.main = .receive (k + 1)) :
      Step s .main { s with main := .received msg k }
  | push {s : State M} (k : Nat) (msg : M) (W : Worker → Bool) (h : s.main = .received msg k)
      (hf : s.Free) (ht : s.top < stackSize)
      (hW : (∃ i, s.adj i = .asleep) → ∃ i, s.adj i = .asleep ∧ W i = true) :
      Step s (.push msg)
        { s with
          stack := Function.update s.stack s.top msg
          top := s.top + 1
          main := .receive k
          adj := wake W s.adj }
  | reject {s : State M} (k : Nat) (msg : M) (h : s.main = .received msg k) (hf : s.Free)
      (ht : ¬ s.top < stackSize) : Step s (.reject msg) { s with main := .receive k }
  | broadcast {s : State M} (h : s.main = .broadcast) (hf : s.Free) :
      Step s .broadcast { s with main := .joining, adj := wake (fun _ => true) s.adj }
  | lock {s : State M} (i : Worker) (h : s.adj i = .lock) (hf : s.Free) :
      Step s (.adjutant i) { s with adj := Function.update s.adj i .testing }
  | test {s : State M} (i : Worker) (h : s.adj i = .testing) :
      Step s (.adjutant i)
        { s with
          adj := Function.update s.adj i
            (if s.doWork = true ∧ s.top = 0 then .waiting else .leaving) }
  | wait {s : State M} (i : Worker) (h : s.adj i = .waiting) :
      Step s (.adjutant i) { s with adj := Function.update s.adj i .asleep }
  | spurious {s : State M} (i : Worker) (h : s.adj i = .asleep) :
      Step s (.adjutant i) { s with adj := Function.update s.adj i .lock }
  | leave {s : State M} (i : Worker) (h : s.adj i = .leaving)
      (hd : s.doWork = false ∧ s.top = 0) :
      Step s (.adjutant i) { s with adj := Function.update s.adj i .gone }
  | pop {s : State M} (i : Worker) (h : s.adj i = .leaving)
      (hd : ¬ (s.doWork = false ∧ s.top = 0)) :
      Step s (.pop i (s.stack (s.top - 1)))
        { s with
          top := s.top - 1
          adj := Function.update s.adj i (.busy (s.stack (s.top - 1))) }
  | done {s : State M} (i : Worker) (msg : M) (h : s.adj i = .busy msg) :
      Step s (.adjutant i) { s with adj := Function.update s.adj i .lock }

/-! ### The invariant -/

/-- What the threads and the stack agree on. -/
structure Sound (s : State M) : Prop where
  nonneg : 0 ≤ s.top
  le : s.top ≤ stackSize
  alone : ∀ i j, (s.adj i).Holds → (s.adj j).Holds → i = j
  empty : ∀ i, s.adj i = .waiting → s.top = 0
  left : ∀ i, s.adj i = .leaving → s.doWork = false ∨ 0 < s.top
  awake : s.doWork = true → 0 < s.top → ∃ i, (s.adj i).Active
  gone : ∀ i, s.adj i = .gone → s.doWork = false ∧ s.top = 0
  closing : s.doWork = false → s.main = .check ∨ s.main = .broadcast ∨ s.main = .joining
  closed : s.main = .broadcast ∨ s.main = .joining → s.doWork = false
  woken : s.main = .joining → ∀ i, s.adj i ≠ .asleep ∧ s.adj i ≠ .waiting

theorem sound_begin (stack : Int → M) : Sound (begin stack) where
  nonneg := le_refl _
  le := show (0 : Int) ≤ 16 by decide
  alone i j h := h.elim
  empty i h := by cases h
  left i h := by cases h
  awake _ h := absurd h (lt_irrefl _)
  gone i h := by cases h
  closing h := by cases h
  closed h := by rcases h with h | h <;> cases h
  woken h := by cases h

variable {s t : State M} {l : Label M}

/-- An adjutant that was not asleep is where it was; one that was is on the way to the mutex or
asleep. -/
theorem wake_cases (W : Worker → Bool) (adj : Worker → Adjutant M) (i : Worker) :
    wake W adj i = adj i ∨ adj i = .asleep ∧ W i = true ∧ wake W adj i = .lock := by
  unfold wake
  cases hi : adj i with
  | asleep => cases hW : W i <;> simp
  | _ => exact .inl rfl

/-- A section of `main`: the mutex is free before it and after it. -/
theorem wake_free {W : Worker → Bool} (hf : s.Free) (i : Worker) : ¬ (wake W s.adj i).Holds := by
  rcases wake_cases W s.adj i with h | ⟨-, -, h⟩
  · rw [h]; exact hf i
  · rw [h]; exact id

/-- Whoever is somewhere inside or gone after a signal was there before. -/
theorem wake_eq {W : Worker → Bool} {adj : Worker → Adjutant M} {i : Worker} {a : Adjutant M}
    (h : wake W adj i = a) (ha : a ≠ .lock) : adj i = a := by
  rcases wake_cases W adj i with h' | ⟨-, -, h'⟩
  · exact h'.symm.trans h
  · exact absurd (h.symm.trans h') ha

/-- `main` moves on, and nothing else changes. -/
theorem Sound.main (h : Sound s) {m : Main M}
    (hc : s.doWork = false → m = .check ∨ m = .broadcast ∨ m = .joining)
    (hb : m = .broadcast ∨ m = .joining → s.doWork = false)
    (hj : m = .joining → s.main = .joining) : Sound { s with main := m } :=
  { h with
    closing := hc
    closed := hb
    woken := fun he => h.woken (hj he) }

/-- An adjutant moves on to `a`, with the mutex if it gets it or has it. -/
theorem Sound.move (h : Sound s) (i : Worker) {a : Adjutant M}
    (hh : a.Holds → ∀ j ≠ i, ¬ (s.adj j).Holds) (he : a = .waiting → s.top = 0)
    (hl : a = .leaving → s.doWork = false ∨ 0 < s.top)
    (ha : a.Active ∨ s.doWork = false ∨ s.top = 0)
    (hg : a = .gone → s.doWork = false ∧ s.top = 0)
    (hw : s.main = .joining → a ≠ .asleep ∧ a ≠ .waiting) :
    Sound { s with adj := Function.update s.adj i a } := by
  have hset : ∀ j, Function.update s.adj i a j = if j = i then a else s.adj j :=
    fun j => Function.update_apply ..
  refine ⟨h.nonneg, h.le, fun j k hj hk => ?_, fun j hj => ?_, fun j hj => ?_, fun hd ht => ?_,
    fun j hj => ?_, h.closing, h.closed, fun hm j => ?_⟩
  · dsimp only at hj hk
    rw [hset] at hj hk
    split at hj
    · split at hk
      · exact (‹j = i›).trans (‹k = i›).symm
      · exact absurd hk (hh hj k ‹_›)
    · split at hk
      · exact absurd hj (hh hk j ‹_›)
      · exact h.alone j k hj hk
  · dsimp only at hj
    rw [hset] at hj
    split at hj
    · exact he hj
    · exact h.empty j hj
  · dsimp only at hj
    rw [hset] at hj
    split at hj
    · exact hl hj
    · exact h.left j hj
  · rcases ha with ha | ha | ha
    · exact ⟨i, by dsimp only; rwa [Function.update_self]⟩
    · rw [ha] at hd; cases hd
    · dsimp only at ht; omega
  · dsimp only at hj
    rw [hset] at hj
    split at hj
    · exact hg hj
    · exact h.gone j hj
  · dsimp only
    rw [hset]
    split
    · exact hw hm
    · exact h.woken hm j

/-- A report is pushed, and somebody who sleeps is woken. -/
theorem Sound.push (h : Sound s) {msg : M} {k : Nat} {W : Worker → Bool}
    (hm : s.main = .received msg k) (hf : s.Free) (ht : s.top < stackSize)
    (hW : (∃ i, s.adj i = .asleep) → ∃ i, s.adj i = .asleep ∧ W i = true) :
    Sound { s with
      stack := Function.update s.stack s.top msg
      top := s.top + 1
      main := .receive k
      adj := wake W s.adj } := by
  -- `main` receives only while `do_work` is set, so nobody has left
  have hwork : s.doWork = true := by
    cases hd : s.doWork with
    | true => rfl
    | false => rcases h.closing hd with e | e | e <;> rw [hm] at e <;> cases e
  have hin : ∀ i a, wake W s.adj i = a → a.Holds → False := fun i a ha hh =>
    wake_free hf i (ha ▸ hh)
  have hnonneg := h.nonneg
  refine ⟨Int.add_nonneg hnonneg Int.one_nonneg, Int.add_one_le_of_lt ht,
    fun i j hi => (wake_free hf i hi).elim, fun i hi => (hin i _ hi trivial).elim,
    fun i hi => (hin i _ hi trivial).elim, fun _ _ => ?_, fun i hi => ?_, fun hd => ?_,
    fun he => ?_, fun he => ?_⟩
  · by_cases hs : ∃ i, s.adj i = .asleep
    · obtain ⟨i, hi, hWi⟩ := hW hs
      refine ⟨i, ?_⟩
      rcases wake_cases W s.adj i with e | ⟨-, -, e⟩
      · unfold wake at e
        rw [hi, hWi] at e
        cases e
      · dsimp only; rw [e]; trivial
    · -- nobody sleeps, has left or is inside
      have hi : wake W s.adj 0 = s.adj 0 :=
        (wake_cases W s.adj 0).resolve_right fun e => hs ⟨0, e.1⟩
      refine ⟨0, ?_⟩
      dsimp only
      rw [hi]
      have hfree := hf 0
      cases ha : s.adj 0 with
      | lock | busy | testing | leaving => trivial
      | waiting => rw [ha] at hfree; exact hfree trivial
      | asleep => exact hs ⟨0, ha⟩
      | gone => rw [(h.gone 0 ha).1] at hwork; cases hwork
  · have hg := (h.gone i (wake_eq hi (by simp))).1
    rw [hwork] at hg
    cases hg
  · exact absurd (hwork.symm.trans hd) (by decide)
  · rcases he with he | he <;> cases he
  · cases he

/-- Everybody who sleeps is woken, and nobody is inside. -/
theorem Sound.broadcast (h : Sound s) (hm : s.main = .broadcast) (hf : s.Free) :
    Sound { s with main := .joining, adj := wake (fun _ => true) s.adj } := by
  have hd := h.closed (.inl hm)
  have hin : ∀ i a, wake (fun _ => true) s.adj i = a → a.Holds → False := fun i a ha hh =>
    wake_free hf i (ha ▸ hh)
  refine ⟨h.nonneg, h.le, fun i j hi => (hin i _ rfl hi).elim,
    fun i hi => (hin i _ hi trivial).elim, fun i hi => (hin i _ hi trivial).elim,
    fun hd' => ?_, fun i hi => h.gone i (wake_eq (W := fun _ => true) hi (by simp)),
    fun _ => .inr (.inr rfl),
    fun _ => hd, fun _ i => ⟨fun hi => ?_, fun hi => hin i _ hi trivial⟩⟩
  · exact absurd (hd.symm.trans hd') (by decide)
  · dsimp only at hi
    have hi' := wake_eq hi (by simp)
    unfold wake at hi
    rw [hi'] at hi
    cases hi

theorem Sound.pop (h : Sound s) {i : Worker} (hi : s.adj i = .leaving)
    (hd : ¬ (s.doWork = false ∧ s.top = 0)) :
    0 < s.top ∧ Sound { s with
      top := s.top - 1
      adj := Function.update s.adj i (.busy (s.stack (s.top - 1))) } := by
  have hpos : 0 < s.top := by
    have hle := h.nonneg
    rcases h.left i hi with hs | hs
    · exact lt_of_le_of_ne hle fun e => hd ⟨hs, e.symm⟩
    · exact hs
  have hother : ∀ j ≠ i, ¬ (s.adj j).Holds := fun j hj hh =>
    hj (h.alone j i hh (by rw [hi]; trivial))
  have hle := h.le
  have hset : ∀ j, Function.update s.adj i (.busy (s.stack (s.top - 1))) j =
      if j = i then .busy (s.stack (s.top - 1)) else s.adj j := fun j => Function.update_apply ..
  have hin : ∀ j a, Function.update s.adj i (.busy (s.stack (s.top - 1))) j = a →
      ¬ a.Holds := by
    rintro j a rfl
    rw [hset]
    split
    · exact id
    · exact hother j ‹_›
  refine ⟨hpos, Int.sub_nonneg_of_le hpos, by dsimp only; omega,
    fun j k hj => (hin j _ rfl hj).elim, fun j hj => (hin j _ hj trivial).elim,
    fun j hj => (hin j _ hj trivial).elim,
    fun _ _ => ⟨i, by dsimp only; rw [Function.update_self]; trivial⟩, fun j hj => ?_,
    h.closing, h.closed, fun hm j => ?_⟩
  · dsimp only at hj
    rw [hset] at hj
    split at hj
    · cases hj
    · have := (h.gone j hj).2
      omega
  · dsimp only
    rw [hset]
    split
    · exact ⟨by simp, by simp⟩
    · exact h.woken hm j

/-- **One step of a thread.** -/
theorem Sound.step (h : Sound s) (hs : Step s l t) : Sound t := by
  cases hs with
  | check hm =>
      refine h.main (fun hd => ?_) (fun he => ?_) fun he => ?_
      · rw [if_neg (by rw [hd]; decide)]; exact .inr (.inl rfl)
      · cases hd : s.doWork with
        | false => rfl
        | true => rw [if_pos hd] at he; rcases he with he | he <;> cases he
      · split at he <;> cases he
  | ready nfds hm =>
      refine h.main (fun hd => ?_) (fun he => ?_) fun he => by cases he
      · rcases h.closing hd with e | e | e <;> rw [hm] at e <;> cases e
      · rcases he with he | he <;> cases he
  | interrupted hm | handled hm =>
      refine h.main (fun _ => .inl rfl) (fun he => ?_) fun he => by cases he
      rcases he with he | he <;> cases he
  | sigint hm =>
      refine ⟨h.nonneg, h.le, h.alone, h.empty, fun i hi => .inl rfl, fun hd => ?_,
        fun i hi => ⟨rfl, (h.gone i hi).2⟩, fun _ => .inl rfl, fun _ => rfl, fun he => ?_⟩
      · cases hd
      · cases he
  | nothing k hm | received k msg hm | reject k msg hm =>
      refine h.main (fun hd => ?_) (fun he => ?_) fun he => by cases he
      · rcases h.closing hd with e | e | e <;> rw [hm] at e <;> cases e
      · rcases he with he | he <;> cases he
  | push k msg W hm hf ht hW => exact h.push hm hf ht hW
  | broadcast hm hf => exact h.broadcast hm hf
  | lock i hi hf =>
      exact h.move i (fun _ j _ => hf j) (fun e => by cases e) (fun e => by cases e) (.inl trivial)
        (fun e => by cases e) fun _ => ⟨by simp, by simp⟩
  | test i hi =>
      have hother : ∀ j ≠ i, ¬ (s.adj j).Holds := fun j hj hh =>
        hj (h.alone j i hh (by rw [hi]; trivial))
      by_cases hd : s.doWork = true ∧ s.top = 0
      · rw [if_pos hd]
        refine h.move i (fun _ => hother) (fun _ => hd.2) (fun e => by cases e) (.inr (.inr hd.2))
          (fun e => by cases e) fun hm => ?_
        have hc := h.closed (.inr hm)
        rw [hd.1] at hc
        cases hc
      · rw [if_neg hd]
        refine h.move i (fun _ => hother) (fun e => by cases e) (fun _ => ?_) (.inl trivial)
          (fun e => by cases e) fun _ => ⟨by simp, by simp⟩
        cases hw : s.doWork with
        | false => exact .inl rfl
        | true => exact .inr (lt_of_le_of_ne h.nonneg fun e => hd ⟨hw, e.symm⟩)
  | wait i hi =>
      refine h.move i (fun e => e.elim) (fun e => by cases e) (fun e => by cases e)
        (.inr (.inr (h.empty i hi))) (fun e => by cases e) fun hm => ?_
      exact absurd hi (h.woken hm i).2
  | spurious i hi | done i msg hi =>
      exact h.move i (fun e => e.elim) (fun e => by cases e) (fun e => by cases e) (.inl trivial)
        (fun e => by cases e) fun _ => ⟨by simp, by simp⟩
  | leave i hi hd =>
      exact h.move i (fun e => e.elim) (fun e => by cases e) (fun e => by cases e)
        (.inr (.inl hd.1)) (fun _ => hd) fun _ => ⟨by simp, by simp⟩
  | pop i hi hd => exact (h.pop hi hd).2

/-! ### The whole run -/

/-- What is on the stack, from the bottom. -/
def State.reports (s : State M) : List M := (List.range s.top.toNat).map fun k : Nat => s.stack k

/-- The reports that were pushed. -/
def pushed (tr : List (Move (State M) (Label M))) : List M :=
  tr.filterMap fun m => match m.label with
    | .push msg => some msg
    | _ => none

/-- The reports that were popped, each with its adjutant. -/
def popped (tr : List (Move (State M) (Label M))) : List (Worker × M) :=
  tr.filterMap fun m => match m.label with
    | .pop i msg => some (i, msg)
    | _ => none

theorem reports_push (h : Sound s) (msg : M) (m : Main M) (adj : Worker → Adjutant M) :
    State.reports ⟨s.doWork, Function.update s.stack s.top msg, s.top + 1, m, adj⟩ =
      s.reports ++ [msg] := by
  have hn := h.nonneg
  obtain ⟨n, hn⟩ := Int.eq_ofNat_of_zero_le hn
  have h₁ : (s.top + 1).toNat = n + 1 := by omega
  have h₂ : s.top.toNat = n := by omega
  simp only [State.reports, h₁, h₂, List.range_succ, List.map_append, List.map_cons,
    List.map_nil]
  rw [hn, Function.update_self]
  congr 1
  refine List.map_congr_left fun k hk => Function.update_of_ne ?_ ..
  have := List.mem_range.mp hk
  omega

theorem reports_pop (hpos : 0 < s.top) (m : Main M) (adj : Worker → Adjutant M) :
    s.reports = State.reports ⟨s.doWork, s.stack, s.top - 1, m, adj⟩ ++
      [s.stack (s.top - 1)] := by
  obtain ⟨n, hn⟩ := Int.eq_ofNat_of_zero_le (show 0 ≤ s.top - 1 by omega)
  have h₁ : s.top.toNat = n + 1 := by omega
  have h₂ : (s.top - 1).toNat = n := by omega
  simp only [State.reports, h₁, h₂, List.range_succ, List.map_append, List.map_cons,
    List.map_nil]
  rw [hn]

variable {tr : List (Move (State M) (Label M))} {stack : Int → M}

theorem sound (r : Run Step (begin stack) tr t) : Sound t :=
  r.invariant (fun h hs => h.step hs) (sound_begin stack)

/-- Every report that was pushed is on the stack or was popped once. -/
theorem reports_perm (r : Run Step (begin stack) tr t) :
    (pushed tr).Perm (t.reports ++ (popped tr).map Prod.snd) := by
  induction r with
  | refl => exact .refl _
  | @snoc t u tr l r hs ih =>
      have h := sound r
      have hpush : ∀ x, pushed (tr ++ [x]) = pushed tr ++ pushed [x] :=
        fun x => List.filterMap_append ..
      have hpop : ∀ x, popped (tr ++ [x]) = popped tr ++ popped [x] :=
        fun x => List.filterMap_append ..
      rw [hpush, hpop]
      cases hs with
      | push k msg W hm hf ht hW =>
          have hr := reports_push h msg (.receive k) (wake W t.adj)
          rw [hr]
          simp only [pushed, popped, List.filterMap_cons, List.filterMap_nil, List.append_nil]
          rw [List.append_assoc]
          exact (ih.append_right [msg]).trans (by
            rw [List.append_assoc]
            exact (List.perm_append_comm).append_left _)
      | pop i hi hd =>
          have hr := reports_pop (h.pop hi hd).1 t.main
            (Function.update t.adj i (.busy (t.stack (t.top - 1))))
          rw [hr] at ih
          simp only [pushed, popped, List.filterMap_cons, List.filterMap_nil, List.append_nil,
            List.map_append, List.map_cons, List.map_nil]
          refine ih.trans ?_
          rw [List.append_assoc]
          exact (List.perm_append_comm).append_left _
      | _ =>
          have hsame : (pushed tr ++ []).Perm (t.reports ++ (popped tr ++ []).map Prod.snd) := by
            rw [List.append_nil, List.append_nil]
            exact ih
          exact hsame

/-- After the broadcast somebody can go on until all have left. -/
theorem Sound.progress (h : Sound s) (hm : s.main = .joining) :
    (∀ i, s.adj i = .gone) ∨ ∃ i l t, Step s l t ∧ (l = .adjutant i ∨ ∃ msg, l = .pop i msg) := by
  by_cases hall : ∀ i, s.adj i = .gone
  · exact .inl hall
  · right
    by_cases hf : s.Free
    · obtain ⟨i, hi⟩ := not_forall.mp hall
      obtain ⟨hsleep, hwait⟩ := h.woken hm i
      have hfree := hf i
      cases ha : s.adj i with
      | lock => exact ⟨i, _, _, .lock i ha hf, .inl rfl⟩
      | busy msg => exact ⟨i, _, _, .done i msg ha, .inl rfl⟩
      | testing | leaving => rw [ha] at hfree; exact (hfree trivial).elim
      | waiting => exact absurd ha hwait
      | asleep => exact absurd ha hsleep
      | gone => exact absurd ha hi
    · -- whoever is inside goes on
      obtain ⟨i, hi⟩ := not_forall.mp hf
      rw [not_not] at hi
      obtain ⟨-, hwait⟩ := h.woken hm i
      cases ha : s.adj i with
      | testing => exact ⟨i, _, _, .test i ha, .inl rfl⟩
      | leaving =>
          by_cases hd : s.doWork = false ∧ s.top = 0
          · exact ⟨i, _, _, .leave i ha hd, .inl rfl⟩
          · exact ⟨i, _, _, .pop i ha hd, .inr ⟨_, rfl⟩⟩
      | waiting => exact absurd ha hwait
      | lock | busy | asleep | gone => rw [ha] at hi; exact hi.elim

/-- **The reports.**  Along every run of `main` and the adjutants: the stack is never read or
written out of its bounds; every report that was pushed is on the stack or was popped, once and
as it was; as long as `do_work` is set, nobody sleeps with a report on the stack unless somebody
else is awake; and after the broadcast nobody sleeps, somebody can go on until all have left, and
when they have, all reports were popped. -/
theorem report_law (r : Run Step (begin stack) tr t) :
    (0 ≤ t.top ∧ t.top ≤ stackSize) ∧
    (∀ m ∈ tr, (∀ msg, m.label = .push msg → 0 ≤ m.before.top ∧ m.before.top < stackSize) ∧
      ∀ i msg, m.label = .pop i msg → 0 ≤ m.after.top ∧ m.after.top < stackSize) ∧
    (pushed tr).Perm (t.reports ++ (popped tr).map Prod.snd) ∧
    (t.doWork = true → 0 < t.top → ∀ i, t.adj i = .asleep → ∃ j, j ≠ i ∧ (t.adj j).Active) ∧
    (t.main = .joining → (∀ i, t.adj i ≠ .asleep) ∧
      ((∀ i, t.adj i = .gone) → t.top = 0 ∧ (pushed tr).Perm ((popped tr).map Prod.snd)) ∧
      ((∀ i, t.adj i = .gone) ∨
        ∃ i l u, Step t l u ∧ (l = .adjutant i ∨ ∃ msg, l = .pop i msg))) := by
  have h := sound r
  have hperm := reports_perm r
  refine ⟨⟨h.nonneg, h.le⟩, fun m m_in => ?_, hperm, fun hd ht i hi => ?_, fun hm =>
    ⟨fun i => (h.woken hm i).1, fun hall => ?_, h.progress hm⟩⟩
  · obtain ⟨⟨_, hbefore⟩, -⟩ := r.split_at m_in
    have hb : Sound m.before := sound hbefore
    have hstep := r.step_of_mem m m_in
    obtain ⟨before, label, after⟩ := m
    change Step before label after at hstep
    have ha : Sound after := hb.step hstep
    constructor
    · rintro msg rfl
      cases hstep with
      | push k _ W _ _ ht _ => exact ⟨hb.nonneg, ht⟩
    · rintro i msg hl
      have hle := hb.le
      cases hstep with
      | pop j _ _ =>
          refine ⟨ha.nonneg, ?_⟩
          dsimp only at hle ⊢
          omega
      | _ => cases hl
  · obtain ⟨j, hj⟩ := h.awake hd ht
    refine ⟨j, ?_, hj⟩
    rintro rfl
    rw [hi] at hj
    exact hj
  · have htop := (h.gone 0 (hall 0)).2
    have hnil : t.reports = [] := by rw [State.reports, htop]; rfl
    rw [hnil] at hperm
    exact ⟨htop, hperm⟩

/-- An adjutant that sleeps is woken by a report, handles it and sleeps again, until `SIGINT` comes
and `main` wakes it once more. -/
theorem oneReport_joining : ∃ (tr : List (Move (State Nat) (Label Nat))) (t : State Nat),
    Run Step (begin fun _ => 0) tr t ∧ t.main = .joining ∧ t.doWork = false ∧ t.top = 0 ∧
      t.stack = Function.update (fun _ => 0) 0 7 ∧ (∀ i, t.adj i = .lock) ∧
      popped tr = [(0, 7)] := by
  have r : Run Step (begin fun _ => (0 : Nat)) _ _ :=
    ((((((((((((((((((Run.one (.lock 0 rfl (by decide))).snoc (.test 0 rfl)).snoc
      (.wait 0 rfl)).snoc (.check rfl)).snoc (.ready 1 rfl (by decide))).snoc
      (.received 0 7 rfl)).snoc (.push 0 7 (fun _ => true) rfl (by decide) (by decide)
        fun _ => ⟨0, rfl, rfl⟩)).snoc (.lock 0 rfl (by decide))).snoc (.test 0 rfl)).snoc
      (.pop 0 rfl (by decide))).snoc (.done 0 7 rfl)).snoc (.lock 0 rfl (by decide))).snoc
      (.test 0 rfl)).snoc (.wait 0 rfl)).snoc (.handled rfl)).snoc (.check rfl)).snoc
      (.sigint rfl)).snoc (.check rfl)).snoc (.broadcast rfl (by decide))
  exact ⟨_, _, r, rfl, rfl, rfl, rfl, by decide +kernel, rfl⟩

/-- They all leave. -/
theorem leaving_run : ∃ (tr : List (Move (State Nat) (Label Nat))) (t : State Nat),
    Run Step ⟨false, Function.update (fun _ => 0) 0 7, 0, .joining, fun _ => .lock⟩ tr t ∧
      t.main = .joining ∧ (∀ i, t.adj i = .gone) ∧ popped tr = [] := by
  have r : Run Step ⟨false, Function.update (fun _ => 0) 0 7, 0, .joining, fun _ => .lock⟩ _ _ :=
    (((((((((((Run.one (.lock 0 rfl (by decide))).snoc (.test 0 rfl)).snoc
      (.leave 0 rfl ⟨rfl, rfl⟩)).snoc (.lock 1 rfl (by decide))).snoc (.test 1 rfl)).snoc
      (.leave 1 rfl ⟨rfl, rfl⟩)).snoc (.lock 2 rfl (by decide))).snoc (.test 2 rfl)).snoc
      (.leave 2 rfl ⟨rfl, rfl⟩)).snoc (.lock 3 rfl (by decide))).snoc (.test 3 rfl)).snoc
      (.leave 3 rfl ⟨rfl, rfl⟩)
  exact ⟨_, _, r, rfl, by decide +kernel, rfl⟩

/-- The report was popped by the one that was woken. -/
theorem report_law_sleeper : ∃ (tr : List (Move (State Nat) (Label Nat))) (t : State Nat),
    Run Step (begin fun _ => 0) tr t ∧ (∀ i, t.adj i = .gone) ∧ t.top = 0 ∧
      popped tr = [(0, 7)] ∧ (pushed tr).Perm ((popped tr).map Prod.snd) := by
  obtain ⟨tr, ⟨doWork, stack, top, main, adj⟩, r, hmain, hwork, htop, hstack, hlock, hpopped⟩ :=
    oneReport_joining
  obtain rfl : adj = fun _ => .lock := funext hlock
  cases hmain
  cases hwork
  cases htop
  cases hstack
  obtain ⟨tr', t, r', hjoining, hgone, hnone⟩ := leaving_run
  have r'' := r.trans r'
  obtain ⟨-, -, -, -, hend⟩ := report_law r''
  obtain ⟨hzero, hperm⟩ := (hend hjoining).2.1 hgone
  refine ⟨_, _, r'', hgone, hzero, ?_, hperm⟩
  rw [popped, List.filterMap_append, ← popped, ← popped, hpopped, hnone, List.append_nil]

end Sop2.Napoleon
