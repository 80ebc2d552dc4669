import Mathlib.Logic.Function.Basic
import Sop2.Support.Runs

/-!
# Support — Monitor

Any number of processes that run mutex-protected sections over one shared state and sleep on
condition variables.

A *call* is tried section by section: each time its process holds the mutex, `Monitor.body` says
whether it goes to sleep on a condition variable or leaves, with a new shared state, the
condition variables it signals and its result.  A signal wakes at least one sleeper when there is
one; sleepers may also wake for no reason; a process that arrives may take the mutex before one
that was woken.

* `Covers.reaches`: **no lost wake-up**.  If nobody sleeps on `cv` while `ready cv` holds, and
  whoever makes it hold signals, then as long as it holds a sleeper on `cv` never waits alone.
* `Silent.reaches`: what is only ever established with a broadcast leaves no sleeper.
-/

namespace Support

/-- What one section of a call does. -/
inductive Outcome (S Cv R : Type*) where
  /-- The process goes to sleep on `cv`; nothing is changed. -/
  | wait (cv : Cv)
  /-- The call leaves `s`, signals `signals` and returns `r`. -/
  | leave (s : S) (signals : List Cv) (r : R)
  /-- The section has no defined behaviour. -/
  | fault

/-- The sections of the calls `C`, and the steps `E` that the environment takes under the same
mutex, each with the condition variables it broadcasts. -/
structure Monitor (S Cv C R E : Type*) where
  body : S → C → Outcome S Cv R
  env : S → E → S × List Cv

/-- Where a process is. -/
inductive Ctl (Cv C : Type*) where
  | outside
  | awake (c : C)
  | asleep (cv : Cv) (c : C)

/-- The call a process is inside of. -/
def Ctl.call {Cv C : Type*} : Ctl Cv C → Option C
  | .outside => none
  | .awake c => some c
  | .asleep _ c => some c

namespace Monitor

variable {P S Cv C R E : Type*}

structure State (P S Cv C : Type*) where
  shared : S
  ctl : P → Ctl Cv C

inductive Label (P C R E : Type*) where
  | call (p : P) (c : C)
  | wait (p : P)
  | ret (p : P) (c : C) (r : R)
  | spurious (p : P)
  | env (e : E)

/-- `p` sleeps on `cv`. -/
def Asleep (ctl : P → Ctl Cv C) (cv : Cv) (p : P) : Prop := ∃ c, ctl p = .asleep cv c

/-- The processes `W` go on from their wait. -/
def wake (W : P → Bool) (ctl : P → Ctl Cv C) : P → Ctl Cv C := fun p =>
  match W p, ctl p with
  | true, .asleep _ c => .awake c
  | _, x => x

/-- The sleepers on `cvs`. -/
def sleepers [DecidableEq Cv] (cvs : List Cv) (ctl : P → Ctl Cv C) : P → Bool := fun p =>
  match ctl p with
  | .asleep cv _ => cv ∈ cvs
  | _ => false

/-- `W` is what signalling `cvs` may wake: sleepers on `cvs` only, and one of each that has any. -/
structure Signals (ctl : P → Ctl Cv C) (cvs : List Cv) (W : P → Bool) : Prop where
  only : ∀ p, W p = true → ∃ cv ∈ cvs, Asleep ctl cv p
  some : ∀ cv ∈ cvs, (∃ p, Asleep ctl cv p) → ∃ p, Asleep ctl cv p ∧ W p = true

/-! ### What waking does to one process -/

theorem wake_asleep {W : P → Bool} {ctl : P → Ctl Cv C} {p : P} {cv : Cv} {c : C}
    (h : wake W ctl p = .asleep cv c) : ctl p = .asleep cv c ∧ W p = false := by
  unfold wake at h
  cases hW : W p <;> cases hc : ctl p <;> simp_all

theorem wake_of_awake {W : P → Bool} {ctl : P → Ctl Cv C} {p : P} {c : C}
    (h : ctl p = .awake c) : wake W ctl p = .awake c := by
  unfold wake
  cases hW : W p <;> simp [h]

theorem wake_of_asleep {W : P → Bool} {ctl : P → Ctl Cv C} {p : P} {cv : Cv} {c : C}
    (h : ctl p = .asleep cv c) (hW : W p = true) : wake W ctl p = .awake c := by
  unfold wake
  simp [h, hW]

@[simp] theorem wake_call (W : P → Bool) (ctl : P → Ctl Cv C) (p : P) :
    (wake W ctl p).call = (ctl p).call := by
  unfold wake
  cases W p <;> cases hc : ctl p <;> simp [Ctl.call]

variable [DecidableEq Cv]

theorem sleepers_of_asleep {cvs : List Cv} {ctl : P → Ctl Cv C} {p : P} {cv : Cv} {c : C}
    (h : ctl p = .asleep cv c) : sleepers cvs ctl p = true ↔ cv ∈ cvs := by
  simp [sleepers, h]

variable [DecidableEq P]

/-- One step of the processes that share a monitor. -/
inductive Step (M : Monitor S Cv C R E) : State P S Cv C → Label P C R E → State P S Cv C → Prop
    where
  | call {s : State P S Cv C} (p : P) (c : C) (h : s.ctl p = .outside) :
      Step M s (.call p c) ⟨s.shared, Function.update s.ctl p (.awake c)⟩
  | wait {s : State P S Cv C} (p : P) (c : C) (cv : Cv) (h : s.ctl p = .awake c)
      (hb : M.body s.shared c = .wait cv) :
      Step M s (.wait p) ⟨s.shared, Function.update s.ctl p (.asleep cv c)⟩
  | ret {s : State P S Cv C} (p : P) (c : C) (sh : S) (cvs : List Cv) (r : R) (W : P → Bool)
      (h : s.ctl p = .awake c) (hb : M.body s.shared c = .leave sh cvs r)
      (hW : Signals s.ctl cvs W) :
      Step M s (.ret p c r) ⟨sh, Function.update (wake W s.ctl) p .outside⟩
  | spurious {s : State P S Cv C} (p : P) (cv : Cv) (c : C) (h : s.ctl p = .asleep cv c) :
      Step M s (.spurious p) ⟨s.shared, Function.update s.ctl p (.awake c)⟩
  | env {s : State P S Cv C} (e : E) :
      Step M s (.env e)
        ⟨(M.env s.shared e).1, wake (sleepers (M.env s.shared e).2 s.ctl) s.ctl⟩

variable {M : Monitor S Cv C R E} {s t : State P S Cv C} {l : Label P C R E}

/-- A sleeper was asleep before the step, or has just found in its section that it must wait. -/
theorem Step.asleep (h : Step M s l t) {q : P} {cv : Cv} {d : C}
    (hq : t.ctl q = .asleep cv d) :
    s.ctl q = .asleep cv d ∨
      s.ctl q = .awake d ∧ M.body s.shared d = .wait cv ∧ t.shared = s.shared := by
  cases h with
  | call p c hp | spurious p _ c hp =>
      rcases eq_or_ne q p with rfl | e
      · simp at hq
      · exact .inl (by simpa [Function.update_of_ne e] using hq)
  | wait p c cv' hp hb =>
      rcases eq_or_ne q p with rfl | e
      · simp only [Function.update_self, Ctl.asleep.injEq] at hq
        obtain ⟨rfl, rfl⟩ := hq
        exact .inr ⟨hp, hb, rfl⟩
      · exact .inl (by simpa [Function.update_of_ne e] using hq)
  | ret p c sh cvs r W hp hb hW =>
      rcases eq_or_ne q p with rfl | e
      · simp at hq
      · exact .inl (wake_asleep (by simpa [Function.update_of_ne e] using hq)).1
  | env e => exact .inl (wake_asleep hq).1

/-- A process awake in a call stays so until a section of its own. -/
theorem Step.awake (h : Step M s l t) {q : P} {d : C} (hq : s.ctl q = .awake d) :
    t.ctl q = .awake d ∨
      (∃ cv, l = .wait q ∧ M.body s.shared d = .wait cv ∧ t.shared = s.shared) ∨
      ∃ sh cvs r, l = .ret q d r ∧ M.body s.shared d = .leave sh cvs r ∧ t.shared = sh := by
  cases h with
  | call p c hp | spurious p _ c hp =>
      have e : q ≠ p := fun e => by subst e; rw [hp] at hq; cases hq
      exact .inl (by simpa [Function.update_of_ne e] using hq)
  | wait p c cv hp hb =>
      rcases eq_or_ne q p with rfl | e
      · rw [hp] at hq; cases hq; exact .inr (.inl ⟨cv, rfl, hb, rfl⟩)
      · exact .inl (by simpa [Function.update_of_ne e] using hq)
  | ret p c sh cvs r W hp hb hW =>
      rcases eq_or_ne q p with rfl | e
      · rw [hp] at hq; cases hq; exact .inr (.inr ⟨sh, cvs, r, rfl, hb, rfl⟩)
      · exact .inl (by simpa [Function.update_of_ne e] using wake_of_awake hq)
  | env e => exact .inl (wake_of_awake hq)

/-- The call a process is inside of begins with its `call` and ends with its `ret`. -/
theorem Step.call_eq (h : Step M s l t) (q : P) :
    (t.ctl q).call =
      match l with
      | .call p c => if q = p then some c else (s.ctl q).call
      | .ret p _ _ => if q = p then none else (s.ctl q).call
      | _ => (s.ctl q).call := by
  cases h with
  | call p c hp =>
      rcases eq_or_ne q p with rfl | e
      · simp [Ctl.call]
      · simp [e]
  | wait p c cv hp hb =>
      rcases eq_or_ne q p with rfl | e
      · simp [Ctl.call, hp]
      · simp [e]
  | ret p c sh cvs r W hp hb hW =>
      rcases eq_or_ne q p with rfl | e
      · simp [Ctl.call]
      · simp [e]
  | spurious p cv c hp =>
      rcases eq_or_ne q p with rfl | e
      · simp [Ctl.call, hp]
      · simp [e]
  | env e => simp

theorem Step.call_of_ret {p : P} {c : C} {r : R} (h : Step M s (.ret p c r) t) :
    (s.ctl p).call = some c := by
  cases h with
  | ret _ _ _ _ _ _ hp => rw [hp]; rfl

theorem Step.call_of_call {p : P} {c : C} (h : Step M s (.call p c) t) :
    (s.ctl p).call = none := by
  cases h with
  | call _ _ hp => rw [hp]; rfl

/-- A section that leaves while everybody else is outside wakes nobody. -/
theorem Step.ret_alone {p : P} {c : C} {x : S} {cvs : List Cv} {r : R}
    (hp : s.ctl p = .awake c) (h : ∀ q, q ≠ p → s.ctl q = .outside)
    (hb : M.body s.shared c = .leave x cvs r) :
    Step M s (.ret p c r) ⟨x, fun _ => .outside⟩ := by
  have hW : Signals s.ctl cvs (fun _ => false) := by
    refine ⟨fun q hq => by simp at hq, fun cv _ ⟨q, d, hq⟩ => ?_⟩
    rcases eq_or_ne q p with rfl | e
    · rw [hp] at hq; cases hq
    · rw [h q e] at hq; cases hq
  have hctl : Function.update (wake (fun _ => false) s.ctl) p .outside = fun _ => .outside := by
    funext q
    rcases eq_or_ne q p with rfl | e
    · rw [Function.update_self]
    · rw [Function.update_of_ne e, wake, h q e]
  rw [← hctl]
  exact .ret p c x cvs r _ hp hb hW

/-- A call made while everybody is outside runs undisturbed. -/
theorem run_alone (h : ∀ q, s.ctl q = .outside) (p : P) {c : C} {x : S} {cvs : List Cv} {r : R}
    (hb : M.body s.shared c = .leave x cvs r) :
    ∃ tr, Run (Step M) s tr ⟨x, fun _ => .outside⟩ ∧
      tr.map Move.label = [.call p c, .ret p c r] := by
  have hret := Step.ret_alone (M := M) (s := ⟨s.shared, Function.update s.ctl p (.awake c)⟩)
    (Function.update_self ..) (fun q e => by simp [e, h q]) hb
  exact ⟨_, .snoc (.one (.call p c (h p))) hret, rfl⟩

/-! ### No lost wake-up -/

/-- `ready cv` is what the calls that wait on `cv` wait for: they sleep only while it fails, and
whoever leaves it true has signalled `cv` or found it true without being one of them. -/
structure Covers (M : Monitor S Cv C R E) (ready : Cv → S → Prop) (waitsOn : C → Cv → Prop) :
    Prop where
  on : ∀ {s c cv}, M.body s c = .wait cv → waitsOn c cv
  wait : ∀ {s c cv}, M.body s c = .wait cv → ∀ cv', waitsOn c cv' → ¬ ready cv' s
  leave : ∀ {s c s' cvs r}, M.body s c = .leave s' cvs r →
    ∀ cv, ready cv s' → cv ∈ cvs ∨ (ready cv s ∧ ¬ waitsOn c cv)
  env : ∀ s e cv, ready cv (M.env s e).1 → cv ∈ (M.env s e).2 ∨ ready cv s

/-- Sleepers sleep where their call waits, and never alone while what they wait for holds. -/
structure Covered (ready : Cv → S → Prop) (waitsOn : C → Cv → Prop) (s : State P S Cv C) : Prop
    where
  on : ∀ p cv c, s.ctl p = .asleep cv c → waitsOn c cv
  awake : ∀ cv, ready cv s.shared → (∃ p, Asleep s.ctl cv p) →
    ∃ q c, s.ctl q = .awake c ∧ waitsOn c cv

section

variable {ready : Cv → S → Prop} {waitsOn : C → Cv → Prop}

/-- A step that signals nobody on `cv` leaves its sleepers covered, if `ready cv` held before it
and no section of a call that waits on `cv` was run. -/
theorem Covered.keep (hM : Covers M ready waitsOn) (hs : Covered ready waitsOn s)
    (h : Step M s l t) {cv : Cv} (hr : ready cv s.shared)
    (hn : ∀ q d r, l = .ret q d r → ¬ waitsOn d cv) (hq : ∃ p, Asleep t.ctl cv p) :
    ∃ q c, t.ctl q = .awake c ∧ waitsOn c cv := by
  obtain ⟨p, c, hp⟩ := hq
  have hp₀ : Asleep s.ctl cv p := by
    rcases h.asleep hp with hp₀ | ⟨-, hb, -⟩
    · exact ⟨c, hp₀⟩
    · exact absurd hr (hM.wait hb cv (hM.on hb))
  obtain ⟨q, d, hq, hd⟩ := hs.awake cv hr ⟨p, hp₀⟩
  rcases h.awake hq with hq' | ⟨cv', -, hb, -⟩ | ⟨-, -, r, hl, -, -⟩
  · exact ⟨q, d, hq', hd⟩
  · exact absurd hr (hM.wait hb cv hd)
  · exact absurd hd (hn q d r hl)

/-- One step keeps every sleeper covered: a process that falls asleep on `cv` does so while
`ready cv` fails, and the step that makes it hold wakes one of the sleepers. -/
theorem Covers.step (hM : Covers M ready waitsOn) (hs : Covered ready waitsOn s)
    (h : Step M s l t) : Covered ready waitsOn t := by
  refine ⟨fun q cv d hq => ?_, fun cv hr hq => ?_⟩
  · rcases h.asleep hq with hq₀ | ⟨-, hb, -⟩
    · exact hs.on q cv d hq₀
    · exact hM.on hb
  have h' := h
  cases h with
  | call | wait | spurious =>
      exact hs.keep hM h' hr (fun _ _ _ hl => by cases hl) hq
  | ret p c sh cvs r W hp hb hW =>
      rcases hM.leave hb cv hr with hcv | ⟨hr₀, hn⟩
      · obtain ⟨q, d, hq⟩ := hq
        have hq₀ : Asleep s.ctl cv q := by
          rcases h'.asleep hq with hq₀ | ⟨hq₀, -, -⟩
          · exact ⟨d, hq₀⟩
          · -- `q` was awake, so it is awake now or outside
            rcases h'.awake hq₀ with hq' | ⟨_, hl, -⟩ | ⟨_, _, _, hl, -⟩
            · rw [hq'] at hq; cases hq
            · cases hl
            · cases hl; simp at hq
        obtain ⟨q', ⟨d', hq'⟩, hW'⟩ := hW.some cv hcv ⟨q, hq₀⟩
        have e : q' ≠ p := fun e => by subst e; rw [hp] at hq'; cases hq'
        exact ⟨q', d', by simpa [Function.update_of_ne e] using wake_of_asleep hq' hW',
          hs.on q' cv d' hq'⟩
      · exact hs.keep hM h' hr₀ (fun _ _ _ hl => by cases hl; exact hn) hq
  | env e =>
      rcases hM.env _ e cv hr with hcv | hr₀
      · obtain ⟨q, d, hq⟩ := hq
        obtain ⟨hq₀, hW⟩ := wake_asleep hq
        rw [(sleepers_of_asleep hq₀).mpr hcv] at hW; cases hW
      · exact hs.keep hM h' hr₀ (fun _ _ _ hl => by cases hl) hq

/-- **No lost wake-up.**  Started with every process outside, a sleeper on `cv` is never alone
while `ready cv` holds: some process is awake in a call that waits on `cv`. -/
theorem Covers.reaches (hM : Covers M ready waitsOn) (h₀ : ∀ p, s.ctl p = .outside)
    (h : Reaches (Step M) s t) : Covered ready waitsOn t := by
  obtain ⟨tr, r⟩ := h
  refine r.invariant (fun hs h => hM.step hs h) ⟨fun p cv c hp => ?_, fun cv _ ⟨p, c, hp⟩ => ?_⟩
  · rw [h₀ p] at hp; cases hp
  · rw [h₀ p] at hp; cases hp

end

/-! ### What only a broadcast establishes -/

/-- `ended` ends all waiting on `cv`: no section sleeps on `cv` under it, no section establishes
it, and what establishes it broadcasts `cv`. -/
structure Silent (M : Monitor S Cv C R E) (ended : S → Prop) (cv : Cv) : Prop where
  wait : ∀ {s c}, M.body s c = .wait cv → ¬ ended s
  leave : ∀ {s c s' cvs r}, M.body s c = .leave s' cvs r → ended s' → ended s
  env : ∀ s e, ended (M.env s e).1 → cv ∈ (M.env s e).2 ∨ ended s

variable {ended : S → Prop} {cv : Cv}

theorem Silent.step (hM : Silent M ended cv) (hs : ended s.shared → ∀ p, ¬ Asleep s.ctl cv p)
    (h : Step M s l t) : ended t.shared → ∀ p, ¬ Asleep t.ctl cv p := by
  rintro ho q ⟨d, hq⟩
  rcases h.asleep hq with hq₀ | ⟨-, hb, ht⟩
  · cases h with
    | call | wait | spurious => exact hs ho q ⟨d, hq₀⟩
    | ret p c sh cvs r W hp hb hW => exact hs (hM.leave hb ho) q ⟨d, hq₀⟩
    | env e =>
        rcases hM.env _ e ho with hcv | ho₀
        · have hW := (wake_asleep hq).2
          rw [(sleepers_of_asleep hq₀).mpr hcv] at hW; cases hW
        · exact hs ho₀ q ⟨d, hq₀⟩
  · exact hM.wait hb (ht ▸ ho)

/-- Started with every process outside, nobody sleeps on `cv` while `ended` holds. -/
theorem Silent.reaches (hM : Silent M ended cv) (h₀ : ∀ p, s.ctl p = .outside)
    (h : Reaches (Step M) s t) : ended t.shared → ∀ p, ¬ Asleep t.ctl cv p := by
  obtain ⟨tr, r⟩ := h
  refine r.invariant (I := fun t => ended t.shared → ∀ p, ¬ Asleep t.ctl cv p)
    (fun hs h => hM.step hs h) fun _ p ⟨c, hp⟩ => ?_
  rw [h₀ p] at hp; cases hp

end Monitor

end Support
