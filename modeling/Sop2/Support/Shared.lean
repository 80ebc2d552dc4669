import Mathlib.Logic.Function.Basic
import Sop2.Support.Runs

/-!
# Support — Shared memory

One server and any number of clients over shared data `D`.  Each is a program: what it does to the
data at a place, under the answer `A` of the environment, what can be seen of that (`L`), and where
it goes on.  A program that does nothing at a place is blocked there, or has ended.

* `Run.traced`: what every step keeps, of the trace and the state, holds in every run.
* `play_run`: the run of a schedule.
-/

namespace Support.Shared

/-- What a program does at a place, if it is not blocked. -/
abbrev Program (D A L Q : Type*) := Q → D → A → Option (Option L × D × Q)

structure State (ι D S Q : Type*) where
  data : D
  server : S
  client : ι → Q

variable {ι D A L S Q : Type*} [DecidableEq ι]

/-- One step of the server or of a client. -/
inductive Step (serve : Program D A L S) (work : ι → Program D A L Q) :
    State ι D S Q → Option L → State ι D S Q → Prop where
  | server {s : State ι D S Q} (a : A) (l : Option L) (d : D) (q : S)
      (h : serve s.server s.data a = some (l, d, q)) : Step serve work s l ⟨d, q, s.client⟩
  | client {s : State ι D S Q} (i : ι) (a : A) (l : Option L) (d : D) (q : Q)
      (h : work i (s.client i) s.data a = some (l, d, q)) :
      Step serve work s l ⟨d, s.server, Function.update s.client i q⟩

variable {serve : Program D A L S} {work : ι → Program D A L Q} {s t s₀ : State ι D S Q}
  {tr : List (Move (State ι D S Q) (Option L))}

/-- What is seen in a run, in order. -/
def seen (tr : List (Move (State ι D S Q) (Option L))) : List L := tr.filterMap Move.label

omit [DecidableEq ι] in
theorem seen_snoc (m : Move (State ι D S Q) (Option L)) :
    seen (tr ++ [m]) = seen tr ++ m.label.toList := by
  rw [seen, List.filterMap_append]
  cases h : m.label <;> simp [seen, h]

/-- **The rule for a history.**  What holds of nothing seen at the start, and is kept by every step
together with what it shows, holds in every run. -/
theorem traced {J : List L → State ι D S Q → Prop}
    (hstep : ∀ {es l s t}, J es s → Step serve work s l t → J (es ++ l.toList) t)
    (r : Run (Step serve work) s₀ tr s) (h₀ : J [] s₀) : J (seen tr) s := by
  induction r with
  | refl => exact h₀
  | snoc _ h ih =>
      rw [seen_snoc]
      exact hstep ih h

/-- Whether somebody can take a step. -/
def Live (serve : Program D A L S) (work : ι → Program D A L Q) (s : State ι D S Q) : Prop :=
  ∃ l t, Step serve work s l t

theorem Live.server {a : A} (h : (serve s.server s.data a).isSome) : Live serve work s := by
  obtain ⟨⟨l, d, q⟩, h⟩ := Option.isSome_iff_exists.mp h
  exact ⟨_, _, .server a l d q h⟩

theorem Live.client {i : ι} {a : A} (h : (work i (s.client i) s.data a).isSome) :
    Live serve work s := by
  obtain ⟨⟨l, d, q⟩, h⟩ := Option.isSome_iff_exists.mp h
  exact ⟨_, _, .client i a l d q h⟩

/-! ### Schedules -/

/-- The next step of the server (`none`) or of a client, if the environment answers `a`. -/
def next (serve : Program D A L S) (work : ι → Program D A L Q) (s : State ι D S Q)
    (p : Option ι) (a : A) : Option (Option L × State ι D S Q) :=
  match p with
  | none => (serve s.server s.data a).map fun (l, d, q) => (l, ⟨d, q, s.client⟩)
  | some i => (work i (s.client i) s.data a).map fun (l, d, q) =>
      (l, ⟨d, s.server, Function.update s.client i q⟩)

/-- They take their turns; who is blocked lets the others go on. -/
def play (serve : Program D A L S) (work : ι → Program D A L Q) (s : State ι D S Q) :
    List (Option ι × A) → List L × State ι D S Q
  | [] => ([], s)
  | (p, a) :: turns =>
      match next serve work s p a with
      | none => play serve work s turns
      | some (l, t) =>
          let (es, u) := play serve work t turns
          (l.toList ++ es, u)

theorem next_step {p : Option ι} {a : A} {l : Option L} (h : next serve work s p a = some (l, t)) :
    Step serve work s l t := by
  cases p with
  | none =>
      obtain ⟨⟨l, d, q⟩, hserve, heq⟩ := Option.map_eq_some_iff.mp h
      cases heq
      exact .server a l d q hserve
  | some i =>
      obtain ⟨⟨l, d, q⟩, hwork, heq⟩ := Option.map_eq_some_iff.mp h
      cases heq
      exact .client i a l d q hwork

/-- **The run of a schedule.** -/
theorem play_run (turns : List (Option ι × A)) :
    ∃ tr, Run (Step serve work) s tr (play serve work s turns).2 ∧
      seen tr = (play serve work s turns).1 := by
  induction turns generalizing s with
  | nil => exact ⟨[], .refl s, rfl⟩
  | cons turn turns ih =>
      obtain ⟨p, a⟩ := turn
      simp only [play]
      cases hnext : next serve work s p a with
      | none => exact ih
      | some lt =>
          obtain ⟨l, t⟩ := lt
          obtain ⟨tr, r, hseen⟩ := ih (s := t)
          refine ⟨_, .cons (next_step hnext) r, ?_⟩
          dsimp only
          rw [← hseen, seen, List.filterMap_cons]
          cases l <;> rfl

end Support.Shared
