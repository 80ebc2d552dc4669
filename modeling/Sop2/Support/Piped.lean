import Mathlib.Data.Fintype.Pi
import Sop2.Support.Pipes
import Sop2.Support.Runs

/-!
# Support — Piped

Processes `P` that share nothing but the pipes `K`, and a program for each: at each place a process
reads or writes a pipe, closes an end, asks the environment, waits for the others, exits, or has
ended.

* `Run.locally`: what the program of one process keeps, of its events and its place, holds in every
  run.
* `blocks_of_stuck`: why a process cannot go on.
* `pipe_law`: what was written to a pipe is what was read from it, and then what is in it.
* `Fits.run`: what the programs write is what is in the pipes.
* `sum_events`: what all the processes see together is what is seen in the run.
* `play_run`: the run of a schedule; `play_heeds`, if its steps are all as they should be.
-/

namespace Support.Piped

/-- An end of a pipe. -/
inductive End (K : Type*) where
  | read (k : K)
  | write (k : K)
  deriving DecidableEq

/-- What a process does at a place: `C` are the pieces in the pipes, `Q` the places, `A` the answers
of the environment and `L` what can be seen of a step besides the pipes. -/
inductive Op (K C A L Q : Type*) where
  /-- `read`; with `O_NONBLOCK` it goes on at `again` when there is nothing to read yet. -/
  | read (k : K) (data : C → Q) (eof : Q) (again : Option Q)
  /-- `write`, and where it goes on at `EPIPE`. -/
  | write (k : K) (c : C) (ok broken : Q)
  | close (e : End K) (next : Q)
  | act (l : Option L) (next : Q)
  | ask (answer : A → Option (Option L × Q))
  /-- `wait`, until all the others have ended. -/
  | wait (next : Q)
  /-- `exit`, which closes all the ends. -/
  | exit (next : Q)
  | halt

/-- What can be seen of a step. -/
inductive Event (K C L : Type*) where
  | read (k : K) (c : C)
  | eof (k : K)
  | wrote (k : K) (c : C)
  | epipe (k : K)
  | said (l : Option L)
  deriving DecidableEq

structure State (P K C Q : Type*) where
  pipes : Pipes P K C
  pc : P → Q

variable {P K C A L Q : Type*}

/-- Whether `p` has the end open. -/
def State.has (s : State P K C Q) (p : P) : End K → Bool
  | .read k => s.pipes.reads p k
  | .write k => s.pipes.writes p k

variable [DecidableEq P] [DecidableEq K]

/-- `p` closes an end. -/
def closeEnd (pipes : Pipes P K C) (p : P) : End K → Pipes P K C
  | .read k => pipes.closeRead p k
  | .write k => pipes.closeWrite p k

omit [DecidableEq K] in
/-- `p` closes all its ends. -/
def closeAll (pipes : Pipes P K C) (p : P) : Pipes P K C where
  content := pipes.content
  reads := Function.update pipes.reads p fun _ => false
  writes := Function.update pipes.writes p fun _ => false

/-- `p` goes on, and the pipes are as it says. -/
def State.go (s : State P K C Q) (p : P) (pipes : Pipes P K C) (q : Q) : State P K C Q :=
  ⟨pipes, Function.update s.pc p q⟩

/-- One step of one process; the label is who took it and what can be seen of it.  A pipe holds at
most `cap` pieces. -/
inductive Step (cap : ℕ) (op : P → Q → Op K C A L Q) :
    State P K C Q → P × Event K C L → State P K C Q → Prop where
  | read {s : State P K C Q} (p : P) (k : K) (data : C → Q) (eof : Q) (again : Option Q) (c : C)
      (pipes : Pipes P K C) (h : op p (s.pc p) = .read k data eof again)
      (hr : s.pipes.Read k (some c) pipes) : Step cap op s (p, .read k c) (s.go p pipes (data c))
  | eof {s : State P K C Q} (p : P) (k : K) (data : C → Q) (eof : Q) (again : Option Q)
      (h : op p (s.pc p) = .read k data eof again) (hempty : s.pipes.content k = [])
      (hw : s.pipes.NoWriter k) : Step cap op s (p, .eof k) (s.go p s.pipes eof)
  /-- `EAGAIN`. -/
  | again {s : State P K C Q} (p : P) (k : K) (data : C → Q) (eof q : Q)
      (h : op p (s.pc p) = .read k data eof (some q)) (hempty : s.pipes.content k = [])
      (hw : ¬ s.pipes.NoWriter k) : Step cap op s (p, .said none) (s.go p s.pipes q)
  | write {s : State P K C Q} (p : P) (k : K) (c : C) (ok broken : Q) (pipes : Pipes P K C)
      (h : op p (s.pc p) = .write k c ok broken) (hw : s.pipes.Write cap k c true pipes) :
      Step cap op s (p, .wrote k c) (s.go p pipes ok)
  | epipe {s : State P K C Q} (p : P) (k : K) (c : C) (ok broken : Q)
      (h : op p (s.pc p) = .write k c ok broken) (hr : s.pipes.NoReader k) :
      Step cap op s (p, .epipe k) (s.go p s.pipes broken)
  | close {s : State P K C Q} (p : P) (e : End K) (q : Q) (h : op p (s.pc p) = .close e q) :
      Step cap op s (p, .said none) (s.go p (closeEnd s.pipes p e) q)
  | act {s : State P K C Q} (p : P) (l : Option L) (q : Q) (h : op p (s.pc p) = .act l q) :
      Step cap op s (p, .said l) (s.go p s.pipes q)
  | ask {s : State P K C Q} (p : P) (answer : A → Option (Option L × Q)) (a : A) (l : Option L)
      (q : Q) (h : op p (s.pc p) = .ask answer) (ha : answer a = some (l, q)) :
      Step cap op s (p, .said l) (s.go p s.pipes q)
  | wait {s : State P K C Q} (p : P) (q : Q) (h : op p (s.pc p) = .wait q)
      (hall : ∀ r ≠ p, op r (s.pc r) = .halt) : Step cap op s (p, .said none) (s.go p s.pipes q)
  | exit {s : State P K C Q} (p : P) (q : Q) (h : op p (s.pc p) = .exit q) :
      Step cap op s (p, .said none) (s.go p (closeAll s.pipes p) q)

variable {cap : ℕ} {op : P → Q → Op K C A L Q} {s t : State P K C Q} {p r : P}
  {e : Event K C L} {l : P × Event K C L} {k : K}

/-! ### What one step does -/

/-- Where an operation can lead, and what is seen of it. -/
def Op.Goes (e : Event K C L) (q : Q) : Op K C A L Q → Prop
  | .read k data eof again =>
      (∃ c, e = .read k c ∧ q = data c) ∨ (e = .eof k ∧ q = eof) ∨ (e = .said none ∧ again = some q)
  | .write k c ok broken => (e = .wrote k c ∧ q = ok) ∨ (e = .epipe k ∧ q = broken)
  | .close _ next | .wait next | .exit next => e = .said none ∧ q = next
  | .act l next => e = .said l ∧ q = next
  | .ask answer => ∃ a l, answer a = some (l, q) ∧ e = .said l
  | .halt => False

/-- What a step does to the place of the process. -/
theorem Step.goes (h : Step cap op s l t) :
    ∃ q, t.pc = Function.update s.pc l.1 q ∧ (op l.1 (s.pc l.1)).Goes l.2 q := by
  cases h with
  | read p k data eof again c pipes h hr => exact ⟨_, rfl, by rw [h]; exact .inl ⟨c, rfl, rfl⟩⟩
  | eof p k data eof again h hempty hw =>
      exact ⟨_, rfl, by rw [h]; exact .inr (.inl ⟨rfl, rfl⟩)⟩
  | again p k data eof q h hempty hw =>
      exact ⟨_, rfl, by rw [h]; exact .inr (.inr ⟨rfl, rfl⟩)⟩
  | write p k c ok broken pipes h hw => exact ⟨_, rfl, by rw [h]; exact .inl ⟨rfl, rfl⟩⟩
  | epipe p k c ok broken h hr => exact ⟨_, rfl, by rw [h]; exact .inr ⟨rfl, rfl⟩⟩
  | close p e q h | act p l q h | wait p q h hall | exit p q h =>
      exact ⟨_, rfl, by rw [h]; exact ⟨rfl, rfl⟩⟩
  | ask p answer a l q h ha => exact ⟨_, rfl, by rw [h]; exact ⟨a, l, ha, rfl⟩⟩

/-- Only one process moves. -/
theorem Step.stays (h : Step cap op s l t) (hr : r ≠ l.1) : t.pc r = s.pc r := by
  obtain ⟨q, hpc, -⟩ := h.goes
  rw [hpc, Function.update_of_ne hr]

/-- What is in the pipes before and after something was seen. -/
def Event.Shifts (before after : K → List C) : Event K C L → Prop
  | .read k c => before = Function.update after k (c :: after k)
  | .wrote k c => after = Function.update before k (before k ++ [c])
  | _ => after = before

theorem Step.shifts (h : Step cap op s l t) :
    l.2.Shifts s.pipes.content t.pipes.content := by
  cases h with
  | read p k data eof again c pipes h hr =>
      cases hr with
      | data _ cs hk =>
          funext j
          by_cases hj : j = k
          · subst hj; simp [State.go, Pipes.set, hk]
          · simp [State.go, Pipes.set, hj]
  | write p k c ok broken pipes h hw =>
      cases hw with
      | ok => rfl
  | close p e q h => cases e <;> rfl
  | eof | again | epipe | act | ask | wait | exit => rfl

theorem closeEnd_has (pipes : Pipes P K C) (pc : P → Q) (p r : P) (e f : End K) :
    (⟨closeEnd pipes p e, pc⟩ : State P K C Q).has r f =
      if r = p ∧ f = e then false else (⟨pipes, pc⟩ : State P K C Q).has r f := by
  cases e with
  | read k =>
      cases f with
      | read j =>
          rw [Bool.eq_iff_iff]
          simp only [State.has, closeEnd, Pipes.closeRead_reads, End.read.injEq]
          split <;> simp_all
      | write j => simp [State.has, closeEnd, Pipes.closeRead]
  | write k =>
      cases f with
      | read j => simp [State.has, closeEnd, Pipes.closeWrite]
      | write j =>
          rw [Bool.eq_iff_iff]
          simp only [State.has, closeEnd, Pipes.closeWrite_writes, End.write.injEq]
          split <;> simp_all

omit [DecidableEq K] in
theorem closeAll_has (pipes : Pipes P K C) (pc : P → Q) (p r : P) (f : End K) :
    (⟨closeAll pipes p, pc⟩ : State P K C Q).has r f =
      if r = p then false else (⟨pipes, pc⟩ : State P K C Q).has r f := by
  cases f <;> by_cases h : r = p <;> simp [State.has, closeAll, h]

/-- The ends that a process has open after an operation. -/
def Op.leaves (held : End K → Bool) : Op K C A L Q → End K → Bool
  | .close e _ => Function.update held e false
  | .exit _ => fun _ => false
  | _ => held

/-- What a step does to the ends. -/
theorem Step.has (h : Step cap op s l t) (r : P) :
    t.has r = if r = l.1 then (op r (s.pc r)).leaves (s.has r) else s.has r := by
  funext f
  have same : ∀ {pipes : Pipes P K C} {q : Q} {p : P}, pipes.reads = s.pipes.reads →
      pipes.writes = s.pipes.writes → (s.go p pipes q).has r f = s.has r f := by
    intro pipes q p hreads hwrites
    cases f with
    | read k => exact congrFun (congrFun hreads r) k
    | write k => exact congrFun (congrFun hwrites r) k
  by_cases hr : r = l.1
  · subst hr
    rw [if_pos rfl]
    cases h with
    | read p k data eof again c pipes h hr =>
        rw [h, same hr.reads hr.writes]; rfl
    | write p k c ok broken pipes h hw =>
        rw [h, same hw.reads hw.writes]; rfl
    | eof p k data eof again h hempty hw | again p k data eof q h hempty hw
    | epipe p k c ok broken h hr | act p l q h | ask p answer a l q h ha | wait p q h hall =>
        rw [h, same rfl rfl]; rfl
    | close p e q h =>
        rw [h, State.go, closeEnd_has]
        by_cases hf : f = e
        · subst hf; simp [Op.leaves]
        · simp [Op.leaves, hf, State.has]
    | exit p q h =>
        rw [h, State.go, closeAll_has]; simp [Op.leaves]
  · rw [if_neg hr]
    cases h with
    | read p k data eof again c pipes h hread => exact same hread.reads hread.writes
    | write p k c ok broken pipes h hw => exact same hw.reads hw.writes
    | eof | again | epipe | act | ask | wait => exact same rfl rfl
    | close p e q h => rw [State.go, closeEnd_has, if_neg fun h => hr h.1]; rfl
    | exit p q h => rw [State.go, closeAll_has, if_neg hr]; rfl

/-- An end that is open now was open before. -/
theorem Step.has_mono (h : Step cap op s l t) {f : End K} (hf : t.has r f = true) :
    s.has r f = true := by
  rw [h.has r] at hf
  split at hf
  · cases hop : op r (s.pc r) <;> rw [hop] at hf <;> simp only [Op.leaves] at hf
    case close e q =>
      by_cases he : f = e
      · rw [he, Function.update_self] at hf
        cases hf
      · rwa [Function.update_of_ne he] at hf
    case exit => cases hf
    all_goals exact hf
  · exact hf

theorem Step.noReader (h : Step cap op s l t) (hr : s.pipes.NoReader k) : t.pipes.NoReader k :=
  fun r => Bool.eq_false_iff.mpr fun hf => by
    have hopen := h.has_mono (f := .read k) hf
    rw [show s.has r (.read k) = false from hr r] at hopen
    cases hopen

theorem Step.noWriter (h : Step cap op s l t) (hw : s.pipes.NoWriter k) : t.pipes.NoWriter k :=
  fun r => Bool.eq_false_iff.mpr fun hf => by
    have hopen := h.has_mono (f := .write k) hf
    rw [show s.has r (.write k) = false from hw r] at hopen
    cases hopen

/-! ### Who cannot go on -/

/-- The operation of `p` cannot be done now. -/
def Op.Blocks (cap : ℕ) (op : P → Q → Op K C A L Q) (s : State P K C Q) (p : P) :
    Op K C A L Q → Prop
  | .read k _ _ again => s.pipes.content k = [] ∧ ¬ s.pipes.NoWriter k ∧ again = none
  | .write k _ _ _ => ¬ s.pipes.NoReader k ∧ cap ≤ (s.pipes.content k).length
  | .close _ _ | .act _ _ | .exit _ => False
  | .ask answer => ∀ a, answer a = none
  | .wait _ => ∃ r ≠ p, op r (s.pc r) ≠ .halt
  | .halt => True

/-- **Who cannot go on** has an operation that cannot be done. -/
theorem blocks_of_stuck (h : ¬ ∃ e t, Step cap op s (p, e) t) :
    (op p (s.pc p)).Blocks cap op s p := by
  cases hop : op p (s.pc p) with
  | read k data eof again =>
      cases hk : s.pipes.content k with
      | cons c cs => exact absurd ⟨_, _, .read p k data eof again c _ hop (.data c cs hk)⟩ h
      | nil =>
          have hw : ¬ s.pipes.NoWriter k := fun hw => h ⟨_, _, .eof p k data eof again hop hk hw⟩
          refine ⟨hk, hw, ?_⟩
          cases again with
          | none => rfl
          | some q => exact absurd ⟨_, _, .again p k data eof q hop hk hw⟩ h
  | write k c ok broken =>
      have hr : ¬ s.pipes.NoReader k := fun hr => h ⟨_, _, .epipe p k c ok broken hop hr⟩
      refine ⟨hr, Nat.not_lt.mp fun hlt => ?_⟩
      exact h ⟨_, _, .write p k c ok broken _ hop (.ok hr hlt)⟩
  | close e q => exact h ⟨_, _, .close p e q hop⟩
  | act l q => exact h ⟨_, _, .act p l q hop⟩
  | ask answer =>
      intro a
      cases ha : answer a with
      | none => rfl
      | some x => exact absurd ⟨_, _, .ask p answer a x.1 x.2 hop ha⟩ h
  | wait q =>
      by_contra hno
      refine h ⟨_, _, .wait p q hop fun r hr => ?_⟩
      by_contra hhalt
      exact hno ⟨r, hr, hhalt⟩
  | exit q => exact h ⟨_, _, .exit p q hop⟩
  | halt => trivial

/-! ### What one process sees -/

variable {s₀ : State P K C Q} {tr : List (Move (State P K C Q) (P × Event K C L))}

theorem filterMap_snoc {α β : Type*} (f : α → Option β) (xs : List α) (x : α) :
    (xs ++ [x]).filterMap f = xs.filterMap f ++ (f x).toList := by
  rw [List.filterMap_append]
  cases h : f x <;> simp [h]

/-- What `p` sees, in order. -/
def events (p : P) (tr : List (Move (State P K C Q) (P × Event K C L))) : List (Event K C L) :=
  tr.filterMap fun m => if m.label.1 = p then some m.label.2 else none

omit [DecidableEq K] in
theorem events_snoc (p : P) (m : Move (State P K C Q) (P × Event K C L)) :
    events p (tr ++ [m]) = events p tr ++ if m.label.1 = p then [m.label.2] else [] := by
  rw [events, List.filterMap_append]
  by_cases h : m.label.1 = p <;> simp [events, h]

omit [DecidableEq K] in
theorem mem_events {p : P} {e : Event K C L} : e ∈ events p tr ↔ ∃ m ∈ tr, m.label = (p, e) := by
  simp only [events, List.mem_filterMap]
  constructor
  · rintro ⟨m, m_in, h⟩
    split at h
    · obtain rfl := Option.some.inj h
      exact ⟨m, m_in, Prod.ext ‹_› rfl⟩
    · cases h
  · rintro ⟨m, m_in, h⟩
    exact ⟨m, m_in, by simp [h]⟩

/-- What holds of what each process sees and its place is still to be shown of who moves. -/
theorem local_step {J : P → List (Event K C L) → Q → Prop} (hJ : ∀ p, J p (events p tr) (s.pc p))
    (h : Step cap op s l t)
    (hmover : ∀ q, (op l.1 (s.pc l.1)).Goes l.2 q → J l.1 (events l.1 tr ++ [l.2]) q) (p : P) :
    J p (events p (tr ++ [⟨s, l, t⟩])) (t.pc p) := by
  obtain ⟨q, hpc, hgoes⟩ := h.goes
  rw [events_snoc]
  by_cases hp : l.1 = p
  · subst hp
    rw [if_pos rfl, hpc, Function.update_self]
    exact hmover q hgoes
  · rw [if_neg hp, List.append_nil, hpc, Function.update_of_ne (Ne.symm hp)]
    exact hJ p

/-- **The rule for one process.**  What holds of no events and the place at the start, and is kept
by every operation of the program that is seen as `G` says, holds in every run whose steps are all
seen so. -/
theorem locally {J : P → List (Event K C L) → Q → Prop} {G : P → Event K C L → Prop}
    (hstep : ∀ {p es q e q'}, J p es q → G p e → (op p q).Goes e q' → J p (es ++ [e]) q')
    (r : Run (Step cap op) s₀ tr s) (hstart : ∀ p, J p [] (s₀.pc p))
    (hG : ∀ m ∈ tr, G m.label.1 m.label.2) (p : P) : J p (events p tr) (s.pc p) := by
  induction r generalizing p with
  | refl => exact hstart p
  | @snoc t u tr l r h ih =>
      have ih := ih (fun m m_in => hG m (List.mem_append_left _ m_in))
      exact local_step ih h (fun q hgoes => hstep (ih l.1) (hG ⟨t, l, u⟩ (by simp)) hgoes) p

omit [DecidableEq K] in
/-- What only `p` can see. -/
theorem filterMap_of_only {α : Type*} (f : Event K C L → Option α)
    (h : ∀ r ≠ p, ∀ e ∈ events r tr, f e = none) :
    (tr.filterMap fun m => f m.label.2) = (events p tr).filterMap f := by
  rw [events, List.filterMap_filterMap]
  refine List.filterMap_congr fun m m_in => ?_
  by_cases hp : m.label.1 = p
  · rw [if_pos hp, Option.bind_some]
  · rw [if_neg hp, Option.bind_none]
    exact h m.label.1 hp m.label.2 (mem_events.mpr ⟨m, m_in, rfl⟩)

/-- What all the processes see. -/
theorem sum_events [Fintype P] {α : Type*} (f : Event K C L → Option α)
    (r : Run (Step cap op) s₀ tr s) :
    ((tr.filterMap fun m => f m.label.2 : List α) : Multiset α) =
      ∑ p, ((events p tr).filterMap f : Multiset α) := by
  induction r with
  | refl => simp [events]
  | @snoc t u tr l r h ih =>
      have hlast : ∀ p, ((events p (tr ++ [⟨t, l, u⟩])).filterMap f : Multiset α) =
          ((events p tr).filterMap f : Multiset α) + if l.1 = p then ↑(f l.2).toList else 0 := by
        intro p
        rw [events_snoc, List.filterMap_append, ← Multiset.coe_add]
        congr 1
        split
        · cases hf : f l.2 <;> simp [hf]
        · simp
      rw [Finset.sum_congr rfl fun p _ => hlast p, Finset.sum_add_distrib, ← ih,
        Finset.sum_ite_eq, if_pos (Finset.mem_univ _), List.filterMap_append, ← Multiset.coe_add]
      congr 1

theorem length_events [Fintype P] {α : Type*} (f : Event K C L → Option α)
    (r : Run (Step cap op) s₀ tr s) :
    (tr.filterMap fun m => f m.label.2).length = ∑ p, ((events p tr).filterMap f).length := by
  have h := congrArg Multiset.card (sum_events f r)
  rwa [Multiset.card_sum, Multiset.coe_card] at h

/-! ### The law of the pipes -/

def Event.written? (k : K) : Event K C L → Option C
  | .wrote j c => if j = k then some c else none
  | _ => none

def Event.taken? (k : K) : Event K C L → Option C
  | .read j c => if j = k then some c else none
  | _ => none

/-- What is written to `k`, in order. -/
def written (k : K) (tr : List (Move (State P K C Q) (P × Event K C L))) : List C :=
  tr.filterMap fun m => m.label.2.written? k

/-- What is read from `k`, in order. -/
def taken (k : K) (tr : List (Move (State P K C Q) (P × Event K C L))) : List C :=
  tr.filterMap fun m => m.label.2.taken? k

omit [DecidableEq P] in
theorem written_snoc (k : K) (m : Move (State P K C Q) (P × Event K C L)) :
    written k (tr ++ [m]) = written k tr ++ (m.label.2.written? k).toList :=
  filterMap_snoc ..

omit [DecidableEq P] in
theorem taken_snoc (k : K) (m : Move (State P K C Q) (P × Event K C L)) :
    taken k (tr ++ [m]) = taken k tr ++ (m.label.2.taken? k).toList :=
  filterMap_snoc ..

theorem Event.Shifts.account {before after : K → List C} {e : Event K C L}
    (h : e.Shifts before after) (k : K) :
    before k ++ (e.written? k).toList = (e.taken? k).toList ++ after k := by
  cases e with
  | read j c =>
      rw [show before = _ from h]
      by_cases hk : j = k
      · subst hk; simp [Event.written?, Event.taken?]
      · simp [Event.written?, Event.taken?, hk, Function.update_of_ne (Ne.symm hk)]
  | wrote j c =>
      rw [show after = _ from h]
      by_cases hk : j = k
      · subst hk; simp [Event.written?, Event.taken?]
      · simp [Event.written?, Event.taken?, hk, Function.update_of_ne (Ne.symm hk)]
  | eof | epipe | said =>
      rw [show after = before from h]
      simp [Event.written?, Event.taken?]

/-- What is neither written to a pipe nor read from it leaves it as it is. -/
theorem Step.content_eq (h : Step cap op s l t) (hw : l.2.written? k = none)
    (ht : l.2.taken? k = none) : t.pipes.content k = s.pipes.content k := by
  have haccount := h.shifts.account k
  rw [hw, ht] at haccount
  simpa using haccount.symm

/-- **The law of the pipes.** -/
theorem pipe_law (r : Run (Step cap op) s₀ tr s) (h₀ : ∀ k, s₀.pipes.content k = []) (k : K) :
    written k tr = taken k tr ++ s.pipes.content k := by
  induction r with
  | refl => simp [written, taken, h₀]
  | @snoc t u tr l r h ih =>
      rw [written_snoc, taken_snoc, ih, List.append_assoc, List.append_assoc,
        h.shifts.account k]

/-- What has been read after a step was written before it. -/
theorem written_before (r : Run (Step cap op) s₀ tr s) (h₀ : ∀ k, s₀.pipes.content k = [])
    (h : Step cap op s l t) {c : C} (hc : c ∈ taken k (tr ++ [⟨s, l, t⟩])) : c ∈ written k tr := by
  rw [pipe_law r h₀]
  rw [taken_snoc, List.mem_append, Option.mem_toList] at hc
  rcases hc with hc | hc
  · exact List.mem_append_left _ hc
  · have haccount := h.shifts.account k
    have hwritten : l.2.written? k = none := by
      cases hl : l.2 <;> rw [hl] at hc <;> first | rfl | cases hc
    rw [hc, hwritten, Option.toList_none, List.append_nil] at haccount
    exact List.mem_append_right _ (haccount ▸ List.mem_cons_self ..)

/-- What is in the pipes is as it should be. -/
def Fits (fits : K → C → Prop) (s : State P K C Q) : Prop :=
  ∀ k, ∀ c ∈ s.pipes.content k, fits k c

/-- What is written fits. -/
def Op.Writes (fits : K → C → Prop) : Op K C A L Q → Prop
  | .write k c _ _ => fits k c
  | _ => True

variable {fits : K → C → Prop}

theorem Fits.step (hs : Fits fits s) (hop : ∀ p q, (op p q).Writes fits)
    (h : Step cap op s l t) : Fits fits t := by
  intro k c hc
  have hshift := h.shifts.account k
  have hmem : c ∈ s.pipes.content k ++ (l.2.written? k).toList := by
    rw [hshift]
    exact List.mem_append_right _ hc
  rcases List.mem_append.mp hmem with hold | hnew
  · exact hs k c hold
  · cases h with
    | write p j c' ok broken pipes hp hw =>
        have hwrites := hop p (s.pc p)
        rw [hp] at hwrites
        simp only [Event.written?] at hnew
        split at hnew
        · rename_i hj
          obtain rfl := List.mem_singleton.mp hnew
          exact hj ▸ hwrites
        · cases hnew
    | read | eof | again | epipe | close | act | ask | wait | exit => cases hnew

/-- **What is in the pipes** is as the programs write it. -/
theorem Fits.run (hop : ∀ p q, (op p q).Writes fits) (r : Run (Step cap op) s₀ tr s)
    (h₀ : ∀ k, s₀.pipes.content k = []) : Fits fits s := by
  refine r.invariant (fun hs h => hs.step hop h) fun k c hc => ?_
  rw [h₀] at hc
  cases hc

/-! ### Schedules -/

section
variable [Fintype P]

instance (pipes : Pipes P K C) (k : K) : Decidable (pipes.NoWriter k) :=
  inferInstanceAs (Decidable (∀ p, pipes.writes p k = false))

instance (pipes : Pipes P K C) (k : K) : Decidable (pipes.NoReader k) :=
  inferInstanceAs (Decidable (∀ p, pipes.reads p k = false))

def Op.isHalt : Op K C A L Q → Bool
  | .halt => true
  | _ => false

omit [DecidableEq P] [DecidableEq K] [Fintype P] in
theorem Op.isHalt_iff {o : Op K C A L Q} : o.isHalt = true ↔ o = .halt := by
  cases o <;> simp [isHalt]

/-- What `p` does next, if the environment answers `a`. -/
def next (cap : ℕ) (op : P → Q → Op K C A L Q) (s : State P K C Q) (p : P) (a : Option A) :
    Option (Event K C L × State P K C Q) :=
  match op p (s.pc p) with
  | .read k data eof again =>
      match s.pipes.content k with
      | c :: cs => some (.read k c, s.go p (s.pipes.set k cs) (data c))
      | [] =>
          if s.pipes.NoWriter k then some (.eof k, s.go p s.pipes eof)
          else again.map fun q => (.said none, s.go p s.pipes q)
  | .write k c ok broken =>
      if s.pipes.NoReader k then some (.epipe k, s.go p s.pipes broken)
      else if (s.pipes.content k).length < cap then
        some (.wrote k c, s.go p (s.pipes.set k (s.pipes.content k ++ [c])) ok)
      else none
  | .close e q => some (.said none, s.go p (closeEnd s.pipes p e) q)
  | .act l q => some (.said l, s.go p s.pipes q)
  | .ask answer => (a.bind answer).map fun (l, q) => (.said l, s.go p s.pipes q)
  | .exit q => some (.said none, s.go p (closeAll s.pipes p) q)
  | .wait q =>
      if ∀ r, r ≠ p → (op r (s.pc r)).isHalt then some (.said none, s.go p s.pipes q) else none
  | .halt => none

/-- The processes of a schedule take their turns. -/
def play (cap : ℕ) (op : P → Q → Op K C A L Q) (s : State P K C Q) :
    List (P × Option A) → Option (List (P × Event K C L) × State P K C Q)
  | [] => some ([], s)
  | (p, a) :: turns => do
      let (e, t) ← next cap op s p a
      let (es, u) ← play cap op t turns
      pure ((p, e) :: es, u)

/-- A process takes its turns without asking for anything. -/
def quiet (p : P) (k : ℕ) : List (P × Option A) := List.replicate k (p, none)

theorem next_step {a : Option A} (h : next cap op s p a = some (e, t)) : Step cap op s (p, e) t := by
  unfold next at h
  cases hop : op p (s.pc p) with
  | read k data eof again =>
      rw [hop] at h
      dsimp only at h
      cases hk : s.pipes.content k with
      | cons c cs =>
          rw [hk] at h
          cases h
          exact .read p k data eof again c _ hop (.data c cs hk)
      | nil =>
          rw [hk] at h
          dsimp only at h
          split at h
          · cases h
            exact .eof p k data eof again hop hk ‹_›
          · cases again with
            | none => cases h
            | some q =>
                cases h
                exact .again p k data eof q hop hk ‹_›
  | write k c ok broken =>
      rw [hop] at h
      dsimp only at h
      split at h
      · cases h
        exact .epipe p k c ok broken hop ‹_›
      · split at h
        · cases h
          exact .write p k c ok broken _ hop (.ok ‹_› ‹_›)
        · cases h
  | close f q =>
      rw [hop] at h
      cases h
      exact .close p f q hop
  | act l q =>
      rw [hop] at h
      cases h
      exact .act p l q hop
  | ask answer =>
      rw [hop] at h
      obtain ⟨⟨l, q⟩, hlq, heq⟩ := Option.map_eq_some_iff.mp h
      obtain ⟨a, -, ha⟩ := Option.bind_eq_some_iff.mp hlq
      cases heq
      exact .ask p answer a l q hop ha
  | exit q =>
      rw [hop] at h
      cases h
      exact .exit p q hop
  | wait q =>
      rw [hop] at h
      dsimp only at h
      split at h
      next hall =>
        cases h
        exact .wait p q hop fun r hr => Op.isHalt_iff.mp (hall r hr)
      · cases h
  | halt =>
      rw [hop] at h
      cases h

/-- Whether every step of a schedule is as `ok` says. -/
def heeds (cap : ℕ) (op : P → Q → Op K C A L Q) (ok : State P K C Q → P × Event K C L → Bool)
    (s : State P K C Q) : List (P × Option A) → Bool
  | [] => true
  | (p, a) :: turns => (next cap op s p a).all fun (e, t) => ok s (p, e) && heeds cap op ok t turns

theorem heeds_true (s : State P K C Q) (turns : List (P × Option A)) :
    heeds cap op (fun _ _ => true) s turns = true := by
  induction turns generalizing s with
  | nil => rfl
  | cons turn turns ih =>
      rw [heeds, Option.all_eq_true]
      exact fun x _ => ih x.2

theorem play_heeds (ok : State P K C Q → P × Event K C L → Bool) {turns : List (P × Option A)}
    {es : List (P × Event K C L)} (h : play cap op s turns = some (es, t))
    (hok : heeds cap op ok s turns = true) :
    ∃ tr, Run (Step cap op) s tr t ∧ tr.map Move.label = es ∧
      ∀ m ∈ tr, ok m.before m.label = true := by
  induction turns generalizing s es with
  | nil => cases h; exact ⟨[], .refl _, rfl, nofun⟩
  | cons turn turns ih =>
      obtain ⟨p, a⟩ := turn
      simp only [play, Option.bind_eq_bind, Option.bind_eq_some_iff, Option.pure_def,
        Option.some.injEq, Prod.exists] at h
      obtain ⟨e, t', hnext, es', u, hplay, heq⟩ := h
      cases heq
      rw [heeds, hnext, Option.all_some, Bool.and_eq_true] at hok
      obtain ⟨tr, r, hlabels, hall⟩ := ih hplay hok.2
      exact ⟨_, .cons (next_step hnext) r, by rw [List.map_cons, hlabels],
        List.forall_mem_cons.mpr ⟨hok.1, hall⟩⟩

/-- **The run of a schedule.** -/
theorem play_run {turns : List (P × Option A)} {es : List (P × Event K C L)}
    (h : play cap op s turns = some (es, t)) :
    ∃ tr, Run (Step cap op) s tr t ∧ tr.map Move.label = es := by
  obtain ⟨tr, r, hlabels, -⟩ := play_heeds (fun _ _ => true) h (heeds_true s turns)
  exact ⟨tr, r, hlabels⟩

theorem play_map {turns : List (P × Option A)} {β : Type*}
    {f : List (P × Event K C L) × State P K C Q → β} {b : β}
    (h : (play cap op s turns).map f = some b) :
    ∃ tr t, Run (Step cap op) s tr t ∧ f (tr.map Move.label, t) = b := by
  obtain ⟨⟨es, t⟩, hplay, hb⟩ := Option.map_eq_some_iff.mp h
  obtain ⟨tr, r, rfl⟩ := play_run hplay
  exact ⟨tr, t, r, hb⟩

end

end Support.Piped
