import Sop2.Support.PipedEnds

/-!
# Support — Piped — setting up

Processes that begin with all the ends of all the pipes, close those that they do not use, one after
the other, and then go to work, whatever that is.

* `closeEach_eq_some`: a list of descriptors can be closed if each of them is open, and in the list
  once.
* `kept_or_givenUp`: an end is open until its process closes it, or exits.
* `Held.run`: a process that sets up has its own ends and those that it has still to close; one that
  works has none but its own.
* `givenUp_of_eof`: before an end of file, everybody has given up the write end.
* `keeps_withSetUp`, `tidy_everyEnd`: if the programs say at every place which ends are open, then so
  they do behind the setting up.
-/

namespace Support.Piped

/-! ### One `close` after the other -/

section
variable {F : Type*} [DecidableEq F]

/-- `close`; a descriptor that is not open is an error. -/
def close (fd : F) (isOpen : F → Bool) : Option (F → Bool) :=
  if isOpen fd then some (Function.update isOpen fd false) else none

/-- The descriptors are closed in order, until there is an error. -/
def closeEach : List F → (F → Bool) → Option (F → Bool)
  | [], isOpen => some isOpen
  | fd :: fds, isOpen => (close fd isOpen).bind (closeEach fds)

theorem closeEach_eq_some {fds : List F} {before after : F → Bool} :
    closeEach fds before = some after ↔
      fds.Nodup ∧ (∀ fd ∈ fds, before fd = true) ∧
        after = fun fd => before fd && decide (fd ∉ fds) := by
  induction fds generalizing before with
  | nil =>
      rw [closeEach, Option.some_inj]
      constructor
      · rintro rfl
        exact ⟨List.nodup_nil, by simp, by simp⟩
      · rintro ⟨-, -, rfl⟩
        simp
  | cons fd fds ih =>
      rw [closeEach, close]
      cases hfd : before fd with
      | false =>
          refine ⟨nofun, fun h => ?_⟩
          rw [h.2.1 fd (List.mem_cons_self ..)] at hfd
          cases hfd
      | true =>
          rw [if_pos rfl, Option.bind_some, ih, List.nodup_cons, List.forall_mem_cons]
          constructor
          · rintro ⟨hnodup, hopen, rfl⟩
            -- the first has been closed, so that it is not among the others
            have hnot : fd ∉ fds := fun hmem => by simpa using hopen fd hmem
            refine ⟨⟨hnot, hnodup⟩, ⟨hfd, fun e he => ?_⟩, ?_⟩
            · have hne : e ≠ fd := fun h => hnot (h ▸ he)
              simpa [hne] using hopen e he
            · ext e
              by_cases he : e = fd
              · subst he; simp
              · simp [he]
          · rintro ⟨⟨hnot, hnodup⟩, ⟨-, hopen⟩, rfl⟩
            refine ⟨hnodup, fun e he => ?_, ?_⟩
            · have hne : e ≠ fd := fun h => hnot (h ▸ he)
              simpa [hne] using hopen e he
            · ext e
              by_cases he : e = fd
              · subst he; simp
              · simp [he]

end

variable {P K C A L Q : Type*} [DecidableEq P] [DecidableEq K] {cap : ℕ}

/-! ### Giving up an end -/

section
variable {op : P → Q → Op K C A L Q} {s t s₀ : State P K C Q} {p : P} {e : End K} {k : K}
  {tr : List (Move (State P K C Q) (P × Event K C L))}

/-- In this move `p` closes the end, or exits. -/
def GivesUp (op : P → Q → Op K C A L Q) (p : P) (e : End K)
    (m : Move (State P K C Q) (P × Event K C L)) : Prop :=
  m.label.1 = p ∧
    ((∃ q, op p (m.before.pc p) = .close e q) ∨ ∃ q, op p (m.before.pc p) = .exit q)

/-- An end stays open in a move in which it is not given up. -/
theorem Step.kept {l : P × Event K C L} (h : Step cap op s l t) (he : s.has p e = true)
    (hkeep : ¬ GivesUp op p e ⟨s, l, t⟩) : t.has p e = true := by
  rw [h.has p]
  split
  · rename_i hp
    cases hop : op p (s.pc p) with
    | close f q =>
        have hne : e ≠ f := by
          rintro rfl
          exact hkeep ⟨hp.symm, .inl ⟨q, hop⟩⟩
        rw [Op.leaves, Function.update_of_ne hne]
        exact he
    | exit q => exact absurd ⟨hp.symm, .inr ⟨q, hop⟩⟩ hkeep
    | read | write | act | ask | wait | halt => exact he
  · exact he

/-- **An end is open until it is given up.** -/
theorem kept_or_givenUp (r : Run (Step cap op) s₀ tr s) (he : s₀.has p e = true) :
    s.has p e = true ∨ ∃ m ∈ tr, GivesUp op p e m := by
  induction r with
  | refl => exact .inl he
  | @snoc t u tr l r h ih =>
      rcases ih with hopen | ⟨m, hm, hgives⟩
      · by_cases hlast : GivesUp op p e ⟨t, l, u⟩
        · exact .inr ⟨_, List.mem_append_right _ (List.mem_singleton_self _), hlast⟩
        · exact .inl (h.kept hopen hlast)
      · exact .inr ⟨m, List.mem_append_left _ hm, hgives⟩

/-- **Before an end of file** every process that had the write end has given it up. -/
theorem givenUp_of_eof {q : P} {t : State P K C Q} (r : Run (Step cap op) s₀ tr s)
    (h : Step cap op s (q, .eof k) t) (he : s₀.has p (.write k) = true) :
    ∃ m ∈ tr, GivesUp op p (.write k) m := by
  refine (kept_or_givenUp r he).resolve_left fun hopen => ?_
  cases h with
  | eof _ _ data eof again hop hempty hw =>
      rw [show s.has p (.write k) = false from hw p] at hopen
      cases hopen

end

/-! ### Setting up -/

/-- Where a process is: it still has these ends to close, or it works. -/
inductive SetUp (K Q : Type*) where
  | closing (es : List (End K))
  | working (q : Q)

def SetUp.isWorking : SetUp K Q → Bool
  | .closing _ => false
  | .working _ => true

omit [DecidableEq K] in
theorem SetUp.isWorking_iff {q : SetUp K Q} : q.isWorking = true ↔ ∃ q', q = .working q' := by
  cases q with
  | closing es => exact ⟨nofun, nofun⟩
  | working q' => exact ⟨fun _ => ⟨q', rfl⟩, fun _ => rfl⟩

/-- The operation, with other names for the places. -/
def Op.map {Q' : Type*} (f : Q → Q') : Op K C A L Q → Op K C A L Q'
  | .read k data eof again => .read k (fun c => f (data c)) (f eof) (again.map f)
  | .write k c ok broken => .write k c (f ok) (f broken)
  | .close e next => .close e (f next)
  | .act l next => .act l (f next)
  | .ask answer => .ask fun a => (answer a).map fun (l, q) => (l, f q)
  | .wait next => .wait (f next)
  | .exit next => .exit (f next)
  | .halt => .halt

/-- The programs `work`, from the places `start`, behind the setting up. -/
def withSetUp (work : P → Q → Op K C A L Q) (start : P → Q) (p : P) :
    SetUp K Q → Op K C A L (SetUp K Q)
  | .closing [] => .act none (.working (start p))
  | .closing (e :: es) => .close e (.closing es)
  | .working q => (work p q).map .working

/-- Everybody has all ends, and those of `unused` to close. -/
def everyEnd (unused : P → List (End K)) : State P K C (SetUp K Q) where
  pipes := ⟨fun _ => [], fun _ _ => true, fun _ _ => true⟩
  pc p := .closing (unused p)

omit [DecidableEq P] [DecidableEq K] in
theorem everyEnd_has (unused : P → List (End K)) (p : P) (e : End K) :
    (everyEnd unused : State P K C (SetUp K Q)).has p e = true := by
  cases e <;> rfl

variable {work : P → Q → Op K C A L Q} {start : P → Q} {unused : P → List (End K)}
  {own : P → End K → Bool} {s t : State P K C (SetUp K Q)} {p : P} {e : End K}
  {l : P × Event K C L} {tr : List (Move (State P K C (SetUp K Q)) (P × Event K C L))}

/-- What a process has, by its place. -/
def SetUp.Has (own held : End K → Bool) : SetUp K Q → Prop
  | .closing es => Unused own es ∧ held = beside own es
  | .working _ => ∀ e, held e = true → own e = true

/-- Everybody has what is right for its place. -/
def Held (own : P → End K → Bool) (s : State P K C (SetUp K Q)) : Prop :=
  ∀ p, (s.pc p).Has (own p) (s.has p)

omit [DecidableEq P] in
theorem held_everyEnd (hunused : ∀ p, Unused (own p) (unused p))
    (hall : ∀ p e, own p e = true ∨ e ∈ unused p) :
    Held own (everyEnd unused : State P K C (SetUp K Q)) := by
  intro p
  refine ⟨hunused p, funext fun e => ?_⟩
  rw [everyEnd_has, beside]
  rcases hall p e with h | h <;> simp [h]

omit [DecidableEq K] in
theorem Op.map_goes {Q' : Type*} {f : Q → Q'} {o : Op K C A L Q} {e : Event K C L} {q : Q'}
    (h : (o.map f).Goes e q) : ∃ q', q = f q' := by
  cases o with
  | read k data eof again =>
      obtain ⟨c, -, rfl⟩ | ⟨-, rfl⟩ | ⟨-, h⟩ := h
      · exact ⟨_, rfl⟩
      · exact ⟨_, rfl⟩
      · obtain ⟨q', -, rfl⟩ := Option.map_eq_some_iff.mp h
        exact ⟨q', rfl⟩
  | write k c ok broken =>
      obtain ⟨-, rfl⟩ | ⟨-, rfl⟩ := h <;> exact ⟨_, rfl⟩
  | close | act | wait | exit => exact ⟨_, h.2⟩
  | ask answer =>
      obtain ⟨a, l, ha, -⟩ := h
      obtain ⟨⟨l', q'⟩, -, heq⟩ := Option.map_eq_some_iff.mp ha
      exact ⟨q', (congrArg Prod.snd heq).symm⟩
  | halt => exact h.elim

theorem Held.step (hs : Held own s) (h : Step cap (withSetUp work start) s l t) : Held own t := by
  intro p
  by_cases hp : p = l.1
  · subst hp
    obtain ⟨q, hpc, hgoes⟩ := h.goes
    have hhas := h.has l.1
    have hbefore := hs l.1
    rw [if_pos rfl] at hhas
    rw [hpc, Function.update_self, hhas]
    cases hplace : s.pc l.1 with
    | closing es =>
        rw [hplace] at hbefore hgoes
        obtain ⟨hunused, hheld⟩ := hbefore
        cases es with
        | nil =>
            obtain ⟨-, rfl⟩ := hgoes
            rw [beside_nil] at hheld
            intro e he
            exact hheld ▸ he
        | cons e es =>
            obtain ⟨-, rfl⟩ := hgoes
            exact ⟨hunused.tail, by rw [hheld, beside_cons hunused]; rfl⟩
    | working q' =>
        rw [hplace] at hbefore hgoes
        obtain ⟨q'', rfl⟩ := Op.map_goes hgoes
        intro e he
        refine hbefore e (h.has_mono ?_)
        rw [hhas, hplace]
        exact he
  · rw [h.stays hp, h.has p, if_neg hp]
    exact hs p

/-- **What a process has**, in every reachable state. -/
theorem Held.run (hs : Held own s) (r : Run (Step cap (withSetUp work start)) s tr t) :
    Held own t :=
  r.invariant (fun hs h => hs.step h) hs

omit [DecidableEq P] in
/-- What is to be closed next is open. -/
theorem Held.open (hs : Held own s) {es : List (End K)} (h : s.pc p = .closing (e :: es)) :
    s.has p e = true := by
  have hp := hs p
  rw [h] at hp
  rw [hp.2, beside]
  simp

omit [DecidableEq P] in
/-- Who works has no end but its own. -/
theorem Held.only (hs : Held own s) {q : Q} (h : s.pc p = .working q) (he : s.has p e = true) :
    own p e = true := by
  have hp := hs p
  rw [h] at hp
  exact hp e he

/-! ### Which ends are open -/

/-- Where a process can be. -/
def SetUp.Ok (ok : Q → Prop) (own : End K → Bool) (start : Q) : SetUp K Q → Prop
  | .closing es => Unused own es ∧ ok start
  | .working q => ok q

/-- The ends that a process has open at a place. -/
def SetUp.holds (held : Q → End K → Bool) (own : End K → Bool) : SetUp K Q → End K → Bool
  | .closing es => beside own es
  | .working q => held q

section
variable {ok : P → Q → Prop} {holds : P → Q → End K → Bool}

omit [DecidableEq K] in
theorem Op.map_goes_iff {Q' : Type*} {f : Q → Q'} {o : Op K C A L Q} {e : Event K C L} {q : Q'} :
    (o.map f).Goes e q ↔ ∃ q', o.Goes e q' ∧ q = f q' := by
  constructor
  · intro h
    cases o with
    | read k data eof again =>
        obtain ⟨c, rfl, rfl⟩ | ⟨rfl, rfl⟩ | ⟨rfl, h⟩ := h
        · exact ⟨_, .inl ⟨c, rfl, rfl⟩, rfl⟩
        · exact ⟨_, .inr (.inl ⟨rfl, rfl⟩), rfl⟩
        · obtain ⟨q', hq, rfl⟩ := Option.map_eq_some_iff.mp h
          exact ⟨q', .inr (.inr ⟨rfl, hq⟩), rfl⟩
    | write k c ok broken =>
        obtain ⟨rfl, rfl⟩ | ⟨rfl, rfl⟩ := h
        · exact ⟨_, .inl ⟨rfl, rfl⟩, rfl⟩
        · exact ⟨_, .inr ⟨rfl, rfl⟩, rfl⟩
    | close | act | wait | exit => exact ⟨_, ⟨h.1, rfl⟩, h.2⟩
    | ask answer =>
        obtain ⟨a, l, ha, rfl⟩ := h
        obtain ⟨⟨l', q'⟩, hanswer, heq⟩ := Option.map_eq_some_iff.mp ha
        cases heq
        exact ⟨q', ⟨a, l, hanswer, rfl⟩, rfl⟩
    | halt => exact h.elim
  · rintro ⟨q', h, rfl⟩
    cases o with
    | read k data eof again =>
        obtain ⟨c, rfl, rfl⟩ | ⟨rfl, rfl⟩ | ⟨rfl, hq⟩ := h
        · exact .inl ⟨c, rfl, rfl⟩
        · exact .inr (.inl ⟨rfl, rfl⟩)
        · exact .inr (.inr ⟨rfl, Option.map_eq_some_iff.mpr ⟨q', hq, rfl⟩⟩)
    | write k c ok broken =>
        obtain ⟨rfl, rfl⟩ | ⟨rfl, rfl⟩ := h
        · exact .inl ⟨rfl, rfl⟩
        · exact .inr ⟨rfl, rfl⟩
    | close | act | wait | exit => exact ⟨h.1, congrArg f h.2⟩
    | ask answer =>
        obtain ⟨a, l, ha, rfl⟩ := h
        exact ⟨a, l, Option.map_eq_some_iff.mpr ⟨(l, q'), ha, rfl⟩, rfl⟩
    | halt => exact h.elim

theorem Op.Keeps.map {Q' : Type*} {f : Q → Q'} {o : Op K C A L Q} {held : End K → Bool}
    {holds : Q → End K → Bool} {holds' : Q' → End K → Bool} (hf : ∀ q, holds' (f q) = holds q)
    (h : o.Keeps held holds) : (o.map f).Keeps held holds' := by
  cases o with
  | read k data eof again =>
      obtain ⟨hopen, hdata, heof, hagain⟩ := h
      refine ⟨hopen, fun c => (hf _).trans (hdata c), (hf _).trans heof, fun q hq => ?_⟩
      obtain ⟨q', hq', rfl⟩ := Option.map_eq_some_iff.mp hq
      exact (hf _).trans (hagain q' hq')
  | write k c ok broken => exact ⟨h.1, (hf _).trans h.2.1, (hf _).trans h.2.2⟩
  | close e next | act l next | wait next | exit next => exact (hf _).trans h
  | ask answer =>
      intro a l q ha
      obtain ⟨⟨l', q'⟩, hanswer, heq⟩ := Option.map_eq_some_iff.mp ha
      cases heq
      exact (hf _).trans (h a l q' hanswer)
  | halt => trivial

omit [DecidableEq P] [DecidableEq K] in
/-- Where an operation leads: to the next end that is to be closed, to the work, or on with it. -/
theorem withSetUp_goes {q q' : SetUp K Q} {e' : Event K C L}
    (h : (withSetUp work start p q).Goes e' q') :
    (∃ f es, q = .closing (f :: es) ∧ e' = .said none ∧ q' = .closing es) ∨
      (q = .closing [] ∧ e' = .said none ∧ q' = .working (start p)) ∨
        ∃ w w', q = .working w ∧ q' = .working w' ∧ (work p w).Goes e' w' := by
  cases q with
  | closing es =>
      cases es with
      | nil => exact .inr (.inl ⟨rfl, h.1, h.2⟩)
      | cons f es => exact .inl ⟨f, es, rfl, h.1, h.2⟩
  | working w =>
      obtain ⟨w', hgoes, rfl⟩ := Op.map_goes_iff.mp h
      exact .inr (.inr ⟨w, w', rfl, rfl, hgoes⟩)

omit [DecidableEq P] in
/-- **Behind the setting up** every operation keeps the ends as the programs say, if the programs
do. -/
theorem keeps_withSetUp (hk : Keeps work ok holds) (hown : ∀ p, holds p (start p) = own p) :
    Keeps (withSetUp work start) (fun p => (SetUp.Ok (ok p) (own p) (start p)))
      (fun p => SetUp.holds (holds p) (own p)) where
  still := by
    intro p q e q' hq hgoes
    cases q with
    | closing es =>
        cases es with
        | nil =>
            obtain ⟨-, rfl⟩ := hgoes
            exact hq.2
        | cons f es =>
            obtain ⟨-, rfl⟩ := hgoes
            exact ⟨hq.1.tail, hq.2⟩
    | working q =>
        obtain ⟨q'', hwork, rfl⟩ := Op.map_goes_iff.mp hgoes
        exact hk.still (p := p) hq hwork
  keeps := by
    intro p q hq
    cases q with
    | closing es =>
        cases es with
        | nil => exact (hown p).trans beside_nil.symm
        | cons f es => exact beside_cons hq.1
    | working q => exact (hk.keeps (p := p) hq).map fun _ => rfl

omit [DecidableEq P] in
theorem tidy_everyEnd (hok : ∀ p, ok p (start p)) (hunused : ∀ p, Unused (own p) (unused p))
    (hall : ∀ p e, own p e = true ∨ e ∈ unused p) :
    Tidy (fun p => SetUp.Ok (ok p) (own p) (start p)) (fun p => SetUp.holds (holds p) (own p))
      (everyEnd unused : State P K C (SetUp K Q)) where
  ok p := ⟨hunused p, hok p⟩
  has p := by
    funext e
    rw [everyEnd_has]
    change true = beside (own p) (unused p) e
    rcases hall p e with h | h <;> simp [beside, h]

end

end Support.Piped
