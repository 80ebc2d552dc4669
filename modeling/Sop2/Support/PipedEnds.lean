import Sop2.Support.Piped

/-!
# Support — Piped — the ends

Which ends of the pipes the processes have open.

* `Tidy.run`: if at every place the program says which ends are open, and each operation changes
  that as it should, then in every reachable state they are.
* `ended_of_eof`, `noReader_of_epipe`: an end of file and a broken pipe are for ever.
* `written_of_only`, `taken_of_only`: what is written or read by one process alone.
* `beside_cons`: a process begins with all the ends and closes those that are not its own.
-/

namespace Support.Piped

variable {P K C A L Q : Type*} [DecidableEq P] [DecidableEq K] {cap : ℕ}
  {op : P → Q → Op K C A L Q} {s t s₀ : State P K C Q} {p : P} {l : P × Event K C L} {k : K}
  {tr : List (Move (State P K C Q) (P × Event K C L))}

/-- The operation keeps `holds`, from a place where the ends `held` are open: it reads and writes
only pipes of which it has the end open. -/
def Op.Keeps (held : End K → Bool) (holds : Q → End K → Bool) : Op K C A L Q → Prop
  | .read k data eof again => held (.read k) = true ∧ (∀ c, holds (data c) = held) ∧
      holds eof = held ∧ ∀ q, again = some q → holds q = held
  | .write k _ ok broken => held (.write k) = true ∧ holds ok = held ∧ holds broken = held
  | .close e next => holds next = Function.update held e false
  | .exit next => holds next = fun _ => false
  | .act _ next | .wait next => holds next = held
  | .ask answer => ∀ a l q, answer a = some (l, q) → holds q = held
  | .halt => True

/-- Every operation of the programs keeps `holds`, at the places where the processes can be. -/
structure Keeps (op : P → Q → Op K C A L Q) (ok : P → Q → Prop) (holds : P → Q → End K → Bool) :
    Prop where
  still : ∀ {p : P} {q : Q} {e : Event K C L} {q' : Q}, ok p q → (op p q).Goes e q' → ok p q'
  keeps : ∀ {p : P} {q : Q}, ok p q → (op p q).Keeps (holds p q) (holds p)

/-- The ends are open as the places of the processes say. -/
structure Tidy (ok : P → Q → Prop) (holds : P → Q → End K → Bool) (s : State P K C Q) : Prop where
  ok : ∀ p, ok p (s.pc p)
  has : ∀ p, s.has p = holds p (s.pc p)

variable {ok : P → Q → Prop} {holds : P → Q → End K → Bool}

theorem Op.Keeps.leaves {o : Op K C A L Q} {held : End K → Bool} {holds : Q → End K → Bool}
    (h : o.Keeps held holds) {e : Event K C L} {q : Q} (hgoes : o.Goes e q) :
    holds q = o.leaves held := by
  cases o with
  | read k data eof again =>
      obtain ⟨-, hdata, heof, hagain⟩ := h
      obtain ⟨c, rfl, rfl⟩ | ⟨rfl, rfl⟩ | ⟨rfl, hq⟩ := hgoes
      · exact hdata c
      · exact heof
      · exact hagain q hq
  | write k c ok broken =>
      obtain ⟨-, hok, hbroken⟩ := h
      obtain ⟨rfl, rfl⟩ | ⟨rfl, rfl⟩ := hgoes
      · exact hok
      · exact hbroken
  | close e next | act l next | wait next | exit next =>
      obtain ⟨rfl, rfl⟩ := hgoes
      exact h
  | ask answer =>
      obtain ⟨a, l, ha, rfl⟩ := hgoes
      exact h a l q ha
  | halt => exact hgoes.elim

theorem Tidy.step (hk : Keeps op ok holds) (hs : Tidy ok holds s) (h : Step cap op s l t) :
    Tidy ok holds t := by
  obtain ⟨q, hpc, hgoes⟩ := h.goes
  refine ⟨fun r => ?_, fun r => ?_⟩
  · by_cases hr : r = l.1
    · subst hr
      rw [hpc, Function.update_self]
      exact hk.still (hs.ok _) hgoes
    · rw [h.stays hr]
      exact hs.ok r
  · rw [h.has r]
    by_cases hr : r = l.1
    · subst hr
      rw [if_pos rfl, hpc, Function.update_self, hs.has]
      exact ((hk.keeps (hs.ok _)).leaves hgoes).symm
    · rw [if_neg hr, h.stays hr]
      exact hs.has r

/-- **The ends are open as the places say**, in every reachable state. -/
theorem Tidy.run (hk : Keeps op ok holds) (hs₀ : Tidy ok holds s₀)
    (r : Run (Step cap op) s₀ tr s) : Tidy ok holds s :=
  r.invariant (fun hs h => hs.step hk h) hs₀

omit [DecidableEq P] [DecidableEq K] in
theorem Tidy.noWriter (hs : Tidy ok holds s) :
    s.pipes.NoWriter k ↔ ∀ p, holds p (s.pc p) (.write k) = false :=
  forall_congr' fun p => by rw [← hs.has]; rfl

omit [DecidableEq P] [DecidableEq K] in
theorem Tidy.noReader (hs : Tidy ok holds s) :
    s.pipes.NoReader k ↔ ∀ p, holds p (s.pc p) (.read k) = false :=
  forall_congr' fun p => by rw [← hs.has]; rfl

omit [DecidableEq P] in
/-- Who is about to write has the end open. -/
theorem Tidy.writes (hk : Keeps op ok holds) (hs : Tidy ok holds s) {c : C} {ok' broken : Q}
    (h : op p (s.pc p) = .write k c ok' broken) : holds p (s.pc p) (.write k) = true := by
  have hheld := hk.keeps (hs.ok p)
  rw [h] at hheld
  exact hheld.1

/-- A pipe that is empty and has no writer stays so. -/
theorem Tidy.ended (hk : Keeps op ok holds) (hs : Tidy ok holds s) (h : Step cap op s l t)
    (hempty : s.pipes.content k = []) (hw : s.pipes.NoWriter k) :
    t.pipes.content k = [] ∧ t.pipes.NoWriter k := by
  refine ⟨?_, h.noWriter hw⟩
  have hshift := h.shifts.account k
  rw [hempty, List.nil_append] at hshift
  -- nobody can write to it
  have hnone : l.2.written? k = none := by
    cases h with
    | write p j c ok' broken pipes hop _ =>
        have hj : j ≠ k := by
          rintro rfl
          have hopen := hs.writes hk hop
          rw [hs.noWriter.mp hw p] at hopen
          cases hopen
        exact if_neg hj
    | read | eof | again | epipe | close | act | ask | wait | exit => rfl
  rw [hnone, Option.toList_none] at hshift
  exact (List.append_eq_nil_iff.mp hshift.symm).2

/-- When there is an end of file. -/
theorem Step.of_eof (h : Step cap op s (p, .eof k) t) :
    s.pipes.content k = [] ∧ s.pipes.NoWriter k := by
  cases h with
  | eof _ _ data eof again hop hempty hw => exact ⟨hempty, hw⟩

/-- When a pipe is broken. -/
theorem Step.of_epipe (h : Step cap op s (p, .epipe k) t) : s.pipes.NoReader k := by
  cases h with
  | epipe _ _ c ok broken hop hr => exact hr

/-- **An end of file is for ever.** -/
theorem ended_of_eof (hk : Keeps op ok holds) (hs₀ : Tidy ok holds s₀)
    (r : Run (Step cap op) s₀ tr s) (h : Event.eof k ∈ events p tr) :
    s.pipes.content k = [] ∧ s.pipes.NoWriter k := by
  induction r with
  | refl => cases h
  | @snoc t u tr l r hstep ih =>
      have ht := hs₀.run hk r
      rw [events_snoc, List.mem_append] at h
      rcases h with h | h
      · obtain ⟨hempty, hw⟩ := ih h
        exact ht.ended hk hstep hempty hw
      · split at h
        · obtain rfl : l = (p, .eof k) := Prod.ext ‹_› (List.mem_singleton.mp h).symm
          cases hstep with
          | eof _ _ data eof again hop hempty hw => exact ⟨hempty, hw⟩
        · cases h

/-- **A broken pipe is for ever.** -/
theorem noReader_of_epipe (r : Run (Step cap op) s₀ tr s) (h : Event.epipe k ∈ events p tr) :
    s.pipes.NoReader k := by
  induction r with
  | refl => cases h
  | @snoc t u tr l r hstep ih =>
      rw [events_snoc, List.mem_append] at h
      rcases h with h | h
      · exact hstep.noReader (ih h)
      · split at h
        · obtain rfl : l = (p, .epipe k) := Prod.ext ‹_› (List.mem_singleton.mp h).symm
          cases hstep with
          | epipe _ _ c ok broken hop hr => exact hr
        · cases h

/-! ### Who uses a pipe alone -/

/-- The end that an operation reads or writes. -/
def Op.uses : Op K C A L Q → Option (End K)
  | .read k _ _ _ => some (.read k)
  | .write k _ _ _ => some (.write k)
  | _ => none

omit [DecidableEq P] in
theorem Op.Goes.written {o : Op K C A L Q} {e : Event K C L} {q : Q} (h : o.Goes e q)
    (ho : o.uses ≠ some (.write k)) : e.written? k = none := by
  cases o with
  | write j c a b =>
      obtain ⟨rfl, -⟩ | ⟨rfl, -⟩ := h
      · have hj : j ≠ k := fun hj => ho (by rw [← hj]; rfl)
        exact if_neg hj
      · rfl
  | read j data eof again => obtain ⟨c, rfl, -⟩ | ⟨rfl, -⟩ | ⟨rfl, -⟩ := h <;> rfl
  | close | wait | exit | act => obtain ⟨rfl, -⟩ := h; rfl
  | ask answer => obtain ⟨a, l, -, rfl⟩ := h; rfl
  | halt => exact h.elim

omit [DecidableEq P] in
theorem Op.Goes.taken {o : Op K C A L Q} {e : Event K C L} {q : Q} (h : o.Goes e q)
    (ho : o.uses ≠ some (.read k)) : e.taken? k = none := by
  cases o with
  | read j data eof again =>
      obtain ⟨c, rfl, -⟩ | ⟨rfl, -⟩ | ⟨rfl, -⟩ := h
      · have hj : j ≠ k := fun hj => ho (by rw [← hj]; rfl)
        exact if_neg hj
      · rfl
      · rfl
  | write j c a b => obtain ⟨rfl, -⟩ | ⟨rfl, -⟩ := h <;> rfl
  | close | wait | exit | act => obtain ⟨rfl, -⟩ := h; rfl
  | ask answer => obtain ⟨a, l, -, rfl⟩ := h; rfl
  | halt => exact h.elim

/-- What is written by `p` alone. -/
theorem written_of_only (hk : Keeps op ok holds) (hs₀ : Tidy ok holds s₀)
    (r : Run (Step cap op) s₀ tr s)
    (honly : ∀ p' q, ok p' q → (op p' q).uses = some (.write k) → p' = p) :
    written k tr = (events p tr).filterMap (Event.written? k) := by
  refine filterMap_of_only _ fun p' hp => ?_
  have h := locally (J := fun p' es q => ok p' q ∧ (p' ≠ p → ∀ e ∈ es, e.written? k = none))
    (G := fun _ _ => True) (fun {p' es q e q'} hJ _ h => ⟨hk.still hJ.1 h, fun hp => ?_⟩) r
    (fun p' => ⟨hs₀.ok p', fun _ => nofun⟩) (fun _ _ => trivial) p'
  · exact h.2 hp
  · exact forall_mem_snoc (hJ.2 hp) (h.written fun huses => hp (honly p' q hJ.1 huses))

/-- What is read by `p` alone. -/
theorem taken_of_only (hk : Keeps op ok holds) (hs₀ : Tidy ok holds s₀)
    (r : Run (Step cap op) s₀ tr s)
    (honly : ∀ p' q, ok p' q → (op p' q).uses = some (.read k) → p' = p) :
    taken k tr = (events p tr).filterMap (Event.taken? k) := by
  refine filterMap_of_only _ fun p' hp => ?_
  have h := locally (J := fun p' es q => ok p' q ∧ (p' ≠ p → ∀ e ∈ es, e.taken? k = none))
    (G := fun _ _ => True) (fun {p' es q e q'} hJ _ h => ⟨hk.still hJ.1 h, fun hp => ?_⟩) r
    (fun p' => ⟨hs₀.ok p', fun _ => nofun⟩) (fun _ _ => trivial) p'
  · exact h.2 hp
  · exact forall_mem_snoc (hJ.2 hp) (h.taken fun huses => hp (honly p' q hJ.1 huses))

/-! ### Before a process begins -/

/-- The ends `own`, and those that are still to be closed. -/
def beside (own : End K → Bool) (es : List (End K)) : End K → Bool := fun e => own e || decide (e ∈ es)

/-- What a process closes before it begins: none of its own ends, and none twice. -/
structure Unused (own : End K → Bool) (es : List (End K)) : Prop where
  nodup : es.Nodup
  notOwn : ∀ e ∈ es, own e = false

variable {own : End K → Bool} {f : End K} {es : List (End K)}

omit [DecidableEq K] in
theorem Unused.tail (h : Unused own (f :: es)) : Unused own es :=
  ⟨h.nodup.of_cons, fun e he => h.notOwn e (List.mem_cons_of_mem _ he)⟩

theorem beside_nil : beside own [] = own := by
  funext e
  simp [beside]

/-- It closes one of them. -/
theorem beside_cons (h : Unused own (f :: es)) :
    beside own es = Function.update (beside own (f :: es)) f false := by
  funext e
  by_cases he : e = f
  · subst he
    rw [Function.update_self, beside, h.notOwn e (List.mem_cons_self ..), Bool.false_or]
    exact decide_eq_false (List.nodup_cons.mp h.nodup).1
  · rw [Function.update_of_ne he, beside, beside]
    simp [he]

omit [DecidableEq K] in
/-- The ends in a list that are not its own. -/
theorem unused_filter {all : List (End K)} (h : all.Nodup) :
    Unused own (all.filter fun e => !own e) :=
  ⟨h.filter _, fun e he => by simpa using (List.mem_filter.mp he).2⟩

theorem beside_filter {all : List (End K)} (h : ∀ e, own e = true → e ∈ all) :
    beside own (all.filter fun e => !own e) = fun e => decide (e ∈ all) := by
  funext e
  cases ho : own e with
  | false => simp [beside, ho]
  | true => simp [beside, ho, h e ho]

end Support.Piped
