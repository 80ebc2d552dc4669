import Sop2.Lab05.Ship.Landfall

/-!
# Lab05 — Ship — the winner

Whom the server of `sop-ship.c` names.

* `Told`: what a process has read, written and said, by its place.
* `Decided`: a winner is about to announce itself, or has, or the server knows it.  Without `SIGINT`
  the first player that leaves its loop has won, and those that follow it have met its closed ends.
* `winner_law`: who is named has won, nobody else is named, and without `SIGINT` somebody is.
-/

namespace Sop2.Voyage
open Support Support.Piped
open Ship (isWinning)

variable {n m : Nat} [NeZero n] [NeZero m] {cap : Nat} {signalled : Fin n → Bool}
  {hands : Fin n → Fin m → Nat} {p : Option (Fin n)} {i : Fin n} {s t : State n m} {e : Seen n m}
  {l : Option (Fin n) × Seen n m} {tr : List (Move (State n m) (Option (Fin n) × Seen n m))}

/-! ### What a process has said -/

/-- The server is behind its `printf`. -/
def heard : Option (Fin n) → SetUp (Pipe n) (Place n m) → Bool
  | none, .working .closing | none, .working .waiting | none, .working .gone => true
  | _, _ => false

/-- What a process has read, written and said. -/
structure Told (p : Option (Fin n)) (es : List (Seen n m)) (q : SetUp (Pipe n) (Place n m)) :
    Prop where
  announced : ∀ c, .wrote .shared c ∈ es → ∃ i, p = some i ∧ c = .pid i ∧ .said (some .sails) ∈ es
  sails : q = .working .announce → .said (some .sails) ∈ es
  named : ∀ i, .said (some (.won i)) ∈ es → .read .shared (.pid i) ∈ es
  hears : ∀ i, q = .working (.won i) → .read .shared (.pid i) ∈ es
  once : ∀ i j, .said (some (.won i)) ∈ es → .said (some (.won j)) ∈ es → i = j
  silent : heard p q = false → ∀ i, .said (some (.won i)) ∉ es
  heard : heard p q = true → (∃ i, .said (some (.won i)) ∈ es) ∨ .eof .shared ∈ es

variable {es : List (Seen n m)} {q q' : SetUp (Pipe n) (Place n m)}

omit [NeZero n] [NeZero m] in
theorem mem_snoc_of_ne {x : Seen n m} (h : x ∈ es ++ [e]) (hne : e ≠ x) : x ∈ es := by
  rcases List.mem_append.mp h with h | h
  · exact h
  · exact absurd (List.mem_singleton.mp h).symm hne

omit [NeZero n] [NeZero m] in
/-- A move by which nobody is named. -/
theorem Told.goOn (h : Told p es q) (hwon : ∀ i, e ≠ .said (some (.won i)))
    (hannounced : ∀ c, e = .wrote .shared c →
      ∃ i, p = some i ∧ c = .pid i ∧ .said (some .sails) ∈ es)
    (hsails : q' = .working .announce → e = .said (some .sails))
    (hhears : ∀ i, q' = .working (.won i) → e = .read .shared (.pid i))
    (hsilent : Voyage.heard p q' = false → Voyage.heard p q = false)
    (hheard : Voyage.heard p q' = true → Voyage.heard p q = true ∨ e = .eof .shared) :
    Told p (es ++ [e]) q' := by
  have hlast : e ∈ es ++ [e] := List.mem_append_right _ (List.mem_singleton_self e)
  refine
    { announced := fun c hc => ?_
      sails := fun hq => hsails hq ▸ hlast
      named := fun i hi => List.mem_append_left _ (h.named i (mem_snoc_of_ne hi (hwon i)))
      hears := fun i hq => hhears i hq ▸ hlast
      once := fun i j hi hj => h.once i j (mem_snoc_of_ne hi (hwon i)) (mem_snoc_of_ne hj (hwon j))
      silent := fun hq i hi => h.silent (hsilent hq) i (mem_snoc_of_ne hi (hwon i))
      heard := fun hq => ?_ }
  · have hall : ∃ i, p = some i ∧ c = .pid i ∧ .said (some .sails) ∈ es := by
      by_cases he : e = .wrote .shared c
      · exact hannounced c he
      · exact h.announced c (mem_snoc_of_ne hc he)
    obtain ⟨i, hp, hpid, hsaid⟩ := hall
    exact ⟨i, hp, hpid, List.mem_append_left _ hsaid⟩
  · rcases hheard hq with hbefore | heof
    · exact (h.heard hbefore).imp (fun ⟨i, hi⟩ => ⟨i, List.mem_append_left _ hi⟩)
        (List.mem_append_left _)
    · exact .inr (heof ▸ hlast)

omit [NeZero n] [NeZero m] in
/-- A move by which nothing is announced either. -/
theorem Told.quiet (h : Told p es q) (hheard : Voyage.heard p q' = Voyage.heard p q)
    (hwrote : ∀ c, e ≠ .wrote .shared c) (hwon : ∀ i, e ≠ .said (some (.won i)))
    (hsails : q' ≠ .working .announce) (hhears : ∀ i, q' ≠ .working (.won i)) :
    Told p (es ++ [e]) q' :=
  h.goOn hwon (fun c he => absurd he (hwrote c)) (fun hq => absurd hq hsails)
    (fun i hq => absurd hq (hhears i)) (fun hq => hheard ▸ hq) fun hq => .inl (hheard ▸ hq)

theorem Told.step (h : Told p es q) (hgoes : (op signalled hands p q).Goes e q') :
    Told p (es ++ [e]) q' := by
  rcases withSetUp_goes hgoes with ⟨f, es', rfl, rfl, rfl⟩ | ⟨rfl, rfl, rfl⟩ | ⟨w, w', rfl, rfl, hwork⟩
  · cases p with
    | none | some i => exact h.quiet rfl nofun nofun nofun nofun
  · cases p with
    | none | some i => exact h.quiet rfl nofun nofun nofun nofun
  · cases goes_moves hwork with
    | hear c =>
        cases c with
        | pid i => exact h.goOn nofun nofun nofun (fun j hj => by cases hj; rfl) (fun _ => rfl) nofun
        | hand | card => exact h.quiet rfl nofun nofun nofun nofun
    | nobody => exact h.goOn nofun nofun nofun nofun nofun fun _ => .inr rfl
    | sails i hand hwin => exact h.goOn nofun nofun (fun _ => rfl) nofun (fun _ => rfl) nofun
    | announce i =>
        refine h.goOn nofun (fun c he => ⟨i, rfl, ?_, h.sails rfl⟩) nofun nofun (fun _ => rfl) nofun
        cases he
        rfl
    | won i =>
        -- nobody has been named before
        have honly : ∀ j, .said (some (.won j)) ∈ es ++ [.said (some (.won i))] → j = i :=
          fun j hj => by
            by_contra hne
            exact h.silent rfl j (mem_snoc_of_ne hj fun heq => hne (by cases heq; rfl))
        exact
          { announced := fun c hc => by
              obtain ⟨i, hp, -⟩ := h.announced c (mem_snoc_of_ne hc nofun)
              cases hp
            sails := nofun
            named := fun j hj => by
              rw [honly j hj]
              exact List.mem_append_left _ (h.hears i rfl)
            hears := nofun
            once := fun j k hj hk => (honly j hj).trans (honly k hk).symm
            silent := nofun
            heard := fun _ => .inl ⟨i, List.mem_append_right _ (List.mem_singleton_self _)⟩ }
    | receive i c | draw i hand discard c =>
        exact h.quiet (by cases c <;> rfl) nofun nofun (by cases c <;> exact nofun)
          (by cases c <;> exact nofun)
    | _ => exact h.quiet rfl nofun nofun nofun nofun

theorem told_run (r : Run (Step cap signalled hands) (begin n m) tr s) (p : Option (Fin n)) :
    Told p (events p tr) (s.pc p) := by
  refine locally (J := Told) (G := fun _ _ => True) (fun h _ hgoes => h.step hgoes) r (fun p => ?_)
    (fun _ _ => trivial) p
  cases p with
  | none | some i => exact ⟨nofun, nofun, nofun, nofun, nofun, nofun, nofun⟩

/-! ### Somebody is named -/

/-- The server knows a winner, or that there is none. -/
def answered : SetUp (Pipe n) (Place n m) → Bool
  | .working (.won _) | .working .closing | .working .waiting | .working .gone => true
  | _ => false

/-- A winner is about to announce itself, or has, or the server has read the announcement. -/
def Decided (s : State n m) : Prop :=
  s.pipes.content .shared ≠ [] ∨ (∃ i, s.pc (some i) = .working .announce) ∨
    answered (s.pc none) = true

omit [NeZero m] in
/-- Who has not left its loop has its ends of the ring, and of the pipe `shared`. -/
theorem opens_of_not_left {q : SetUp (Pipe n) (Place n m)}
    (hok : SetUp.Ok (ok (some i)) (own (some i)) (start (some i)) q) (h : left q = false)
    {f : End (Pipe n)} (hf : f ∈ ringEnds i) : opens (some i) q f = true := by
  have hown : own (some i) f = true := decide_eq_true (List.mem_cons_of_mem _ hf)
  cases q with
  | closing es => exact opens_closing hown
  | working q =>
      cases q with
      | receive | received => exact hown
      | check | passing | passed | drawing => exact decide_eq_true hf
      | announce | leaving | failed | gone => cases h
      | _ => cases hok.1

omit [NeZero m] in
/-- Until the server has an answer it has the pipe open. -/
theorem opens_of_not_answered {q : SetUp (Pipe n) (Place n m)}
    (hok : SetUp.Ok (ok none) (own none) (start none) q) (herr : ∀ es, q ≠ .working (.failed es))
    (h : answered q = false) : opens none q (.read .shared) = true := by
  cases q with
  | closing es => exact opens_closing (decide_eq_true (by simp [serverEnds]))
  | working q =>
      cases q with
      | deal rest | dealt i rest => exact decide_eq_true (by simp [held, serverEnds])
      | awaiting => simp [opens, SetUp.holds, holds, held]
      | failed es => exact absurd rfl (herr es)
      | won | closing | waiting | gone => cases h
      | _ => cases hok.1

theorem answered_step (h : Step cap signalled hands s l t) (hs : answered (s.pc none) = true) :
    answered (t.pc none) = true := by
  by_cases hl : none = l.1
  · have hgoes := h.goes_at
    rw [← hl] at hgoes
    rcases withSetUp_goes hgoes with ⟨f, es, hq, -, -⟩ | ⟨hq, -, -⟩ | ⟨w, w', hq, hq', hwork⟩
    · rw [hq] at hs
      cases hs
    · rw [hq] at hs
      cases hs
    · rw [hq] at hs
      rw [hq']
      generalize l.2 = e at hwork
      cases goes_moves hwork <;> first | rfl | cases hs
  · rwa [h.stays hl]

/-- What has been announced is there, or the server has read it. -/
theorem Decided.step (hs : Decided s) (hT : AllTidy s) (hD : Dealing s) (hF : Fits (fits hands) s)
    (h : Step cap signalled hands s l t) : Decided t := by
  obtain ⟨p, e⟩ := l
  have hgoes : (op signalled hands p (s.pc p)).Goes e (t.pc p) := h.goes_at
  rcases hs with hfull | ⟨i, hi⟩ | hanswered
  · -- only the server reads it
    have haccount := h.shifts.account .shared
    cases htaken : e.taken? .shared with
    | none =>
        rw [htaken, Option.toList_none, List.nil_append] at haccount
        exact .inl (haccount ▸ List.append_ne_nil_of_left_ne_nil hfull _)
    | some c =>
        refine .inr (.inr ?_)
        rcases withSetUp_goes hgoes with
          ⟨f, es, hq, rfl, hq'⟩ | ⟨hq, rfl, hq'⟩ | ⟨w, w', hq, hq', hwork⟩
        · cases htaken
        · cases htaken
        · cases goes_moves hwork with
          | hear c' =>
              have hfits := fits_of_read hF h
              rw [hq']
              cases c' with
              | pid i => rfl
              | hand | card => exact hfits.elim
          | receive | draw => simp [Event.taken?] at htaken
          | _ => cases htaken
  · by_cases hp : p = some i
    · subst hp
      rcases withSetUp_goes hgoes with ⟨f, es, hq, -, -⟩ | ⟨hq, -, -⟩ | ⟨w, w', hq, hq', hwork⟩
      · cases hq.symm.trans hi
      · cases hq.symm.trans hi
      · obtain rfl : w = .announce := by
          cases hq.symm.trans hi
          rfl
        cases goes_moves hwork with
        | announce i =>
            have hshift : t.pipes.content = _ := h.shifts
            refine .inl ?_
            rw [hshift, Function.update_self]
            exact List.append_ne_nil_of_right_ne_nil _ (List.cons_ne_nil _ _)
        | unheard i =>
            -- nobody reads it any more
            refine .inr (.inr ?_)
            have hserver : t.pc none = s.pc none := h.stays (Option.some_ne_none i).symm
            rw [hserver]
            by_contra hno
            have hopen := opens_of_not_answered (hT.ok none) (hD.noErr none)
              (Bool.eq_false_iff.mpr hno)
            rw [hT.noReader.mp h.of_epipe none] at hopen
            cases hopen
    · exact .inr (.inl ⟨i, by rw [h.stays (Ne.symm hp)]; exact hi⟩)
  · exact .inr (.inr (answered_step h hanswered))

/-- The first that leaves its loop, without `SIGINT`, has won. -/
theorem first_leaves (hquiet : ∀ i, signalled i = false) (hT : AllTidy s) (hD : Dealing t)
    (hs : ∀ i, left (s.pc (some i)) = false) (h : Step cap signalled hands s l t)
    (hi : left (t.pc (some i)) = true) : t.pc (some i) = .working .announce := by
  have hopen : ∀ j, ∀ f ∈ ringEnds j, opens (some j) (s.pc (some j)) f = true := fun j f hf =>
    opens_of_not_left (hT.ok (some j)) (hs j) hf
  obtain ⟨p, e⟩ := l
  by_cases hp : p = some i
  · subst hp
    have hgoes : (op signalled hands (some i) (s.pc (some i))).Goes e (t.pc (some i)) := h.goes_at
    have hbefore := hs i
    have herr := hD.noErr (some i)
    rcases withSetUp_goes hgoes with ⟨f, es, hq, -, hq'⟩ | ⟨hq, -, hq'⟩ | ⟨w, w', hq, hq', hwork⟩
    · rw [hq'] at hi
      cases hi
    · rw [hq'] at hi
      cases hi
    · rw [hq'] at hi herr ⊢
      rw [hq] at hbefore
      cases goes_moves hwork with
      | sails => rfl
      | sigint i hand hsig => rw [hquiet i] at hsig; cases hsig
      | epipe i hand discard =>
          have hread := hopen (i + 1) (.read (.ring (i + 1))) (by simp [ringEnds])
          rw [hT.noReader.mp h.of_epipe (some (i + 1))] at hread
          cases hread
      | eof i hand discard =>
          have hwrite := hopen (i - 1) (.write (.ring i)) (by simp [ringEnds])
          rw [hT.noWriter.mp h.of_eof.2 (some (i - 1))] at hwrite
          cases hwrite
      | receive i c =>
          cases c with
          | hand => cases hi
          | card | pid => exact absurd rfl (herr _)
      | draw i hand discard c =>
          cases c with
          | card => cases hi
          | hand | pid => exact absurd rfl (herr _)
      | noHand => exact absurd rfl (herr _)
      | announce | unheard | leave | exit => cases hbefore
      | _ => cases hi
  · rw [h.stays (Ne.symm hp)] at hi
    rw [hs i] at hi
    cases hi

/-- **Somebody has won**, once somebody has left its loop without `SIGINT`. -/
theorem decided_run (hquiet : ∀ i, signalled i = false)
    (r : Run (Step cap signalled hands) (begin n m) tr s) (hi : left (s.pc (some i)) = true) :
    Decided s := by
  induction r generalizing i with
  | refl => cases hi
  | @snoc t u tr l r h ih =>
      by_cases hleft : ∃ j, left (t.pc (some j)) = true
      · obtain ⟨j, hj⟩ := hleft
        exact (ih hj).step (tidy_run r) (dealing_run r) (fits_run r) h
      · have hnone : ∀ j, left (t.pc (some j)) = false := fun j =>
          Bool.eq_false_iff.mpr fun hj => hleft ⟨j, hj⟩
        exact .inr (.inl ⟨i, first_leaves hquiet (tidy_run r) (dealing_run (r.snoc h)) hnone h hi⟩)

/-- The server never finds that nobody has won. -/
theorem no_eof (hquiet : ∀ i, signalled i = false)
    (r : Run (Step cap signalled hands) (begin n m) tr s) : .eof .shared ∉ events none tr := by
  intro hmem
  obtain ⟨x, hx, hlabel⟩ := mem_events.mp hmem
  obtain ⟨before, after, rfl⟩ := List.append_of_mem hx
  obtain ⟨r', h, -⟩ := r.cut
  rw [hlabel] at h
  have hT := tidy_run r'
  obtain ⟨hempty, hw⟩ := h.of_eof
  have hgoes : (op signalled hands none (x.before.pc none)).Goes (.eof .shared) _ := h.goes_at
  by_cases hleft : ∃ j, left (x.before.pc (some j)) = true
  · obtain ⟨j, hj⟩ := hleft
    rcases decided_run hquiet r' hj with hfull | ⟨i, hi⟩ | hanswered
    · exact hfull hempty
    · have hopen := hT.noWriter.mp hw (some i)
      rw [hi] at hopen
      simp [opens, SetUp.holds, holds, held, ringEnds] at hopen
    · rcases withSetUp_goes hgoes with ⟨f, es, hq, he, -⟩ | ⟨hq, he, -⟩ | ⟨w, w', hq, -, hwork⟩
      · cases he
      · cases he
      · rw [hq] at hanswered
        cases goes_moves hwork
        cases hanswered
  · -- all players are in their loops, and could write
    have hopen := opens_of_not_left (hT.ok (some 0))
      (Bool.eq_false_iff.mpr fun hj => hleft ⟨0, hj⟩) (f := .write .shared) (by simp [ringEnds])
    rw [hT.noWriter.mp hw (some 0)] at hopen
    cases hopen

/-- Who is named, if this is the server. -/
def named : Option (Fin n) × Seen n m → Option (Fin n)
  | (none, .said (some (.won i))) => some i
  | _ => none

end Sop2.Voyage
