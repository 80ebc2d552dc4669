import Sop2.Lab05.Provinces.Endings

/-!
# Lab05 — Provinces — the messages

What becomes of a message, in both programs.

* `heard`: a province goes through what it has read one message after another (`Net.fold`), and has
  printed those that it did not ignore.
* `passed`: what it has written to another is what it passes on of these.
* `reported`: what a province reports is what it remembers of that.
* `sends`: Casa Rosada sends what is to be sent for the letters that it takes.
* `everywhere`: what holds of everything that Casa Rosada writes, and is kept when a province passes
  something on, holds of whatever is written.
-/

namespace Sop2.Provinces
open Support Support.Piped

variable {n cap : Nat} {μ σ : Type} {net : Net n μ σ} {s t : State n μ σ} {tr : Trace n μ σ}
  {p : Option (Fin n)} {i j : Fin n} {k : Pipe n} {q q' : Place n μ σ} {e : Seen n μ}
  {es : List (Seen n μ)} {l : Loop n σ} {c : μ}

theorem ne_reports (hk : k ∈ net.inputs i) : k ≠ .reports := by
  rintro rfl
  obtain ⟨_, h, -⟩ | ⟨h, -⟩ := mem_inputs.mp hk <;> cases h

theorem ins_after (q : Place n μ σ) : q.after.ins = q.ins := by
  induction q with
  | closing es next ih => exact ih
  | _ => rfl

/-! ### Where a message is -/

/-- The loop that a province is in. -/
def Place.loop : Place n μ σ → Option (Loop n σ)
  | .closing _ next => next.loop
  | .check l | .poll l _ | .print l _ _ _ | .relay l _ _ | .report l => some l
  | _ => none

/-- What a province has read and is about to print. -/
def Place.unprinted : Place n μ σ → List μ
  | .closing _ next => next.unprinted
  | .print _ c _ _ => [c]
  | _ => []

/-- What it is still to write, and to whom. -/
def Place.out : Place n μ σ → List (Fin n × μ)
  | .closing _ next => next.out
  | .print _ _ out _ | .relay _ out _ => out
  | _ => []

def toward? (j : Fin n) (x : Fin n × μ) : Option μ := if x.1 = j then some x.2 else none

/-- What of it is for `j`. -/
def toward (j : Fin n) (out : List (Fin n × μ)) : List μ := out.filterMap (toward? j)

def received? : Seen n μ → Option μ
  | .read _ c => some c
  | _ => none

def processed? : Seen n μ → Option μ
  | .said (some (.processed c)) => some c
  | _ => none

def received (es : List (Seen n μ)) : List μ := es.filterMap received?

def processed (es : List (Seen n μ)) : List μ := es.filterMap processed?

/-- What was written to `pipes[i][j]`. -/
def wroteTo (i j : Fin n) (es : List (Seen n μ)) : List μ :=
  es.filterMap (Event.written? (.edge i j))

/-- What `i` has read. -/
def receivedBy (i : Fin n) (tr : Trace n μ σ) : List μ := received (events (some i) tr)

/-- What `i` has printed, and passes on. -/
def processedBy (i : Fin n) (tr : Trace n μ σ) : List μ := processed (events (some i) tr)

theorem received_snoc (es : List (Seen n μ)) (e : Seen n μ) :
    received (es ++ [e]) = received es ++ (received? e).toList := filterMap_snoc ..

theorem processed_snoc (es : List (Seen n μ)) (e : Seen n μ) :
    processed (es ++ [e]) = processed es ++ (processed? e).toList := filterMap_snoc ..

theorem wroteTo_snoc (es : List (Seen n μ)) (e : Seen n μ) :
    wroteTo i j (es ++ [e]) = wroteTo i j es ++ (e.written? (.edge i j)).toList := filterMap_snoc ..

theorem toward_self (j : Fin n) (c : μ) (out : List (Fin n × μ)) :
    toward j ((j, c) :: out) = c :: toward j out := by
  simp [toward, toward?]

theorem toward_of_ne {a : Fin n} (h : a ≠ j) (c : μ) (out : List (Fin n × μ)) :
    toward j ((a, c) :: out) = toward j out := by
  simp [toward, toward?, h]

/-! ### One message after another -/

/-- A province takes a message: what it remembers, and what it did not ignore. -/
def Net.take (net : Net n μ σ) (i : Fin n) (x : σ × List μ) (c : μ) : σ × List μ :=
  match net.receive i x.1 c with
  | none => x
  | some (state, _) => (state, x.2 ++ [c])

/-- A province goes through messages. -/
def Net.fold (net : Net n μ σ) (i : Fin n) (cs : List μ) : σ × List μ :=
  cs.foldl (net.take i) (net.start, [])

theorem fold_snoc (net : Net n μ σ) (i : Fin n) (cs : List μ) (c : μ) :
    net.fold i (cs ++ [c]) = net.take i (net.fold i cs) c := List.foldl_append ..

/-- It ignores some. -/
theorem fold_sublist (net : Net n μ σ) (i : Fin n) (cs : List μ) : (net.fold i cs).2.Sublist cs := by
  induction cs using List.reverseRecOn with
  | nil => exact .refl _
  | append_singleton cs c ih =>
      rw [fold_snoc, Net.take]
      split
      · exact ih.trans (List.sublist_append_left ..)
      · exact ih.append_right [c]

/-- Where a province is in what it has read. -/
structure Heard (net : Net n μ σ) (i : Fin n) (es : List (Seen n μ)) (q : Place n μ σ) : Prop where
  printed : (net.fold i (received es)).2 = processed es ++ q.unprinted
  state : ∀ l, q.loop = some l → (net.fold i (received es)).1 = l.state

/-- A step in which nothing is read or printed. -/
theorem Heard.same (h : Heard net i es q) (hr : received? e = none) (hp : processed? e = none)
    (hu : q'.unprinted = q.unprinted)
    (hl : ∀ l', q'.loop = some l' → ∃ l, q.loop = some l ∧ l.state = l'.state) :
    Heard net i (es ++ [e]) q' where
  printed := by
    rw [received_snoc, processed_snoc, hr, hp, hu, Option.toList_none, List.append_nil,
      List.append_nil, h.printed]
  state l' hl' := by
    obtain ⟨l, hq, hstate⟩ := hl l' hl'
    rw [received_snoc, hr, Option.toList_none, List.append_nil, h.state l hq, hstate]

/-- A province reads a message. -/
theorem Heard.handle (h : Heard net i es (.poll l (k :: rest))) {rest : List (Pipe n)} :
    Heard net i (es ++ [.read k c]) (net.handle i l rest c) := by
  have hstate := h.state l rfl
  have hprinted : (net.fold i (received es)).2 = processed es :=
    h.printed.trans (List.append_nil _)
  have hfold : net.fold i (received (es ++ [.read k c])) = net.take i (net.fold i (received es)) c := by
    rw [received_snoc]
    exact fold_snoc ..
  have hsame : processed (es ++ [.read k c]) = processed es := by
    rw [processed_snoc]
    exact List.append_nil _
  rw [Net.take, hstate] at hfold
  cases hrec : net.receive i l.state c with
  | none =>
      rw [hrec] at hfold
      refine ⟨?_, ?_⟩ <;> rw [Net.handle, hrec]
      · rw [hfold, hsame, hprinted]
        exact (List.append_nil _).symm
      · rintro _ ⟨⟩
        rw [hfold, hstate]
  | some x =>
      rw [hrec] at hfold
      refine ⟨?_, ?_⟩ <;> rw [Net.handle, hrec]
      · rw [hfold, hsame, hprinted]
        rfl
      · rintro _ ⟨⟩
        rw [hfold]

theorem Heard.step (h : Heard net i es q) (hgoes : (net.op (some i) q).Goes e q') :
    Heard net i (es ++ [e]) q' := by
  obtain ⟨fs, next, rfl⟩ | ⟨-, hop⟩ := op_cases net (some i) q
  · cases fs <;> (obtain ⟨rfl, rfl⟩ := hgoes; exact h.same rfl rfl rfl fun l hl => ⟨l, hl, rfl⟩)
  · rw [hop] at hgoes
    change (net.province i q).Goes e q' at hgoes
    cases q with
    | check l =>
        simp only [Net.province] at hgoes
        split at hgoes
        · obtain ⟨rfl, rfl⟩ := hgoes
          split
          · exact h.same rfl rfl rfl fun l hl => ⟨l, hl, rfl⟩
          · exact h.same rfl rfl rfl (by rintro _ ⟨⟩)
        · obtain ⟨rfl, rfl⟩ := hgoes
          exact h.same rfl rfl rfl fun l hl => ⟨l, hl, rfl⟩
    | poll l rest =>
        cases rest with
        | nil => obtain ⟨rfl, rfl⟩ := hgoes; exact h.same rfl rfl rfl fun l hl => ⟨l, hl, rfl⟩
        | cons k rest =>
            simp only [Net.province] at hgoes
            split at hgoes
            · obtain ⟨c, rfl, rfl⟩ | ⟨rfl, rfl⟩ | ⟨rfl, hq⟩ := hgoes
              · exact h.handle
              · exact h.same rfl rfl rfl fun _ hl => ⟨l, rfl, by cases hl; rfl⟩
              · cases hq
                exact h.same rfl rfl rfl fun l hl => ⟨l, hl, rfl⟩
            · obtain ⟨rfl, rfl⟩ := hgoes
              exact h.same rfl rfl rfl fun l hl => ⟨l, hl, rfl⟩
    | print l c out rest =>
        obtain ⟨rfl, rfl⟩ := hgoes
        have hr : received (es ++ [.said (some (.processed c))]) = received es := by
          rw [received_snoc]
          exact List.append_nil _
        refine ⟨?_, fun l' hl' => ?_⟩
        · rw [hr, processed_snoc, h.printed]
          exact (List.append_nil _).symm
        · rw [hr]
          exact h.state l' hl'
    | relay l out rest =>
        cases out with
        | nil => obtain ⟨rfl, rfl⟩ := hgoes; exact h.same rfl rfl rfl fun l hl => ⟨l, hl, rfl⟩
        | cons jc out =>
            simp only [Net.province] at hgoes
            split at hgoes
            · obtain ⟨rfl, rfl⟩ | ⟨rfl, rfl⟩ := hgoes
              · exact h.same rfl rfl rfl fun l hl => ⟨l, hl, rfl⟩
              · split
                · exact h.same rfl rfl rfl fun _ hl => ⟨l, rfl, by cases hl; rfl⟩
                · exact h.same rfl rfl rfl fun l hl => ⟨l, hl, rfl⟩
            · obtain ⟨rfl, rfl⟩ := hgoes
              exact h.same rfl rfl rfl fun l hl => ⟨l, hl, rfl⟩
    | report l =>
        simp only [Net.province] at hgoes
        split at hgoes
        · obtain ⟨rfl, rfl⟩ | ⟨rfl, rfl⟩ := hgoes <;> exact h.same rfl rfl rfl (by rintro _ ⟨⟩)
        · exact hgoes.elim
    | closing | gone | openFifo | fifo | inject | collect | waiting | done => exact hgoes.elim

/-- A province that reads is in its loop, and has printed everything. -/
theorem unprinted_of_read {data : μ → Place n μ σ} {eof : Place n μ σ}
    {again : Option (Place n μ σ)} (h : net.op (some i) q = .read k data eof again) :
    q.unprinted = [] ∧ ∃ l, q.loop = some l := by
  obtain ⟨fs, next, rfl⟩ | ⟨-, hop⟩ := op_cases net (some i) q
  · cases fs <;> cases h
  · rw [hop] at h
    change net.province i q = _ at h
    cases q with
    | poll l rest => exact ⟨rfl, l, rfl⟩
    | check l => simp only [Net.province] at h; split at h <;> cases h
    | relay l out rest =>
        cases out with
        | nil => cases h
        | cons jc out => simp only [Net.province] at h; split at h <;> cases h
    | report l => simp only [Net.province] at h; split at h <;> cases h
    | print | closing | gone | openFifo | fifo | inject | collect | waiting | done => cases h

/-- **A province goes through what it has read.** -/
theorem heard (r : Run (Step cap net) net.begin tr s) (i : Fin n) :
    Heard net i (events (some i) tr) (s.pc (some i)) :=
  locally (J := fun p es q => ∀ i, p = some i → Heard net i es q) (G := fun _ _ => True)
    (fun hJ _ h i hp => (hJ i hp).step (hp ▸ h)) r
    (fun p i hp => by subst hp; exact ⟨rfl, fun l hl => by cases hl; rfl⟩)
    (fun _ _ => trivial) (some i) i rfl

/-! ### What is passed on -/

/-- `fwd i c j` is what `i` passes on to `j` of a message `c` that it does not ignore, if it can
still write to `j`. -/
structure Passes (net : Net n μ σ) (fwd : Fin n → μ → Fin n → List μ) : Prop where
  sub : ∀ {i j state c state' f outs}, net.receive i state c = some (state', f) → outs.Nodup →
    (toward j (f outs)).Sublist (fwd i c j)
  all : ∀ {i j state c state' f outs}, net.receive i state c = some (state', f) → outs.Nodup →
    j ∈ outs → toward j (f outs) = fwd i c j

variable {fwd : Fin n → μ → Fin n → List μ}

/-- What `i` has written to `j` of what it has printed. -/
structure Passed (net : Net n μ σ) (fwd : Fin n → μ → Fin n → List μ) (i j : Fin n)
    (es : List (Seen n μ)) (q : Place n μ σ) : Prop where
  sub : (wroteTo i j es ++ toward j q.out).Sublist
    ((processed es ++ q.unprinted).flatMap (fwd i · j))
  opened : net.pipe i j = true → j ≠ i → ∀ l, q.loop = some l → j ∈ l.outs
  all : net.pipe i j = true → j ≠ i →
    wroteTo i j es ++ toward j q.out = (processed es ++ q.unprinted).flatMap (fwd i · j)

/-- A step in which nothing is read, printed or written to `j`. -/
theorem Passed.same (h : Passed net fwd i j es q) (hw : e.written? (.edge i j) = none)
    (hp : processed? e = none) (hu : q'.unprinted = q.unprinted)
    (hout : toward j q'.out = toward j q.out)
    (hl : ∀ l', q'.loop = some l' → ∃ l, q.loop = some l ∧ (j ≠ i → j ∈ l.outs → j ∈ l'.outs)) :
    Passed net fwd i j (es ++ [e]) q' := by
  have hwrote : wroteTo i j (es ++ [e]) = wroteTo i j es := by
    rw [wroteTo_snoc, hw, Option.toList_none, List.append_nil]
  have hprinted : processed (es ++ [e]) = processed es := by
    rw [processed_snoc, hp, Option.toList_none, List.append_nil]
  refine ⟨?_, fun hpipe hji l' hl' => ?_, fun hpipe hji => ?_⟩
  · rw [hwrote, hprinted, hu, hout]
    exact h.sub
  · obtain ⟨l, hq, hmem⟩ := hl l' hl'
    exact hmem hji (h.opened hpipe hji l hq)
  · rw [hwrote, hprinted, hu, hout, h.all hpipe hji]

/-- What is not written is not for a pipe that has its reader. -/
theorem Passed.drop (h : Passed net fwd i j es q) (hw : e.written? (.edge i j) = none)
    (hp : processed? e = none) (hu : q'.unprinted = q.unprinted)
    (hout : (toward j q'.out).Sublist (toward j q.out)) (hno : net.pipe i j = true → j = i) :
    Passed net fwd i j (es ++ [e]) q' := by
  have hwrote : wroteTo i j (es ++ [e]) = wroteTo i j es := by
    rw [wroteTo_snoc, hw, Option.toList_none, List.append_nil]
  have hprinted : processed (es ++ [e]) = processed es := by
    rw [processed_snoc, hp, Option.toList_none, List.append_nil]
  refine ⟨?_, fun hpipe hji => absurd (hno hpipe) hji, fun hpipe hji => absurd (hno hpipe) hji⟩
  rw [hwrote, hprinted, hu]
  exact (hout.append_left _).trans h.sub

/-- A province reads a message. -/
theorem Passed.handle (hfwd : Passes net fwd) (hl : l.Ok net i)
    (h : Passed net fwd i j es (.poll l (k :: rest))) {rest : List (Pipe n)} :
    Passed net fwd i j (es ++ [.read k c]) (net.handle i l rest c) := by
  have hwrote : wroteTo i j (es ++ [.read k c]) = wroteTo i j es := by
    rw [wroteTo_snoc]
    exact List.append_nil _
  have hprinted : processed (es ++ [.read k c]) = processed es := by
    rw [processed_snoc]
    exact List.append_nil _
  have hsub : (wroteTo i j es).Sublist ((processed es).flatMap (fwd i · j)) := by
    simpa [Place.unprinted, Place.out, toward] using h.sub
  have hall : net.pipe i j = true → j ≠ i →
      wroteTo i j es = (processed es).flatMap (fwd i · j) := fun hpipe hji => by
    simpa [Place.unprinted, Place.out, toward] using h.all hpipe hji
  cases hrec : net.receive i l.state c with
  | none =>
      have hplace : net.handle i l rest c = .poll l rest := by rw [Net.handle, hrec]
      rw [hplace]
      exact h.same rfl rfl rfl rfl fun l' hl' => ⟨l', hl', fun _ => id⟩
  | some x =>
      obtain ⟨state, f⟩ := x
      have hplace : net.handle i l rest c = .print { l with state := state } c (f l.outs) rest := by
        rw [Net.handle, hrec]
      rw [hplace]
      refine ⟨?_, fun hpipe hji => ?_, fun hpipe hji => ?_⟩
      · rw [hwrote, hprinted, Place.out, Place.unprinted, List.flatMap_append]
        refine hsub.append ?_
        simpa using hfwd.sub hrec hl.nodup_outs
      · rintro _ ⟨⟩
        exact h.opened hpipe hji l rfl
      · have hmem := h.opened hpipe hji l rfl
        rw [hwrote, hprinted, Place.out, Place.unprinted, List.flatMap_append, hall hpipe hji]
        simpa using hfwd.all hrec hl.nodup_outs hmem

/-- What a step keeps of what is passed on to `j`; the broken pipe is that of `i` to itself. -/
theorem Passed.step (hfwd : Passes net fwd) (hof : net.of (some i) q)
    (h : Passed net fwd i j es q) (hne : net.pipe i j = true → j ≠ i → e ≠ .epipe (.edge i j))
    (hgoes : (net.op (some i) q).Goes e q') : Passed net fwd i j (es ++ [e]) q' := by
  obtain ⟨fs, next, rfl⟩ | ⟨-, hop⟩ := op_cases net (some i) q
  · cases fs <;> (obtain ⟨rfl, rfl⟩ := hgoes
                  exact h.same rfl rfl rfl rfl fun l hl => ⟨l, hl, fun _ => id⟩)
  · rw [hop] at hgoes
    change (net.province i q).Goes e q' at hgoes
    cases q with
    | check l =>
        simp only [Net.province] at hgoes
        split at hgoes
        · obtain ⟨rfl, rfl⟩ := hgoes
          split
          · exact h.same rfl rfl rfl rfl fun l hl => ⟨l, hl, fun _ => id⟩
          · exact h.same rfl rfl rfl rfl (by rintro _ ⟨⟩)
        · obtain ⟨rfl, rfl⟩ := hgoes
          exact h.same rfl rfl rfl rfl fun l hl => ⟨l, hl, fun _ => id⟩
    | poll l rest =>
        cases rest with
        | nil =>
            obtain ⟨rfl, rfl⟩ := hgoes
            exact h.same rfl rfl rfl rfl fun l hl => ⟨l, hl, fun _ => id⟩
        | cons k rest =>
            obtain ⟨_, ⟨⟩, hl⟩ := hof
            simp only [Net.province] at hgoes
            split at hgoes
            · obtain ⟨c, rfl, rfl⟩ | ⟨rfl, rfl⟩ | ⟨rfl, hq⟩ := hgoes
              · exact h.handle hfwd hl
              · exact h.same rfl rfl rfl rfl fun _ hl => ⟨l, rfl, by cases hl; exact fun _ => id⟩
              · cases hq
                exact h.same rfl rfl rfl rfl fun l hl => ⟨l, hl, fun _ => id⟩
            · obtain ⟨rfl, rfl⟩ := hgoes
              exact h.same rfl rfl rfl rfl fun l hl => ⟨l, hl, fun _ => id⟩
    | print l c out rest =>
        obtain ⟨rfl, rfl⟩ := hgoes
        have hp : processed (es ++ [.said (some (.processed c))]) ++
            (Place.relay (μ := μ) l out rest).unprinted =
            processed es ++ (Place.print l c out rest).unprinted := by
          rw [processed_snoc]
          exact List.append_nil _
        have hw : wroteTo i j (es ++ [.said (some (.processed c))]) = wroteTo i j es := by
          rw [wroteTo_snoc]
          exact List.append_nil _
        refine ⟨?_, h.opened, fun hpipe hji => ?_⟩
        · rw [hp, hw]
          exact h.sub
        · rw [hp, hw]
          exact h.all hpipe hji
    | relay l out rest =>
        cases out with
        | nil =>
            obtain ⟨rfl, rfl⟩ := hgoes
            exact h.same rfl rfl rfl rfl fun l hl => ⟨l, hl, fun _ => id⟩
        | cons jc out =>
            obtain ⟨a, c⟩ := jc
            have htail : (toward j out).Sublist (toward j ((a, c) :: out)) :=
              (List.sublist_cons_self ..).filterMap _
            simp only [Net.province] at hgoes
            split at hgoes
            next ha =>
              obtain ⟨rfl, rfl⟩ | ⟨rfl, rfl⟩ := hgoes
              · by_cases haj : a = j
                · subst haj
                  have hw : wroteTo i a (es ++ [.wrote (.edge i a) c]) ++ toward a out =
                      wroteTo i a es ++ toward a ((a, c) :: out) := by
                    rw [wroteTo_snoc, toward_self, List.append_assoc]
                    simp [Event.written?]
                  have hp : processed (es ++ [.wrote (.edge i a) c]) = processed es := by
                    rw [processed_snoc]
                    exact List.append_nil _
                  refine ⟨?_, h.opened, fun hpipe hji => ?_⟩
                  · rw [hp]
                    exact hw ▸ h.sub
                  · rw [hp]
                    exact hw.trans (h.all hpipe hji)
                · refine h.same (if_neg fun hk => haj ?_) rfl rfl (toward_of_ne haj c out).symm
                    fun l hl => ⟨l, hl, fun _ => id⟩
                  cases hk
                  rfl
              · by_cases haj : a = j
                · subst haj
                  have hno : net.pipe i a = true → a = i :=
                    fun hpipe => by_contra fun hai => hne hpipe hai rfl
                  split
                  · exact h.drop rfl rfl rfl htail hno
                  · exact h.drop rfl rfl rfl htail hno
                · split
                  · refine h.same rfl rfl rfl (toward_of_ne haj c out).symm fun l' hl' => ?_
                    cases hl'
                    exact ⟨l, rfl, fun _ hj => (List.mem_erase_of_ne (Ne.symm haj)).mpr hj⟩
                  · exact h.same rfl rfl rfl (toward_of_ne haj c out).symm
                      fun l hl => ⟨l, hl, fun _ => id⟩
            next ha =>
              obtain ⟨rfl, rfl⟩ := hgoes
              by_cases haj : a = j
              · subst haj
                exact h.drop rfl rfl rfl htail fun hpipe =>
                  by_contra fun hai => ha (h.opened hpipe hai l rfl)
              · exact h.same rfl rfl rfl (toward_of_ne haj c out).symm
                  fun l hl => ⟨l, hl, fun _ => id⟩
    | report l =>
        simp only [Net.province] at hgoes
        split at hgoes
        · obtain ⟨rfl, rfl⟩ | ⟨rfl, rfl⟩ := hgoes <;> exact h.same rfl rfl rfl rfl (by rintro _ ⟨⟩)
        · exact hgoes.elim
    | closing | gone | openFifo | fifo | inject | collect | waiting | done => exact hgoes.elim

/-- **A province passes on what it has printed**, over each pipe that has its reader. -/
theorem passed (hfwd : Passes net fwd) (r : Run (Step cap net) net.begin tr s) (i j : Fin n) :
    Passed net fwd i j (events (some i) tr) (s.pc (some i)) := by
  induction r with
  | refl =>
      refine ⟨List.nil_sublist _, fun hpipe _ l hl => ?_, fun _ _ => rfl⟩
      cases hl
      exact mem_outputs.mpr hpipe
  | @snoc s s' tr l r h ih =>
      obtain ⟨p, e⟩ := l
      by_cases hp : p = some i
      · subst hp
        obtain ⟨q', hpc, hgoes⟩ := h.goes
        rw [events_snoc, if_pos rfl, hpc, Function.update_self]
        refine ih.step hfwd ((tidy r).ok (some i)) (fun hpipe hji => ?_) hgoes
        rintro rfl
        exact no_epipe r (mem_inputs.mpr (.inl ⟨i, rfl, hpipe, Ne.symm hji⟩)) h
      · rw [events_snoc, if_neg hp, List.append_nil, h.stays (Ne.symm hp)]
        exact ih

/-! ### The reports -/

/-- A province that has left its loop reads no more. -/
theorem loop_none (hof : net.of (some i) q) (hl : q.loop = none)
    (hgoes : (net.op (some i) q).Goes e q') : q'.loop = none ∧ received? e = none := by
  obtain ⟨fs, next, rfl⟩ | ⟨-, hop⟩ := op_cases net (some i) q
  · cases fs <;> (obtain ⟨rfl, rfl⟩ := hgoes; exact ⟨hl, rfl⟩)
  · rw [hop] at hgoes
    cases q with
    | check | poll | print | relay | report => cases hl
    | closing | gone | openFifo | fifo | inject | collect | waiting | done => exact hgoes.elim

theorem report_of_wrote (hof : net.of (some i) q)
    (hgoes : (net.op (some i) q).Goes (.wrote .reports c) q') : ∃ l f, q = .report l ∧
      net.report = some f ∧ c = f i l.state ∧ q'.loop = none := by
  obtain ⟨fs, next, rfl⟩ | ⟨-, hop⟩ := op_cases net (some i) q
  · cases fs <;> (obtain ⟨h, -⟩ := hgoes; cases h)
  · rw [hop] at hgoes
    change (net.province i q).Goes _ q' at hgoes
    cases q with
    | check l => simp only [Net.province] at hgoes; split at hgoes <;> (obtain ⟨h, -⟩ := hgoes; cases h)
    | poll l rest =>
        cases rest with
        | nil => obtain ⟨h, -⟩ := hgoes; cases h
        | cons k rest =>
            simp only [Net.province] at hgoes
            split at hgoes
            · obtain ⟨c, h, -⟩ | ⟨h, -⟩ | ⟨h, -⟩ := hgoes <;> cases h
            · obtain ⟨h, -⟩ := hgoes
              cases h
    | print l c out rest => obtain ⟨h, -⟩ := hgoes; cases h
    | relay l out rest =>
        cases out with
        | nil => obtain ⟨h, -⟩ := hgoes; cases h
        | cons jc out =>
            simp only [Net.province] at hgoes
            split at hgoes
            · obtain ⟨h, -⟩ | ⟨h, -⟩ := hgoes <;> cases h
            · obtain ⟨h, -⟩ := hgoes
              cases h
    | report l =>
        cases hf : net.report with
        | none =>
            simp only [Net.province, hf] at hgoes
            exact hgoes.elim
        | some f =>
            simp only [Net.province, hf] at hgoes
            obtain ⟨h, rfl⟩ | ⟨h, -⟩ := hgoes
            · cases h
              exact ⟨l, f, rfl, rfl, rfl, rfl⟩
            · cases h
    | closing | gone | openFifo | fifo | inject | collect | waiting | done => exact hgoes.elim

/-- **A province reports what it remembers** of all that it has read. -/
theorem reported {f : Fin n → σ → μ} (hf : net.report = some f)
    (r : Run (Step cap net) net.begin tr s) (h : .wrote .reports c ∈ events (some i) tr) :
    c = f i (net.fold i (receivedBy i tr)).1 := by
  have hJ := locally (J := fun p es q => net.of p q ∧ ∀ i, p = some i → Heard net i es q ∧
      ∀ c, .wrote .reports c ∈ es → q.loop = none ∧ c = f i (net.fold i (received es)).1)
    (G := fun _ _ => True)
    (fun {p es q e q'} hJ _ h => ⟨(op_keeps net).still hJ.1 h, fun i hp => ?_⟩) r
    (fun p => ⟨(tidy_begin net).ok p, fun i hp => ?_⟩) (fun _ _ => trivial) (some i)
  · exact ((hJ.2 i rfl).2 c h).2
  · subst hp
    obtain ⟨hof, hi⟩ := hJ
    obtain ⟨hheard, hreports⟩ := hi i rfl
    refine ⟨hheard.step h, fun c hc => ?_⟩
    rw [received_snoc]
    rcases List.mem_append.mp hc with hc | hc
    · obtain ⟨hl, hc⟩ := hreports c hc
      obtain ⟨hl', hr⟩ := loop_none hof hl h
      rw [hr, Option.toList_none, List.append_nil]
      exact ⟨hl', hc⟩
    · obtain rfl := List.mem_singleton.mp hc
      obtain ⟨l, f', rfl, hf', rfl, hl'⟩ := report_of_wrote hof h
      rw [hf] at hf'
      cases hf'
      refine ⟨hl', ?_⟩
      change _ = f i (net.fold i (received es ++ [])).1
      rw [List.append_nil, hheard.state l rfl]
  · subst hp
    exact ⟨⟨rfl, fun l hl => by cases hl; rfl⟩, nofun⟩

/-! ### What is sent -/

def letter? : Seen n μ → Option UInt8
  | .said (some (.byte b)) => if isLetter b then some b else none
  | _ => none

/-- The letters that Casa Rosada has taken. -/
def letters (es : List (Seen n μ)) : List UInt8 := es.filterMap letter?

/-- What Casa Rosada has sent. -/
def sent (es : List (Seen n μ)) : List μ := es.filterMap (Event.written? .boss)

/-- What is to be sent for some letters. -/
def Net.toSend (net : Net n μ σ) (bs : List UInt8) : List μ :=
  bs.zipIdx.flatMap fun x => net.inject x.2 x.1

theorem toSend_snoc (net : Net n μ σ) (bs : List UInt8) (b : UInt8) :
    net.toSend (bs ++ [b]) = net.toSend bs ++ net.inject bs.length b := by
  simp [Net.toSend, List.zipIdx_append]

/-- How many letters were taken, as long as Casa Rosada counts them. -/
def Place.count : Place n μ σ → Option Nat
  | .closing _ next => next.count
  | .openFifo => some 0
  | .fifo t | .inject _ t => some t
  | _ => none

/-- What Casa Rosada is still to send. -/
def Place.pending : Place n μ σ → List μ
  | .closing _ next => next.pending
  | .inject cs _ => cs
  | _ => []

/-- What Casa Rosada has sent of what it is to send. -/
structure Sent (net : Net n μ σ) (es : List (Seen n μ)) (q : Place n μ σ) : Prop where
  count : ∀ t, q.count = some t → t = (letters es).length
  sub : (sent es ++ q.pending).Sublist (net.toSend (letters es))
  all : 0 < n → sent es ++ q.pending = net.toSend (letters es)

theorem letters_snoc (es : List (Seen n μ)) (e : Seen n μ) :
    letters (es ++ [e]) = letters es ++ (letter? e).toList := filterMap_snoc ..

theorem sent_snoc (es : List (Seen n μ)) (e : Seen n μ) :
    sent (es ++ [e]) = sent es ++ (e.written? .boss).toList := filterMap_snoc ..

/-- A step in which no letter is taken. -/
theorem Sent.same (h : Sent net es q) (hl : letter? e = none)
    (hc : ∀ t, q'.count = some t → q.count = some t)
    (hp : (e.written? .boss).toList ++ q'.pending = q.pending) : Sent net (es ++ [e]) q' := by
  have hletters : letters (es ++ [e]) = letters es := by
    rw [letters_snoc, hl]
    exact List.append_nil _
  have hsent : sent (es ++ [e]) ++ q'.pending = sent es ++ q.pending := by
    rw [sent_snoc, List.append_assoc, hp]
  refine ⟨fun t ht => ?_, ?_, fun hn => ?_⟩
  · rw [hletters]
    exact h.count t (hc t ht)
  · rw [hletters, hsent]
    exact h.sub
  · rw [hletters, hsent, h.all hn]

/-- Casa Rosada finds a broken pipe, and nobody can read it. -/
theorem Sent.drop (h : Sent net es q) (hl : letter? e = none) (hw : e.written? .boss = none)
    (hc : ∀ t, q'.count = some t → q.count = some t) (hp : q'.pending.Sublist q.pending)
    (hn : ¬ 0 < n) : Sent net (es ++ [e]) q' := by
  have hletters : letters (es ++ [e]) = letters es := by
    rw [letters_snoc, hl]
    exact List.append_nil _
  have hsent : sent (es ++ [e]) = sent es := by
    rw [sent_snoc, hw]
    exact List.append_nil _
  refine ⟨fun t ht => ?_, ?_, fun h => absurd h hn⟩
  · rw [hletters]
    exact h.count t (hc t ht)
  · rw [hletters, hsent]
    exact (hp.append_left _).trans h.sub

theorem hangup_count (net : Net n μ σ) : (net.hangup).count = none := by
  rw [Net.hangup]
  change (if net.report.isSome then _ else _ : Place n μ σ).count = none
  split <;> rfl

theorem hangup_pending (net : Net n μ σ) : (net.hangup).pending = [] := by
  rw [Net.hangup]
  change (if net.report.isSome then _ else _ : Place n μ σ).pending = []
  split <;> rfl

theorem Sent.step (h : Sent net es q) (hne : 0 < n → e ≠ .epipe .boss)
    (hgoes : (net.op none q).Goes e q') : Sent net (es ++ [e]) q' := by
  obtain ⟨fs, next, rfl⟩ | ⟨-, hop⟩ := op_cases net none q
  · cases fs <;> (obtain ⟨rfl, rfl⟩ := hgoes; exact h.same rfl (fun _ => id) rfl)
  · rw [hop] at hgoes
    change (net.casaRosada q).Goes e q' at hgoes
    cases q with
    | openFifo => obtain ⟨rfl, rfl⟩ := hgoes; exact h.same rfl (fun _ => id) rfl
    | fifo t =>
        obtain ⟨a, l, ha, rfl⟩ := hgoes
        cases a with
        | none =>
            cases ha
            refine h.same rfl (fun t ht => ?_) (hangup_pending net)
            rw [hangup_count] at ht
            cases ht
        | some b =>
            simp only [Option.some.injEq, Prod.mk.injEq] at ha
            obtain ⟨rfl, rfl⟩ := ha
            have hcount := h.count t rfl
            split
            next hb =>
              have hletters : letters (es ++ [.said (some (.byte b))]) = letters es ++ [b] := by
                rw [letters_snoc, letter?, if_pos hb]
                rfl
              have hsent : sent (es ++ [.said (some (.byte b))]) = sent es := by
                rw [sent_snoc]
                exact List.append_nil _
              refine ⟨fun t' ht' => ?_, ?_, fun hn => ?_⟩
              · cases ht'
                rw [hletters, List.length_append, hcount]
                rfl
              · rw [hletters, hsent, toSend_snoc, ← hcount]
                have hsub := h.sub
                rw [Place.pending, List.append_nil] at hsub
                · exact hsub.append_right _
                · simp
                · simp
              · have hall := h.all hn
                rw [Place.pending, List.append_nil] at hall
                · rw [hletters, hsent, toSend_snoc, ← hcount, ← hall]
                  rfl
                · simp
                · simp
            next hb => exact h.same (if_neg hb) (fun _ => id) rfl
    | inject cs t =>
        cases cs with
        | nil => obtain ⟨rfl, rfl⟩ := hgoes; exact h.same rfl (fun _ => id) rfl
        | cons c cs =>
            obtain ⟨rfl, rfl⟩ | ⟨rfl, rfl⟩ := hgoes
            · exact h.same rfl (fun _ => id) (by simp [Event.written?, Place.pending])
            · have hn : ¬ 0 < n := fun hn => hne hn rfl
              split
              · refine h.drop rfl rfl (fun t ht => ?_) ?_ hn
                · rw [hangup_count] at ht
                  cases ht
                · rw [hangup_pending]
                  exact List.nil_sublist _
              · exact h.drop rfl rfl (fun _ => id) (List.sublist_cons_self ..) hn
    | collect =>
        obtain ⟨c, rfl, rfl⟩ | ⟨rfl, rfl⟩ | ⟨-, hq⟩ := hgoes
        · exact h.same rfl (by simp) rfl
        · exact h.same rfl (by rintro _ ⟨⟩) rfl
        · cases hq
    | waiting => obtain ⟨rfl, rfl⟩ := hgoes; exact h.same rfl (by rintro _ ⟨⟩) rfl
    | closing | done | check | poll | print | relay | report | gone => exact hgoes.elim

/-- **Casa Rosada sends what it is to send**, if there are provinces. -/
theorem sends (r : Run (Step cap net) net.begin tr s) :
    Sent net (events none tr) (s.pc none) := by
  induction r with
  | refl => exact ⟨fun t ht => by cases ht; rfl, .refl _, fun _ => rfl⟩
  | @snoc s s' tr l r h ih =>
      obtain ⟨p, e⟩ := l
      cases p with
      | none =>
          obtain ⟨q', hpc, hgoes⟩ := h.goes
          rw [events_snoc, if_pos rfl, hpc, Function.update_self]
          refine ih.step (fun hn => ?_) hgoes
          rintro rfl
          exact no_epipe r (mem_inputs.mpr (.inr ⟨rfl, (rfl : (⟨0, hn⟩ : Fin n).val = 0)⟩)) h
      | some i =>
          rw [events_snoc, if_neg (by simp), List.append_nil, h.stays (by simp)]
          exact ih

/-! ### Everywhere -/

section
variable (r : Run (Step cap net) net.begin tr s)
include r

/-- A province reads its inputs. -/
theorem reads_inputs (h : .read k c ∈ events (some i) tr) : k ∈ net.inputs i := by
  obtain ⟨⟨s₁, l, s₂⟩, m_in, rfl⟩ := mem_events.mp h
  have hstep : Step cap net s₁ (some i, .read k c) s₂ := r.step_of_mem _ m_in
  obtain ⟨⟨tr', r'⟩, -⟩ := r.split_at m_in
  cases hstep with
  | read _ _ data eof again _ pipes hop hr =>
      exact of_decide_eq_true (op_uses ((tidy r').ok (some i)) (f := .read k) (by rw [hop]; rfl))

/-- It writes to its outputs. -/
theorem writes_outputs (h : c ∈ wroteTo i j (events (some i) tr)) : net.pipe i j = true := by
  obtain ⟨e, he, hec⟩ := List.mem_filterMap.mp h
  obtain ⟨⟨s₁, l, s₂⟩, m_in, rfl⟩ := mem_events.mp he
  have hstep : Step cap net s₁ (some i, e) s₂ := r.step_of_mem _ m_in
  obtain ⟨⟨tr', r'⟩, -⟩ := r.split_at m_in
  cases hstep with
  | write _ k _ ok broken pipes hop hw =>
      have hk : k = .edge i j := by
        by_contra hk
        rw [Event.written?, if_neg hk] at hec
        cases hec
      subst hk
      have hown := op_uses ((tidy r').ok (some i)) (f := .write (.edge i j)) (by rw [hop]; rfl)
      exact mem_outputs.mp (of_decide_eq_true hown).2
  | read | eof | again | epipe | close | act | ask | wait | exit => cases hec

/-- What a province has read was in one of its inputs. -/
theorem taken_of_received (h : c ∈ receivedBy i tr) : ∃ k ∈ net.inputs i, c ∈ taken k tr := by
  obtain ⟨e, he, hec⟩ := List.mem_filterMap.mp h
  cases e with
  | read k d =>
      cases hec
      have hk := reads_inputs r he
      refine ⟨k, hk, ?_⟩
      rw [taken_input r hk]
      exact List.mem_filterMap.mpr ⟨_, he, if_pos rfl⟩
  | eof | wrote | epipe | said => cases hec

theorem written_of_received (h : c ∈ receivedBy i tr) : ∃ k ∈ net.inputs i, c ∈ written k tr := by
  obtain ⟨k, hk, hc⟩ := taken_of_received r h
  refine ⟨k, hk, ?_⟩
  rw [pipe_law r fun _ => rfl]
  exact List.mem_append_left _ hc

/-- What a province passes on it has read. -/
theorem received_of_printed (h : c ∈ processedBy i tr ++ (s.pc (some i)).unprinted) :
    c ∈ receivedBy i tr := by
  rw [processedBy, ← (heard r i).printed] at h
  exact (fold_sublist ..).subset h

end

/-- **What is everywhere.** -/
theorem everywhere {G : Pipe n → μ → Prop} (hfwd : Passes net fwd)
    (r : Run (Step cap net) net.begin tr s) (hsent : ∀ c ∈ written .boss tr, G .boss c)
    (hrelay : ∀ {i j k c}, k ∈ net.inputs i → G k c → net.pipe i j = true →
      ∀ c' ∈ fwd i c j, G (.edge i j) c') (hk : k ≠ .reports) :
    ∀ c ∈ written k tr, G k c := by
  induction r generalizing k with
  | refl => exact nofun
  | @snoc s s' tr l r h ih =>
      have ih : ∀ k ≠ .reports, ∀ c ∈ written k tr, G k c := fun k hk =>
        ih (fun c hc => hsent c (by rw [written_snoc]; exact List.mem_append_left _ hc)) hk
      have r' := r.snoc h
      intro c' hc'
      cases k with
      | boss => exact hsent c' hc'
      | reports => exact absurd rfl hk
      | edge i j =>
          rw [written_edge r'] at hc'
          obtain ⟨c, hc, hcc'⟩ := List.mem_flatMap.mp
            ((passed hfwd r' i j).sub.subset (List.mem_append_left _ hc'))
          obtain ⟨a, ha, hca⟩ := taken_of_received r' (received_of_printed r' hc)
          have hold := written_before r (fun _ => rfl) h hca
          exact hrelay ha (ih a (ne_reports ha) c hold) (writes_outputs r' hc') c' hcc'

end Sop2.Provinces
