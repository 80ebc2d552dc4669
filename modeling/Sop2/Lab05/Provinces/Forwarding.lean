import Sop2.Lab05.Provinces.Routing

/-!
# Lab05 — Provinces — forwarding

To whom the provinces of `lab05/generated_harder` forward packets, whether or not `SIGINT` comes: a
process that it has reached does not go on with its loop.

* `Travels`: every packet is at a step of its path that leads to where it is.
* `forward_pipe`: so it is forwarded to a pipe that there is, when the routes begin at province 0.
-/

namespace Sop2.Provinces
open Support Support.Piped

variable {n cap : Nat} {μ σ : Type} {net : Net n μ σ}

/-! ### Signals -/

/-- `keep_running` is 0, or a `read` fails with `EINTR`. -/
inductive Interrupted (net : Net n μ σ) : Option (Fin n) → Place n μ σ → Place n μ σ → Prop where
  | province (i : Fin n) (l : Loop n σ) : Interrupted net (some i) (.check l)
      (if net.report.isSome then .report l else net.cleanup i l)
  | fifo (t : Nat) : Interrupted net none (.fifo t) net.hangup
  | collect : Interrupted net none .collect (.closing [.read .reports] .waiting)

/-- One step of one process, which a signal may have reached. -/
inductive SignalStep (cap : Nat) (net : Net n μ σ) :
    State n μ σ → Option (Fin n) × Seen n μ → State n μ σ → Prop where
  | step {s t : State n μ σ} {l : Option (Fin n) × Seen n μ} (h : Step cap net s l t) :
      SignalStep cap net s l t
  | interrupt {s : State n μ σ} (p : Option (Fin n)) (q : Place n μ σ)
      (h : Interrupted net p (s.pc p) q) : SignalStep cap net s (p, .said none) (s.go p s.pipes q)

/-! ### Where the packets are -/

/-- All routes begin at province 0. -/
def Starts (routes : List (Route n)) : Prop :=
  ∀ route ∈ routes, ∃ z : Fin n, z.val = 0 ∧ route.path[0]? = some z

/-- A packet is at the step of its path that is `i`. -/
def At (routes : List (Route n)) (i : Fin n) : Message n → Prop
  | .packet c => ∃ route ∈ routes, c.path = route.path ∧ c.path[c.currentStep]? = some i
  | .report _ _ => True

/-- It is where the pipe leads. -/
def Bound (routes : List (Route n)) : Pipe n → Message n → Prop
  | .boss, c => ∀ z : Fin n, z.val = 0 → At routes z c
  | .edge _ j, c => At routes j c
  | .reports, _ => True

/-- What a process is about to read, and to write. -/
def Travels (routes : List (Route n)) (p : Option (Fin n)) : Place n (Message n) Int → Prop
  | .closing _ next => Travels routes p next
  | .poll _ rest => ∀ i, p = some i → rest ⊆ (generatedHarder routes).inputs i
  | .print _ _ out rest | .relay _ out rest => ∀ i, p = some i →
      rest ⊆ (generatedHarder routes).inputs i ∧
        ∀ x ∈ out, (generatedHarder routes).pipe i x.1 = true ∧ At routes x.1 x.2
  | .inject cs _ => ∀ c ∈ cs, Bound routes .boss c
  | _ => True

variable {routes : List (Route n)} {s t : State n (Message n) Int} {p : Option (Fin n)}
  {q q' : Place n (Message n) Int} {e : Seen n (Message n)} {k : Pipe n} {c : Message n}
  {i j : Fin n} {l : Option (Fin n) × Seen n (Message n)}

theorem Bound.input (h : Bound routes k c) (hk : k ∈ (generatedHarder routes).inputs i) :
    At routes i c := by
  obtain ⟨a, rfl, -⟩ | ⟨rfl, hi⟩ := mem_inputs.mp hk
  · exact h
  · exact h i hi

/-- A packet is forwarded to the next step, and there is a pipe. -/
theorem At.forward {c : Packet n} (h : At routes i (.packet c)) :
    ∀ x ∈ c.forward, (generatedHarder routes).pipe i x.1 = true ∧ At routes x.1 x.2 := by
  obtain ⟨route, hroute, hpath, hi⟩ := h
  intro x hx
  unfold Packet.forward at hx
  split at hx
  next j hj =>
    obtain rfl := List.mem_singleton.mp hx
    exact ⟨has_pipe hroute (hpath ▸ hi) (hpath ▸ hj), route, hroute, hpath, hj⟩
  next => cases hx

theorem travels_inject (hstarts : Starts routes) (t : Nat) (b : UInt8) :
    ∀ c ∈ (generatedHarder routes).inject t b, Bound routes .boss c := by
  intro c hc z hz
  obtain ⟨⟨route, index⟩, hmem, rfl⟩ := List.mem_map.mp hc
  have hroute : route ∈ routes := List.mem_of_getElem? (List.mem_zipIdx_iff_getElem?.mp hmem)
  obtain ⟨z', hz', hpath⟩ := hstarts route hroute
  obtain rfl : z' = z := Fin.ext (hz'.trans hz.symm)
  exact ⟨route, hroute, rfl, hpath⟩

/-- What Casa Rosada sends is where it should be. -/
theorem Travels.boss (hstarts : Starts routes) (h : Travels routes none q)
    (hgoes : ((generatedHarder routes).casaRosada q).Goes e q') :
    Travels routes none q' ∧ ∀ k c, e = .wrote k c → Bound routes k c := by
  cases q with
  | openFifo => obtain ⟨rfl, rfl⟩ := hgoes; exact ⟨trivial, by simp⟩
  | fifo t =>
      obtain ⟨a, l, ha, rfl⟩ := hgoes
      cases a with
      | none => cases ha; exact ⟨trivial, by simp⟩
      | some b =>
          simp only [Option.some.injEq, Prod.mk.injEq] at ha
          obtain ⟨-, rfl⟩ := ha
          refine ⟨?_, by simp⟩
          split
          · exact travels_inject hstarts t b
          · trivial
  | inject cs t =>
      cases cs with
      | nil => obtain ⟨rfl, rfl⟩ := hgoes; exact ⟨trivial, by simp⟩
      | cons c cs =>
          have hrest : Travels routes none (.inject cs t) :=
            fun c' hc' => h c' (List.mem_cons_of_mem _ hc')
          obtain ⟨rfl, rfl⟩ | ⟨rfl, rfl⟩ := hgoes
          · refine ⟨hrest, ?_⟩
            rintro _ _ ⟨⟩
            exact h c (List.mem_cons_self ..)
          · exact ⟨hrest, by simp⟩
  | collect =>
      obtain ⟨c, rfl, rfl⟩ | ⟨rfl, rfl⟩ | ⟨-, hq⟩ := hgoes
      · exact ⟨trivial, by simp⟩
      · exact ⟨trivial, by simp⟩
      · cases hq
  | waiting => obtain ⟨rfl, rfl⟩ := hgoes; exact ⟨trivial, by simp⟩
  | closing | done | check | poll | print | relay | report | gone => exact hgoes.elim

/-- A province forwards what was where it should be. -/
theorem Travels.province (h : Travels routes (some i) q)
    (hgoes : ((generatedHarder routes).province i q).Goes e q')
    (hread : ∀ k c, e = .read k c → Bound routes k c) :
    Travels routes (some i) q' ∧ ∀ k c, e = .wrote k c → Bound routes k c := by
  cases q with
  | check l =>
      simp only [Net.province] at hgoes
      split at hgoes
      · obtain ⟨rfl, rfl⟩ := hgoes
        exact ⟨trivial, by simp⟩
      · obtain ⟨rfl, rfl⟩ := hgoes
        -- a turn of the loop goes over all inputs
        refine ⟨?_, by simp⟩
        rintro _ ⟨⟩
        exact List.Subset.refl _
  | poll l rest =>
      cases rest with
      | nil => obtain ⟨rfl, rfl⟩ := hgoes; exact ⟨trivial, by simp⟩
      | cons k rest =>
          have hsub := h i rfl
          have hrest : rest ⊆ (generatedHarder routes).inputs i :=
            fun a ha => hsub (List.mem_cons_of_mem _ ha)
          have hpoll : ∀ l, Travels routes (some i) (.poll l rest) := by
            rintro _ _ ⟨⟩
            exact hrest
          simp only [Net.province] at hgoes
          split at hgoes
          · obtain ⟨c, rfl, rfl⟩ | ⟨rfl, rfl⟩ | ⟨rfl, hq⟩ := hgoes
            -- a packet goes on as it should, a report is ignored
            · refine ⟨?_, by simp⟩
              have hat := (hread k c rfl).input (hsub (List.mem_cons_self ..))
              cases c with
              | packet c => rintro _ ⟨⟩; exact ⟨hrest, hat.forward⟩
              | report => exact hpoll l
            · exact ⟨hpoll { l with ins := l.ins.erase k }, by simp⟩
            · cases hq
              exact ⟨hpoll l, by simp⟩
          · obtain ⟨rfl, rfl⟩ := hgoes
            exact ⟨hpoll l, by simp⟩
  | print l c out rest => obtain ⟨rfl, rfl⟩ := hgoes; exact ⟨h, by simp⟩
  | relay l out rest =>
      obtain ⟨hrest, hout⟩ := h i rfl
      cases out with
      | nil =>
          obtain ⟨rfl, rfl⟩ := hgoes
          refine ⟨?_, by simp⟩
          rintro _ ⟨⟩
          exact hrest
      | cons x out =>
          have hrelay : Travels routes (some i) (.relay l out rest) := by
            rintro _ ⟨⟩
            exact ⟨hrest, fun y hy => hout y (List.mem_cons_of_mem _ hy)⟩
          simp only [Net.province] at hgoes
          split at hgoes
          · obtain ⟨rfl, rfl⟩ | ⟨rfl, rfl⟩ := hgoes
            -- the packet is in the pipe now
            · refine ⟨hrelay, ?_⟩
              rintro _ _ ⟨⟩
              exact (hout x (List.mem_cons_self ..)).2
            · exact ⟨hrelay, by simp⟩
          · obtain ⟨rfl, rfl⟩ := hgoes
            exact ⟨hrelay, by simp⟩
  | report l =>
      obtain ⟨rfl, rfl⟩ | ⟨rfl, rfl⟩ := hgoes
      · refine ⟨trivial, ?_⟩
        rintro _ _ ⟨⟩
        trivial
      · exact ⟨trivial, by simp⟩
  | closing | gone | openFifo | fifo | inject | collect | waiting | done => exact hgoes.elim

/-- **One operation.** -/
theorem Travels.step (hstarts : Starts routes) (h : Travels routes p q)
    (hgoes : ((generatedHarder routes).op p q).Goes e q')
    (hread : ∀ k c, e = .read k c → Bound routes k c) :
    Travels routes p q' ∧ ∀ k c, e = .wrote k c → Bound routes k c := by
  obtain ⟨fs, next, rfl⟩ | ⟨-, hop⟩ := op_cases (generatedHarder routes) p q
  · cases fs <;> (obtain ⟨rfl, rfl⟩ := hgoes; exact ⟨h, by simp⟩)
  · rw [hop] at hgoes
    cases p with
    | none => exact h.boss hstarts hgoes
    | some i => exact h.province hgoes hread

theorem Travels.interrupt (h : Travels routes p q)
    (hq : Interrupted (generatedHarder routes) p q q') : Travels routes p q' := by
  cases hq <;> trivial

/-- What is in the pipes, and where everybody is. -/
structure Underway (routes : List (Route n)) (s : State n (Message n) Int) : Prop where
  content : ∀ k, ∀ c ∈ s.pipes.content k, Bound routes k c
  place : ∀ p, Travels routes p (s.pc p)

/-- **One step.** -/
theorem Underway.step (hstarts : Starts routes) (h : Underway routes s)
    (hstep : SignalStep cap (generatedHarder routes) s l t) : Underway routes t := by
  cases hstep with
  | interrupt p q hq =>
      exact ⟨h.content, (Function.forall_update_iff s.pc fun r q => Travels routes r q).mpr
        ⟨(h.place p).interrupt hq, fun r _ => h.place r⟩⟩
  | step hstep =>
      obtain ⟨q, hpc, hgoes⟩ := hstep.goes
      have hshifts := hstep.shifts
      have hread : ∀ k c, l.2 = .read k c → Bound routes k c := by
        intro k c hl
        rw [hl] at hshifts
        refine h.content k c ?_
        rw [hshifts, Function.update_self]
        exact List.mem_cons_self ..
      obtain ⟨hplace, hwrite⟩ := (h.place l.1).step hstarts hgoes hread
      refine ⟨?_, ?_⟩
      · cases hl : l.2 with
        | read a d =>
            -- what is left was in the pipe before
            intro k c hc
            rw [hl] at hshifts
            refine h.content k c ?_
            rw [hshifts]
            by_cases hk : k = a
            · subst hk
              rw [Function.update_self]
              exact List.mem_cons_of_mem _ hc
            · rwa [Function.update_of_ne hk]
        | wrote a d =>
            rw [hl] at hshifts
            rw [hshifts]
            refine (Function.forall_update_iff s.pipes.content fun k cs =>
              ∀ c ∈ cs, Bound routes k c).mpr ⟨fun c hc => ?_, fun k _ => h.content k⟩
            rcases List.mem_append.mp hc with hc | hc
            · exact h.content a c hc
            · exact List.mem_singleton.mp hc ▸ hwrite a d hl
        | eof | epipe | said =>
            rw [hl] at hshifts
            rw [hshifts]
            exact h.content
      · rw [hpc]
        exact (Function.forall_update_iff s.pc fun r q => Travels routes r q).mpr
          ⟨hplace, fun r _ => h.place r⟩

/-- **Every run.** -/
theorem underway (hstarts : Starts routes)
    {tr : List (Move (State n (Message n) Int) (Option (Fin n) × Seen n (Message n)))}
    (r : Run (SignalStep cap (generatedHarder routes)) (generatedHarder routes).begin tr s) :
    Underway routes s := by
  refine r.invariant (I := Underway routes) (fun h hstep => h.step hstarts hstep) ⟨?_, ?_⟩
  · rintro k c ⟨⟩
  · rintro (_ | i) <;> trivial

theorem Travels.out (h : Travels routes (some i) q) (hc : (j, c) ∈ q.out) :
    (generatedHarder routes).pipe i j = true := by
  induction q with
  | closing es next ih => exact ih h hc
  | print l c' out rest | relay l out rest => exact ((h i rfl).2 _ hc).1
  | _ => cases hc

/-- **Every packet is forwarded to a pipe that there is**, in every run, with signals or without. -/
theorem forward_pipe (hstarts : Starts routes)
    {tr : List (Move (State n (Message n) Int) (Option (Fin n) × Seen n (Message n)))}
    (r : Run (SignalStep cap (generatedHarder routes)) (generatedHarder routes).begin tr s)
    (hc : (j, c) ∈ (s.pc (some i)).out) : (generatedHarder routes).pipe i j = true :=
  ((underway hstarts r).place (some i)).out hc

end Sop2.Provinces
