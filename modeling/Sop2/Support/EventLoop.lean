import Sop2.Support.Runs

/-!
# Support — EventLoop

A server with one thread that waits for descriptors to become ready and handles those that are,
one after another, before it waits again.

* `EventLoop`: which descriptors are watched, and what handling one of them does.
* `EventLoop.Step`: one wait, which returns a batch of distinct descriptors, or one event of the
  batch.  A descriptor may be closed, and its number given out again, between the wait and its
  turn.
* `EventLoop.invariant`, `EventLoop.law`: `Run.invariant` and `Run.law`, where a wait changes
  nothing.
-/

namespace Support

/-- How a `read` ends; at the end of the stream there are no bytes. -/
inductive ReadResult where
  | error
  | bytes (bs : List UInt8)

/-- How a `write` ends. -/
inductive WriteResult where
  | written
  | epipe
  | error

/-- A server over the states `S`.  `I` is what the system answers to the calls an event makes;
an event that ends the process is not handled. -/
structure EventLoop (S I : Type*) where
  maxEvents : Nat
  watched : S → Int → Prop
  handle : S → Int → I → S → Prop

namespace EventLoop

variable {S I : Type*}

/-- The server, and the events that are still to be handled. -/
structure State (S : Type*) where
  server : S
  batch : List Int

inductive Label (I : Type*) where
  | wait
  | event (fd : Int) (input : I)

/-- One wait or one event. -/
inductive Step (E : EventLoop S I) : State S → Label I → State S → Prop where
  | wait {s : State S} (events : List Int) (h : s.batch = []) (hlen : events.length ≤ E.maxEvents)
      (hn : events.Nodup) (hw : ∀ fd ∈ events, E.watched s.server fd) :
      Step E s .wait ⟨s.server, events⟩
  | event {s : State S} (fd : Int) (input : I) (rest : List Int) (server : S)
      (h : s.batch = fd :: rest) (hs : E.handle s.server fd input server) :
      Step E s (.event fd input) ⟨server, rest⟩

variable {E : EventLoop S I} {s t : State S} {tr : List (Move (State S) (Label I))}

/-- **The invariant rule.**  What every event preserves holds in every state. -/
theorem invariant {J : S → Prop}
    (pres : ∀ {s fd input s'}, J s → E.handle s fd input s' → J s') (r : Run E.Step s tr t)
    (hs : J s.server) : J t.server := by
  refine r.invariant (I := fun s => J s.server) (fun hs h => ?_) hs
  cases h with
  | wait => exact hs
  | event fd input rest server _ h => exact pres hs h

/-- The events of a run that satisfy `C`. -/
def Only (C : S → Int → I → Prop) (s : State S) (l : Label I) (_ : State S) : Prop :=
  ∀ fd input, l = .event fd input → C s.server fd input

@[simp] theorem only_wait {C : S → Int → I → Prop} : Only C s .wait t := by
  rintro fd input ⟨⟩

@[simp] theorem only_event {C : S → Int → I → Prop} {fd : Int} {input : I} :
    Only C s (.event fd input) t ↔ C s.server fd input :=
  ⟨fun h => h fd input rfl, by rintro h _ _ ⟨⟩; exact h⟩

/-- **The invariant rule under a side condition.** -/
theorem invariant_at {J : S → Prop} {C : S → Int → I → Prop}
    (pres : ∀ {s fd input s'}, J s → E.handle s fd input s' → C s fd input → J s')
    (r : Run E.Step s tr t) (hs : J s.server) (hC : ∀ m ∈ tr, Only C m.before m.label m.after) :
    J t.server ∧ ∀ m ∈ tr, J m.before.server ∧ J m.after.server := by
  refine r.invariant_at (I := fun s => J s.server) (C := Only C) (fun hs h hC => ?_) hs hC
  cases h with
  | wait => exact hs
  | event fd input rest server _ h => exact pres hs h (hC fd input rfl)

/-- **The exact condition.** -/
theorem law {J P : S → Prop} {C : S → Int → I → Prop}
    (pres : ∀ {s fd input s'}, J s → E.handle s fd input s' → C s fd input → J s')
    (post : ∀ {s}, J s → P s)
    (only : ∀ {s fd input s'}, J s → E.handle s fd input s' → P s' → C s fd input)
    (r : Run E.Step s tr t) (hs : J s.server) :
    (∀ m ∈ tr, P m.after.server) ↔ ∀ m ∈ tr, Only C m.before m.label m.after := by
  refine r.law (J := fun s => J s.server) (P := fun s => P s.server) (C := Only C)
    (fun hs h hC => ?_) post (fun hs h hP => ?_) hs
  · cases h with
    | wait => exact hs
    | event fd input rest server _ h => exact pres hs h (hC fd input rfl)
  · rintro fd input rfl
    cases h with
    | event _ _ rest server _ h => exact only hs h hP

end EventLoop

end Support
