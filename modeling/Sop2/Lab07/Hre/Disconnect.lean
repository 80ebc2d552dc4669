import Sop2.Lab07.Hre.Registration

/-!
# Lab07 — Hre — the end of a stream

When `read` returns 0, `do_server` frees the elector, closes the descriptor, and goes on to the
code for a byte with whatever `msg` holds.  If that is the number of an elector that is free, the
closed descriptor is bound to it and written to: `ERR`.  The elector that was just freed is one of
these (`ended_by_disconnect`).

`disconnect_law`: the event does what it should exactly when `msg` names no free elector.
-/

namespace Sop2.Hre
open Support

/-- The server runs on; nobody has the descriptor, the elector that had it is free, and the
others are as they were. -/
def Disconnected (s : Server) (fd : Int) (o : Option Server) : Prop :=
  ∃ s', o = some s' ∧ (∀ j, (s'.electors j).fd ≠ fd) ∧
    ∀ j, ((s.electors j).fd = fd → (s'.electors j).connected = false ∧ (s'.electors j).fd = -1) ∧
      ((s.electors j).fd ≠ fd → s'.electors j = s.electors j)

variable {s : Server} {fd sfd : Int} {batch : List Int} {junk : UInt8} {w : WriteResult}
  {tr : List (Move (EventLoop.State Server) (EventLoop.Label Input))}

/-- `msg` names no elector, or one that is connected to another client. -/
def Harmless (s : Server) (fd : Int) (junk : UInt8) : Prop :=
  ∀ j, indexOf junk = some j → (s.electors j).connected = true ∧ (s.electors j).fd ≠ fd

theorem disconnect_of_harmless (hfd : fd ≠ -1) (h : Harmless s fd junk) :
    Disconnected s fd (readEvent s fd (.bytes []) junk w) := by
  have hdone : ∀ s' : Server, s'.electors = (disconnect fd s).electors →
      Disconnected s fd (some s') := by
    intro s' he
    refine ⟨s', rfl, fun j => by rw [he]; exact disconnect_fd_ne hfd s j, fun j => ⟨fun hj => ?_,
      fun hj => ?_⟩⟩
    · have hset : s'.electors j = { s.electors j with connected := false, fd := -1 } := by
        rw [he]; exact if_pos hj
      rw [hset]
      exact ⟨rfl, rfl⟩
    · rw [he]; exact if_neg hj
  have hnone : registeredElector fd (disconnect fd (s.asked (.read fd []))) = none :=
    List.find?_eq_none.mpr fun j _ => by simpa using disconnect_fd_ne hfd _ j
  simp only [readEvent, handleMsg, hnone, register]
  cases hi : indexOf junk with
  | none => exact hdone _ rfl
  | some j =>
      -- the elector is not the one that was freed, so it is still connected
      obtain ⟨hc, hne⟩ := h j hi
      have hset : (disconnect fd (s.asked (.read fd []))).electors j = s.electors j := if_neg hne
      dsimp only
      rw [hset, if_pos hc]
      exact hdone _ rfl

/-- A free elector that is named gets the closed descriptor, whatever the `write` does. -/
theorem harmless_of_disconnect (hfd : fd ≠ -1)
    (h : Disconnected s fd (readEvent s fd (.bytes []) junk w)) : Harmless s fd junk := by
  obtain ⟨s', hs, hnone, -⟩ := h
  change handleMsg fd junk w (disconnect fd (s.asked (.read fd []))) = some s' at hs
  have hne : ∀ j, ((disconnect fd (s.asked (.read fd []))).electors j).fd ≠ fd :=
    disconnect_fd_ne hfd _
  intro i hi
  rcases handleMsg_cases hs with ⟨j, hj, -⟩ | ⟨j, hj, -⟩ | ⟨-, hcase⟩
  · exact absurd hj (hne j)
  · exact absurd hj (hne j)
  · rcases hcase with ⟨j, hj, -, -, rfl⟩ | ⟨j, hj, hc, -⟩ | ⟨hn, -⟩
    · exact absurd (by rw [electors_asked, electors_set]) (hnone j)
    · rw [hi] at hj
      obtain rfl := Option.some.inj hj
      by_cases e : (s.electors i).fd = fd
      · have hset : (disconnect fd (s.asked (.read fd []))).electors i =
            { s.electors i with connected := false, fd := -1 } := if_pos e
        rw [hset] at hc
        cases hc
      · have hset : (disconnect fd (s.asked (.read fd []))).electors i = s.electors i := if_neg e
        rw [hset] at hc
        exact ⟨hc, e⟩
    · rw [hn] at hi
      cases hi

/-- **The end of a stream.**  In every reachable state, for every client that is connected and
every value of `msg`: the event in which `read` returns 0 does what it should if and only if
`msg` is no digit from `'1'` to `'7'`, or the elector it names is connected to another client. -/
theorem disconnect_law (r : Run (loop sfd).Step begin tr ⟨s, batch⟩)
    (hfd : (history s.log).conn fd ≠ none) (junk : UInt8) (w : WriteResult) :
    Disconnected s fd (readEvent s fd (.bytes []) junk w) ↔ Harmless s fd junk := by
  obtain ⟨k, hk⟩ := Option.ne_none_iff_exists'.mp hfd
  have hne : fd ≠ -1 := by
    have hge : 0 ≤ fd := (ballot r).1.registered.nonneg hk
    omega
  exact ⟨harmless_of_disconnect hne, disconnect_of_harmless hne⟩

/-- The elector with the index 2 leaves while `msg` holds no digit. -/
theorem disconnect_law_zero :
    Disconnected oneElector 5 (readEvent oneElector 5 (.bytes []) 0 .error) := by
  obtain ⟨tr, r⟩ := oneElector_run
  have hfd : (history oneElector.log).conn 5 ≠ none := Option.some_ne_none 0
  refine (disconnect_law r hfd 0 .error).mpr ?_
  rintro j ⟨⟩

/-- A client connects, registers with `'3'` and leaves; `msg` still holds `'3'`.  The elector that
was just freed is bound to the closed descriptor, the `write` fails and the server ends. -/
theorem ended_by_disconnect : ∃ tr, Run (loop 3).Step begin tr ⟨oneElector, []⟩ ∧
    (history oneElector.log).conn 5 = some 0 ∧
    readEvent oneElector 5 (.bytes []) 51 .error = none ∧
    ¬ Disconnected oneElector 5 (readEvent oneElector 5 (.bytes []) 51 .error) := by
  obtain ⟨tr, r⟩ := oneElector_run
  have hnone : readEvent oneElector 5 (.bytes []) 51 .error = none := rfl
  refine ⟨tr, r, rfl, hnone, ?_⟩
  rw [hnone]
  rintro ⟨s', ⟨⟩, -⟩

end Sop2.Hre
