import Mathlib.Data.Fintype.Basic
import Mathlib.Logic.Function.Basic
import Sop2.Support.EventLoop

/-!
# Lab07 — Hre — the server of the electors

`lab07/prelab/sop-hre.c`: the table `electors[]` and one event of the loop of `do_server`, over
`Support.EventLoop`.  An event that reaches `ERR` ends the process.

A client's event reads one byte into the variable `msg`, which is not initialised: at the end of
the stream `msg` is what it was, `junk`.  The branch for the end of the stream closes the
descriptor and does not leave the handler; the code below it goes on with `junk`
(`readEvent`).

`handleMsg_cases`, `handleMsg_closed`: what a byte does, and what is left of it when the
descriptor has been closed.
-/

namespace Sop2.Hre
open Support

/-- `MAX_EVENTS`. -/
def maxEvents : Nat := 10

/-- `ELECTORS_NUM` is 7. -/
abbrev Elector := Fin 7

/-- `WELCOME_MSG`, with its NUL. -/
def welcomeMsg : List UInt8 :=
  [87, 101, 108, 99, 111, 109, 101, 32, 101, 108, 101, 99, 116, 111, 114, 33, 10, 0]

/-- `client_state`. -/
structure ClientState where
  connected : Bool
  vote : Int
  fd : Int
  deriving DecidableEq

/-- What the server has asked of the system. -/
inductive Effect where
  | accepted (fd : Int)
  /-- `read` has returned these bytes, none of them at the end of the stream. -/
  | read (fd : Int) (bytes : List UInt8)
  | wrote (fd : Int) (bytes : List UInt8)
  | closed (fd : Int)
  deriving DecidableEq

/-- `electors[]`, and what was asked of the system so far. -/
structure Server where
  electors : Elector → ClientState
  log : List Effect

/-- Lines 163 to 168. -/
def start : Server := ⟨fun _ => ⟨false, -1, -1⟩, []⟩

/-- The server after one more request to the system. -/
def Server.asked (s : Server) (e : Effect) : Server := { s with log := s.log ++ [e] }

/-- The server with another entry for an elector. -/
def Server.set (s : Server) (j : Elector) (c : ClientState) : Server :=
  { s with electors := Function.update s.electors j c }

/-- An event of `sfd`, when `add_new_client` returns `clientFd`; `epoll_ctl` refuses -1. -/
def acceptEvent (s : Server) (clientFd : Int) : Option Server :=
  if clientFd < 0 then none else some (s.asked (.accepted clientFd))

/-- The branch of line 73. -/
def disconnect (fd : Int) (s : Server) : Server :=
  { s.asked (.closed fd) with
    electors := fun j =>
      if (s.electors j).fd = fd then { s.electors j with connected := false, fd := -1 }
      else s.electors j }

/-- A byte from `'0'` to `'2'`. -/
def IsVote (msg : UInt8) : Prop := 48 ≤ msg.toNat ∧ msg.toNat ≤ 50

instance : DecidablePred IsVote := fun _ => inferInstanceAs (Decidable (_ ∧ _))

/-- `msg - '0'`. -/
def voteOf (msg : UInt8) : Int := msg.toNat - 48

/-- `index`, for a byte from `'1'` to `'7'`. -/
def indexOf (msg : UInt8) : Option Elector :=
  if h : 49 ≤ msg.toNat ∧ msg.toNat ≤ 55 then some ⟨msg.toNat - 49, by omega⟩ else none

/-- The elector whose entry has the descriptor, the first one. -/
def registeredElector (fd : Int) (s : Server) : Option Elector :=
  (List.finRange 7).find? fun j => (s.electors j).fd = fd

/-- Lines 98 to 111, for a descriptor that is not registered. -/
def register (fd : Int) (msg : UInt8) (w : WriteResult) (s : Server) : Option Server :=
  match indexOf msg with
  | none => some s
  | some index =>
      if (s.electors index).connected then some (s.asked (.closed fd))
      else
        let s := s.set index { s.electors index with connected := true, fd := fd }
        match w with
        | .written => some (s.asked (.wrote fd welcomeMsg))
        | _ => none

/-- Lines 83 to 111. -/
def handleMsg (fd : Int) (msg : UInt8) (w : WriteResult) (s : Server) : Option Server :=
  match registeredElector fd s with
  | some j =>
      some (if IsVote msg then s.set j { s.electors j with vote := voteOf msg } else s)
  | none => register fd msg w s

/-- An event of the client `fd`; `junk` is the value of `msg` before the `read`, and `w` is how
the `write` ends, if it is reached.  Nothing after `ERR`. -/
def readEvent (s : Server) (fd : Int) (r : ReadResult) (junk : UInt8) (w : WriteResult) :
    Option Server :=
  match r with
  | .error => none
  | .bytes [] => handleMsg fd junk w (disconnect fd (s.asked (.read fd [])))
  | .bytes (msg :: bs) => handleMsg fd msg w (s.asked (.read fd (msg :: bs)))

/-! ### What is read off the log -/

/-- How many connections were accepted, and the number of the connection that each open
descriptor belongs to. -/
structure History where
  accepted : Nat
  conn : Int → Option Nat

def History.see (h : History) : Effect → History
  | .accepted fd => ⟨h.accepted + 1, Function.update h.conn fd (some h.accepted)⟩
  | .closed fd => { h with conn := Function.update h.conn fd none }
  | .read _ _ | .wrote _ _ => h

/-- What has happened, from the start of the server. -/
def history (log : List Effect) : History := log.foldl History.see ⟨0, fun _ => none⟩

@[simp] theorem history_snoc (log : List Effect) (e : Effect) :
    history (log ++ [e]) = (history log).see e := by
  simp [history]

@[simp] theorem history_asked (s : Server) (e : Effect) :
    history (s.asked e).log = (history s.log).see e :=
  history_snoc ..

@[simp] theorem log_set (s : Server) (j : Elector) (c : ClientState) : (s.set j c).log = s.log :=
  rfl

@[simp] theorem electors_asked (s : Server) (e : Effect) : (s.asked e).electors = s.electors := rfl

@[simp] theorem electors_set (s : Server) (j : Elector) (c : ClientState) :
    (s.set j c).electors j = c :=
  Function.update_self ..

/-- The connection an elector is bound to. -/
def Server.bound (s : Server) (j : Elector) : Option Nat := (history s.log).conn (s.electors j).fd

/-! ### The system -/

/-- What the system answers: the descriptor `accept` returns, or -1; or how the `read` and the
`write` of a client's event end, with the value `msg` has before. -/
inductive Input where
  | accept (clientFd : Int)
  | client (r : ReadResult) (junk : UInt8) (w : WriteResult)

/-- The server with its socket `sfd`.  A new connection gets a descriptor that is not in use;
nothing can be read from a descriptor that is closed, nor written to one that the event itself
has closed. -/
inductive Handle (sfd : Int) : Server → Int → Input → Server → Prop where
  | accept {s s' : Server} (clientFd : Int)
      (hnew : clientFd = -1 ∨ 0 ≤ clientFd ∧ clientFd ≠ sfd ∧
        (history s.log).conn clientFd = none)
      (hs : acceptEvent s clientFd = some s') : Handle sfd s sfd (.accept clientFd) s'
  | client {s s' : Server} {fd : Int} {r : ReadResult} {junk : UInt8} {w : WriteResult}
      (hfd : fd ≠ sfd) (hr : (history s.log).conn fd = none → r = .error)
      (hlen : ∀ bs, r = .bytes bs → bs.length ≤ 1) (hw : r = .bytes [] → w = .error)
      (hs : readEvent s fd r junk w = some s') : Handle sfd s fd (.client r junk w) s'

/-- The loop of `do_server`. -/
def loop (sfd : Int) : EventLoop Server Input where
  maxEvents := maxEvents
  watched s fd := fd = sfd ∨ (history s.log).conn fd ≠ none
  handle := Handle sfd

/-- Before the first `epoll_pwait`. -/
def begin : EventLoop.State Server := ⟨start, []⟩

/-! ### What one event does -/

variable {s s' : Server} {fd : Int} {msg junk : UInt8} {w : WriteResult}

theorem registeredElector_some {j : Elector} (h : registeredElector fd s = some j) :
    (s.electors j).fd = fd := by
  simpa using List.find?_some h

theorem registeredElector_none (h : registeredElector fd s = none) (j : Elector) :
    (s.electors j).fd ≠ fd := by
  simpa using List.find?_eq_none.mp h j (List.mem_finRange j)

/-- **One byte of a client.**  A client that is registered votes, or says nothing; another one is
bound to a free elector, is turned away from one that is not free, or says nothing. -/
theorem handleMsg_cases (h : handleMsg fd msg w s = some s') :
    (∃ j, (s.electors j).fd = fd ∧ IsVote msg ∧
      s' = s.set j { s.electors j with vote := voteOf msg }) ∨
    (∃ j, (s.electors j).fd = fd ∧ ¬ IsVote msg ∧ s' = s) ∨
    ((∀ j, (s.electors j).fd ≠ fd) ∧
      ((∃ j, indexOf msg = some j ∧ (s.electors j).connected = false ∧ w = .written ∧
          s' = (s.set j { s.electors j with connected := true, fd := fd }).asked
            (.wrote fd welcomeMsg)) ∨
        (∃ j, indexOf msg = some j ∧ (s.electors j).connected = true ∧
          s' = s.asked (.closed fd)) ∨
        (indexOf msg = none ∧ s' = s))) := by
  unfold handleMsg at h
  split at h
  · rename_i j hj
    have hfd := registeredElector_some hj
    by_cases hv : IsVote msg
    · rw [if_pos hv] at h
      exact .inl ⟨j, hfd, hv, (Option.some.inj h).symm⟩
    · rw [if_neg hv] at h
      exact .inr (.inl ⟨j, hfd, hv, (Option.some.inj h).symm⟩)
  · rename_i hnone
    refine .inr (.inr ⟨registeredElector_none hnone, ?_⟩)
    unfold register at h
    split at h
    · rename_i hi
      exact .inr (.inr ⟨hi, (Option.some.inj h).symm⟩)
    · rename_i index hi
      by_cases hc : (s.electors index).connected = true
      · rw [if_pos hc] at h
        exact .inr (.inl ⟨index, hi, hc, (Option.some.inj h).symm⟩)
      · rw [if_neg hc] at h
        cases w with
        | written =>
            exact .inl ⟨index, hi, by simpa using hc, rfl, (Option.some.inj h).symm⟩
        | epipe | error => cases h

theorem disconnect_fd_ne (hfd : fd ≠ -1) (s : Server) (j : Elector) :
    ((disconnect fd s).electors j).fd ≠ fd := by
  simp only [disconnect]
  split
  · exact Ne.symm hfd
  · exact ‹_›

/-- **The rest of the handler after the disconnect branch.**  No elector has the descriptor any
more, so it can only be turned away; to bind it ends in `ERR`. -/
theorem handleMsg_closed (hfd : fd ≠ -1) (s : Server) :
    handleMsg fd junk .error (disconnect fd s) =
      match indexOf junk with
      | none => some (disconnect fd s)
      | some j =>
          if (s.electors j).connected = true ∧ (s.electors j).fd ≠ fd then
            some ((disconnect fd s).asked (.closed fd))
          else none := by
  have hnone : registeredElector fd (disconnect fd s) = none :=
    List.find?_eq_none.mpr fun j _ => by simpa using disconnect_fd_ne hfd s j
  simp only [handleMsg, hnone, register]
  cases indexOf junk with
  | none => rfl
  | some j =>
      by_cases h : (s.electors j).fd = fd
      · simp [disconnect, h]
      · cases hc : (s.electors j).connected <;> simp [disconnect, h, hc]

end Sop2.Hre
