import Mathlib.Logic.Function.Basic
import Sop2.Support.Bytes
import Sop2.Support.EventLoop
import Sop2.Support.SlotTable

/-!
# Lab07 — Aigen — the server

`lab07/aigen/aigen.c`: the waiting room `clients[]` and one event of the loop of `main`, for a
listening socket (`acceptEvent`) or for a client (`readEvent`), over `Support.EventLoop`.

What the server asks of the system is kept, in order, in `log`.  The connections, the names they
have sent and the matches are read off it (`history`), so they do not depend on what the room
says.  A connection is known by the number in which it was accepted: a descriptor is given out
again after it is closed, a number is not.

`readEvent_cases`: a client's event disconnects it, matches it, puts it into a free slot, or
leaves it without one.
-/

namespace Sop2.Aigen
open Support

/-- `MAX_EVENTS`. -/
def maxEvents : Nat := 10

/-- `MAX_CLIENTS`. -/
def maxClients : Nat := 10

/-- The letters `'M'` and `'C'`. -/
def charM : UInt8 := 77

def charC : UInt8 := 67

/-- `client_state`; `name` has 16 bytes. -/
structure ClientState where
  fd : Int
  family : UInt8
  name : List UInt8
  deriving DecidableEq

/-- What the server has asked of the system. -/
inductive Effect where
  | accepted (fd : Int)
  /-- `read` has returned these bytes, none of them at the end of the stream. -/
  | read (fd : Int) (bytes : List UInt8)
  | wrote (fd : Int) (bytes : List UInt8)
  /-- A `write` that failed with `EPIPE`. -/
  | epipe (fd : Int)
  /-- Both messages of a match are out; `fd` has just arrived, `waiting` was in the room. -/
  | matched (fd waiting : Int)
  | closed (fd : Int)
  deriving DecidableEq

/-- `clients[]`, and what was asked of the system so far. -/
structure Server where
  clients : List ClientState
  log : List Effect

/-- Lines 51 to 55.  The names are not initialised. -/
def start (names : List (List UInt8)) : Server where
  clients := (List.range maxClients).map fun i => ⟨-1, 0, names.getD i []⟩
  log := []

/-- The server after one more request to the system. -/
def Server.asked (s : Server) (e : Effect) : Server := { s with log := s.log ++ [e] }

/-- `remove_client`. -/
def removeClient (fd : Int) (s : Server) : Server :=
  { s.asked (.closed fd) with
    clients := setFirst (fun c => c.fd = fd) ⟨-1, 0, List.replicate 16 0⟩ s.clients }

/-- An event of a listening socket, when `add_new_client` returns `clientFd`. -/
def acceptEvent (s : Server) (clientFd : Int) : Server :=
  if clientFd ≥ 0 then s.asked (.accepted clientFd) else s

/-- The first slot whose client is of another family than `family`. -/
def opponent (family : UInt8) (clients : List ClientState) : Option ClientState :=
  clients.find? fun c => c.fd ≠ -1 && c.family ≠ 0 && c.family ≠ family

/-- `"MATCH: %s"`.  A name without a NUL is read to its end here; `snprintf` reads on. -/
def message (name : List UInt8) : List UInt8 :=
  [77, 65, 84, 67, 72, 58, 32] ++ cString name

/-- `write`, unless it ends in `ERR`. -/
def write (fd : Int) (text : List UInt8) (s : Server) : WriteResult → Option Server
  | .written => some (s.asked (.wrote fd text))
  | .epipe => some (s.asked (.epipe fd))
  | .error => none

/-- `buf` after a `read` of `bs` into it. -/
def bufOf (bs : List UInt8) : List UInt8 := bs ++ List.replicate (16 - bs.length) 0

/-- The client takes the first free slot, if there is one. -/
def takeSlot (fd : Int) (family : UInt8) (buf : List UInt8) (clients : List ClientState) :
    List ClientState :=
  match clients.find? fun c => c.fd = -1 with
  | some c => setFirst (fun c => c.fd = -1) ⟨fd, family, strncpy c.name buf 15⟩ clients
  | none => clients

/-- An event of the client `fd`; `toNew` and `toWaiting` are how the two writes of a match end.
Nothing after `ERR`. -/
def readEvent (s : Server) (fd : Int) (r : ReadResult) (toNew toWaiting : WriteResult) :
    Option Server :=
  match r with
  | .error => some (removeClient fd s)
  | .bytes [] => some (removeClient fd (s.asked (.read fd [])))
  | .bytes (family :: bs) =>
      let s := s.asked (.read fd (family :: bs))
      let buf := bufOf (family :: bs)
      if family ≠ charM ∧ family ≠ charC then some (removeClient fd s)
      else
        match opponent family s.clients with
        | some c =>
            (write fd (message c.name) s toNew).bind fun s =>
            (write c.fd (message buf) s toWaiting).map fun s =>
              (removeClient c.fd (s.asked (.matched fd c.fd))).asked (.closed fd)
        | none => some { s with clients := takeSlot fd family buf s.clients }

/-- `m_count` and `c_count`, lines 140 to 147. -/
def finalCounts (clients : List ClientState) : Nat × Nat :=
  clients.foldl (fun (m, c) client =>
    if client.fd ≠ -1 then
      (if client.family = charM then m + 1 else m, if client.family = charC then c + 1 else c)
    else (m, c)) (0, 0)

/-! ### What is read off the log -/

/-- A first byte a name can have. -/
def Letter (b : UInt8) : Prop := b = charM ∨ b = charC

instance : DecidablePred Letter := fun _ => inferInstanceAs (Decidable (_ ∨ _))

/-- A connection, by the number in which it was accepted, and the first byte of the first valid
name it has sent. -/
structure Connection where
  id : Nat
  family : Option UInt8
  deriving DecidableEq

/-- The open connections by their descriptors, how many valid names of each family were read, how
many connections of each family were closed after their name and without a match, and the
matches, with the connection that arrived first. -/
structure History where
  accepted : Nat
  conn : Int → Option Connection
  arrivals : UInt8 → Nat
  departures : UInt8 → Nat
  matches_ : List (Nat × Nat)

/-- The connections that were matched. -/
def History.partners (h : History) : List Nat := h.matches_.flatMap fun p => [p.1, p.2]

def History.see (h : History) : Effect → History
  | .accepted fd =>
      { h with
        accepted := h.accepted + 1
        conn := Function.update h.conn fd (some ⟨h.accepted, none⟩) }
  | .read fd bytes =>
      match h.conn fd, bytes with
      | some c, b :: _ =>
          if Letter b then
            { h with
              conn := Function.update h.conn fd (some { c with family := c.family.or (some b) })
              arrivals := Function.update h.arrivals b (h.arrivals b + 1) }
          else h
      | _, _ => h
  | .matched fd waiting =>
      match h.conn fd, h.conn waiting with
      | some c, some c' => { h with matches_ := h.matches_ ++ [(c.id, c'.id)] }
      | _, _ => h
  | .closed fd =>
      match h.conn fd with
      | some c =>
          { h with
            conn := Function.update h.conn fd none
            departures :=
              match c.family with
              | some b =>
                  if c.id ∈ h.partners then h.departures
                  else Function.update h.departures b (h.departures b + 1)
              | none => h.departures }
      | none => h
  | .wrote _ _ | .epipe _ => h

theorem see_closed_none {h : History} {fd : Int} (hc : h.conn fd = none) :
    h.see (.closed fd) = h := by
  simp only [History.see, hc]

/-- Before the first event. -/
def History.begin : History := ⟨0, fun _ => none, fun _ => 0, fun _ => 0, []⟩

/-- What has happened, from the start of the server. -/
def history (log : List Effect) : History := log.foldl History.see .begin

@[simp] theorem history_snoc (log : List Effect) (e : Effect) :
    history (log ++ [e]) = (history log).see e := by
  simp [history]

@[simp] theorem history_asked (s : Server) (e : Effect) :
    history (s.asked e).log = (history s.log).see e :=
  history_snoc ..

/-- The connection on `fd` is open, has sent a valid name and has not been matched. -/
def History.Waiting (h : History) (fd : Int) : Prop :=
  ∃ c b, h.conn fd = some c ∧ c.family = some b ∧ c.id ∉ h.partners

instance (h : History) (fd : Int) : Decidable (h.Waiting fd) :=
  decidable_of_iff (∃ c ∈ h.conn fd, c.family.isSome = true ∧ c.id ∉ h.partners) (by
    simp only [Option.mem_def, Option.isSome_iff_exists, History.Waiting]
    exact ⟨fun ⟨c, hc, ⟨b, hb⟩, hn⟩ => ⟨c, b, hc, hb, hn⟩,
      fun ⟨c, b, hc, hb, hn⟩ => ⟨c, hc, ⟨b, hb⟩, hn⟩⟩)

/-! ### What one event does -/

theorem write_eq {fd : Int} {text : List UInt8} {s s' : Server} {w : WriteResult}
    (h : write fd text s w = some s') :
    s'.clients = s.clients ∧ history s'.log = history s.log := by
  cases w with
  | written => cases h; exact ⟨rfl, history_asked ..⟩
  | epipe => cases h; exact ⟨rfl, history_asked ..⟩
  | error => cases h

/-- **One event of a client.**  It disconnects the client, because nothing could be read or what
was read is no name; or matches it with the first client of the other family, and closes both; or
gives it the first free slot, if there is one. -/
theorem readEvent_cases {s s' : Server} {fd : Int} {r : ReadResult} {w w' : WriteResult}
    (h : readEvent s fd r w w' = some s') :
    (r = .error ∧ s' = removeClient fd s) ∨
    (∃ bs, r = .bytes bs ∧ (∀ b ∈ bs.head?, ¬ Letter b) ∧
      s' = removeClient fd (s.asked (.read fd bs))) ∨
    ∃ b bs, r = .bytes (b :: bs) ∧ Letter b ∧
      ((∃ (c : ClientState) (t : Server), opponent b s.clients = some c ∧ w' ≠ .error ∧
          t.clients = s.clients ∧
          history t.log = (history s.log).see (.read fd (b :: bs)) ∧
          s' = (removeClient c.fd (t.asked (.matched fd c.fd))).asked (.closed fd)) ∨
        (opponent b s.clients = none ∧
          s' = { s.asked (.read fd (b :: bs)) with
            clients := takeSlot fd b (bufOf (b :: bs)) s.clients })) := by
  match r with
  | .error => exact .inl ⟨rfl, by simpa [readEvent, eq_comm] using h⟩
  | .bytes [] => exact .inr (.inl ⟨[], rfl, by simp, by simpa [readEvent, eq_comm] using h⟩)
  | .bytes (b :: bs) =>
      right
      simp only [readEvent] at h
      split at h
      · rename_i hb
        refine .inl ⟨b :: bs, rfl, ?_, by simpa [eq_comm] using h⟩
        rintro _ ⟨⟩ (rfl | rfl)
        · exact hb.1 rfl
        · exact hb.2 rfl
      · rename_i hb
        have hl : Letter b := by
          by_contra hl
          exact hb ⟨fun e => hl (.inl e), fun e => hl (.inr e)⟩
        refine .inr ⟨b, bs, rfl, hl, ?_⟩
        split at h
        · rename_i c hc
          obtain ⟨t, ht, h⟩ := Option.bind_eq_some_iff.mp h
          obtain ⟨u, hu, rfl⟩ := Option.map_eq_some_iff.mp h
          obtain ⟨htc, hth⟩ := write_eq ht
          obtain ⟨huc, huh⟩ := write_eq hu
          have hw' : w' ≠ .error := by rintro rfl; cases hu
          refine .inl ⟨c, u, hc, hw', huc.trans htc, ?_, rfl⟩
          rw [huh, hth, history_asked]
        · rename_i hc
          exact .inr ⟨hc, (Option.some.inj h).symm⟩

/-- The descriptors in `clients[]`. -/
def Server.fds (s : Server) : List Int := s.clients.map ClientState.fd

@[simp] theorem fds_asked (s : Server) (e : Effect) : (s.asked e).fds = s.fds := rfl

theorem fds_removeClient (fd : Int) (s : Server) :
    (removeClient fd s).fds = s.fds.replace fd (-1) :=
  map_setFirst ClientState.fd fd ⟨-1, 0, List.replicate 16 0⟩ s.clients

theorem fds_takeSlot (fd : Int) (b : UInt8) (buf : List UInt8) (clients : List ClientState) :
    (takeSlot fd b buf clients).map ClientState.fd =
      (clients.map ClientState.fd).replace (-1) fd := by
  unfold takeSlot
  split
  · exact map_setFirst ClientState.fd (-1) _ clients
  · rename_i h
    rw [List.replace_of_not_mem]
    simpa using h

/-- The client that is found is in a slot, and of another family. -/
theorem opponent_some {b : UInt8} {clients : List ClientState} {c : ClientState}
    (h : opponent b clients = some c) : c ∈ clients ∧ c.fd ≠ -1 ∧ c.family ≠ b := by
  have hp := List.find?_some h
  simp only [ne_eq, decide_not, Bool.and_eq_true, Bool.not_eq_eq_eq_not, Bool.not_true,
    decide_eq_false_iff_not] at hp
  exact ⟨List.mem_of_find?_eq_some h, hp.1.1, hp.2⟩

/-! ### The system -/

/-- What the system answers: the descriptor `accept` returns, or -1; or how the `read` and the
`write`s of a client's event end. -/
inductive Input where
  | accept (clientFd : Int)
  | client (r : ReadResult) (toNew toWaiting : WriteResult)

/-- The server with its sockets `localSfd` and `tcpSfd`.  A new connection gets a descriptor that
is not in use; nothing can be read from a descriptor that is closed, nor written to it. -/
inductive Handle (localSfd tcpSfd : Int) : Server → Int → Input → Server → Prop where
  | accept {s : Server} {fd : Int} (clientFd : Int) (hfd : fd = localSfd ∨ fd = tcpSfd)
      (hnew : clientFd = -1 ∨ 0 ≤ clientFd ∧ clientFd ≠ localSfd ∧ clientFd ≠ tcpSfd ∧
        (history s.log).conn clientFd = none) :
      Handle localSfd tcpSfd s fd (.accept clientFd) (acceptEvent s clientFd)
  | client {s s' : Server} {fd : Int} {r : ReadResult} {toNew toWaiting : WriteResult}
      (hfd : fd ≠ localSfd ∧ fd ≠ tcpSfd)
      (hr : (history s.log).conn fd = none → r = .error)
      (hlen : ∀ bs, r = .bytes bs → bs.length ≤ 15)
      (hw : ∀ b bs c, r = .bytes (b :: bs) → opponent b s.clients = some c →
        (history s.log).conn c.fd = none → toWaiting = .error)
      (hs : readEvent s fd r toNew toWaiting = some s') :
      Handle localSfd tcpSfd s fd (.client r toNew toWaiting) s'

/-- The loop of `main`. -/
def loop (localSfd tcpSfd : Int) : EventLoop Server Input where
  maxEvents := maxEvents
  watched s fd := fd = localSfd ∨ fd = tcpSfd ∨ (history s.log).conn fd ≠ none
  handle := Handle localSfd tcpSfd

/-- Before the first `epoll_pwait`. -/
def begin (names : List (List UInt8)) : EventLoop.State Server := ⟨start names, []⟩

/-! ### The connections after one more request -/

section
variable {h : History} {fd : Int}

theorem see_accepted (h : History) (fd : Int) :
    h.see (.accepted fd) =
      { h with
        accepted := h.accepted + 1
        conn := Function.update h.conn fd (some ⟨h.accepted, none⟩) } := rfl

/-- A name that is read. -/
theorem see_read {b : UInt8} {bs : List UInt8} {c : Connection} (hb : Letter b)
    (hc : h.conn fd = some c) :
    h.see (.read fd (b :: bs)) =
      { h with
        conn := Function.update h.conn fd (some { c with family := c.family.or (some b) })
        arrivals := Function.update h.arrivals b (h.arrivals b + 1) } := by
  simp only [History.see, hc, if_pos hb]

/-- What is read and is no name changes nothing. -/
theorem see_read_of_not {bs : List UInt8} (hb : ∀ b ∈ bs.head?, ¬ Letter b) :
    h.see (.read fd bs) = h := by
  cases bs with
  | nil => cases hc : h.conn fd <;> simp only [History.see, hc]
  | cons b bs =>
      have hl : ¬ Letter b := hb b rfl
      cases hc : h.conn fd with
      | none => simp only [History.see, hc]
      | some c => simp only [History.see, hc, if_neg hl]

theorem see_matched_some {w : Int} {c c' : Connection} (hc : h.conn fd = some c)
    (hw : h.conn w = some c') :
    h.see (.matched fd w) = { h with matches_ := h.matches_ ++ [(c.id, c'.id)] } := by
  simp only [History.see, hc, hw]

theorem see_closed_some {c : Connection} (hc : h.conn fd = some c) :
    h.see (.closed fd) =
      { h with
        conn := Function.update h.conn fd none
        departures :=
          match c.family with
          | some b =>
              if c.id ∈ h.partners then h.departures
              else Function.update h.departures b (h.departures b + 1)
          | none => h.departures } := by
  simp only [History.see, hc]

/-- The end of a connection that was matched is no departure. -/
theorem see_closed_partner {c : Connection} (hc : h.conn fd = some c) (hp : c.id ∈ h.partners) :
    h.see (.closed fd) = { h with conn := Function.update h.conn fd none } := by
  rw [see_closed_some hc]
  cases c.family with
  | none => rfl
  | some b => dsimp only; rw [if_pos hp]

theorem conn_closed (h : History) (fd : Int) :
    (h.see (.closed fd)).conn = Function.update h.conn fd none := by
  cases hc : h.conn fd with
  | none => rw [see_closed_none hc, ← hc, Function.update_eq_self]
  | some c => rw [see_closed_some hc]

theorem matches_closed (h : History) (fd : Int) :
    (h.see (.closed fd)).matches_ = h.matches_ := by
  cases hc : h.conn fd with
  | none => rw [see_closed_none hc]
  | some c => rw [see_closed_some hc]

theorem accepted_closed (h : History) (fd : Int) :
    (h.see (.closed fd)).accepted = h.accepted := by
  cases hc : h.conn fd with
  | none => rw [see_closed_none hc]
  | some c => rw [see_closed_some hc]

end

end Sop2.Aigen
