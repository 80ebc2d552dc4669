import Sop2.Lab07.L7.Bulk
import Sop2.Lab07.L7.Calculator

/-!
# Lab07 — L7 — the service

`doServer` of `l7-1_server.c`, with `add_new_client`, and the clients of its two listening sockets,
who connect, send, shut down their end, close it or reset the connection, in any order and at any
time.  Each call of `read` and `write` of `bulk_read` and `bulk_write` is a step of its own.  The
array `data` is one for all connections.

`SIGINT` is blocked but for the time that the server waits in `epoll_pwait`, so that no other call is
interrupted.  Twenty bytes always fit into a socket.  `epoll` reports a listening socket for as long
as there is a connection in its queue; a connection that is reset stays there.

* `words_bytes`: five words that have been sent and received.
* `Grows`: what a client can do to its connection.
-/

namespace Sop2.L7
open Support
open Bulk (Reading Writing Outcome Reads Writes)

/-! ### Words and bytes -/

/-- `sizeof(int32_t[5])`. -/
def size : Nat := 20

/-- `data`, as it lies in the memory. -/
def words (o : ByteOrder) (mem : Nat → UInt8) : Data :=
  fun i => o.load ((List.range 4).map fun j => mem (4 * i + j))

/-- The bytes of `data`. -/
def bytes (o : ByteOrder) (data : Data) : List UInt8 :=
  (List.ofFn fun i => o.store (data i)).flatten

/-- The memory, with these bytes at its beginning. -/
def memory (bs : List UInt8) (mem : Nat → UInt8) (i : Nat) : UInt8 := bs.getD i (mem i)

variable {o o' : ByteOrder} {data : Data} {mem mem' : Nat → UInt8} {bs : List UInt8}

@[simp] theorem length_bytes (o : ByteOrder) (data : Data) : (bytes o data).length = size := by
  simp [bytes, size]

theorem words_congr (h : ∀ i < size, mem i = mem' i) : words o mem = words o mem' := by
  funext i
  rw [words, words]
  congr 1
  refine List.map_congr_left fun j hj => h _ ?_
  have hj := List.mem_range.mp hj
  have hi := i.isLt
  change 4 * i.val + j < 20
  omega

/-- The answer to a request of twenty bytes; none if its result has no defined value. -/
def answerTo (o : ByteOrder) (request : List UInt8) : Option (List UInt8) :=
  (calculate o (words o (memory request fun _ => 0))).toOption.map (bytes o)

/-- `local_listen_socket` and `tcp_listen_socket`. -/
inductive Listener where
  | localSocket
  | tcp
  deriving DecidableEq

/-- What a client has done with its end of the connection: it can still send, or it cannot; it has
closed it; or the connection is reset. -/
inductive Peer where
  | sends
  | silent
  | closed
  | reset
  deriving DecidableEq

/-- Where a connection is. -/
inductive Phase where
  | new
  | queued
  | accepted
  | closed
  deriving DecidableEq

/-- A connection, with all that the client has sent and all that the server has written. -/
structure Conn where
  phase : Phase
  peer : Peer
  sent : List UInt8
  written : List UInt8

variable {C : Type*}

/-- Where the server is in `doServer`, and the events that are still to be handled. -/
inductive Place (C : Type*) where
  /-- `while (do_work)`. -/
  | loop
  /-- `epoll_pwait`. -/
  | waiting
  | events (rest : List Listener)
  | reading (c : C) (r : Reading) (rest : List Listener)
  | calculating (c : C) (rest : List Listener)
  | writing (c : C) (w : Writing) (rest : List Listener)
  | closing (c : C) (rest : List Listener)
  | ended
  /-- `ERR`, and the connection that it is about. -/
  | failed (c : Option C)
  /-- `calculate` has no defined result. -/
  | undefined (c : C)

structure State (C : Type*) where
  place : Place C
  doWork : Bool
  /-- `SIGINT` is pending. -/
  sigint : Bool
  /-- `data`. -/
  data : Nat → UInt8
  queue : Listener → List C
  conn : C → Conn

/-- Nobody has connected; `data` is not initialized. -/
def begin (C : Type*) (data : Nat → UInt8) : State C where
  place := .loop
  doWork := true
  sigint := false
  data := data
  queue _ := []
  conn _ := ⟨.new, .sends, [], []⟩

/-- The stream that the server reads. -/
def Conn.stream (k : Conn) (i : Nat) : UInt8 := k.sent.getD i 0

/-- What a `read` can come to, when so much has been read. -/
def Conn.Gives (k : Conn) (taken : Nat) : Outcome → Prop
  | .moved n => taken + n ≤ k.sent.length
  | .eof => taken = k.sent.length ∧ k.peer ≠ .sends
  | .error => k.peer = .reset
  | .eintr => False

/-- What a client can do to its end, when it is so. -/
def Peer.Turns : Peer → Peer → Prop
  | .sends, .silent | .sends, .closed | .sends, .reset | .silent, .closed | .silent, .reset
  | .closed, .reset => True
  | _, _ => False

/-- Behind `bulk_read`. -/
def bulkReadDone (c : C) (rest : List Listener) (size : Int) : Place C :=
  if size < 0 then .failed (some c)
  else if size = L7.size then .calculating c rest
  else .closing c rest

variable [DecidableEq C]

/-- The state with another record for the connection `c`. -/
def State.set (s : State C) (c : C) (k : Conn) : State C :=
  { s with conn := Function.update s.conn c k }

omit [DecidableEq C] in
/-- The server goes on. -/
def State.go (s : State C) (p : Place C) : State C := { s with place := p }

omit [DecidableEq C] in
/-- `calculate(data)`. -/
def State.calculated (o : ByteOrder) (s : State C) (c : C) (rest : List Listener) : State C :=
  match calculate o (words o s.data) with
  | .ok data =>
      { s with data := memory (bytes o data) s.data, place := .writing c (.start size) rest }
  | .error _ => s.go (.undefined c)

/-- Who takes a step. -/
inductive Actor (C : Type*) where
  | server
  | client (c : C)
  | signal

/-- One step. -/
inductive Step (o : ByteOrder) : State C → Actor C → State C → Prop where
  | serve {s : State C} (h : s.place = .loop) (hwork : s.doWork = true) :
      Step o s .server (s.go .waiting)
  | stop {s : State C} (h : s.place = .loop) (hwork : s.doWork = false) :
      Step o s .server (s.go .ended)
  | ready {s : State C} (events : List Listener) (h : s.place = .waiting) (hne : events ≠ [])
      (hnodup : events.Nodup) (hevents : ∀ l, l ∈ events ↔ s.queue l ≠ []) :
      Step o s .server (s.go (.events events))
  /-- `EINTR`, behind `sigint_handler`. -/
  | eintr {s : State C} (h : s.place = .waiting) (hsigint : s.sigint = true) :
      Step o s .server { s with place := .loop, doWork := false, sigint := false }
  | handled {s : State C} (h : s.place = .events []) : Step o s .server (s.go .loop)
  | accept {s : State C} (l : Listener) (rest : List Listener) (c : C) (cs : List C)
      (h : s.place = .events (l :: rest)) (hqueue : s.queue l = c :: cs) :
      Step o s .server
        { s.set c { s.conn c with phase := .accepted } with
          place := .reading c (.start s.data size) rest
          queue := Function.update s.queue l cs }
  /-- `add_new_client` returns -1, and from that `bulk_read` cannot read. -/
  | eagain {s : State C} (l : Listener) (rest : List Listener)
      (h : s.place = .events (l :: rest)) (hqueue : s.queue l = []) :
      Step o s .server (s.go (.failed none))
  | read {s : State C} (c : C) (r : Reading) (rest : List Listener) (out : Outcome) (r' : Reading)
      (h : s.place = .reading c r rest) (hread : Reads (s.conn c).stream r out r')
      (hgives : (s.conn c).Gives r.taken out) : Step o s .server (s.go (.reading c r' rest))
  | returned {s : State C} (c : C) (r : Reading) (rest : List Listener) (size : Int)
      (h : s.place = .reading c r rest) (hreturned : r.loop.returned = some size) :
      Step o s .server { s with place := bulkReadDone c rest size, data := r.mem }
  | calculate {s : State C} (c : C) (rest : List Listener) (h : s.place = .calculating c rest) :
      Step o s .server (s.calculated o c rest)
  | write {s : State C} (c : C) (w : Writing) (rest : List Listener) (n : Nat) (w' : Writing)
      (h : s.place = .writing c w rest) (hwrite : Writes s.data w (.moved n) w') :
      Step o s .server
        ((s.set c { s.conn c with written := w'.out }).go (.writing c w' rest))
  | wrote {s : State C} (c : C) (w : Writing) (rest : List Listener) (size : Int)
      (h : s.place = .writing c w rest) (hreturned : w.loop.returned = some size)
      (hsize : 0 ≤ size) : Step o s .server (s.go (.closing c rest))
  /-- `bulk_write` returns -1, and `errno` is `EPIPE`. -/
  | epipe {s : State C} (c : C) (w : Writing) (rest : List Listener) (w' : Writing)
      (h : s.place = .writing c w rest) (hwrite : Writes s.data w .error w')
      (hpeer : (s.conn c).peer = .closed ∨ (s.conn c).peer = .reset) :
      Step o s .server (s.go (.closing c rest))
  /-- And another. -/
  | writeFails {s : State C} (c : C) (w : Writing) (rest : List Listener) (w' : Writing)
      (h : s.place = .writing c w rest) (hwrite : Writes s.data w .error w')
      (hpeer : (s.conn c).peer = .reset) : Step o s .server (s.go (.failed (some c)))
  | close {s : State C} (c : C) (rest : List Listener) (h : s.place = .closing c rest) :
      Step o s .server
        ((s.set c { s.conn c with phase := .closed }).go (.events rest))
  | connect {s : State C} (l : Listener) (c : C) (h : (s.conn c).phase = .new) :
      Step o s (.client c)
        { s.set c { s.conn c with phase := .queued } with
          queue := Function.update s.queue l (s.queue l ++ [c]) }
  | send {s : State C} (c : C) (bs : List UInt8) (h : (s.conn c).phase ≠ .new)
      (hpeer : (s.conn c).peer = .sends) :
      Step o s (.client c) (s.set c { s.conn c with sent := (s.conn c).sent ++ bs })
  | hangUp {s : State C} (c : C) (p : Peer) (h : (s.conn c).phase ≠ .new)
      (hpeer : (s.conn c).peer.Turns p) :
      Step o s (.client c) (s.set c { s.conn c with peer := p })
  | sigint {s : State C} : Step o s .signal { s with sigint := true }

/-! ### What a client can do -/

/-- What a client can do to its connection, once it is there. -/
structure Grows (k k' : Conn) : Prop where
  phase : k'.phase = k.phase
  written : k'.written = k.written
  sent : k.sent <+: k'.sent
  quiet : k.peer ≠ .sends → k'.sent = k.sent ∧ k'.peer ≠ .sends
  gone : k.peer = .closed ∨ k.peer = .reset → k'.peer = .closed ∨ k'.peer = .reset
  reset : k.peer = .reset → k'.peer = .reset

omit [DecidableEq C] in
theorem Grows.refl (k : Conn) : Grows k k :=
  ⟨rfl, rfl, List.prefix_rfl, fun h => ⟨rfl, h⟩, id, id⟩

theorem grows_send {k : Conn} (bs : List UInt8) (h : k.peer = .sends) :
    Grows k { k with sent := k.sent ++ bs } where
  phase := rfl
  written := rfl
  sent := List.prefix_append ..
  quiet hpeer := absurd h hpeer
  gone := id
  reset := id

theorem grows_hangUp {k : Conn} {p : Peer} (h : k.peer.Turns p) : Grows k { k with peer := p } where
  phase := rfl
  written := rfl
  sent := List.prefix_rfl
  quiet hpeer := by
    refine ⟨rfl, ?_⟩
    rintro rfl
    cases hk : k.peer <;> rw [hk] at h <;> exact h
  gone hgone := by
    rcases hgone with hk | hk <;> rw [hk] at h <;> cases p <;> first | exact h.elim | exact .inr rfl
  reset hreset := by
    rw [hreset] at h
    cases p <;> exact h.elim

end Sop2.L7
