import Mathlib.Algebra.Order.BigOperators.Group.Finset
import Mathlib.Data.List.Nodup
import Mathlib.Logic.Function.Basic
import Sop2.Support.Bytes
import Sop2.Support.Runs
import Sop2.Support.Tally

/-!
# Lab07 — pidsumming — the server

`lab07/pidsumming/sop-server.c` with `bulk_read` of its `common.h`.  A client connects, sends a
request of eleven bytes, its pid in decimal with a NUL behind, and waits for the answer; TCP
delivers the bytes in pieces, at any time.

A `read` of `bulk_read` is one step, and bytes may arrive between two of them.  The sockets of the
clients do not block: a `read` that finds nothing fails with `EAGAIN`, and the server takes every
failure but `ECONNRESET` for the end (`ERR`).  `SIGINT` is blocked but for the time that the server
waits in `epoll_pwait`.

* `Sound`: the invariant.  What a client has sent is in the buffer of the server, in the socket, or
  on its way.
* `Sound.effort_lt`: every move of the server uses something up of what the clients have brought.
* `answer_law`: every client gets the sum of its digits once its eleven bytes have arrived, and the
  server goes on until `SIGINT`, exactly as long as no `read` finds its socket empty.
-/

namespace Sop2.Pidsumming
open Support

/-- `PID_LENGTH`. -/
def pidLength : Nat := 11

/-- `MAX_EVENTS`. -/
def maxEvents : Nat := 10

/-- What a client sends: its pid in decimal, a NUL, and whatever its buffer holds behind. -/
structure Request where
  digits : List (Fin 10)
  rest : List UInt8
  nonempty : digits ≠ []
  length : digits.length + 1 + rest.length = pidLength

/-- The character of a digit. -/
def digitChar (d : Fin 10) : UInt8 := .ofNat (48 + d)

namespace Request

def bytes (r : Request) : List UInt8 := r.digits.map digitChar ++ 0 :: r.rest

/-- The sum of the digits of the pid. -/
def digitSum (r : Request) : Nat := (r.digits.map Fin.val).sum

end Request

/-- `sum` after the loop over `buf`. -/
def sumDigits : List UInt8 → Nat
  | [] => 0
  | c :: cs =>
      if c = 0 then 0
      else (if 48 ≤ c.toNat ∧ c.toNat ≤ 57 then c.toNat - 48 else 0) + sumDigits cs

/-- `htons((int16_t)sum)` as it lies in memory. -/
def answerOf (sum : Nat) : List UInt8 := [.ofNat (sum / 256), .ofNat sum]

/-- Where the connection of a client is. -/
inductive Phase where
  | before
  | pending
  | accepted
  | closed

/-- A descriptor that `epoll_pwait` returns. -/
inductive Event (ι : Type*) where
  | sfd
  | client (i : ι)

/-- Where the server is; `reading i buf events` in `bulk_read`, with `buf` so far. -/
inductive Place (ι : Type*) where
  | waiting
  | handling (events : List (Event ι))
  | reading (i : ι) (buf : List UInt8) (events : List (Event ι))
  /-- Behind the loop. -/
  | left
  /-- `ERR`. -/
  | failed

/-- The connection of a client. -/
structure Conn where
  phase : Phase
  /-- What the client has sent and TCP has not delivered. -/
  coming : List UInt8
  /-- What is in the socket of the server. -/
  socket : List UInt8
  answer : Option (List UInt8)

/-- The server and the connections. -/
structure State (ι : Type*) where
  server : Place ι
  highestSum : Int
  conn : ι → Conn

variable {ι : Type*} [DecidableEq ι]

/-- No client has connected. -/
def begin (request : ι → Request) : State ι :=
  ⟨.waiting, -1, fun i => ⟨.before, (request i).bytes, [], none⟩⟩

/-- The state with another record for the connection `i`. -/
def State.set (s : State ι) (i : ι) (c : Conn) : State ι :=
  { s with conn := Function.update s.conn i c }

/-- Lines 108 to 130: the client `i` gets its answer. -/
def respond (s : State ι) (i : ι) (buf : List UInt8) : State ι :=
  let sum := sumDigits buf
  { s.set i { s.conn i with phase := .closed, answer := some (answerOf sum) } with
    highestSum := if (sum : Int) > s.highestSum then sum else s.highestSum }

/-- A descriptor that is ready. -/
def Ready (s : State ι) : Event ι → Prop
  | .sfd => ∃ i, (s.conn i).phase = .pending
  | .client i => (s.conn i).phase = .accepted ∧ (s.conn i).socket ≠ []

inductive Label (ι : Type*) where
  | connect (i : ι)
  | deliver (i : ι)
  | sigint
  | wait
  | accept
  | opens
  | read
  | next

/-- The server moves, and not because of `SIGINT`. -/
def Label.ofServer : Label ι → Bool
  | .connect _ => false
  | .deliver _ => false
  | .sigint => false
  | _ => true

/-- A client connects. -/
def Label.connects : Label ι → Bool
  | .connect _ => true
  | _ => false

/-- One step of the network or of the server. -/
inductive Step : State ι → Label ι → State ι → Prop where
  | connect {s : State ι} (i : ι) (h : (s.conn i).phase = .before) :
      Step s (.connect i) (s.set i { s.conn i with phase := .pending })
  | deliver {s : State ι} (i : ι) (k : Nat)
      (h : (s.conn i).phase = .pending ∨ (s.conn i).phase = .accepted) :
      Step s (.deliver i)
        (s.set i { s.conn i with
          coming := (s.conn i).coming.drop k
          socket := (s.conn i).socket ++ (s.conn i).coming.take k })
  | sigint {s : State ι} (h : s.server = .waiting) : Step s .sigint { s with server := .left }
  | wait {s : State ι} (events : List (Event ι)) (h : s.server = .waiting) (hne : events ≠ [])
      (hlen : events.length ≤ maxEvents) (hn : events.Nodup) (hr : ∀ e ∈ events, Ready s e) :
      Step s .wait { s with server := .handling events }
  | accept {s : State ι} (i : ι) (events : List (Event ι))
      (h : s.server = .handling (.sfd :: events)) (hi : (s.conn i).phase = .pending) :
      Step s .accept
        { s.set i { s.conn i with phase := .accepted } with server := .handling events }
  | opens {s : State ι} (i : ι) (events : List (Event ι))
      (h : s.server = .handling (.client i :: events)) :
      Step s .opens { s with server := .reading i [] events }
  /-- A `read` that gets `k` bytes, not the last ones. -/
  | read {s : State ι} (i : ι) (buf : List UInt8) (events : List (Event ι)) (k : Nat)
      (h : s.server = .reading i buf events) (hk : 1 ≤ k) (hs : k ≤ (s.conn i).socket.length)
      (hlen : buf.length + k < pidLength) :
      Step s .read
        { s.set i { s.conn i with socket := (s.conn i).socket.drop k } with
          server := .reading i (buf ++ (s.conn i).socket.take k) events }
  /-- A `read` that gets the last `k` bytes. -/
  | readLast {s : State ι} (i : ι) (buf : List UInt8) (events : List (Event ι)) (k : Nat)
      (h : s.server = .reading i buf events) (hk : 1 ≤ k) (hs : k ≤ (s.conn i).socket.length)
      (hlen : buf.length + k = pidLength) :
      Step s .read
        (respond
          { s.set i { s.conn i with socket := (s.conn i).socket.drop k } with
            server := .handling events }
          i (buf ++ (s.conn i).socket.take k))
  /-- `EAGAIN`. -/
  | readFails {s : State ι} (i : ι) (buf : List UInt8) (events : List (Event ι))
      (h : s.server = .reading i buf events) (hs : (s.conn i).socket = []) :
      Step s .read { s with server := .failed }
  | next {s : State ι} (h : s.server = .handling []) : Step s .next { s with server := .waiting }

/-- `highest` is the greatest sum that a client got, or `-1` when none got one. -/
def Highest (request : ι → Request) (conn : ι → Conn) (highest : Int) : Prop :=
  (∀ i, (conn i).answer ≠ none → ((request i).digitSum : Int) ≤ highest) ∧
    (highest = -1 ∧ (∀ i, (conn i).answer = none) ∨
      ∃ i, (conn i).answer ≠ none ∧ highest = (request i).digitSum)

/-- What the clients have got, and what the server has made of it. -/
structure Lawful (request : ι → Request) (s : State ι) : Prop where
  alive : s.server ≠ .failed
  moves : s.server = .waiting ∨ s.server = .left ∨ ∃ l t, l.ofServer = true ∧ Step s l t
  answers : ∀ i a, (s.conn i).answer = some a →
    a.length = 2 ∧ beNat a = (request i).digitSum ∧ (s.conn i).coming = []
  highest : Highest request s.conn s.highestSum
  /-- When there is nothing to do, nobody is waiting for an answer. -/
  quiet : s.server = .waiting → (∀ e, ¬ Ready s e) →
    ∀ i, (s.conn i).phase ≠ .before → (s.conn i).coming = [] → (s.conn i).answer ≠ none

/-- A `read` does not find the socket empty. -/
def Fed (s : State ι) (l : Label ι) (_ : State ι) : Prop :=
  l = .read → ∀ i buf events, s.server = .reading i buf events → (s.conn i).socket ≠ []

/-! ### One request -/

theorem digitChar_toNat (d : Fin 10) : (digitChar d).toNat = 48 + d := by
  have := d.isLt
  rw [digitChar, UInt8.toNat_ofNat', Nat.mod_eq_of_lt (by omega)]

theorem digitChar_ne_zero (d : Fin 10) : digitChar d ≠ 0 := by
  intro h
  have := congrArg UInt8.toNat h
  rw [digitChar_toNat] at this
  simp at this

theorem Request.bytes_length (r : Request) : r.bytes.length = pidLength := by
  have := r.length
  simp only [bytes, List.length_append, List.length_map, List.length_cons]
  omega

/-- The loop stops at the NUL, with the sum of the digits before it. -/
theorem sumDigits_bytes (r : Request) : sumDigits r.bytes = r.digitSum := by
  unfold Request.bytes Request.digitSum
  generalize r.digits = digits
  induction digits with
  | nil => simp [sumDigits]
  | cons d digits ih =>
      have := d.isLt
      rw [List.map_cons, List.cons_append, sumDigits, if_neg (digitChar_ne_zero d), digitChar_toNat,
        if_pos (by omega), ih, List.map_cons, List.sum_cons]
      omega

theorem Request.digitSum_lt (r : Request) : r.digitSum < 100 := by
  have hsum : ∀ digits : List (Fin 10), (digits.map Fin.val).sum ≤ 9 * digits.length := by
    intro digits
    induction digits with
    | nil => simp
    | cons d digits ih =>
        have := d.isLt
        simp only [List.map_cons, List.sum_cons, List.length_cons]
        omega
  have := hsum r.digits
  have := r.length
  unfold pidLength at this
  unfold digitSum
  omega

theorem beNat_answerOf {sum : Nat} (h : sum < 100) : beNat (answerOf sum) = sum := by
  simp only [beNat, answerOf, List.foldl_cons, List.foldl_nil, UInt8.toNat_ofNat']
  omega

/-! ### What was sent -/

/-- The events that are still to be handled. -/
def Place.events : Place ι → List (Event ι)
  | .handling events => events
  | .reading _ _ events => events
  | _ => []

/-- The bytes of the client `i` that the server has read. -/
def Place.held (i : ι) : Place ι → List UInt8
  | .reading j buf _ => if j = i then buf else []
  | _ => []

/-- Of a client that sends `r`, with `held` in the buffer of the server. -/
structure Conn.Sound (r : Request) (held : List UInt8) (c : Conn) : Prop where
  unanswered : c.phase ≠ .closed →
    c.answer = none ∧ held ++ (c.socket ++ c.coming) = r.bytes
  answered : c.phase = .closed →
    c.answer = some (answerOf r.digitSum) ∧ c.coming = [] ∧ c.socket = []

/-- Every request is where it should be, and the events are of connections that are there. -/
structure Sound (request : ι → Request) (s : State ι) : Prop where
  alive : s.server ≠ .failed
  conn : ∀ i, (s.conn i).Sound (request i) (s.server.held i)
  reading : ∀ i buf events, s.server = .reading i buf events →
    (s.conn i).phase = .accepted ∧ buf.length < pidLength ∧ .client i ∉ events
  batch : ∀ i, .client i ∈ s.server.events → (s.conn i).phase = .accepted
  pending : .sfd ∈ s.server.events → ∃ i, (s.conn i).phase = .pending
  nodup : s.server.events.Nodup
  highest : Highest request s.conn s.highestSum

variable {request : ι → Request} {s t : State ι} {l : Label ι}

theorem sound_begin (request : ι → Request) : Sound request (begin request) where
  alive := nofun
  conn _ := ⟨fun _ => ⟨rfl, rfl⟩, nofun⟩
  reading := nofun
  batch := nofun
  pending := nofun
  nodup := List.nodup_nil
  highest := ⟨fun _ h => (h rfl).elim, .inl ⟨rfl, fun _ => rfl⟩⟩

omit [DecidableEq ι] in
/-- Only the answers count. -/
theorem Highest.congr {conn conn' : ι → Conn} {highest : Int} (h : Highest request conn highest)
    (ha : ∀ i, (conn' i).answer = (conn i).answer) : Highest request conn' highest := by
  simpa only [Highest, ha] using h

/-- One more client gets its sum. -/
theorem Highest.answer {conn : ι → Conn} {highest : Int} (h : Highest request conn highest)
    {i : ι} {c : Conn} (hi : (conn i).answer = none) (hc : c.answer ≠ none) :
    Highest request (Function.update conn i c)
      (if ((request i).digitSum : Int) > highest then (request i).digitSum else highest) := by
  have hself : (Function.update conn i c i).answer ≠ none := by rwa [Function.update_self]
  have hothers : ∀ {j}, j ≠ i → (Function.update conn i c j).answer = (conn j).answer :=
    fun hj => by rw [Function.update_of_ne hj]
  obtain ⟨hle, hmax⟩ := h
  constructor
  · intro j hj
    by_cases hji : j = i
    · subst hji
      split <;> omega
    · have := hle j (hothers hji ▸ hj)
      split <;> omega
  · split
    case isTrue => exact .inr ⟨i, hself, rfl⟩
    case isFalse hgt =>
      rcases hmax with ⟨rfl, -⟩ | ⟨j, hj, hhigh⟩
      · omega
      · have hji : j ≠ i := fun he => hj (he ▸ hi)
        exact .inr ⟨j, by rwa [hothers hji], hhigh⟩

/-- The server goes on without looking at the connections. -/
theorem Sound.goes (h : Sound request s) {place : Place ι} (hp : place ≠ .failed)
    (hheld : ∀ i, place.held i = s.server.held i)
    (hreading : ∀ i buf events, place = .reading i buf events →
      (s.conn i).phase = .accepted ∧ buf.length < pidLength ∧ .client i ∉ events)
    (hbatch : ∀ i, .client i ∈ place.events → (s.conn i).phase = .accepted)
    (hsfd : .sfd ∈ place.events → ∃ i, (s.conn i).phase = .pending)
    (hn : place.events.Nodup) : Sound request { s with server := place } where
  alive := hp
  conn i := hheld i ▸ h.conn i
  reading := hreading
  batch := hbatch
  pending := hsfd
  nodup := hn
  highest := h.highest

/-- A connection changes, its answer apart, and the server stays where it is. -/
theorem Sound.changes (h : Sound request s) {i : ι} {c : Conn}
    (hc : c.Sound (request i) (s.server.held i)) (ha : c.answer = (s.conn i).answer)
    (hphase : (s.conn i).phase = .accepted → c.phase = .accepted)
    (hpending : (s.conn i).phase = .pending → c.phase = .pending ∨ .sfd ∉ s.server.events) :
    Sound request (s.set i c) := by
  have hacc : ∀ j, (s.conn j).phase = .accepted →
      (Function.update s.conn i c j).phase = .accepted := fun j hj => by
    by_cases hji : j = i
    · subst hji
      rw [Function.update_self]
      exact hphase hj
    · rwa [Function.update_of_ne hji]
  have hans : ∀ j, (Function.update s.conn i c j).answer = (s.conn j).answer := fun j => by
    by_cases hji : j = i
    · subst hji
      rw [Function.update_self, ha]
    · rw [Function.update_of_ne hji]
  exact
    { alive := h.alive
      conn := (Function.forall_update_iff s.conn fun j c =>
        c.Sound (request j) (s.server.held j)).mpr ⟨hc, fun j _ => h.conn j⟩
      reading := fun j buf events hs =>
        ⟨hacc j (h.reading j buf events hs).1, (h.reading j buf events hs).2⟩
      batch := fun j hj => hacc j (h.batch j hj)
      pending := fun hs => by
        obtain ⟨j, hj⟩ := h.pending hs
        refine ⟨j, ?_⟩
        change (Function.update s.conn i c j).phase = _
        by_cases hji : j = i
        · subst hji
          rw [Function.update_self]
          exact (hpending hj).resolve_right fun hno => hno hs
        · rwa [Function.update_of_ne hji]
      nodup := h.nodup
      highest := h.highest.congr hans }

/-- A part of what is in the socket goes into the buffer of the server. -/
theorem Conn.Sound.reads {r : Request} {held : List UInt8} {c : Conn} (h : c.Sound r held)
    (hc : c.phase ≠ .closed) (k : Nat) :
    Conn.Sound r (held ++ c.socket.take k) { c with socket := c.socket.drop k } where
  unanswered _ := by
    obtain ⟨ha, hb⟩ := h.unanswered hc
    refine ⟨ha, ?_⟩
    rw [List.append_assoc, ← List.append_assoc (c.socket.take k), List.take_append_drop, hb]
  answered hc' := (hc hc').elim

/-- With eleven bytes in the buffer, these are the request, and nothing is left. -/
theorem Conn.Sound.whole {r : Request} {held : List UInt8} {c : Conn} (h : c.Sound r held)
    (hc : c.phase ≠ .closed) (hlen : held.length = pidLength) :
    held = r.bytes ∧ c.socket = [] ∧ c.coming = [] := by
  have hb := (h.unanswered hc).2
  have hnil : c.socket ++ c.coming = [] := by
    have := congrArg List.length hb
    rw [List.length_append, r.bytes_length, hlen] at this
    exact List.length_eq_zero_iff.mp (by omega)
  rw [hnil, List.append_nil] at hb
  exact ⟨hb, List.append_eq_nil_iff.mp hnil⟩

theorem Place.held_self (i : ι) (buf : List UInt8) (events : List (Event ι)) :
    (Place.reading i buf events).held i = buf := if_pos rfl

theorem Place.held_of_ne {i j : ι} (h : j ≠ i) (buf : List UInt8) (events : List (Event ι)) :
    (Place.reading i buf events).held j = [] := if_neg (Ne.symm h)

theorem State.conn_set_of_ne (s : State ι) {i j : ι} (h : j ≠ i) (c : Conn) :
    (s.set i c).conn j = s.conn j :=
  Function.update_of_ne h ..

/-- What the other connections have is not in the buffer. -/
theorem Sound.others (h : Sound request s) {i : ι} {buf : List UInt8} {events : List (Event ι)}
    (hs : s.server = .reading i buf events) {j : ι} (hj : j ≠ i) :
    (s.conn j).Sound (request j) [] := by
  have := h.conn j
  rwa [hs, Place.held_of_ne hj] at this

/-- A `read` that gets something, not the last bytes. -/
theorem Sound.reads (h : Sound request s) {i : ι} {buf : List UInt8} {events : List (Event ι)}
    {k : Nat} (hs : s.server = .reading i buf events) (hk : k ≤ (s.conn i).socket.length)
    (hlen : buf.length + k < pidLength) :
    Sound request
      { s.set i { s.conn i with socket := (s.conn i).socket.drop k } with
        server := .reading i (buf ++ (s.conn i).socket.take k) events } := by
  obtain ⟨hphase, -, hi⟩ := h.reading i buf events hs
  have hevents : s.server.events = events := by rw [hs]; rfl
  have hconn := h.conn i
  rw [hs, Place.held_self] at hconn
  let c : Conn := { s.conn i with socket := (s.conn i).socket.drop k }
  have hphases : ∀ j, ((s.set i c).conn j).phase = (s.conn j).phase :=
    (Function.forall_update_iff s.conn fun j x => x.phase = (s.conn j).phase).mpr
      ⟨rfl, fun _ _ => rfl⟩
  have hanswers : ∀ j, ((s.set i c).conn j).answer = (s.conn j).answer :=
    (Function.forall_update_iff s.conn fun j x => x.answer = (s.conn j).answer).mpr
      ⟨rfl, fun _ _ => rfl⟩
  exact
    { alive := nofun
      conn := (Function.forall_update_iff s.conn fun j x => x.Sound (request j)
        ((Place.reading i (buf ++ (s.conn i).socket.take k) events).held j)).mpr
        ⟨by rw [Place.held_self]; exact hconn.reads (by simp [hphase]) k,
          fun j hj => by rw [Place.held_of_ne hj]; exact h.others hs hj⟩
      reading := by
        rintro j buf' events' ⟨⟩
        refine ⟨(hphases i).trans hphase, ?_, hi⟩
        rwa [List.length_append, List.length_take, Nat.min_eq_left hk]
      batch := fun j hj => (hphases j).trans (h.batch j (hevents ▸ hj))
      pending := fun hsfd => by
        obtain ⟨j, hj⟩ := h.pending (hevents ▸ hsfd)
        exact ⟨j, (hphases j).trans hj⟩
      nodup := hevents ▸ h.nodup
      highest := h.highest.congr hanswers }

/-- With the last bytes the client gets its answer. -/
theorem Sound.responds (h : Sound request s) {i : ι} {buf : List UInt8}
    {events : List (Event ι)} {k : Nat} (hs : s.server = .reading i buf events)
    (hk : k ≤ (s.conn i).socket.length) (hlen : buf.length + k = pidLength) :
    Sound request
      (respond
        { s.set i { s.conn i with socket := (s.conn i).socket.drop k } with
          server := .handling events }
        i (buf ++ (s.conn i).socket.take k)) := by
  obtain ⟨hphase, -, hi⟩ := h.reading i buf events hs
  have hevents : s.server.events = events := by rw [hs]; rfl
  have hconn := h.conn i
  rw [hs, Place.held_self] at hconn
  have hread := hconn.reads (by simp [hphase]) k
  obtain ⟨hbuf, hsocket, hcoming⟩ := hread.whole (by simp [hphase])
    (by rwa [List.length_append, List.length_take, Nat.min_eq_left hk])
  have hnone : (s.conn i).answer = none := (hconn.unanswered (by simp [hphase])).1
  have hsum : sumDigits (buf ++ (s.conn i).socket.take k) = (request i).digitSum := by
    rw [hbuf, sumDigits_bytes]
  let c : Conn := ⟨.closed, (s.conn i).coming, (s.conn i).socket.drop k,
    some (answerOf (request i).digitSum)⟩
  have ht : respond
      { s.set i { s.conn i with socket := (s.conn i).socket.drop k } with
        server := .handling events }
      i (buf ++ (s.conn i).socket.take k) =
      { s.set i c with
        server := .handling events
        highestSum := if ((request i).digitSum : Int) > s.highestSum then (request i).digitSum
          else s.highestSum } := by
    simp only [respond, State.set, hsum, Function.update_self, Function.update_idem, c]
  rw [ht]
  have hothers : ∀ {j}, j ≠ i → (s.set i c).conn j = s.conn j := fun hj => s.conn_set_of_ne hj c
  exact
    { alive := nofun
      conn := (Function.forall_update_iff s.conn fun j x => x.Sound (request j) []).mpr
        ⟨⟨fun hc => (hc rfl).elim, fun _ => ⟨rfl, hcoming, hsocket⟩⟩, fun j hj => h.others hs hj⟩
      reading := nofun
      batch := fun j hj => by
        have hji : j ≠ i := fun he => hi (he ▸ hj)
        change ((s.set i c).conn j).phase = _
        rw [hothers hji]
        exact h.batch j (hevents ▸ hj)
      pending := fun hsfd => by
        obtain ⟨j, hj⟩ := h.pending (hevents ▸ hsfd)
        have hji : j ≠ i := fun he => by simp [he, hphase] at hj
        exact ⟨j, (congrArg Conn.phase (hothers hji)).trans hj⟩
      nodup := hevents ▸ h.nodup
      highest := h.highest.answer hnone (by simp) }

/-! ### Every step -/

/-- Every step keeps the invariant, but for the `read` that finds its socket empty. -/
theorem Sound.step (h : Sound request s) (hstep : Step s l t) (hfed : Fed s l t) :
    Sound request t := by
  have hclosed : ∀ {i}, (s.conn i).phase ≠ .closed →
      (s.conn i).answer = none ∧
        s.server.held i ++ ((s.conn i).socket ++ (s.conn i).coming) = (request i).bytes :=
    fun {i} => (h.conn i).unanswered
  have hevents : ∀ {events}, s.server = .handling events → s.server.events = events :=
    fun hs => congrArg Place.events hs
  cases hstep with
  | connect i hi =>
      exact h.changes ⟨fun _ => hclosed (by simp [hi]), nofun⟩ rfl (by simp [hi]) (by simp [hi])
  | deliver i k hi =>
      have hopen : (s.conn i).phase ≠ .closed := by rcases hi with hi | hi <;> simp [hi]
      refine h.changes ⟨fun _ => ?_, fun hc => (hopen hc).elim⟩ rfl id .inl
      obtain ⟨ha, hb⟩ := hclosed hopen
      exact ⟨ha, by rwa [List.append_assoc, List.take_append_drop]⟩
  | sigint hs =>
      exact h.goes nofun (fun i => by rw [hs]; rfl) nofun nofun nofun List.nodup_nil
  | wait events hs hne hlen hn hr =>
      exact h.goes nofun (fun i => by rw [hs]; rfl) nofun (fun i hi => (hr _ hi).1)
        (fun hsfd => hr _ hsfd) hn
  | accept i events hs hi =>
      have hn : (Event.sfd :: events).Nodup := hevents hs ▸ h.nodup
      have hgone : Event.sfd ∉ events := (List.nodup_cons.mp hn).1
      have hg : Sound request { s with server := .handling events } :=
        h.goes nofun (fun i => by rw [hs]; rfl) nofun
          (fun j hj => h.batch j (by rw [hs]; exact List.mem_cons_of_mem _ hj))
          (fun hsfd => (hgone hsfd).elim) (List.nodup_cons.mp hn).2
      exact hg.changes ⟨fun _ => (hg.conn i).unanswered (by simp [hi]), nofun⟩ rfl (fun _ => rfl)
        (fun _ => .inr hgone)
  | opens i events hs =>
      have hn : (Event.client i :: events).Nodup := hevents hs ▸ h.nodup
      refine h.goes nofun (fun j => ?_) ?_
        (fun j hj => h.batch j (by rw [hs]; exact List.mem_cons_of_mem _ hj))
        (fun hsfd => h.pending (by rw [hs]; exact List.mem_cons_of_mem _ hsfd))
        (List.nodup_cons.mp hn).2
      · rw [hs]
        exact ite_self _
      · rintro j buf events' ⟨⟩
        exact ⟨h.batch i (by rw [hs]; exact List.mem_cons_self), by decide,
          (List.nodup_cons.mp hn).1⟩
  | read i buf events k hs hk hlen hbuf => exact h.reads hs hlen hbuf
  | readLast i buf events k hs hk hlen hbuf => exact h.responds hs hlen hbuf
  | readFails i buf events hs hempty => exact (hfed rfl i buf events hs hempty).elim
  | next hs => exact h.goes nofun (fun i => by rw [hs]; rfl) nofun nofun nofun List.nodup_nil

/-- The server can go on. -/
theorem Sound.moves (h : Sound request s) :
    s.server = .waiting ∨ s.server = .left ∨ ∃ l t, l.ofServer = true ∧ Step s l t := by
  cases hs : s.server with
  | waiting => exact .inl rfl
  | left => exact .inr (.inl rfl)
  | failed => exact (h.alive hs).elim
  | handling events =>
      refine .inr (.inr ?_)
      match events, hs with
      | [], hs => exact ⟨.next, _, rfl, .next hs⟩
      | .sfd :: events, hs =>
          obtain ⟨i, hi⟩ := h.pending (by rw [hs]; exact List.mem_cons_self)
          exact ⟨.accept, _, rfl, .accept i events hs hi⟩
      | .client i :: events, hs => exact ⟨.opens, _, rfl, .opens i events hs⟩
  | reading i buf events =>
      obtain ⟨-, hlen, -⟩ := h.reading i buf events hs
      refine .inr (.inr ⟨.read, ?_⟩)
      by_cases hempty : (s.conn i).socket = []
      · exact ⟨_, rfl, .readFails i buf events hs hempty⟩
      · have hpos := List.length_pos_iff.mpr hempty
        by_cases hlast : buf.length + 1 = pidLength
        · exact ⟨_, rfl, .readLast i buf events 1 hs le_rfl hpos hlast⟩
        · exact ⟨_, rfl, .read i buf events 1 hs le_rfl hpos (by omega)⟩

theorem Sound.lawful (h : Sound request s) : Lawful request s where
  alive := h.alive
  moves := h.moves
  answers i a ha := by
    by_cases hc : (s.conn i).phase = .closed
    · obtain ⟨hans, hcoming, -⟩ := (h.conn i).answered hc
      obtain rfl : answerOf (request i).digitSum = a := Option.some.inj (hans.symm.trans ha)
      exact ⟨rfl, beNat_answerOf (request i).digitSum_lt, hcoming⟩
    · rw [((h.conn i).unanswered hc).1] at ha
      exact (Option.some_ne_none a ha.symm).elim
  highest := h.highest
  quiet hw hr i hi hcoming ha := by
    have hopen : (s.conn i).phase ≠ .closed := fun hc => by
      rw [((h.conn i).answered hc).1] at ha
      exact Option.some_ne_none _ ha
    have hb := ((h.conn i).unanswered hopen).2
    rw [hw, hcoming, List.append_nil] at hb
    cases hp : (s.conn i).phase with
    | before => exact hi hp
    | pending => exact hr .sfd ⟨i, hp⟩
    | closed => exact hopen hp
    | accepted =>
        refine hr (.client i) ⟨hp, fun hempty => ?_⟩
        have := congrArg List.length hb
        rw [hempty, (request i).bytes_length] at this
        exact absurd this.symm (Nat.succ_ne_zero 10)

/-- A `read` that finds its socket empty ends the server. -/
theorem fed_of_lawful (hstep : Step s l t) (ht : Lawful request t) : Fed s l t := by
  rintro rfl i buf events hs hempty
  cases hstep with
  | read j buf' events' k hs' hk hlen _ =>
      obtain ⟨rfl, -, -⟩ := Place.reading.inj (hs.symm.trans hs')
      rw [hempty] at hlen
      exact absurd hlen (by simp; omega)
  | readLast j buf' events' k hs' hk hlen _ =>
      obtain ⟨rfl, -, -⟩ := Place.reading.inj (hs.symm.trans hs')
      rw [hempty] at hlen
      exact absurd hlen (by simp; omega)
  | readFails j buf' events' hs' _ => exact ht.alive rfl

/-- The server leaves its loop on `SIGINT` only. -/
theorem left_of_sigint {tr : List (Move (State ι) (Label ι))} (r : Run Step (begin request) tr s)
    (hs : s.server = .left) : ∃ m ∈ tr, m.label = .sigint := by
  suffices h : s.server ≠ .left ∨ ∃ m ∈ tr, m.label = .sigint from
    h.resolve_left fun hne => hne hs
  clear hs
  induction r with
  | refl => exact .inl nofun
  | @snoc s t tr l r hstep ih =>
      rcases ih with ih | ⟨m, m_in, hm⟩
      · cases hstep with
        | connect | deliver => exact .inl ih
        | sigint => exact .inr ⟨_, List.mem_concat_self, rfl⟩
        | wait | accept | opens | read | readLast | readFails | next => exact .inl nofun
      · exact .inr ⟨m, List.mem_append_left _ m_in, hm⟩

/-! ### What the server does for a client -/

/-- What the server may still have to do for a client: to wait for a connection, accept it and go
on; to wait for its bytes, read them one by one and go on. -/
def Conn.effort (held : List UInt8) (c : Conn) : Nat :=
  match c.phase with
  | .before | .closed => 0
  | .pending => 17
  | .accepted => 14 - held.length

/-- What is left of that for the batch: the first event of a batch pays for the wait, and for the
end. -/
def Place.effort : Place ι → Nat
  | .waiting | .left | .failed => 2
  | .handling [] => 3
  | .handling (_ :: _) => 1
  | .reading _ _ _ => 0

/-- All that the server may still have to do, when the clients are those of `C`. -/
def State.effort (C : Finset ι) (s : State ι) : Nat :=
  ∑ i ∈ C, (s.conn i).effort (s.server.held i) + s.server.effort

/-- The clients that have connected are in `C`. -/
def Known (C : Finset ι) (s : State ι) : Prop := ∀ i, (s.conn i).phase ≠ .before → i ∈ C

omit [DecidableEq ι] in
theorem effort_handling_le (events : List (Event ι)) : (Place.handling events).effort ≤ 3 := by
  cases events with
  | nil => exact le_rfl
  | cons e events => exact Nat.le_of_ble_eq_true rfl

theorem State.conn_set_self (s : State ι) (i : ι) (c : Conn) : (s.set i c).conn i = c :=
  Function.update_self ..

omit [DecidableEq ι] in
theorem Conn.effort_accepted {held : List UInt8} {c : Conn} (h : c.phase = .accepted) :
    c.effort held = 14 - held.length := by
  rw [effort, h]

/-- Only the client `i` is concerned. -/
theorem effort_lt_of {C : Finset ι} {i : ι} (hi : i ∈ C)
    (hothers : ∀ j ≠ i, (t.conn j).effort (t.server.held j) = (s.conn j).effort (s.server.held j))
    (hlt : (t.conn i).effort (t.server.held i) + t.server.effort <
      (s.conn i).effort (s.server.held i) + s.server.effort) : t.effort C < s.effort C := by
  have hsum := sum_congr_but_one hi hothers
  unfold State.effort
  omega

/-- **One move of the server** uses something up. -/
theorem Sound.effort_lt (h : Sound request s) (hstep : Step s l t) (hfed : Fed s l t)
    (hl : l.ofServer = true) {C : Finset ι} (hC : Known C s) : t.effort C < s.effort C := by
  cases hstep with
  | connect | deliver | sigint => cases hl
  | wait events hs hne =>
      obtain ⟨e, events, rfl⟩ := List.exists_cons_of_ne_nil hne
      rw [State.effort, State.effort, hs]
      exact Nat.lt_succ_self _
  | accept i events hs hi =>
      refine effort_lt_of (hC i (by simp [hi])) (fun j hj => ?_) ?_
      · rw [hs, s.conn_set_of_ne hj]
        rfl
      · have hbefore : (s.conn i).effort (s.server.held i) = 17 := by rw [Conn.effort, hi]
        have hplace : s.server.effort = 1 := by rw [hs]; rfl
        have hafter := effort_handling_le events
        change ((s.set i _).conn i).effort [] + (Place.handling events).effort < _
        rw [s.conn_set_self, hbefore, hplace, Conn.effort_accepted rfl, List.length_nil]
        omega
  | opens i events hs =>
      have hheld : ∀ j, (Place.reading i [] events).held j = [] := fun j => ite_self _
      rw [State.effort, State.effort, hs]
      simp only [hheld]
      exact Nat.lt_succ_self _
  | read i buf events k hs hk hlen hbuf =>
      obtain ⟨hphase, -⟩ := h.reading i buf events hs
      refine effort_lt_of (hC i (by simp [hphase])) (fun j hj => ?_) ?_
      · rw [hs, s.conn_set_of_ne hj, Place.held_of_ne hj, Place.held_of_ne hj]
      · change ((s.set i _).conn i).effort ((Place.reading i (buf ++ _) events).held i) + 0 < _
        let c : Conn := { s.conn i with socket := (s.conn i).socket.drop k }
        have hself : c.phase = .accepted := hphase
        rw [s.conn_set_self, hs, Place.held_self, Place.held_self, Conn.effort_accepted hphase,
          Conn.effort_accepted hself, List.length_append, List.length_take, Nat.min_eq_left hlen]
        unfold pidLength at hbuf
        omega
  | readLast i buf events k hs hk hlen hbuf =>
      obtain ⟨hphase, hshort, -⟩ := h.reading i buf events hs
      refine effort_lt_of (hC i (by simp [hphase])) (fun j hj => ?_) ?_
      · rw [hs, Place.held_of_ne hj]
        change ((State.set (s.set i _) i _).conn j).effort [] = _
        rw [State.conn_set_of_ne _ hj, s.conn_set_of_ne hj]
      · have hafter := effort_handling_le events
        change ((State.set (s.set i _) i _).conn i).effort [] + (Place.handling events).effort < _
        rw [State.conn_set_self, hs, Place.held_self, Conn.effort_accepted hphase]
        change 0 + _ < _ + 0
        unfold pidLength at hshort
        omega
  | readFails i buf events hs hempty => exact (hfed rfl i buf events hs hempty).elim
  | next hs =>
      rw [State.effort, State.effort, hs]
      exact Nat.lt_succ_self _

/-- A client connects, and there is more to do. -/
theorem effort_connect {C : Finset ι} {i : ι} (hi : (s.conn i).phase = .before) :
    (s.set i { s.conn i with phase := .pending }).effort (insert i C) = s.effort C + 17 := by
  have hnone : (s.conn i).effort (s.server.held i) = 0 := by rw [Conn.effort, hi]
  have hsum := sum_congr_but_one (Finset.mem_insert_self i C)
    (f := fun j => ((s.set i { s.conn i with phase := .pending }).conn j).effort (s.server.held j))
    (g := fun j => (s.conn j).effort (s.server.held j)) fun j hj => by rw [s.conn_set_of_ne hj]
  have hinsert : ∑ j ∈ insert i C, (s.conn j).effort (s.server.held j) =
      ∑ j ∈ C, (s.conn j).effort (s.server.held j) :=
    Finset.sum_insert_of_eq_zero_if_notMem fun _ => hnone
  rw [s.conn_set_self, hnone, Nat.add_zero, hinsert] at hsum
  change (∑ j ∈ insert i C, ((s.set i { s.conn i with phase := .pending }).conn j).effort
    (s.server.held j)) + s.server.effort = _
  rw [hsum, State.effort, Nat.add_right_comm]
  rfl

/-- Bytes arrive, and there is as much to do as before. -/
theorem effort_deliver {C : Finset ι} {i : ι} {c : Conn} (hc : c.phase = (s.conn i).phase) :
    (s.set i c).effort C = s.effort C := by
  have heffort : ∀ j, ((s.set i c).conn j).effort (s.server.held j) =
      (s.conn j).effort (s.server.held j) :=
    (Function.forall_update_iff s.conn fun j c =>
      c.effort (s.server.held j) = (s.conn j).effort (s.server.held j)).mpr
      ⟨by rw [Conn.effort, Conn.effort, hc], fun _ _ => rfl⟩
  exact congrArg (· + s.server.effort) (Finset.sum_congr rfl fun j _ => heffort j)

theorem Known.set {C : Finset ι} (h : Known C s) {i : ι} {c : Conn}
    (hc : c.phase ≠ .before → i ∈ C) : Known C (s.set i c) :=
  (Function.forall_update_iff s.conn fun j c => c.phase ≠ .before → j ∈ C).mpr
    ⟨hc, fun j _ => h j⟩

/-- No other client is there after a step than those that have connected. -/
theorem Known.step {C : Finset ι} (h : Known C s) (hs : Sound request s) (hstep : Step s l t)
    (hl : l.connects = false) : Known C t := by
  have hset : ∀ {i}, (s.conn i).phase ≠ .before → ∀ c, Known C (s.set i c) :=
    fun {i} hi c => h.set fun _ => h i hi
  have hreading : ∀ {i buf events}, s.server = .reading i buf events →
      (s.conn i).phase ≠ .before := fun he => by simp [(hs.reading _ _ _ he).1]
  cases hstep with
  | connect => cases hl
  | deliver i k hi => exact hset (by rcases hi with hi | hi <;> simp [hi]) _
  | sigint | wait | opens | readFails | next => exact h
  | accept i events he hi => exact hset (by simp [hi]) _
  | read i buf events k he => exact hset (hreading he) _
  | readLast i buf events k he =>
      have hread := hset (hreading he) { s.conn i with socket := (s.conn i).socket.drop k }
      exact hread.set fun _ => h i (hreading he)

/-- What the server is about to do is still there. -/
theorem Sound.two_le_effort (h : Sound request s) {C : Finset ι} (hC : Known C s) :
    2 ≤ s.effort C := by
  have hone : ∀ {i}, (s.conn i).phase ≠ .before →
      (s.conn i).effort (s.server.held i) ≤ s.effort C := fun {i} hi =>
    (Finset.single_le_sum (f := fun j => (s.conn j).effort (s.server.held j))
      (fun _ _ => Nat.zero_le _) (hC i hi)).trans (Nat.le_add_right ..)
  have hplace : s.server.effort ≤ s.effort C := Nat.le_add_left ..
  cases hs : s.server with
  | waiting | left | failed => exact le_trans (by rw [hs]; exact le_rfl) hplace
  | handling events =>
      match events, hs with
      | [], hs => exact le_trans (by rw [hs]; exact Nat.le_succ 2) hplace
      | .sfd :: events, hs =>
          obtain ⟨i, hi⟩ := h.pending (by rw [hs]; exact List.mem_cons_self)
          have := hone (i := i) (by simp [hi])
          rw [Conn.effort, hi] at this
          exact le_trans (Nat.le_of_ble_eq_true rfl) this
      | .client i :: events, hs =>
          have hi := h.batch i (by rw [hs]; exact List.mem_cons_self)
          have := hone (i := i) (by simp [hi])
          rw [Conn.effort_accepted hi, hs] at this
          exact le_trans (Nat.le_of_ble_eq_true rfl) this
  | reading i buf events =>
      obtain ⟨hi, hlen, -⟩ := h.reading i buf events hs
      have := hone (i := i) (by simp [hi])
      rw [Conn.effort_accepted hi, hs, Place.held_self] at this
      unfold pidLength at hlen
      omega

/-- **A run.**  Each client that connects is 17 moves. -/
theorem effort_run {tr : List (Move (State ι) (Label ι))} (r : Run Step (begin request) tr s)
    (hfed : ∀ m ∈ tr, Fed m.before m.label m.after) :
    ∃ C, Known C s ∧ (tr.filter fun m => m.label.ofServer).length + s.effort C ≤
      17 * (tr.filter fun m => m.label.connects).length + 2 := by
  induction r with
  | refl => exact ⟨∅, fun _ h => (h rfl).elim, le_rfl⟩
  | @snoc t u tr l r hstep ih =>
      have hbefore : ∀ m ∈ tr, Fed m.before m.label m.after := fun m m_in =>
        hfed m (List.mem_append_left _ m_in)
      have ht : Sound request t := (r.invariant_at Sound.step (sound_begin request) hbefore).1
      obtain ⟨C, hC, hle⟩ := ih hbefore
      simp only [List.filter_append, List.length_append]
      by_cases hl : l.ofServer = true
      · have hconnects : l.connects = false := by
          cases l <;> first | rfl | cases hl
        have hlt := ht.effort_lt hstep (hfed _ List.mem_concat_self) hl hC
        refine ⟨C, hC.step ht hstep hconnects, ?_⟩
        simp only [List.filter_singleton, hl, hconnects, Bool.cond_true, Bool.cond_false,
          List.length_singleton, List.length_nil]
        omega
      · cases hstep with
        | connect i hi =>
            refine ⟨insert i C, ?_, ?_⟩
            · have hmore : Known (insert i C) t := fun j hj => Finset.mem_insert_of_mem (hC j hj)
              exact hmore.set fun _ => Finset.mem_insert_self i C
            · rw [effort_connect hi]
              change _ + 0 + _ ≤ 17 * (_ + 1) + 2
              omega
        | deliver i k hi =>
            refine ⟨C, hC.step ht (.deliver i k hi) rfl, ?_⟩
            let c := { t.conn i with
              coming := (t.conn i).coming.drop k
              socket := (t.conn i).socket ++ (t.conn i).coming.take k }
            have hsame : (t.set i c).effort C = t.effort C := effort_deliver rfl
            rw [hsame]
            exact hle
        | sigint hs =>
            refine ⟨C, hC, ?_⟩
            have hsame : ({ t with server := .left } : State ι).effort C = t.effort C := by
              rw [State.effort, State.effort, hs]
              rfl
            rw [hsame]
            exact hle
        | wait | accept | opens | read | readLast | readFails | next => exact (hl rfl).elim

/-- The clients that connect bound what the server does. -/
theorem moves_le {tr : List (Move (State ι) (Label ι))} (r : Run Step (begin request) tr s)
    (hfed : ∀ m ∈ tr, Fed m.before m.label m.after) :
    (tr.filter fun m => m.label.ofServer).length ≤
      17 * (tr.filter fun m => m.label.connects).length := by
  obtain ⟨C, hC, hle⟩ := effort_run r hfed
  have := (r.invariant_at Sound.step (sound_begin request) hfed).1.two_le_effort hC
  omega

/-- Whatever the clients send, and however TCP delivers it: the clients get their sums and the
server goes on, exactly as long as no `read` finds its socket empty; only `SIGINT` makes it leave
its loop; and as long as the `read`s are so it makes at most 17 moves for each client that
connects. -/
theorem answer_law (request : ι → Request) {s : State ι}
    {tr : List (Move (State ι) (Label ι))} (r : Run Step (begin request) tr s) :
    ((∀ m ∈ tr, Lawful request m.after) ↔ ∀ m ∈ tr, Fed m.before m.label m.after) ∧
      (s.server = .left → ∃ m ∈ tr, m.label = .sigint) ∧
      ((∀ m ∈ tr, Fed m.before m.label m.after) →
        (tr.filter fun m => m.label.ofServer).length ≤
          17 * (tr.filter fun m => m.label.connects).length) :=
  ⟨r.law Sound.step Sound.lawful (fun _ => fed_of_lawful) (sound_begin request),
    left_of_sigint r, moves_le r⟩

/-- A run from `s` to `t` in which no `read` finds its socket empty. -/
def FedRun (s t : State ι) : Prop :=
  ∃ tr, Run Step s tr t ∧ ∀ m ∈ tr, Fed m.before m.label m.after

/-- Anything but a `read`. -/
theorem FedRun.goes {u : State ι} (h : FedRun s t) (hstep : Step t l u)
    (hl : l ≠ .read) : FedRun s u := by
  obtain ⟨tr, r, hfed⟩ := h
  exact ⟨_, r.snoc hstep, forall_mem_snoc hfed fun he => (hl he).elim⟩

theorem FedRun.reads {u : State ι} (h : FedRun s t) (hstep : Step t .read u) {i : ι}
    {buf : List UInt8} {events : List (Event ι)} (ht : t.server = .reading i buf events)
    (hne : (t.conn i).socket ≠ []) : FedRun s u := by
  obtain ⟨tr, r, hfed⟩ := h
  refine ⟨_, r.snoc hstep, forall_mem_snoc hfed ?_⟩
  rintro - j buf' events' ht'
  obtain ⟨rfl, -, -⟩ := Place.reading.inj (ht.symm.trans ht')
  exact hne

/-- A client connects, and the server accepts it. -/
theorem FedRun.accepts (h : FedRun s t) {i : ι} (ht : t.server = .waiting)
    (hi : (t.conn i).phase = .before) :
    FedRun s (t.set i { t.conn i with phase := .accepted }) := by
  obtain ⟨server, highest, conn⟩ := t
  subst ht
  have hpending : (Function.update conn i { conn i with phase := .pending } i).phase = .pending :=
    by rw [Function.update_self]
  have hlen : ([.sfd] : List (Event ι)).length ≤ maxEvents := Nat.le_of_ble_eq_true rfl
  have hwait := (h.goes (.connect i hi) nofun).goes (.wait [.sfd] rfl nofun hlen
    (List.nodup_singleton _) (List.forall_mem_singleton.mpr ⟨i, hpending⟩)) nofun
  have hnext := (hwait.goes (.accept i [] rfl hpending) nofun).goes (.next rfl) nofun
  simpa only [State.set, Function.update_self, Function.update_idem] using hnext

/-- The server reads what has arrived, and the other bytes as soon as they are there. -/
theorem FedRun.answers (h : FedRun s t) {i : ι} {events : List (Event ι)} {r : Request}
    {first second : List UInt8} (ht : t.server = .handling (.client i :: events))
    (hr : first ++ second = r.bytes) (hi : t.conn i = ⟨.accepted, second, first, none⟩)
    (hfirst : first ≠ []) (hsecond : second ≠ []) :
    FedRun s
      { t.set i ⟨.closed, [], [], some (answerOf r.digitSum)⟩ with
        server := .handling events
        highestSum := if (r.digitSum : Int) > t.highestSum then r.digitSum else t.highestSum } := by
  obtain ⟨server, highest, conn⟩ := t
  subst ht
  change conn i = _ at hi
  have hlen : first.length + second.length = pidLength := by
    rw [← List.length_append, hr, r.bytes_length]
  have hpos := List.length_pos_iff.mpr hfirst
  have hpos' := List.length_pos_iff.mpr hsecond
  have hread := (h.goes (.opens i events rfl) nofun).reads
    (.read i [] events first.length rfl hpos (by simp only [hi, le_rfl])
      (by rw [List.length_nil]; omega)) rfl (by simpa [hi])
  have hdeliver := hread.goes
    (.deliver i second.length (.inr (by simp only [State.set, hi, Function.update_self]))) nofun
  simp only [State.set, hi, List.take_length, List.drop_length, List.nil_append,
    Function.update_self, Function.update_idem] at hdeliver
  have hlast := hdeliver.reads (.readLast i first events second.length rfl hpos'
    (by simp only [Function.update_self, le_rfl]) hlen) rfl (by simpa)
  simpa only [respond, State.set, List.take_length, List.drop_length, Function.update_self,
    Function.update_idem, hr, sumDigits_bytes] using hlast

/-- The pid 123. -/
def onePid : Request := ⟨[1, 2, 3], [0, 0, 0, 0, 0, 0, 0], nofun, rfl⟩

/-- The pids 123 and 4070. -/
def twoPids : Bool → Request
  | false => onePid
  | true => ⟨[4, 0, 7, 0], [0, 0, 0, 0, 0, 0], nofun, rfl⟩

/-- Two clients connect, and a part of either request arrives before the server comes to read it,
the rest while it reads. -/
theorem answer_law_pieces : ∃ tr s, Run Step (begin twoPids) tr s ∧
    (∀ m ∈ tr, Lawful twoPids m.after) ∧ (s.conn false).answer = some [0, 6] ∧
    (s.conn true).answer = some [0, 11] ∧ s.highestSum = 11 ∧
    (tr.filter fun m => m.label.ofServer).length ≤
      17 * (tr.filter fun m => m.label.connects).length := by
  have hnone : FedRun (begin twoPids) (begin twoPids) := ⟨[], .refl _, List.forall_mem_nil _⟩
  have haccepted := (hnone.accepts (i := false) rfl rfl).accepts (i := true) rfl rfl
  have hpieces := (haccepted.goes (.deliver false 5 (.inr rfl)) nofun).goes
    (.deliver true 2 (.inr rfl)) nofun
  have hready := hpieces.goes (.wait [.client true, .client false] rfl nofun (by decide)
    (List.nodup_cons.mpr ⟨by simp, List.nodup_singleton _⟩)
    (List.forall_mem_cons.mpr
      ⟨⟨rfl, by decide⟩, List.forall_mem_singleton.mpr ⟨rfl, by decide⟩⟩)) nofun
  have hanswered := (hready.answers (r := twoPids true) rfl (List.take_append_drop 2 _) rfl
    (by decide) (by decide)).answers (r := twoPids false) rfl (List.take_append_drop 5 _) rfl
    (by decide) (by decide)
  obtain ⟨tr, r, hfed⟩ := hanswered
  obtain ⟨hlaw, -, hmoves⟩ := answer_law twoPids r
  exact ⟨tr, _, r, hlaw.mpr hfed, by decide, by decide, by decide, hmoves hfed⟩

/-- Five bytes arrive, and the next `read` ends the server. -/
theorem half_a_request : ∃ tr s, Run Step (begin fun _ : Unit => onePid) tr s ∧
    ∃ m ∈ tr, ¬ Lawful (fun _ => onePid) m.after := by
  have hnone : FedRun (begin fun _ : Unit => onePid) _ := ⟨[], .refl _, List.forall_mem_nil _⟩
  have hready := ((hnone.accepts (i := ()) rfl rfl).goes (.deliver () 5 (.inr rfl)) nofun).goes
    (.wait [.client ()] rfl nofun (by decide) (List.nodup_singleton _)
      (List.forall_mem_singleton.mpr ⟨rfl, by decide⟩)) nofun
  obtain ⟨tr, r, -⟩ := hready.goes (.opens () [] rfl) nofun
  have r' := (r.snoc (Step.read () [] [] 5 rfl (by decide) (by decide) (by decide))).snoc
    (Step.readFails () _ [] rfl rfl)
  exact ⟨_, _, r', _, List.mem_concat_self, fun h => h.alive rfl⟩

end Sop2.Pidsumming
