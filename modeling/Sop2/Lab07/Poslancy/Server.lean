import Mathlib.Data.Fintype.Basic
import Sop2.Support.Runs
import Sop2.Support.SlotTable

/-!
# Lab07 — Poslancy — the server

`lab07/poslancy/poslancy.c`: the table `clients[]` with its counter, the cities, and one event of
the loop of `main`, for the listening socket (`acceptEvent`) or for a client (`readEvent`).

What the server asks of the system is kept, in order, in `log`; what `main` is connected to and
what it has heard is read off it (`history`).  The system itself is `Step`: batches of distinct
descriptors that were ready when `epoll_pwait` returned, handled one after another.  After `ERR`
the process has ended.

`readEvent_cases`: a client's event disconnects it, changes nothing, or changes one city and
broadcasts.
-/

namespace Sop2.Poslancy
open Support

/-- `MAX_EVENTS`. -/
def maxEvents : Nat := 10

/-- `MAX_CLIENTS`. -/
def maxClients : Nat := 4

/-- The letters `'p'` and `'g'`, the digit `'0'` and the newline. -/
def charP : UInt8 := 112

def charG : UInt8 := 103

def char0 : UInt8 := 48

def newline : UInt8 := 10

/-- `city`. -/
structure City where
  owner : UInt8
  num : Int

/-- What the server has asked of the system. -/
inductive Effect where
  | accepted (fd : Int)
  | rejected (fd : Int)
  /-- `read` has returned these bytes, none of them at the end of the stream. -/
  | read (fd : Int) (bytes : List UInt8)
  | wrote (fd : Int) (bytes : List UInt8)
  /-- A `write` that failed with `EPIPE`. -/
  | epipe (fd : Int)
  /-- `remove_client`, and whether its loop found the descriptor in `clients[]`. -/
  | removed (fd : Int) (found : Bool)
  deriving DecidableEq

/-- The variables of `main` that the events change, and what was asked of the system so far. -/
structure Server where
  clients : List Int
  currentClients : Int
  cities : Fin 20 → City
  log : List Effect

/-- Lines 63 to 74. -/
def start : Server where
  clients := List.replicate maxClients (-1)
  currentClients := 0
  cities i := ⟨charG, i + 1⟩
  log := []

/-- The server after one more request to the system. -/
def Server.asked (s : Server) (e : Effect) : Server := { s with log := s.log ++ [e] }

/-- `remove_client`. -/
def removeClient (fd : Int) (s : Server) : Server :=
  { s.asked (.removed fd (s.clients.contains fd)) with
    clients := s.clients.replace fd (-1)
    currentClients := s.currentClients - 1 }

/-- An event of `sfd`, when `add_new_client` returns `newFd`. -/
def acceptEvent (s : Server) (newFd : Int) : Server :=
  if s.currentClients < maxClients then
    if newFd ≥ 0 then
      { s.asked (.accepted newFd) with
        clients := s.clients.replace (-1) newFd
        currentClients := s.currentClients + 1 }
    else s
  else if newFd ≥ 0 then s.asked (.rejected newFd)
  else s

/-- How `write` ends. -/
inductive WriteResult where
  | written
  | epipe
  | error

/-- The broadcast of `buf` to all but `fd`, over the indices still to come; nothing after `ERR`. -/
def broadcast (wr : Nat → WriteResult) (fd : Int) (buf : List UInt8) :
    List Nat → Server → Option Server
  | [], s => some s
  | k :: ks, s =>
      let targetFd := s.clients.getD k (-1)
      if targetFd ≠ -1 ∧ targetFd ≠ fd then
        match wr k with
        | .written => broadcast wr fd buf ks (s.asked (.wrote targetFd buf))
        | .epipe => broadcast wr fd buf ks (removeClient targetFd (s.asked (.epipe targetFd)))
        | .error => none
      else broadcast wr fd buf ks s

/-- Lines 137 to 141; `char` compares as its value does, whether it is signed or not. -/
def isValid (buf : List UInt8) : Bool :=
  ! (buf.getD 0 0 ≠ charP && buf.getD 0 0 ≠ charG) &&
  ! (buf.getD 1 0 < char0 || buf.getD 1 0 > 57) &&
  ! (buf.getD 2 0 < char0 || buf.getD 2 0 > 57) &&
  ! (buf.getD 3 0 ≠ newline)

/-- `city_index`. -/
def cityIndex (buf : List UInt8) : Int :=
  ((buf.getD 1 0).toNat - char0.toNat) * 10 + ((buf.getD 2 0).toNat - char0.toNat)

/-- How `read` of at most four bytes ends. -/
inductive ReadResult where
  | error
  | bytes (bs : List UInt8)

/-- An event of the client `fd`; nothing after `ERR`. -/
def readEvent (s : Server) (fd : Int) (r : ReadResult) (wr : Nat → WriteResult) : Option Server :=
  match r with
  | .error => some (removeClient fd s)
  | .bytes buf =>
      let s := s.asked (.read fd buf)
      if buf.length = 0 then some (removeClient fd s)
      else if buf.length = 4 then
        if isValid buf then
          if h : 1 ≤ cityIndex buf ∧ cityIndex buf ≤ 20 then
            let i : Fin 20 := ⟨(cityIndex buf - 1).toNat, by omega⟩
            let newOwner := buf.getD 0 0
            if (s.cities i).owner ≠ newOwner then
              broadcast wr fd buf (List.range maxClients)
                { s with
                  cities := Function.update s.cities i { s.cities i with owner := newOwner } }
            else some s
          else some (removeClient fd s)
        else some (removeClient fd s)
      else some (removeClient fd s)

/-! ### Messages -/

/-- The message that city `c`, counted from 0, belongs to `o`. -/
def message (o : UInt8) (c : Fin 20) : List UInt8 :=
  [o, char0 + .ofNat ((c + 1) / 10), char0 + .ofNat ((c + 1) % 10), newline]

/-- A letter a message can start with. -/
def Letter (o : UInt8) : Prop := o = charP ∨ o = charG

instance : DecidablePred Letter := fun _ => inferInstanceAs (Decidable (_ ∨ _))

/-- `buf` says that `c` belongs to `o`. -/
def Says (buf : List UInt8) (c : Fin 20) (o : UInt8) : Prop := Letter o ∧ buf = message o c

instance (buf : List UInt8) (c : Fin 20) (o : UInt8) : Decidable (Says buf c o) :=
  inferInstanceAs (Decidable (_ ∧ _))

theorem message_valid {o : UInt8} (ho : Letter o) (c : Fin 20) :
    isValid (message o c) = true ∧ cityIndex (message o c) = c + 1 := by
  rcases ho with rfl | rfl <;> revert c <;> decide

/-- A digit, from its number. -/
theorem digit_eq {b : UInt8} {n : Nat} (hb : 48 ≤ b.toNat) (hn : b.toNat - 48 = n) :
    b = char0 + .ofNat n := by
  apply UInt8.toNat_inj.mp
  rw [UInt8.toNat_add, UInt8.toNat_ofNat', char0]
  have := b.toNat_lt
  simp
  omega

theorem says_of_valid {buf : List UInt8} (hl : buf.length = 4) (hv : isValid buf = true)
    (h : 1 ≤ cityIndex buf ∧ cityIndex buf ≤ 20) :
    Says buf ⟨(cityIndex buf - 1).toNat, by omega⟩ (buf.getD 0 0) := by
  match buf, hl with
  | [o, t, u, e], _ =>
      simp only [isValid, List.getD_cons_zero, List.getD_cons_succ, Bool.and_eq_true,
        Bool.not_eq_true', Bool.and_eq_false_iff, Bool.or_eq_false_iff, decide_eq_false_iff_not,
        ne_eq, not_not, UInt8.lt_iff_toNat_lt, gt_iff_lt] at hv
      obtain ⟨⟨⟨ho, ht⟩, hu⟩, rfl⟩ := hv
      simp only [cityIndex, List.getD_cons_zero, List.getD_cons_succ] at h ⊢
      have h0 : char0.toNat = 48 := rfl
      rw [h0] at ht hu h
      refine ⟨ho, ?_⟩
      have h57 : UInt8.toNat 57 = 57 := rfl
      rw [h57] at ht hu
      have ht' : t = char0 +
          .ofNat ((((t.toNat - (48 : Nat) : Int) * 10 + (u.toNat - (48 : Nat)) - 1).toNat + 1) /
            10) :=
        digit_eq (by omega) (by omega)
      have hu' : u = char0 +
          .ofNat ((((t.toNat - (48 : Nat) : Int) * 10 + (u.toNat - (48 : Nat)) - 1).toNat + 1) %
            10) :=
        digit_eq (by omega) (by omega)
      simp only [message, h0]
      rw [← ht', ← hu']

theorem fin_eq {buf : List UInt8} {c : Fin 20} (hc : cityIndex buf = c + 1) :
    (⟨(cityIndex buf - 1).toNat, by have := c.isLt; omega⟩ : Fin 20) = c :=
  Fin.ext (by simp [hc])

/-- A message that says nothing is one the checks of `readEvent` turn down. -/
theorem says_iff {buf : List UInt8} {c : Fin 20} {o : UInt8} :
    Says buf c o ↔ buf.length = 4 ∧ isValid buf = true ∧ cityIndex buf = c + 1 ∧
      buf.getD 0 0 = o := by
  constructor
  · rintro ⟨ho, rfl⟩
    obtain ⟨hv, hc⟩ := message_valid ho c
    exact ⟨rfl, hv, hc, rfl⟩
  · rintro ⟨hl, hv, hc, rfl⟩
    have h := says_of_valid hl hv ⟨by omega, by omega⟩
    rwa [fin_eq hc] at h

/-! ### What one event does -/

/-- **One event of the listening socket.**  It finds no connection to accept; or accepts one into
the table; or, when the counter says that the table is full, accepts one and closes it. -/
theorem acceptEvent_cases (s : Server) (newFd : Int) :
    (newFd < 0 ∧ acceptEvent s newFd = s) ∨
    (0 ≤ newFd ∧ s.currentClients < maxClients ∧ acceptEvent s newFd =
      { s.asked (.accepted newFd) with
        clients := s.clients.replace (-1) newFd
        currentClients := s.currentClients + 1 }) ∨
    (0 ≤ newFd ∧ maxClients ≤ s.currentClients ∧
      acceptEvent s newFd = s.asked (.rejected newFd)) := by
  unfold acceptEvent
  rcases Int.lt_or_le newFd 0 with hfd | hfd
  · have hge : ¬ newFd ≥ 0 := Int.not_le.mpr hfd
    exact .inl ⟨hfd, by rw [if_neg hge, if_neg hge, ite_self]⟩
  · right
    rcases Int.lt_or_le s.currentClients maxClients with hlt | hle
    · exact .inl ⟨hfd, hlt, by rw [if_pos hlt, if_pos hfd]⟩
    · exact .inr ⟨hfd, hle, by rw [if_neg (Int.not_lt.mpr hle), if_pos hfd]⟩

/-- **One event of a client.**  It disconnects the client, because nothing could be read or what
was read says nothing; or it says what is known already; or it changes one city, and the message
is broadcast. -/
theorem readEvent_cases {s s' : Server} {fd : Int} {r : ReadResult} {wr : Nat → WriteResult}
    (h : readEvent s fd r wr = some s') :
    (r = .error ∧ s' = removeClient fd s) ∨
    (∃ buf, r = .bytes buf ∧ (∀ c o, ¬ Says buf c o) ∧
      s' = removeClient fd (s.asked (.read fd buf))) ∨
    ∃ buf c o, r = .bytes buf ∧ Says buf c o ∧
      (((s.cities c).owner = o ∧ s' = s.asked (.read fd buf)) ∨
       ((s.cities c).owner ≠ o ∧ broadcast wr fd buf (List.range maxClients)
          { s.asked (.read fd buf) with
            cities := Function.update s.cities c { s.cities c with owner := o } } = some s')) := by
  cases r with
  | error => exact .inl ⟨rfl, by simpa [readEvent, eq_comm] using h⟩
  | bytes buf =>
      right
      -- the checks let through exactly the messages that say something (`says_iff`)
      by_cases hs : ∃ c o, Says buf c o
      · right
        obtain ⟨c, o, hs⟩ := hs
        obtain ⟨hl, hv, hc, ho⟩ := says_iff.mp hs
        refine ⟨buf, c, o, rfl, hs, ?_⟩
        simp only [readEvent, hl, hv, if_true, dif_pos (show 1 ≤ cityIndex buf ∧
          cityIndex buf ≤ 20 by omega), fin_eq hc, ho] at h
        rw [if_neg (by decide)] at h
        split at h
        · exact .inr ⟨‹_›, h⟩
        · rename_i hne
          cases h
          exact .inl ⟨not_not.mp hne, rfl⟩
      · left
        refine ⟨buf, rfl, fun c o h => hs ⟨c, o, h⟩, ?_⟩
        simp only [readEvent] at h
        split at h
        · cases h; rfl
        · split at h
          · rename_i hl
            split at h
            · rename_i hv
              split at h
              · rename_i hi
                exact absurd ⟨_, _, says_of_valid hl hv hi⟩ hs
              · cases h; rfl
            · cases h; rfl
          · cases h; rfl

/-- A message says one thing. -/
theorem Says.unique {buf : List UInt8} {c c' : Fin 20} {o o' : UInt8} (h : Says buf c o)
    (h' : Says buf c' o') : c' = c ∧ o' = o := by
  obtain ⟨-, -, hc, ho⟩ := says_iff.mp h
  obtain ⟨-, -, hc', ho'⟩ := says_iff.mp h'
  exact ⟨Fin.ext (by omega), ho'.symm.trans ho⟩

/-! ### What is read off the log -/

/-- The connections that are open, and for each city the letter of the last message about it
that one of them has sent. -/
structure History where
  connections : List Int
  owners : Fin 20 → UInt8

def History.see (h : History) : Effect → History
  | .accepted fd => { h with connections := fd :: h.connections }
  | .removed fd _ => { h with connections := h.connections.filter (· ≠ fd) }
  | .read fd buf =>
      if fd ∈ h.connections then
        { h with
          owners := fun c =>
            if Says buf c charP then charP else if Says buf c charG then charG else h.owners c }
      else h
  | _ => h

/-- What has happened, from the start of the server. -/
def history (log : List Effect) : History := log.foldl History.see ⟨[], fun _ => charG⟩

/-- The descriptors that were accepted and are not yet closed. -/
def connections (log : List Effect) : List Int := (history log).connections

@[simp] theorem history_snoc (log : List Effect) (e : Effect) :
    history (log ++ [e]) = (history log).see e := by
  simp [history]

/-! ### The system -/

/-- The server, and the events `epoll_pwait` has returned that are still to be handled. -/
structure System where
  server : Server
  batch : List Int

/-- Before the first `epoll_pwait`. -/
def System.begin : System := ⟨start, []⟩

inductive Label where
  | wait
  | accept (newFd : Int)
  | client (fd : Int) (r : ReadResult)

/-- `fd` is a descriptor that is open. -/
def Open (sfd : Int) (log : List Effect) (fd : Int) : Prop := fd = sfd ∨ fd ∈ connections log

/-- One `epoll_pwait`, or one event.  The descriptors of a batch are distinct and open when it is
returned; a new connection gets a descriptor that is not in use; and `read` fails on a descriptor
that is closed. -/
inductive Step (sfd : Int) : System → Label → System → Prop where
  | wait {s : System} (events : List Int) (h : s.batch = []) (hlen : events.length ≤ maxEvents)
      (hn : events.Nodup) (ho : ∀ fd ∈ events, Open sfd s.server.log fd) :
      Step sfd s .wait { s with batch := events }
  | accept {s : System} (newFd : Int) (rest : List Int) (h : s.batch = sfd :: rest)
      (hfd : newFd = -1 ∨ 0 ≤ newFd ∧ ¬ Open sfd s.server.log newFd) :
      Step sfd s (.accept newFd) ⟨acceptEvent s.server newFd, rest⟩
  | client {s : System} (fd : Int) (rest : List Int) (r : ReadResult) (wr : Nat → WriteResult)
      (server : Server) (h : s.batch = fd :: rest) (hfd : fd ≠ sfd)
      (hr : fd ∉ connections s.server.log → r = .error)
      (hlen : ∀ buf, r = .bytes buf → buf.length ≤ 4)
      (hs : readEvent s.server fd r wr = some server) :
      Step sfd s (.client fd r) ⟨server, rest⟩

end Sop2.Poslancy
