import Sop2.Lab07.Aigen.Server

/-!
# Lab07 — Aigen — the messages of a match

What the two clients of a match are sent.  `main` does not initialise `name`, and
`strncpy(clients[j].name, buf, 15)` writes no NUL behind 15 bytes.

Beside the room of the server stands one that keeps each name as it was read (`Guest`), and of
every slot whether `remove_client` has cleared it.  Both find the same slots (`shows_event`).

* `Shows.sent_iff`: a slot that shows a guest gives the right message unless the name has 15 bytes
  and the last byte of the slot was never cleared and is not 0.
* `message_law`: so it is with every match of every run.
-/

namespace Sop2.Aigen
open Support

/-! ### The guests -/

/-- A slot of the waiting room, with the bytes that were read when it was taken. -/
structure Guest where
  fd : Int
  family : UInt8
  name : List UInt8
  /-- `name[15]` of the slot when `main` begins. -/
  initial : UInt8
  /-- `remove_client` has cleared the slot. -/
  cleared : Bool
  deriving DecidableEq

/-- `name[15]`, which is written by `memset` only. -/
def Guest.last (g : Guest) : UInt8 := if g.cleared then 0 else g.initial

/-- The slots when `main` begins. -/
def guestsAtStart (names : List (List UInt8)) : List Guest :=
  (List.range maxClients).map fun i => ⟨-1, 0, [], (names.getD i []).getD 15 0, false⟩

/-- The first slot of `fd` is cleared. -/
def clearGuest (fd : Int) (guests : List Guest) : List Guest :=
  changeFirst (fun g => g.fd = fd)
    (fun g => { g with fd := -1, family := 0, name := [], cleared := true }) guests

/-- The first free slot is taken. -/
def takeGuest (fd : Int) (family : UInt8) (name : List UInt8) (guests : List Guest) : List Guest :=
  changeFirst (fun g => g.fd = -1) (fun g => { g with fd := fd, family := family, name := name })
    guests

/-- The guest that somebody of `family` is matched with. -/
def guestFor (family : UInt8) (guests : List Guest) : Option Guest :=
  guests.find? fun g => g.fd ≠ -1 && g.family ≠ 0 && g.family ≠ family

/-- The guests after one move of the loop. -/
def seeGuests (guests : List Guest) : EventLoop.Label Input → List Guest
  | .wait => guests
  | .event _ (.accept _) => guests
  | .event fd (.client .error _ _) => clearGuest fd guests
  | .event fd (.client (.bytes []) _ _) => clearGuest fd guests
  | .event fd (.client (.bytes (b :: bs)) _ _) =>
      if Letter b then
        match guestFor b guests with
        | some g => clearGuest g.fd guests
        | none => takeGuest fd b (b :: bs) guests
      else clearGuest fd guests

/-- The guests of a run. -/
def guestsOf (names : List (List UInt8))
    (tr : List (Move (EventLoop.State Server) (EventLoop.Label Input))) : List Guest :=
  tr.foldl (fun guests m => seeGuests guests m.label) (guestsAtStart names)

/-! ### The slots show the guests -/

/-- A slot with what was copied into it. -/
structure Shows (c : ClientState) (g : Guest) : Prop where
  fd : c.fd = g.fd
  family : c.family = g.family
  length : c.name.length = 16
  last : c.name[15]? = some g.last
  name : g.fd ≠ -1 → g.name.length ≤ 15 ∧ ∃ dst : List UInt8, dst.length = 16 ∧
    dst[15]? = some g.last ∧ c.name = strncpy dst (bufOf g.name) 15

/-- There is room for a NUL behind what is read. -/
theorem cString_bufOf {bs : List UInt8} (h : bs.length ≤ 15) : cString (bufOf bs) = cString bs := by
  obtain ⟨n, hn⟩ : ∃ n, 16 - bs.length = n + 1 := ⟨15 - bs.length, by omega⟩
  rw [bufOf, hn, List.replicate_succ, cString_append_zero]

theorem length_cString_bufOf {bs : List UInt8} (h : bs.length ≤ 15) :
    (cString (bufOf bs)).length ≤ 15 := by
  rw [cString_bufOf h]
  exact (length_cString_le bs).trans h

theorem shows_start {names : List (List UInt8)}
    (hnames : ∀ i < maxClients, (names.getD i []).length = 16) :
    List.Forall₂ Shows (start names).clients (guestsAtStart names) := by
  rw [start, guestsAtStart, List.forall₂_map_left_iff, List.forall₂_map_right_iff,
    List.forall₂_same]
  intro i hi
  have hlen := hnames i (List.mem_range.mp hi)
  generalize names.getD i [] = name at *
  have hlast : name[15]? = some name[15] := List.getElem?_eq_getElem (by omega)
  refine ⟨rfl, rfl, hlen, ?_, fun h => absurd rfl h⟩
  change name[15]? = some (name.getD 15 0)
  rw [List.getD_eq_getElem?_getD, hlast]
  rfl

variable {clients : List ClientState} {guests : List Guest}

theorem shows_clear (h : List.Forall₂ Shows clients guests) (fd : Int) :
    List.Forall₂ Shows (setFirst (fun c => c.fd = fd) ⟨-1, 0, List.replicate 16 0⟩ clients)
      (clearGuest fd guests) := by
  rw [setFirst_eq_changeFirst]
  refine forall₂_changeFirst h (fun hs => by rw [hs.fd]) fun _ _ => ?_
  exact ⟨rfl, rfl, rfl, rfl, fun hfd => absurd rfl hfd⟩

theorem shows_take (h : List.Forall₂ Shows clients guests) (fd : Int) (family : UInt8)
    {name : List UInt8} (hname : name.length ≤ 15) :
    List.Forall₂ Shows (takeSlot fd family (bufOf name) clients)
      (takeGuest fd family name guests) := by
  have htake : takeSlot fd family (bufOf name) clients =
      changeFirst (fun c => c.fd = -1)
        (fun c => ⟨fd, family, strncpy c.name (bufOf name) 15⟩) clients := by
    unfold takeSlot
    split
    · rename_i c hc
      exact changeFirst_of_find? hc fun c =>
        (⟨fd, family, strncpy c.name (bufOf name) 15⟩ : ClientState)
    · rename_i hnone
      exact (changeFirst_of_find?_none hnone _).symm
  rw [htake]
  refine forall₂_changeFirst h (fun hs => by rw [hs.fd]) fun {c g} hs _ => ?_
  have hle := length_cString_bufOf hname
  exact
    { fd := rfl
      family := rfl
      length := length_strncpy hs.length hs.last hle
      last := strncpy_last hs.length hs.last hle
      name := fun _ => ⟨hname, c.name, hs.length, hs.last, rfl⟩ }

/-- Both rooms have a client of another family, or none. -/
theorem shows_opponent (h : List.Forall₂ Shows clients guests) (family : UInt8) :
    (opponent family clients = none ∧ guestFor family guests = none) ∨
      ∃ c g, opponent family clients = some c ∧ guestFor family guests = some g ∧ Shows c g :=
  forall₂_find? h fun hs => by rw [hs.fd, hs.family]

variable {localSfd tcpSfd : Int}

/-- **One event**, in both rooms. -/
theorem shows_event {s s' : Server} {fd : Int} {input : Input}
    (h : List.Forall₂ Shows s.clients guests) (hs : Handle localSfd tcpSfd s fd input s') :
    List.Forall₂ Shows s'.clients (seeGuests guests (.event fd input)) := by
  cases hs with
  | accept clientFd hfd hnew =>
      unfold acceptEvent
      split <;> exact h
  | client hfd hr hlen hw hs =>
      rcases readEvent_cases hs with ⟨rfl, rfl⟩ | ⟨bs, rfl, hbs, rfl⟩ | ⟨b, bs, rfl, hb, hcase⟩
      · exact shows_clear h fd
      -- no name: at the end of the stream, or with another first letter
      · cases bs with
        | nil => exact shows_clear h fd
        | cons b bs =>
            rw [seeGuests, if_neg (hbs b rfl)]
            exact shows_clear h fd
      -- a name: both rooms have somebody to match it with, or neither has
      · rw [seeGuests, if_pos hb]
        rcases shows_opponent h b with ⟨hnone, hguest⟩ | ⟨c, g, hsome, hguest, hshows⟩
        · rcases hcase with ⟨c, t, hop, -⟩ | ⟨-, rfl⟩
          · rw [hnone] at hop; cases hop
          · rw [hguest]
            exact shows_take h fd b (hlen _ rfl)
        · rcases hcase with ⟨c', t, hop, -, ht, -, rfl⟩ | ⟨hop, -⟩
          · rw [hsome] at hop
            cases hop
            rw [hguest]
            dsimp only
            rw [← hshows.fd]
            rw [← ht] at h
            exact shows_clear h c.fd
          · rw [hsome] at hop; cases hop

variable {names : List (List UInt8)} {s t : EventLoop.State Server}
  {tr : List (Move (EventLoop.State Server) (EventLoop.Label Input))}

/-- **Every run**, in both rooms. -/
theorem shows_run (hnames : ∀ i < maxClients, (names.getD i []).length = 16)
    (r : Run (loop localSfd tcpSfd).Step (begin names) tr s) :
    List.Forall₂ Shows s.server.clients (guestsOf names tr) := by
  induction r with
  | refl => exact shows_start hnames
  | snoc r h ih =>
      rw [guestsOf, List.foldl_append]
      cases h with
      | wait => exact ih
      | event fd input rest server _ hhandle => exact shows_event ih hhandle

/-! ### The messages -/

/-- `MATCH: ` and a name. -/
def matchText (name : List UInt8) : List UInt8 := [77, 65, 84, 67, 72, 58, 32] ++ name

/-- The two messages of a match: the one who has sent `new` gets `name`, read within the slot of
`c`, the other gets `new`; and both fit into 32 bytes with their NUL. -/
structure Sent (c : ClientState) (name new : List UInt8) : Prop where
  within : 0 ∈ c.name
  toNew : message c.name = matchText name
  toWaiting : message (bufOf new) = matchText new
  fits : (message c.name).length < 32 ∧ (message (bufOf new)).length < 32

theorem message_bufOf {new : List UInt8} (hlen : new.length ≤ 15) (hz : 0 ∉ new) :
    message (bufOf new) = matchText new := by
  rw [message, cString_bufOf hlen, cString_of_notMem hz, matchText]

/-- **One match.**  The messages are the right ones unless the waiting name has 15 bytes, and the
last byte of its slot was never cleared and is not 0. -/
theorem Shows.sent_iff {c : ClientState} {g : Guest} (h : Shows c g) (hfd : g.fd ≠ -1)
    (hname : 0 ∉ g.name) {new : List UInt8} (hlen : new.length ≤ 15) (hnew : 0 ∉ new) :
    Sent c g.name new ↔ g.name.length < 15 ∨ g.cleared = true ∨ g.initial = 0 := by
  obtain ⟨hle, dst, hdst, hlast, hcopy⟩ := h.name hfd
  have htext : cString (bufOf g.name) = g.name := by rw [cString_bufOf hle, cString_of_notMem hname]
  have hle' : (cString (bufOf g.name)).length ≤ 15 := length_cString_bufOf hle
  have hzero : g.last = 0 ↔ g.cleared = true ∨ g.initial = 0 := by
    unfold Guest.last
    cases g.cleared <;> simp
  rw [← hzero]
  constructor
  -- 15 bytes fill the slot but for the last byte, which `strncpy` leaves alone
  · intro hsent
    have hwithin := hsent.within
    rw [hcopy, zero_mem_strncpy hdst hlast hle', htext] at hwithin
    exact hwithin
  · intro hshort
    have hread : cString c.name = g.name := by
      rw [hcopy, (cString_strncpy_iff hdst hlast hle').mpr (by rw [htext]; exact hshort), htext]
    have hwithin : 0 ∈ c.name := by
      rw [hcopy, zero_mem_strncpy hdst hlast hle', htext]
      exact hshort
    have hnew' := message_bufOf hlen hnew
    refine ⟨hwithin, by rw [message, hread, matchText], hnew', ?_, ?_⟩
    · rw [message, hread, List.length_append]
      exact Nat.lt_of_le_of_lt (Nat.add_le_add_left hle _) (by decide)
    · rw [hnew', matchText, List.length_append]
      exact Nat.lt_of_le_of_lt (Nat.add_le_add_left hlen _) (by decide)

/-- What the server asks of the system in a match whose messages can be written. -/
theorem matched_log {s s' : Server} {fd : Int} {b : UInt8} {bs : List UInt8} {c : ClientState}
    (hb : Letter b) (hc : opponent b s.clients = some c)
    (h : readEvent s fd (.bytes (b :: bs)) .written .written = some s') :
    s'.log = s.log ++ [.read fd (b :: bs), .wrote fd (message c.name),
      .wrote c.fd (message (bufOf (b :: bs))), .matched fd c.fd, .closed c.fd, .closed fd] := by
  have hletter : ¬ (b ≠ charM ∧ b ≠ charC) := fun hno => hb.elim hno.1 hno.2
  have hc' : opponent b (s.asked (.read fd (b :: bs))).clients = some c := hc
  simp only [readEvent, if_neg hletter, hc', write, Option.bind_some, Option.map_some,
    Option.some.injEq] at h
  subst h
  simp [removeClient, Server.asked]

/-- **The messages of a match.**  In any history of the server, and whatever the names hold when it
begins: whoever is matched with a client in the room is told the name that was read from it, and
that one the new name, and nothing is read outside the slot, exactly if the waiting name has fewer
than 15 bytes, or its slot was cleared before, or the last byte of the slot was 0 at the
beginning. -/
theorem message_law (hnames : ∀ i < maxClients, (names.getD i []).length = 16)
    (r : Run (loop localSfd tcpSfd).Step (begin names) tr s) {fd : Int} {b : UInt8}
    {bs : List UInt8} {w w' : WriteResult} (hb : Letter b)
    (h : (loop localSfd tcpSfd).Step s (.event fd (.client (.bytes (b :: bs)) w w')) t)
    {c : ClientState} (hc : opponent b s.server.clients = some c) :
    ∃ g, guestFor b (guestsOf names tr) = some g ∧ g.fd = c.fd ∧ g.name.length ≤ 15 ∧
      c.name.length = 16 ∧
      (w = .written → w' = .written → t.server.log = s.server.log ++
        [.read fd (b :: bs), .wrote fd (message c.name), .wrote c.fd (message (bufOf (b :: bs))),
          .matched fd c.fd, .closed c.fd, .closed fd]) ∧
      (0 ∉ g.name → 0 ∉ b :: bs →
        (Sent c g.name (b :: bs) ↔ g.name.length < 15 ∨ g.cleared = true ∨ g.initial = 0)) := by
  rcases shows_opponent (shows_run hnames r) b with ⟨hnone, -⟩ | ⟨c', g, hsome, hguest, hshows⟩
  · rw [hnone] at hc; cases hc
  · rw [hsome] at hc
    cases hc
    have hfd : g.fd ≠ -1 := by
      rw [← hshows.fd]
      exact (opponent_some hsome).2.1
    cases h with
    | event _ _ rest server _ hhandle =>
        cases hhandle with
        | client hsfd hr hlen hw hs =>
            refine ⟨g, hguest, hshows.fd.symm, (hshows.name hfd).1, hshows.length, ?_, ?_⟩
            · rintro rfl rfl
              exact matched_log hb hsome hs
            · intro hname hnew
              exact hshows.sent_iff hfd hname (hlen _ rfl) hnew

/-! ### Two clients -/

/-- A name of 15 bytes. -/
def fifteen : List UInt8 := List.replicate 15 charM

/-- The room after that name was read from the connection 5; the connection 6 is open. -/
def longWaits (names : List (List UInt8)) : Server where
  clients := takeSlot 5 charM (bufOf fifteen) (start names).clients
  log := [.accepted 5, .read 5 fifteen, .accepted 6]

theorem longWaits_run (names : List (List UInt8)) : ∃ tr,
    Run (loop 3 4).Step (begin names) tr ⟨longWaits names, [6]⟩ ∧
      guestsOf names tr = takeGuest 5 charM fifteen (guestsAtStart names) := by
  have h₁ : (loop 3 4).Step (begin names) .wait ⟨start names, [3]⟩ :=
    .wait [3] rfl (by decide) (by decide) (by simp [loop])
  have h₂ : (loop 3 4).Step ⟨start names, [3]⟩ (.event 3 (.accept 5))
      ⟨acceptEvent (start names) 5, []⟩ :=
    .event 3 _ [] _ rfl (.accept 5 (.inl rfl) (.inr ⟨by decide, by decide, by decide, rfl⟩))
  have h₃ : (loop 3 4).Step ⟨acceptEvent (start names) 5, []⟩ .wait
      ⟨acceptEvent (start names) 5, [5]⟩ :=
    .wait [5] rfl (by decide) (by decide) (by
      intro fd hfd
      obtain rfl := List.mem_singleton.mp hfd
      exact .inr (.inr (by rintro ⟨⟩)))
  have h₄ : (loop 3 4).Step ⟨acceptEvent (start names) 5, [5]⟩
      (.event 5 (.client (.bytes fifteen) .written .written))
      ⟨⟨(longWaits names).clients, [.accepted 5, .read 5 fifteen]⟩, []⟩ :=
    .event 5 _ [] _ rfl (.client ⟨by decide, by decide⟩ (by rintro ⟨⟩)
      (by rintro _ ⟨⟩; decide) (by rintro _ _ c ⟨⟩ ⟨⟩) rfl)
  have h₅ : (loop 3 4).Step ⟨⟨(longWaits names).clients, [.accepted 5, .read 5 fifteen]⟩, []⟩ .wait
      ⟨⟨(longWaits names).clients, [.accepted 5, .read 5 fifteen]⟩, [3]⟩ :=
    .wait [3] rfl (by decide) (by decide) (by simp [loop])
  have h₆ : (loop 3 4).Step
      ⟨⟨(longWaits names).clients, [.accepted 5, .read 5 fifteen]⟩, [3]⟩ (.event 3 (.accept 6))
      ⟨longWaits names, []⟩ :=
    .event 3 _ [] _ rfl (.accept 6 (.inl rfl) (.inr ⟨by decide, by decide, by decide, rfl⟩))
  have h₇ : (loop 3 4).Step ⟨longWaits names, []⟩ .wait ⟨longWaits names, [6]⟩ :=
    .wait [6] rfl (by decide) (by decide) (by
      intro fd hfd
      obtain rfl := List.mem_singleton.mp hfd
      exact .inr (.inr (by rintro ⟨⟩)))
  exact ⟨_, ((((((Run.one h₁).snoc h₂).snoc h₃).snoc h₄).snoc h₅).snoc h₆).snoc h₇, rfl⟩

/-- The slot of that client. -/
def longSlot (name : List UInt8) : ClientState := ⟨5, charM, strncpy name (bufOf fifteen) 15⟩

theorem longWaits_opponent (names : List (List UInt8)) :
    opponent charC (longWaits names).clients = some (longSlot (names.getD 0 [])) := rfl

/-- The connection 6 sends `C`. -/
theorem longWaits_match (names : List (List UInt8)) :
    ∃ t, (loop 3 4).Step ⟨longWaits names, [6]⟩
      (.event 6 (.client (.bytes [charC]) .written .written)) t := by
  refine ⟨⟨_, []⟩, .event 6 _ [] _ rfl
    (.client ⟨by decide, by decide⟩ (by rintro ⟨⟩) (by rintro _ ⟨⟩; decide) ?_ rfl)⟩
  rintro _ _ c ⟨⟩ hc hnone
  rw [longWaits_opponent] at hc
  cases hc
  cases hnone

/-- Where the bytes of the names are 1 when the server begins, there is no NUL behind a name of 15
bytes. -/
theorem unterminated : ∃ tr t c g,
    Run (loop 3 4).Step (begin (List.replicate maxClients (List.replicate 16 1))) tr
      ⟨longWaits (List.replicate maxClients (List.replicate 16 1)), [6]⟩ ∧
    (loop 3 4).Step ⟨longWaits (List.replicate maxClients (List.replicate 16 1)), [6]⟩
      (.event 6 (.client (.bytes [charC]) .written .written)) t ∧
    opponent charC (longWaits (List.replicate maxClients (List.replicate 16 1))).clients = some c ∧
    guestFor charC (guestsOf (List.replicate maxClients (List.replicate 16 1)) tr) = some g ∧
    g.name = fifteen ∧ 0 ∉ c.name ∧ ¬ Sent c g.name [charC] := by
  obtain ⟨tr, r, hguests⟩ := longWaits_run (List.replicate maxClients (List.replicate 16 1))
  obtain ⟨t, h⟩ := longWaits_match (List.replicate maxClients (List.replicate 16 1))
  have hopen : 0 ∉ (longSlot (List.replicate 16 1)).name := by decide
  refine ⟨tr, t, longSlot (List.replicate 16 1), ⟨5, charM, fifteen, 1, false⟩, r, h, rfl, ?_, rfl,
    hopen, fun hsent => hopen hsent.within⟩
  rw [hguests]
  rfl

/-- Where they are 0, there is one. -/
theorem message_law_zeros : ∃ tr t,
    Run (loop 3 4).Step (begin (List.replicate maxClients (List.replicate 16 0))) tr
      ⟨longWaits (List.replicate maxClients (List.replicate 16 0)), [6]⟩ ∧
    (loop 3 4).Step ⟨longWaits (List.replicate maxClients (List.replicate 16 0)), [6]⟩
      (.event 6 (.client (.bytes [charC]) .written .written)) t ∧
    Sent (longSlot (List.replicate 16 0)) fifteen [charC] := by
  obtain ⟨tr, r, hguests⟩ := longWaits_run (List.replicate maxClients (List.replicate 16 0))
  obtain ⟨t, h⟩ := longWaits_match (List.replicate maxClients (List.replicate 16 0))
  obtain ⟨g, hguest, -, -, -, -, hsent⟩ :=
    message_law (by decide) r (.inr rfl) h (longWaits_opponent _)
  rw [hguests] at hguest
  have hg : g = ⟨5, charM, fifteen, 0, false⟩ := (Option.some.inj hguest).symm
  subst hg
  exact ⟨tr, t, r, h, (hsent (by decide) (by decide)).mpr (.inr (.inr rfl))⟩

end Sop2.Aigen
