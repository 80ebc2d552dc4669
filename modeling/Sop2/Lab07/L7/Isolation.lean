import Sop2.Lab07.L7.Service

/-!
# Lab07 — L7 — isolation

The server answers each connection from what came over that connection, although `data` is one array
for all of them, and serves one after another to its end, whatever the clients do meanwhile.

* `Served`: how a connection that is closed has been served.
* `Sound.step`: the invariant.  The connection that is accepted is the one that the server is at, and
  the events that are still to be handled have connections in their queues.
* `service_law`: what is written to a connection, and when the server stops.
* `client_law`: what the clients of this directory print.
-/

namespace Sop2.L7
open Support
open Bulk (Reading Writing Outcome Reads Writes Filled Emptied)

variable {C : Type*} {o : ByteOrder} {k k' : Conn} {r r' : Reading} {w w' : Writing} {out : Outcome}

/-! ### One connection -/

/-- The connection has been served: the client has ended it with no request of twenty bytes, and
nothing has been written; or its request has been answered, unless the client was gone. -/
def Served (o : ByteOrder) (k : Conn) : Prop :=
  (k.written = [] ∧ k.sent.length < size ∧ k.peer ≠ .sends) ∨
    size ≤ k.sent.length ∧ ∃ a, answerTo o (k.sent.take size) = some a ∧ k.written <+: a ∧
      (k.written = a ∨ k.peer = .closed ∨ k.peer = .reset)

/-- How far `bulk_read` is with a connection. -/
structure Taking (k : Conn) (r : Reading) : Prop where
  filled : ∃ mem, Filled size mem k.stream r
  taken : r.taken ≤ k.sent.length
  more : r.loop.returned = none → r.taken < size
  returned : ∀ x, r.loop.returned = some x →
    (x = r.taken ∧ (r.taken = size ∨ r.taken < size ∧ r.taken = k.sent.length ∧ k.peer ≠ .sends)) ∨
      x = -1 ∧ k.peer = .reset

/-- And `bulk_write`, with the answer `a`. -/
structure Giving (mem : Nat → UInt8) (k : Conn) (w : Writing) : Prop where
  emptied : Emptied size mem w
  written : k.written = w.out
  more : w.loop.returned = none → w.out.length < size
  returned : ∀ x, w.loop.returned = some x → 0 ≤ x ∧ w.out.length = size

/-- What was sent first stays so. -/
theorem Grows.take (h : Grows k k') (hlen : size ≤ k.sent.length) :
    size ≤ k'.sent.length ∧ k'.sent.take size = k.sent.take size := by
  obtain ⟨bs, hbs⟩ := h.sent
  rw [← hbs]
  exact ⟨hlen.trans (by simp), List.take_append_of_le_length hlen⟩

theorem Grows.stream (h : Grows k k') {i : Nat} (hi : i < k.sent.length) :
    k'.stream i = k.stream i := by
  obtain ⟨bs, hbs⟩ := h.sent
  rw [Conn.stream, Conn.stream, ← hbs, List.getD_eq_getElem?_getD, List.getD_eq_getElem?_getD,
    List.getElem?_append_left hi]

theorem Served.grows (hs : Served o k) (h : Grows k k') : Served o k' := by
  rcases hs with ⟨hwritten, hlen, hpeer⟩ | ⟨hlen, a, ha, hpre, hend⟩
  · obtain ⟨hsent, hquiet⟩ := h.quiet hpeer
    exact .inl ⟨h.written.trans hwritten, by rwa [hsent], hquiet⟩
  · obtain ⟨hlen', htake⟩ := h.take hlen
    refine .inr ⟨hlen', a, by rwa [htake], by rwa [h.written], ?_⟩
    rw [h.written]
    exact hend.imp_right h.gone

theorem Taking.grows (hs : Taking k r) (h : Grows k k') : Taking k' r where
  filled := by
    obtain ⟨mem, hfilled⟩ := hs.filled
    refine ⟨mem, hfilled.pos, hfilled.len, hfilled.left, fun i hi => ?_, hfilled.outside⟩
    rw [h.stream (hi.trans_le hs.taken)]
    exact hfilled.data i hi
  taken := hs.taken.trans h.sent.length_le
  more := hs.more
  returned x hx := by
    rcases hs.returned x hx with ⟨rfl, hall | ⟨hlt, hend, hpeer⟩⟩ | ⟨rfl, hreset⟩
    · exact .inl ⟨rfl, .inl hall⟩
    · obtain ⟨hsent, hquiet⟩ := h.quiet hpeer
      exact .inl ⟨rfl, .inr ⟨hlt, by rwa [hsent], hquiet⟩⟩
    · exact .inr ⟨rfl, h.reset hreset⟩

theorem Giving.grows {mem : Nat → UInt8} (hs : Giving mem k w) (h : Grows k k') :
    Giving mem k' w :=
  ⟨hs.emptied, h.written.trans hs.written, hs.more, hs.returned⟩

theorem taking_start (k : Conn) (mem : Nat → UInt8) : Taking k (.start mem size) where
  filled := ⟨mem, Bulk.filled_start⟩
  taken := Nat.zero_le _
  more _ := (by decide : 0 < size)
  returned x hx := by cases hx

/-- One `read`. -/
theorem Taking.step (hs : Taking k r) (hread : Reads k.stream r out r')
    (hgives : k.Gives r.taken out) : Taking k r' := by
  obtain ⟨mem, hfilled⟩ := hs.filled
  have hlt := hs.more hread.1
  have hleft := hfilled.left
  have hfits : Bulk.Fits size r.taken out := by
    cases out with
    | moved n =>
        have hof : n ≤ r.loop.count := hread.2.1.2
        refine ⟨?_, fun _ => by decide⟩
        change n ≤ 2147483647
        change _ = 20 at hleft
        omega
    | eof =>
        change r.taken ≤ 9223372036854775807
        change _ < 20 at hlt
        omega
    | eintr | error => trivial
  have hfilled' := hfilled.step hread hfits
  have hright := hfilled.right hread hfits
  have hturn := hread.2.2
  cases out with
  | eintr => exact hgives.elim
  | error =>
      have hret : r'.loop.returned = some (-1) := by rw [hturn]; rfl
      have htaken : r'.taken = r.taken := by rw [hturn]; rfl
      refine ⟨⟨mem, hfilled'⟩, htaken ▸ hs.taken, fun hnone => ?_, fun x hx => ?_⟩
      · rw [hret] at hnone
        cases hnone
      · rw [hret] at hx
        exact .inr ⟨(Option.some.inj hx).symm, hgives⟩
  | eof =>
      have htaken : r'.taken = r.taken := by rw [hturn]; rfl
      have hret : r'.loop.returned = some (r'.taken : Int) := by
        have hlen := hfilled.len
        rw [htaken, ← hlen, ← Bulk.toSsize_of_le (hlen ▸ hfits), hturn]
        rfl
      refine ⟨⟨mem, hfilled'⟩, htaken ▸ hs.taken, fun hnone => ?_, fun x hx => ?_⟩
      · rw [hret] at hnone
        cases hnone
      · rw [hret] at hx
        rw [htaken] at hx ⊢
        exact .inl ⟨(Option.some.inj hx).symm, .inr ⟨hlt, hgives⟩⟩
  | moved n =>
      have htaken : r'.taken = r.taken + n := by rw [hturn]; rfl
      have hle : r.taken + n ≤ size := by
        have hof : n ≤ r.loop.count := hread.2.1.2
        omega
      have hret : r'.loop.returned = if 0 < r.loop.count - n then none else
          some (Bulk.toSsize (r.loop.len + n)) := by
        rw [hturn, Bulk.turn_moved, Bulk.read_of_le hread.2.1.1 hfits.1, Bulk.advance_of_le hfits.1]
      refine ⟨⟨mem, hfilled'⟩, htaken ▸ hgives, fun hnone => ?_, fun x hx => ?_⟩
      · rw [hret] at hnone
        split at hnone
        · omega
        · cases hnone
      · rw [hret] at hx
        split at hx
        · cases hx
        · have hlen := hfilled.len
          have hall : r'.taken = size := by omega
          rw [hlen, ← htaken, Bulk.toSsize_of_le (by rw [hall]; decide)] at hx
          exact .inl ⟨(Option.some.inj hx).symm, .inl hall⟩

/-- One `write`. -/
theorem Giving.step {mem : Nat → UInt8} {n : Nat} (hs : Giving mem k w)
    (hwrite : Writes mem w (.moved n) w') : Giving mem { k with written := w'.out } w' := by
  have hleft := hs.emptied.left
  have hone : 1 ≤ n := hwrite.2.1.1
  have hof : n ≤ w.loop.count := hwrite.2.1.2
  have hfits : Bulk.Fits size w.out.length (.moved n) := by
    refine ⟨?_, fun _ => by decide⟩
    change n ≤ 2147483647
    change _ = 20 at hleft
    omega
  have hemptied := hs.emptied.step hwrite hfits
  have hturn := hwrite.2.2.2
  have hout : w'.out.length = w.out.length + n := by
    rw [hturn, Bulk.write_moved]
    simp
  have hret : w'.loop.returned = if 0 < w.loop.count - n then none else
      some (Bulk.toSsize (w.loop.len + n)) := by
    rw [hturn, Bulk.write_moved, Bulk.write_of_le hfits.1, Bulk.advance_of_le hfits.1]
  refine ⟨hemptied, rfl, fun hnone => ?_, fun x hx => ?_⟩
  · rw [hret] at hnone
    split at hnone
    · omega
    · cases hnone
  · rw [hret] at hx
    split at hx
    · cases hx
    · have hlen := hs.emptied.len
      have hall : w'.out.length = size := by omega
      rw [hlen, ← hout, Bulk.toSsize_of_le (by rw [hall]; decide)] at hx
      obtain rfl := Option.some.inj hx
      exact ⟨Int.natCast_nonneg _, hall⟩

theorem giving_start (mem : Nat → UInt8) (h : k.written = []) : Giving mem k (.start size) where
  emptied := Bulk.emptied_start
  written := h
  more _ := (by decide : 0 < size)
  returned x hx := by cases hx

/-! ### The server -/

/-- What has been written is a part of the answer. -/
def Partly (o : ByteOrder) (k : Conn) : Prop :=
  k.written = [] ∨
    size ≤ k.sent.length ∧ ∃ a, answerTo o (k.sent.take size) = some a ∧ k.written <+: a

theorem Served.partly (h : Served o k) : Partly o k := by
  rcases h with ⟨hwritten, -⟩ | ⟨hlen, a, ha, hpre, -⟩
  · exact .inl hwritten
  · exact .inr ⟨hlen, a, ha, hpre⟩

theorem Partly.grows (hs : Partly o k) (h : Grows k k') : Partly o k' := by
  rcases hs with hwritten | ⟨hlen, a, ha, hpre⟩
  · exact .inl (h.written.trans hwritten)
  · obtain ⟨hlen', htake⟩ := h.take hlen
    exact .inr ⟨hlen', a, by rwa [htake], by rwa [h.written]⟩

/-- The connection that the server is at. -/
def Place.current : Place C → Option C
  | .reading c _ _ | .calculating c _ | .writing c _ _ | .closing c _ | .undefined c => some c
  | .failed c => c
  | _ => none

/-- The events that are still to be handled. -/
def Place.agenda : Place C → List Listener
  | .events rest | .reading _ _ rest | .calculating _ rest | .writing _ _ rest
  | .closing _ rest => rest
  | _ => []

/-- How the server is with it. -/
def At (o : ByteOrder) (data : Nat → UInt8) (conn : C → Conn) : Place C → Prop
  | .reading c r _ => Taking (conn c) r ∧ (conn c).written = []
  | .calculating c _ => (conn c).written = [] ∧ size ≤ (conn c).sent.length ∧
      ∀ i < size, data i = (conn c).stream i
  | .writing c w _ => Giving data (conn c) w ∧ size ≤ (conn c).sent.length ∧
      answerTo o ((conn c).sent.take size) = some ((List.range size).map data)
  | .closing c _ => Served o (conn c)
  | .failed x => ∃ c, x = some c ∧ (conn c).peer = .reset ∧ Partly o (conn c)
  | .undefined c => (conn c).written = [] ∧ size ≤ (conn c).sent.length ∧
      answerTo o ((conn c).sent.take size) = none
  | _ => True

/-- **The invariant.** -/
structure Sound (o : ByteOrder) (s : State C) : Prop where
  here : At o s.data s.conn s.place
  accepted : ∀ c, (s.conn c).phase = .accepted ↔ s.place.current = some c
  before : ∀ c, (s.conn c).phase = .new ∨ (s.conn c).phase = .queued → (s.conn c).written = []
  served : ∀ c, (s.conn c).phase = .closed → Served o (s.conn c)
  queued : ∀ l, ∀ c ∈ s.queue l, (s.conn c).phase = .queued
  once : ∀ l, (s.queue l).Nodup
  apart : ∀ l l', ∀ c ∈ s.queue l, c ∈ s.queue l' → l = l'
  nodup : s.place.agenda.Nodup
  ready : ∀ l ∈ s.place.agenda, s.queue l ≠ []

variable {s t : State C} {p : Place C} {conn conn' : C → Conn} {data : Nat → UInt8} {c : C}

/-- The clients may go on. -/
theorem At.grows (hs : At o data conn p) (h : ∀ c, Grows (conn c) (conn' c)) : At o data conn' p := by
  cases p with
  | reading c r rest => exact ⟨hs.1.grows (h c), (h c).written.trans hs.2⟩
  | calculating c rest =>
      obtain ⟨hwritten, hlen, hdata⟩ := hs
      refine ⟨(h c).written.trans hwritten, ((h c).take hlen).1, fun i hi => ?_⟩
      rw [(h c).stream (hi.trans_le hlen)]
      exact hdata i hi
  | writing c w rest =>
      obtain ⟨hgiving, hlen, ha⟩ := hs
      obtain ⟨hlen', htake⟩ := (h c).take hlen
      exact ⟨hgiving.grows (h c), hlen', htake ▸ ha⟩
  | closing c rest => exact Served.grows hs (h c)
  | failed x =>
      obtain ⟨c, rfl, hreset, hpartly⟩ := hs
      exact ⟨c, rfl, (h c).reset hreset, hpartly.grows (h c)⟩
  | undefined c =>
      obtain ⟨hwritten, hlen, ha⟩ := hs
      obtain ⟨hlen', htake⟩ := (h c).take hlen
      exact ⟨(h c).written.trans hwritten, hlen', htake ▸ ha⟩
  | loop | waiting | events | ended => trivial

/-- It is about the connection that the server is at, only. -/
theorem At.congr (hs : At o data conn p) (h : ∀ c, p.current = some c → conn' c = conn c) :
    At o data conn' p := by
  cases p with
  | reading c | calculating c | writing c | closing c | undefined c =>
      have hc := h c rfl
      simp only [At, hc] at hs ⊢
      exact hs
  | failed x =>
      obtain ⟨c, rfl, hs⟩ := hs
      rw [← h c rfl] at hs
      exact ⟨c, rfl, hs⟩
  | loop | waiting | events | ended => trivial

/-- The clients go on, and the server does not. -/
theorem Sound.grows (hs : Sound o s) (h : ∀ c, Grows (s.conn c) (conn' c)) :
    Sound o { s with conn := conn' } where
  here := hs.here.grows h
  accepted c := by
    change (conn' c).phase = _ ↔ _
    rw [(h c).phase]
    exact hs.accepted c
  before c hc := by
    change (conn' c).phase = _ ∨ (conn' c).phase = _ at hc
    rw [(h c).phase] at hc
    exact (h c).written.trans (hs.before c hc)
  served c hc := by
    change (conn' c).phase = _ at hc
    rw [(h c).phase] at hc
    exact (hs.served c hc).grows (h c)
  queued l c hc := (h c).phase.trans (hs.queued l c hc)
  once := hs.once
  apart := hs.apart
  nodup := hs.nodup
  ready := hs.ready

/-- The server goes on, and no connection changes. -/
theorem Sound.goes (hs : Sound o s) {doWork sigint : Bool} (hhere : At o data s.conn p)
    (hcurrent : p.current = s.place.current) (hnodup : p.agenda.Nodup)
    (hready : ∀ l ∈ p.agenda, s.queue l ≠ []) :
    Sound o { s with place := p, doWork := doWork, sigint := sigint, data := data } where
  here := hhere
  accepted c := by
    change _ ↔ p.current = some c
    rw [hcurrent]
    exact hs.accepted c
  before := hs.before
  served := hs.served
  queued := hs.queued
  once := hs.once
  apart := hs.apart
  nodup := hnodup
  ready := hready

/-- What `bulk_read` returns. -/
theorem At.returned {rest : List Listener} {x : Int} (hs : At o data conn (.reading c r rest))
    (hx : r.loop.returned = some x) : At o r.mem conn (bulkReadDone c rest x) := by
  obtain ⟨htaking, hwritten⟩ := hs
  rcases htaking.returned x hx with ⟨rfl, hall | ⟨hlt, hend, hpeer⟩⟩ | ⟨rfl, hreset⟩
  · -- the whole request
    have hplace : bulkReadDone c rest (r.taken : Int) = .calculating c rest := by
      rw [bulkReadDone, if_neg (by omega), if_pos (by rw [hall])]
    obtain ⟨mem, hfilled⟩ := htaking.filled
    rw [hplace]
    exact ⟨hwritten, hall ▸ htaking.taken, fun i hi => hfilled.data i (hall.symm ▸ hi)⟩
  · -- a part of one
    have hplace : bulkReadDone c rest (r.taken : Int) = .closing c rest := by
      rw [bulkReadDone, if_neg (by omega), if_neg (by omega)]
    rw [hplace]
    exact .inl ⟨hwritten, hend ▸ hlt, hpeer⟩
  · have hplace : bulkReadDone c rest (-1) = .failed (some c) := if_pos (by decide)
    rw [hplace]
    exact ⟨c, rfl, hreset, .inl hwritten⟩

theorem bulkReadDone_current (c : C) (rest : List Listener) (x : Int) :
    (bulkReadDone c rest x).current = some c := by
  rw [bulkReadDone]
  split
  · rfl
  · split <;> rfl

theorem bulkReadDone_agenda (c : C) (rest : List Listener) (x : Int) :
    (bulkReadDone c rest x).agenda = rest ∨ (bulkReadDone c rest x).agenda = [] := by
  rw [bulkReadDone]
  split
  · exact .inr rfl
  · split <;> exact .inl rfl

/-- The bytes of an answer, in the memory. -/
theorem map_memory_all {bs : List UInt8} (h : bs.length = size) :
    (List.range size).map (memory bs data) = bs := by
  refine List.ext_getElem (by simp [h]) fun i hi hi' => ?_
  rw [List.getElem_map, List.getElem_range]
  exact (List.getElem_eq_getD _).symm

/-- `calculate` sees the request, and nothing else. -/
theorem words_request (hdata : ∀ i < size, data i = k.stream i) :
    words o data = words o (memory (k.sent.take size) fun _ => 0) := by
  refine words_congr fun i hi => ?_
  rw [hdata i hi, Conn.stream, memory, List.getD_eq_getElem?_getD, List.getD_eq_getElem?_getD,
    List.getElem?_take_of_lt hi]

theorem Sound.calculates (hs : Sound o s) {rest : List Listener}
    (h : s.place = .calculating c rest) : Sound o (s.calculated o c rest) := by
  have hhere := hs.here
  have hcurrent : s.place.current = some c := by rw [h]; rfl
  have hnodup := hs.nodup
  have hready := hs.ready
  rw [h] at hhere hnodup hready
  obtain ⟨hwritten, hlen, hdata⟩ := hhere
  have hanswer : answerTo o ((s.conn c).sent.take size) =
      (calculate o (words o s.data)).toOption.map (bytes o) := by
    rw [answerTo, words_request hdata]
  rw [State.calculated]
  cases hcalc : calculate o (words o s.data) with
  | ok d =>
      rw [hcalc] at hanswer
      refine hs.goes (p := .writing c (.start size) rest) ?_ hcurrent.symm hnodup hready
      exact ⟨giving_start _ hwritten, hlen, by rw [map_memory_all (length_bytes o d), hanswer]; rfl⟩
  | error e =>
      rw [hcalc] at hanswer
      exact hs.goes (p := .undefined c) ⟨hwritten, hlen, hanswer⟩ hcurrent.symm List.nodup_nil nofun

/-- A part of what is in the memory. -/
theorem Giving.written_isPrefix (h : Giving data k w) : k.written <+: (List.range size).map data := by
  have hleft := h.emptied.left
  rw [h.written, h.emptied.data]
  have hle : w.out.length ≤ size := by omega
  rw [show (List.range w.out.length).map data = ((List.range size).map data).take w.out.length by
    rw [← List.map_take, List.take_range, Nat.min_eq_left hle]]
  exact List.take_prefix ..

variable [DecidableEq C] {l : Actor C}

omit [DecidableEq C] in
/-- What holds of the new connection, and of the others, holds of all. -/
theorem forall_update [DecidableEq C] {P : C → Conn → Prop} (hc : P c k')
    (hothers : ∀ c' ≠ c, P c' (conn c')) (c' : C) : P c' (Function.update conn c k' c') := by
  by_cases hne : c' = c
  · subst hne
    rwa [Function.update_self]
  · rw [Function.update_of_ne hne]
    exact hothers c' hne

omit [DecidableEq C] in
theorem grows_update [DecidableEq C] (h : Grows (conn c) k') (c' : C) :
    Grows (conn c') (Function.update conn c k' c') :=
  forall_update (P := fun c' k => Grows (conn c') k) h (fun _ _ => .refl _) c'

/-- The server goes on with the connection that it is at. -/
theorem Sound.serves (hs : Sound o s) (hc : (s.conn c).phase = .accepted)
    (hk : k'.phase = .accepted ∧ p.current = some c ∨
      (k'.phase = .closed ∧ p.current = none ∧ Served o k'))
    (hhere : At o s.data (Function.update s.conn c k') p) (hagenda : p.agenda = s.place.agenda) :
    Sound o ((s.set c k').go p) := by
  have hcurrent := (hs.accepted c).mp hc
  have hnone : ∀ c' ≠ c, (s.conn c').phase ≠ .accepted := fun c' hne hc' =>
    hne (Option.some.inj (((hs.accepted c').mp hc').symm.trans hcurrent))
  refine ⟨hhere, ?_, ?_, ?_, fun l c' hc' => ?_, hs.once, hs.apart, hagenda ▸ hs.nodup,
    fun l hl => hs.ready l (hagenda ▸ hl)⟩
  · refine forall_update (P := fun c' k => k.phase = .accepted ↔ p.current = some c') ?_
      fun c' hne => ⟨fun h => absurd h (hnone c' hne), fun h => ?_⟩
    · rcases hk with ⟨hphase, hp⟩ | ⟨hphase, hp, -⟩ <;> rw [hphase, hp]
      · exact ⟨fun _ => rfl, fun _ => rfl⟩
      · exact ⟨nofun, nofun⟩
    · rcases hk with ⟨-, hp⟩ | ⟨-, hp, -⟩ <;> rw [hp] at h
      · exact absurd (Option.some.inj h).symm hne
      · cases h
  · refine forall_update (P := fun _ k => k.phase = .new ∨ k.phase = .queued → k.written = [])
      (fun h => ?_) fun c' _ => hs.before c'
    rcases hk with ⟨hphase, -⟩ | ⟨hphase, -⟩ <;> rw [hphase] at h <;> rcases h with h | h <;> cases h
  · refine forall_update (P := fun _ k => k.phase = .closed → Served o k) (fun h => ?_)
      fun c' _ => hs.served c'
    rcases hk with ⟨hphase, -⟩ | ⟨-, -, hserved⟩
    · rw [hphase] at h
      cases h
    · exact hserved
  · have hne : c' ≠ c := by
      rintro rfl
      exact absurd (hc.symm.trans (hs.queued l _ hc')) (by decide)
    exact (congrArg Conn.phase (Function.update_of_ne hne ..)).trans (hs.queued l c' hc')

/-- A connection is accepted. -/
theorem Sound.accepts (hs : Sound o s) {l : Listener} {rest : List Listener} {cs : List C}
    (h : s.place = .events (l :: rest)) (hqueue : s.queue l = c :: cs) :
    Sound o { s.set c { s.conn c with phase := .accepted } with
      place := .reading c (.start s.data size) rest
      queue := Function.update s.queue l cs } := by
  have hc : c ∈ s.queue l := hqueue ▸ List.mem_cons_self ..
  have honce := hs.once l
  rw [hqueue] at honce
  have hnodup := hs.nodup
  have hready := hs.ready
  have haccepted := hs.accepted
  rw [h] at hnodup hready haccepted
  -- what is still in a queue was there before, and is another one
  have hstill : ∀ l', ∀ c' ∈ Function.update s.queue l cs l', c' ∈ s.queue l' ∧ c' ≠ c := by
    intro l' c' hc'
    by_cases hl : l' = l
    · subst hl
      rw [Function.update_self] at hc'
      refine ⟨hqueue ▸ List.mem_cons_of_mem _ hc', ?_⟩
      rintro rfl
      exact (List.nodup_cons.mp honce).1 hc'
    · rw [Function.update_of_ne hl] at hc'
      refine ⟨hc', ?_⟩
      rintro rfl
      exact hl (hs.apart _ _ _ hc' hc)
  refine ⟨⟨taking_start _ _, ?_⟩, ?_, ?_, ?_, fun l' c' hc' => ?_, fun l' => ?_,
    fun l₁ l₂ c' h₁ h₂ => hs.apart l₁ l₂ c' (hstill l₁ c' h₁).1 (hstill l₂ c' h₂).1,
    hnodup.of_cons, fun l' hl' => ?_⟩
  · exact (congrArg Conn.written (Function.update_self c _ s.conn)).trans
      (hs.before c (.inr (hs.queued l c hc)))
  · refine forall_update (P := fun c' k => k.phase = .accepted ↔ some c = some c')
      ⟨fun _ => rfl, fun _ => rfl⟩ fun c' hne => ⟨fun hc' => ?_, fun hc' => ?_⟩
    · cases (haccepted c').mp hc'
    · exact absurd (Option.some.inj hc').symm hne
  · exact forall_update (P := fun _ k => k.phase = .new ∨ k.phase = .queued → k.written = [])
      (fun hc' => by rcases hc' with hc' | hc' <;> cases hc') fun c' _ => hs.before c'
  · exact forall_update (P := fun _ k => k.phase = .closed → Served o k)
      (fun hc' => by cases hc') fun c' _ => hs.served c'
  · obtain ⟨hmem, hne⟩ := hstill l' c' hc'
    exact (congrArg Conn.phase (Function.update_of_ne hne ..)).trans (hs.queued l' c' hmem)
  · change (Function.update s.queue l cs l').Nodup
    by_cases hl : l' = l
    · subst hl
      rw [Function.update_self]
      exact honce.of_cons
    · rw [Function.update_of_ne hl]
      exact hs.once l'
  · have hne : l' ≠ l := by
      rintro rfl
      exact (List.nodup_cons.mp hnodup).1 hl'
    change Function.update s.queue l cs l' ≠ []
    rw [Function.update_of_ne hne]
    exact hready l' (List.mem_cons_of_mem _ hl')

/-- A client connects. -/
theorem Sound.connects (hs : Sound o s) (l : Listener) (h : (s.conn c).phase = .new) :
    Sound o { s.set c { s.conn c with phase := .queued } with
      queue := Function.update s.queue l (s.queue l ++ [c]) } := by
  have hcurrent : s.place.current ≠ some c := fun hc =>
    absurd (h.symm.trans ((hs.accepted c).mpr hc)) (by decide)
  have hnot : ∀ l', c ∉ s.queue l' := fun l' hmem =>
    absurd (h.symm.trans (hs.queued l' c hmem)) (by decide)
  -- who is in a queue now was in that queue before, or it is the new one
  have hmem : ∀ {l' c'}, c' ∈ Function.update s.queue l (s.queue l ++ [c]) l' →
      c' ∈ s.queue l' ∨ c' = c ∧ l' = l := by
    intro l' c' hc'
    by_cases hl : l' = l
    · subst hl
      rw [Function.update_self, List.mem_append, List.mem_singleton] at hc'
      exact hc'.imp_right fun hc => ⟨hc, rfl⟩
    · rw [Function.update_of_ne hl] at hc'
      exact .inl hc'
  refine ⟨?_, ?_, ?_, ?_, fun l' c' hc' => ?_, fun l' => ?_, fun l₁ l₂ c' h₁ h₂ => ?_, hs.nodup,
    fun l' hl' => ?_⟩
  · refine hs.here.congr fun c' hc' => Function.update_of_ne ?_ ..
    rintro rfl
    exact hcurrent hc'
  · exact forall_update (P := fun c' k => k.phase = .accepted ↔ s.place.current = some c')
      ⟨nofun, fun hc => absurd hc hcurrent⟩ fun c' _ => hs.accepted c'
  · exact forall_update (P := fun _ k => k.phase = .new ∨ k.phase = .queued → k.written = [])
      (fun _ => hs.before c (.inl h)) fun c' _ => hs.before c'
  · exact forall_update (P := fun _ k => k.phase = .closed → Served o k)
      (fun hc' => by cases hc') fun c' _ => hs.served c'
  · rcases hmem hc' with hbefore | ⟨rfl, -⟩
    · refine (congrArg Conn.phase (Function.update_of_ne ?_ ..)).trans (hs.queued l' c' hbefore)
      rintro rfl
      exact hnot l' hbefore
    · exact congrArg Conn.phase (Function.update_self c' _ s.conn)
  · change (Function.update s.queue l (s.queue l ++ [c]) l').Nodup
    by_cases hl : l' = l
    · subst hl
      rw [Function.update_self]
      exact List.nodup_append.mpr ⟨hs.once l', by simp, fun a ha b hb => by
        rw [List.mem_singleton.mp hb]
        rintro rfl
        exact hnot l' ha⟩
    · rw [Function.update_of_ne hl]
      exact hs.once l'
  · rcases hmem h₁ with h₁ | ⟨rfl, rfl⟩ <;> rcases hmem h₂ with h₂ | ⟨hc, hl⟩
    · exact hs.apart l₁ l₂ c' h₁ h₂
    · exact absurd (hc ▸ h₁) (hnot l₁)
    · exact absurd h₂ (hnot l₂)
    · exact hl.symm
  · change Function.update s.queue l (s.queue l ++ [c]) l' ≠ []
    by_cases hl : l' = l
    · subst hl
      rw [Function.update_self]
      simp
    · rw [Function.update_of_ne hl]
      exact hs.ready l' hl'

/-! ### One step -/

theorem Sound.step (hs : Sound o s) (h : Step o s l t) : Sound o t := by
  have hhere := hs.here
  have hcurrent := hs.accepted
  have hnodup := hs.nodup
  have hready := hs.ready
  cases h with
  | serve h | stop h =>
      exact hs.goes trivial (by rw [h]; rfl) List.nodup_nil nofun
  | ready events h hne hn hevents =>
      exact hs.goes (p := .events events) trivial (by rw [h]; rfl) hn fun l hl => (hevents l).mp hl
  | eintr h => exact hs.goes trivial (by rw [h]; rfl) List.nodup_nil nofun
  | handled h => exact hs.goes trivial (by rw [h]; rfl) List.nodup_nil nofun
  | accept l rest c cs h hqueue => exact hs.accepts h hqueue
  | eagain l rest h hqueue =>
      rw [h] at hready
      exact absurd hqueue (hready l (List.mem_cons_self ..))
  | read c r rest out r' h hread hgives =>
      rw [h] at hhere hnodup hready
      exact hs.goes (p := .reading c r' rest) ⟨hhere.1.step hread hgives, hhere.2⟩
        (by rw [h]; rfl) hnodup hready
  | returned c r rest x h hx =>
      rw [h] at hhere hnodup hready
      refine hs.goes (hhere.returned hx) (by rw [h, bulkReadDone_current]; rfl) ?_ ?_
      · rcases bulkReadDone_agenda c rest x with ha | ha <;> rw [ha]
        · exact hnodup
        · exact List.nodup_nil
      · rcases bulkReadDone_agenda c rest x with ha | ha <;> rw [ha]
        · exact hready
        · exact nofun
  | calculate c rest h => exact hs.calculates h
  | write c w rest n w' h hwrite =>
      rw [h] at hhere
      obtain ⟨hgiving, hlen, ha⟩ := hhere
      have hc : (s.conn c).phase = .accepted := (hcurrent c).mpr (by rw [h]; rfl)
      refine hs.serves (p := .writing c w' rest) hc (.inl ⟨hc, rfl⟩) ?_ (by rw [h]; rfl)
      rw [At, Function.update_self]
      exact ⟨hgiving.step hwrite, hlen, ha⟩
  | wrote c w rest x h hx hnonneg =>
      rw [h] at hhere hnodup hready
      obtain ⟨hgiving, hlen, ha⟩ := hhere
      refine hs.goes (p := .closing c rest) (.inr ⟨hlen, _, ha, hgiving.written_isPrefix, .inl ?_⟩)
        (by rw [h]; rfl) hnodup hready
      rw [hgiving.written, hgiving.emptied.data, (hgiving.returned x hx).2]
  | epipe c w rest w' h hwrite hpeer =>
      rw [h] at hhere hnodup hready
      obtain ⟨hgiving, hlen, ha⟩ := hhere
      exact hs.goes (p := .closing c rest) (.inr ⟨hlen, _, ha, hgiving.written_isPrefix, .inr hpeer⟩)
        (by rw [h]; rfl) hnodup hready
  | writeFails c w rest w' h hwrite hpeer =>
      rw [h] at hhere
      obtain ⟨hgiving, hlen, ha⟩ := hhere
      exact hs.goes (p := .failed (some c))
        ⟨c, rfl, hpeer, .inr ⟨hlen, _, ha, hgiving.written_isPrefix⟩⟩
        (by rw [h]; rfl) List.nodup_nil nofun
  | close c rest h =>
      rw [h] at hhere
      have hc : (s.conn c).phase = .accepted := (hcurrent c).mpr (by rw [h]; rfl)
      exact hs.serves (p := .events rest) hc (.inr ⟨rfl, rfl, hhere⟩) trivial (by rw [h]; rfl)
  | connect l c h => exact hs.connects l h
  | send c bs h hpeer => exact hs.grows (grows_update (grows_send bs hpeer))
  | hangUp c q h hpeer => exact hs.grows (grows_update (grows_hangUp hpeer))
  | sigint => exact hs.goes hhere rfl hnodup hready

/-! ### Every run -/

variable {tr : List (Move (State C) (Actor C))}

omit [DecidableEq C] in
theorem sound_begin (o : ByteOrder) (data : Nat → UInt8) : Sound o (begin C data) where
  here := trivial
  accepted _ := ⟨nofun, nofun⟩
  before _ _ := rfl
  served _ h := nomatch h
  queued _ _ h := nomatch h
  once _ := List.nodup_nil
  apart _ _ _ h := nomatch h
  nodup := List.nodup_nil
  ready := nofun

theorem sound_run (r : Run (Step o) (begin C data) tr s) : Sound o s :=
  r.invariant (I := Sound o) (fun hs h => hs.step h) (sound_begin o data)

omit [DecidableEq C] in
theorem Sound.partly (hs : Sound o s) (c : C) : Partly o (s.conn c) := by
  cases hphase : (s.conn c).phase with
  | new => exact .inl (hs.before c (.inl hphase))
  | queued => exact .inl (hs.before c (.inr hphase))
  | closed => exact (hs.served c hphase).partly
  | accepted =>
      have hcurrent := (hs.accepted c).mp hphase
      have hhere := hs.here
      cases hplace : s.place with
      | reading c' r rest =>
          rw [hplace] at hcurrent hhere
          cases hcurrent
          exact .inl hhere.2
      | calculating c' rest | undefined c' =>
          rw [hplace] at hcurrent hhere
          cases hcurrent
          exact .inl hhere.1
      | writing c' w rest =>
          rw [hplace] at hcurrent hhere
          cases hcurrent
          exact .inr ⟨hhere.2.1, _, hhere.2.2, hhere.1.written_isPrefix⟩
      | closing c' rest =>
          rw [hplace] at hcurrent hhere
          cases hcurrent
          exact Served.partly hhere
      | failed x =>
          rw [hplace] at hcurrent hhere
          obtain ⟨c', rfl, -, hpartly⟩ := hhere
          cases hcurrent
          exact hpartly
      | loop | waiting | events | ended =>
          rw [hplace] at hcurrent
          cases hcurrent

/-- **The service.**  Whatever the clients do, and whenever `SIGINT` comes, in every reachable state:
what is written to a connection is a part of the answer to the first twenty bytes that were sent over
it, and nothing before there are so many; a connection that is closed got the whole answer, unless its
client was gone, or it was ended before twenty bytes; one connection at most is accepted and not
closed, and none while the server waits, or at its end; and it fails only if the connection that it
serves was reset. -/
theorem service_law (r : Run (Step o) (begin C data) tr s) :
    (∀ c, Partly o (s.conn c)) ∧
    (∀ c, (s.conn c).phase = .closed → Served o (s.conn c)) ∧
    (∀ c c', (s.conn c).phase = .accepted → (s.conn c').phase = .accepted → c = c') ∧
    (s.place = .loop ∨ s.place = .waiting ∨ s.place = .ended →
      ∀ c, (s.conn c).phase ≠ .accepted) ∧
    (∀ x, s.place = .failed x → ∃ c, x = some c ∧ (s.conn c).peer = .reset) ∧
    ∀ c, s.place = .undefined c →
      size ≤ (s.conn c).sent.length ∧ answerTo o ((s.conn c).sent.take size) = none := by
  have hs := sound_run r
  have hhere := hs.here
  refine ⟨hs.partly, hs.served, fun c c' hc hc' => ?_, fun hplace c hc => ?_, fun x hx => ?_,
    fun c hc => ?_⟩
  · exact Option.some.inj (((hs.accepted c).mp hc).symm.trans ((hs.accepted c').mp hc'))
  · have hcurrent := (hs.accepted c).mp hc
    rcases hplace with h | h | h <;> rw [h] at hcurrent <;> cases hcurrent
  · rw [hx] at hhere
    obtain ⟨c, rfl, hreset, -⟩ := hhere
    exact ⟨c, rfl, hreset⟩
  · rw [hc] at hhere
    exact hhere.2

/-- A client asks for 6 times 7. -/
def request : List UInt8 := bytes .little (prepareRequest .little 6 7 42)

/-- A client ends its connection after five bytes, and another asks meanwhile: on a host of the
other byte order it is answered. -/
theorem request_run : ∃ (tr : List (Move (State Bool) (Actor Bool))) (s : State Bool),
    Run (Step .big) (begin Bool fun _ => 0) tr s ∧ (s.conn false).sent = request ∧
      (s.conn false).written.length = size ∧ s.place = .loop ∧
      (s.conn true).sent.length = 5 ∧ ∀ c, (s.conn c).phase = .closed := by
  have r := ((((Run.one (.connect .localSocket true rfl) :
    Run (Step .big) (begin Bool fun _ => 0) _ _).snoc
    (.send true [1, 2, 3, 4, 5] nofun rfl)).snoc (.serve rfl rfl)).snoc
    (.connect .tcp false rfl)).snoc (.send false (request.take 8) nofun rfl)
  have r := ((r.snoc (.ready [.localSocket, .tcp] rfl (List.cons_ne_nil _ _) (by decide)
    fun l => by cases l <;> decide)).snoc (.accept .localSocket [.tcp] true [] rfl rfl)).snoc
    (.read true _ [.tcp] (.moved 5) _ rfl ⟨rfl, ⟨by decide, by decide⟩, rfl⟩ (Nat.le_refl 5))
  have r := ((((r.snoc (.hangUp true .silent nofun trivial)).snoc
    (.read true _ [.tcp] .eof _ rfl ⟨rfl, trivial, rfl⟩ ⟨rfl, nofun⟩)).snoc
    (.returned true _ [.tcp] 5 rfl (by decide +kernel))).snoc (.close true [.tcp] rfl)).snoc
    (.accept .tcp [] false [] rfl rfl)
  have r := ((r.snoc (.read false _ [] (.moved 8) _ rfl ⟨rfl, ⟨by decide, by decide⟩, rfl⟩
    (Nat.le_refl 8))).snoc (.send false (request.drop 8) nofun rfl)).snoc
    (.read false _ [] (.moved 12) _ rfl ⟨rfl, ⟨by decide, by decide⟩, rfl⟩ (Nat.le_refl 20))
  have r := (r.snoc (.returned false _ [] 20 rfl (by decide +kernel))).snoc
    (.calculate false [] rfl)
  have r := ((r.snoc (.write false _ [] 20 _ rfl ⟨rfl, ⟨by decide, by decide⟩, nofun, rfl⟩)).snoc
    (.wrote false _ [] 20 rfl (by decide +kernel) (by decide))).snoc (.close false [] rfl)
  exact ⟨_, _, r.snoc (.handled rfl), rfl, rfl, rfl, rfl, fun c => by cases c <;> rfl⟩

/-- Both are served, and the server is at nobody's connection. -/
theorem service_law_pair : ∃ s : State Bool, (∀ c, Partly .big (s.conn c)) ∧
    (∀ c, Served .big (s.conn c)) ∧ (∀ c, (s.conn c).phase ≠ .accepted) ∧
    (s.conn true).sent.length = 5 ∧ (s.conn false).written.length = size := by
  obtain ⟨tr, s, r, -, hwritten, hplace, hsent, hclosed⟩ := request_run
  obtain ⟨hpartly, hserved, -, hquiet, -⟩ := service_law r
  exact ⟨s, hpartly, fun c => hserved c (hclosed c), hquiet (.inl hplace), hsent, hwritten⟩

end Sop2.L7
