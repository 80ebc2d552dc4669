import Sop2.Lab07.Poslancy.Registry

/-!
# Lab07 — Poslancy — robustness

The server among clients that do as they like.  A `Peer` is what the system knows of the client on
a descriptor: the bytes that have arrived, whether the client has ended or reset its connection,
and what a `write` to it would give.  All of it may change at any time but for what has arrived.
`SIGINT` is blocked but for the time that the server waits in `epoll_pwait`.

* `readEvent_eq_none`: an event of a client is not survived when a client the message goes to
  cannot take it, for a reason other than `EPIPE`.
* `robust_law`: the server goes on until `SIGINT`, and disconnects a client only for what it did
  itself, exactly as long as no broadcast meets such a client, and no event left over from a
  closed descriptor is taken for one of the new connection on it.
-/

namespace Sop2.Poslancy
open Support

/-! ### One event -/

variable {s s' : Server} {fd : Int} {buf : List UInt8} {wr : Nat → WriteResult}

/-- Clearing an entry leaves those behind it. -/
theorem getD_replace_of_lt {a b d : Int} : ∀ {xs : List Int} {k k' : Nat}, xs.getD k d = a →
    a ≠ d → k < k' → (xs.replace a b).getD k' d = xs.getD k' d
  | [], _, _, h, ha, _ => (ha (by simpa using h.symm)).elim
  | x :: xs, k, k' + 1, h, ha, hlt => by
      rw [List.replace_cons]
      split
      · rfl
      · rename_i hx
        match k, h, hlt with
        | 0, h, _ => exact absurd (beq_iff_eq.mpr h.symm) (by simpa using hx)
        | k + 1, h, hlt =>
            have h : xs.getD k d = a := h
            exact getD_replace_of_lt h ha (Nat.lt_of_succ_lt_succ hlt)

/-- The broadcast writes to the client in entry `k`. -/
def Target (s : Server) (fd : Int) (k : Nat) : Prop :=
  s.clients.getD k (-1) ≠ -1 ∧ s.clients.getD k (-1) ≠ fd

/-- Removing the client in entry `k` leaves the entries behind. -/
theorem getD_removed {k k' : Nat} (ht : Target s fd k) (e : Effect) (hlt : k < k') :
    (removeClient (s.clients.getD k (-1)) (s.asked e)).clients.getD k' (-1) =
      s.clients.getD k' (-1) :=
  getD_replace_of_lt rfl ht.1 hlt

/-- A broadcast finds the entries of `clients[]` as they were at the start. -/
theorem broadcast_eq_none : ∀ {ks : List Nat} {s : Server}, ks.Pairwise (· < ·) →
    (broadcast wr fd buf ks s = none ↔ ∃ k ∈ ks, Target s fd k ∧ wr k = .error)
  | [], s, _ => by simp [broadcast]
  | k :: ks, s, hks => by
      obtain ⟨hk, hks⟩ := List.pairwise_cons.mp hks
      unfold broadcast
      dsimp only
      simp only [List.mem_cons, exists_eq_or_imp]
      split
      · rename_i ht
        have ht : Target s fd k := ht
        cases hw : wr k with
        | written =>
            dsimp only
            rw [broadcast_eq_none hks]
            simp only [reduceCtorEq, and_false, false_or]
            rfl
        | epipe =>
            dsimp only
            rw [broadcast_eq_none hks]
            simp only [reduceCtorEq, and_false, false_or]
            refine exists_congr fun k' => and_congr_right fun hk' => ?_
            rw [Target, getD_removed ht _ (hk k' hk'), Target]
        | error => simp [ht]
      · rename_i ht
        have ht : ¬ Target s fd k := ht
        rw [broadcast_eq_none hks]
        simp [ht]

/-- The connections that a broadcast closes. -/
theorem broadcast_closes {x : Int} : ∀ {ks : List Nat} {s : Server}, ks.Pairwise (· < ·) →
    broadcast wr fd buf ks s = some s' → x ∈ connections s.log → x ∉ connections s'.log →
    ∃ k ∈ ks, Target s fd k ∧ s.clients.getD k (-1) = x ∧ wr k = .epipe
  | [], s, _, h, hx, hx' => by
      cases h
      exact (hx' hx).elim
  | k :: ks, s, hks, h, hx, hx' => by
      obtain ⟨hk, hks⟩ := List.pairwise_cons.mp hks
      unfold broadcast at h
      dsimp only at h
      split at h
      · rename_i ht
        have ht : Target s fd k := ht
        split at h
        · obtain ⟨k', hk', hk''⟩ := broadcast_closes hks h
            (by rwa [Server.asked, connections_quiet (e := .wrote _ buf) trivial]) hx'
          exact ⟨k', List.mem_cons_of_mem _ hk', hk''⟩
        · rename_i hw
          by_cases hxk : s.clients.getD k (-1) = x
          · exact ⟨k, List.mem_cons_self, ht, hxk, hw⟩
          · have hmem : x ∈ connections (removeClient (s.clients.getD k (-1))
                (s.asked (.epipe (s.clients.getD k (-1))))).log := by
              rw [connections_removeClient, Server.asked,
                connections_quiet (e := .epipe _) trivial]
              exact List.mem_filter.mpr ⟨hx, by simpa using Ne.symm hxk⟩
            obtain ⟨k', hk', ht', hx'', hw'⟩ := broadcast_closes hks h hmem hx'
            rw [getD_removed ht _ (hk k' hk')] at hx''
            rw [Target, getD_removed ht _ (hk k' hk')] at ht'
            exact ⟨k', List.mem_cons_of_mem _ hk', ht', hx'', hw'⟩
        · cases h
      · obtain ⟨k', hk', hk''⟩ := broadcast_closes hks h hx hx'
        exact ⟨k', List.mem_cons_of_mem _ hk', hk''⟩

/-- A message that changes an owner is broadcast. -/
theorem readEvent_changes {c : Fin 20} {o : UInt8} (hs : Says buf c o)
    (ho : (s.cities c).owner ≠ o) :
    readEvent s fd (.bytes buf) wr = broadcast wr fd buf (List.range maxClients)
      { s.asked (.read fd buf) with
        cities := Function.update s.cities c { s.cities c with owner := o } } := by
  obtain ⟨hl, hv, hc, rfl⟩ := says_iff.mp hs
  simp only [readEvent, hl, hv, if_true, dif_pos (show 1 ≤ cityIndex buf ∧
    cityIndex buf ≤ 20 by omega), fin_eq hc]
  rw [if_neg (by decide)]
  exact if_pos ho

/-- **An event that ends the server.**  Its message changes an owner, and cannot be written to one
of the others. -/
theorem readEvent_eq_none {r : ReadResult} : readEvent s fd r wr = none ↔
    ∃ buf c o, r = .bytes buf ∧ Says buf c o ∧ (s.cities c).owner ≠ o ∧
      ∃ k < maxClients, Target s fd k ∧ wr k = .error := by
  have hnone : ∀ {buf c o}, Says buf c o → (s.cities c).owner ≠ o →
      (readEvent s fd (.bytes buf) wr = none ↔
        ∃ k < maxClients, Target s fd k ∧ wr k = .error) := fun {buf c o} hs ho => by
    rw [readEvent_changes hs ho, broadcast_eq_none List.pairwise_lt_range]
    simp only [List.mem_range]
    rfl
  constructor
  · intro h
    cases r with
    | error => simp [readEvent] at h
    | bytes buf =>
        suffices hs : ∃ c o, Says buf c o ∧ (s.cities c).owner ≠ o by
          obtain ⟨c, o, hs, ho⟩ := hs
          exact ⟨buf, c, o, rfl, hs, ho, (hnone hs ho).mp h⟩
        simp only [readEvent] at h
        split at h
        · cases h
        · split at h
          · rename_i hl
            split at h
            · rename_i hv
              split at h
              · rename_i hi
                split at h
                · rename_i ho
                  exact ⟨_, _, says_of_valid hl hv hi, ho⟩
                · cases h
              · cases h
            · cases h
          · cases h
  · rintro ⟨buf, c, o, rfl, hs, ho, hk⟩
    exact (hnone hs ho).mpr hk

/-- **The connections that an event closes.**  Its own one, for what could be read; or those to
which the broadcast gets `EPIPE`. -/
theorem readEvent_closes {r : ReadResult} (h : readEvent s fd r wr = some s') {x : Int}
    (hx : x ∈ connections s.log) (hx' : x ∉ connections s'.log) :
    (x = fd ∧ (r = .error ∨ ∃ buf, r = .bytes buf ∧ ∀ c o, ¬ Says buf c o)) ∨
      x ≠ fd ∧ ∃ k < maxClients, s.clients.getD k (-1) = x ∧ wr k = .epipe := by
  rcases readEvent_cases h with ⟨hr, rfl⟩ | ⟨buf, hr, hn, rfl⟩ | ⟨buf, c, o, -, -, hcase⟩
  · rw [connections_removeClient] at hx'
    exact .inl ⟨by simpa [hx] using hx', .inl hr⟩
  · rw [connections_removeClient, Server.asked, connections_read] at hx'
    exact .inl ⟨by simpa [hx] using hx', .inr ⟨buf, hr, hn⟩⟩
  · rcases hcase with ⟨-, rfl⟩ | ⟨-, hb⟩
    · rw [Server.asked, connections_read] at hx'
      exact (hx' hx).elim
    · obtain ⟨k, hk, ht, hxk, hw⟩ := broadcast_closes List.pairwise_lt_range hb
        (by rwa [Server.asked, connections_read]) hx'
      exact .inr ⟨hxk ▸ ht.2, k, List.mem_range.mp hk, hxk, hw⟩

/-- Removing a client opens no connection. -/
theorem connections_removeClient_subset (s : Server) (fd : Int) :
    connections (removeClient fd s).log ⊆ connections s.log := by
  rw [connections_removeClient]
  exact List.filter_subset_self _

theorem connections_broadcast_subset : ∀ {ks : List Nat} {s : Server},
    broadcast wr fd buf ks s = some s' → connections s'.log ⊆ connections s.log
  | [], s, h => by
      cases h
      exact List.Subset.refl _
  | k :: ks, s, h => by
      unfold broadcast at h
      dsimp only at h
      split at h
      · split at h
        · have hsub := connections_broadcast_subset h
          rwa [Server.asked, connections_quiet (e := .wrote _ buf) trivial] at hsub
        · have hsub := connections_removeClient_subset (s.asked (.epipe (s.clients.getD k (-1))))
            (s.clients.getD k (-1))
          rw [Server.asked, connections_quiet (e := .epipe _) trivial] at hsub
          exact List.Subset.trans (connections_broadcast_subset h) hsub
        · cases h
      · exact connections_broadcast_subset h

/-- An event opens no connection. -/
theorem connections_readEvent_subset {r : ReadResult} (h : readEvent s fd r wr = some s') :
    connections s'.log ⊆ connections s.log := by
  have hread : ∀ buf, connections (s.asked (.read fd buf)).log = connections s.log :=
    fun buf => connections_read ..
  rcases readEvent_cases h with ⟨-, rfl⟩ | ⟨buf, -, -, rfl⟩ | ⟨buf, c, o, -, -, hcase⟩
  · exact connections_removeClient_subset s fd
  · exact hread buf ▸ connections_removeClient_subset (s.asked (.read fd buf)) fd
  · rcases hcase with ⟨-, rfl⟩ | ⟨-, hb⟩
    · exact fun x hx => hread buf ▸ hx
    · exact fun x hx => hread buf ▸ connections_broadcast_subset hb hx

/-! ### The clients -/

/-- What the system knows of the client on a descriptor. -/
structure Peer where
  inbox : List UInt8
  /-- At the end of the stream. -/
  ended : Bool
  reset : Bool
  /-- What `write` gives; `EAGAIN` when the client does not read. -/
  out : WriteResult

/-- `epoll_pwait` reports the descriptor. -/
def Peer.Ready (p : Peer) : Prop := p.inbox ≠ [] ∨ p.ended = true ∨ p.reset = true

/-- What may have become of a client in the meantime. -/
def Peer.Later (p p' : Peer) : Prop :=
  (∃ bytes, p'.inbox = p.inbox ++ bytes) ∧ (p.ended = true → p'.ended = true) ∧
    (p.reset = true → p'.reset = true)

/-- How `read` ends. -/
inductive Reading where
  | bytes (bs : List UInt8)
  /-- `ECONNRESET`. -/
  | reset
  /-- `EAGAIN`. -/
  | again
  /-- `EBADF`. -/
  | closed

def Reading.result : Reading → ReadResult
  | .bytes bs => .bytes bs
  | _ => .error

/-- `read` of at most four bytes from the client `p`. -/
inductive Peer.Reads (p : Peer) : Reading → Peer → Prop where
  | bytes (k : Nat) (h₁ : 1 ≤ k) (h₄ : k ≤ 4) (hk : k ≤ p.inbox.length) :
      p.Reads (.bytes (p.inbox.take k)) { p with inbox := p.inbox.drop k }
  | eof (h : p.inbox = []) (he : p.ended = true) : p.Reads (.bytes []) p
  | reset (h : p.reset = true) : p.Reads .reset p
  | again (h : ¬ p.Ready) : p.Reads .again p

inductive Phase where
  | running
  /-- Behind the loop. -/
  | left
  /-- `ERR`. -/
  | failed
  deriving DecidableEq

/-- The server among its clients. -/
structure World where
  server : Server
  batch : List Int
  /-- What `accept` has returned since the last `epoll_pwait`. -/
  recent : List Int
  peer : Int → Peer
  phase : Phase

/-- How the writes of a broadcast end. -/
def World.writes (s : World) (k : Nat) : WriteResult := (s.peer (s.server.clients.getD k (-1))).out

inductive Happens where
  | network (fd : Int)
  | sigint
  | wait
  | accept (newFd : Int)
  | client (fd : Int) (r : Reading)

/-- One step of the network or of the server. -/
inductive World.Step (sfd : Int) : World → Happens → World → Prop where
  | network {s : World} (fd : Int) (p : Peer) (h : (s.peer fd).Later p) :
      Step sfd s (.network fd) { s with peer := Function.update s.peer fd p }
  | sigint {s : World} (hp : s.phase = .running) (h : s.batch = []) :
      Step sfd s .sigint { s with phase := .left }
  | wait {s : World} (events : List Int) (hp : s.phase = .running) (h : s.batch = [])
      (hlen : events.length ≤ maxEvents) (hn : events.Nodup)
      (hr : ∀ fd ∈ events, fd = sfd ∨ fd ∈ connections s.server.log ∧ (s.peer fd).Ready) :
      Step sfd s .wait { s with batch := events, recent := [] }
  | accept {s : World} (newFd : Int) (p : Peer) (rest : List Int) (hp : s.phase = .running)
      (h : s.batch = sfd :: rest)
      (hfd : newFd = -1 ∨ 0 ≤ newFd ∧ ¬ Open sfd s.server.log newFd) :
      Step sfd s (.accept newFd)
        { s with
          server := acceptEvent s.server newFd
          batch := rest
          recent := newFd :: s.recent
          peer := Function.update s.peer newFd p }
  | client {s : World} (fd : Int) (r : Reading) (p : Peer) (rest : List Int) (server : Server)
      (hp : s.phase = .running) (h : s.batch = fd :: rest) (hfd : fd ≠ sfd)
      (hr : if fd ∈ connections s.server.log then (s.peer fd).Reads r p else r = .closed)
      (hs : readEvent s.server fd r.result s.writes = some server) :
      Step sfd s (.client fd r)
        { s with server := server, batch := rest, peer := Function.update s.peer fd p }
  | fails {s : World} (fd : Int) (r : Reading) (p : Peer) (rest : List Int)
      (hp : s.phase = .running) (h : s.batch = fd :: rest) (hfd : fd ≠ sfd)
      (hr : if fd ∈ connections s.server.log then (s.peer fd).Reads r p else r = .closed)
      (hs : readEvent s.server fd r.result s.writes = none) :
      Step sfd s (.client fd r) { s with batch := rest, phase := .failed }

/-- Before the first `epoll_pwait`. -/
def World.begin (peer : Int → Peer) : World := ⟨start, [], [], peer, .running⟩

/-- What the client `x` has done to be disconnected: it has ended its connection, or sent what says
nothing, or a `write` to it fails with `EPIPE`. -/
def Deserved (s : World) (l : Happens) (x : Int) : Prop :=
  (∃ r, l = .client x r ∧ (r = .reset ∨ ∃ buf, r = .bytes buf ∧ ∀ c o, ¬ Says buf c o)) ∨
    (∃ fd r, l = .client fd r ∧ fd ≠ x) ∧ (s.peer x).out = .epipe

/-- A step of a server that goes on until `SIGINT` and disconnects nobody without a reason. -/
structure Robust (s : World) (l : Happens) (t : World) : Prop where
  alive : t.phase ≠ .failed
  leaves : s.phase = .running → t.phase = .left → l = .sigint
  own : ∀ x ∈ connections s.server.log, x ∉ connections t.server.log → Deserved s l x

/-- An event of a client is not a leftover that a new, silent connection inherits; and when its
message makes a city change hands, no other client fails to take it but with `EPIPE`. -/
def Careful (s : World) (l : Happens) (_ : World) : Prop :=
  ∀ fd r, l = .client fd r →
    (fd ∈ s.recent → fd ∈ connections s.server.log → (s.peer fd).Ready) ∧
      ∀ buf c o, r = .bytes buf → Says buf c o → (s.server.cities c).owner ≠ o →
        ∀ k < maxClients, Target s.server fd k → s.writes k ≠ .error

/-! ### Every step -/

theorem Peer.Later.ready {p p' : Peer} (h : p.Later p') (hp : p.Ready) : p'.Ready := by
  obtain ⟨⟨bytes, hb⟩, he, hr⟩ := h
  rcases hp with hi | hp | hp
  · exact .inl (by simp [hb, hi])
  · exact .inr (.inl (he hp))
  · exact .inr (.inr (hr hp))

/-- Something can be read from a client that is ready. -/
theorem Peer.Reads.not_again {p p' : Peer} {r : Reading} (h : p.Reads r p') (hp : p.Ready) :
    r ≠ .again ∧ r ≠ .closed := by
  cases h with
  | bytes | eof | reset => exact ⟨nofun, nofun⟩
  | again h => exact (h hp).elim

/-- An event that is not of a new connection is of one that is ready, or of none. -/
structure Heard (sfd : Int) (s : World) : Prop where
  alive : s.phase ≠ .failed
  nodup : s.batch.Nodup
  ready : ∀ fd ∈ s.batch, fd ≠ sfd → fd ∉ s.recent → fd ∈ connections s.server.log →
    (s.peer fd).Ready

variable {sfd : Int} {w w' : World} {l : Happens}

theorem heard_begin (sfd : Int) (peer : Int → Peer) : Heard sfd (World.begin peer) :=
  ⟨nofun, List.nodup_nil, nofun⟩

/-- Accepting a connection closes none. -/
theorem connections_acceptEvent (s : Server) (newFd : Int) :
    connections s.log ⊆ connections (acceptEvent s newFd).log ∧
      connections (acceptEvent s newFd).log ⊆ newFd :: connections s.log := by
  rcases acceptEvent_cases s newFd with ⟨-, he⟩ | ⟨-, -, he⟩ | ⟨-, -, he⟩
  · rw [he]
    exact ⟨List.Subset.refl _, List.subset_cons_self ..⟩
  · rw [he, Server.asked, connections_accepted]
    exact ⟨List.subset_cons_self .., List.Subset.refl _⟩
  · rw [he, Server.asked, connections_quiet (e := .rejected newFd) trivial]
    exact ⟨List.Subset.refl _, List.subset_cons_self ..⟩

/-- A careful step is survived. -/
theorem Heard.step (h : Heard sfd w) (hstep : World.Step sfd w l w') (hc : Careful w l w') :
    Heard sfd w' := by
  cases hstep with
  | network fd p hp =>
      refine ⟨h.alive, h.nodup, fun x hx hne hrec hmem => ?_⟩
      have hready := h.ready x hx hne hrec hmem
      change (Function.update w.peer fd p x).Ready
      by_cases hxf : x = fd
      · subst hxf
        rw [Function.update_self]
        exact hp.ready hready
      · rwa [Function.update_of_ne hxf]
  | sigint => exact ⟨nofun, h.nodup, h.ready⟩
  | wait events _ _ _ hn hr =>
      exact ⟨h.alive, hn, fun x hx hne _ _ => ((hr x hx).resolve_left hne).2⟩
  | accept newFd p rest _ hb _ =>
      refine ⟨h.alive, (List.nodup_cons.mp (hb ▸ h.nodup)).2, fun x hx hne hrec hmem => ?_⟩
      obtain ⟨hxn, hxr⟩ := not_or.mp fun hx' => hrec (List.mem_cons.mpr hx')
      have hmem : x ∈ connections w.server.log :=
        (List.mem_cons.mp ((connections_acceptEvent ..).2 hmem)).resolve_left hxn
      change (Function.update w.peer newFd p x).Ready
      rw [Function.update_of_ne hxn]
      exact h.ready x (hb ▸ List.mem_cons_of_mem _ hx) hne hxr hmem
  | client fd r p rest server _ hb _ _ hs =>
      obtain ⟨hfd, hn⟩ := List.nodup_cons.mp (hb ▸ h.nodup)
      refine ⟨h.alive, hn, fun x hx hne hrec hmem => ?_⟩
      have hxf : x ≠ fd := fun he => hfd (he ▸ hx)
      change (Function.update w.peer fd p x).Ready
      rw [Function.update_of_ne hxf]
      exact h.ready x (hb ▸ List.mem_cons_of_mem _ hx) hne hrec
        (connections_readEvent_subset hs hmem)
  | fails fd r p rest _ _ _ _ hs =>
      obtain ⟨buf, c, o, hr, hsay, ho, k, hk, ht, hw⟩ := readEvent_eq_none.mp hs
      have hr : r = .bytes buf := by
        cases r with
        | bytes => exact congrArg Reading.bytes (ReadResult.bytes.inj hr)
        | reset | again | closed => cases hr
      exact ((hc fd r rfl).2 buf c o hr hsay ho k hk ht hw).elim

/-- A careful step is a robust one. -/
theorem Heard.robust (h : Heard sfd w) (hstep : World.Step sfd w l w') (hc : Careful w l w') :
    Robust w l w' := by
  refine ⟨(h.step hstep hc).alive, fun hrun hleft => ?_, fun x hx hx' => ?_⟩
  · cases hstep with
    | sigint => rfl
    | network | wait | accept | client => rw [hrun] at hleft; cases hleft
    | fails => cases hleft
  · cases hstep with
    | network | sigint | wait | fails => exact (hx' hx).elim
    | accept newFd p rest _ _ _ => exact (hx' ((connections_acceptEvent ..).1 hx)).elim
    | client fd r p rest server _ hb hne hr hs =>
        rcases readEvent_closes hs hx hx' with ⟨rfl, hcause⟩ | ⟨hxf, k, -, hk, hw⟩
        · rw [if_pos hx] at hr
          have hready : (w.peer x).Ready := by
            by_cases hrec : x ∈ w.recent
            · exact (hc x r rfl).1 hrec hx
            · exact h.ready x (hb ▸ List.mem_cons_self) hne hrec hx
          obtain ⟨hagain, hclosed⟩ := hr.not_again hready
          refine .inl ⟨r, rfl, ?_⟩
          cases r with
          | bytes buf =>
              rcases hcause with hcause | ⟨buf', hbuf, hn⟩
              · cases hcause
              · exact .inr ⟨buf, rfl, ReadResult.bytes.inj hbuf ▸ hn⟩
          | reset => exact .inl rfl
          | again => exact (hagain rfl).elim
          | closed => exact (hclosed rfl).elim
        · refine .inr ⟨⟨fd, r, rfl, Ne.symm hxf⟩, ?_⟩
          rwa [World.writes, hk] at hw

/-- A robust step is a careful one. -/
theorem Robust.careful (h : Robust w l w') (hstep : World.Step sfd w l w') : Careful w l w' := by
  rintro fd r rfl
  cases hstep with
  | client _ _ p rest server _ hb hne hr hs =>
      constructor
      · intro _ hmem
        by_contra hready
        rw [if_pos hmem] at hr
        cases hr with
        | bytes k h₁ _ hk =>
            refine hready (.inl fun hnil => ?_)
            rw [hnil] at hk
            exact absurd hk (by simp; omega)
        | eof _ he => exact hready (.inr (.inl he))
        | reset hreset => exact hready (.inr (.inr hreset))
        | again =>
            -- the client is removed although it has done nothing
            obtain rfl : removeClient fd w.server = server := Option.some.inj hs
            rcases h.own fd hmem (by simp [connections_removeClient]) with
              ⟨r, hr, hcause⟩ | ⟨⟨fd', r, hr, hne⟩, -⟩
            · cases hr
              rcases hcause with hcause | ⟨buf, hbuf, -⟩
              · cases hcause
              · cases hbuf
            · cases hr
              exact hne rfl
      · intro buf c o hbuf hsay ho k hk ht hw
        subst hbuf
        have hnone : readEvent w.server fd (.bytes buf) w.writes = none :=
          readEvent_eq_none.mpr ⟨buf, c, o, rfl, hsay, ho, k, hk, ht, hw⟩
        cases hnone.symm.trans hs
  | fails => exact (h.alive rfl).elim

/-- **Robustness.**  Whatever the clients do, along every run: no step but `SIGINT` ends the loop,
and none disconnects a client but for what this client has done, exactly as long as every event
that is handled is careful. -/
theorem robust_law {peer : Int → Peer} {tr : List (Move World Happens)}
    (r : Run (World.Step sfd) (World.begin peer) tr w) :
    (∀ m ∈ tr, Robust m.before m.label m.after) ↔ ∀ m ∈ tr, Careful m.before m.label m.after :=
  r.law_moves (J := Heard sfd) (P := Robust) (C := Careful) Heard.step Heard.robust
    (fun _ hstep h => h.careful hstep) (heard_begin sfd peer)

/-! ### Two clients -/

/-- A client that has sent nothing. -/
def silent : Peer := ⟨[], false, false, .written⟩

/-- The server has accepted a client with a message on 5, and one that is silent on 6. -/
def twoPeers : World :=
  ⟨twoClients.server, [], [6],
    Function.update (Function.update (fun _ => silent) 5 { silent with inbox := persian }) 6
      silent, .running⟩

theorem twoPeers_run : ∃ tr, Run (World.Step 3) (World.begin fun _ => silent) tr twoPeers ∧
    ∀ m ∈ tr, Careful m.before m.label m.after := by
  have hwait : World.Step 3 (World.begin fun _ => silent) .wait
      ⟨start, [3], [], fun _ => silent, .running⟩ :=
    .wait [3] rfl rfl (by decide) (by decide) (by simp)
  have r₁ := (Run.one hwait).snoc (World.Step.accept 5 { silent with inbox := persian } [] rfl rfl
    (.inr ⟨by decide, by unfold Open; decide⟩))
  have r₂ := (r₁.snoc (World.Step.wait [3] rfl rfl (by decide) (by decide) (by simp))).snoc
    (World.Step.accept 6 silent [] rfl rfl (.inr ⟨by decide, by unfold Open; decide⟩))
  refine ⟨_, r₂, fun m hm fd r hl => ?_⟩
  simp only [List.cons_append, List.nil_append, List.mem_cons, List.not_mem_nil, or_false] at hm
  rcases hm with rfl | rfl | rfl | rfl <;> cases hl

/-- The two, when what is written to the one on 6 goes as `out` says. -/
def meanwhile (out : WriteResult) : World :=
  { twoPeers with peer := Function.update twoPeers.peer 6 { silent with out := out } }

theorem twoPeers_network (out : WriteResult) :
    World.Step 3 twoPeers (.network 6) (meanwhile out) :=
  .network 6 _ ⟨⟨[], rfl⟩, id, id⟩

/-- The message arrives. -/
theorem meanwhile_wait (out : WriteResult) :
    World.Step 3 (meanwhile out) .wait { meanwhile out with batch := [5], recent := [] } :=
  .wait [5] rfl rfl (by decide) (by decide) fun fd hfd => by
    obtain rfl := List.mem_singleton.mp hfd
    exact .inr ⟨by change 5 ∈ connections twoClients.server.log; decide,
      .inl (show persian ≠ [] by decide)⟩

theorem meanwhile_written (x : Int) : ((meanwhile .written).peer x).out = .written := by
  have hout : ∀ {f : Int → Peer}, (∀ x, (f x).out = .written) → ∀ (fd : Int) (p : Peer),
      p.out = .written → ∀ x, (Function.update f fd p x).out = .written :=
    fun {f} h fd p hp => (Function.forall_update_iff f fun _ p => p.out = .written).mpr
      ⟨hp, fun x _ => h x⟩
  exact hout (hout (hout (fun _ => rfl) 5 _ rfl) 6 _ rfl) 6 _ rfl x

/-- Both clients do as they should: the message is written to the other one. -/
theorem robust_law_written : ∃ tr w, Run (World.Step 3) (World.begin fun _ => silent) tr w ∧
    Effect.wrote 6 persian ∈ w.server.log ∧ ∀ m ∈ tr, Robust m.before m.label m.after := by
  obtain ⟨tr, r, hc⟩ := twoPeers_run
  obtain ⟨s, hs, hlog⟩ : ∃ s, readEvent twoClients.server 5 (.bytes persian)
      (meanwhile .written).writes = some s ∧ Effect.wrote 6 persian ∈ s.log :=
    ⟨_, rfl, by decide⟩
  have hread : World.Step 3 { meanwhile .written with batch := [5], recent := [] }
      (.client 5 (.bytes persian)) _ :=
    .client 5 (.bytes persian) { silent with inbox := [] } [] s rfl rfl (by decide)
      (by
        rw [if_pos (by change 5 ∈ connections twoClients.server.log; decide)]
        exact .bytes 4 (by decide) (by decide) (by decide)) hs
  have r' := ((r.snoc (twoPeers_network .written)).snoc (meanwhile_wait .written)).snoc hread
  refine ⟨_, _, r', hlog, (robust_law r').mpr ?_⟩
  refine forall_mem_snoc (forall_mem_snoc (forall_mem_snoc hc nofun) nofun) ?_
  rintro fd r ⟨⟩
  refine ⟨nofun, fun buf c o _ _ _ k _ _ hw => ?_⟩
  cases (meanwhile_written _).symm.trans hw

/-- The client on 6 does not read what it is sent, and the server ends with the message of the
other one. -/
theorem full_buffer_ends : ∃ tr w, Run (World.Step 3) (World.begin fun _ => silent) tr w ∧
    ∃ m ∈ tr, ¬ Robust m.before m.label m.after := by
  obtain ⟨tr, r, -⟩ := twoPeers_run
  have hread : World.Step 3 { meanwhile .error with batch := [5], recent := [] }
      (.client 5 (.bytes persian)) _ :=
    .fails 5 (.bytes persian) { silent with inbox := [] } [] rfl rfl (by decide)
      (by
        rw [if_pos (by change 5 ∈ connections twoClients.server.log; decide)]
        exact .bytes 4 (by decide) (by decide) (by decide)) rfl
  have r' := ((r.snoc (twoPeers_network .error)).snoc (meanwhile_wait .error)).snoc hread
  exact ⟨_, _, r', _, List.mem_concat_self, fun h => h.alive rfl⟩

/-- The two, after the client on 6 has gone. -/
def gone : World :=
  { twoPeers with peer := Function.update twoPeers.peer 6 ⟨[], true, false, .epipe⟩ }

/-- The message of the client on 5 cannot be written to 6, which is closed; the next client is
accepted on 6, and is disconnected by the event of the one that has gone. -/
theorem stale_event_disconnects :
    ∃ tr w, Run (World.Step 3) (World.begin fun _ => silent) tr w ∧
      ∃ m ∈ tr, m.label = .client 6 .again ∧ 6 ∈ connections m.before.server.log ∧
        ¬ Robust m.before m.label m.after := by
  obtain ⟨tr, r, -⟩ := twoPeers_run
  have hopen : ∀ fd ∈ [5, 6], fd ∈ connections twoClients.server.log := by decide
  have hgone : World.Step 3 twoPeers (.network 6) gone :=
    .network 6 _ ⟨⟨[], rfl⟩, fun _ => rfl, id⟩
  have hwait : World.Step 3 gone .wait { gone with batch := [5, 3, 6], recent := [] } :=
    .wait [5, 3, 6] rfl rfl (by decide) (by decide) fun fd hfd => by
      simp only [List.mem_cons, List.not_mem_nil, or_false] at hfd
      rcases hfd with rfl | rfl | rfl
      · exact .inr ⟨hopen 5 (by decide), .inl (show persian ≠ [] by decide)⟩
      · exact .inl rfl
      · exact .inr ⟨hopen 6 (by decide), .inr (.inl rfl)⟩
  have hread : World.Step 3 { gone with batch := [5, 3, 6], recent := [] }
      (.client 5 (.bytes persian)) _ :=
    .client 5 (.bytes persian) { silent with inbox := [] } [3, 6] _ rfl rfl (by decide)
      (by
        rw [if_pos (by exact hopen 5 (by decide))]
        exact .bytes 4 (by decide) (by decide) (by decide)) rfl
  have r₁ := (((r.snoc hgone).snoc hwait).snoc hread).snoc
    (World.Step.accept 6 silent [6] rfl rfl (.inr ⟨by decide, by unfold Open; decide⟩))
  have r₂ := r₁.snoc (World.Step.client 6 .again silent [] _ rfl rfl (by decide)
    (by
      rw [if_pos (by decide)]
      exact .again (by simp [Peer.Ready, silent])) rfl)
  refine ⟨_, _, r₂, _, List.mem_concat_self, rfl, by decide, fun h => ?_⟩
  rcases h.own 6 (by decide) (by decide) with ⟨r, hr, hcause⟩ | ⟨⟨fd, r, hr, hne⟩, -⟩
  · cases hr
    rcases hcause with hcause | ⟨buf, hbuf, -⟩
    · cases hcause
    · cases hbuf
  · cases hr
    exact hne rfl

end Sop2.Poslancy
