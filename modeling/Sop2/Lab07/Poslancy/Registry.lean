import Sop2.Lab07.Poslancy.Server

/-!
# Lab07 — Poslancy — the registry of clients

`Registry`: the counter is the number of taken entries of `clients[]`, these are the open
connections, each once, and `remove_client` was never called for a descriptor without an entry.

Every event of an open descriptor keeps it (`Registry.step`), whatever the clients send and
whichever broadcast writes fail with `EPIPE`.  A broadcast may close a connection whose own event
is still to come in the same batch, though: `read` then fails, and `remove_client` is called a
second time (`removed_twice`).  `registry_law`: along any run the registry is kept exactly when no
event is handled whose descriptor has been closed.
-/

namespace Sop2.Poslancy
open Support

/-- What the table, its counter and the system agree on. -/
structure Registry (s : Server) : Prop where
  length : s.clients.length = maxClients
  count : s.currentClients = (occupied (-1) s.clients).length
  nodup : (occupied (-1) s.clients).Nodup
  mem : ∀ fd, fd ∈ occupied (-1) s.clients ↔ fd ∈ connections s.log
  le : (occupied (-1) s.clients).length ≤ maxClients
  found : ∀ fd, Effect.removed fd false ∉ s.log

/-! ### The connections after one more request -/

@[simp] theorem connections_accepted (log : List Effect) (fd : Int) :
    connections (log ++ [.accepted fd]) = fd :: connections log := by
  simp [connections, History.see]

@[simp] theorem connections_removed (log : List Effect) (fd : Int) (found : Bool) :
    connections (log ++ [.removed fd found]) = (connections log).filter (· ≠ fd) := by
  simp [connections, History.see]

@[simp] theorem connections_read (log : List Effect) (fd : Int) (buf : List UInt8) :
    connections (log ++ [.read fd buf]) = connections log := by
  simp only [connections, history_snoc, History.see]
  split <;> rfl

/-- A request that opens and closes nothing. -/
def Effect.Quiet : Effect → Prop
  | .accepted _ | .removed _ _ => False
  | _ => True

theorem connections_quiet {e : Effect} (he : e.Quiet) (log : List Effect) :
    connections (log ++ [e]) = connections log := by
  cases e with
  | accepted | removed => exact he.elim
  | read => exact connections_read ..
  | rejected | wrote | epipe => simp [connections, History.see]

/-! ### The registry after one request -/

variable {s s' : Server} {fd : Int}

theorem registry_start : Registry start where
  length := rfl
  count := rfl
  nodup := List.nodup_nil
  mem fd := by simp [start, connections, history, occupied]
  le := by decide
  found fd := by simp [start]

theorem Registry.asked (h : Registry s) (e : Effect) (he : e.Quiet) : Registry (s.asked e) where
  length := h.length
  count := h.count
  nodup := h.nodup
  mem fd := by rw [Server.asked, connections_quiet he]; exact h.mem fd
  le := h.le
  found fd hfd := by
    rcases List.mem_append.mp hfd with hfd | hfd
    · exact h.found fd hfd
    · obtain rfl := List.mem_singleton.mp hfd
      exact he.elim

theorem Registry.cities (h : Registry s) (cities : Fin 20 → City) :
    Registry { s with cities := cities } :=
  ⟨h.length, h.count, h.nodup, h.mem, h.le, h.found⟩

theorem connections_removeClient (s : Server) (fd : Int) :
    connections (removeClient fd s).log = (connections s.log).filter (· ≠ fd) :=
  connections_removed ..

/-- The clients that are left. -/
theorem Registry.occupied_removeClient (h : Registry s) (hfd : fd ≠ -1) (x : Int) :
    x ∈ occupied (-1) (removeClient fd s).clients ↔ x ≠ fd ∧ x ∈ occupied (-1) s.clients := by
  have hocc : occupied (-1) (removeClient fd s).clients =
      (occupied (-1) s.clients).erase fd := occupied_release hfd
  rw [hocc, h.nodup.mem_erase_iff]

/-- Removing a client that has an entry. -/
theorem Registry.removeClient (h : Registry s) (hfd : fd ∈ occupied (-1) s.clients) :
    Registry (removeClient fd s) := by
  obtain ⟨hmem, hne⟩ := mem_occupied.mp hfd
  have hocc : occupied (-1) (Poslancy.removeClient fd s).clients =
      (occupied (-1) s.clients).erase fd := occupied_release hne
  have hlen : ((occupied (-1) s.clients).erase fd).length + 1 =
      (occupied (-1) s.clients).length := by
    rw [List.length_erase_of_mem hfd]
    have := List.length_pos_of_mem hfd
    omega
  -- the counter and the entries both lose one, since the descriptor was found
  refine ⟨?_, ?_, ?_, fun x => ?_, ?_, fun x hx => ?_⟩
  · exact (List.length_replace).trans h.length
  · have hc := h.count
    change s.currentClients - 1 = _
    rw [hocc]
    omega
  · rw [hocc]; exact h.nodup.erase fd
  · rw [h.occupied_removeClient hne, h.mem, connections_removeClient]
    simp [and_comm]
  · have := h.le
    rw [hocc]
    omega
  · rcases List.mem_append.mp hx with hx | hx
    · exact h.found x hx
    · simp only [List.mem_singleton, Effect.removed.injEq, List.contains_iff_mem.mpr hmem,
        Bool.false_eq_true, and_false] at hx

/-- A new connection takes a free entry, and there is one whenever it is asked for. -/
theorem Registry.accept (h : Registry s) (hfd : 0 ≤ fd) (hnew : fd ∉ connections s.log)
    (hlt : s.currentClients < maxClients) :
    Registry { s.asked (.accepted fd) with
      clients := s.clients.replace (-1) fd
      currentClients := s.currentClients + 1 } := by
  -- the counter is the number of entries in use, and it is below `MAX_CLIENTS`
  have hfree : (-1 : Int) ∈ s.clients := by
    rw [free_mem_iff, h.length]
    have := h.count
    omega
  have hp := occupied_take (a := fd) (by omega) hfree
  have hcount := h.count
  refine ⟨List.length_replace.trans h.length, ?_, ?_, fun x => ?_, ?_, fun x hx => ?_⟩
  · rw [hp.length_eq, List.length_cons]
    simp [hcount]
  · refine hp.nodup_iff.mpr (List.nodup_cons.mpr ⟨?_, h.nodup⟩)
    rwa [h.mem]
  · rw [hp.mem_iff, List.mem_cons, h.mem]
    simp [Server.asked]
  · rw [hp.length_eq, List.length_cons]
    omega
  · rcases List.mem_append.mp hx with hx | hx
    · exact h.found x hx
    · simp at hx

/-! ### The registry after one event -/

theorem Registry.acceptEvent (h : Registry s)
    (hfd : fd = -1 ∨ 0 ≤ fd ∧ fd ∉ connections s.log) : Registry (acceptEvent s fd) := by
  rcases acceptEvent_cases s fd with ⟨-, he⟩ | ⟨hge, hlt, he⟩ | ⟨-, -, he⟩
  · rwa [he]
  · rw [he]
    have hnew : fd ∉ connections s.log := by
      rcases hfd with rfl | hfd
      · exact absurd hge (by decide)
      · exact hfd.2
    exact h.accept hge hnew hlt
  · rw [he]; exact h.asked (.rejected fd) trivial

/-- The broadcast removes only clients it finds in the table. -/
theorem Registry.broadcast {wr : Nat → WriteResult} {buf : List UInt8} :
    ∀ {ks : List Nat} {s : Server}, Registry s → broadcast wr fd buf ks s = some s' → Registry s'
  | [], s, h, hb => by cases hb; exact h
  | k :: ks, s, h, hb => by
      unfold Poslancy.broadcast at hb
      dsimp only at hb
      split at hb
      · rename_i ht
        split at hb
        · exact Registry.broadcast (h.asked (.wrote _ _) trivial) hb
        · exact Registry.broadcast
            ((h.asked (.epipe _) trivial).removeClient (getD_mem_occupied ht.1)) hb
        · cases hb
      · exact Registry.broadcast h hb

theorem Registry.readEvent (h : Registry s) (hfd : fd ∈ connections s.log) {r : ReadResult}
    {wr : Nat → WriteResult} (hs : readEvent s fd r wr = some s') : Registry s' := by
  have hocc := (h.mem fd).mpr hfd
  rcases readEvent_cases hs with ⟨-, rfl⟩ | ⟨buf, -, -, rfl⟩ | ⟨buf, c, o, -, -, hcase⟩
  · exact h.removeClient hocc
  · exact (h.asked (.read fd buf) trivial).removeClient hocc
  · rcases hcase with ⟨-, rfl⟩ | ⟨-, hb⟩
    · exact h.asked (.read fd buf) trivial
    · exact ((h.asked (.read fd buf) trivial).cities _).broadcast hb

/-- An event of a descriptor that is closed ends in a call of `remove_client` for it. -/
theorem readEvent_closed (h : Registry s) (hne : fd ≠ -1) (hfd : fd ∉ connections s.log)
    {wr : Nat → WriteResult} (hs : readEvent s fd .error wr = some s') :
    Effect.removed fd false ∈ s'.log := by
  have hmem : fd ∉ s.clients := fun hmem => hfd ((h.mem fd).mp (mem_occupied.mpr ⟨hmem, hne⟩))
  have hc : s.clients.contains fd = false := by simpa using hmem
  simp only [Poslancy.readEvent, Option.some.injEq] at hs
  subst hs
  refine List.mem_append_right _ (List.mem_singleton.mpr ?_)
  rw [hc]

/-! ### The whole run -/

/-- The event of the step, if it is one of a client, is of a descriptor that is still open. -/
def Current (s : System) (l : Label) (_ : System) : Prop :=
  ∀ fd r, l = .client fd r → fd ∈ connections s.server.log

variable {sfd : Int} {t u : System} {l : Label} {tr : List (Move System Label)}

/-- An event of an open descriptor keeps the registry. -/
theorem Registry.step (h : Registry t.server) (hs : Step sfd t l u) (hc : Current t l u) :
    Registry u.server := by
  cases hs with
  | wait => exact h
  | accept newFd rest _ hfd =>
      exact h.acceptEvent (hfd.imp id fun hfd => ⟨hfd.1, fun hmem => hfd.2 (.inr hmem)⟩)
  | client fd rest r wr server _ _ _ _ hs => exact h.readEvent (hc fd r rfl) hs

/-- The descriptors of a batch. -/
def Batch (sfd : Int) (s : System) : Prop := ∀ fd ∈ s.batch, fd = sfd ∨ fd ≠ -1

theorem Batch.step (h : Registry t.server) (hb : Batch sfd t) (hs : Step sfd t l u) :
    Batch sfd u := by
  cases hs with
  | wait events _ _ _ ho =>
      intro fd hfd
      refine (ho fd hfd).imp id fun hmem => ?_
      exact (mem_occupied.mp ((h.mem fd).mpr hmem)).2
  | accept newFd rest h _ => exact fun fd hfd => hb fd (h ▸ List.mem_cons_of_mem _ hfd)
  | client fd rest r wr server h _ _ _ _ =>
      exact fun fd hfd => hb fd (h ▸ List.mem_cons_of_mem _ hfd)

/-- When the registry is kept by a step, its event was of an open descriptor. -/
theorem Registry.current (h : Registry t.server) (hb : Batch sfd t) (hs : Step sfd t l u)
    (hu : Registry u.server) : Current t l u := by
  rintro fd r rfl
  cases hs with
  | client _ rest _ wr server hbatch hfd hr _ hs =>
      by_contra hmem
      -- a closed descriptor cannot be read, and its event ends in `remove_client`
      obtain rfl := hr hmem
      have hne : fd ≠ -1 := (hb fd (hbatch ▸ List.mem_cons_self)).resolve_left hfd
      exact hu.found fd (readEvent_closed h hne hmem hs)

/-- **The registry of clients.**  Along every run, with every content sent and every outcome of
the broadcast writes but `ERR`: the registry is as it should be after each handled event if and
only if every client event is of a descriptor that is still open when its turn comes, that is, no
event of a batch is of a connection that the broadcast of an earlier event of the batch has
closed. -/
theorem registry_law (r : Run (Step sfd) System.begin tr t) :
    (∀ m ∈ tr, Registry m.after.server) ↔ ∀ m ∈ tr, Current m.before m.label m.after := by
  refine r.law (J := fun s => Registry s.server ∧ Batch sfd s) (P := fun s => Registry s.server)
    (C := Current) ?_ (fun h => h.1) ?_ ⟨registry_start, by simp [Batch, System.begin]⟩
  · rintro s l t ⟨h, hb⟩ hs hc
    exact ⟨h.step hs hc, hb.step h hs⟩
  · rintro s l t ⟨h, hb⟩ hs ht
    exact h.current hb hs ht

/-! ### Two clients -/

/-- Two connections, accepted on the descriptors 5 and 6 by a server that listens on 3. -/
def twoClients : System := ⟨acceptEvent (acceptEvent start 5) 6, []⟩

/-- A client takes the first city for the other side. -/
def persian : List UInt8 := message charP 0

theorem twoClients_run : ∃ tr, Run (Step 3) System.begin tr twoClients ∧
    ∀ m ∈ tr, Current m.before m.label m.after := by
  have h₁ : Step 3 System.begin .wait ⟨start, [3]⟩ :=
    .wait [3] rfl (by decide) (by decide) (by simp [Open])
  have h₂ : Step 3 ⟨start, [3]⟩ (.accept 5) ⟨acceptEvent start 5, []⟩ :=
    .accept 5 [] rfl (.inr ⟨by decide, by unfold Open; decide⟩)
  have h₃ : Step 3 ⟨acceptEvent start 5, []⟩ .wait ⟨acceptEvent start 5, [3]⟩ :=
    .wait [3] rfl (by decide) (by decide) (by simp [Open])
  have h₄ : Step 3 ⟨acceptEvent start 5, [3]⟩ (.accept 6) twoClients :=
    .accept 6 [] rfl (.inr ⟨by decide, by unfold Open; decide⟩)
  refine ⟨_, (((Run.one h₁).snoc h₂).snoc h₃).snoc h₄, fun m hm fd r hl => ?_⟩
  simp only [List.cons_append, List.nil_append, List.mem_cons, List.not_mem_nil, or_false] at hm
  rcases hm with rfl | rfl | rfl | rfl <;> cases hl

/-- The batch of both clients. -/
theorem twoClients_wait : Step 3 twoClients .wait { twoClients with batch := [5, 6] } :=
  .wait [5, 6] rfl (by decide) (by decide) fun fd hfd => by
    unfold Open
    revert fd
    decide

/-- One client sends a message and the other one leaves, with no write that fails. -/
theorem registry_law_written : ∃ tr s, Run (Step 3) System.begin tr s ∧
    connections s.server.log = [5] ∧ ∀ m ∈ tr, Registry m.after.server := by
  obtain ⟨tr, r, hc⟩ := twoClients_run
  obtain ⟨u, v, hu, hv, hlog, hlog'⟩ : ∃ u v,
      readEvent twoClients.server 5 (.bytes persian) (fun _ => .written) = some u ∧
        readEvent u 6 (.bytes []) (fun _ => .written) = some v ∧
        connections u.log = [6, 5] ∧ connections v.log = [5] := ⟨_, _, rfl, rfl, rfl, rfl⟩
  have h₁ : Step 3 { twoClients with batch := [5, 6] } (.client 5 (.bytes persian)) ⟨u, [6]⟩ :=
    .client 5 [6] (.bytes persian) (fun _ => .written) u rfl (by decide)
      (fun h => absurd (by decide) h) (by rintro _ ⟨⟩; decide) hu
  have h₂ : Step 3 ⟨u, [6]⟩ (.client 6 (.bytes [])) ⟨v, []⟩ :=
    .client 6 [] (.bytes []) (fun _ => .written) v rfl (by decide)
      (fun h => absurd (by rw [hlog]; decide) h) (by rintro _ ⟨⟩; decide) hv
  have r' := ((r.snoc twoClients_wait).snoc h₁).snoc h₂
  refine ⟨_, _, r', hlog', (registry_law r').mpr fun m hm => ?_⟩
  simp only [List.append_assoc, List.cons_append, List.nil_append, List.mem_append, List.mem_cons,
    List.not_mem_nil, or_false] at hm
  rcases hm with hm | rfl | rfl | rfl
  · exact hc m hm
  · rintro fd r ⟨⟩
  · rintro fd r ⟨⟩
    change 5 ∈ connections twoClients.server.log
    decide
  · rintro fd r ⟨⟩
    rw [hlog]
    decide

/-- Both clients are ready; the broadcast of the first one's message fails for the second one
with `EPIPE` and closes it.  Its own event, the next of the batch, removes it once more: one
client is left, and the counter is 0. -/
theorem removed_twice : ∃ tr s, Run (Step 3) System.begin tr s ∧ s.batch = [] ∧
    s.server.currentClients = 0 ∧ occupied (-1) s.server.clients = [5] ∧
    connections s.server.log = [5] ∧ Effect.removed 6 false ∈ s.server.log ∧
    ¬ Registry s.server := by
  obtain ⟨tr, r, -⟩ := twoClients_run
  obtain ⟨u, v, hu, hv, hlog, hcount, hocc, hlog', hmem⟩ : ∃ u v,
      readEvent twoClients.server 5 (.bytes persian) (fun _ => .epipe) = some u ∧
        readEvent u 6 .error (fun _ => .epipe) = some v ∧ connections u.log = [5] ∧
        v.currentClients = 0 ∧ occupied (-1) v.clients = [5] ∧ connections v.log = [5] ∧
        Effect.removed 6 false ∈ v.log :=
    ⟨_, _, rfl, rfl, rfl, rfl, rfl, rfl, by decide⟩
  have h₁ : Step 3 { twoClients with batch := [5, 6] } (.client 5 (.bytes persian)) ⟨u, [6]⟩ :=
    .client 5 [6] (.bytes persian) (fun _ => .epipe) u rfl (by decide)
      (fun h => absurd (by decide) h) (by rintro _ ⟨⟩; decide) hu
  have h₂ : Step 3 ⟨u, [6]⟩ (.client 6 .error) ⟨v, []⟩ :=
    .client 6 [] .error (fun _ => .epipe) v rfl (by decide) (fun _ => rfl) (by rintro _ ⟨⟩) hv
  exact ⟨_, _, ((r.snoc twoClients_wait).snoc h₁).snoc h₂, rfl, hcount, hocc, hlog', hmem,
    fun h => h.found 6 hmem⟩

end Sop2.Poslancy
