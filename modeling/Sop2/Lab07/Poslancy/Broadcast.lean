import Sop2.Lab07.Poslancy.Registry

/-!
# Lab07 — Poslancy — ownership and broadcast

Runs in which every write to a client succeeds.

`ownership_and_broadcast`: the owner of a city is the letter of the last valid message about it;
what each client is sent are, in order, the messages of the others that changed an owner while it
was connected; an invalid message disconnects its sender and does nothing else; and a connection
that finds the table full is closed and does nothing else.

Both laws compare two readings of one log: `stream`, what was written to a descriptor since it
was last accepted, and `expected`, what it should have been from the messages read.
-/

namespace Sop2.Poslancy
open Support

/-- `buf`, read from `fd`, is a message of a connected client that changes the owner of a city. -/
def Changes (h : History) (fd : Int) (buf : List UInt8) : Prop :=
  fd ∈ h.connections ∧ ∃ c, (Says buf c charP ∧ h.owners c ≠ charP) ∨
    (Says buf c charG ∧ h.owners c ≠ charG)

instance (h : History) (fd : Int) (buf : List UInt8) : Decidable (Changes h fd buf) :=
  inferInstanceAs (Decidable (_ ∧ _))

/-- What has happened, and the messages that `fd` should have been sent since it was accepted. -/
def expect (fd : Int) : History × List (List UInt8) → Effect → History × List (List UInt8)
  | (h, ms), e => (h.see e,
      match e with
      | .accepted fd' => if fd' = fd then [] else ms
      | .read fd' buf =>
          if fd ∈ h.connections ∧ fd' ≠ fd ∧ Changes h fd' buf then ms ++ [buf] else ms
      | _ => ms)

/-- The valid messages that changed an owner and were read from others, while `fd` was connected,
since it was last accepted. -/
def expected (fd : Int) (log : List Effect) : List (List UInt8) :=
  (log.foldl (expect fd) (⟨[], fun _ => charG⟩, [])).2

/-- What was written to `fd` since it was last accepted. -/
def stream (fd : Int) (log : List Effect) : List (List UInt8) :=
  log.foldl (fun ms e =>
    match e with
    | .accepted fd' => if fd' = fd then [] else ms
    | .wrote fd' buf => if fd' = fd then ms ++ [buf] else ms
    | _ => ms) []

theorem expect_history (fd : Int) (log : List Effect) :
    (log.foldl (expect fd) (⟨[], fun _ => charG⟩, [])).1 = history log := by
  induction log using List.reverseRecOn with
  | nil => rfl
  | append_singleton log e ih =>
      rw [List.foldl_append, history_snoc, ← ih]
      rfl

theorem expected_snoc (fd : Int) (log : List Effect) (e : Effect) :
    expected fd (log ++ [e]) =
      match e with
      | .accepted fd' => if fd' = fd then [] else expected fd log
      | .read fd' buf =>
          if fd ∈ connections log ∧ fd' ≠ fd ∧ Changes (history log) fd' buf then
            expected fd log ++ [buf]
          else expected fd log
      | _ => expected fd log := by
  rw [expected, List.foldl_append]
  simp only [List.foldl_cons, List.foldl_nil, expect, expect_history]
  rfl

theorem stream_snoc (fd : Int) (log : List Effect) (e : Effect) :
    stream fd (log ++ [e]) =
      match e with
      | .accepted fd' => if fd' = fd then [] else stream fd log
      | .wrote fd' buf => if fd' = fd then stream fd log ++ [buf] else stream fd log
      | _ => stream fd log := by
  rw [stream, List.foldl_append]
  rfl

/-! ### A broadcast whose writes succeed -/

variable {s s' : Server} {fd : Int} {buf : List UInt8} {wr : Nat → WriteResult}

/-- No write has failed. -/
def Written (log : List Effect) : Prop := ∀ fd, Effect.epipe fd ∉ log

theorem broadcast_log : ∀ {ks : List Nat} {s : Server}, broadcast wr fd buf ks s = some s' →
    s.log <+: s'.log
  | [], s, h => by cases h; exact List.prefix_rfl
  | k :: ks, s, h => by
      unfold broadcast at h
      dsimp only at h
      split at h
      · split at h
        · exact (List.prefix_append ..).trans (broadcast_log h)
        · refine List.IsPrefix.trans ?_ (broadcast_log h)
          exact (List.prefix_append ..).trans (List.prefix_append ..)
        · cases h
      · exact broadcast_log h

/-- The clients a broadcast reaches, over the indices still to come. -/
def targets (clients : List Int) (fd : Int) (ks : List Nat) : List Int :=
  (ks.map fun k => clients.getD k (-1)).filter fun t => t ≠ -1 ∧ t ≠ fd

theorem targets_cons (clients : List Int) (k : Nat) (ks : List Nat) :
    targets clients fd (k :: ks) =
      if clients.getD k (-1) ≠ -1 ∧ clients.getD k (-1) ≠ fd then
        clients.getD k (-1) :: targets clients fd ks
      else targets clients fd ks := by
  rw [targets, List.map_cons, List.filter_cons]
  simp only [decide_eq_true_eq]
  rfl

theorem broadcast_written : ∀ {ks : List Nat} {s : Server}, broadcast wr fd buf ks s = some s' →
    Written s'.log → s' = { s with log := s.log ++ (targets s.clients fd ks).map (.wrote · buf) }
  | [], s, h, _ => by cases h; simp [targets]
  | k :: ks, s, h, hw => by
      unfold broadcast at h
      dsimp only at h
      split at h
      · rename_i ht
        split at h
        · rw [broadcast_written h hw, targets_cons, if_pos ht]
          simp [Server.asked]
        · -- the failed write stays in the log
          refine absurd ((broadcast_log h).subset ?_) (hw (s.clients.getD k (-1)))
          exact List.mem_append_left _ (List.mem_append_right _ List.mem_cons_self)
        · cases h
      · rename_i ht
        rw [broadcast_written h hw, targets_cons, if_neg ht]

/-- A broadcast reaches every client but the sender. -/
theorem targets_range {clients : List Int} (h : clients.length = maxClients) :
    targets clients fd (List.range maxClients) = (occupied (-1) clients).filter (· ≠ fd) := by
  have hmap : (List.range maxClients).map (fun k => clients.getD k (-1)) = clients := by
    rw [← h]
    refine List.ext_getElem (by simp) fun i hi hi' => ?_
    simp [hi']
  rw [targets, hmap, occupied, List.filter_filter]
  congr 1
  funext t
  simp [and_comm]

/-- Writes to `ts` in the log. -/
theorem writes_history (log : List Effect) (ts : List Int) :
    history (log ++ ts.map (.wrote · buf)) = history log := by
  induction ts using List.reverseRecOn with
  | nil => simp
  | append_singleton ts t ih =>
      rw [List.map_append, ← List.append_assoc, List.map_singleton, history_snoc, ih]
      rfl

theorem writes_expected (x : Int) (log : List Effect) (ts : List Int) :
    expected x (log ++ ts.map (.wrote · buf)) = expected x log := by
  induction ts using List.reverseRecOn with
  | nil => simp
  | append_singleton ts t ih =>
      rw [List.map_append, ← List.append_assoc, List.map_singleton, expected_snoc, ih]

theorem writes_stream (x : Int) (log : List Effect) {ts : List Int} (hn : ts.Nodup) :
    stream x (log ++ ts.map (.wrote · buf)) =
      if x ∈ ts then stream x log ++ [buf] else stream x log := by
  induction ts using List.reverseRecOn with
  | nil => simp
  | append_singleton ts t ih =>
      obtain ⟨hn, -, hd⟩ := List.nodup_append.mp hn
      rw [List.map_append, ← List.append_assoc, List.map_singleton, stream_snoc, ih hn]
      have ht : t ∉ ts := fun ht => hd t ht t (List.mem_singleton.mpr rfl) rfl
      by_cases hx : t = x
      · subst hx
        simp [ht]
      · simp [hx, Ne.symm hx]

/-! ### The invariant -/

/-- The cities and the clients are as the messages read say. -/
structure Faithful (s : Server) : Prop where
  registry : Registry s
  owners : ∀ c, (s.cities c).owner = (history s.log).owners c
  letters : ∀ c, Letter (s.cities c).owner
  streams : ∀ fd, stream fd s.log = expected fd s.log

theorem faithful_start : Faithful start where
  registry := registry_start
  owners _ := rfl
  letters _ := .inr rfl
  streams _ := rfl

/-- The owners after a message that has been read from a client. -/
theorem owners_read {log : List Effect} (hfd : fd ∈ connections log) {c : Fin 20} {o : UInt8}
    (hs : Says buf c o) :
    (history (log ++ [.read fd buf])).owners = Function.update (history log).owners c o := by
  have hfd' : fd ∈ (history log).connections := hfd
  funext x
  rw [history_snoc, History.see, if_pos hfd']
  dsimp only
  by_cases hx : x = c
  · subst hx
    rw [Function.update_self]
    rcases hs.1 with rfl | rfl
    · rw [if_pos hs]
    · have hp : ¬ Says buf x charP := fun h => absurd (h.unique hs).2 (by decide)
      rw [if_neg hp, if_pos hs]
  · have hn : ∀ o', ¬ Says buf x o' := fun o' h => hx (hs.unique h).1
    rw [Function.update_of_ne hx, if_neg (hn _), if_neg (hn _)]

theorem owners_read_invalid {log : List Effect} (hs : ∀ c o, ¬ Says buf c o) :
    (history (log ++ [.read fd buf])).owners = (history log).owners := by
  rw [history_snoc, History.see]
  split
  · funext x
    dsimp only
    rw [if_neg (hs x _), if_neg (hs x _)]
  · rfl

theorem changes_iff {h : History} (hfd : fd ∈ h.connections) {c : Fin 20} {o : UInt8}
    (hs : Says buf c o) : Changes h fd buf ↔ h.owners c ≠ o := by
  constructor
  · rintro ⟨-, c', ⟨hs', hne⟩ | ⟨hs', hne⟩⟩
    · obtain ⟨rfl, rfl⟩ := hs.unique hs'
      exact hne
    · obtain ⟨rfl, rfl⟩ := hs.unique hs'
      exact hne
  · intro hne
    rcases hs.1 with rfl | rfl
    · exact ⟨hfd, c, .inl ⟨hs, hne⟩⟩
    · exact ⟨hfd, c, .inr ⟨hs, hne⟩⟩

theorem not_changes {h : History} (hs : ∀ c o, ¬ Says buf c o) : ¬ Changes h fd buf := by
  rintro ⟨-, c, ⟨hs', -⟩ | ⟨hs', -⟩⟩ <;> exact hs c _ hs'

/-! ### One event -/

theorem Faithful.removeClient (h : Faithful s) (hfd : fd ∈ connections s.log) :
    Faithful (removeClient fd s) where
  registry := h.registry.removeClient ((h.registry.mem fd).mpr hfd)
  owners c := by
    simp only [Poslancy.removeClient, Server.asked, history_snoc]
    exact h.owners c
  letters := h.letters
  streams x := by
    simp only [Poslancy.removeClient, Server.asked, stream_snoc, expected_snoc]
    exact h.streams x

/-- A message that changes nothing: it says nothing, or what is known. -/
theorem Faithful.read (h : Faithful s)
    (ho : (history (s.log ++ [.read fd buf])).owners = (history s.log).owners)
    (hc : ¬ Changes (history s.log) fd buf) : Faithful (s.asked (.read fd buf)) where
  registry := h.registry.asked (.read fd buf) trivial
  owners c := by
    change _ = (history (s.log ++ [.read fd buf])).owners c
    rw [ho]
    exact h.owners c
  letters := h.letters
  streams x := by
    simp only [Server.asked, stream_snoc, expected_snoc, hc, and_false, if_false]
    exact h.streams x

/-- **A message that changes an owner.**  Every client but the sender is sent it. -/
theorem Faithful.broadcast (h : Faithful s) (hfd : fd ∈ connections s.log) {c : Fin 20} {o : UInt8}
    (hs : Says buf c o) (hne : (s.cities c).owner ≠ o)
    (hb : broadcast wr fd buf (List.range maxClients)
      { s.asked (.read fd buf) with
        cities := Function.update s.cities c { s.cities c with owner := o } } = some s')
    (hw : Written s'.log) : Faithful s' := by
  have hreg := ((h.registry.asked (.read fd buf) trivial).cities
    (Function.update s.cities c { s.cities c with owner := o })).broadcast hb
  obtain rfl := broadcast_written hb hw
  dsimp only [Server.asked] at hreg ⊢
  rw [targets_range h.registry.length] at hreg ⊢
  refine ⟨hreg, fun x => ?_, fun x => ?_, fun x => ?_⟩
  · rw [writes_history, owners_read hfd hs]
    by_cases hx : x = c
    · subst hx; simp
    · simp [hx, h.owners]
  · by_cases hx : x = c
    · subst hx
      simp only [Function.update_self]
      exact hs.1
    · simp only [Function.update_of_ne hx]
      exact h.letters x
  · have hchanges : Changes (history s.log) fd buf :=
      (changes_iff hfd hs).mpr (by rwa [← h.owners])
    rw [writes_expected, writes_stream x _ (h.registry.nodup.filter _), expected_snoc, stream_snoc]
    simp only [List.mem_filter, h.registry.mem, decide_eq_true_eq, hchanges, and_true, h.streams,
      ne_comm]

theorem Faithful.readEvent (h : Faithful s) (hfd : fd ∈ connections s.log) {r : ReadResult}
    (hs : readEvent s fd r wr = some s') (hw : Written s'.log) : Faithful s' := by
  rcases readEvent_cases hs with ⟨-, rfl⟩ | ⟨buf, -, hn, rfl⟩ | ⟨buf, c, o, -, hsay, hcase⟩
  · exact h.removeClient hfd
  · refine (h.read (owners_read_invalid hn) (not_changes hn)).removeClient ?_
    rw [Server.asked, connections_read]
    exact hfd
  · rcases hcase with ⟨ho, rfl⟩ | ⟨hne, hb⟩
    · have ho' : (history s.log).owners c = o := (h.owners c).symm.trans ho
      refine h.read ?_ fun hc => (changes_iff hfd hsay).mp hc ho'
      rw [owners_read hfd hsay, ← ho', Function.update_eq_self]
    · exact h.broadcast hfd hsay hne hb hw

theorem Faithful.acceptEvent (h : Faithful s)
    (hfd : fd = -1 ∨ 0 ≤ fd ∧ fd ∉ connections s.log) : Faithful (acceptEvent s fd) := by
  have hreg := h.registry.acceptEvent hfd
  rcases acceptEvent_cases s fd with ⟨-, he⟩ | ⟨-, -, he⟩ | ⟨-, -, he⟩
  · rwa [he]
  · rw [he] at hreg ⊢
    refine ⟨hreg, fun c => ?_, h.letters, fun x => ?_⟩
    · simp only [Server.asked, history_snoc]
      exact h.owners c
    · simp only [Server.asked, stream_snoc, expected_snoc, h.streams x]
  · rw [he] at hreg ⊢
    refine ⟨hreg, fun c => ?_, h.letters, fun x => ?_⟩
    · simp only [Server.asked, history_snoc]
      exact h.owners c
    · simp only [Server.asked, stream_snoc, expected_snoc]
      exact h.streams x

/-! ### The whole run -/

variable {sfd : Int} {t u : System} {l : Label} {tr : List (Move System Label)}

theorem acceptEvent_log (s : Server) (fd : Int) : s.log <+: (acceptEvent s fd).log := by
  rcases acceptEvent_cases s fd with ⟨-, he⟩ | ⟨-, -, he⟩ | ⟨-, -, he⟩
  · rw [he]
  · rw [he]; exact List.prefix_append ..
  · rw [he]; exact List.prefix_append ..

theorem readEvent_log {r : ReadResult} (hs : readEvent s fd r wr = some s') :
    s.log <+: s'.log := by
  rcases readEvent_cases hs with ⟨-, rfl⟩ | ⟨buf, -, -, rfl⟩ | ⟨buf, c, o, -, -, hcase⟩
  · exact List.prefix_append ..
  · exact (List.prefix_append ..).trans (List.prefix_append ..)
  · rcases hcase with ⟨-, rfl⟩ | ⟨-, hb⟩
    · exact List.prefix_append ..
    · exact (List.prefix_append ..).trans (broadcast_log hb)

/-- The log only grows. -/
theorem Step.log (h : Step sfd t l u) : t.server.log <+: u.server.log := by
  cases h with
  | wait => exact List.prefix_rfl
  | accept newFd rest _ _ => exact acceptEvent_log ..
  | client fd rest r wr server _ _ _ _ hs => exact readEvent_log hs

/-- Without a failed write, an event closes no connection but its own. -/
theorem connections_readEvent {r : ReadResult}
    (hs : readEvent s fd r wr = some s') (hw : Written s'.log) {x : Int} (hx : x ≠ fd)
    (hmem : x ∈ connections s.log) : x ∈ connections s'.log := by
  rcases readEvent_cases hs with ⟨-, rfl⟩ | ⟨buf, -, -, rfl⟩ | ⟨buf, c, o, -, -, hcase⟩
  · rw [connections_removeClient]
    simp [hx, hmem]
  · rw [connections_removeClient, Server.asked, connections_read]
    simp [hx, hmem]
  · rcases hcase with ⟨-, rfl⟩ | ⟨-, hb⟩
    · rwa [Server.asked, connections_read]
    · obtain rfl := broadcast_written hb hw
      rw [connections, writes_history]
      change x ∈ connections (s.log ++ [.read fd buf])
      rwa [connections_read]

/-- The events still to come are of descriptors that are open, each once. -/
structure Pending (sfd : Int) (s : System) : Prop where
  nodup : s.batch.Nodup
  isOpen : ∀ fd ∈ s.batch, Open sfd s.server.log fd

theorem Pending.current (h : Pending sfd t) (hs : Step sfd t l u) : Current t l u := by
  rintro fd r rfl
  cases hs with
  | client _ rest _ wr server hbatch hfd _ _ _ =>
      exact (h.isOpen fd (hbatch ▸ List.mem_cons_self)).resolve_left hfd

theorem Pending.step (h : Pending sfd t) (hs : Step sfd t l u)
    (hw : Written u.server.log) : Pending sfd u := by
  cases hs with
  | wait events _ _ hn ho => exact ⟨hn, ho⟩
  | accept newFd rest hbatch hfd =>
      have hn := h.nodup
      rw [hbatch] at hn
      refine ⟨(List.nodup_cons.mp hn).2, fun fd hmem => ?_⟩
      refine (h.isOpen fd (hbatch ▸ List.mem_cons_of_mem _ hmem)).imp id fun ho => ?_
      rcases acceptEvent_cases t.server newFd with ⟨-, he⟩ | ⟨-, -, he⟩ | ⟨-, -, he⟩
      · rwa [he]
      · rw [he]
        simp [Server.asked, ho]
      · rw [he, Server.asked, connections_quiet (e := .rejected newFd) trivial]
        exact ho
  | client fd rest r wr server hbatch hfd _ _ hs =>
      have hn := h.nodup
      rw [hbatch] at hn
      obtain ⟨hfd', hn⟩ := List.nodup_cons.mp hn
      refine ⟨hn, fun x hmem => ?_⟩
      refine (h.isOpen x (hbatch ▸ List.mem_cons_of_mem _ hmem)).imp id fun ho => ?_
      -- the event can only have closed its own connection, and is not in the batch twice
      exact connections_readEvent hs hw (fun e => hfd' (e ▸ hmem)) ho

theorem Faithful.step (h : Faithful t.server) (hp : Pending sfd t) (hs : Step sfd t l u)
    (hw : Written u.server.log) : Faithful u.server := by
  have hc := hp.current hs
  cases hs with
  | wait => exact h
  | accept newFd rest _ hfd =>
      exact h.acceptEvent (hfd.imp id fun hfd => ⟨hfd.1, fun hmem => hfd.2 (.inr hmem)⟩)
  | client fd rest r wr server _ _ _ _ hs => exact h.readEvent (hc fd r rfl) hs hw

/-- Along a run without a failed write. -/
theorem faithful_run (r : Run (Step sfd) System.begin tr t) (hw : Written t.server.log) :
    (Faithful t.server ∧ Pending sfd t) ∧
      ∀ m ∈ tr, Faithful m.before.server ∧ Pending sfd m.before := by
  induction r with
  | refl => exact ⟨⟨faithful_start, List.nodup_nil, by simp [System.begin]⟩, by simp⟩
  | @snoc t u tr l r hs ih =>
      -- a write that had failed would still be in the log
      have hwt : Written t.server.log := fun fd hmem => hw fd (hs.log.subset hmem)
      obtain ⟨⟨ht, hp⟩, hm⟩ := ih hwt
      exact ⟨⟨ht.step hp hs hw, hp.step hs hw⟩, forall_mem_snoc hm ⟨ht, hp⟩⟩

/-- A message that says nothing disconnects its sender, and does nothing else. -/
theorem Step.invalid (hs : Step sfd t l u) (h : Faithful t.server) (hp : Pending sfd t) {fd : Int}
    {buf : List UInt8} (hl : l = .client fd (.bytes buf)) (hn : ∀ c o, ¬ Says buf c o) :
    u.server.cities = t.server.cities ∧
      u.server.log = t.server.log ++ [.read fd buf, .removed fd true] ∧
      fd ∉ occupied (-1) u.server.clients ∧
      ∀ x, x ≠ fd → (x ∈ occupied (-1) u.server.clients ↔ x ∈ occupied (-1) t.server.clients) := by
  have hfd := hp.current hs fd _ hl
  subst hl
  cases hs with
  | client _ rest _ wr server _ _ _ _ hs =>
      have hreg := h.registry
      obtain ⟨hmem, hne⟩ := mem_occupied.mp ((hreg.mem fd).mpr hfd)
      have hocc := (hreg.asked (.read fd buf) trivial).occupied_removeClient hne
      rcases readEvent_cases hs with ⟨hr, -⟩ | ⟨buf', hr, -, rfl⟩ | ⟨buf', c, o, hr, hsay, -⟩
      · cases hr
      · cases hr
        refine ⟨rfl, ?_, fun hx => ((hocc fd).mp hx).1 rfl, fun x hx => ?_⟩
        · have hc : t.server.clients.contains fd = true := List.contains_iff_mem.mpr hmem
          simp only [Poslancy.removeClient, Server.asked, hc, List.append_assoc,
            List.cons_append, List.nil_append]
        · rw [hocc]
          exact ⟨fun hx => hx.2, fun hx' => ⟨hx, hx'⟩⟩
      · cases hr
        exact absurd hsay (hn c o)

/-- A connection that finds the table full is closed, and nothing else happens. -/
theorem Step.rejects (hs : Step sfd t l u) (h : Registry t.server) {newFd : Int}
    (hl : l = .accept newFd) (hfd : 0 ≤ newFd)
    (hfull : (occupied (-1) t.server.clients).length = maxClients) :
    u.server = t.server.asked (.rejected newFd) := by
  subst hl
  cases hs with
  | accept _ rest _ _ =>
      rcases acceptEvent_cases t.server newFd with ⟨hlt, -⟩ | ⟨-, hlt, -⟩ | ⟨-, -, he⟩
      · omega
      · have := h.count
        omega
      · exact he

/-- **Ownership and broadcast.**  Along every run in which no write fails: every owner is `'p'` or
`'g'`, and is the letter of the last valid message about its city that a connected client has
sent; what was written to a descriptor since it was last accepted are the valid messages that
others have sent meanwhile and that changed an owner, in order and each once; a message that says
nothing changes no city, is sent to nobody and disconnects its sender; and a connection that
finds the table full is closed and changes nothing. -/
theorem ownership_and_broadcast (r : Run (Step sfd) System.begin tr t)
    (hw : Written t.server.log) :
    (∀ c, Letter (t.server.cities c).owner ∧
      (t.server.cities c).owner = (history t.server.log).owners c) ∧
    (∀ fd, stream fd t.server.log = expected fd t.server.log) ∧
    (∀ m ∈ tr, ∀ fd buf, m.label = .client fd (.bytes buf) → (∀ c o, ¬ Says buf c o) →
      m.after.server.cities = m.before.server.cities ∧
      m.after.server.log = m.before.server.log ++ [.read fd buf, .removed fd true] ∧
      fd ∉ occupied (-1) m.after.server.clients ∧
      ∀ x, x ≠ fd → (x ∈ occupied (-1) m.after.server.clients ↔
        x ∈ occupied (-1) m.before.server.clients)) ∧
    (∀ m ∈ tr, ∀ newFd, m.label = .accept newFd → 0 ≤ newFd →
      (occupied (-1) m.before.server.clients).length = maxClients →
      m.after.server = m.before.server.asked (.rejected newFd)) := by
  obtain ⟨⟨h, -⟩, hm⟩ := faithful_run r hw
  refine ⟨fun c => ⟨h.letters c, h.owners c⟩, h.streams, ?_, ?_⟩
  · intro m hmem fd buf hl hn
    obtain ⟨hb, hp⟩ := hm m hmem
    exact (r.step_of_mem m hmem).invalid hb hp hl hn
  · intro m hmem newFd hl hfd hfull
    exact (r.step_of_mem m hmem).rejects (hm m hmem).1.registry hl hfd hfull

/-- Two clients, one of which takes a city for the other side. -/
theorem ownership_and_broadcast_persian : ∃ tr s, Run (Step 3) System.begin tr s ∧
    (s.server.cities 0).owner = charP ∧ stream 6 s.server.log = [persian] ∧
    stream 5 s.server.log = [] := by
  obtain ⟨tr, r, -⟩ := twoClients_run
  obtain ⟨u, hu, hlog⟩ : ∃ u,
      readEvent twoClients.server 5 (.bytes persian) (fun _ => .written) = some u ∧
        u.log = [.accepted 5, .accepted 6, .read 5 persian, .wrote 6 persian] := ⟨_, rfl, rfl⟩
  have h₁ : Step 3 { twoClients with batch := [5, 6] } (.client 5 (.bytes persian)) ⟨u, [6]⟩ :=
    .client 5 [6] (.bytes persian) (fun _ => .written) u rfl (by decide)
      (fun h => absurd (by decide) h) (by rintro _ ⟨⟩; decide) hu
  have r' := (r.snoc twoClients_wait).snoc h₁
  have hw : Written u.log := fun fd hmem => by
    rw [hlog] at hmem
    simp at hmem
  obtain ⟨ho, hs, -, -⟩ := ownership_and_broadcast r' hw
  refine ⟨_, _, r', (ho 0).2.trans ?_, (hs 6).trans ?_, (hs 5).trans ?_⟩
  · rw [hlog]; decide
  · rw [hlog]; decide
  · rw [hlog]; decide

end Sop2.Poslancy
