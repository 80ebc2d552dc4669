import Sop2.Lab07.Aigen.Server

/-!
# Lab07 — Aigen — the waiting room

`Room`: the descriptors in `clients[]` are those of the open connections that have sent a valid
name and were not matched, each once, and no connection was matched with itself.

A connection that waits stays watched and may send a second name.  `main` then looks for a match
or a slot for it as if it had just arrived: it is matched, perhaps with itself, and its slot keeps
a descriptor that is closed; or it takes a second slot (`matched_itself`).  A name that finds the
room full gets no slot.  `room_law`: along any run the room is as it should be after each event
exactly when nothing of this happens.
-/

namespace Sop2.Aigen
open Support

/-- What `clients[]` and the connections agree on. -/
structure Room (s : Server) : Prop where
  nodup : (occupied (-1) s.fds).Nodup
  mem : ∀ fd, fd ∈ occupied (-1) s.fds ↔ (history s.log).Waiting fd
  opened : ∀ fd ∈ occupied (-1) s.fds, (history s.log).conn fd ≠ none
  others : ∀ p ∈ (history s.log).matches_, p.1 ≠ p.2

/-- What holds of the connections whatever the server does: the numbers are those given out, each
to one descriptor at most, and the connections that were matched are closed. -/
structure Known (h : History) : Prop where
  nonneg : ∀ {fd c}, h.conn fd = some c → 0 ≤ fd
  lt : ∀ {fd c}, h.conn fd = some c → c.id < h.accepted
  inj : ∀ {fd fd' c c'}, h.conn fd = some c → h.conn fd' = some c' → c.id = c'.id → fd = fd'
  partners_lt : ∀ k ∈ h.partners, k < h.accepted
  unmatched : ∀ {fd c}, h.conn fd = some c → c.id ∉ h.partners

/-! ### The connections after one more request -/

variable {h : History} {s s' : Server} {fd : Int}

theorem known_begin : Known .begin where
  nonneg h := by cases h
  lt h := by cases h
  inj h := by cases h
  partners_lt k hk := by cases hk
  unmatched h := by cases h

/-- Among connections that were not matched, those that wait are those with a name. -/
theorem Known.waiting_iff (hk : Known h) (fd : Int) :
    h.Waiting fd ↔ ∃ c b, h.conn fd = some c ∧ c.family = some b := by
  constructor
  · rintro ⟨c, b, hc, hb, -⟩
    exact ⟨c, b, hc, hb⟩
  · rintro ⟨c, b, hc, hb⟩
    exact ⟨c, b, hc, hb, hk.unmatched hc⟩

/-- The connections do not depend on the counters. -/
theorem Known.congr {h' : History} (hk : Known h) (ha : h'.accepted = h.accepted)
    (hm : h'.matches_ = h.matches_)
    (hc : ∀ {fd c}, h'.conn fd = some c → ∃ c₀, h.conn fd = some c₀ ∧ c₀.id = c.id) :
    Known h' where
  nonneg hfd := by
    obtain ⟨c₀, hc₀, -⟩ := hc hfd
    exact hk.nonneg hc₀
  lt hfd := by
    obtain ⟨c₀, hc₀, he⟩ := hc hfd
    rw [ha, ← he]
    exact hk.lt hc₀
  inj hfd hfd' he := by
    obtain ⟨c₀, hc₀, h₀⟩ := hc hfd
    obtain ⟨c₁, hc₁, h₁⟩ := hc hfd'
    exact hk.inj hc₀ hc₁ (h₀.trans (he.trans h₁.symm))
  partners_lt k hk' := by
    rw [ha]
    exact hk.partners_lt k (by rwa [History.partners, hm] at hk')
  unmatched hfd := by
    obtain ⟨c₀, hc₀, he⟩ := hc hfd
    rw [History.partners, hm, ← he]
    exact hk.unmatched hc₀

theorem Known.accepted (hk : Known h) (hfd : 0 ≤ fd) : Known (h.see (.accepted fd)) where
  nonneg {x c} hx := by
    simp only [see_accepted, Function.update_apply] at hx
    split at hx
    · omega
    · exact hk.nonneg hx
  lt {x c} hx := by
    simp only [see_accepted, Function.update_apply] at hx
    split at hx
    · cases hx
      exact Nat.lt_succ_self _
    · exact Nat.lt_succ_of_lt (hk.lt hx)
  inj {x y c c'} hx hy he := by
    simp only [see_accepted, Function.update_apply] at hx hy
    split at hx
    · split at hy
      · omega
      · cases hx
        have := hk.lt hy
        dsimp only at he
        omega
    · split at hy
      · cases hy
        have := hk.lt hx
        dsimp only at he
        omega
      · exact hk.inj hx hy he
  partners_lt k hk' := Nat.lt_succ_of_lt (hk.partners_lt k hk')
  unmatched {x c} hx := by
    simp only [see_accepted, Function.update_apply] at hx
    split at hx
    · cases hx
      exact fun hm => absurd (hk.partners_lt _ hm) (Nat.lt_irrefl _)
    · exact hk.unmatched hx

theorem Known.read {b : UInt8} {bs : List UInt8} {c : Connection} (hk : Known h) (hb : Letter b)
    (hc : h.conn fd = some c) : Known (h.see (.read fd (b :: bs))) := by
  rw [see_read hb hc]
  refine hk.congr rfl rfl fun {x c'} hx => ?_
  simp only [Function.update_apply] at hx
  split at hx
  · cases hx
    rename_i e
    exact ⟨c, e ▸ hc, rfl⟩
  · exact ⟨c', hx, rfl⟩

theorem Known.closed (hk : Known h) (fd : Int) : Known (h.see (.closed fd)) := by
  refine hk.congr (accepted_closed h fd) (matches_closed h fd) fun {x c} hx => ?_
  rw [conn_closed, Function.update_apply] at hx
  split at hx
  · cases hx
  · exact ⟨c, hx, rfl⟩

/-- A match, and the end of the two connections. -/
theorem see_matched {w : Int} {c c' : Connection} (hc : h.conn fd = some c)
    (hw : h.conn w = some c') :
    ((h.see (.matched fd w)).see (.closed w)).see (.closed fd) =
      { h with
        conn := Function.update (Function.update h.conn w none) fd none
        matches_ := h.matches_ ++ [(c.id, c'.id)] } := by
  have hp : ∀ k ∈ [c.id, c'.id], k ∈ (h.matches_ ++ [(c.id, c'.id)]).flatMap
      fun p => [p.1, p.2] := by
    intro k hk
    rw [List.flatMap_append]
    exact List.mem_append_right _ (by simpa using hk)
  have h₂ := see_closed_partner (h := { h with matches_ := h.matches_ ++ [(c.id, c'.id)] }) hw
    (hp c'.id (by simp))
  rw [see_matched_some hc hw, h₂]
  by_cases e : fd = w
  · -- the second `close` is of a descriptor that is closed
    subst e
    rw [see_closed_none (Function.update_self ..), Function.update_idem]
  · exact see_closed_partner (h := { h with
      conn := Function.update h.conn w none
      matches_ := h.matches_ ++ [(c.id, c'.id)] }) ((Function.update_of_ne e ..).trans hc)
      (hp c.id (by simp))

theorem Known.matched {w : Int} {c c' : Connection} (hk : Known h) (hc : h.conn fd = some c)
    (hw : h.conn w = some c') :
    Known (((h.see (.matched fd w)).see (.closed w)).see (.closed fd)) := by
  rw [see_matched hc hw]
  have hopen : ∀ {x d}, Function.update (Function.update h.conn w none) fd none x = some d →
      x ≠ fd ∧ x ≠ w ∧ h.conn x = some d := by
    intro x d hx
    rw [Function.update_apply] at hx
    split at hx
    · cases hx
    · rw [Function.update_apply] at hx
      split at hx
      · cases hx
      · exact ⟨‹_›, ‹_›, hx⟩
  refine ⟨fun hx => hk.nonneg (hopen hx).2.2, fun hx => hk.lt (hopen hx).2.2,
    fun hx hy => hk.inj (hopen hx).2.2 (hopen hy).2.2, fun k hk' => ?_, fun {x d} hx hm => ?_⟩
  · simp only [History.partners, List.flatMap_append, List.mem_append] at hk'
    rcases hk' with hk' | hk'
    · exact hk.partners_lt k hk'
    · simp only [List.flatMap_cons, List.flatMap_nil, List.append_nil, List.mem_cons,
        List.not_mem_nil, or_false] at hk'
      rcases hk' with rfl | rfl
      · exact hk.lt hc
      · exact hk.lt hw
  · obtain ⟨hfd, hw', hx⟩ := hopen hx
    simp only [History.partners, List.flatMap_append, List.mem_append] at hm
    rcases hm with hm | hm
    · exact hk.unmatched hx hm
    · simp only [List.flatMap_cons, List.flatMap_nil, List.append_nil, List.mem_cons,
        List.not_mem_nil, or_false] at hm
      rcases hm with hm | hm
      · exact hfd (hk.inj hx hc hm)
      · exact hw' (hk.inj hx hw hm)

/-! ### Who waits -/

theorem waiting_accepted (hnew : h.conn fd = none) (x : Int) :
    (h.see (.accepted fd)).Waiting x ↔ h.Waiting x := by
  unfold History.Waiting
  by_cases e : x = fd
  · subst e
    simp [see_accepted, hnew]
  · simp only [see_accepted, Function.update_of_ne e, History.partners]

theorem waiting_closed (h : History) (fd x : Int) :
    (h.see (.closed fd)).Waiting x ↔ x ≠ fd ∧ h.Waiting x := by
  unfold History.Waiting
  rw [conn_closed, History.partners, matches_closed]
  by_cases e : x = fd
  · simp [e]
  · simp only [Function.update_of_ne e, ne_eq, e, not_false_eq_true, true_and, History.partners]

theorem waiting_read {b : UInt8} {bs : List UInt8} {c : Connection} (hk : Known h)
    (hb : Letter b) (hc : h.conn fd = some c) (x : Int) :
    (h.see (.read fd (b :: bs))).Waiting x ↔ x = fd ∨ h.Waiting x := by
  rw [(hk.read hb hc).waiting_iff, hk.waiting_iff, see_read hb hc]
  by_cases e : x = fd
  · subst e
    simp only [Function.update_self, true_or, iff_true]
    cases hf : c.family with
    | none => exact ⟨_, b, rfl, rfl⟩
    | some b' => exact ⟨_, b', rfl, rfl⟩
  · simp only [Function.update_of_ne e, e, false_or]

theorem waiting_matched {w : Int} {c c' : Connection} (hk : Known h) (hc : h.conn fd = some c)
    (hw : h.conn w = some c') (x : Int) :
    (((h.see (.matched fd w)).see (.closed w)).see (.closed fd)).Waiting x ↔
      x ≠ fd ∧ x ≠ w ∧ h.Waiting x := by
  rw [(hk.matched hc hw).waiting_iff, hk.waiting_iff, see_matched hc hw]
  by_cases e : x = fd
  · simp [e]
  · by_cases e' : x = w
    · simp [e', Function.update_apply]
    · simp [e, e']

/-! ### The room after one event -/

/-- `Room`, with what it rests on. -/
def Kept (s : Server) : Prop := Room s ∧ Known (history s.log)

theorem fds_start (names : List (List UInt8)) : (start names).fds = List.replicate 10 (-1) := rfl

theorem kept_start (names : List (List UInt8)) : Kept (start names) := by
  have hocc : occupied (-1) (start names).fds = [] := by rw [fds_start]; decide
  refine ⟨⟨?_, fun fd => ?_, fun fd hfd => ?_, fun p hp => ?_⟩, known_begin⟩
  · rw [hocc]; exact List.nodup_nil
  · rw [hocc]
    refine iff_of_false (by simp) ?_
    rintro ⟨c, b, ⟨⟩, -⟩
  · rw [hocc] at hfd; cases hfd
  · cases hp

/-- What the room holds is open, once it holds those that wait. -/
theorem Room.of_mem (hn : (occupied (-1) s.fds).Nodup)
    (hm : ∀ fd, fd ∈ occupied (-1) s.fds ↔ (history s.log).Waiting fd)
    (ho : ∀ p ∈ (history s.log).matches_, p.1 ≠ p.2) : Room s where
  nodup := hn
  mem := hm
  opened fd hfd := by
    obtain ⟨c, b, hc, -⟩ := (hm fd).mp hfd
    rw [hc]
    exact Option.some_ne_none c
  others := ho

theorem Kept.acceptEvent (h : Kept s) (hfd : fd = -1 ∨ 0 ≤ fd ∧ (history s.log).conn fd = none) :
    Kept (acceptEvent s fd) := by
  obtain ⟨hr, hk⟩ := h
  unfold Aigen.acceptEvent
  rcases hfd with rfl | ⟨hge, hnew⟩
  · rw [if_neg (by decide)]; exact ⟨hr, hk⟩
  · rw [if_pos hge]
    refine ⟨.of_mem hr.nodup (fun x => ?_) ?_, ?_⟩
    · rw [history_asked, waiting_accepted hnew]
      exact hr.mem x
    · rw [history_asked]; exact hr.others
    · rw [history_asked]; exact hk.accepted hge

/-- Removing a client, whether it waits or not, and even if its descriptor is closed already. -/
theorem Kept.removeClient (h : Kept s) (fd : Int) : Kept (removeClient fd s) := by
  obtain ⟨hr, hk⟩ := h
  have hlog : history (Aigen.removeClient fd s).log = (history s.log).see (.closed fd) :=
    history_asked ..
  refine ⟨.of_mem ?_ (fun x => ?_) ?_, ?_⟩
  · rw [fds_removeClient]; exact nodup_release hr.nodup
  · rw [fds_removeClient, mem_release hr.nodup, hr.mem, hlog, waiting_closed]
  · rw [hlog, matches_closed]; exact hr.others
  · rw [hlog]; exact hk.closed fd

theorem Kept.read (h : Kept s) {bs : List UInt8} (hb : ∀ b ∈ bs.head?, ¬ Letter b) :
    Kept (s.asked (.read fd bs)) := by
  obtain ⟨hr, hk⟩ := h
  have hlog : history (s.asked (.read fd bs)).log = history s.log := by
    rw [history_asked, see_read_of_not hb]
  refine ⟨.of_mem hr.nodup (fun x => ?_) ?_, ?_⟩
  · rw [hlog]; exact hr.mem x
  · rw [hlog]; exact hr.others
  · rw [hlog]; exact hk

/-- What a match leaves: the slot of the client that waited is free. -/
theorem matched_eq {t : Server} {b : UInt8} {bs : List UInt8} {w : Int}
    (hc : t.clients = s.clients) (ht : history t.log = (history s.log).see (.read fd (b :: bs))) :
    ((removeClient w (t.asked (.matched fd w))).asked (.closed fd)).fds = s.fds.replace w (-1) ∧
      history ((removeClient w (t.asked (.matched fd w))).asked (.closed fd)).log =
        ((((history s.log).see (.read fd (b :: bs))).see (.matched fd w)).see (.closed w)).see
          (.closed fd) := by
  refine ⟨?_, ?_⟩
  · rw [fds_asked, fds_removeClient, fds_asked, Server.fds, hc, Server.fds]
  · have hlog : history (removeClient w (t.asked (.matched fd w))).log =
        (history (t.asked (.matched fd w)).log).see (.closed w) := history_asked ..
    rw [history_asked, hlog, history_asked, ht]

/-! ### A name that arrives -/

/-- No slot is free. -/
def Full (s : Server) : Prop := ∀ c ∈ s.clients, c.fd ≠ -1

instance (s : Server) : Decidable (Full s) :=
  inferInstanceAs (Decidable (∀ c ∈ s.clients, c.fd ≠ -1))

theorem full_iff : Full s ↔ (-1 : Int) ∉ s.fds := by
  simp [Full, Server.fds]

/-- The client `fd` has sent a name of the family `b`, and waits already exactly when there is
nothing for it to find: nobody of the other family, and no free slot. -/
def InTurn (s : Server) (fd : Int) (b : UInt8) : Prop :=
  (history s.log).Waiting fd ↔ opponent b s.clients = none ∧ Full s

instance (s : Server) (fd : Int) (b : UInt8) : Decidable (InTurn s fd b) :=
  inferInstanceAs (Decidable (_ ↔ _))

/-- The client that is matched waits in the room. -/
theorem Room.opponent_waiting (h : Room s) {b : UInt8} {c : ClientState}
    (hc : opponent b s.clients = some c) :
    c.fd ∈ occupied (-1) s.fds ∧ (history s.log).Waiting c.fd := by
  obtain ⟨hmem, hne, -⟩ := opponent_some hc
  have hocc : c.fd ∈ occupied (-1) s.fds :=
    mem_occupied.mpr ⟨List.mem_map_of_mem hmem, hne⟩
  exact ⟨hocc, (h.mem _).mp hocc⟩

variable {b : UInt8} {bs : List UInt8} {c : Connection}

/-- A match with somebody else. -/
theorem Kept.matched (h : Kept s) (hb : Letter b) (hc : (history s.log).conn fd = some c)
    (hin : InTurn s fd b) {c' : ClientState} (hop : opponent b s.clients = some c') {t : Server}
    (ht : t.clients = s.clients)
    (hlog : history t.log = (history s.log).see (.read fd (b :: bs))) :
    Kept ((Aigen.removeClient c'.fd (t.asked (.matched fd c'.fd))).asked (.closed fd)) := by
  obtain ⟨hr, hk⟩ := h
  obtain ⟨hfds, hh⟩ := matched_eq (w := c'.fd) ht hlog
  obtain ⟨hocc, hw⟩ := hr.opponent_waiting hop
  -- somebody of the other family waits, so `fd` does not wait
  have hnot : ¬ (history s.log).Waiting fd := fun hw => by
    have := (hin.mp hw).1
    rw [hop] at this
    cases this
  have hne : c'.fd ≠ fd := fun e => hnot (e ▸ hw)
  obtain ⟨d, b', hd, -⟩ := (hk.waiting_iff _).mp hw
  have hk' : Known ((history s.log).see (.read fd (b :: bs))) := hk.read hb hc
  obtain ⟨c₁, hc₁, hid₁⟩ : ∃ c₁, ((history s.log).see (.read fd (b :: bs))).conn fd = some c₁ ∧
      c₁.id = c.id := by
    rw [see_read hb hc]
    exact ⟨_, Function.update_self .., rfl⟩
  have hd₁ : ((history s.log).see (.read fd (b :: bs))).conn c'.fd = some d := by
    rw [see_read hb hc]
    exact (Function.update_of_ne hne ..).trans hd
  have hm : ((history s.log).see (.read fd (b :: bs))).matches_ = (history s.log).matches_ := by
    rw [see_read hb hc]
  refine ⟨.of_mem ?_ (fun x => ?_) ?_, ?_⟩
  · rw [hfds]; exact nodup_release hr.nodup
  · rw [hfds, mem_release hr.nodup, hr.mem, hh, waiting_matched hk' hc₁ hd₁,
      waiting_read hk hb hc]
    constructor
    · rintro ⟨hx, hwx⟩
      exact ⟨fun e => hnot (e ▸ hwx), hx, .inr hwx⟩
    · rintro ⟨hx, hx', hwx⟩
      exact ⟨hx', hwx.resolve_left hx⟩
  · rw [hh, see_matched hc₁ hd₁, hm]
    intro p hp
    rcases List.mem_append.mp hp with hp | hp
    · exact hr.others p hp
    · obtain rfl := List.mem_singleton.mp hp
      intro e
      exact hne (hk.inj hd hc (e.symm.trans hid₁))
  · rw [hh]; exact hk'.matched hc₁ hd₁

/-- A slot for somebody new, or nothing for somebody who waits already. -/
theorem Kept.takeSlot (h : Kept s) (hb : Letter b) (hc : (history s.log).conn fd = some c)
    (hin : InTurn s fd b) (hop : opponent b s.clients = none) (buf : List UInt8) :
    Kept { s.asked (.read fd (b :: bs)) with clients := takeSlot fd b buf s.clients } := by
  obtain ⟨hr, hk⟩ := h
  have hlog : history ({ s.asked (.read fd (b :: bs)) with
      clients := Aigen.takeSlot fd b buf s.clients } : Server).log =
        (history s.log).see (.read fd (b :: bs)) := history_asked ..
  have hfds : ({ s.asked (.read fd (b :: bs)) with
      clients := Aigen.takeSlot fd b buf s.clients } : Server).fds = s.fds.replace (-1) fd :=
    fds_takeSlot ..
  have hne : fd ≠ -1 := by
    have := hk.nonneg hc
    omega
  have hm : ((history s.log).see (.read fd (b :: bs))).matches_ = (history s.log).matches_ := by
    rw [see_read hb hc]
  have hrest : (∀ p ∈ (history ({ s.asked (.read fd (b :: bs)) with
      clients := Aigen.takeSlot fd b buf s.clients } : Server).log).matches_, p.1 ≠ p.2) ∧
      Known (history ({ s.asked (.read fd (b :: bs)) with
        clients := Aigen.takeSlot fd b buf s.clients } : Server).log) := by
    rw [hlog, hm]
    exact ⟨hr.others, hk.read hb hc⟩
  by_cases hw : (history s.log).Waiting fd
  · -- the room is full
    have hf := full_iff.mp (hin.mp hw).2
    refine ⟨.of_mem ?_ (fun x => ?_) hrest.1, hrest.2⟩
    · rw [hfds, List.replace_of_not_mem hf]; exact hr.nodup
    · rw [hfds, List.replace_of_not_mem hf, hlog, waiting_read hk hb hc, hr.mem]
      exact ⟨.inr, fun hx => hx.elim (fun e => e ▸ hw) id⟩
  · have hf : (-1 : Int) ∈ s.fds := by
      by_contra hf
      exact hw (hin.mpr ⟨hop, full_iff.mpr hf⟩)
    have hp := occupied_take (a := fd) hne hf
    refine ⟨.of_mem ?_ (fun x => ?_) hrest.1, hrest.2⟩
    · rw [hfds]
      refine hp.nodup_iff.mpr (List.nodup_cons.mpr ⟨?_, hr.nodup⟩)
      rwa [hr.mem]
    · rw [hfds, hp.mem_iff, List.mem_cons, hr.mem, hlog, waiting_read hk hb hc]

/-! ### The whole run -/

/-- The event, if a name arrives with it, is one in turn. -/
def Orderly (s : Server) (fd : Int) (input : Input) : Prop :=
  ∀ b bs w w', input = .client (.bytes (b :: bs)) w w' → Letter b → InTurn s fd b

theorem orderly_accept {clientFd : Int} : Orderly s fd (.accept clientFd) := by
  rintro _ _ _ _ ⟨⟩

theorem orderly_name {b : UInt8} {bs : List UInt8} {w w' : WriteResult} (h : InTurn s fd b) :
    Orderly s fd (.client (.bytes (b :: bs)) w w') := by
  rintro _ _ _ _ ⟨⟩ -
  exact h

variable {localSfd tcpSfd : Int} {input : Input}

theorem Kept.step (h : Kept s) (hs : Handle localSfd tcpSfd s fd input s')
    (ho : Orderly s fd input) : Kept s' := by
  cases hs with
  | accept clientFd _ hnew =>
      exact h.acceptEvent (hnew.imp id fun hnew => ⟨hnew.1, hnew.2.2.2⟩)
  | @client _ _ r w w' _ hr _ _ hs =>
      rcases readEvent_cases hs with ⟨-, rfl⟩ | ⟨bs, -, hb, rfl⟩ | ⟨b, bs, rfl, hb, hcase⟩
      · exact h.removeClient fd
      · exact (h.read hb).removeClient fd
      · obtain ⟨c, hc⟩ : ∃ c, (history s.log).conn fd = some c := by
          cases hc : (history s.log).conn fd with
          | none => cases hr hc
          | some c => exact ⟨c, rfl⟩
        have hin := ho b bs w w' rfl hb
        rcases hcase with ⟨c', t, hop, -, ht, hlog, rfl⟩ | ⟨hop, rfl⟩
        · exact h.matched hb hc hin hop ht hlog
        · exact h.takeSlot hb hc hin hop _

/-- When the room is as it should be after the event, its name came in turn. -/
theorem Kept.inTurn (h : Kept s) (hs : Handle localSfd tcpSfd s fd input s') (h' : Room s') :
    Orderly s fd input := by
  rintro b bs w w' rfl hb
  obtain ⟨hr, hk⟩ := h
  cases hs with
  | client _ hopen _ hstale hs =>
      obtain ⟨c, hc⟩ : ∃ c, (history s.log).conn fd = some c := by
        cases hc : (history s.log).conn fd with
        | none => cases hopen hc
        | some c => exact ⟨c, rfl⟩
      obtain ⟨c₁, hc₁, hid₁⟩ : ∃ c₁, ((history s.log).see (.read fd (b :: bs))).conn fd =
          some c₁ ∧ c₁.id = c.id := by
        rw [see_read hb hc]
        exact ⟨_, Function.update_self .., rfl⟩
      rcases readEvent_cases hs with ⟨⟨⟩, -⟩ | ⟨_, ⟨⟩, hb', -⟩ | ⟨_, _, ⟨⟩, -, hcase⟩
      · exact absurd hb (hb' b rfl)
      · rcases hcase with ⟨c', t, hop, hwritten, ht, hlog, rfl⟩ | ⟨hop, rfl⟩
        · -- a match: whoever waits would leave a slot behind, or be matched with itself
          obtain ⟨hfds, hh⟩ := matched_eq (w := c'.fd) ht hlog
          refine iff_of_false (fun hw => ?_) fun hf => by rw [hop] at hf; cases hf.1
          by_cases e : c'.fd = fd
          · have hself := h'.others (c₁.id, c₁.id) (by
              rw [hh, e, see_matched hc₁ hc₁]
              exact List.mem_append_right _ (List.mem_singleton_self _))
            exact hself rfl
          · have hocc : fd ∈ occupied (-1) s.fds := (hr.mem fd).mpr hw
            refine h'.opened fd ?_ ?_
            · rw [hfds, mem_release hr.nodup]
              exact ⟨Ne.symm e, hocc⟩
            · rw [hh, conn_closed, Function.update_self]
        · have hne : fd ≠ -1 := by
            have := hk.nonneg hc
            omega
          have hfds : ({ s.asked (.read fd (b :: bs)) with
              clients := Aigen.takeSlot fd b (bufOf (b :: bs)) s.clients } : Server).fds =
                s.fds.replace (-1) fd := fds_takeSlot ..
          have hlog : history ({ s.asked (.read fd (b :: bs)) with
              clients := Aigen.takeSlot fd b (bufOf (b :: bs)) s.clients } : Server).log =
                (history s.log).see (.read fd (b :: bs)) := history_asked ..
          constructor
          · -- nobody has two slots
            refine fun hw => ⟨hop, full_iff.mpr fun hf => ?_⟩
            have hp := occupied_take (a := fd) hne hf
            have hn := h'.nodup
            rw [hfds] at hn
            exact (List.nodup_cons.mp (hp.nodup_iff.mp hn)).1 ((hr.mem fd).mpr hw)
          · -- whoever has sent a name has a slot
            rintro ⟨-, hf⟩
            have hw : fd ∈ occupied (-1) (s.fds.replace (-1) fd) := by
              rw [← hfds, h'.mem, hlog, waiting_read hk hb hc]
              exact .inl rfl
            rw [List.replace_of_not_mem (full_iff.mp hf)] at hw
            exact (hr.mem fd).mp hw

variable {names : List (List UInt8)} {t : EventLoop.State Server}
  {tr : List (Move (EventLoop.State Server) (EventLoop.Label Input))}

/-- **The waiting room.**  Along every run, with every content sent and every outcome of the
writes but `ERR`: the room is as it should be after each event if and only if every name comes in
turn, that is, from a connection that does not wait yet and that finds a client of the other
family or a free slot; or from one that waits already and finds neither. -/
theorem room_law (r : Run (loop localSfd tcpSfd).Step (begin names) tr t) :
    (∀ m ∈ tr, Room m.after.server) ↔
      ∀ m ∈ tr, EventLoop.Only Orderly m.before m.label m.after :=
  EventLoop.law (J := Kept) (fun h hs ho => h.step hs ho) And.left (fun h hs h' => h.inTurn hs h')
    r (kept_start names)

/-! ### Names -/

/-- A wait that returns one connection. -/
theorem wait_one (fd : Int) (h : (history s.log).conn fd ≠ none) :
    (loop 3 4).Step ⟨s, []⟩ .wait ⟨s, [fd]⟩ :=
  .wait [fd] rfl (show 1 ≤ 10 by decide) (List.nodup_singleton fd) (by
    intro fd' hfd
    obtain rfl := List.mem_singleton.mp hfd
    exact .inr (.inr h))

/-- The socket 4 has a connection, which gets the descriptor `fd`. -/
theorem accept_run (s : Server) (fd : Int)
    (h : 0 ≤ fd ∧ fd ≠ 3 ∧ fd ≠ 4 ∧ (history s.log).conn fd = none) :
    Run (loop 3 4).Step ⟨s, []⟩
      [⟨⟨s, []⟩, .wait, ⟨s, [4]⟩⟩, ⟨⟨s, [4]⟩, .event 4 (.accept fd), ⟨acceptEvent s fd, []⟩⟩]
      ⟨acceptEvent s fd, []⟩ :=
  (Run.one (.wait [4] rfl (by decide) (by decide) (by simp [loop]))).snoc
    (.event 4 _ [] _ rfl (.accept fd (.inr rfl) (.inr h)))

/-- A connection of the batch has sent a name of one letter. -/
theorem reads_name {b : UInt8} {r : List Int} {u : Server} (h : fd ≠ 3 ∧ fd ≠ 4)
    (hc : (history s.log).conn fd ≠ none)
    (hw : ∀ c, opponent b s.clients = some c → (history s.log).conn c.fd ≠ none)
    (hs : readEvent s fd (.bytes [b]) .written .written = some u) :
    (loop 3 4).Step ⟨s, fd :: r⟩ (.event fd (.client (.bytes [b]) .written .written)) ⟨u, r⟩ :=
  .event fd _ r _ rfl (.client h (fun hn => absurd hn hc)
    (by rintro _ ⟨⟩; exact show 1 ≤ 15 by decide)
    (by rintro _ _ c ⟨⟩ ho hn; exact absurd hn (hw c ho)) hs)

/-- The server after a connection on the descriptor 5, accepted from the socket 4, has sent
`"M"`. -/
def oneWaits : Server where
  clients := takeSlot 5 charM (bufOf [charM]) (start []).clients
  log := [.accepted 5, .read 5 [charM]]

theorem oneWaits_wait : (loop 3 4).Step ⟨oneWaits, []⟩ .wait ⟨oneWaits, [5]⟩ :=
  wait_one 5 (by decide)

/-- The one name of the run is read when the room is empty. -/
theorem oneWaits_run : ∃ tr, Run (loop 3 4).Step (begin []) tr ⟨oneWaits, []⟩ ∧
    ∀ m ∈ tr, ∀ fd b bs w w', m.label = .event fd (.client (.bytes (b :: bs)) w w') →
      m.before.server = acceptEvent (start []) 5 ∧ fd = 5 := by
  have r := ((accept_run (start []) 5 (by decide)).snoc
    (wait_one 5 (by decide))).snoc
    (reads_name (b := charM) (u := oneWaits) (by decide) (by decide) (by rintro c ⟨⟩) rfl)
  refine ⟨_, r, fun m hm => ?_⟩
  simp only [List.cons_append, List.nil_append, List.mem_cons, List.not_mem_nil, or_false] at hm
  rcases hm with rfl | rfl | rfl | rfl
  · rintro _ _ _ _ _ ⟨⟩
  · rintro _ _ _ _ _ ⟨⟩
  · rintro _ _ _ _ _ ⟨⟩
  · rintro _ _ _ _ _ ⟨⟩
    exact ⟨rfl, rfl⟩

/-- The server once two connections have sent `"M"`. -/
def twoWait : Server where
  clients := takeSlot 6 charM (bufOf [charM]) oneWaits.clients
  log := [.accepted 5, .accepted 6, .read 5 [charM], .read 6 [charM]]

/-- Two connections wait, and the name of a third takes the first of them away. -/
theorem room_law_match : ∃ tr t, Run (loop 3 4).Step (begin []) tr t ∧
    t.server.fds = -1 :: 6 :: List.replicate 8 (-1) ∧
    (history t.server.log).matches_ = [(2, 0)] ∧ ∀ m ∈ tr, Room m.after.server := by
  let s₀ := acceptEvent (acceptEvent (start []) 5) 6
  let s₁ : Server := { s₀ with
    clients := oneWaits.clients
    log := s₀.log ++ [.read 5 [charM]] }
  let s₂ := acceptEvent twoWait 7
  obtain ⟨s₃, h₃, hfds, hmatch⟩ : ∃ s, readEvent s₂ 7 (.bytes [charC]) .written .written = some s ∧
      s.fds = -1 :: 6 :: List.replicate 8 (-1) ∧ (history s.log).matches_ = [(2, 0)] :=
    ⟨_, rfl, by decide, by decide⟩
  have hwait : (loop 3 4).Step ⟨s₀, []⟩ .wait ⟨s₀, [5, 6]⟩ :=
    .wait [5, 6] rfl (by decide) (by decide) (by
      simp only [List.forall_mem_cons]
      exact ⟨.inr (.inr (by decide)), .inr (.inr (by decide)), by simp⟩)
  have r₁ := ((accept_run (start []) 5 (by decide)).trans
    (accept_run _ 6 (by decide))).snoc hwait
  have r₂ := (r₁.snoc
    (reads_name (b := charM) (u := s₁) (by decide) (by decide) (by rintro c ⟨⟩) rfl)).snoc
    (reads_name (b := charM) (u := twoWait) (by decide) (by decide) (by rintro c ⟨⟩) rfl)
  have r := ((r₂.trans (accept_run _ 7 (by decide))).snoc
    (wait_one 7 (by decide))).snoc
    (reads_name (b := charC) (by decide) (by decide) (by rintro c ⟨⟩; decide) h₃)
  refine ⟨_, _, r, hfds, hmatch, (room_law r).mpr ?_⟩
  simp only [List.forall_mem_append, List.forall_mem_cons, List.not_mem_nil, false_implies,
    implies_true, and_true, EventLoop.only_wait, EventLoop.only_event, true_and, orderly_accept]
  exact ⟨⟨orderly_name (by decide), orderly_name (by decide)⟩, orderly_name (by decide)⟩

/-- The connection that waits with `"M"` sends `"C"` and is matched with itself; or it sends
`"M"` once more and has two slots. -/
theorem matched_itself :
    (∃ tr t, Run (loop 3 4).Step (begin []) tr t ∧ t.batch = [] ∧
      (0, 0) ∈ (history t.server.log).matches_ ∧ ¬ Room t.server) ∧
    ∃ tr t, Run (loop 3 4).Step (begin []) tr t ∧ t.batch = [] ∧
      t.server.fds = 5 :: 5 :: List.replicate 8 (-1) ∧ ¬ Room t.server := by
  obtain ⟨tr, r, -⟩ := oneWaits_run
  constructor
  · obtain ⟨u, hu, hm⟩ : ∃ u, readEvent oneWaits 5 (.bytes [charC]) .written .written = some u ∧
        (0, 0) ∈ (history u.log).matches_ := ⟨_, rfl, by decide⟩
    have h := reads_name (b := charC) (r := []) (by decide) (by decide)
      (by rintro c ⟨⟩; decide) hu
    exact ⟨_, _, (r.snoc oneWaits_wait).snoc h, rfl, hm, fun hr => hr.others _ hm rfl⟩
  · obtain ⟨u, hu, hf⟩ : ∃ u, readEvent oneWaits 5 (.bytes [charM]) .written .written = some u ∧
        u.fds = 5 :: 5 :: List.replicate 8 (-1) := ⟨_, rfl, by decide⟩
    have h := reads_name (b := charM) (r := []) (by decide) (by decide) (by rintro c ⟨⟩) hu
    refine ⟨_, _, (r.snoc oneWaits_wait).snoc h, rfl, hf, fun hr => ?_⟩
    have hn := hr.nodup
    rw [hf] at hn
    revert hn
    decide

end Sop2.Aigen
