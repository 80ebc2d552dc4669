import Sop2.Lab07.Hre.Server

/-!
# Lab07 — Hre — registration

`Registered`: an elector is connected exactly when its descriptor is not -1; then the descriptor
is that of an open connection, and no other elector has it.

The end of a stream with a stale byte does not break this while the server runs: it binds a closed
descriptor only to end in `ERR` at once.  `registration_law` adds what holds of whole runs: a
connection is bound to one elector at most, an elector that is bound is not taken over, and the
vote of an elector is the last one that a connection has sent while it was bound to it.
-/

namespace Sop2.Hre
open Support

/-- What `electors[]` and the connections agree on. -/
structure Registered (s : Server) : Prop where
  flag : ∀ j, (s.electors j).connected = true ↔ (s.electors j).fd ≠ -1
  opened : ∀ j, (s.electors j).fd ≠ -1 → s.bound j ≠ none
  apart : ∀ j j', (s.electors j).fd ≠ -1 → (s.electors j).fd = (s.electors j').fd → j = j'
  nonneg : ∀ {fd k}, (history s.log).conn fd = some k → 0 ≤ fd
  lt : ∀ {fd k}, (history s.log).conn fd = some k → k < (history s.log).accepted
  inj : ∀ {fd fd' k}, (history s.log).conn fd = some k → (history s.log).conn fd' = some k →
    fd = fd'

variable {s s' : Server} {fd : Int} {msg junk : UInt8} {w : WriteResult}

theorem registered_start : Registered start where
  flag j := by simp [start]
  opened j h := absurd rfl h
  apart j j' h := absurd rfl h
  nonneg h := by cases h
  lt h := by cases h
  inj h := by cases h

/-- Nothing but the votes and requests that open and close nothing. -/
theorem Registered.congr (h : Registered s)
    (he : ∀ j, (s'.electors j).connected = (s.electors j).connected ∧
      (s'.electors j).fd = (s.electors j).fd) (hl : history s'.log = history s.log) :
    Registered s' where
  flag j := by rw [(he j).1, (he j).2]; exact h.flag j
  opened j := by rw [Server.bound, (he j).2, hl]; exact h.opened j
  apart j j' := by rw [(he j).2, (he j').2]; exact h.apart j j'
  nonneg := by rw [hl]; exact h.nonneg
  lt := by rw [hl]; exact h.lt
  inj := by rw [hl]; exact h.inj

/-- Among the electors, one that is bound has a descriptor. -/
theorem Registered.bound_fd (h : Registered s) {j : Elector} {k : Nat}
    (hb : s.bound j = some k) : (s.electors j).fd ≠ -1 := by
  intro e
  have := h.nonneg hb
  omega

theorem Registered.accepted (h : Registered s) (hfd : 0 ≤ fd)
    (hnew : (history s.log).conn fd = none) : Registered (s.asked (.accepted fd)) := by
  have hconn : ∀ {x k}, (history (s.asked (.accepted fd)).log).conn x = some k →
      (x = fd ∧ k = (history s.log).accepted) ∨ (history s.log).conn x = some k := by
    intro x k hx
    rw [history_asked] at hx
    simp only [History.see, Function.update_apply] at hx
    split at hx
    · exact .inl ⟨‹_›, (Option.some.inj hx).symm⟩
    · exact .inr hx
  refine ⟨h.flag, fun j hj => ?_, h.apart, fun hx => ?_, fun hx => ?_, fun hx hy => ?_⟩
  · -- the new descriptor is nobody's
    have hne : (s.electors j).fd ≠ fd := by
      intro e
      have := h.opened j hj
      rw [Server.bound, e, hnew] at this
      exact this rfl
    rw [Server.bound, history_asked]
    exact fun hn => h.opened j hj ((Function.update_of_ne hne ..).symm.trans hn)
  · rcases hconn hx with ⟨rfl, -⟩ | hx
    · exact hfd
    · exact h.nonneg hx
  · rw [history_asked]
    rcases hconn hx with ⟨-, rfl⟩ | hx
    · exact Nat.lt_succ_self _
    · exact Nat.lt_succ_of_lt (h.lt hx)
  · rcases hconn hx with ⟨hxf, hxk⟩ | hx'
    · rcases hconn hy with ⟨hyf, -⟩ | hy'
      · exact hxf.trans hyf.symm
      · exact absurd (hxk ▸ h.lt hy') (Nat.lt_irrefl _)
    · rcases hconn hy with ⟨-, hyk⟩ | hy'
      · exact absurd (hyk ▸ h.lt hx') (Nat.lt_irrefl _)
      · exact h.inj hx' hy'

/-- The connections that are left when a descriptor is closed. -/
theorem closed_some {h : History} {x : Int} {k : Nat} :
    (h.see (.closed fd)).conn x = some k ↔ x ≠ fd ∧ h.conn x = some k := by
  simp only [History.see, Function.update_apply]
  split <;> simp_all

/-- A descriptor is closed, and no elector has it afterwards. -/
theorem Registered.closed (h : Registered s)
    (he : ∀ j, s'.electors j = s.electors j ∨
      (s'.electors j).connected = false ∧ (s'.electors j).fd = -1)
    (hne : ∀ j, (s'.electors j).fd ≠ fd)
    (hl : history s'.log = (history s.log).see (.closed fd)) : Registered s' where
  flag j := by
    rcases he j with e | ⟨hc, hfd⟩
    · rw [e]; exact h.flag j
    · simp [hc, hfd]
  opened j hj := by
    rcases he j with e | ⟨-, hfd⟩
    · rw [e] at hj
      obtain ⟨k, hk⟩ := Option.ne_none_iff_exists'.mp (h.opened j hj)
      have hne' := hne j
      rw [e] at hne'
      have hk' : (history s'.log).conn (s.electors j).fd = some k := by
        rw [hl]; exact closed_some.mpr ⟨hne', hk⟩
      rw [Server.bound, e, hk']
      exact Option.some_ne_none k
    · exact absurd hfd hj
  apart j j' hj hjj := by
    rcases he j with e | ⟨-, hfd⟩
    · rcases he j' with e' | ⟨-, hfd'⟩
      · rw [e] at hj hjj
        rw [e'] at hjj
        exact h.apart j j' hj hjj
      · exact absurd (hjj.trans hfd') hj
    · exact absurd hfd hj
  nonneg hx := by rw [hl] at hx; exact h.nonneg (closed_some.mp hx).2
  lt hx := by rw [hl] at hx ⊢; exact h.lt (closed_some.mp hx).2
  inj hx hy := by
    rw [hl] at hx hy
    exact h.inj (closed_some.mp hx).2 (closed_some.mp hy).2

/-- A connection that is bound to nobody is bound to an elector. -/
theorem Registered.bind (h : Registered s) {k : Nat} (hk : (history s.log).conn fd = some k)
    (hnot : ∀ j, (s.electors j).fd ≠ fd) (j : Elector) :
    Registered (s.set j { s.electors j with connected := true, fd := fd }) := by
  have hset : ∀ i, ((s.set j { s.electors j with connected := true, fd := fd }).electors i) =
      if i = j then { s.electors j with connected := true, fd := fd } else s.electors i := by
    intro i
    simp only [Server.set, Function.update_apply]
  have hfd : fd ≠ -1 := by
    have := h.nonneg hk
    omega
  refine ⟨fun i => ?_, fun i hi => ?_, fun i i' hi hii => ?_, h.nonneg, h.lt, h.inj⟩
  · rw [hset i]
    split
    · simp [hfd]
    · exact h.flag i
  · rw [Server.bound, log_set, hset i]
    rw [hset i] at hi
    split at hi
    · rw [if_pos ‹_›, hk]
      exact Option.some_ne_none k
    · rw [if_neg ‹_›]
      exact h.opened i hi
  · rw [hset i] at hi hii
    rw [hset i'] at hii
    split at hi
    · rw [if_pos ‹_›] at hii
      split at hii
      · exact (‹i = j›).trans (‹i' = j›).symm
      · exact absurd hii.symm (hnot i')
    · rw [if_neg ‹_›] at hii
      split at hii
      · exact absurd hii (hnot i)
      · exact h.apart i i' hi hii

/-! ### One event -/

/-- **What an event does to an elector.**  It is left as it is, possibly with another vote; its
connection ends; or it is free, and is bound to a connection that is bound to nobody. -/
inductive Change (s s' : Server) (j : Elector) : Prop where
  | same (hc : (s'.electors j).connected = (s.electors j).connected)
      (hfd : (s'.electors j).fd = (s.electors j).fd)
      (hb : (s.electors j).fd ≠ -1 → s'.bound j = s.bound j)
  | freed (hc : (s'.electors j).connected = false) (hfd : (s'.electors j).fd = -1)
      (hgone : ∀ fd k, s.bound j = some k → (history s'.log).conn fd ≠ some k)
  | bind (fd : Int) (k : Nat) (hfree : (s.electors j).connected = false)
      (hk : (history s.log).conn fd = some k) (hnot : ∀ i, (s.electors i).fd ≠ fd)
      (hfd : (s'.electors j).fd = fd) (hb : s'.bound j = some k)

/-- The vote that an elector casts with the event, or the one it has. -/
def voteAfter (s : Server) (fd : Int) (input : Input) (j : Elector) : Int :=
  match input with
  | .client (.bytes [msg]) _ _ =>
      if (s.electors j).fd = fd ∧ IsVote msg then voteOf msg else (s.electors j).vote
  | _ => (s.electors j).vote

/-- What one event keeps and does. -/
structure Event (s : Server) (fd : Int) (input : Input) (s' : Server) : Prop where
  registered : Registered s'
  change : ∀ j, Change s s' j
  vote : ∀ j, (s'.electors j).vote = voteAfter s fd input j
  known : ∀ fd k, (history s'.log).conn fd = some k →
    (history s.log).conn fd = some k ∨ k = (history s.log).accepted
  grows : (history s.log).accepted ≤ (history s'.log).accepted

/-- The end of the stream. -/
theorem Registered.disconnect (h : Registered s) {k : Nat}
    (hk : (history s.log).conn fd = some k)
    (he : s'.electors = (disconnect fd s).electors)
    (hl : history s'.log = (history s.log).see (.closed fd)) :
    Event s fd (.client (.bytes []) junk w) s' := by
  have hfd : fd ≠ -1 := by
    have := h.nonneg hk
    omega
  have hne : ∀ j, (s'.electors j).fd ≠ fd := fun j => he ▸ disconnect_fd_ne hfd s j
  have hcase : ∀ j, (s.electors j).fd ≠ fd ∧ s'.electors j = s.electors j ∨
      (s.electors j).fd = fd ∧ s'.electors j =
        { s.electors j with connected := false, fd := -1 } := by
    intro j
    by_cases e : (s.electors j).fd = fd
    · exact .inr ⟨e, by rw [he]; exact if_pos e⟩
    · exact .inl ⟨e, by rw [he]; exact if_neg e⟩
  refine ⟨h.closed (fun j => ?_) hne hl, fun j => ?_, fun j => ?_, fun x i hx => ?_,
    hl ▸ le_rfl⟩
  · exact (hcase j).imp And.right fun hj => by rw [hj.2]; exact ⟨rfl, rfl⟩
  · rcases hcase j with ⟨hj, e⟩ | ⟨hj, e⟩
    · refine .same (by rw [e]) (by rw [e]) fun hj' => ?_
      rw [Server.bound, e, hl]
      exact Function.update_of_ne hj ..
    · refine .freed (by rw [e]) (by rw [e]) fun x i hb hx => ?_
      rw [hl] at hx
      obtain ⟨hxfd, hx⟩ := closed_some.mp hx
      exact hxfd ((h.inj hx hb).trans hj)
  · rcases hcase j with ⟨-, e⟩ | ⟨-, e⟩ <;> rw [e] <;> rfl
  · rw [hl] at hx
    exact .inl (closed_some.mp hx).2

/-- A byte that binds nobody and ends no connection. -/
theorem Registered.byte (h : Registered s)
    (he : ∀ j, (s'.electors j).connected = (s.electors j).connected ∧
      (s'.electors j).fd = (s.electors j).fd)
    (hl : history s'.log = history s.log)
    (hv : ∀ j, (s'.electors j).vote = voteAfter s fd (.client (.bytes [msg]) junk w) j) :
    Event s fd (.client (.bytes [msg]) junk w) s' where
  registered := h.congr he hl
  change j := .same (he j).1 (he j).2 fun _ => by rw [Server.bound, (he j).2, hl]; rfl
  vote := hv
  known x k hx := .inl (by rwa [hl] at hx)
  grows := hl ▸ le_rfl

/-- A byte of a client that is not registered is no vote. -/
theorem voteAfter_of_not (hnot : ∀ j, (s.electors j).fd ≠ fd) (j : Elector) :
    voteAfter s fd (.client (.bytes [msg]) junk w) j = (s.electors j).vote :=
  if_neg fun hj => hnot j hj.1

/-- A client that is bound to an elector votes. -/
theorem Registered.voted (h : Registered s) {k : Nat} (hk : (history s.log).conn fd = some k)
    {j : Elector} (hj : (s.electors j).fd = fd) (hv : IsVote msg)
    (he : s'.electors = (s.set j { s.electors j with vote := voteOf msg }).electors)
    (hl : history s'.log = history s.log) :
    Event s fd (.client (.bytes [msg]) junk w) s' := by
  have hfd : fd ≠ -1 := by
    have := h.nonneg hk
    omega
  have hset : ∀ i, s'.electors i =
      if i = j then { s.electors j with vote := voteOf msg } else s.electors i := by
    intro i
    rw [he]
    simp only [Server.set, Function.update_apply]
  refine h.byte (fun i => ?_) hl fun i => ?_
  · rw [hset i]
    split
    · rename_i e; exact ⟨by rw [e], by rw [e]⟩
    · exact ⟨rfl, rfl⟩
  · rw [hset i]
    split
    · rename_i e
      exact (if_pos ⟨e ▸ hj, hv⟩).symm
    · -- nobody else has the descriptor
      rename_i hne
      refine (if_neg ?_).symm
      rintro ⟨hi, -⟩
      exact hne (h.apart i j (hi ▸ hfd) (hi.trans hj.symm))

/-- A client that is bound to nobody is bound to a free elector. -/
theorem Registered.welcome (h : Registered s) {k : Nat} (hk : (history s.log).conn fd = some k)
    (hnot : ∀ i, (s.electors i).fd ≠ fd) {j : Elector}
    (hfree : (s.electors j).connected = false)
    (he : s'.electors =
      (s.set j { s.electors j with connected := true, fd := fd }).electors)
    (hl : history s'.log = history s.log) :
    Event s fd (.client (.bytes [msg]) junk w) s' := by
  have hset : ∀ i, s'.electors i =
      if i = j then { s.electors j with connected := true, fd := fd } else s.electors i := by
    intro i
    rw [he]
    simp only [Server.set, Function.update_apply]
  refine ⟨(h.bind hk hnot j).congr (fun i => ?_) hl, fun i => ?_, fun i => ?_, fun x i hx => ?_,
    hl ▸ le_rfl⟩
  · rw [he]; exact ⟨rfl, rfl⟩
  · by_cases e : i = j
    · subst e
      have hi : s'.electors i = { s.electors i with connected := true, fd := fd } :=
        (hset i).trans (if_pos rfl)
      refine .bind fd k hfree hk hnot (by rw [hi]) ?_
      rw [Server.bound, hi, hl]
      exact hk
    · have hi : s'.electors i = s.electors i := (hset i).trans (if_neg e)
      refine .same (by rw [hi]) (by rw [hi]) fun _ => ?_
      rw [Server.bound, hi, hl]
      rfl
  · rw [voteAfter_of_not hnot, hset i]
    split
    · rename_i e; rw [e]
    · rfl
  · exact .inl (by rwa [hl] at hx)

/-- A client that is bound to nobody is turned away. -/
theorem Registered.refused (h : Registered s) (hnot : ∀ i, (s.electors i).fd ≠ fd)
    (he : s'.electors = s.electors) (hl : history s'.log = (history s.log).see (.closed fd)) :
    Event s fd (.client (.bytes [msg]) junk w) s' := by
  refine ⟨h.closed (fun j => .inl (by rw [he])) (fun j => by rw [he]; exact hnot j) hl,
    fun j => .same (by rw [he]) (by rw [he]) fun _ => ?_, fun j => ?_, fun x i hx => ?_,
    hl ▸ le_rfl⟩
  · rw [Server.bound, he, hl]
    exact Function.update_of_ne (hnot j) ..
  · rw [voteAfter_of_not hnot, he]
  · rw [hl] at hx
    exact .inl (closed_some.mp hx).2

variable {sfd : Int} {input : Input}

/-- **One event.** -/
theorem Registered.step (h : Registered s) (hs : Handle sfd s fd input s') :
    Event s fd input s' := by
  cases hs with
  | accept clientFd hnew hs =>
      unfold acceptEvent at hs
      split at hs
      · cases hs
      · obtain rfl := Option.some.inj hs
        obtain ⟨hge, -, hnone⟩ := hnew.resolve_left (by omega)
        refine ⟨h.accepted hge hnone, fun j => .same rfl rfl fun hj => ?_, fun j => rfl,
          fun x k hx => ?_, ?_⟩
        · have hne : (s.electors j).fd ≠ clientFd := by
            intro e
            have := h.opened j hj
            rw [Server.bound, e, hnone] at this
            exact this rfl
          rw [Server.bound, history_asked]
          exact Function.update_of_ne hne ..
        · rw [history_asked] at hx
          simp only [History.see, Function.update_apply] at hx
          split at hx
          · exact .inr (Option.some.inj hx).symm
          · exact .inl hx
        · rw [history_asked]
          exact Nat.le_succ _
  | @client _ _ r junk w hfd hopen hlen hw hs =>
      match r with
      | .error => cases hs
      | .bytes bs =>
          obtain ⟨k, hk⟩ : ∃ k, (history s.log).conn fd = some k := by
            cases hk : (history s.log).conn fd with
            | none => cases hopen hk
            | some k => exact ⟨k, rfl⟩
          have hne : fd ≠ -1 := by
            have := h.nonneg hk
            omega
          have hread : ∀ bs, history (s.asked (.read fd bs)).log = history s.log :=
            fun bs => history_asked ..
          match bs, hlen bs rfl with
          | [], _ =>
              obtain rfl := hw rfl
              change handleMsg fd junk .error (Hre.disconnect fd (s.asked (.read fd []))) = _ at hs
              rw [handleMsg_closed hne] at hs
              have hl : history (Hre.disconnect fd (s.asked (.read fd []))).log =
                  (history s.log).see (.closed fd) := by
                rw [← hread []]
                exact history_asked ..
              split at hs
              · obtain rfl := Option.some.inj hs
                exact h.disconnect hk rfl hl
              · split at hs
                · obtain rfl := Option.some.inj hs
                  refine h.disconnect hk rfl ?_
                  rw [history_asked, hl]
                  simp only [History.see, Function.update_idem]
                · cases hs
          | [msg], _ =>
              change handleMsg fd msg w (s.asked (.read fd [msg])) = _ at hs
              rcases handleMsg_cases hs with ⟨j, hj, hv, rfl⟩ | ⟨j, hj, hv, rfl⟩ |
                ⟨hnot, ⟨j, -, hfree, rfl, rfl⟩ | ⟨j, -, -, rfl⟩ | ⟨-, rfl⟩⟩
              · exact h.voted hk hj hv rfl (hread [msg])
              · exact h.byte (fun i => ⟨rfl, rfl⟩) (hread [msg])
                  fun i => (if_neg fun hi => hv hi.2).symm
              · refine h.welcome hk hnot hfree rfl ?_
                rw [history_asked]
                exact hread [msg]
              · refine h.refused hnot rfl ?_
                rw [history_asked, hread]
              · exact h.byte (fun i => ⟨rfl, rfl⟩) (hread [msg])
                  fun i => (if_neg fun hi => hnot i hi.1).symm

/-! ### The whole run -/

variable {t u : EventLoop.State Server} {tr : List (Move (EventLoop.State Server)
  (EventLoop.Label Input))}

/-- The vote of an elector, after one more move. -/
def voteOfMove (j : Elector) (v : Int)
    (m : Move (EventLoop.State Server) (EventLoop.Label Input)) : Int :=
  match m.label with
  | .event fd (.client (.bytes [msg]) _ _) =>
      if (m.before.server.electors j).fd = fd ∧ IsVote msg then voteOf msg else v
  | _ => v

/-- The last byte from `'0'` to `'2'` that was read from a connection while it was bound to the
elector, as a number; or -1. -/
def lastVote (tr : List (Move (EventLoop.State Server) (EventLoop.Label Input)))
    (j : Elector) : Int := tr.foldl (voteOfMove j) (-1)

/-- `s` is the server at some moment of the run. -/
def Visited (tr : List (Move (EventLoop.State Server) (EventLoop.Label Input))) (s : Server) :
    Prop := s = start ∨ ∃ m ∈ tr, s = m.after.server

/-- What holds of a run: the last state is registered, the votes are the last ones cast, and the
connections that were bound at some moment are known, each to its one elector, which has it as
long as it is open. -/
structure Ballot (tr : List (Move (EventLoop.State Server) (EventLoop.Label Input)))
    (s : Server) : Prop where
  registered : Registered s
  votes : ∀ j, (s.electors j).vote = lastVote tr j
  lt : ∀ {v j k}, Visited tr v → v.bound j = some k → k < (history s.log).accepted
  keeps : ∀ {v j k fd}, Visited tr v → v.bound j = some k → (history s.log).conn fd = some k →
    s.bound j = some k
  one : ∀ {v v' j j' k}, Visited tr v → Visited tr v' → v.bound j = some k →
    v'.bound j' = some k → j = j'

theorem ballot_start : Ballot [] start where
  registered := registered_start
  votes j := rfl
  lt hv hb := by
    rcases hv with rfl | ⟨m, hm, -⟩
    · cases hb
    · cases hm
  keeps hv hb := by
    rcases hv with rfl | ⟨m, hm, -⟩
    · cases hb
    · cases hm
  one hv _ hb := by
    rcases hv with rfl | ⟨m, hm, -⟩
    · cases hb
    · cases hm

theorem visited_snoc {m : Move (EventLoop.State Server) (EventLoop.Label Input)} {v : Server}
    (h : Visited (tr ++ [m]) v) : Visited tr v ∨ v = m.after.server := by
  rcases h with h | ⟨m', hm, h⟩
  · exact .inl (.inl h)
  · rcases List.mem_append.mp hm with hm | hm
    · exact .inl (.inr ⟨m', hm, h⟩)
    · obtain rfl := List.mem_singleton.mp hm
      exact .inr h

/-- A wait changes nothing. -/
theorem Ballot.wait (h : Ballot tr t.server) (hu : u.server = t.server) (hv : Visited tr t.server) :
    Ballot (tr ++ [⟨t, .wait, u⟩]) u.server := by
  have hvis : ∀ {v}, Visited (tr ++ [⟨t, .wait, u⟩]) v → Visited tr v := fun hw =>
    (visited_snoc hw).elim id fun e => by rw [e, hu]; exact hv
  rw [hu]
  refine ⟨h.registered, fun j => ?_, fun hv' => h.lt (hvis hv'), fun hv' => h.keeps (hvis hv'),
    fun hv₁ hv₂ => h.one (hvis hv₁) (hvis hv₂)⟩
  rw [lastVote, List.foldl_append]
  exact h.votes j

theorem lastVote_event {input : Input} {rest : List Int} (hvotes : ∀ j,
    (t.server.electors j).vote = lastVote tr j) (j : Elector) :
    lastVote (tr ++ [⟨t, .event fd input, ⟨s', rest⟩⟩]) j = voteAfter t.server fd input j := by
  rw [lastVote, List.foldl_append, ← lastVote, ← hvotes j]
  match input with
  | .accept _ | .client .error _ _ | .client (.bytes []) _ _ | .client (.bytes [_]) _ _
  | .client (.bytes (_ :: _ :: _)) _ _ => rfl

/-- An event binds only connections that are open and were never bound. -/
theorem Ballot.event (h : Ballot tr t.server) (hv : Visited tr t.server) {input : Input}
    {rest : List Int} (he : Event t.server fd input s') :
    Ballot (tr ++ [⟨t, .event fd input, ⟨s', rest⟩⟩]) s' := by
  -- a connection that an elector has now, the elector had before, or nobody ever had it
  have hnew : ∀ {j k}, s'.bound j = some k → t.server.bound j = some k ∨
      (∃ fd, (history t.server.log).conn fd = some k) ∧
        ∀ v i, Visited tr v → v.bound i ≠ some k := by
    intro j k hb
    cases he.change j with
    | same hc hfd hsame =>
        refine .inl ?_
        have hne : (t.server.electors j).fd ≠ -1 := hfd ▸ he.registered.bound_fd hb
        rw [← hsame hne, hb]
    | freed hc hfd hgone => exact absurd hfd (he.registered.bound_fd hb)
    | bind fd' k' hfree hk hnot hfd hb' =>
        rw [hb] at hb'
        obtain rfl := Option.some.inj hb'
        refine .inr ⟨⟨fd', hk⟩, fun v i hv' hbv => ?_⟩
        have hbt := h.keeps hv' hbv hk
        exact hnot i (h.registered.inj hbt hk)
  have hmono : ∀ {v j k x}, Visited tr v → v.bound j = some k →
      (history s'.log).conn x = some k → (history t.server.log).conn x = some k := by
    intro v j k x hv' hb hx
    rcases he.known x k hx with hx | rfl
    · exact hx
    · exact absurd (h.lt hv' hb) (Nat.lt_irrefl _)
  refine ⟨he.registered, fun j => ?_, fun {v j k} hv' hb => ?_, fun {v j k x} hv' hb hx => ?_,
    fun {v v' j j' k} hv₁ hv₂ hb₁ hb₂ => ?_⟩
  · rw [he.vote, lastVote_event h.votes]
  · rcases visited_snoc hv' with hv' | rfl
    · exact (h.lt hv' hb).trans_le he.grows
    · exact he.registered.lt hb
  · rcases visited_snoc hv' with hv' | rfl
    · have hbt : t.server.bound j = some k := h.keeps hv' hb (hmono hv' hb hx)
      have hne := h.registered.bound_fd hbt
      cases he.change j with
      | same hc hfd hsame => rw [hsame hne, hbt]
      | freed hc hfd hgone => exact absurd hx (hgone x k hbt)
      | bind fd' k' hfree hk hnot hfd hb' =>
          rw [(h.registered.flag j).mpr hne] at hfree
          cases hfree
    · exact hb
  · rcases visited_snoc hv₁ with h₁ | e₁
    · rcases visited_snoc hv₂ with h₂ | e₂
      · exact h.one h₁ h₂ hb₁ hb₂
      · rcases hnew (e₂ ▸ hb₂) with hb₂ | ⟨-, hnever⟩
        · exact h.one h₁ hv hb₁ hb₂
        · exact absurd hb₁ (hnever v j h₁)
    · rcases visited_snoc hv₂ with h₂ | e₂
      · rcases hnew (e₁ ▸ hb₁) with hb₁ | ⟨-, hnever⟩
        · exact h.one hv h₂ hb₁ hb₂
        · exact absurd hb₂ (hnever v' j' h₂)
      · have hb₁' : s'.bound j = some k := by rw [← hb₁, e₁]
        have hb₂' : s'.bound j' = some k := by rw [← hb₂, e₂]
        exact he.registered.apart j j' (he.registered.bound_fd hb₁')
          (he.registered.inj hb₁' hb₂')

/-- What `Change` says of an elector and its connection. -/
theorem Change.bound {v v' : Server} {j : Elector} (h : Change v v' j) (hv : Registered v)
    (hv' : Registered v') :
    (∀ k, v.bound j = some k → v'.bound j = some k ∨ v'.bound j = none) ∧
      ∀ k, v'.bound j = some k → v.bound j = some k ∨ (v.electors j).connected = false := by
  cases h with
  | same hc hfd hsame =>
      by_cases hne : (v.electors j).fd = -1
      · have hnone : ∀ k, v.bound j ≠ some k := fun k hk => hv.bound_fd hk hne
        exact ⟨fun k hk => absurd hk (hnone k),
          fun k hk => absurd (hfd.trans hne) (hv'.bound_fd hk)⟩
      · rw [hsame hne]
        exact ⟨fun k hk => .inl hk, fun k hk => .inl hk⟩
  | freed hc hfd hgone =>
      refine ⟨fun k hk => .inr ?_, fun k hk => absurd hfd (hv'.bound_fd hk)⟩
      cases hb : v'.bound j with
      | none => rfl
      | some k' => exact absurd hfd (hv'.bound_fd hb)
  | bind fd k hfree hk hnot hfd hb =>
      refine ⟨fun k' hk' => ?_, fun k' hk' => .inr hfree⟩
      rw [(hv.flag j).mpr (hv.bound_fd hk')] at hfree
      cases hfree

theorem ballot (r : Run (loop sfd).Step begin tr t) :
    Ballot tr t.server ∧ Visited tr t.server ∧
      ∀ m ∈ tr, Registered m.before.server ∧ Registered m.after.server ∧
        ∀ j, (∀ k, m.before.server.bound j = some k →
            m.after.server.bound j = some k ∨ m.after.server.bound j = none) ∧
          ∀ k, m.after.server.bound j = some k → m.before.server.bound j = some k ∨
            (m.before.server.electors j).connected = false := by
  induction r with
  | refl => exact ⟨ballot_start, .inl rfl, by simp⟩
  | @snoc t u tr l r h ih =>
      obtain ⟨ht, hv, hm⟩ := ih
      cases h with
      | wait events =>
          refine ⟨ht.wait rfl hv, .inr ⟨_, List.mem_append_right _ List.mem_cons_self, rfl⟩,
            forall_mem_snoc hm ⟨ht.registered, ht.registered, fun j => ?_⟩⟩
          exact ⟨fun k hk => .inl hk, fun k hk => .inl hk⟩
      | event fd input rest server hbatch h =>
          have he := ht.registered.step h
          exact ⟨ht.event hv he, .inr ⟨_, List.mem_append_right _ List.mem_cons_self, rfl⟩,
            forall_mem_snoc hm ⟨ht.registered, he.registered, fun j =>
              (he.change j).bound ht.registered he.registered⟩⟩

/-- **Registration.**  Along every run, as long as the server runs: an elector is connected
exactly when its descriptor is not -1; the descriptor is then that of an open connection, and no
other elector has it; a connection is bound to one elector at most, at all moments of the run; an
elector that is bound stays bound to the same connection or to none, and only a free one is
bound; and its vote is the last one that was read from a connection while it was bound to it. -/
theorem registration_law (r : Run (loop sfd).Step begin tr t) :
    (∀ j, (t.server.electors j).connected = true ↔ (t.server.electors j).fd ≠ -1) ∧
    (∀ j j', (t.server.electors j).connected = true → (t.server.electors j').connected = true →
      (t.server.electors j).fd = (t.server.electors j').fd → j = j') ∧
    (∀ j, (t.server.electors j).connected = true → t.server.bound j ≠ none) ∧
    (∀ v v' j j' k, Visited tr v → Visited tr v' → v.bound j = some k → v'.bound j' = some k →
      j = j') ∧
    (∀ m ∈ tr, ∀ j,
      (∀ k, m.before.server.bound j = some k →
        m.after.server.bound j = some k ∨ m.after.server.bound j = none) ∧
      ∀ k, m.after.server.bound j = some k → m.before.server.bound j = some k ∨
        (m.before.server.electors j).connected = false) ∧
    ∀ j, (t.server.electors j).vote = lastVote tr j := by
  obtain ⟨hb, -, hm⟩ := ballot r
  have hr := hb.registered
  exact ⟨hr.flag, fun j j' hj _ => hr.apart j j' ((hr.flag j).mp hj),
    fun j hj => hr.opened j ((hr.flag j).mp hj),
    fun v v' j j' k hv hv' hk hk' => hb.one hv hv' hk hk', fun m m_in => (hm m m_in).2.2, hb.votes⟩

/-! ### One elector -/

/-- A connection on the descriptor 5, accepted by a server that listens on 3, has sent `'3'` and
is bound to the elector with the index 2. -/
def oneElector : Server where
  electors := Function.update start.electors 2 ⟨true, -1, 5⟩
  log := [.accepted 5, .read 5 [51], .wrote 5 welcomeMsg]

theorem accepted_wait {s : Server} (h : (history s.log).conn 5 ≠ none) :
    (loop 3).Step ⟨s, []⟩ .wait ⟨s, [5]⟩ :=
  .wait [5] rfl (by decide) (by decide) fun fd hfd => by
    obtain rfl := List.mem_singleton.mp hfd
    exact .inr h

theorem oneElector_run : ∃ tr, Run (loop 3).Step begin tr ⟨oneElector, []⟩ := by
  have h₁ : (loop 3).Step begin .wait ⟨start, [3]⟩ :=
    .wait [3] rfl (by decide) (by decide) (by simp [loop])
  have h₂ : (loop 3).Step ⟨start, [3]⟩ (.event 3 (.accept 5)) ⟨start.asked (.accepted 5), []⟩ :=
    .event 3 _ [] _ rfl (.accept 5 (.inr ⟨by decide, by decide, rfl⟩) rfl)
  have hs : readEvent (start.asked (.accepted 5)) 5 (.bytes [51]) 0 .written =
      some oneElector := rfl
  have h₄ : (loop 3).Step ⟨start.asked (.accepted 5), [5]⟩
      (.event 5 (.client (.bytes [51]) 0 .written)) ⟨oneElector, []⟩ :=
    .event 5 _ [] _ rfl (.client (by decide) (fun h => by cases h)
      (by rintro _ ⟨⟩; decide) (fun h => by cases h) hs)
  exact ⟨_, (((Run.one h₁).snoc h₂).snoc (accepted_wait (Option.some_ne_none 0))).snoc h₄⟩

/-- The elector votes. -/
theorem registration_law_one : ∃ tr s, Run (loop 3).Step begin tr s ∧
    (s.server.electors 2).vote = 1 ∧ lastVote tr 2 = 1 := by
  obtain ⟨tr, r⟩ := oneElector_run
  obtain ⟨u, hu, hv⟩ : ∃ u, readEvent oneElector 5 (.bytes [49]) 0 .written = some u ∧
      (u.electors 2).vote = 1 := ⟨_, rfl, rfl⟩
  have h : (loop 3).Step ⟨oneElector, [5]⟩ (.event 5 (.client (.bytes [49]) 0 .written))
      ⟨u, []⟩ :=
    .event 5 _ [] _ rfl (.client (by decide) (fun h => by cases h)
      (by rintro _ ⟨⟩; decide) (fun h => by cases h) hu)
  have r' := (r.snoc (accepted_wait (Option.some_ne_none 0))).snoc h
  exact ⟨_, _, r', hv, ((registration_law r').2.2.2.2.2 2).symm.trans hv⟩

end Sop2.Hre
