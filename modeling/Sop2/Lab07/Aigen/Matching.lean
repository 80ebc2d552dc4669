import Sop2.Lab07.Aigen.Room

/-!
# Lab07 — Aigen — matches

When every connection sends one name at most and a name that finds nobody finds a free slot, the
room holds one family only: whoever arrives from the other family takes somebody away.

* `Paired`: the invariant.  The slots of the room are of one family, that of the name their
  connection has sent, and the difference of the two families in the room is what the arrivals
  and the departures leave.
* `matching_law`: a match is of a connection that arrives with one that waits, of the other
  family, which leaves the room; nobody is matched twice; and at most one of the two numbers that
  `main` prints at the end is not 0 (`finalCounts_eq`).
-/

namespace Sop2.Aigen
open Support

/-- The clients of the family `b` in the room. -/
def waiting (b : UInt8) (clients : List ClientState) : Nat :=
  clients.countP fun c => c.fd ≠ -1 && c.family = b

/-- The arrivals of one family less those of the other, without those that have left. -/
def History.balance (h : History) : Int :=
  h.arrivals charM - h.arrivals charC - h.departures charM + h.departures charC

/-- The side on which a family counts. -/
def sign (b : UInt8) : Int := if b = charM then 1 else if b = charC then -1 else 0

/-- The families of the room and their names. -/
structure Paired (s : Server) : Prop where
  kept : Kept s
  named : ∀ c ∈ s.clients, c.fd ≠ -1 → Letter c.family ∧
    ∃ k, (history s.log).conn c.fd = some ⟨k, some c.family⟩
  alike : ∀ c ∈ s.clients, ∀ c' ∈ s.clients, c.fd ≠ -1 → c'.fd ≠ -1 → c.family = c'.family
  once : (history s.log).partners.Nodup
  balance : (waiting charM s.clients : Int) - waiting charC s.clients = (history s.log).balance

/-! ### Counting the room -/

theorem charC_ne_charM : charC ≠ charM := by decide

theorem sign_other {b b' : UInt8} (hb : Letter b) (hb' : Letter b') (hne : b' ≠ b) :
    sign b' = - sign b := by
  rcases hb with rfl | rfl <;> rcases hb' with rfl | rfl
  · exact absurd rfl hne
  · rfl
  · rfl
  · exact absurd rfl hne

/-- What a slot counts for. -/
def weight (c : ClientState) : Int := if c.fd = -1 then 0 else sign c.family

theorem difference_setFirst {p : ClientState → Bool} {clients pre post : List ClientState}
    {x : ClientState} (c : ClientState) (hxs : clients = pre ++ x :: post)
    (he : setFirst p c clients = pre ++ c :: post) :
    (waiting charM (setFirst p c clients) : Int) - waiting charC (setFirst p c clients) +
        weight x = waiting charM clients - waiting charC clients + weight c := by
  have hm := countP_setFirst (fun c => c.fd ≠ -1 && c.family = charM) c hxs he
  have hc := countP_setFirst (fun c => c.fd ≠ -1 && c.family = charC) c hxs he
  have hw : ∀ c : ClientState, weight c =
      (if (c.fd ≠ -1 && c.family = charM : Bool) then (1 : Nat) else 0 : Nat) -
        (if (c.fd ≠ -1 && c.family = charC : Bool) then (1 : Nat) else 0 : Nat) := by
    intro c
    by_cases hfd : c.fd = -1
    · simp [weight, hfd]
    · by_cases hM : c.family = charM
      · simp [weight, sign, hfd, hM, charC_ne_charM.symm]
      · by_cases hC : c.family = charC
        · simp [weight, sign, hfd, hC, charC_ne_charM]
        · simp [weight, sign, hfd, hM, hC]
  rw [hw x, hw c]
  unfold waiting
  omega

/-- `m_count` and `c_count`. -/
theorem finalCounts_eq (clients : List ClientState) :
    finalCounts clients = (waiting charM clients, waiting charC clients) := by
  suffices h : ∀ m c, clients.foldl (fun mc client =>
      if client.fd ≠ -1 then
        (if client.family = charM then mc.1 + 1 else mc.1,
          if client.family = charC then mc.2 + 1 else mc.2)
      else mc) (m, c) = (m + waiting charM clients, c + waiting charC clients) by
    have h₀ := h 0 0
    rw [Nat.zero_add, Nat.zero_add] at h₀
    exact h₀
  unfold waiting
  induction clients with
  | nil => exact fun m c => rfl
  | cons client clients ih =>
      intro m c
      rw [List.foldl_cons, ih, List.countP_cons, List.countP_cons]
      by_cases hfd : client.fd = -1
      · simp [hfd]
      · have hp : client.fd ≠ -1 := hfd
        simp only [ne_eq, hfd, not_false_eq_true, if_true, decide_true, Bool.true_and,
          decide_eq_true_eq, decide_not, Prod.mk.injEq]
        constructor <;> split <;> omega

/-! ### The balance after one more request -/

variable {h : History} {s s' : Server} {fd : Int} {b : UInt8} {bs : List UInt8} {c : Connection}

theorem balance_read (hb : Letter b) (hc : h.conn fd = some c) :
    (h.see (.read fd (b :: bs))).balance = h.balance + sign b := by
  rw [see_read hb hc]
  unfold History.balance
  rcases hb with rfl | rfl
  · simp [sign, charC_ne_charM]
    omega
  · simp [sign, charC_ne_charM, charC_ne_charM.symm]
    omega

/-- A client that waits has left. -/
theorem balance_closed (hk : Known h) (hb : Letter b) {k : Nat}
    (hc : h.conn fd = some ⟨k, some b⟩) : (h.see (.closed fd)).balance = h.balance - sign b := by
  have hp : k ∉ h.partners := hk.unmatched hc
  simp only [see_closed_some hc, if_neg hp]
  unfold History.balance
  rcases hb with rfl | rfl
  · simp [sign, charC_ne_charM]
    omega
  · simp [sign, charC_ne_charM, charC_ne_charM.symm]
    omega

theorem balance_closed_of_not (hk : Known h) (hw : ¬ h.Waiting fd) :
    (h.see (.closed fd)).balance = h.balance := by
  cases hc : h.conn fd with
  | none => rw [see_closed_none hc]
  | some c =>
      cases hf : c.family with
      | none => simp only [see_closed_some hc, hf, History.balance]
      | some b => exact absurd ((hk.waiting_iff fd).mpr ⟨c, b, hc, hf⟩) hw

/-! ### One event -/

theorem paired_start (names : List (List UInt8)) : Paired (start names) := by
  have hfree : ∀ c ∈ (start names).clients, c.fd = -1 := by
    intro c hc
    obtain ⟨i, -, rfl⟩ := List.mem_map.mp hc
    rfl
  have hw : ∀ b, waiting b (start names).clients = 0 := by
    intro b
    refine List.countP_eq_zero.mpr fun c hc => ?_
    simp [hfree c hc]
  refine ⟨kept_start names, fun c hc hfd => absurd (hfree c hc) hfd,
    fun c hc _ _ hfd => absurd (hfree c hc) hfd, List.nodup_nil, ?_⟩
  rw [hw, hw]
  rfl

/-- A slot that is taken holds an open connection. -/
theorem Kept.slot_open (h : Kept s) {c : ClientState} (hc : c ∈ s.clients) (hfd : c.fd ≠ -1) :
    (history s.log).conn c.fd ≠ none :=
  h.1.opened _ (mem_occupied.mpr ⟨List.mem_map_of_mem hc, hfd⟩)

theorem Paired.acceptEvent (h : Paired s)
    (hfd : fd = -1 ∨ 0 ≤ fd ∧ (history s.log).conn fd = none) : Paired (acceptEvent s fd) := by
  have hkept := h.kept.acceptEvent hfd
  unfold Aigen.acceptEvent at hkept ⊢
  split at hkept
  · rename_i hge
    rw [if_pos hge]
    have hnew : (history s.log).conn fd = none := by
      rcases hfd with rfl | hfd
      · exact absurd hge (by decide)
      · exact hfd.2
    refine ⟨hkept, fun c hc hne => ?_, h.alike, ?_, ?_⟩
    · obtain ⟨hl, k, hk⟩ := h.named c hc hne
      have hcfd : c.fd ≠ fd := fun e => by rw [e, hnew] at hk; cases hk
      refine ⟨hl, k, ?_⟩
      rw [history_asked]
      exact (Function.update_of_ne hcfd ..).trans hk
    · rw [history_asked]; exact h.once
    · rw [history_asked]; exact h.balance
  · rename_i hge
    rwa [if_neg hge]

/-- Whoever is removed, and whether it waits or not. -/
theorem Paired.removeClient (h : Paired s) (fd : Int) : Paired (removeClient fd s) := by
  have hkept := h.kept.removeClient fd
  have hlog : history (Aigen.removeClient fd s).log = (history s.log).see (.closed fd) :=
    history_asked ..
  have hmem : ∀ c ∈ (Aigen.removeClient fd s).clients, c.fd ≠ -1 → c ∈ s.clients := by
    intro c hc hne
    rcases mem_setFirst hc with rfl | hc
    · exact absurd rfl hne
    · exact hc
  refine ⟨hkept, fun c hc hne => ?_, fun c hc c' hc' hne hne' =>
    h.alike c (hmem c hc hne) c' (hmem c' hc' hne') hne hne', ?_, ?_⟩
  · obtain ⟨hl, k, hk⟩ := h.named c (hmem c hc hne) hne
    refine ⟨hl, k, ?_⟩
    have hopen := hkept.slot_open hc hne
    rw [hlog, conn_closed] at hopen ⊢
    have hcfd : c.fd ≠ fd := fun e => hopen (by rw [e, Function.update_self])
    rwa [Function.update_of_ne hcfd]
  · rw [hlog, History.partners, matches_closed]; exact h.once
  · rw [hlog]
    by_cases hslot : ∃ c ∈ s.clients, decide (c.fd = fd) = true
    · obtain ⟨pre, x, post, hxs, hx, -, he⟩ :=
        setFirst_of_mem hslot ⟨-1, 0, List.replicate 16 0⟩
      obtain rfl : x.fd = fd := of_decide_eq_true hx
      have hxm : x ∈ s.clients := hxs ▸ List.mem_append_right _ List.mem_cons_self
      have hd := difference_setFirst _ hxs he
      have hbal := h.balance
      have hblank : weight ⟨-1, 0, List.replicate 16 0⟩ = 0 := rfl
      change (waiting charM (setFirst _ _ s.clients) : Int) - waiting charC (setFirst _ _ _) = _
      by_cases hne : x.fd = -1
      · -- no connection has this descriptor, and the slot was free
        have hnone : ¬ (history s.log).Waiting x.fd := by
          rintro ⟨c, b, hc, -⟩
          have := h.kept.2.nonneg hc
          omega
        have hw : weight x = 0 := if_pos hne
        rw [balance_closed_of_not h.kept.2 hnone]
        omega
      · obtain ⟨hl, k, hk⟩ := h.named x hxm hne
        have hw : weight x = sign x.family := if_neg hne
        rw [balance_closed h.kept.2 hl hk]
        omega
    · have hnone : setFirst (fun c : ClientState => c.fd = fd) ⟨-1, 0, List.replicate 16 0⟩
          s.clients = s.clients :=
        setFirst_of_none fun c hc => by simpa using fun e => hslot ⟨c, hc, by simpa using e⟩
      change (waiting charM (setFirst _ _ s.clients) : Int) - waiting charC (setFirst _ _ _) = _
      rw [hnone, balance_closed_of_not h.kept.2 fun hw => ?_]
      · exact h.balance
      · obtain ⟨c, hc, rfl⟩ := List.mem_map.mp (mem_occupied.mp ((h.kept.1.mem fd).mpr hw)).1
        exact hslot ⟨c, hc, by simp⟩

/-- What is read and is no name. -/
theorem Paired.read (h : Paired s) (hb : ∀ b ∈ bs.head?, ¬ Letter b) :
    Paired (s.asked (.read fd bs)) := by
  have hlog : history (s.asked (.read fd bs)).log = history s.log := by
    rw [history_asked, see_read_of_not hb]
  refine ⟨h.kept.read hb, fun c hc hne => ?_, h.alike, ?_, ?_⟩
  · rw [hlog]; exact h.named c hc hne
  · rw [hlog]; exact h.once
  · rw [hlog]; exact h.balance

/-- A connection sends its first name. -/
def First (s : Server) (fd : Int) : Prop := ∀ c, (history s.log).conn fd = some c → c.family = none

theorem First.not_waiting (h : First s fd) : ¬ (history s.log).Waiting fd := by
  rintro ⟨c, b, hc, hb, -⟩
  rw [h c hc] at hb
  cases hb

/-- `p` is a match of the connection on `fd`, whose name starts with `b`, with one of the other
family that waits in the room until then. -/
structure MatchOf (s s' : Server) (fd : Int) (b : UInt8) (p : Nat × Nat) : Prop where
  new : ∃ c, (history s.log).conn fd = some c ∧ c.id = p.1
  old : ∃ x ∈ s.clients, x.fd ≠ -1 ∧ (history s.log).conn x.fd = some ⟨p.2, some x.family⟩ ∧
    Letter x.family ∧ x.family ≠ b ∧ x.fd ∉ s'.fds

/-- Somebody of the other family waits, and is taken away. -/
theorem Paired.matched (h : Paired s) (hb : Letter b) (hc : (history s.log).conn fd = some c)
    (hfirst : First s fd) {x : ClientState} (hop : opponent b s.clients = some x) {t : Server}
    (ht : t.clients = s.clients)
    (hlog : history t.log = (history s.log).see (.read fd (b :: bs)))
    (he : s' = (Aigen.removeClient x.fd (t.asked (.matched fd x.fd))).asked (.closed fd)) :
    Paired s' ∧ ∃ p, (history s'.log).matches_ = (history s.log).matches_ ++ [p] ∧
      MatchOf s s' fd b p := by
  have hnot := hfirst.not_waiting
  have hin : InTurn s fd b := iff_of_false hnot fun hf => by rw [hop] at hf; cases hf.1
  have hkept : Kept s' := he ▸ h.kept.matched hb hc hin hop ht hlog
  obtain ⟨hfds, hh⟩ := matched_eq (w := x.fd) ht hlog
  rw [← he] at hfds hh
  obtain ⟨hxm, hxne, hxb⟩ := opponent_some hop
  obtain ⟨hl, k, hk⟩ := h.named x hxm hxne
  have hne : x.fd ≠ fd := fun e => hnot ((h.kept.1.mem fd).mp (e ▸
    (h.kept.1.opponent_waiting hop).1))
  have hc₁ : ((history s.log).see (.read fd (b :: bs))).conn fd =
      some { c with family := c.family.or (some b) } := by
    rw [see_read hb hc]
    exact Function.update_self ..
  have hx₁ : ((history s.log).see (.read fd (b :: bs))).conn x.fd = some ⟨k, some x.family⟩ := by
    rw [see_read hb hc]
    exact (Function.update_of_ne hne ..).trans hk
  rw [see_matched hc₁ hx₁] at hh
  have hms : (history s'.log).matches_ = (history s.log).matches_ ++ [(c.id, k)] := by
    rw [hh, see_read hb hc]
  have hclients : s'.clients = setFirst (fun c => c.fd = x.fd) ⟨-1, 0, List.replicate 16 0⟩
      s.clients := by rw [he, ← ht]; rfl
  have hmem : ∀ c ∈ s'.clients, c.fd ≠ -1 → c ∈ s.clients := by
    intro c hc hne
    rw [hclients] at hc
    rcases mem_setFirst hc with rfl | hc
    · exact absurd rfl hne
    · exact hc
  refine ⟨⟨hkept, fun y hy hyne => ?_, fun y hy z hz hyne hzne =>
    h.alike y (hmem y hy hyne) z (hmem z hz hzne) hyne hzne, ?_, ?_⟩, (c.id, k), hms,
    ⟨⟨c, hc, rfl⟩, x, hxm, hxne, hk, hl, hxb, ?_⟩⟩
  · -- the slots that are left are of other connections
    obtain ⟨hl, j, hj⟩ := h.named y (hmem y hy hyne) hyne
    refine ⟨hl, j, ?_⟩
    have hopen := hkept.slot_open hy hyne
    rw [hh] at hopen ⊢
    have hyfd : y.fd ≠ fd := fun e => hopen (by rw [e]; exact Function.update_self ..)
    have hyx : y.fd ≠ x.fd := fun e => hopen (by
      rw [e]; exact (Function.update_of_ne hne ..).trans (Function.update_self ..))
    rw [see_read hb hc]
    simpa only [Function.update_of_ne hyfd, Function.update_of_ne hyx] using hj
  · -- neither of the two was matched before
    rw [History.partners, hms, List.flatMap_append]
    have hck : c.id ≠ k := fun e => hne (h.kept.2.inj hk hc e.symm)
    refine List.nodup_append.mpr ⟨h.once, by simpa using hck, fun i hi j hj => ?_⟩
    simp only [List.flatMap_cons, List.flatMap_nil, List.append_nil, List.mem_cons,
      List.not_mem_nil, or_false] at hj
    rintro rfl
    rcases hj with rfl | rfl
    · exact h.kept.2.unmatched hc hi
    · exact h.kept.2.unmatched hk hi
  · have hbal : (history s'.log).balance = (history s.log).balance + sign b := by
      have hread : ((history s.log).see (.read fd (b :: bs))).balance =
          (history s.log).balance + sign b := balance_read hb hc
      rw [← hread, hh]
      rfl
    obtain ⟨pre, y, post, hxs, hy, -, hset⟩ :=
      setFirst_of_mem (p := fun c => c.fd = x.fd) ⟨x, hxm, by simp⟩
        (⟨-1, 0, List.replicate 16 0⟩ : ClientState)
    have hyfd : y.fd = x.fd := of_decide_eq_true hy
    have hym : y ∈ s.clients := hxs ▸ List.mem_append_right _ List.mem_cons_self
    have hfam : y.family = x.family := h.alike y hym x hxm (hyfd ▸ hxne) hxne
    have hw : weight y = sign x.family := (if_neg (hyfd ▸ hxne)).trans (by rw [hfam])
    have hblank : weight ⟨-1, 0, List.replicate 16 0⟩ = 0 := rfl
    have hd := difference_setFirst _ hxs hset
    have hold := h.balance
    have hsign := sign_other hb hl hxb
    rw [hbal, hclients]
    omega
  · rw [hfds]
    intro hm
    have := (mem_release h.kept.1.nodup).mp (mem_occupied.mpr ⟨hm, hxne⟩)
    exact this.1 rfl

/-- Nobody of the other family waits, and there is a free slot. -/
theorem Paired.takeSlot (h : Paired s) (hb : Letter b) (hc : (history s.log).conn fd = some c)
    (hfirst : First s fd) (hop : opponent b s.clients = none) (hfull : ¬ Full s)
    (buf : List UInt8)
    (he : s' = { s.asked (.read fd (b :: bs)) with
      clients := Aigen.takeSlot fd b buf s.clients }) :
    Paired s' ∧ (history s'.log).matches_ = (history s.log).matches_ := by
  have hnot := hfirst.not_waiting
  have hin : InTurn s fd b := iff_of_false hnot fun hf => hfull hf.2
  have hkept : Kept s' := he ▸ h.kept.takeSlot hb hc hin hop buf
  have hlog : history s'.log = (history s.log).see (.read fd (b :: bs)) := by
    rw [he]; exact history_asked ..
  obtain ⟨free, hfind⟩ : ∃ free, s.clients.find? (fun c => c.fd = -1) = some free := by
    rw [← Option.isSome_iff_exists, List.find?_isSome]
    by_contra hno
    exact hfull fun c hc hfd => hno ⟨c, hc, by simpa using hfd⟩
  have hclients : s'.clients =
      setFirst (fun c => c.fd = -1) ⟨fd, b, strncpy free.name buf 15⟩ s.clients := by
    rw [he]
    simp only [Aigen.takeSlot, hfind]
  have hsame : ∀ y ∈ s.clients, y.fd ≠ -1 → y.family = b := by
    intro y hy hne
    by_contra hyb
    have hno := List.find?_eq_none.mp hop y hy
    obtain ⟨hl, -⟩ := h.named y hy hne
    have hz : y.family ≠ 0 := by rcases hl with e | e <;> rw [e] <;> decide
    simp [hne, hz, hyb] at hno
  have hfam : ∀ y ∈ s'.clients, y.fd ≠ -1 → y.family = b := by
    intro y hy hne
    rw [hclients] at hy
    rcases mem_setFirst hy with rfl | hy
    · rfl
    · exact hsame y hy hne
  have hfdne : fd ≠ -1 := by
    have := h.kept.2.nonneg hc
    omega
  refine ⟨⟨hkept, fun y hy hne => ?_, fun y hy z hz hyne hzne =>
    (hfam y hy hyne).trans (hfam z hz hzne).symm, ?_, ?_⟩, ?_⟩
  · rw [hfam y hy hne]
    refine ⟨hb, ?_⟩
    rw [hlog, see_read hb hc]
    rw [hclients] at hy
    by_cases e : y.fd = fd
    · refine ⟨c.id, ?_⟩
      rw [e]
      refine (Function.update_self ..).trans ?_
      rw [hfirst c hc]
      rfl
    · rcases mem_setFirst hy with rfl | hy
      · exact absurd rfl e
      · obtain ⟨-, k, hk⟩ := h.named y hy hne
        refine ⟨k, (Function.update_of_ne e ..).trans ?_⟩
        rw [hk, hsame y hy hne]
  · rw [hlog, see_read hb hc]; exact h.once
  · rw [hlog, balance_read hb hc]
    obtain ⟨pre, y, post, hxs, hy, -, hset⟩ :=
      setFirst_of_mem (p := fun c : ClientState => c.fd = -1)
        ⟨free, List.mem_of_find?_eq_some hfind, by simpa using List.find?_some hfind⟩
        ⟨fd, b, strncpy free.name buf 15⟩
    have hfree : weight y = 0 := if_pos (of_decide_eq_true hy)
    have hw : weight ⟨fd, b, strncpy free.name buf 15⟩ = sign b := if_neg hfdne
    have hd := difference_setFirst _ hxs hset
    have hold := h.balance
    rw [hclients]
    omega
  · rw [hlog, see_read hb hc]

/-! ### The whole run -/

/-- A connection sends one name at most, and a name that matches nobody finds a free slot. -/
def Single (s : Server) (fd : Int) (input : Input) : Prop :=
  ∀ b bs w w', input = .client (.bytes (b :: bs)) w w' → Letter b →
    First s fd ∧ (opponent b s.clients = none → ¬ Full s)

/-- The event matches nobody, or the connection whose name it reads. -/
def Matches (s : Server) (fd : Int) (input : Input) (s' : Server) : Prop :=
  (history s'.log).matches_ = (history s.log).matches_ ∨
    ∃ b bs w w' p, input = .client (.bytes (b :: bs)) w w' ∧
      (history s'.log).matches_ = (history s.log).matches_ ++ [p] ∧ MatchOf s s' fd b p

variable {localSfd tcpSfd : Int} {input : Input}

theorem Paired.step (h : Paired s) (hs : Handle localSfd tcpSfd s fd input s')
    (hsingle : Single s fd input) : Paired s' ∧ Matches s fd input s' := by
  have hremoved : ∀ u : Server, (history (Aigen.removeClient fd u).log).matches_ =
      (history u.log).matches_ := by
    intro u
    have hlog : history (Aigen.removeClient fd u).log = (history u.log).see (.closed fd) :=
      history_asked ..
    rw [hlog, matches_closed]
  cases hs with
  | accept clientFd _ hnew =>
      refine ⟨h.acceptEvent (hnew.imp id fun hnew => ⟨hnew.1, hnew.2.2.2⟩), .inl ?_⟩
      unfold Aigen.acceptEvent
      split
      · rw [history_asked]; rfl
      · rfl
  | @client _ _ r w w' _ hr _ _ hs =>
      rcases readEvent_cases hs with ⟨-, rfl⟩ | ⟨bs, -, hb, rfl⟩ | ⟨b, bs, rfl, hb, hcase⟩
      · exact ⟨h.removeClient fd, .inl (hremoved s)⟩
      · refine ⟨(h.read hb).removeClient fd, .inl ?_⟩
        rw [hremoved, history_asked, see_read_of_not hb]
      · obtain ⟨c, hc⟩ : ∃ c, (history s.log).conn fd = some c := by
          cases hc : (history s.log).conn fd with
          | none => cases hr hc
          | some c => exact ⟨c, rfl⟩
        obtain ⟨hfirst, hfull⟩ := hsingle b bs w w' rfl hb
        rcases hcase with ⟨x, t, hop, -, ht, hlog, he⟩ | ⟨hop, he⟩
        · obtain ⟨hp, p, hms, hm⟩ := h.matched hb hc hfirst hop ht hlog he
          exact ⟨hp, .inr ⟨b, bs, w, w', p, rfl, hms, hm⟩⟩
        · obtain ⟨hp, hms⟩ := h.takeSlot hb hc hfirst hop (hfull hop) _ he
          exact ⟨hp, .inl hms⟩

variable {names : List (List UInt8)} {t : EventLoop.State Server}
  {tr : List (Move (EventLoop.State Server) (EventLoop.Label Input))}

/-- **Matches.**  Along every run in which a connection sends one name at most and a name that
matches nobody finds a free slot: the clients in the room are of one family; nobody is matched
twice; a match is of the connection that arrives with one of the other family that waits, and
that leaves the room; and the two families in the room, hence the two numbers printed at the end,
differ by what the arrivals and the departures leave. -/
theorem matching_law (r : Run (loop localSfd tcpSfd).Step (begin names) tr t)
    (hs : ∀ m ∈ tr, EventLoop.Only Single m.before m.label m.after) :
    (∀ c ∈ t.server.clients, ∀ c' ∈ t.server.clients, c.fd ≠ -1 → c'.fd ≠ -1 →
      c.family = c'.family) ∧
    (history t.server.log).partners.Nodup ∧
    (∀ m ∈ tr, ∀ fd input, m.label = .event fd input →
      Matches m.before.server fd input m.after.server) ∧
    (waiting charM t.server.clients : Int) - waiting charC t.server.clients =
      (history t.server.log).balance ∧
    finalCounts t.server.clients =
      ((history t.server.log).balance.toNat, (-(history t.server.log).balance).toNat) := by
  obtain ⟨ht, hm⟩ := EventLoop.invariant_at (fun h hs hc => (h.step hs hc).1) r
    (paired_start names) hs
  refine ⟨ht.alike, ht.once, fun m m_in fd input hl => ?_, ht.balance, ?_⟩
  · have hstep := r.step_of_mem m m_in
    have hsingle := hs m m_in fd input hl
    have hpaired := (hm m m_in).1
    obtain ⟨before, label, after⟩ := m
    obtain rfl : label = .event fd input := hl
    cases hstep with
    | event _ _ rest server _ hhandle => exact (hpaired.step hhandle hsingle).2
  · -- the room holds one family, so one of the two counts is 0
    have hbal := ht.balance
    have hzero : waiting charM t.server.clients = 0 ∨ waiting charC t.server.clients = 0 := by
      by_contra hno
      rw [not_or] at hno
      obtain ⟨c, hc, hcM⟩ := List.countP_pos_iff.mp (Nat.pos_of_ne_zero hno.1)
      obtain ⟨c', hc', hcC⟩ := List.countP_pos_iff.mp (Nat.pos_of_ne_zero hno.2)
      simp only [ne_eq, decide_not, Bool.and_eq_true, Bool.not_eq_eq_eq_not, Bool.not_true,
        decide_eq_false_iff_not, decide_eq_true_eq] at hcM hcC
      have hfam := ht.alike c hc c' hc' hcM.1 hcC.1
      rw [hcM.2, hcC.2] at hfam
      exact charC_ne_charM hfam.symm
    rw [finalCounts_eq, Prod.mk.injEq]
    omega

/-- A second connection sends `"C"` and is matched with the one that waits. -/
theorem matching_law_two : ∃ tr t, Run (loop 3 4).Step (begin []) tr t ∧
    (history t.server.log).matches_ = [(1, 0)] ∧ finalCounts t.server.clients = (0, 0) ∧
    (history t.server.log).partners.Nodup := by
  obtain ⟨tr, r, ho⟩ := oneWaits_run
  obtain ⟨u, hu, hm, hc⟩ : ∃ u, readEvent (acceptEvent oneWaits 6) 6 (.bytes [charC]) .written
      .written = some u ∧ (history u.log).matches_ = [(1, 0)] ∧ finalCounts u.clients = (0, 0) :=
    ⟨_, rfl, by decide, by decide⟩
  have r' := ((r.trans (accept_run _ 6 (by decide))).snoc
    (wait_one 6 (by decide))).snoc
    (reads_name (b := charC) (r := []) (by decide) (by decide) (by rintro c ⟨⟩; decide) hu)
  refine ⟨_, _, r', hm, hc, (matching_law r' ?_).2.1⟩
  intro m hm fd input hl b bs w w' hi hb
  simp only [List.append_assoc, List.cons_append, List.nil_append, List.mem_append, List.mem_cons,
    List.not_mem_nil, or_false] at hm
  subst hi
  rcases hm with hm | rfl | rfl | rfl | rfl
  · obtain ⟨hserver, rfl⟩ := ho m hm fd b bs w w' hl
    rw [hserver]
    exact ⟨by rintro c ⟨⟩; rfl, fun _ h => h ⟨-1, 0, []⟩ (by decide) rfl⟩
  · cases hl
  · cases hl
  · cases hl
  · cases hl
    exact ⟨by rintro c ⟨⟩; rfl, by rintro ⟨⟩⟩

end Sop2.Aigen
