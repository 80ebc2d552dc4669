import Sop2.Lab08.Transfer.Server

/-!
# Lab08 — Transfer — the table

The table `con[]` over whole runs of `doServer`, with every way `sendto` can end: `EPIPE` gives up
the entry of the sender, any other failure ends the server.

* `FindsIndex`: what `findIndex` does for an address that has an entry, for a new one, and for one
  that gets none.  It rests on `Unique` alone (`Unique.findsIndex`).
* `Evolves`: what a datagram does to the entries.  One that is taken keeps its address, and its
  number grows by at most one, also in the turn that gives it up; one that becomes taken is the
  sender's, and has counted from 0.

`con[index].chunkNo + 1` is computed for every datagram of an address with an entry, and overflows
when the entry has counted to the largest `int32_t` (`serve_overflow_iff`); from there nothing is
defined.  `table_law`: up to there everything above holds, in every state of every run.
`count_wraps`: a client that counts so far, and the number of its entry falls.
-/

namespace Sop2.Transfer
open Support

/-- A datagram, its sender, and how `sendto` of the answer to it ends, if it is answered. -/
structure Datagram (A : Type*) where
  addr : A
  dgram : List UInt8
  res : SendResult

variable {A : Type*} [DecidableEq A]

/-- One datagram handled by `doServer`, with the server that waits for the next one.  Nothing is
known of the server after a sum that overflows. -/
inductive Handles (s : Server A) (d : Datagram A) (s' : Server A) : Prop where
  | loop {p : Option Printed} {r : Option (List UInt8)} (length : d.dgram.length ≤ maxBuf)
      (turn : serve d.res s d.addr d.dgram = .loop s' p r)
  | undefined (length : d.dgram.length ≤ maxBuf)
      (turn : serve d.res s d.addr d.dgram = .overflow)

/-- `findIndex` gives an address its entry, or takes a free one for it and changes no other, or
gives none and changes nothing; the last exactly when every entry is another's. -/
structure FindsIndex (con : Fin maxAddr → Connection A) (a : A) : Prop where
  taken : ∀ i, Taken con a i → findIndex a con = (some i, con)
  new : (∀ i, ¬ Taken con a i) → ∀ i con', findIndex a con = (some i, con') →
    (con i).free = true ∧ con' = Function.update con i ⟨false, 0, a⟩
  full : (findIndex a con).1 = none ↔ ∀ i, (con i).free = false ∧ (con i).addr ≠ a
  keeps : (findIndex a con).1 = none → (findIndex a con).2 = con

/-- What a datagram from `a` does to the entries. -/
structure Evolves (a : A) (con con' : Fin maxAddr → Connection A) : Prop where
  kept : ∀ i, (con i).free = false → (con' i).addr = (con i).addr ∧
    ((con' i).chunkNo = (con i).chunkNo ∨ (con' i).chunkNo = (con i).chunkNo + 1)
  allocated : ∀ i, (con i).free = true → (con' i).free = false → (con' i).addr = a ∧
    ((con' i).chunkNo = 0 ∨ (con' i).chunkNo = 1)

/-! ### One datagram -/

variable {a : A} {s s' : Server A} {res : SendResult} {d : List UInt8}

theorem Unique.findsIndex {con : Fin maxAddr → Connection A} (hu : Unique con) (a : A) :
    FindsIndex con a := by
  rcases findIndex_spec a con with ⟨i, hi, ht⟩ | ⟨i, hi, hf, hn⟩ | ⟨hi, hn⟩
  · refine ⟨fun j hj => ?_, fun hn => absurd ht (hn i), ?_, ?_⟩
    · rw [hi, hu a i j ht hj]
    · rw [hi]
      exact ⟨fun h => absurd h (by simp), fun h => absurd ht.2 (h i).2⟩
    · rw [hi]
      intro h
      cases h
  · refine ⟨fun j hj => absurd hj (hn j), fun _ j con' h => ?_, ?_, ?_⟩
    · rw [hi] at h
      cases h
      exact ⟨hf, rfl⟩
    · rw [hi]
      refine ⟨fun h => absurd h (by simp), fun h => ?_⟩
      have := (h i).1
      rw [hf] at this
      cases this
    · rw [hi]
      intro h
      cases h
  · refine ⟨fun j hj => absurd hj (hn j).2, fun _ j con' h => ?_, ?_, fun _ => by rw [hi]⟩
    · rw [hi] at h
      cases h
    · rw [hi]
      exact ⟨fun _ j => ⟨(hn j).1, fun e => (hn j).2 ⟨(hn j).1, e⟩⟩, fun _ => rfl⟩

omit [DecidableEq A] in
/-- What `sendto` leaves of the table: all of it, or all but the entry it gives up. -/
theorem answer_con {con : Fin maxAddr → Connection A} {i : Fin maxAddr} {buf : List UInt8}
    {p p' : Option Printed} {r : Option (List UInt8)}
    (h : answer res con i buf p = .loop s' p' r) :
    ∃ free, s'.con = Function.update con i { con i with free := free } := by
  cases res with
  | sent =>
      cases h
      exact ⟨(con i).free, (Function.update_eq_self i con).symm⟩
  | epipe =>
      cases h
      exact ⟨true, rfl⟩
  | error => cases h

/-- A turn for a sender with an entry writes that entry only, and not its address. -/
theorem serve_entry {i : Fin maxAddr} {con : Fin maxAddr → Connection A} {p : Option Printed}
    {r : Option (List UInt8)} (hf : findIndex a s.con = (some i, con))
    (h : serve res s a d = .loop s' p r) :
    ∃ c : Connection A, s'.con = Function.update con i c ∧ c.addr = (con i).addr ∧
      (c.chunkNo = (con i).chunkNo ∨ c.chunkNo = (con i).chunkNo + 1) := by
  unfold serve at h
  simp only [hf] at h
  split at h
  · cases h
  · split at h
    · cases h
      exact ⟨con i, (Function.update_eq_self i con).symm, rfl, .inl rfl⟩
    · split at h
      · obtain ⟨free, hcon⟩ := answer_con h
        rw [Function.update_idem, Function.update_self] at hcon
        exact ⟨_, hcon, rfl, .inr rfl⟩
      · obtain ⟨free, hcon⟩ := answer_con h
        exact ⟨_, hcon, rfl, .inl rfl⟩

/-- **The overflow.**  A turn meets it exactly when the entry of the sender has counted to the
largest `int32_t`. -/
theorem serve_overflow_iff (hu : Unique s.con) :
    serve res s a d = .overflow ↔ view s.con a = some int32Max := by
  have hanswer : ∀ con i buf p, answer res con i buf p ≠ (.overflow : Served A) := by
    intro con i buf p
    cases res <;> intro h <;> cases h
  unfold serve
  rcases hf : findIndex a s.con with ⟨_ | i, con⟩
  · have hfull := (hu.findsIndex a).full.mp (by rw [hf])
    have hv : view s.con a = none := view_eq_none.mpr fun i hi => (hfull i).2 hi.2
    simp [hv]
  · obtain ⟨-, -, hk, -⟩ := findIndex_view hu hf
    have hmax : (con i).chunkNo = int32Max ↔ view s.con a = some int32Max := by
      rw [hk]
      cases view s.con a with
      | none => simp [int32Max]
      | some k => simp
    dsimp only
    split
    · exact ⟨fun _ => hmax.mp ‹_›, fun _ => rfl⟩
    · rename_i hne
      rw [← hmax]
      refine ⟨fun h => ?_, fun h => absurd h hne⟩
      split at h
      · cases h
      · split at h
        · exact absurd h (hanswer _ _ _ _)
        · exact absurd h (hanswer _ _ _ _)

omit [DecidableEq A] in
/-- One entry is written, and the others stay. -/
theorem evolves_update {con : Fin maxAddr → Connection A} {i : Fin maxAddr} {c : Connection A}
    (hkept : (con i).free = false → c.addr = (con i).addr ∧
      (c.chunkNo = (con i).chunkNo ∨ c.chunkNo = (con i).chunkNo + 1))
    (hnew : (con i).free = true → c.addr = a ∧ (c.chunkNo = 0 ∨ c.chunkNo = 1)) :
    Evolves a con (Function.update con i c) where
  kept k hk := by
    rcases eq_or_ne k i with rfl | hne
    · rw [Function.update_self]
      exact hkept hk
    · rw [Function.update_of_ne hne]
      exact ⟨rfl, .inl rfl⟩
  allocated k hk hk' := by
    rcases eq_or_ne k i with rfl | hne
    · rw [Function.update_self]
      exact hnew hk
    · rw [Function.update_of_ne hne, hk] at hk'
      cases hk'

/-- **One datagram.**  No address gets a second entry, and the entries change as `Evolves` says. -/
theorem serve_table {p : Option Printed} {r : Option (List UInt8)} (hu : Unique s.con)
    (h : serve res s a d = .loop s' p r) : Unique s'.con ∧ Evolves a s.con s'.con := by
  rcases hf : findIndex a s.con with ⟨_ | i, con⟩
  · -- every entry is another's
    obtain rfl : con = s.con := by
      simpa [hf] using (hu.findsIndex a).keeps (by rw [hf])
    simp only [serve, hf] at h
    cases h
    refine ⟨hu, fun i _ => ⟨rfl, .inl rfl⟩, fun i hfree htaken => ?_⟩
    rw [hfree] at htaken
    cases htaken
  · obtain ⟨hu', ht, -⟩ := findIndex_view hu hf
    obtain ⟨c, hcon, haddr, hno⟩ := serve_entry hf h
    have hc : c.addr = a := haddr.trans ht.2
    rw [hcon]
    refine ⟨(view_update hu' hc (.inl ht)).1, ?_⟩
    rcases findIndex_spec a s.con with ⟨j, hj, htaken⟩ | ⟨j, hj, hfree, -⟩ | ⟨hj, -⟩
    · -- the entry the sender has
      rw [hf] at hj
      cases hj
      refine evolves_update (fun _ => ⟨haddr, hno⟩) fun hfree => ?_
      rw [htaken.1] at hfree
      cases hfree
    · -- a free entry, taken for it with the number 0
      rw [hf] at hj
      cases hj
      rw [Function.update_self] at hno
      rw [Function.update_idem]
      refine evolves_update (fun htaken => ?_) fun _ => ⟨hc, hno⟩
      rw [hfree] at htaken
      cases htaken
    · rw [hf] at hj
      cases hj

/-! ### Every run -/

variable {s₀ : Server A} {tr : List (Move (Server A) (Datagram A))}

/-- While an entry stays taken its address stays, and its number grows by at most one with every
datagram. -/
theorem entry_of_run (r : Run Handles s tr s')
    (hev : ∀ m ∈ tr, Evolves m.label.addr m.before.con m.after.con) {i : Fin maxAddr}
    (hs : (s.con i).free = false) (hheld : ∀ m ∈ tr, (m.after.con i).free = false) :
    (s'.con i).free = false ∧ (s'.con i).addr = (s.con i).addr ∧
      (s.con i).chunkNo ≤ (s'.con i).chunkNo ∧
      (s'.con i).chunkNo ≤ (s.con i).chunkNo + tr.length := by
  induction r with
  | refl => exact ⟨hs, rfl, le_rfl, by simp⟩
  | @snoc t u tr l r h ih =>
      obtain ⟨ht, haddr, hle, hge⟩ := ih (fun m hm => hev m (List.mem_append_left _ hm))
        fun m hm => hheld m (List.mem_append_left _ hm)
      obtain ⟨haddr', hno⟩ := (hev ⟨t, l, u⟩ (by simp)).kept i ht
      refine ⟨hheld ⟨t, l, u⟩ (by simp), haddr'.trans haddr, ?_, ?_⟩
      · dsimp only at hno
        omega
      · rw [List.length_append, List.length_singleton]
        dsimp only at hno
        omega

/-- **The table.**  In every run of the server in which no datagram comes from an address whose
entry has counted to the largest `int32_t`, and in every state it reaches: no address has two
entries; `findIndex` gives every address its entry, or a free one, or none; every datagram has
changed the entries as it should, so that an entry keeps its address while it is taken, and counts
by ones; and the next turn overflows exactly when it is for such an entry. -/
theorem table_law (hcon : ∀ i, (s₀.con i).free = true) (r : Run Handles s₀ tr s)
    (hmax : ∀ m ∈ tr, view m.before.con m.label.addr ≠ some int32Max) :
    Unique s.con ∧ (∀ a, FindsIndex s.con a) ∧
      (∀ m ∈ tr, Evolves m.label.addr m.before.con m.after.con) ∧
      (∀ tr₁ tr₂ t i, tr = tr₁ ++ tr₂ → Run Handles t tr₂ s → (t.con i).free = false →
        (∀ m ∈ tr₂, (m.after.con i).free = false) → (s.con i).addr = (t.con i).addr ∧
          (t.con i).chunkNo ≤ (s.con i).chunkNo ∧
          (s.con i).chunkNo ≤ (t.con i).chunkNo + tr₂.length) ∧
      ∀ d : Datagram A, serve d.res s d.addr d.dgram = .overflow ↔
        view s.con d.addr = some int32Max := by
  have hstep : ∀ {s : Server A} {d : Datagram A} {t : Server A}, Unique s.con → Handles s d t →
      view s.con d.addr ≠ some int32Max → Unique t.con ∧ Evolves d.addr s.con t.con := by
    rintro s d t hu (⟨-, turn⟩ | ⟨-, turn⟩) hd
    · exact serve_table hu turn
    · exact absurd ((serve_overflow_iff hu).mp turn) hd
  obtain ⟨hu, hmoves⟩ := r.invariant_at (I := fun s => Unique s.con)
    (C := fun s d _ => view s.con d.addr ≠ some int32Max)
    (fun hu h hd => (hstep hu h hd).1) (unique_of_free hcon) hmax
  have hev : ∀ m ∈ tr, Evolves m.label.addr m.before.con m.after.con := fun m hm =>
    (hstep (hmoves m hm).1 (r.step_of_mem m hm) (hmax m hm)).2
  refine ⟨hu, hu.findsIndex, hev, ?_, fun d => serve_overflow_iff hu⟩
  rintro tr₁ tr₂ t i rfl r₂ ht hheld
  exact (entry_of_run r₂ (fun m hm => hev m (List.mem_append_right _ hm)) ht hheld).2

/-! ### A client that counts to the end -/

/-- The chunk `n` of a file that goes on, with no text. -/
def chunkOf (n : Int) : Datagram Unit := ⟨(), beInt32 n ++ beInt32 0, .sent⟩

/-- The table that has the number `n` for the one client there is. -/
def conOf (n : Int) : Fin maxAddr → Connection Unit :=
  Function.update freshServer.con ⟨4, by decide⟩ ⟨false, n, ()⟩

/-- The chunk `n` of a file that goes on, with no text, from `a`. -/
def chunkFrom (a : A) (n : Int) : Datagram A := ⟨a, beInt32 n ++ beInt32 0, .sent⟩

/-- The turn for the chunk that comes next. -/
theorem handles_chunkFrom {i : Fin maxAddr} {con : Fin maxAddr → Connection A} {n : Int}
    (hf : findIndex a s.con = (some i, con)) (hk : (con i).chunkNo = n) (h₀ : 0 ≤ n)
    (hn : n < int32Max) :
    Handles s (chunkFrom a (n + 1)) ⟨Function.update con i { con i with chunkNo := n + 1 },
      receive s.buf (chunkFrom a (n + 1)).dgram⟩ := by
  have hbuf : receive s.buf (chunkFrom a (n + 1)).dgram
      = beInt32 (n + 1) ++ (beInt32 0 ++ 0 :: s.buf.drop 9) := by
    simp [receive, chunkFrom]
  have hno : int32Be (receive s.buf (chunkFrom a (n + 1)).dgram) = n + 1 := by
    rw [hbuf]
    exact int32Be_beInt32 (by omega) (by omega) _
  have hlast : int32Be ((receive s.buf (chunkFrom a (n + 1)).dgram).drop 4) = 0 := by
    rw [hbuf, List.drop_left' (beInt32_length _)]
    exact int32Be_beInt32 le_rfl (by decide) _
  have hf' : findIndex (chunkFrom a (n + 1)).addr s.con = (some i, con) := hf
  have hturn : serve .sent s (chunkFrom a (n + 1)).addr (chunkFrom a (n + 1)).dgram =
      .loop ⟨Function.update con i { con i with chunkNo := n + 1 },
          receive s.buf (chunkFrom a (n + 1)).dgram⟩
        (some ⟨false, n + 1, cString ((receive s.buf (chunkFrom a (n + 1)).dgram).drop 8)⟩)
        (some ((receive s.buf (chunkFrom a (n + 1)).dgram).take maxBuf)) := by
    unfold serve
    simp only [hf', hno, hlast, hk]
    rw [if_neg (by omega), if_neg (by omega), if_pos trivial]
    simp [answer]
  exact .loop (by simp [chunkFrom, maxBuf]) hturn

/-- The chunk that comes next, for a client that is alone. -/
theorem handles_chunkOf {s : Server Unit} {n : Int}
    (hf : findIndex () s.con = (some ⟨4, by decide⟩, conOf n)) (h₀ : 0 ≤ n) (hn : n < int32Max) :
    Handles s (chunkOf (n + 1)) ⟨conOf (n + 1), receive s.buf (chunkOf (n + 1)).dgram⟩ := by
  have h := handles_chunkFrom hf (show (conOf n ⟨4, by decide⟩).chunkNo = n by simp [conOf]) h₀ hn
  rw [show chunkOf (n + 1) = chunkFrom () (n + 1) from rfl]
  simpa [conOf] using h

/-- A client counts to `n + 1`. -/
theorem count_to (n : Nat) (hn : (n : Int) + 1 ≤ int32Max) : ∃ tr buf,
    Run Handles freshServer tr ⟨conOf (n + 1), buf⟩ ∧
      tr.map Move.label = (List.range (n + 1)).map fun k : Nat => chunkOf (k + 1) := by
  induction n with
  | zero =>
      have h := handles_chunkOf (s := freshServer) (n := 0) rfl le_rfl (by decide)
      exact ⟨_, _, .one h, rfl⟩
  | succ n ih =>
      obtain ⟨tr, buf, r, hlabels⟩ := ih (by omega)
      have h := handles_chunkOf (s := ⟨conOf (n + 1), buf⟩) (n := n + 1) rfl (by omega) (by omega)
      refine ⟨_, _, r.snoc (l := chunkOf ((n + 1 : Nat) + 1)) h, ?_⟩
      rw [List.map_append, hlabels, List.range_succ (n := n + 1), List.map_append]
      rfl

/-- **The count wraps.**  A client sends the chunks 1 to 2147483647 of a file, and then one more.
The number of its entry, which it has kept, is the least `int32_t` after that. -/
theorem count_wraps : ∃ tr s m, Run Handles freshServer (tr ++ [m]) s ∧
    (tr.map Move.label = (List.range 2147483647).map fun k : Nat => chunkOf (k + 1)) ∧
    m.label = chunkOf (-2147483648) ∧ ∃ i, (m.before.con i).free = false ∧
      (m.before.con i).chunkNo = 2147483647 ∧ (m.after.con i).free = false ∧
      (m.after.con i).chunkNo = -2147483648 := by
  obtain ⟨tr, buf, r, hlabels⟩ := count_to 2147483646 (by decide)
  have hu : Unique (conOf int32Max) := by
    intro a i j hi hj
    rcases taken_update.mp hi with ⟨rfl, -⟩ | ⟨-, hi⟩
    · rcases taken_update.mp hj with ⟨rfl, -⟩ | ⟨-, hj⟩
      · rfl
      · cases hj.1
    · cases hi.1
  have hv : view (conOf int32Max) () = some int32Max :=
    (view_eq_some hu).mpr ⟨⟨4, by decide⟩, ⟨rfl, rfl⟩, rfl⟩
  -- the sum has no defined value, and this is the one the machine gives
  have h : Handles ⟨conOf int32Max, buf⟩ (chunkOf (-2147483648)) ⟨conOf (-2147483648), buf⟩ :=
    .undefined (by decide) ((serve_overflow_iff hu).mpr hv)
  exact ⟨tr, _, ⟨_, _, _⟩, r.snoc h, hlabels, rfl, ⟨4, by decide⟩, rfl, rfl, rfl, rfl⟩

/-- Two clients send two chunks each, in turns. -/
theorem table_law_pair : ∃ tr s, Run Handles freshPair tr s ∧
    tr.map Move.label =
      [chunkFrom true 1, chunkFrom false 1, chunkFrom true 2, chunkFrom false 2] ∧
    Unique s.con ∧ (∀ a, FindsIndex s.con a) ∧
    (∀ m ∈ tr, Evolves m.label.addr m.before.con m.after.con) ∧
    view s.con true = some 2 ∧ view s.con false = some 2 := by
  have r₁ := Run.one (@handles_chunkFrom _ _ true freshPair _ _ 0 rfl rfl le_rfl (by decide))
  have r₂ := r₁.snoc (@handles_chunkFrom _ _ false _ _ _ 0 rfl rfl le_rfl (by decide))
  have r₃ := r₂.snoc (@handles_chunkFrom _ _ true _ _ _ 1 rfl rfl (by decide) (by decide))
  have r := r₃.snoc (@handles_chunkFrom _ _ false _ _ _ 1 rfl rfl (by decide) (by decide))
  have hlaw := table_law (fun _ => rfl) r (by
    simp only [List.forall_mem_append, List.forall_mem_singleton]
    decide)
  exact ⟨_, _, r, rfl, hlaw.1, hlaw.2.1, hlaw.2.2.1, by decide, by decide⟩

end Sop2.Transfer
