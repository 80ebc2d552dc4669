import Mathlib.Data.List.TakeWhile
import Sop2.Lab08.Transfer.Client

/-!
# Lab08 — Transfer — delivery

One run of `doClient`, the server, and a network between them that loses, duplicates, delays and
reorders datagrams and replies, among any datagrams from other addresses.

`file_delivered`: what the server prints for the client's address up to its first `Last Part` are
the chunks of the file in order, and all of them once `Last Part` is printed or the client has
ended without giving up.  The invariant is `Delivery`: until `Last Part` the table has the number
of chunks printed, and a reply or a `recvbuf` never bears the number of a chunk that is not
printed.
-/

namespace Sop2.Transfer
open Support

variable {A : Type*}

/-- The two programs and all that was ever sent between them.  A datagram on its way is never
removed: it may arrive any number of times, late, out of order or not at all. -/
structure Net (A : Type*) where
  client : Client
  server : Server A
  toServer : List (List UInt8)
  toClient : List (List UInt8)

/-- The client before its first turn. -/
def Net.begin (file : List UInt8) (server : Server A) : Net A := ⟨doClient file, server, [], []⟩

/-- `ps` up to the first `Last Part`. -/
def uptoLast (ps : List Printed) : List Printed :=
  ps.takeWhile (fun p => ! p.lastPart) ++ (ps.find? fun p => p.lastPart).toList

/-- The turns of the server in a trace. -/
def turns (tr : List (Move (Net A) (Option (Turned A)))) : List (Turned A) :=
  tr.filterMap Move.label

@[simp] theorem turns_snoc (tr : List (Move (Net A) (Option (Turned A))))
    (m : Move (Net A) (Option (Turned A))) : turns (tr ++ [m]) = turns tr ++ m.label.toList := by
  cases h : m.label <;> simp [turns, h]

/-! ### The invariant -/

/-- The first `k` chunks have been printed. -/
def Confirmed (file : List UInt8) (printed : List Printed) (k : Nat) : Prop :=
  k ≤ lastChunk file + 1 ∧ (parts file).take k <+: printed

/-- `bs` starts with the number of a confirmed chunk, or with 0. -/
def Ack (file : List UInt8) (printed : List Printed) (bs : List UInt8) : Prop :=
  ∃ k : Nat, (k : Int) ≤ int32Max ∧ bs.take 4 = beInt32 k ∧ Confirmed file printed k

/-- The locals of the client, with `m` chunks read. -/
structure ClientInv (file : List UInt8) (printed : List Printed) (c : Client) (m : Nat) : Prop where
  chunkNo : c.chunkNo = m
  max : (m : Int) ≤ int32Max
  rest : c.file = file.drop ((maxBuf - offset) * m)
  read : c.pc = .read → m ≤ lastChunk file
  trying : c.pc = .send ∨ c.pc = .recv → ∃ i, m = i + 1 ∧ i ≤ lastChunk file ∧
    c.sendbuf = dgram file i ∧ c.size = (payload file i).length
  recvbuf : Ack file printed c.recvbuf
  done : c.pc = .done → Confirmed file printed (lastChunk file + 1)

/-- Before `Last Part` the table has, for the address, the number of chunks printed; after it all
chunks have been printed. -/
def Phase (file : List UInt8) (printed : List Printed) (v : Option Int) : Prop :=
  (∃ k : Nat, k ≤ lastChunk file ∧ printed = (parts file).take k ∧ v.getD 0 = k) ∨
    parts file <+: printed

/-- What holds of a client, of the server's view of its address, and of all that is on its way
between them. -/
structure Delivery [DecidableEq A] (file : List UInt8) (a : A) (printed : List Printed)
    (s : Net A) : Prop where
  unique : Unique s.server.con
  client : ∃ m, ClientInv file printed s.client m ∧
    ∀ d ∈ s.toServer, ∃ i < m, i ≤ lastChunk file ∧ d = dgram file i
  toClient : ∀ r ∈ s.toClient, Ack file printed r
  phase : Phase file printed (view s.server.con a)

variable {file : List UInt8} {printed : List Printed}

theorem Confirmed.mono {k : Nat} (h : Confirmed file printed k) (ps : List Printed) :
    Confirmed file (printed ++ ps) k :=
  ⟨h.1, h.2.trans (List.prefix_append ..)⟩

theorem Ack.mono {bs : List UInt8} (h : Ack file printed bs) (ps : List Printed) :
    Ack file (printed ++ ps) bs := by
  obtain ⟨k, hk, hb, hc⟩ := h
  exact ⟨k, hk, hb, hc.mono ps⟩

/-- `recv` writes over the start of `recvbuf`. -/
theorem Ack.overwrite {r : List UInt8} (h : Ack file printed r) (buf : List UInt8) :
    Ack file printed (overwrite buf 0 r) := by
  obtain ⟨k, hk, hb, hc⟩ := h
  have hlen : 4 ≤ r.length := by
    have := congrArg List.length hb
    rw [beInt32_length, List.length_take] at this
    omega
  refine ⟨k, hk, ?_, hc⟩
  rw [Support.overwrite, List.take_zero, List.nil_append, List.take_append_of_le_length hlen, hb]

theorem ClientInv.mono {c : Client} {m : Nat} (h : ClientInv file printed c m)
    (ps : List Printed) : ClientInv file (printed ++ ps) c m :=
  { h with recvbuf := h.recvbuf.mono ps, done := fun hd => (h.done hd).mono ps }

theorem parts_length : (parts file).length = lastChunk file + 1 := by
  simp [parts]

theorem parts_take_succ {k : Nat} (hk : k ≤ lastChunk file) :
    (parts file).take (k + 1) = (parts file).take k ++ [part file k] := by
  have h : (parts file)[k]? = some (part file k) := by
    rw [parts, List.getElem?_map, List.getElem?_range (by omega)]
    rfl
  rw [List.take_add_one, h, Option.toList_some]

theorem confirmed_all (h : parts file <+: printed) {k : Nat} (hk : k ≤ lastChunk file + 1) :
    Confirmed file printed k :=
  ⟨hk, (List.take_prefix ..).trans h⟩

theorem confirmed_take {k : Nat} (hk : k ≤ lastChunk file + 1) {j : Nat} (hj : j ≤ k) :
    Confirmed file ((parts file).take k) j :=
  ⟨hj.trans hk, List.take_prefix_take_left hj⟩

/-! ### A copy of a chunk reaches the server -/

theorem reply_ack {i : Nat} (hmax : (i : Int) + 1 ≤ int32Max) (buf : List UInt8)
    (hc : Confirmed file printed (i + 1)) :
    Ack file printed ((receive buf (dgram file i)).take maxBuf) := by
  refine ⟨i + 1, by simpa using hmax, ?_, hc⟩
  rw [List.take_take]
  rfl

/-- **One copy of a chunk.**  Whatever the server does with a copy of chunk `i`, the printed
chunks stay in step with its view of the address, and what it sends back is the number of a
printed chunk. -/
theorem phase_deliver (h₀ : 0 ∉ file) {i : Nat} (hi : i ≤ lastChunk file)
    (hmax : (i : Int) + 1 ≤ int32Max) {buf : List UInt8} {v v' : Option Int} {p : Option Printed}
    {r : Option (List UInt8)} (hv : Phase file printed v)
    (ht : Turn (receive buf (dgram file i)) v v' p r) :
    Phase file (printed ++ p.toList) v' ∧ ∀ bs ∈ r, Ack file (printed ++ p.toList) bs := by
  have hpart := printedOf_dgram h₀ hmax buf
  have hno : int32Be (receive buf (dgram file i)) = i + 1 := congrArg Printed.chunkNo hpart
  rcases hv with ⟨k, hk, rfl, hvk⟩ | hall
  · cases ht with
    | full => exact ⟨.inl ⟨k, hk, by simp, hvk⟩, by simp⟩
    | ahead h => exact ⟨.inl ⟨k, hk, by simp, by simpa using hvk⟩, by simp⟩
    | again h =>
        refine ⟨.inl ⟨k, hk, by simp, by simpa using hvk⟩, fun bs hbs => ?_⟩
        obtain rfl := Option.mem_some_iff.mp hbs
        rw [Option.toList_none, List.append_nil]
        exact reply_ack hmax buf (confirmed_take (by omega) (by omega))
    | accept h =>
        -- the chunk is the next one
        obtain rfl : i = k := by omega
        have hps : (parts file).take i ++ (some (printedOf (receive buf (dgram file i)))).toList =
            (parts file).take (i + 1) := by
          rw [hpart, parts_take_succ hi, Option.toList_some]
        rw [hps]
        constructor
        · by_cases hl : i = lastChunk file
          · right
            have hall : (parts file).take (i + 1) = parts file :=
              List.take_of_length_le (by rw [parts_length, hl])
            exact hall.symm ▸ List.prefix_rfl
          · left
            refine ⟨i + 1, by omega, rfl, ?_⟩
            simp [hpart, part, hl, hvk]
        · intro bs hbs
          obtain rfl := Option.mem_some_iff.mp hbs
          exact reply_ack hmax buf (confirmed_take (by omega) le_rfl)
  · have hall' := hall.trans (List.prefix_append printed p.toList)
    refine ⟨.inr hall', fun bs hbs => ?_⟩
    have hack := reply_ack hmax buf (confirmed_all hall' (k := i + 1) (by omega))
    cases ht with
    | full | ahead => cases hbs
    | accept | again => obtain rfl := Option.mem_some_iff.mp hbs; exact hack

/-! ### The client gets on -/

theorem clientInv_begin (file : List UInt8) : ClientInv file [] (doClient file) 0 where
  chunkNo := rfl
  max := by decide
  rest := rfl
  read _ := Nat.zero_le _
  trying h := by rcases h with h | h <;> cases h
  recvbuf := ⟨0, by decide, rfl, Nat.zero_le _, List.nil_prefix⟩
  done h := by cases h

theorem ClientInv.readChunk {c c' : Client} {m : Nat} (h : ClientInv file printed c m)
    (hpc : c.pc = .read) (hc : readChunk c = some c') : ClientInv file printed c' (m + 1) := by
  obtain ⟨rfl, hmax⟩ := readChunk_dgram (h.read hpc) h.rest h.chunkNo h.max hc
  exact
    { chunkNo := by simp
      max := by simpa using hmax
      rest := rfl
      read := fun h => by cases h
      trying := fun _ => ⟨m, rfl, h.read hpc, rfl, rfl⟩
      recvbuf := ⟨0, by decide, rfl, Nat.zero_le _, List.nil_prefix⟩
      done := fun h => by cases h }

theorem ClientInv.sendTry {c : Client} {m : Nat} (h : ClientInv file printed c m)
    (hpc : c.pc = .send) : ClientInv file printed (sendTry c) m :=
  { h with
    read := fun h => by cases h
    trying := fun _ => h.trying (.inl hpc)
    done := fun h => by cases h }

/-- After `sendAndConfirm` the client tries again, gives up, or has its chunk confirmed. -/
theorem ClientInv.confirm {c : Client} {m : Nat} (h : ClientInv file printed c m)
    (hpc : c.pc = .recv) : ClientInv file printed (confirm c) m := by
  obtain ⟨i, rfl, hi, hd, hs⟩ := h.trying (.inr hpc)
  unfold Transfer.confirm
  split
  · exact { h with
      read := fun h => by cases h
      trying := fun _ => ⟨i, rfl, hi, hd, hs⟩
      done := fun h => by cases h }
  · split
    · exact { h with
        read := fun h => by cases h
        trying := fun h => by rcases h with h | h <;> cases h
        done := fun h => by cases h }
    · rename_i h₁ h₂
      have hack : c.recvbuf.take 4 = beInt32 c.chunkNo := by
        by_contra hne
        rcases Nat.lt_or_ge 5 c.counter with h | h
        · exact h₂ ⟨hne, h⟩
        · exact h₁ ⟨hne, h⟩
      -- the number in `recvbuf` is the client's own
      have hconf : Confirmed file printed (i + 1) := by
        obtain ⟨k, hk, hb, hc⟩ := h.recvbuf
        rw [h.chunkNo, hb] at hack
        have := beInt32_inj (by omega) hk (by omega) h.max hack
        obtain rfl : k = i + 1 := by omega
        exact hc
      have hlast := payload_length hi
      have hle := @payload_length_le file i
      split
      · exact { h with
          read := fun _ => by omega
          trying := fun h => by rcases h with h | h <;> cases h
          done := fun h => by cases h }
      · exact { h with
          read := fun h => by cases h
          trying := fun h => by rcases h with h | h <;> cases h
          done := fun _ => by
            obtain rfl : i = lastChunk file := by omega
            exact hconf }

/-! ### The whole run -/

variable [DecidableEq A] {a : A} {s t : Net A}

/-- One step of the client, of the network or of the server, for a client at `a`; the label is
the turn of the server, if it is one.  The client gets nothing but the server's replies to it. -/
inductive Net.Step (a : A) : Net A → Option (Turned A) → Net A → Prop where
  | read {s : Net A} {c : Client} (hpc : s.client.pc = .read) (h : readChunk s.client = some c) :
      Step a s none { s with client := c }
  | send {s : Net A} (hpc : s.client.pc = .send) :
      Step a s none
        { s with client := sendTry s.client, toServer := s.toServer ++ [s.client.sendbuf] }
  | recv {s : Net A} (r : List UInt8) (hpc : s.client.pc = .recv) (hr : r ∈ s.toClient) :
      Step a s none
        { s with client := confirm { s.client with recvbuf := overwrite s.client.recvbuf 0 r } }
  | alarm {s : Net A} (hpc : s.client.pc = .recv) :
      Step a s none { s with client := confirm s.client }
  | deliver {s : Net A} {l : Turned A} {server : Server A} (hl : l.addr = a)
      (hd : l.dgram ∈ s.toServer) (h : Serves s.server l server) :
      Step a s (some l) { s with server := server, toClient := s.toClient ++ l.reply.toList }
  | other {s : Net A} {l : Turned A} {server : Server A} (hl : l.addr ≠ a)
      (h : Serves s.server l server) : Step a s (some l) { s with server := server }

/-- One step keeps the client, the network and the server in agreement about what is printed. -/
theorem Delivery.step (h₀ : 0 ∉ file) {l : Option (Turned A)}
    (hs : Delivery file a printed s) (h : Net.Step a s l t) :
    Delivery file a (printed ++ printedFor a l.toList) t := by
  obtain ⟨m, hc, hto⟩ := hs.client
  have hnil : printed ++ printedFor a (none : Option (Turned A)).toList = printed := by
    simp [printedFor]
  cases h with
  | read hpc h =>
      rw [hnil]
      refine { hs with client := ⟨m + 1, hc.readChunk hpc h, fun d hd => ?_⟩ }
      obtain ⟨i, hi, hd⟩ := hto d hd
      exact ⟨i, by omega, hd⟩
  | send hpc =>
      rw [hnil]
      obtain ⟨i, hm, hi, hbuf, -⟩ := hc.trying (.inl hpc)
      exact { hs with
        client := ⟨m, hc.sendTry hpc, forall_mem_snoc hto ⟨i, by omega, hi, hbuf⟩⟩ }
  | recv r hpc hr =>
      rw [hnil]
      have hc' : ClientInv file printed
          { s.client with recvbuf := overwrite s.client.recvbuf 0 r } m :=
        { hc with recvbuf := (hs.toClient r hr).overwrite _ }
      exact { hs with client := ⟨m, hc'.confirm hpc, hto⟩ }
  | alarm hpc =>
      rw [hnil]
      exact { hs with client := ⟨m, hc.confirm hpc, hto⟩ }
  | @deliver l server hl hd h =>
      subst hl
      obtain ⟨-, hu, -, ht, -, -⟩ := serve_spec hs.unique h.turn
      obtain ⟨i, him, hi, hdg⟩ := hto _ hd
      rw [hdg] at ht
      obtain ⟨hphase, hack⟩ := phase_deliver h₀ hi (by have := hc.max; omega) hs.phase ht
      rw [Option.toList_some, printedFor_self]
      refine ⟨hu, ⟨m, hc.mono _, hto⟩, fun r hr => ?_, hphase⟩
      rcases List.mem_append.mp hr with hr | hr
      · exact (hs.toClient r hr).mono _
      · exact hack r (Option.mem_toList.mp hr)
  | @other l server hl h =>
      obtain ⟨-, hu, hv, -⟩ := serve_spec hs.unique h.turn
      rw [Option.toList_some, printedFor_other hl, List.append_nil]
      exact ⟨hu, hs.client, hs.toClient, by rw [hv a (Ne.symm hl)]; exact hs.phase⟩

theorem delivery_run (h₀ : 0 ∉ file) {server : Server A}
    (hcon : ∀ i, (server.con i).free = true)
    {tr : List (Move (Net A) (Option (Turned A)))}
    (r : Run (Net.Step a) (Net.begin file server) tr s) :
    Delivery file a (printedFor a (turns tr)) s := by
  generalize hb : Net.begin file server = s₀ at r
  induction r with
  | refl =>
      subst hb
      exact
        { unique := unique_of_free hcon
          client := ⟨0, clientInv_begin file, fun d hd => by cases hd⟩
          toClient := fun r hr => by cases hr
          phase := .inl ⟨0, Nat.zero_le _, rfl, by rw [Net.begin, view_of_free hcon]; rfl⟩ }
  | snoc _ h ih =>
      rw [turns_snoc, printedFor_append]
      exact ih.step h₀ h

/-! ### What has been printed -/

/-- The payloads printed, one after another. -/
def texts (ps : List Printed) : List UInt8 := (ps.map Printed.text).flatten

theorem uptoLast_of_none {ps : List Printed} (h : ∀ p ∈ ps, p.lastPart = false) :
    uptoLast ps = ps := by
  have hf : (ps.find? fun p => p.lastPart) = none :=
    List.find?_eq_none.mpr fun p hp => by simp [h p hp]
  rw [uptoLast, hf, Option.toList_none, List.append_nil]
  exact List.takeWhile_eq_self_iff.mpr fun p hp => by simp [h p hp]

theorem uptoLast_of_last {ps qs : List Printed} {q : Printed}
    (h : ∀ p ∈ ps, p.lastPart = false) (hq : q.lastPart = true) :
    uptoLast (ps ++ q :: qs) = ps ++ [q] := by
  have hf : ((ps ++ q :: qs).find? fun p => p.lastPart) = some q := by
    rw [List.find?_append, List.find?_eq_none.mpr fun p hp => by simp [h p hp]]
    simp [hq]
  rw [uptoLast, hf, List.takeWhile_append_of_pos fun p hp => by simp [h p hp]]
  simp [hq]

theorem parts_take_notLast {k : Nat} (hk : k ≤ lastChunk file) :
    ∀ p ∈ (parts file).take k, p.lastPart = false := by
  intro p hp
  rw [parts, ← List.map_take, List.take_range] at hp
  obtain ⟨i, hi, rfl⟩ := List.mem_map.mp hp
  have := List.mem_range.mp hi
  simp [part]
  omega

theorem parts_eq :
    parts file = (parts file).take (lastChunk file) ++ [part file (lastChunk file)] := by
  rw [← parts_take_succ le_rfl, List.take_of_length_le (by rw [parts_length])]

theorem texts_take (k : Nat) : texts ((parts file).take k) <+: file := by
  rw [texts, parts, ← List.map_take, List.take_range, List.map_map]
  have h := flatten_chunks (maxBuf - offset) file (min k (lastChunk file + 1))
  change ((List.range _).map (payload file)).flatten <+: file
  rw [show payload file = chunk (maxBuf - offset) file from rfl, h]
  exact List.take_prefix ..

theorem texts_parts : texts (parts file) = file := by
  rw [texts, parts, List.map_map]
  exact flatten_chunks_all (by decide) file

/-- What a phase says about the first `Last Part`. -/
theorem Phase.uptoLast {v : Option Int} (h : Phase file printed v) :
    uptoLast printed <+: parts file ∧ texts (uptoLast printed) <+: file ∧
      ((∃ p ∈ printed, p.lastPart = true) → uptoLast printed = parts file) ∧
      (parts file <+: printed → uptoLast printed = parts file) := by
  rcases h with ⟨k, hk, rfl, -⟩ | hall
  · have hn := parts_take_notLast hk
    rw [uptoLast_of_none hn]
    refine ⟨List.take_prefix .., texts_take k, fun ⟨p, hp, hl⟩ => ?_, fun hall => ?_⟩
    · rw [hn p hp] at hl; cases hl
    · exact (List.take_prefix ..).eq_of_length_le hall.length_le
  · -- whatever is printed after the last chunk comes after the first `Last Part`
    have hu : Transfer.uptoLast printed = parts file := by
      obtain ⟨ps, rfl⟩ := hall
      rw [parts_eq, List.append_assoc]
      exact uptoLast_of_last (parts_take_notLast le_rfl) (by simp [part])
    rw [hu]
    exact ⟨List.prefix_rfl, texts_parts ▸ List.prefix_rfl, fun _ => rfl, fun _ => rfl⟩

/-- **The file is delivered.**  For a file without NUL and an address the server has not seen,
whatever the network does: up to the first `Last Part` the server prints for the address chunks
1, 2, 3, … of the file, none skipped, repeated or altered, and their payloads are a prefix of the
file; once `Last Part` is printed, or the client has ended without giving up, they are all chunks
and the whole file. -/
theorem file_delivered (h₀ : 0 ∉ file) {server : Server A}
    (hcon : ∀ i, (server.con i).free = true) {tr : List (Move (Net A) (Option (Turned A)))}
    (r : Run (Net.Step a) (Net.begin file server) tr s) :
    uptoLast (printedFor a (turns tr)) <+: parts file ∧
      texts (uptoLast (printedFor a (turns tr))) <+: file ∧
      ((∃ p ∈ printedFor a (turns tr), p.lastPart = true) →
        uptoLast (printedFor a (turns tr)) = parts file ∧
          texts (uptoLast (printedFor a (turns tr))) = file) ∧
      (s.client.pc = .done →
        uptoLast (printedFor a (turns tr)) = parts file ∧
          texts (uptoLast (printedFor a (turns tr))) = file) := by
  have hinv := delivery_run h₀ hcon r
  obtain ⟨h₁, h₂, h₃, h₄⟩ := hinv.phase.uptoLast
  refine ⟨h₁, h₂, fun hl => ?_, fun hd => ?_⟩
  · rw [h₃ hl]
    exact ⟨rfl, texts_parts⟩
  · obtain ⟨m, hc, -⟩ := hinv.client
    have hall : parts file <+: printedFor a (turns tr) := by
      simpa only [List.take_of_length_le (Nat.le_of_eq parts_length)] using (hc.done hd).2
    rw [h₄ hall]
    exact ⟨rfl, texts_parts⟩

/-! ### A copy, a lost reply and another client -/

/-- The turn of the server for the chunk that comes next. -/
theorem serves_chunk {s : Server A} {k : Nat} {i : Fin maxAddr} {con : Fin maxAddr → Connection A}
    {free : Bool} (h₀ : 0 ∉ file) (hmax : (k : Int) + 1 ≤ int32Max)
    (hf : findIndex a s.con = (some i, con)) (hk : (con i).chunkNo = k)
    (hfree : (if k = lastChunk file then true else (con i).free) = free) :
    Serves s ⟨a, dgram file k, some (part file k), some (dgram file k)⟩
      ⟨Function.update con i ⟨free, k + 1, (con i).addr⟩, receive s.buf (dgram file k)⟩ := by
  have hpart := printedOf_dgram h₀ hmax s.buf
  have hno : int32Be (receive s.buf (dgram file k)) = k + 1 := congrArg Printed.chunkNo hpart
  have htext : cString ((receive s.buf (dgram file k)).drop 8) = payload file k :=
    congrArg Printed.text hpart
  have hlast : decide (int32Be ((receive s.buf (dgram file k)).drop 4) ≠ 0)
      = decide (k = lastChunk file) := congrArg Printed.lastPart hpart
  have htake : (receive s.buf (dgram file k)).take maxBuf = dgram file k :=
    List.take_left' dgram_length
  refine ⟨dgram_length.le, ?_⟩
  unfold serve
  simp only [hf, hno, hk]
  rw [if_neg (by omega), if_neg (by omega), if_pos trivial]
  simp only [answer, htext, htake, part, decide_eq_decide.mp hlast, hfree]

/-- The turn of the server for a copy of an earlier chunk. -/
theorem serves_copy {s : Server A} {k : Nat} {n : Int} {i : Fin maxAddr}
    {con : Fin maxAddr → Connection A} (h₀ : 0 ∉ file) (hf : findIndex a s.con = (some i, con))
    (hk : (con i).chunkNo = n) (hlt : (k : Int) < n) (hmax : n < int32Max) :
    Serves s ⟨a, dgram file k, none, some (dgram file k)⟩
      ⟨con, receive s.buf (dgram file k)⟩ := by
  have hno : int32Be (receive s.buf (dgram file k)) = k + 1 :=
    congrArg Printed.chunkNo (printedOf_dgram h₀ (by omega) s.buf)
  have htake : (receive s.buf (dgram file k)).take maxBuf = dgram file k :=
    List.take_left' dgram_length
  refine ⟨dgram_length.le, ?_⟩
  unfold serve
  simp only [hf, hno, hk]
  rw [if_neg (by omega), if_neg (by omega), if_neg (by omega)]
  simp only [answer, htake]

/-- The client with the chunk `i` of the file in `sendbuf`. -/
def withChunk (file : List UInt8) (pc : Pc) (i : Nat) (recvbuf : List UInt8) (counter : Nat) :
    Client :=
  ⟨pc, file.drop ((maxBuf - offset) * (i + 1)), dgram file i, recvbuf, i + 1,
    (payload file i).length, counter⟩

/-- A turn of the outer loop of the client, with `i` chunks read. -/
theorem readChunk_eq {c : Client} {i : Nat} (hi : i ≤ lastChunk file)
    (hf : c.file = file.drop ((maxBuf - offset) * i)) (hn : c.chunkNo = i)
    (hmax : (i : Int) < int32Max) :
    readChunk c = some (withChunk file .send i (List.replicate maxBuf 0) 0) := by
  cases h : readChunk c with
  | none =>
      unfold readChunk at h
      dsimp only at h
      rw [if_neg (by omega)] at h
      cases h
  | some c' => exact congrArg some (readChunk_dgram hi hf hn hmax.le h).1

/-- No reply yet: another try. -/
theorem confirm_again {i n : Nat} {buf : List UInt8} (h : buf.take 4 ≠ beInt32 (i + 1))
    (hn : n ≤ 5) : confirm (withChunk file .recv i buf n) = withChunk file .send i buf n :=
  if_pos ⟨h, hn⟩

/-- The reply to a chunk that is not the last. -/
theorem confirm_read {i n : Nat} {buf : List UInt8} (h : buf.take 4 = beInt32 (i + 1))
    (hi : i < lastChunk file) :
    confirm (withChunk file .recv i buf n) = withChunk file .read i buf n := by
  have hsize : (payload file i).length = maxBuf - offset :=
    Nat.le_antisymm payload_length_le
      (Nat.le_of_not_lt fun hlt => hi.ne ((payload_length hi.le).mp hlt))
  unfold confirm
  rw [if_neg fun hne => hne.1 h, if_neg fun hne => hne.1 h]
  exact if_pos hsize

/-- The reply to the last chunk. -/
theorem confirm_done {n : Nat} {buf : List UInt8}
    (h : buf.take 4 = beInt32 (lastChunk file + 1)) :
    confirm (withChunk file .recv (lastChunk file) buf n)
      = withChunk file .done (lastChunk file) buf n := by
  unfold confirm
  rw [if_neg fun hne => hne.1 h, if_neg fun hne => hne.1 h]
  exact if_neg ((payload_length le_rfl).mpr rfl).ne

/-- `recv` of a reply that is a copy of the chunk. -/
theorem overwrite_dgram {buf : List UInt8} (i : Nat) :
    (overwrite buf 0 (dgram file i)).take 4 = beInt32 (i + 1) := rfl

theorem Net.Step.alarm_eq {c : Client} (hpc : s.client.pc = .recv) (h : confirm s.client = c) :
    Net.Step a s none { s with client := c } :=
  h ▸ .alarm hpc

theorem Net.Step.recv_eq {c : Client} (r : List UInt8) (hpc : s.client.pc = .recv)
    (hr : r ∈ s.toClient)
    (h : confirm { s.client with recvbuf := overwrite s.client.recvbuf 0 r } = c) :
    Net.Step a s none { s with client := c } :=
  h ▸ .recv r hpc hr

/-- A file of two chunks.  The reply to the first is late, so that a copy is sent, and another
client sends a file of its own in between. -/
theorem copied_run (h₀ : 0 ∉ file) (hlast : lastChunk file = 1) :
    ∃ (tr : List (Move (Net Bool) (Option (Turned Bool)))) (s : Net Bool),
      Run (Net.Step false) (Net.begin file freshPair) tr s ∧
        (turns tr).map (fun l => (l.addr, l.dgram, l.printed.isSome)) =
          [(true, dgram [98] 0, true), (false, dgram file 0, true), (false, dgram file 0, false),
            (false, dgram file 1, true)] ∧ s.client.pc = .done := by
  let zeros := List.replicate maxBuf (0 : UInt8)
  let buf₁ := overwrite zeros 0 (dgram file 0)
  let buf₂ := overwrite zeros 0 (dgram file 1)
  have hread₁ : readChunk (doClient file) = some (withChunk file .send 0 zeros 0) :=
    readChunk_eq (Nat.zero_le _) rfl rfl (by decide)
  have hagain : confirm (withChunk file .recv 0 zeros 1) = withChunk file .send 0 zeros 1 :=
    confirm_again (by decide) (by decide)
  have hack₁ : confirm (withChunk file .recv 0 buf₁ 2) = withChunk file .read 0 buf₁ 2 :=
    confirm_read (overwrite_dgram 0) (by omega)
  have hread₂ : readChunk (withChunk file .read 0 buf₁ 2) = some (withChunk file .send 1 zeros 0) :=
    readChunk_eq hlast.ge rfl rfl (by decide)
  have hack₂ : confirm (withChunk file .recv 1 buf₂ 1) = withChunk file .done 1 buf₂ 1 := by
    rw [← hlast]
    exact confirm_done (by rw [hlast]; exact overwrite_dgram 1)
  -- the other client's file, then the first chunk
  have h₁ : Serves freshPair ⟨true, dgram [98] 0, some (part [98] 0), some (dgram [98] 0)⟩ _ :=
    serves_chunk (by decide) (by decide) rfl rfl rfl
  have r₁ := ((Run.one (Net.Step.read (a := false) (s := Net.begin file freshPair) rfl hread₁)).snoc
    (.send rfl)).snoc (.other (by decide) h₁)
  have r₂ := r₁.snoc (.deliver rfl (List.mem_singleton.mpr rfl)
    (serves_chunk (k := 0) h₀ (by decide) rfl rfl (if_neg (by omega))))
  -- no reply yet
  have r₃ := (r₂.snoc (.alarm_eq rfl hagain)).snoc (.send rfl)
  have r₄ := r₃.snoc (.deliver rfl List.mem_cons_self
    (serves_copy (k := 0) (n := 1) h₀ rfl rfl (by decide) (by decide)))
  have r₅ := (r₄.snoc (.recv_eq (dgram file 0) rfl List.mem_cons_self hack₁)).snoc
    (.read rfl hread₂)
  have r₆ := (r₅.snoc (.send rfl)).snoc (.deliver rfl (by simp [withChunk])
    (serves_chunk (k := 1) h₀ (by decide) rfl rfl (if_pos hlast.symm)))
  have r₇ := r₆.snoc (.recv_eq (dgram file 1) rfl (by simp) hack₂)
  exact ⟨_, _, r₇, rfl, rfl⟩

/-- A file of two chunks, the second of one byte. -/
def twoChunks : List UInt8 := List.replicate 569 97

theorem lastChunk_twoChunks : lastChunk twoChunks = 1 := by
  rw [lastChunk, twoChunks, List.length_replicate]
  rfl

theorem zero_notMem_twoChunks : 0 ∉ twoChunks := fun h => by
  cases List.eq_of_mem_replicate h

/-- The file is delivered over a late reply, a copy and another client's file. -/
theorem file_delivered_copied :
    ∃ (tr : List (Move (Net Bool) (Option (Turned Bool)))) (s : Net Bool),
      Run (Net.Step false) (Net.begin twoChunks freshPair) tr s ∧
        (turns tr).map (fun l => (l.addr, l.dgram, l.printed.isSome)) =
          [(true, dgram [98] 0, true), (false, dgram twoChunks 0, true),
            (false, dgram twoChunks 0, false), (false, dgram twoChunks 1, true)] ∧
        s.client.pc = .done ∧ texts (uptoLast (printedFor false (turns tr))) = twoChunks := by
  obtain ⟨tr, s, r, hturns, hdone⟩ := copied_run zero_notMem_twoChunks lastChunk_twoChunks
  exact ⟨tr, s, r, hturns, hdone,
    ((file_delivered zero_notMem_twoChunks (fun _ => rfl) r).2.2.2 hdone).2⟩

end Sop2.Transfer
