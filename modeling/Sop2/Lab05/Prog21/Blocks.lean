import Mathlib.Logic.Function.Basic
import Sop2.Support.Bytes
import Sop2.Support.Runs

/-!
# Lab05 — prog21 — the blocks in the fifo

`lab05/prog21_c.c` and `lab05/prog21b_s.c`.  A client cuts its file into blocks of `PIPE_BUF` bytes,
its pid in front and zeros behind what is left of the file (`write_to_fifo`); the server reads as
many bytes at a time and prints the letters and digits among them under the pid
(`read_from_fifo`).

A turn of either loop is one step: a write of `PIPE_BUF` bytes is atomic.  A read gets what is
there, up to `PIPE_BUF` bytes; that it gets whole blocks is a consequence.

Between the last read of the server, which returns 0, and `close` a client can still open the fifo
and write to it; then nobody reads what it writes, and after `close` a write kills it.

* `Account`: the invariant.  What was printed of a client, what is in the fifo, and what it has not
  read of its file are together the letters and digits of the file.
* `transfer_law`: when the server has met the end of the file, it has printed these of every client
  that opened the fifo before, and nothing else.
* `late_client_lost`: of a client that opens the fifo after it nothing is printed.
-/

namespace Sop2.Prog21
open Support

/-- `PIPE_BUF`. -/
def pipeBuf : Nat := 4096

/-- `MSG_SIZE`; a `pid_t` has four bytes. -/
def msgSize : Nat := pipeBuf - 4

/-- A `pid_t` as it lies in memory. -/
def pidBytes (pid : Int) : List UInt8 := (beInt32 pid).reverse

/-- `*((pid_t *)buffer)`. -/
def readPid (buffer : List UInt8) : Int := int32Be (buffer.take 4).reverse

/-- A decimal digit or an ASCII letter. -/
def isalnum (c : UInt8) : Bool :=
  (48 ≤ c && c ≤ 57) || (65 ≤ c && c ≤ 90) || (97 ≤ c && c ≤ 122)

/-- What a client writes of the `count` bytes it has read. -/
def block (pid : Int) (bytes : List UInt8) : List UInt8 :=
  pidBytes pid ++ (bytes ++ List.replicate (msgSize - bytes.length) 0)

/-- What the server prints of its buffer: the pid and the text under it. -/
def printBuffer (buffer : List UInt8) : Int × List UInt8 :=
  (readPid buffer, ((buffer.take pipeBuf).drop 4).filter isalnum)

/-- A client, by its pid and the file it is to send. -/
structure Client where
  pid : Int
  file : List UInt8

/-- Where a client is; `writing rest` with `rest` of its file not read, `killed` by `SIGPIPE`. -/
inductive Place where
  | before
  | writing (rest : List UInt8)
  | closed
  | killed

inductive Server where
  | opening
  | reading
  /-- `read` has returned 0; before `close`. -/
  | ended
  | done

/-- The server, when a client opens the fifo: the first does it together with the server. -/
def Server.joined : Server → Server
  | .opening => .reading
  | q => q

/-- The server does not read any more. -/
def Server.over : Server → Bool
  | .ended | .done => true
  | _ => false

variable {ι : Type*} [DecidableEq ι]

/-- The clients, the fifo and the server. -/
structure State (ι : Type*) where
  place : ι → Place
  fifo : List UInt8
  server : Server
  buffer : List UInt8
  printed : List (Int × List UInt8)

/-- Nobody has opened the fifo; `buffer` holds anything. -/
def begin (buffer : List UInt8) : State ι := ⟨fun _ => .before, [], .opening, buffer, []⟩

/-- A turn of the loop of `write_to_fifo`, for a client at `rest` of its file. -/
def writeToFifo (client : Client) (fifo rest : List UInt8) : List UInt8 × Place :=
  let bytes := rest.take msgSize
  let fifo := if bytes.length > 0 then fifo ++ block client.pid bytes else fifo
  (fifo, if bytes.length = msgSize then .writing (rest.drop msgSize) else .closed)

inductive Label (ι : Type*) where
  | opens (i : ι)
  | writes (i : ι)
  | reads
  | ends
  | closes

/-- One step of a client or of the server. -/
inductive Step (client : ι → Client) : State ι → Label ι → State ι → Prop where
  | opens {s : State ι} (i : ι) (h : s.place i = .before) (hs : s.server ≠ .done) :
      Step client s (.opens i)
        { s with
          place := Function.update s.place i (.writing (client i).file)
          server := s.server.joined }
  | writes {s : State ι} (i : ι) (rest : List UInt8) (h : s.place i = .writing rest)
      (hs : s.server ≠ .done ∨ rest = []) :
      Step client s (.writes i)
        { s with
          place := Function.update s.place i (writeToFifo (client i) s.fifo rest).2
          fifo := (writeToFifo (client i) s.fifo rest).1 }
  | killed {s : State ι} (i : ι) (rest : List UInt8) (h : s.place i = .writing rest)
      (hs : s.server = .done) (hrest : rest ≠ []) :
      Step client s (.writes i) { s with place := Function.update s.place i .killed }
  | reads {s : State ι} (h : s.server = .reading) (hf : s.fifo ≠ []) :
      Step client s .reads
        { s with
          fifo := s.fifo.drop pipeBuf
          buffer := overwrite s.buffer 0 (s.fifo.take pipeBuf)
          printed := s.printed ++ [printBuffer (overwrite s.buffer 0 (s.fifo.take pipeBuf))] }
  | ends {s : State ι} (h : s.server = .reading) (hf : s.fifo = [])
      (hw : ∀ i rest, s.place i ≠ .writing rest) :
      Step client s .ends { s with server := .ended }
  | closes {s : State ι} (h : s.server = .ended) :
      Step client s .closes { s with fifo := [], server := .done }

/-- The client opened the fifo before the last read of the server. -/
def InTime (i : ι) (tr : List (Move (State ι) (Label ι))) : Prop :=
  ∃ m ∈ tr, m.label = .opens i ∧ m.before.server.over = false

/-- What was printed under the header of `pid`, in order. -/
def underPid (pid : Int) (printed : List (Int × List UInt8)) : List UInt8 :=
  printed.flatMap fun e => if e.1 = pid then e.2 else []

/-! ### One block -/

theorem pidBytes_length (pid : Int) : (pidBytes pid).length = 4 := rfl

theorem block_length {bytes : List UInt8} (h : bytes.length ≤ msgSize) (pid : Int) :
    (block pid bytes).length = pipeBuf := by
  have : msgSize + 4 = pipeBuf := by decide
  simp only [block, List.length_append, pidBytes_length, List.length_replicate]
  omega

theorem readPid_block {pid : Int} (h₀ : 0 ≤ pid) (h : pid ≤ int32Max) (bytes : List UInt8) :
    readPid (block pid bytes) = pid := by
  have htake : (block pid bytes).take 4 = pidBytes pid := List.take_left' (pidBytes_length pid)
  rw [readPid, htake, pidBytes, List.reverse_reverse]
  simpa using int32Be_beInt32 h₀ h []

/-- **A block.**  The server prints the pid of the client and the letters and digits of the bytes;
there are none among the zeros. -/
theorem printBuffer_block {pid : Int} (h₀ : 0 ≤ pid) (h : pid ≤ int32Max) {bytes : List UInt8}
    (hb : bytes.length ≤ msgSize) :
    printBuffer (block pid bytes) = (pid, bytes.filter isalnum) := by
  have hdrop : (block pid bytes).drop 4
      = bytes ++ List.replicate (msgSize - bytes.length) 0 := List.drop_left' (pidBytes_length pid)
  have hzeros : (List.replicate (msgSize - bytes.length) (0 : UInt8)).filter isalnum = [] :=
    List.filter_replicate_of_neg (by decide)
  rw [printBuffer, readPid_block h₀ h, List.take_of_length_le (block_length hb pid).le, hdrop,
    List.filter_append, hzeros, List.append_nil]

/-- **A turn of a client.**  It writes a block of what it has read, or has nothing to write; and it
goes on unless it has come to the end of its file. -/
theorem writeToFifo_eq (client : Client) (fifo rest : List UInt8) :
    ∃ place : Place, place ≠ .before ∧
      (place = .writing (rest.drop msgSize) ∨ place = .closed ∧ rest.drop msgSize = []) ∧
      writeToFifo client fifo rest =
        (if rest = [] then fifo else fifo ++ block client.pid (rest.take msgSize), place) := by
  have hpos : 0 < msgSize := by decide
  have hfifo : ((rest.take msgSize).length > 0) ↔ rest ≠ [] := by
    rw [List.length_take, ← List.length_pos_iff]
    omega
  unfold writeToFifo
  simp only [hfifo, ite_not]
  by_cases hlen : (rest.take msgSize).length = msgSize
  · exact ⟨.writing (rest.drop msgSize), nofun, .inl rfl, by rw [if_pos hlen]⟩
  · have hend : rest.drop msgSize = [] := by
      rw [List.length_take] at hlen
      exact List.drop_eq_nil_of_le (by omega)
    exact ⟨.closed, nofun, .inr ⟨rfl, hend⟩, by rw [if_neg hlen]⟩

/-! ### What becomes of a file -/

/-- What a client writes at a time. -/
structure Chunk (ι : Type*) where
  author : ι
  bytes : List UInt8

variable {client : ι → Client}

/-- The bytes in the fifo that the blocks of `chunks` make. -/
def fifoOf (client : ι → Client) (chunks : List (Chunk ι)) : List UInt8 :=
  chunks.flatMap fun b => block (client b.author).pid b.bytes

/-- The letters and digits of the client `i` among `chunks`. -/
def waiting (i : ι) (chunks : List (Chunk ι)) : List UInt8 :=
  chunks.flatMap fun b => if b.author = i then b.bytes.filter isalnum else []

/-- What the client is to send, once it has opened the fifo. -/
def Place.due (file : List UInt8) : Place → List UInt8
  | .before => []
  | _ => file

/-- What the client has not read of its file. -/
def Place.rest : Place → List UInt8
  | .writing rest => rest
  | _ => []

/-- What was printed, the chunks in the fifo and the rest of the file, for every client. -/
structure Account (client : ι → Client) (s : State ι) (chunks : List (Chunk ι)) : Prop where
  fifo : s.fifo = fifoOf client chunks
  length : ∀ b ∈ chunks, b.bytes.length ≤ msgSize ∧ s.place b.author ≠ .before
  headers : ∀ e ∈ s.printed, ∃ i, s.place i ≠ .before ∧ e.1 = (client i).pid
  text : ∀ i, underPid (client i).pid s.printed ++
    (waiting i chunks ++ (s.place i).rest.filter isalnum)
      = ((s.place i).due (client i).file).filter isalnum
  buffer : s.buffer.length = pipeBuf

/-- The pids are those of different processes. -/
structure Pids (client : ι → Client) : Prop where
  nonneg : ∀ i, 0 ≤ (client i).pid
  le : ∀ i, (client i).pid ≤ int32Max
  inj : ∀ i j, (client i).pid = (client j).pid → i = j

@[simp] theorem underPid_snoc (pid : Int) (printed : List (Int × List UInt8))
    (e : Int × List UInt8) :
    underPid pid (printed ++ [e]) = underPid pid printed ++ if e.1 = pid then e.2 else [] := by
  simp [underPid]

@[simp] theorem waiting_snoc (i : ι) (chunks : List (Chunk ι)) (b : Chunk ι) :
    waiting i (chunks ++ [b])
      = waiting i chunks ++ if b.author = i then b.bytes.filter isalnum else [] := by
  simp [waiting]

omit [DecidableEq ι] in
@[simp] theorem fifoOf_snoc (chunks : List (Chunk ι)) (b : Chunk ι) :
    fifoOf client (chunks ++ [b]) = fifoOf client chunks ++ block (client b.author).pid b.bytes := by
  simp [fifoOf]

omit [DecidableEq ι] in
/-- **A read.**  What the server reads of a fifo that is not empty is the first block. -/
theorem take_fifoOf {chunks : List (Chunk ι)} (hl : ∀ b ∈ chunks, b.bytes.length ≤ msgSize)
    (h : fifoOf client chunks ≠ []) : ∃ b rest, chunks = b :: rest ∧
      (fifoOf client chunks).take pipeBuf = block (client b.author).pid b.bytes ∧
      (fifoOf client chunks).drop pipeBuf = fifoOf client rest := by
  cases chunks with
  | nil => exact (h rfl).elim
  | cons b rest =>
      have hlen := block_length (hl b (by simp)) (client b.author).pid
      exact ⟨b, rest, rfl, List.take_left' hlen, List.drop_left' hlen⟩

variable {s t : State ι} {l : Label ι} {chunks : List (Chunk ι)}

theorem account_begin {buffer : List UInt8} (h : buffer.length = pipeBuf) :
    Account client (begin buffer) [] where
  fifo := rfl
  length := nofun
  headers := nofun
  text _ := rfl
  buffer := h

theorem Account.opens (h : Account client s chunks) {i : ι} (hi : s.place i = .before) :
    Account client
      { s with
        place := Function.update s.place i (.writing (client i).file)
        server := s.server.joined } chunks := by
  have hopen : ∀ j, s.place j ≠ .before →
      Function.update s.place i (.writing (client i).file) j ≠ .before := fun j hj => by
    have hne : j ≠ i := fun e => hj (e ▸ hi)
    rwa [Function.update_of_ne hne]
  refine { h with
    length := fun b hb => ⟨(h.length b hb).1, hopen b.author (h.length b hb).2⟩
    headers := fun e he => (h.headers e he).imp fun j hj => ⟨hopen j hj.1, hj.2⟩
    text := fun j => ?_ }
  by_cases hji : j = i
  · subst hji
    have ht := h.text j
    rw [hi] at ht
    obtain ⟨hu, hw⟩ := List.append_eq_nil_iff.mp (show _ ++ _ = [] from ht)
    obtain ⟨hw, -⟩ := List.append_eq_nil_iff.mp hw
    simp only [Function.update_self, hu, hw]
    rfl
  · simpa only [Function.update_of_ne hji] using h.text j

theorem Account.writes (h : Account client s chunks) {i : ι} {rest : List UInt8}
    (hi : s.place i = .writing rest) : ∃ chunks', Account client
      { s with
        place := Function.update s.place i (writeToFifo (client i) s.fifo rest).2
        fifo := (writeToFifo (client i) s.fifo rest).1 } chunks' := by
  obtain ⟨place, hopen, hgoes, heq⟩ := writeToFifo_eq (client i) s.fifo rest
  have hrest : place.rest = rest.drop msgSize := by
    rcases hgoes with rfl | ⟨rfl, e⟩
    · rfl
    · exact e.symm
  have hdue : place.due (client i).file = (client i).file := by
    rcases hgoes with rfl | ⟨rfl, e⟩ <;> rfl
  have hstill : ∀ j, s.place j ≠ .before → Function.update s.place i place j ≠ .before :=
    fun j hj => by
      by_cases hji : j = i
      · subst hji
        rwa [Function.update_self]
      · rwa [Function.update_of_ne hji]
  have hmine := h.text i
  rw [hi] at hmine
  -- the chunk written is the next of the client's own, and no chunk of the others
  have htext : ∀ j, underPid (client j).pid s.printed ++ (waiting j chunks ++
      ((if i = j then (rest.take msgSize).filter isalnum else []) ++
        (Function.update s.place i place j).rest.filter isalnum))
        = ((Function.update s.place i place j).due (client j).file).filter isalnum := by
    intro j
    by_cases hji : j = i
    · subst hji
      rw [if_pos rfl, Function.update_self, hrest, hdue, ← List.filter_append, List.take_append_drop]
      exact hmine
    · rw [if_neg fun e => hji e.symm, Function.update_of_ne hji, List.nil_append]
      exact h.text j
  rw [heq]
  by_cases hnil : rest = []
  · subst hnil
    refine ⟨chunks, { h with
      length := fun b hb => ⟨(h.length b hb).1, hstill b.author (h.length b hb).2⟩
      headers := fun e he => (h.headers e he).imp fun j hj => ⟨hstill j hj.1, hj.2⟩
      text := fun j => by simpa using htext j
      fifo := by simpa using h.fifo }⟩
  · refine ⟨chunks ++ [⟨i, rest.take msgSize⟩], { h with
      length := forall_mem_snoc
        (fun b hb => ⟨(h.length b hb).1, hstill b.author (h.length b hb).2⟩)
        ⟨List.length_take_le .., ?_⟩
      headers := fun e he => (h.headers e he).imp fun j hj => ⟨hstill j hj.1, hj.2⟩
      text := fun j => by simpa only [waiting_snoc, List.append_assoc] using htext j
      fifo := by simp only [if_neg hnil, fifoOf_snoc, h.fifo] }⟩
    dsimp only
    rwa [Function.update_self]

theorem Account.reads (hpid : Pids client) (h : Account client s chunks) (hf : s.fifo ≠ []) :
    ∃ chunks', Account client
      { s with
        fifo := s.fifo.drop pipeBuf
        buffer := overwrite s.buffer 0 (s.fifo.take pipeBuf)
        printed := s.printed ++ [printBuffer (overwrite s.buffer 0 (s.fifo.take pipeBuf))] }
      chunks' := by
  obtain ⟨b, rest, rfl, htake, hdrop⟩ :=
    take_fifoOf (fun b hb => (h.length b hb).1) (h.fifo ▸ hf)
  obtain ⟨hlen, hopen⟩ := h.length b (by simp)
  have hblock := block_length hlen (client b.author).pid
  have hbuffer : overwrite s.buffer 0 (block (client b.author).pid b.bytes)
      = block (client b.author).pid b.bytes := by
    rw [overwrite, hblock, List.drop_of_length_le (by rw [h.buffer, Nat.zero_add])]
    simp
  rw [h.fifo, htake, hdrop, hbuffer,
    printBuffer_block (hpid.nonneg b.author) (hpid.le b.author) hlen]
  refine ⟨rest, { h with
    fifo := rfl
    length := fun c hc => h.length c (List.mem_cons_of_mem b hc)
    headers := forall_mem_snoc h.headers ⟨b.author, hopen, rfl⟩
    text := fun i => ?_
    buffer := hblock }⟩
  have htext := h.text i
  have hcons : waiting i (b :: rest)
      = (if b.author = i then b.bytes.filter isalnum else []) ++ waiting i rest := rfl
  have hauthor : (client b.author).pid = (client i).pid ↔ b.author = i :=
    ⟨hpid.inj b.author i, fun e => e ▸ rfl⟩
  simp only [underPid_snoc, hauthor]
  simpa only [hcons, List.append_assoc] using htext

/-- What is printed of a client is the beginning of what is due. -/
theorem Account.starts (h : Account client s chunks) (i : ι) :
    underPid (client i).pid s.printed <+: (client i).file.filter isalnum := by
  have ht := h.text i
  cases hi : s.place i with
  | before =>
      rw [hi] at ht
      rw [(List.append_eq_nil_iff.mp (show _ ++ _ = [] from ht)).1]
      exact List.nil_prefix
  | writing rest | closed | killed =>
      rw [hi] at ht
      exact ⟨_, ht⟩

/-- **The end of the file.**  When the fifo is empty and nobody has it open, everything that is due
is printed. -/
theorem Account.whole (h : Account client s chunks) (hf : s.fifo = [])
    (hw : ∀ i rest, s.place i ≠ .writing rest) {i : ι} (hi : s.place i ≠ .before) :
    underPid (client i).pid s.printed = (client i).file.filter isalnum := by
  have hempty : chunks = [] := by
    by_contra hne
    obtain ⟨b, rest, rfl⟩ := List.exists_cons_of_ne_nil hne
    have hlen := congrArg List.length (h.fifo.symm.trans hf)
    have hblock := block_length (h.length b (by simp)).1 (client b.author).pid
    have hpos : 0 < pipeBuf := by decide
    simp only [fifoOf, List.flatMap_cons, List.length_append, List.length_nil] at hlen
    omega
  subst hempty
  have ht := h.text i
  cases hi' : s.place i with
  | before => exact (hi hi').elim
  | writing rest => exact (hw i rest hi').elim
  | closed | killed =>
      rw [hi'] at ht
      simpa [waiting, Place.rest, Place.due] using ht

/-! ### The whole run -/

variable {tr : List (Move (State ι) (Label ι))} {buffer : List UInt8}

/-- Who has opened the fifo stays so. -/
theorem Step.opened (h : Step client s l t) {i : ι} (hi : s.place i ≠ .before) :
    t.place i ≠ .before := by
  have hset : ∀ (j : ι) (place : Place), place ≠ .before →
      Function.update s.place j place i ≠ .before := fun j place hplace => by
    by_cases hij : i = j
    · subst hij
      rwa [Function.update_self]
    · rwa [Function.update_of_ne hij]
  cases h with
  | opens j hj hs => exact hset j _ nofun
  | writes j rest hj hs =>
      obtain ⟨place, hplace, -, heq⟩ := writeToFifo_eq (client j) s.fifo rest
      rw [heq]
      exact hset j _ hplace
  | killed j rest hj hs hrest => exact hset j _ nofun
  | reads hs hf | ends hs hf hw | closes hs => exact hi

/-- **What is kept in a run.**  The account is kept until the server closes the fifo; after the last
read nothing is printed, and what is due to the clients that were in time has been. -/
structure Kept (client : ι → Client) (tr : List (Move (State ι) (Label ι))) (s : State ι) :
    Prop where
  headers : ∀ e ∈ s.printed, ∃ i, s.place i ≠ .before ∧ e.1 = (client i).pid
  prefixes : ∀ i, underPid (client i).pid s.printed <+: (client i).file.filter isalnum
  account : s.server ≠ .done → ∃ chunks, Account client s chunks
  opened : ∀ i, InTime i tr → s.place i ≠ .before
  whole : s.server.over = true → ∀ i, InTime i tr →
    underPid (client i).pid s.printed = (client i).file.filter isalnum

theorem kept_begin (h : buffer.length = pipeBuf) : Kept client [] (begin buffer) where
  headers := nofun
  prefixes _ := List.nil_prefix
  account _ := ⟨[], account_begin h⟩
  opened _ hi := by
    obtain ⟨m, hm, -⟩ := hi
    cases hm
  whole := nofun

/-- A step, of an account that is kept. -/
theorem Account.step (hpid : Pids client) (h : Account client s chunks) (hs : Step client s l t)
    (ht : t.server ≠ .done) : ∃ chunks', Account client t chunks' := by
  cases hs with
  | opens i hi hs => exact ⟨chunks, h.opens hi⟩
  | writes i rest hi hs => exact h.writes hi
  | killed i rest hi hs hrest => exact absurd hs ht
  | reads hs hf => exact h.reads hpid hf
  | ends hs hf hw => exact ⟨chunks, { h with }⟩
  | closes hs => exact absurd rfl ht

/-- After the last read nothing is printed. -/
theorem Step.over (h : Step client s l t) (ht : t.server.over = true) :
    t.printed = s.printed ∧ (s.server.over = true ∨ l = .ends ∧ s.server = .reading ∧
      s.fifo = [] ∧ ∀ i rest, s.place i ≠ .writing rest) := by
  cases h with
  | opens i hi hs =>
      refine ⟨rfl, .inl ?_⟩
      dsimp only at ht
      cases hserver : s.server with
      | opening => rw [hserver] at ht; cases ht
      | reading => rw [hserver] at ht; cases ht
      | ended | done => rfl
  | writes i rest hi hs | killed i rest hi hs hrest => exact ⟨rfl, .inl ht⟩
  | reads hs hf =>
      dsimp only at ht
      rw [hs] at ht
      cases ht
  | ends hs hf hw => exact ⟨rfl, .inr ⟨rfl, hs, hf, hw⟩⟩
  | closes hs => exact ⟨rfl, .inl (by rw [hs]; rfl)⟩

/-- Until the fifo is closed, the server has not closed it before. -/
theorem Step.not_done (h : Step client s l t) (ht : t.server ≠ .done) : s.server ≠ .done := by
  cases h with
  | opens i hi hs => exact hs
  | writes i rest hi hs | killed i rest hi hs hrest => exact ht
  | reads hs hf => exact ht
  | ends hs hf hw | closes hs => rw [hs]; nofun

omit [DecidableEq ι] in
theorem InTime.of_snoc {m : Move (State ι) (Label ι)} {i : ι} (h : InTime i (tr ++ [m])) :
    InTime i tr ∨ m.label = .opens i ∧ m.before.server.over = false := by
  obtain ⟨m', hm, htime⟩ := h
  rcases List.mem_append.mp hm with hm | hm
  · exact .inl ⟨m', hm, htime⟩
  · cases List.mem_singleton.mp hm
    exact .inr htime

theorem Kept.step (hpid : Pids client) (h : Kept client tr s) (hs : Step client s l t) :
    Kept client (tr ++ [⟨s, l, t⟩]) t := by
  have hopened : ∀ i, InTime i (tr ++ [⟨s, l, t⟩]) → t.place i ≠ .before := by
    intro i hi
    rcases hi.of_snoc with hi | ⟨hlabel, -⟩
    · exact hs.opened (h.opened i hi)
    · cases hs with
      | opens j hj hs =>
          cases hlabel
          dsimp only
          rw [Function.update_self]
          nofun
      | writes j rest hj hs | killed j rest hj hs hrest | reads hs hf | ends hs hf hw
      | closes hs => cases hlabel
  by_cases ht : t.server.over = true
  · obtain ⟨hprinted, hbefore⟩ := hs.over ht
    refine ⟨?_, ?_, fun hd => ?_, hopened, fun _ i hi => ?_⟩
    · rw [hprinted]
      exact fun e he => (h.headers e he).imp fun i hi => ⟨hs.opened hi.1, hi.2⟩
    · rw [hprinted]
      exact h.prefixes
    · obtain ⟨chunks, hA⟩ := h.account (hs.not_done hd)
      exact hA.step hpid hs hd
    · rw [hprinted]
      rcases hbefore with hover | ⟨rfl, hreading, hf, hw⟩
      · refine h.whole hover i (hi.of_snoc.resolve_right fun ⟨_, htime⟩ => ?_)
        rw [hover] at htime
        cases htime
      · -- the last read: the server meets the end of the file
        obtain ⟨chunks, hA⟩ := h.account (by rw [hreading]; nofun)
        exact hA.whole hf hw (h.opened i (hi.of_snoc.resolve_right fun ⟨hlabel, _⟩ => by
          cases hlabel))
  · have hd : t.server ≠ .done := fun hd => ht (by rw [hd]; rfl)
    obtain ⟨chunks, hA⟩ := h.account (hs.not_done hd)
    obtain ⟨chunks', hA'⟩ := hA.step hpid hs hd
    exact ⟨hA'.headers, hA'.starts, fun _ => ⟨chunks', hA'⟩, hopened, fun hover => absurd hover ht⟩

theorem kept_run (hpid : Pids client) (hbuf : buffer.length = pipeBuf)
    (r : Run (Step client) (begin buffer) tr t) : Kept client tr t := by
  induction r with
  | refl => exact kept_begin hbuf
  | snoc r h ih => exact ih.step hpid h

/-- **The transfer.**  Let the pids be different and the files anything, and let the clients open the
fifo and write their blocks in any order.  What the server has printed under the pid of a client is
at any time the beginning of the letters and digits of its file, every header is the pid of a client
that has opened the fifo, and when the server has met the end of the file these are all of them, of
every client that opened the fifo before. -/
theorem transfer_law (hpid : Pids client) (hbuf : buffer.length = pipeBuf)
    (r : Run (Step client) (begin buffer) tr t) :
    (∀ e ∈ t.printed, ∃ i, t.place i ≠ .before ∧ e.1 = (client i).pid) ∧
      (∀ i, underPid (client i).pid t.printed <+: (client i).file.filter isalnum) ∧
      (t.server.over = true → ∀ i, InTime i tr →
        underPid (client i).pid t.printed = (client i).file.filter isalnum) := by
  have h := kept_run hpid hbuf r
  exact ⟨h.headers, h.prefixes, h.whole⟩

/-! ### Two clients -/

/-- A client with one letter, and one with an empty file. -/
def pair (i : Bool) : Client := if i then ⟨8, [97]⟩ else ⟨7, []⟩

theorem pids_pair : Pids pair where
  nonneg := by decide
  le := by decide
  inj := by decide

/-- The server is done with both. -/
theorem pair_run : ∃ tr t, Run (Step pair) (begin (List.replicate pipeBuf 0)) tr t ∧
    t.server = .done ∧ ∀ i, InTime i tr := by
  have r : Run (Step pair) (begin (List.replicate pipeBuf 0)) _ _ :=
    ((((((Run.one (.opens true rfl nofun)).snoc (.opens false rfl nofun)).snoc
      (.writes true [97] rfl (.inl nofun))).snoc (.writes false [] rfl (.inr rfl))).snoc
        (.reads rfl (by decide +kernel))).snoc (.ends rfl (by decide +kernel) ?_)).snoc
          (.closes rfl)
  · rintro (_ | _) rest e
    · cases e
    · cases e
  · refine ⟨_, _, r, rfl, ?_⟩
    rintro (_ | _)
    · exact ⟨_, List.mem_of_getElem? (i := 1) rfl, rfl, rfl⟩
    · exact ⟨_, List.mem_of_getElem? (i := 0) rfl, rfl, rfl⟩

/-- The letter is printed under the pid of its client. -/
theorem transfer_law_pair : ∃ tr t,
    Run (Step pair) (begin (List.replicate pipeBuf 0)) tr t ∧ t.server = .done ∧
      underPid 8 t.printed = [97] ∧ underPid 7 t.printed = [] := by
  obtain ⟨tr, t, r, hdone, htime⟩ := pair_run
  obtain ⟨-, -, hall⟩ := transfer_law pids_pair (by simp) r
  have hover : t.server.over = true := by rw [hdone]; rfl
  exact ⟨tr, t, r, hdone, hall hover true (htime true), hall hover false (htime false)⟩

/-- The server has met the end of the file when the client with the letter opens the fifo. -/
theorem late_client_lost : ∃ tr t, Run (Step pair) (begin (List.replicate pipeBuf 0)) tr t ∧
    t.server = .done ∧ (∀ i, t.place i = .closed) ∧ underPid 8 t.printed = [] := by
  have r : Run (Step pair) (begin (List.replicate pipeBuf 0)) _ _ :=
    (((((Run.one (.opens false rfl nofun)).snoc (.writes false [] rfl (.inr rfl))).snoc
      (.ends rfl rfl ?_)).snoc (.opens true rfl nofun)).snoc
        (.writes true [97] rfl (.inl nofun))).snoc (.closes rfl)
  · rintro (_ | _) rest e
    · cases e
    · cases e
  · refine ⟨_, _, r, rfl, ?_, rfl⟩
    rintro (_ | _) <;> rfl

end Sop2.Prog21
