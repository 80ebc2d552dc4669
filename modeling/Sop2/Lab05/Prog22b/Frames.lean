import Mathlib.Logic.Function.Basic
import Sop2.Support.Bytes
import Sop2.Support.Runs

/-!
# Lab05 — prog22b — the frames in R

`lab05/prog22b.c`: the children answer every letter of the parent with a message, its size in one
byte and the letter that many times, and write it to the pipe `R` at once (`child_work`).  The
parent reads the size and then as many bytes (`parent_work`).

A write of at most `PIPE_BUF` bytes is one step, and so is a read.  Reads of a pipe get what is
there, up to the number asked for; they wait while it is empty and a child is alive.

* `Synced`: the invariant.  What is in `R` is the rest of the message in hand and then whole
  messages.
* `frames_law`: the parent prints the messages in order and stores within `buf`, as long as it does
  not get to one of `MAX_BUFF` bytes.  The terminating zero of such a one lies behind `buf`.
-/

namespace Sop2.Prog22b
open Support

/-- `MAX_BUFF`. -/
def maxBuff : Nat := 200

/-- A message a child draws. -/
structure Message where
  letter : UInt8
  size : Nat

/-- The size of the message to the draw `rand`. -/
def drawSize (rand : Nat) : Nat := 1 + rand % maxBuff

/-- The letter to the draw `rand`. -/
def drawLetter (rand : Nat) : UInt8 := .ofNat (97 + rand % 25)

namespace Message

/-- The byte that says the size. -/
def header (m : Message) : UInt8 := .ofNat m.size

/-- The bytes that follow it. -/
def text (m : Message) : List UInt8 := List.replicate m.size m.letter

/-- What the child writes. -/
def encode (m : Message) : List UInt8 := m.header :: m.text

/-- One that a child can draw. -/
def Drawn (m : Message) : Prop := m.letter ≠ 0 ∧ 1 ≤ m.size ∧ m.size ≤ maxBuff

end Message

/-- Where a child is. -/
inductive Child where
  | waiting
  | answering (c : UInt8)
  | exited

/-- Where the parent is; `body c` after the byte that says the size. -/
inductive Parent where
  | top
  | header
  | body (c : UInt8)
  | done
  /-- `ERR`: every process is killed. -/
  | failed
  /-- After a store behind `buf`, from where on anything may happen. -/
  | overrun

/-- The program from the end of `create_children_and_pipes` on. -/
structure State (n : Nat) where
  child : Fin n → Child
  /-- What is in the pipe to a child. -/
  inbox : Fin n → List UInt8
  fds : Fin n → Bool
  lastSignal : Bool
  /-- What is in `R`. -/
  pipe : List UInt8
  parent : Parent
  buf : List UInt8
  printed : List (List UInt8)
  /-- Where in `buf` the parent has stored a byte. -/
  stores : List Nat
  /-- The bytes the parent has taken for sizes. -/
  headers : List UInt8
  /-- The messages written to `R`. -/
  sent : List Message

/-- No child can write to `R` any more. -/
def State.Closed {n : Nat} (s : State n) : Prop := ∀ i, s.child i = .exited

/-- `read(R, buf, c)` and what follows it. -/
def receive {n : Nat} (s : State n) (c : UInt8) : State n :=
  let data := s.pipe.take c.toNat
  let s := { s with pipe := s.pipe.drop c.toNat }
  if data.length < c.toNat then { s with parent := .failed }
  else
    let s := { s with stores := s.stores ++ List.range (c.toNat + 1) }
    if c.toNat < maxBuff then
      let buf := (overwrite s.buf 0 data).set c.toNat 0
      { s with buf := buf, printed := s.printed ++ [cString buf], parent := .top }
    else { s with parent := .overrun }

/-- The parent has opened all pipes, and no child has been told anything. -/
def begin (n : Nat) (buf : List UInt8) : State n :=
  ⟨fun _ => .waiting, fun _ => [], fun _ => true, false, [], .top, buf, [], [], [], []⟩

inductive Label (n : Nat) where
  | signal
  | interrupted
  | exit (i : Fin n)
  | read (i : Fin n)
  | write (i : Fin n)
  | next
  | tell
  | header
  | eof
  | body

variable {n : Nat}

/-- One step of a process. -/
inductive Step : State n → Label n → State n → Prop where
  /-- `SIGINT` at the parent. -/
  | signal (s : State n) : Step s .signal { s with lastSignal := true }
  /-- `SIGINT` or `SIGCHLD` while the parent waits for a size. -/
  | interrupted {s : State n} (h : s.parent = .header) (hp : s.pipe = []) :
      Step s .interrupted { s with parent := .top }
  /-- `SIGINT` at a child. -/
  | exit (s : State n) (i : Fin n) :
      Step s (.exit i) { s with child := Function.update s.child i .exited }
  | read {s : State n} (i : Fin n) (c : UInt8) (cs : List UInt8) (h : s.child i = .waiting)
      (hc : s.inbox i = c :: cs) :
      Step s (.read i)
        { s with
          child := Function.update s.child i (.answering c)
          inbox := Function.update s.inbox i cs }
  /-- The parent has closed the pipe to a child. -/
  | readEnd {s : State n} (i : Fin n) (h : s.child i = .waiting) (hc : s.inbox i = [])
      (hf : s.fds i = false) :
      Step s (.read i) { s with child := fun _ => .exited, parent := .failed }
  | write {s : State n} (i : Fin n) (c : UInt8) (rand : Nat) (h : s.child i = .answering c) :
      Step s (.write i)
        { s with
          child := Function.update s.child i .waiting
          pipe := s.pipe ++ Message.encode ⟨c, drawSize rand⟩
          sent := s.sent ++ [⟨c, drawSize rand⟩] }
  | next {s : State n} (h : s.parent = .top) (hs : s.lastSignal = false) :
      Step s .next { s with parent := .header }
  /-- The letter goes to a child that is there to read it. -/
  | tell {s : State n} (i : Fin n) (rand : Nat) (h : s.parent = .top) (hs : s.lastSignal = true)
      (hf : s.fds i = true) (hc : s.child i ≠ .exited) :
      Step s .tell
        { s with
          inbox := Function.update s.inbox i (s.inbox i ++ [drawLetter rand])
          lastSignal := false
          parent := .header }
  | tellExited {s : State n} (i : Fin n) (h : s.parent = .top) (hs : s.lastSignal = true)
      (hf : s.fds i = true) (hc : s.child i = .exited) :
      Step s .tell
        { s with
          fds := Function.update s.fds i false
          lastSignal := false
          parent := .header }
  | tellNobody {s : State n} (h : s.parent = .top) (hs : s.lastSignal = true)
      (hf : ∀ i, s.fds i = false) :
      Step s .tell { s with lastSignal := false, parent := .header }
  | header {s : State n} (c : UInt8) (cs : List UInt8) (h : s.parent = .header)
      (hp : s.pipe = c :: cs) :
      Step s .header { s with pipe := cs, headers := s.headers ++ [c], parent := .body c }
  | eof {s : State n} (h : s.parent = .header) (hp : s.pipe = []) (hc : s.Closed) :
      Step s .eof { s with parent := .done }
  | body {s : State n} (c : UInt8) (h : s.parent = .body c) (hp : s.pipe ≠ [] ∨ s.Closed) :
      Step s .body (receive s c)

/-- What has come of the messages written to `R`. -/
structure Framed (s : State n) : Prop where
  headers : s.headers <+: s.sent.map Message.header
  printed : s.printed <+: s.sent.map Message.text
  eof : s.parent = .done → s.pipe = [] ∧ s.printed = s.sent.map Message.text
  noErr : s.parent ≠ .failed
  stores : ∀ i ∈ s.stores, i < maxBuff

/-- The parent does not get to the bytes of a message of `MAX_BUFF` of them. -/
def Short (s : State n) (l : Label n) (_ : State n) : Prop :=
  l = .body → ∀ c, s.parent = .body c → c.toNat ≠ maxBuff

/-- The message in hand, if there is one. -/
def Parent.Holds : Parent → List Message → Prop
  | .body c, hand => ∃ m, hand = [m] ∧ c = m.header
  | .failed, _ => False
  | .overrun, _ => False
  | _, hand => hand = []

/-- What is in `R`: the rest of the message in hand, then whole messages. -/
structure Synced (s : State n) : Prop where
  drawn : ∀ m ∈ s.sent, m.Drawn
  letters : ∀ i, ∀ c ∈ s.inbox i, c ≠ 0
  answers : ∀ i c, s.child i = .answering c → c ≠ 0
  frames : ∃ read hand rest, s.sent = read ++ (hand ++ rest) ∧ s.parent.Holds hand ∧
    s.headers = (read ++ hand).map Message.header ∧ s.printed = read.map Message.text ∧
    s.pipe = hand.flatMap Message.text ++ rest.flatMap Message.encode
  closed : ∀ i, s.fds i = false → s.child i = .exited
  done : s.parent = .done → s.pipe = [] ∧ s.Closed
  stores : ∀ i ∈ s.stores, i < maxBuff
  buf : s.buf.length = maxBuff

/-! ### One message -/

theorem drawLetter_ne_zero (rand : Nat) : drawLetter rand ≠ 0 := by
  intro h
  have := congrArg UInt8.toNat h
  simp only [drawLetter, UInt8.toNat_ofNat', UInt8.toNat_zero] at this
  omega

theorem drawSize_le (rand : Nat) : 1 ≤ drawSize rand ∧ drawSize rand ≤ maxBuff := by
  have := Nat.mod_lt rand (show 0 < maxBuff by decide)
  unfold drawSize
  omega

/-- The byte says the size. -/
theorem Message.Drawn.header_toNat {m : Message} (h : m.Drawn) : m.header.toNat = m.size := by
  have := h.2.2
  unfold maxBuff at this
  rw [header, UInt8.toNat_ofNat', Nat.mod_eq_of_lt (by omega)]

/-- `R` starts with a size if it starts with a message. -/
theorem flatMap_encode_cons {ms : List Message} {c : UInt8} {cs : List UInt8}
    (h : ms.flatMap Message.encode = c :: cs) :
    ∃ m rest, ms = m :: rest ∧ c = m.header ∧
      cs = m.text ++ rest.flatMap Message.encode := by
  cases ms with
  | nil => simp at h
  | cons m rest =>
      rw [List.flatMap_cons, Message.encode, List.cons_append] at h
      obtain ⟨rfl, rfl⟩ := List.cons.inj h
      exact ⟨m, rest, rfl, rfl, rfl⟩

/-- What is printed after the bytes of a message are read into `buf`. -/
theorem cString_buf {m : Message} (h : m.Drawn) {buf : List UInt8} (hb : buf.length = maxBuff)
    (hs : m.size < maxBuff) : cString ((overwrite buf 0 m.text).set m.size 0) = m.text := by
  have hlen : m.text.length = m.size := List.length_replicate ..
  have hlt : m.size < buf.length := hb ▸ hs
  have hcopy : overwrite buf 0 m.text = m.text ++ buf.drop m.size := by
    simp [overwrite, hlen]
  have hz : (0 : UInt8) ∉ m.text := fun hm => h.1 (List.eq_of_mem_replicate hm).symm
  rw [hcopy, List.set_append_right m.size 0 hlen.le, hlen, Nat.sub_self,
    List.drop_eq_getElem_cons hlt, List.set_cons_zero, cString_append hz]

theorem length_buf {m : Message} {buf : List UInt8} (hb : buf.length = maxBuff)
    (hs : m.size ≤ maxBuff) : ((overwrite buf 0 m.text).set m.size 0).length = maxBuff := by
  have hlen : m.text.length = m.size := List.length_replicate ..
  simp only [overwrite, List.length_set, List.length_append, List.length_take, List.length_drop,
    hlen]
  omega

/-- The parent reads the bytes of a message that is in `R`. -/
theorem receive_message {s : State n} {m : Message} {ms : List Message} (h : m.Drawn)
    (hp : s.pipe = m.text ++ ms.flatMap Message.encode) (hb : s.buf.length = maxBuff) :
    receive s m.header =
      if m.size < maxBuff then
        { s with
          pipe := ms.flatMap Message.encode
          stores := s.stores ++ List.range (m.size + 1)
          buf := (overwrite s.buf 0 m.text).set m.size 0
          printed := s.printed ++ [m.text]
          parent := .top }
      else
        { s with
          pipe := ms.flatMap Message.encode
          stores := s.stores ++ List.range (m.size + 1)
          parent := .overrun } := by
  have hlen : m.text.length = m.size := List.length_replicate ..
  unfold receive
  rw [h.header_toNat, hp, List.take_left' hlen, List.drop_left' hlen]
  dsimp only
  rw [hlen, if_neg (lt_irrefl _)]
  split
  · rename_i hs
    rw [cString_buf h hb hs]
  · rfl

/-! ### One step -/

variable {s t : State n} {l : Label n}

theorem synced_begin {buf : List UInt8} (h : buf.length = maxBuff) : Synced (begin n buf) where
  drawn := nofun
  letters := nofun
  answers := nofun
  frames := ⟨[], [], [], rfl, rfl, rfl, rfl, rfl⟩
  closed := nofun
  done := nofun
  stores := nofun
  buf := h

/-- The parent goes from one place without a message in hand to another. -/
theorem Synced.moved (h : Synced s) (parent : Parent) (hs : ∀ hand, s.parent.Holds hand → hand = [])
    (hp : parent.Holds []) (hd : parent = .done → s.pipe = [] ∧ s.Closed) :
    Synced { s with parent := parent } := by
  obtain ⟨read, hand, rest, hf, hh, hr⟩ := h.frames
  obtain rfl := hs hand hh
  exact { h with frames := ⟨read, [], rest, hf, hp, hr⟩, done := hd }

theorem Synced.step (h : Synced s) (hs : Step s l t) (hshort : Short s l t) : Synced t := by
  cases hs with
  | signal => exact { h with }
  | interrupted hp => exact h.moved .top (fun hand hh => by rwa [hp] at hh) rfl nofun
  | exit i =>
      exact { h with
        answers := (Function.forall_update_iff s.child fun _ k => ∀ c, k = .answering c → c ≠ 0).mpr
          ⟨nofun, fun j _ => h.answers j⟩
        closed := (Function.forall_update_iff s.child fun j k => s.fds j = false → k = .exited).mpr
          ⟨fun _ => rfl, fun j _ => h.closed j⟩
        done := fun hd => ⟨(h.done hd).1,
          (Function.forall_update_iff s.child fun _ k => k = .exited).mpr
            ⟨rfl, fun j _ => (h.done hd).2 j⟩⟩ }
  | read i c cs hi hc =>
      have hletters := h.letters i
      rw [hc] at hletters
      refine { h with
        letters := (Function.forall_update_iff s.inbox fun _ cs => ∀ c ∈ cs, c ≠ 0).mpr
          ⟨fun d hd => hletters d (List.mem_cons_of_mem c hd), fun j _ => h.letters j⟩
        answers := (Function.forall_update_iff s.child fun _ k => ∀ c, k = .answering c → c ≠ 0).mpr
          ⟨fun d hd => ?_, fun j _ => h.answers j⟩
        closed := (Function.forall_update_iff s.child fun j k => s.fds j = false → k = .exited).mpr
          ⟨fun hf => ?_, fun j _ => h.closed j⟩
        done := fun hd => ?_ }
      · cases hd
        exact hletters c List.mem_cons_self
      · rw [h.closed i hf] at hi
        cases hi
      · rw [(h.done hd).2 i] at hi
        cases hi
  | readEnd i hi hc hf =>
      rw [h.closed i hf] at hi
      cases hi
  | write i c rand hi =>
      have hdrawn : Message.Drawn ⟨c, drawSize rand⟩ := ⟨h.answers i c hi, drawSize_le rand⟩
      refine { h with
        drawn := forall_mem_snoc h.drawn hdrawn
        answers := (Function.forall_update_iff s.child fun _ k => ∀ c, k = .answering c → c ≠ 0).mpr
          ⟨nofun, fun j _ => h.answers j⟩
        frames := ?_
        closed := (Function.forall_update_iff s.child fun j k => s.fds j = false → k = .exited).mpr
          ⟨fun hf => ?_, fun j _ => h.closed j⟩
        done := fun hd => ?_ }
      · obtain ⟨read, hand, rest, hf, hh, hheaders, hprinted, hpipe⟩ := h.frames
        refine ⟨read, hand, rest ++ [⟨c, drawSize rand⟩], ?_, hh, hheaders, hprinted, ?_⟩
        · simp only [hf, List.append_assoc]
        · simp only [hpipe, List.flatMap_append, List.flatMap_singleton, List.append_assoc]
      · rw [h.closed i hf] at hi
        cases hi
      · rw [(h.done hd).2 i] at hi
        cases hi
  | next hp hl => exact h.moved .header (fun hand hh => by rwa [hp] at hh) rfl nofun
  | tell i rand hp hl hf hc =>
      exact { h.moved .header (fun hand hh => by rwa [hp] at hh) rfl nofun with
        letters := (Function.forall_update_iff s.inbox fun _ cs => ∀ c ∈ cs, c ≠ 0).mpr
          ⟨forall_mem_snoc (h.letters i) (drawLetter_ne_zero rand), fun j _ => h.letters j⟩ }
  | tellExited i hp hl hf hc =>
      exact { h.moved .header (fun hand hh => by rwa [hp] at hh) rfl nofun with
        closed := (Function.forall_update_iff s.fds fun j f => f = false → s.child j = .exited).mpr
          ⟨fun _ => hc, fun j _ => h.closed j⟩ }
  | tellNobody hp hl hf =>
      exact { h.moved .header (fun hand hh => by rwa [hp] at hh) rfl nofun with }
  | header c cs hp hpipe =>
      obtain ⟨read, hand, rest, hf, hh, hheaders, hprinted, hrest⟩ := h.frames
      rw [hp] at hh
      obtain rfl : hand = [] := hh
      rw [hpipe] at hrest
      obtain ⟨m, rest, rfl, rfl, rfl⟩ := flatMap_encode_cons hrest.symm
      refine { h with frames := ⟨read, [m], rest, hf, ⟨m, rfl, rfl⟩, ?_, hprinted, ?_⟩, done := nofun }
      · simp [hheaders]
      · simp
  | eof hp hpipe hc => exact h.moved .done (fun hand hh => by rwa [hp] at hh) rfl fun _ => ⟨hpipe, hc⟩
  | body c hp hpipe =>
      obtain ⟨read, hand, rest, hf, hh, hheaders, hprinted, hrest⟩ := h.frames
      rw [hp] at hh
      obtain ⟨m, rfl, rfl⟩ := hh
      have hm : m.Drawn := h.drawn m (by simp [hf])
      have hs : m.size < maxBuff :=
        lt_of_le_of_ne hm.2.2 fun e => hshort rfl m.header hp (hm.header_toNat.trans e)
      rw [List.flatMap_singleton] at hrest
      rw [receive_message hm hrest h.buf, if_pos hs]
      refine { h with
        frames := ⟨read ++ [m], [], rest, ?_, rfl, ?_, ?_, rfl⟩, done := nofun,
        stores := fun i hi => ?_, buf := length_buf h.buf hs.le }
      · simp [hf]
      · simp [hheaders]
      · simp [hprinted]
      · rcases List.mem_append.mp hi with hi | hi
        · exact h.stores i hi
        · have := List.mem_range.mp hi
          omega

/-- The data of `MAX_BUFF` bytes leave no room for the zero. -/
theorem Synced.short (h : Synced s) (hs : Step s l t) (ht : Framed t) : Short s l t := by
  rintro rfl c hp hc
  cases hs with
  | body c' hp' hpipe =>
      obtain rfl : c' = c := by
        rw [hp'] at hp
        exact Parent.body.inj hp
      obtain ⟨read, hand, rest, hf, hh, hheaders, hprinted, hrest⟩ := h.frames
      rw [hp] at hh
      obtain ⟨m, rfl, rfl⟩ := hh
      have hm : m.Drawn := h.drawn m (by simp [hf])
      rw [hm.header_toNat] at hc
      rw [List.flatMap_singleton] at hrest
      rw [receive_message hm hrest h.buf, if_neg (by omega)] at ht
      have := ht.stores m.size (List.mem_append_right _ (List.mem_range.mpr (Nat.lt_succ_self _)))
      omega

/-! ### The whole run -/

theorem Synced.framed (h : Synced s) : Framed s := by
  obtain ⟨read, hand, rest, hf, hh, hheaders, hprinted, hrest⟩ := h.frames
  refine ⟨?_, ?_, fun hd => ⟨(h.done hd).1, ?_⟩, fun hp => ?_, h.stores⟩
  · rw [hf, hheaders, ← List.append_assoc]
    exact (List.prefix_append _ _).map _
  · rw [hf, hprinted]
    exact (List.prefix_append _ _).map _
  · rw [hd] at hh
    obtain rfl : hand = [] := hh
    rw [(h.done hd).1] at hrest
    cases rest with
    | nil => simp [hf, hprinted]
    | cons m rest => simp [Message.encode] at hrest
  · rw [hp] at hh
    exact hh

variable {tr : List (Move (State n) (Label n))} {buf : List UInt8}

/-- **The frames.**  In a run of the parent and its children, whatever sizes they draw, the parent
takes the sizes of the messages for sizes and nothing else, it prints their texts in the order they
were written, all of them when it meets the end of the file, it has no error to report and stores
within `buf` — after each move, exactly when it does not read the bytes of a message of `MAX_BUFF`
of them. -/
theorem frames_law (hbuf : buf.length = maxBuff) (r : Run Step (begin n buf) tr t) :
    (∀ m ∈ tr, Framed m.after) ↔ ∀ m ∈ tr, Short m.before m.label m.after :=
  r.law (fun h hs hC => h.step hs hC) Synced.framed (fun h hs ht => h.short hs ht)
    (synced_begin hbuf)

/-! ### A message of one child -/

/-- The parent tells a child a letter, and has read the size of its answer. -/
theorem answer_run (buf : List UInt8) (rand : Nat) : ∃ tr s, Run Step (begin 1 buf) tr s ∧
    s.parent = .body (Message.header ⟨97, drawSize rand⟩) ∧
    s.pipe = Message.text ⟨97, drawSize rand⟩ ∧ s.buf = buf ∧ s.printed = [] ∧ s.stores = [] ∧
    s.sent = [⟨97, drawSize rand⟩] ∧ ∀ m ∈ tr, m.label ≠ .body := by
  have r : Run Step (begin 1 buf) _ _ :=
    (((((Run.one (.signal (begin 1 buf))).snoc (.tell 0 0 rfl rfl rfl nofun)).snoc
      (.read 0 97 [] rfl rfl)).snoc (.write 0 97 rand rfl)).snoc
        (.header (Message.header ⟨97, drawSize rand⟩) (Message.text ⟨97, drawSize rand⟩) rfl rfl))
  exact ⟨_, _, r, rfl, rfl, rfl, rfl, rfl, rfl, by simp⟩

/-- After a message of `MAX_BUFF` bytes the zero is stored behind `buf`. -/
theorem zero_behind_buf : ∃ tr s, Run Step (begin 1 (List.replicate maxBuff 0)) tr s ∧
    s.sent = [⟨97, 200⟩] ∧ 200 ∈ s.stores ∧ s.printed = [] ∧ ¬ Framed s := by
  obtain ⟨tr, s, r, hparent, hpipe, hbuf, hprinted, hstores, hsent, -⟩ :=
    answer_run (List.replicate maxBuff 0) 199
  have hm : Message.Drawn ⟨97, drawSize 199⟩ := ⟨by decide, by decide, by decide⟩
  have hrest : s.pipe = Message.text ⟨97, drawSize 199⟩ ++ [].flatMap Message.encode :=
    hpipe.trans (List.append_nil _).symm
  have hne : s.pipe ≠ [] := by
    rw [hpipe]
    decide
  have hlast := Step.body _ hparent (.inl hne)
  have hbehind : 200 ∈ s.stores ++ List.range (drawSize 199 + 1) :=
    List.mem_append_right _ (by decide)
  rw [receive_message hm hrest (by rw [hbuf]; rfl), if_neg (by decide)] at hlast
  refine ⟨_, _, r.snoc hlast, hsent, hbehind, hprinted, fun h => ?_⟩
  exact absurd (h.stores 200 hbehind) (by decide)

/-! ### Two children -/

/-- The parent reads the bytes of a message that leaves room for the zero. -/
theorem reads_message {s : State n} {m : Message} (ms : List Message) (h : m.Drawn)
    (hlt : m.size < maxBuff) (hparent : s.parent = .body m.header)
    (hp : s.pipe = m.text ++ ms.flatMap Message.encode) (hb : s.buf.length = maxBuff) :
    Step s .body
      { s with
        pipe := ms.flatMap Message.encode
        stores := s.stores ++ List.range (m.size + 1)
        buf := (overwrite s.buf 0 m.text).set m.size 0
        printed := s.printed ++ [m.text]
        parent := .top } := by
  have hne : s.pipe ≠ [] := by
    have htext : m.text ≠ [] := by
      have := h.2.1
      simp only [Message.text, ne_eq, List.replicate_eq_nil_iff]
      omega
    rw [hp]
    exact List.append_ne_nil_of_left_ne_nil htext _
  have hstep := Step.body _ hparent (.inl hne)
  rwa [receive_message h hp hb, if_pos hlt] at hstep

theorem short_of_size {m : Message} (h : m.Drawn) (hlt : m.size < maxBuff)
    (hparent : s.parent = .body m.header) : Short s l t := by
  rintro - c hc
  rw [hparent] at hc
  obtain rfl := Parent.body.inj hc
  rw [h.header_toNat]
  exact hlt.ne

/-- Two children are told a letter each.  The second answers while the parent is between the size
and the bytes of the first message. -/
theorem twoAnswers_run {buf : List UInt8} (hbuf : buf.length = maxBuff) :
    ∃ tr s, Run Step (begin 2 buf) tr s ∧ s.parent = .done ∧ s.sent = [⟨97, 2⟩, ⟨98, 3⟩] ∧
      s.printed = [[97, 97], [98, 98, 98]] ∧ ∀ m ∈ tr, Short m.before m.label m.after := by
  have h₁ : Message.Drawn ⟨97, 2⟩ := ⟨by decide, by decide, by decide⟩
  have h₂ : Message.Drawn ⟨98, 3⟩ := ⟨by decide, by decide, by decide⟩
  have r₁ : Run Step (begin 2 buf) _ _ :=
    (((((Run.one (.signal (begin 2 buf))).snoc (.tell 0 0 rfl rfl rfl nofun)).snoc
      (.signal _)).snoc (.interrupted rfl rfl)).snoc (.tell 1 1 rfl rfl rfl nofun))
  have r₂ := ((((r₁.snoc (.read 0 97 [] rfl rfl)).snoc (.read 1 98 [] rfl rfl)).snoc
    (.write 0 97 1 rfl)).snoc (.header 2 [97, 97] rfl rfl)).snoc (.write 1 98 2 rfl)
  have r₃ := r₂.snoc (reads_message (m := ⟨97, 2⟩) [⟨98, 3⟩] h₁ (by decide) rfl rfl hbuf)
  have r₄ := ((r₃.snoc (.next rfl rfl)).snoc (.header 3 [98, 98, 98] rfl rfl)).snoc
    (reads_message (m := ⟨98, 3⟩) [] h₂ (by decide) rfl rfl
      (length_buf (m := ⟨97, 2⟩) hbuf (by decide)))
  have r₅ := (((r₄.snoc (.exit _ 0)).snoc (.exit _ 1)).snoc (.next rfl rfl)).snoc
    (.eof rfl rfl (Fin.forall_fin_two.mpr ⟨rfl, rfl⟩))
  refine ⟨_, _, r₅, rfl, rfl, rfl, ?_⟩
  simp only [List.forall_mem_append, List.forall_mem_singleton]
  repeat' apply And.intro
  all_goals
    first
    | exact short_of_size h₁ (by decide) rfl
    | exact short_of_size h₂ (by decide) rfl
    | rintro ⟨⟩

theorem frames_law_twoAnswers : ∃ tr s, Run Step (begin 2 (List.replicate maxBuff 0)) tr s ∧
    s.parent = .done ∧ s.printed = [[97, 97], [98, 98, 98]] ∧ ∀ m ∈ tr, Framed m.after := by
  obtain ⟨tr, s, r, hdone, -, hprinted, hshort⟩ := twoAnswers_run (List.length_replicate (a := 0))
  exact ⟨tr, s, r, hdone, hprinted, (frames_law rfl r).mpr hshort⟩

end Sop2.Prog22b
