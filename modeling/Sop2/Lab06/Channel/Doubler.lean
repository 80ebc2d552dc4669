import Sop2.Lab06.Channel.EndOfStream

/-!
# Lab06 — Channel — the doubler

Lines 24 to 48 of `ops-double-processor.c`, with `out_buf` as it is: an array that keeps the bytes
of earlier messages, and `out_len`.  A store outside `out_buf` has no defined behaviour: there is no
result.

* `Holds`: such an array stands for a `Doubling`.
* `messages_doubled`: the loop stores inside `out_buf`, and passes on what `doubled` says.
* `passed_run`: so does a run of the processor, among any steps of its consumers.
* `doubler_law`: the chunks are the input with every byte twice, in pieces of 1 to `CHANNEL_SIZE`
  bytes.
-/

namespace Sop2.Channel
open Support Support.Monitor

/-! ### The loop -/

/-- `out_buf`, `out_len`, and the chunks that were passed to `channel_produce`. -/
structure Out where
  outBuf : Buffer
  outLen : UInt16
  passed : List (List UInt8)

/-- `out_buf[out_len++] = c`. -/
def Out.store (o : Out) (c : UInt8) : Option Out :=
  if o.outLen.toNat < channelSize then
    some { o with
      outBuf := ⟨o.outBuf.1.set o.outLen.toNat c, (List.length_set ..).trans o.outBuf.2⟩
      outLen := o.outLen + 1 }
  else none

/-- `channel_produce(ch_out, out_buf, out_len)`. -/
def Out.produce (o : Out) : Out :=
  { o with passed := o.passed ++ [o.outBuf.1.take o.outLen.toNat] }

/-- `if(out_len == CHANNEL_SIZE)`. -/
def Out.flush (o : Out) : Out :=
  if o.outLen.toNat = channelSize then { o.produce with outLen := 0 } else o

/-- A byte is stored, and the buffer passed on once it is full. -/
def Out.put (o : Out) (c : UInt8) : Option Out := (o.store c).map Out.flush

/-- The body of the `for` loop. -/
def Out.putTwice (o : Out) (c : UInt8) : Option Out := (o.put c).bind fun o => o.put c

/-- `if(out_len > 0)`. -/
def Out.finish (o : Out) : Out := if o.outLen > 0 then o.produce else o

/-- The body of the `while` loop, for the message `in_buf[0..in_len)`. -/
def Out.message (o : Out) (inBuf : List UInt8) : Option Out :=
  (inBuf.foldlM Out.putTwice { o with outLen := 0 }).map Out.finish

/-- The `while` loop. -/
def Out.messages (o : Out) (ins : List (List UInt8)) : Option Out := ins.foldlM Out.message o

/-! ### What the array stands for -/

/-- The chunks were passed on after `before`, and `d.outBuf` is the beginning of `out_buf`. -/
structure Holds (before : List (List UInt8)) (d : Doubling) (o : Out) : Prop where
  passed : o.passed = before ++ d.passed
  outBuf : o.outBuf.1.take o.outLen.toNat = d.outBuf
  outLen : d.outBuf.length = o.outLen.toNat
  room : d.outBuf.length < channelSize

variable {before : List (List UInt8)} {d : Doubling} {o : Out}

/-- One byte. -/
theorem Holds.put (h : Holds before d o) (c : UInt8) :
    ∃ o', o.put c = some o' ∧ Holds before (d.push c) o' := by
  have hroom : o.outLen.toNat < channelSize := h.outLen ▸ h.room
  have hlen : (o.outLen + 1).toNat = o.outLen.toNat + 1 := by
    rw [UInt16.toNat_add]
    exact Nat.mod_eq_of_lt
      (Nat.lt_trans (Nat.succ_lt_succ hroom) (by decide : channelSize + 1 < 2 ^ 16))
  -- the bytes stored so far, and the new one
  have hbuf : (o.outBuf.1.set o.outLen.toNat c).take (o.outLen + 1).toNat = d.outBuf ++ [c] := by
    rw [hlen, List.take_add_one, List.take_set_of_le (Nat.le_refl _), h.outBuf,
      List.getElem?_set_self]
    · rfl
    · rw [o.outBuf.2]
      exact hroom
  have hsize : (d.outBuf ++ [c]).length = (o.outLen + 1).toNat := by
    rw [List.length_append, h.outLen, hlen]
    rfl
  refine ⟨_, by rw [Out.put, Out.store, if_pos hroom, Option.map_some], ?_⟩
  rw [Doubling.push, Out.flush, hsize]
  by_cases hfull : (o.outLen + 1).toNat = channelSize
  -- a full buffer is passed on
  · rw [if_pos hfull, if_pos hfull]
    refine ⟨?_, rfl, rfl, Nat.zero_lt_succ _⟩
    simp only [Out.produce, h.passed, hbuf, List.append_assoc]
  · rw [if_neg hfull, if_neg hfull]
    exact ⟨h.passed, hbuf, hsize, by dsimp only; omega⟩

/-- Both copies of the bytes of a message. -/
theorem Holds.bytes (h : Holds before d o) (inBuf : List UInt8) :
    ∃ o', inBuf.foldlM Out.putTwice o = some o' ∧
      Holds before (inBuf.foldl (fun d c => (d.push c).push c) d) o' := by
  induction inBuf generalizing d o with
  | nil => exact ⟨o, rfl, h⟩
  | cons c inBuf ih =>
      obtain ⟨o₁, he₁, h₁⟩ := h.put c
      obtain ⟨o₂, he₂, h₂⟩ := h₁.put c
      obtain ⟨o', he, h'⟩ := ih h₂
      refine ⟨o', ?_, h'⟩
      have hboth : o.putTwice c = some o₂ := by rw [Out.putTwice, he₁, Option.bind_some, he₂]
      rw [List.foldlM_cons, hboth]
      exact he

theorem message_doubled (o : Out) (inBuf : List UInt8) :
    ∃ o', o.message inBuf = some o' ∧ o'.passed = o.passed ++ doubled inBuf := by
  have hbegin : Holds o.passed ⟨[], []⟩ { o with outLen := 0 } :=
    ⟨(List.append_nil _).symm, rfl, rfl, by decide⟩
  obtain ⟨o', he, h⟩ := hbegin.bytes inBuf
  refine ⟨_, by rw [Out.message, he, Option.map_some], ?_⟩
  have hpos : o'.outLen > 0 ↔ o'.outLen.toNat > 0 := UInt16.lt_iff_toNat_lt
  rw [doubled, h.outLen, Out.finish]
  by_cases hlen : o'.outLen.toNat > 0
  · rw [if_pos (hpos.mpr hlen), if_pos hlen, Out.produce, h.passed, h.outBuf, List.append_assoc]
  · rw [if_neg (mt hpos.mp hlen), if_neg hlen, h.passed]

/-- **The loop passes on what `doubled` says**, whatever is in `out_buf`. -/
theorem messages_doubled (o : Out) (ins : List (List UInt8)) :
    ∃ o', o.messages ins = some o' ∧ o'.passed = o.passed ++ ins.flatMap doubled := by
  induction ins generalizing o with
  | nil => exact ⟨o, rfl, (List.append_nil _).symm⟩
  | cons m ins ih =>
      obtain ⟨o₁, he₁, h₁⟩ := message_doubled o m
      obtain ⟨o', he, h⟩ := ih o₁
      refine ⟨o', ?_, ?_⟩
      · rw [Out.messages, List.foldlM_cons, he₁]
        exact he
      · rw [h, h₁, List.flatMap_cons, List.append_assoc]

/-! ### What is passed on -/

/-- Every byte twice in a row. -/
def twice (bytes : List UInt8) : List UInt8 := bytes.flatMap fun c => [c, c]

/-- A chunk has a byte, and fits into the channel. -/
def IsChunk (c : List UInt8) : Prop := 1 ≤ c.length ∧ c.length ≤ channelSize

/-- The chunks so far, and the bytes that are still in the buffer. -/
structure Doubling.Sound (d : Doubling) : Prop where
  room : d.outBuf.length < channelSize
  chunks : ∀ c ∈ d.passed, IsChunk c

theorem Doubling.Sound.push {d : Doubling} (h : d.Sound) (c : UInt8) : (d.push c).Sound := by
  have hlen : (d.outBuf ++ [c]).length = d.outBuf.length + 1 := List.length_append
  have hroom := h.room
  rw [Doubling.push]
  split
  · exact ⟨Nat.zero_lt_succ _, forall_mem_snoc h.chunks ⟨by omega, by omega⟩⟩
  · exact ⟨by dsimp only; omega, h.chunks⟩

theorem Doubling.push_flatten (d : Doubling) (c : UInt8) :
    (d.push c).passed.flatten ++ (d.push c).outBuf = d.passed.flatten ++ d.outBuf ++ [c] := by
  rw [Doubling.push]
  split <;> simp

/-- The bytes of a message, from any point on. -/
theorem doubling_bytes (inBuf : List UInt8) {d : Doubling} (h : d.Sound) :
    (inBuf.foldl (fun d c => (d.push c).push c) d).Sound ∧
      (inBuf.foldl (fun d c => (d.push c).push c) d).passed.flatten ++
          (inBuf.foldl (fun d c => (d.push c).push c) d).outBuf =
        d.passed.flatten ++ d.outBuf ++ twice inBuf := by
  induction inBuf generalizing d with
  | nil => exact ⟨h, (List.append_nil _).symm⟩
  | cons c inBuf ih =>
      obtain ⟨hs, he⟩ := ih ((h.push c).push c)
      refine ⟨hs, he.trans ?_⟩
      rw [Doubling.push_flatten, Doubling.push_flatten]
      simp [twice]

/-- One message. -/
theorem doubled_spec (inBuf : List UInt8) :
    (doubled inBuf).flatten = twice inBuf ∧ ∀ c ∈ doubled inBuf, IsChunk c := by
  obtain ⟨hs, he⟩ := doubling_bytes inBuf (d := ⟨[], []⟩) ⟨by decide, by simp⟩
  rw [doubled]
  generalize inBuf.foldl (fun (d : Doubling) c => (d.push c).push c) ⟨[], []⟩ = d at hs he ⊢
  have hroom := hs.room
  split
  · exact ⟨by simpa using he, forall_mem_snoc hs.chunks ⟨by omega, Nat.le_of_lt hroom⟩⟩
  · have hnil : d.outBuf = [] := List.eq_nil_of_length_eq_zero (by omega)
    exact ⟨by simpa [hnil] using he, hs.chunks⟩

theorem flatten_flatMap_doubled (ins : List (List UInt8)) :
    (ins.flatMap doubled).flatten = twice ins.flatten := by
  induction ins with
  | nil => rfl
  | cons m ins ih =>
      rw [List.flatMap_cons, List.flatten_append, ih, (doubled_spec m).1, List.flatten_cons, twice,
        twice, twice, List.flatMap_append]

theorem isChunk_of_mem {ins : List (List UInt8)} {c : List UInt8} (h : c ∈ ins.flatMap doubled) :
    IsChunk c := by
  obtain ⟨m, -, hc⟩ := List.mem_flatMap.mp h
  exact (doubled_spec m).2 c hc

/-! ### A run of the processor -/

variable {C : Type*} [DecidableEq C] {s t : Pipeline C} {ins : List (List UInt8)} {ch : ChannelT}
  {tr : List (Move (Pipeline C) (Option (Label (Option C))))}

/-- The chunks that are still to be passed on. -/
def Processor.toPass : Processor → List (List UInt8)
  | .reading ins => ins.flatMap doubled
  | .passing chunks ins | .calling chunks ins => chunks ++ ins.flatMap doubled
  | .ending | .closed => []

/-- A chunk is passed on as it is. -/
theorem IsChunk.take_length {c : List UInt8} (h : IsChunk c) :
    c.take (UInt16.ofNat c.length).toNat = c := by
  have hlen : (UInt16.ofNat c.length).toNat = c.length := by
    rw [UInt16.toNat_ofNat']
    exact Nat.mod_eq_of_lt (Nat.lt_of_le_of_lt h.2 (by decide : channelSize < 2 ^ 16))
  rw [hlen, List.take_length]

/-- One step. -/
theorem Pipeline.Step.toPass {l : Option (Label (Option C))} (h : Step s l t)
    (hs : ∀ c ∈ s.processor.toPass, IsChunk c) :
    passed l.toList ++ t.processor.toPass = s.processor.toPass := by
  cases h with
  | read m ins hp | readEnd hp | nextMessage ins hp => rw [hp]; rfl
  | pass c cs ins hp h =>
      rw [hp] at hs ⊢
      have hc : IsChunk c := hs c (by simp [Processor.toPass])
      exact congrArg (fun d => d :: (cs ++ ins.flatMap doubled)) hc.take_length
  | waits cs ins hp hl h => rcases hl with rfl | rfl <;> rfl
  | passRet cs ins c r hp h => rw [hp]; rfl
  | deplete hp h => rw [hp]; rfl
  | consumerWaits c hl h => rcases hl with rfl | rfl <;> rfl
  | consumeCall c hf h | consumeRet c r h => rfl

/-- **What was passed on, and what is still to be, are the chunks of the input.** -/
theorem passed_run (r : Run Pipeline.Step (begin ins ch) tr s) :
    passed (outLabels tr) ++ s.processor.toPass = ins.flatMap doubled := by
  induction r with
  | refl => rfl
  | snoc r h ih =>
      rw [outLabels_snoc, passed_append, List.append_assoc, h.toPass fun c hc => ?_, ih]
      exact isChunk_of_mem (ih ▸ List.mem_append_right _ hc)

/-- **The doubler.**  Whatever the messages, and whatever is in `out_buf`: no store is outside
`out_buf`; the chunks are the bytes of the input, each of them twice in a row, and a chunk has 1 to
`CHANNEL_SIZE` bytes.  In a run of the processor and its consumers these chunks are passed to
`channel_produce`, in order, and all of them before the channel is marked depleted. -/
theorem doubler_law (C : Type*) [DecidableEq C] (ins : List (List UInt8)) (outBuf : Buffer)
    (outLen : UInt16) :
    ∃ o, Out.messages ⟨outBuf, outLen, []⟩ ins = some o ∧
      o.passed.flatten = twice ins.flatten ∧ (∀ c ∈ o.passed, IsChunk c) ∧
      ∀ (ch : ChannelT) (s : Pipeline C) (tr : List (Move (Pipeline C) (Option (Label (Option C))))),
        Run Pipeline.Step (begin ins ch) tr s →
          passed (outLabels tr) <+: o.passed ∧
            (s.processor = .ending ∨ s.processor = .closed → passed (outLabels tr) = o.passed) := by
  obtain ⟨o, he, h⟩ := messages_doubled ⟨outBuf, outLen, []⟩ ins
  have hpassed : o.passed = ins.flatMap doubled := h
  rw [← hpassed] at h
  refine ⟨o, he, ?_, fun c hc => isChunk_of_mem (hpassed ▸ hc), fun ch s tr r => ?_⟩
  · rw [hpassed, flatten_flatMap_doubled]
  · have hrun := passed_run r
    rw [hpassed, ← hrun]
    refine ⟨List.prefix_append .., ?_⟩
    rintro (hs | hs) <;> rw [hs, Processor.toPass, List.append_nil]

end Sop2.Channel
