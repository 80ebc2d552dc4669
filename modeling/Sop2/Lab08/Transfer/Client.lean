import Sop2.Lab08.Transfer.Server

/-!
# Lab08 — Transfer — the client

`lab08/lab/l8-1_client.c`: `doClient`, one chunk of the file after another, each sent by
`sendAndConfirm` up to six times until its number comes back.

`dgram file i` is the datagram of chunk `i`, counted from 0, and `part file i` what a server
prints for it; `printedOf_dgram` connects the two.  `readChunk_dgram`: the loop of `doClient` sends
`dgram file 0`, `dgram file 1`, and so on.

`bulk_read` repeats `read` until it has all bytes asked for or the file ends, so its result does
not depend on how many bytes each `read` returns.
-/

namespace Sop2.Transfer
open Support

/-- `offset`. -/
def offset : Nat := 8

/-- Where `doClient` is. -/
inductive Pc where
  /-- At the top of the outer loop. -/
  | read
  /-- At the top of the inner loop. -/
  | send
  /-- In `recv`. -/
  | recv
  /-- Out of the outer loop by its condition. -/
  | done
  /-- Out of the outer loop by `break`. -/
  | gaveUp

/-- The locals of `doClient`, and what is still to be read from `file`. -/
structure Client where
  pc : Pc
  file : List UInt8
  sendbuf : List UInt8
  recvbuf : List UInt8
  chunkNo : Int
  size : Nat
  counter : Nat

/-- Before the first turn of the loop; `sendbuf`, `recvbuf` and `size` are set there. -/
def doClient (file : List UInt8) : Client :=
  ⟨.read, file, List.replicate maxBuf 0, List.replicate maxBuf 0, 0, 0, 0⟩

/-- Lines 47 to 58; nothing when `++chunkNo` overflows. -/
def readChunk (c : Client) : Option Client :=
  let size := min (maxBuf - offset) c.file.length
  let sendbuf := overwrite (List.replicate maxBuf 0) offset (c.file.take size)
  if c.chunkNo = int32Max then none
  else
    let chunkNo := c.chunkNo + 1
    let sendbuf := overwrite sendbuf 0 (beInt32 chunkNo)
    let sendbuf :=
      if size < maxBuf - offset then
        overwrite (overwrite sendbuf (offset + size) (List.replicate (maxBuf - offset - size) 0)) 4
          (beInt32 1)
      else sendbuf
    some ⟨.send, c.file.drop size, sendbuf, List.replicate maxBuf 0, chunkNo, size, 0⟩

/-- `counter++` and `sendto`. -/
def sendTry (c : Client) : Client := { c with counter := c.counter + 1, pc := .recv }

/-- Lines 64 to 69, after `sendAndConfirm` has returned. -/
def confirm (c : Client) : Client :=
  if c.recvbuf.take 4 ≠ beInt32 c.chunkNo ∧ c.counter ≤ 5 then { c with pc := .send }
  else if c.recvbuf.take 4 ≠ beInt32 c.chunkNo ∧ c.counter > 5 then { c with pc := .gaveUp }
  else if c.size = maxBuf - offset then { c with pc := .read }
  else { c with pc := .done }

/-! ### The chunks of a file -/

/-- The number of the last chunk, counted from 0. -/
def lastChunk (file : List UInt8) : Nat := file.length / (maxBuf - offset)

/-- The payload of chunk `i`. -/
def payload (file : List UInt8) (i : Nat) : List UInt8 := chunk (maxBuf - offset) file i

/-- The datagram of chunk `i`: number, last-message bit, payload, zeros. -/
def dgram (file : List UInt8) (i : Nat) : List UInt8 :=
  beInt32 (i + 1) ++ (beInt32 (if i = lastChunk file then 1 else 0) ++
    (payload file i ++ List.replicate (maxBuf - offset - (payload file i).length) 0))

/-- What is printed for chunk `i`. -/
def part (file : List UInt8) (i : Nat) : Printed := ⟨i = lastChunk file, i + 1, payload file i⟩

/-- The client's chunks, in order, as a server should print them. -/
def parts (file : List UInt8) : List Printed := (List.range (lastChunk file + 1)).map (part file)

variable {file : List UInt8} {i : Nat}

theorem payload_length_le : (payload file i).length ≤ maxBuf - offset := by
  rw [payload, chunk_length]; exact Nat.min_le_left ..

theorem payload_length (hi : i ≤ lastChunk file) :
    (payload file i).length < maxBuf - offset ↔ i = lastChunk file :=
  chunk_length_lt (by decide) hi

theorem dgram_length : (dgram file i).length = maxBuf := by
  have := @payload_length_le file i
  simp only [dgram, List.length_append, beInt32_length, List.length_replicate]
  simp only [maxBuf, offset] at *
  omega

theorem notMem_payload (h₀ : 0 ∉ file) : 0 ∉ payload file i := fun h =>
  h₀ (List.mem_of_mem_drop (List.mem_of_mem_take h))

/-- What the server makes of the datagram of a chunk, whatever its buffer held before. -/
theorem printedOf_dgram (h₀ : 0 ∉ file) (hi : (i : Int) + 1 ≤ int32Max) (buf : List UInt8) :
    printedOf (receive buf (dgram file i)) = part file i := by
  have hn : int32Be (receive buf (dgram file i)) = i + 1 := by
    rw [receive, dgram, List.append_assoc]
    exact int32Be_beInt32 (by omega) hi _
  have hl : int32Be ((receive buf (dgram file i)).drop 4) ≠ 0 ↔ i = lastChunk file := by
    have hd : (receive buf (dgram file i)).drop 4 =
        beInt32 (if i = lastChunk file then 1 else 0) ++
          ((payload file i ++ List.replicate (maxBuf - offset - (payload file i).length) 0) ++
            0 :: buf.drop ((dgram file i).length + 1)) := rfl
    rw [hd, int32Be_beInt32 (by split <;> decide) (by split <;> decide)]
    split <;> simp_all
  have ht : cString ((receive buf (dgram file i)).drop 8) = payload file i := by
    have hd : (receive buf (dgram file i)).drop 8 =
        (payload file i ++ List.replicate (maxBuf - offset - (payload file i).length) 0) ++
            0 :: buf.drop ((dgram file i).length + 1) := rfl
    rw [hd, List.append_assoc]
    -- the first zero is one of the filling or, after a full payload, the server's own
    cases maxBuf - offset - (payload file i).length with
    | zero => exact cString_append (notMem_payload h₀) _
    | succ m => exact cString_append (notMem_payload h₀) _
  simp only [printedOf, part, hn, hl, ht]

/-- `sendbuf` at the end of its filling, for a payload of at most `MAXBUF - offset` bytes. -/
theorem sendbuf_eq (n : Int) {data : List UInt8} (hd : data.length ≤ maxBuf - offset) :
    overwrite (overwrite (List.replicate maxBuf 0) offset data) 0 (beInt32 n) =
      beInt32 n ++ (beInt32 0 ++
        (data ++ List.replicate (maxBuf - offset - data.length) 0)) := by
  have hz : List.replicate maxBuf (0 : UInt8) = List.replicate offset 0 ++
      (List.replicate data.length 0 ++ List.replicate (maxBuf - offset - data.length) 0) := by
    rw [← List.replicate_add, ← List.replicate_add]
    congr 1
    simp only [maxBuf, offset] at *
    omega
  rw [hz, overwrite_append _ _ _ (by simp) (by simp)]
  exact overwrite_append [] (List.replicate 4 0) _ rfl rfl

/-- `sendbuf` of the last chunk, whose payload is not full. -/
theorem sendbuf_last (n : Int) {data : List UInt8} :
    overwrite (overwrite (beInt32 n ++ (beInt32 0 ++
        (data ++ List.replicate (maxBuf - offset - data.length) 0))) (offset + data.length)
      (List.replicate (maxBuf - offset - data.length) 0)) 4 (beInt32 1) =
    beInt32 n ++ (beInt32 1 ++ (data ++ List.replicate (maxBuf - offset - data.length) 0)) := by
  have hz : overwrite (beInt32 n ++ (beInt32 0 ++
        (data ++ List.replicate (maxBuf - offset - data.length) 0))) (offset + data.length)
      (List.replicate (maxBuf - offset - data.length) 0) =
        beInt32 n ++ (beInt32 0 ++
          (data ++ List.replicate (maxBuf - offset - data.length) 0)) := by
    have h := overwrite_append (beInt32 n ++ (beInt32 0 ++ data))
      (List.replicate (maxBuf - offset - data.length) 0) []
      (b := List.replicate (maxBuf - offset - data.length) 0) (p := offset + data.length)
      (by simp [offset]; omega) rfl
    simpa using h
  rw [hz]
  exact overwrite_append _ _ _ rfl rfl

/-- **The chunks the client sends.**  With `i` chunks read, the next turn of the outer loop puts
`dgram file i` into `sendbuf`. -/
theorem readChunk_dgram {c c' : Client} (hi : i ≤ lastChunk file)
    (hf : c.file = file.drop ((maxBuf - offset) * i)) (hn : c.chunkNo = i)
    (hmax : (i : Int) ≤ int32Max) (h : readChunk c = some c') :
    c' = ⟨.send, file.drop ((maxBuf - offset) * (i + 1)), dgram file i, List.replicate maxBuf 0,
        i + 1, (payload file i).length, 0⟩ ∧ (i : Int) + 1 ≤ int32Max := by
  have hsize : min (maxBuf - offset) c.file.length = (payload file i).length := by
    rw [payload, chunk_length, hf, List.length_drop]
  have hdata : c.file.take (payload file i).length = payload file i := by
    rw [← hsize, hf, payload, chunk, List.take_eq_take_iff]
    omega
  have hrest : c.file.drop (payload file i).length = file.drop ((maxBuf - offset) * (i + 1)) := by
    rw [Nat.mul_succ, ← List.drop_drop, ← hf, ← hsize]
    rcases Nat.le_total (maxBuf - offset) c.file.length with hle | hle
    · rw [Nat.min_eq_left hle]
    · rw [Nat.min_eq_right hle, List.drop_length, List.drop_eq_nil_of_le hle]
  unfold readChunk at h
  simp only [hsize, hdata, hrest, hn, sendbuf_eq _ payload_length_le] at h
  split at h
  · cases h
  · rename_i hne
    have hflag : (if (payload file i).length < maxBuf - offset then
        overwrite (overwrite (beInt32 (i + 1) ++ (beInt32 0 ++ (payload file i ++
          List.replicate (maxBuf - offset - (payload file i).length) 0)))
          (offset + (payload file i).length)
          (List.replicate (maxBuf - offset - (payload file i).length) 0)) 4 (beInt32 1)
        else beInt32 (i + 1) ++ (beInt32 0 ++ (payload file i ++
          List.replicate (maxBuf - offset - (payload file i).length) 0))) = dgram file i := by
      rw [dgram, sendbuf_last]
      simp only [payload_length hi]
      split <;> rfl
    rw [hflag] at h
    cases h
    exact ⟨rfl, by omega⟩

end Sop2.Transfer
