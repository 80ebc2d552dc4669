import Mathlib.Data.List.FinRange
import Sop2.Support.Bytes
import Sop2.Support.Runs

/-!
# Lab08 — Transfer — the server

`lab08/lab/l8-1_server.c`: `findIndex` over the table `con[]`, and one turn of the loop of
`doServer` (`serve`), with the buffer that one datagram leaves to the next.

`view con a` is what the table says about an address: the number of the last chunk accepted from
it, or nothing.  A turn of the loop is described by what it does to the view of the sender
(`Turn`, `serve_turn_at`); no other address's view changes.

The address is any type with decidable equality: the server only compares addresses.  The sums
`con[index].chunkNo + 1` are `int` sums, and one that overflows has no defined behaviour.
-/

namespace Sop2.Transfer
open Support

/-- `MAXBUF`. -/
def maxBuf : Nat := 576

/-- `MAXADDR`. -/
def maxAddr : Nat := 5

/-- `struct connections`. -/
structure Connection (A : Type*) where
  free : Bool
  chunkNo : Int
  addr : A

/-- What the server prints for one datagram, `Part` or `Last Part`. -/
structure Printed where
  lastPart : Bool
  chunkNo : Int
  text : List UInt8
  deriving DecidableEq

variable {A : Type*}

/-! ### The table -/

/-- Entry `i` is taken for `a`. -/
def Taken (con : Fin maxAddr → Connection A) (a : A) (i : Fin maxAddr) : Prop :=
  (con i).free = false ∧ (con i).addr = a

/-- No address has two entries. -/
def Unique (con : Fin maxAddr → Connection A) : Prop :=
  ∀ a i j, Taken con a i → Taken con a j → i = j

/-- Entry `i` of the table after it has been written. -/
theorem taken_update {con : Fin maxAddr → Connection A} {i : Fin maxAddr} {c : Connection A}
    {b : A} {j : Fin maxAddr} :
    Taken (Function.update con i c) b j ↔
      (j = i ∧ c.free = false ∧ c.addr = b) ∨ (j ≠ i ∧ Taken con b j) := by
  rcases eq_or_ne j i with rfl | e
  · simp [Taken]
  · simp [Taken, e]

theorem unique_of_free {con : Fin maxAddr → Connection A} (h : ∀ i, (con i).free = true) :
    Unique con := by
  intro a i j hi
  rw [Taken, h i] at hi
  exact absurd hi.1 (by simp)

/-! ### `findIndex` and one turn of the loop -/

variable [DecidableEq A]

/-- The loop of `findIndex` over the entries still to come, with `empty` so far: `pos` and
`empty` at its end. -/
def scan (addr : A) (con : Fin maxAddr → Connection A) :
    List (Fin maxAddr) → Option (Fin maxAddr) → Option (Fin maxAddr) × Option (Fin maxAddr)
  | [], empty => (none, empty)
  | i :: is, empty =>
      if (con i).free then scan addr con is (some i)
      else if (con i).addr = addr then (some i, empty)
      else scan addr con is empty

/-- `findIndex`: the entry of `addr`, or a free one taken for it. -/
def findIndex (addr : A) (con : Fin maxAddr → Connection A) :
    Option (Fin maxAddr) × (Fin maxAddr → Connection A) :=
  match scan addr con (List.finRange maxAddr) none with
  | (some pos, _) => (some pos, con)
  | (none, some empty) => (some empty, Function.update con empty ⟨false, 0, addr⟩)
  | (none, none) => (none, con)

/-- The table and `buf[MAXBUF + 1]`. -/
structure Server (A : Type*) where
  con : Fin maxAddr → Connection A
  buf : List UInt8

/-- A server that has seen nothing. -/
def freshServer : Server Unit := ⟨fun _ => ⟨true, 0, ()⟩, List.replicate (maxBuf + 1) 0⟩

/-- A server that has seen nothing of two clients. -/
def freshPair : Server Bool := ⟨fun _ => ⟨true, 0, false⟩, List.replicate (maxBuf + 1) 0⟩

/-- How `sendto` ends. -/
inductive SendResult where
  | sent
  | epipe
  | error

/-- How one turn of the loop ends: at the top of the loop again, with what was printed and what
was sent back; in `ERR`; or nowhere, after a signed overflow. -/
inductive Served (A : Type*) where
  | loop (server : Server A) (printed : Option Printed) (reply : Option (List UInt8))
  | exit (printed : Option Printed)
  | overflow

/-- `recvfrom` into `buf`, and `buf[receivedBytes] = 0`. -/
def receive (buf dgram : List UInt8) : List UInt8 := dgram ++ 0 :: buf.drop (dgram.length + 1)

/-- Lines 103 to 109: the echo of `buf`. -/
def answer (res : SendResult) (con : Fin maxAddr → Connection A) (index : Fin maxAddr)
    (buf : List UInt8) (printed : Option Printed) : Served A :=
  match res with
  | .sent => .loop ⟨con, buf⟩ printed (some (buf.take maxBuf))
  | .epipe =>
      .loop ⟨Function.update con index { con index with free := true }, buf⟩ printed none
  | .error => .exit printed

/-- One turn of the loop of `doServer`, for a datagram from `addr`. -/
def serve (res : SendResult) (s : Server A) (addr : A) (dgram : List UInt8) : Served A :=
  let buf := receive s.buf dgram
  match findIndex addr s.con with
  | (none, con) => .loop ⟨con, buf⟩ none none
  | (some index, con) =>
      let chunkNo := int32Be buf
      if (con index).chunkNo = int32Max then .overflow
      else if chunkNo > (con index).chunkNo + 1 then .loop ⟨con, buf⟩ none none
      else if chunkNo = (con index).chunkNo + 1 then
        let lastPart := int32Be (buf.drop 4) ≠ 0
        let con' := Function.update con index
          { con index with
            free := if lastPart then true else (con index).free
            chunkNo := (con index).chunkNo + 1 }
        answer res con' index buf (some ⟨lastPart, chunkNo, cString (buf.drop 8)⟩)
      else answer res con index buf none

/-! ### What the table says about an address -/

instance (con : Fin maxAddr → Connection A) (a : A) : DecidablePred (Taken con a) := fun _ =>
  inferInstanceAs (Decidable (_ ∧ _))

/-- The last chunk accepted from `a`, as the table has it. -/
def view (con : Fin maxAddr → Connection A) (a : A) : Option Int :=
  ((List.finRange maxAddr).find? fun i => Taken con a i).map fun i => (con i).chunkNo

theorem view_eq_none {con : Fin maxAddr → Connection A} {a : A} :
    view con a = none ↔ ∀ i, ¬ Taken con a i := by
  simp [view]

theorem view_eq_some {con : Fin maxAddr → Connection A} {a : A} {k : Int} (hu : Unique con) :
    view con a = some k ↔ ∃ i, Taken con a i ∧ (con i).chunkNo = k := by
  unfold view
  constructor
  · intro h
    obtain ⟨i, hi, rfl⟩ := Option.map_eq_some_iff.mp h
    exact ⟨i, by simpa using List.find?_some hi, rfl⟩
  · rintro ⟨i, hi, rfl⟩
    cases hf : (List.finRange maxAddr).find? fun j => Taken con a j with
    | none =>
        have := List.find?_eq_none.mp hf i (List.mem_finRange i)
        exact absurd hi (by simpa using this)
    | some j =>
        obtain rfl := hu a j i (by simpa using List.find?_some hf) hi
        rfl

theorem scan_some {addr : A} {con : Fin maxAddr → Connection A} {pos : Fin maxAddr}
    {e' : Option (Fin maxAddr)} : ∀ (is : List (Fin maxAddr)) (e : Option (Fin maxAddr)),
      scan addr con is e = (some pos, e') → Taken con addr pos
  | [], _, h => by cases h
  | i :: is, e, h => by
      unfold scan at h
      split at h
      · exact scan_some is _ h
      · rename_i hf
        split at h
        · cases h; exact ⟨by simpa using hf, ‹_›⟩
        · exact scan_some is _ h

/-- Without a match, the loop has met no entry of the address, has kept the last free entry it
met, and has met none if it has kept none. -/
theorem scan_none {addr : A} {con : Fin maxAddr → Connection A} {e' : Option (Fin maxAddr)} :
    ∀ (is : List (Fin maxAddr)) (e : Option (Fin maxAddr)), scan addr con is e = (none, e') →
      (∀ i ∈ is, ¬ Taken con addr i) ∧ (∀ j, e' = some j → e = some j ∨ (con j).free = true) ∧
        (e' = none → e = none ∧ ∀ i ∈ is, (con i).free = false)
  | [], e, h => by
      cases h
      exact ⟨by simp, fun _ hj => .inl hj, fun hn => ⟨hn, by simp⟩⟩
  | i :: is, e, h => by
      unfold scan at h
      split at h
      · rename_i hf
        obtain ⟨h₁, h₂, h₃⟩ := scan_none is _ h
        refine ⟨fun j hj => ?_, fun j hj => ?_, fun hn => ?_⟩
        · rcases List.mem_cons.mp hj with rfl | hj
          · simp [Taken, hf]
          · exact h₁ j hj
        · rcases h₂ j hj with hj | hj
          · cases hj; exact .inr hf
          · exact .inr hj
        · cases (h₃ hn).1
      · rename_i hf
        split at h
        · cases h
        · rename_i ha
          obtain ⟨h₁, h₂, h₃⟩ := scan_none is _ h
          refine ⟨fun j hj => ?_, h₂, fun hn => ⟨(h₃ hn).1, fun j hj => ?_⟩⟩
          · rcases List.mem_cons.mp hj with rfl | hj
            · simp [Taken, ha]
            · exact h₁ j hj
          · rcases List.mem_cons.mp hj with rfl | hj
            · simpa using hf
            · exact (h₃ hn).2 j hj

/-- **`findIndex`.**  The entry of the address, changing nothing; or else a free entry, taken for
the address with chunk number 0; or else nothing, when every entry is another's. -/
theorem findIndex_spec (addr : A) (con : Fin maxAddr → Connection A) :
    (∃ i, findIndex addr con = (some i, con) ∧ Taken con addr i) ∨
    (∃ i, findIndex addr con = (some i, Function.update con i ⟨false, 0, addr⟩) ∧
      (con i).free = true ∧ ∀ j, ¬ Taken con addr j) ∨
    (findIndex addr con = (none, con) ∧ ∀ j, (con j).free = false ∧ ¬ Taken con addr j) := by
  unfold findIndex
  rcases hs : scan addr con (List.finRange maxAddr) none with ⟨_ | pos, _ | e⟩
  · obtain ⟨h₁, -, h₃⟩ := scan_none _ _ hs
    exact .inr (.inr ⟨rfl, fun j =>
      ⟨(h₃ rfl).2 j (List.mem_finRange j), h₁ j (List.mem_finRange j)⟩⟩)
  · obtain ⟨h₁, h₂, -⟩ := scan_none _ _ hs
    exact .inr (.inl ⟨e, rfl, (h₂ e rfl).resolve_left (by simp),
      fun j => h₁ j (List.mem_finRange j)⟩)
  · exact .inl ⟨pos, rfl, scan_some _ _ hs⟩
  · exact .inl ⟨pos, rfl, scan_some _ _ hs⟩

/-- The table after entry `i`, the one of `a` or a free one when `a` has none, has been written
for `a`. -/
theorem view_update {con : Fin maxAddr → Connection A} {a : A} {i : Fin maxAddr}
    {c : Connection A} (hu : Unique con) (hc : c.addr = a)
    (hi : Taken con a i ∨ (con i).free = true ∧ ∀ j, ¬ Taken con a j) :
    Unique (Function.update con i c) ∧
      view (Function.update con i c) a = (if c.free then none else some c.chunkNo) ∧
      ∀ b, b ≠ a → view (Function.update con i c) b = view con b := by
  -- no entry but `i` is taken for `a`, and `i` for nobody else
  have ha : ∀ j, j ≠ i → ¬ Taken con a j := fun j hj ht => by
    rcases hi with hi | ⟨-, hn⟩
    · exact hj (hu a j i ht hi)
    · exact hn j ht
  have hb : ∀ b, b ≠ a → ¬ Taken con b i := fun b hb ht => by
    rcases hi with hi | ⟨hf, -⟩
    · exact hb (ht.2.symm.trans hi.2)
    · rw [ht.1] at hf; cases hf
  have hu' : Unique (Function.update con i c) := by
    intro b j j' hj hj'
    rcases taken_update.mp hj with ⟨rfl, -, rfl⟩ | ⟨hne, h⟩ <;>
      rcases taken_update.mp hj' with ⟨rfl, -, hc'⟩ | ⟨hne', h'⟩
    · rfl
    · exact absurd (hc ▸ h') (ha j' hne')
    · exact absurd ((hc'.symm.trans hc) ▸ h) (ha j hne)
    · exact hu b j j' h h'
  refine ⟨hu', ?_, fun b hne => Option.ext fun k => ?_⟩
  · cases hf : c.free with
    | true =>
        refine view_eq_none.mpr fun j hj => ?_
        rcases taken_update.mp hj with ⟨rfl, hf', -⟩ | ⟨hne, hj⟩
        · rw [hf] at hf'; cases hf'
        · exact ha j hne hj
    | false =>
        refine (view_eq_some hu').mpr ⟨i, taken_update.mpr (.inl ⟨rfl, hf, hc⟩), ?_⟩
        rw [Function.update_self]
  · rw [view_eq_some hu', view_eq_some hu]
    constructor
    · rintro ⟨j, hj, rfl⟩
      rcases taken_update.mp hj with ⟨rfl, -, hc'⟩ | ⟨hji, hj⟩
      · exact absurd (hc'.symm.trans hc) hne
      · exact ⟨j, hj, by rw [Function.update_of_ne hji]⟩
    · rintro ⟨j, hj, rfl⟩
      have hji : j ≠ i := fun e => hb b hne (e ▸ hj)
      exact ⟨j, taken_update.mpr (.inr ⟨hji, hj⟩), by rw [Function.update_of_ne hji]⟩

theorem view_of_free {con : Fin maxAddr → Connection A} (h : ∀ i, (con i).free = true) (a : A) :
    view con a = none :=
  view_eq_none.mpr fun i hi => by rw [Taken, h i] at hi; exact absurd hi.1 (by simp)

/-! ### What a turn does -/

/-- What is printed for the datagram in `buf`. -/
def printedOf (buf : List UInt8) : Printed :=
  ⟨int32Be (buf.drop 4) ≠ 0, int32Be buf, cString (buf.drop 8)⟩

/-- What a turn does to the view of the sender: from `v`, with the datagram in `buf`, to the
view after it, what is printed and what is sent back. -/
inductive Turn (buf : List UInt8) :
    Option Int → Option Int → Option Printed → Option (List UInt8) → Prop where
  /-- The table is full of other addresses. -/
  | full : Turn buf none none none none
  | ahead {v : Option Int} (h : v.getD 0 + 1 < int32Be buf) : Turn buf v (some (v.getD 0)) none none
  | accept {v : Option Int} (h : int32Be buf = v.getD 0 + 1) :
      Turn buf v (if (printedOf buf).lastPart then none else some (v.getD 0 + 1))
        (some (printedOf buf)) (some (buf.take maxBuf))
  | again {v : Option Int} (h : int32Be buf ≤ v.getD 0) :
      Turn buf v (some (v.getD 0)) none (some (buf.take maxBuf))

/-- A turn of the loop as it is seen from outside: the datagram and its sender, what was printed
and what was sent back. -/
structure Turned (A : Type*) where
  addr : A
  dgram : List UInt8
  printed : Option Printed
  reply : Option (List UInt8)

/-- One turn of the loop, for a datagram `recvfrom` can return.  A datagram socket does not fail
with `EPIPE`, and after any other failure the server has ended. -/
structure Serves (s : Server A) (l : Turned A) (s' : Server A) : Prop where
  length : l.dgram.length ≤ maxBuf
  turn : serve .sent s l.addr l.dgram = .loop s' l.printed l.reply

/-- What the server has printed for `a`, over the turns `ls`. -/
def printedFor (a : A) (ls : List (Turned A)) : List Printed :=
  ls.filterMap fun l => if l.addr = a then l.printed else none

@[simp] theorem printedFor_append (a : A) (ls ms : List (Turned A)) :
    printedFor a (ls ++ ms) = printedFor a ls ++ printedFor a ms := by
  simp [printedFor]

theorem printedFor_self (l : Turned A) : printedFor l.addr [l] = l.printed.toList := by
  cases h : l.printed <;> simp [printedFor, h]

theorem printedFor_other {a : A} {l : Turned A} (h : l.addr ≠ a) : printedFor a [l] = [] := by
  simp [printedFor, h]


/-- What `serve` does once the entry of the address is known. -/
theorem serve_turn_at {s s' : Server A} {a : A} {d : List UInt8} {p : Option Printed}
    {r : Option (List UInt8)} {i : Fin maxAddr} {con : Fin maxAddr → Connection A}
    (hf : findIndex a s.con = (some i, con)) (h : serve .sent s a d = .loop s' p r) :
    s'.buf = receive s.buf d ∧ (con i).chunkNo ≠ int32Max ∧
    ((s'.con = con ∧ p = none ∧ r = none ∧
        (con i).chunkNo + 1 < int32Be (receive s.buf d)) ∨
      (s'.con = Function.update con i
          ⟨if (printedOf (receive s.buf d)).lastPart then true else (con i).free,
            (con i).chunkNo + 1, (con i).addr⟩ ∧
        p = some (printedOf (receive s.buf d)) ∧ r = some ((receive s.buf d).take maxBuf) ∧
        int32Be (receive s.buf d) = (con i).chunkNo + 1) ∨
      (s'.con = con ∧ p = none ∧ r = some ((receive s.buf d).take maxBuf) ∧
        int32Be (receive s.buf d) ≤ (con i).chunkNo)) := by
  unfold serve at h
  simp only [hf] at h
  split at h
  · cases h
  · rename_i hk
    split at h
    · rename_i hgt
      cases h
      exact ⟨rfl, hk, .inl ⟨rfl, rfl, rfl, hgt⟩⟩
    · rename_i hgt
      split at h
      · rename_i heq
        cases h
        exact ⟨rfl, hk, .inr (.inl ⟨by simp [printedOf], rfl, rfl, heq⟩)⟩
      · rename_i hne
        cases h
        exact ⟨rfl, hk, .inr (.inr ⟨rfl, rfl, rfl, by omega⟩)⟩

/-- The table after `findIndex` has given entry `i`, in the terms of the views before it. -/
theorem findIndex_view {con con' : Fin maxAddr → Connection A} {a : A} {i : Fin maxAddr}
    (hu : Unique con) (h : findIndex a con = (some i, con')) :
    Unique con' ∧ Taken con' a i ∧ (con' i).chunkNo = (view con a).getD 0 ∧
      (∀ b, b ≠ a → view con' b = view con b) ∧ (view con a ≠ none → con' = con) := by
  rcases findIndex_spec a con with ⟨j, hj, ht⟩ | ⟨j, hj, hf, hn⟩ | ⟨hn, -⟩
  · rw [hj] at h; cases h
    have hv : view con a = some (con i).chunkNo := (view_eq_some hu).mpr ⟨i, ht, rfl⟩
    exact ⟨hu, ht, by rw [hv]; rfl, fun _ _ => rfl, fun _ => rfl⟩
  · rw [hj] at h; cases h
    have hv : view con a = none := view_eq_none.mpr hn
    obtain ⟨hu', -, hb⟩ := view_update (c := ⟨false, 0, a⟩) hu rfl (.inr ⟨hf, hn⟩)
    exact ⟨hu', taken_update.mpr (.inl ⟨rfl, rfl, rfl⟩), by simp [hv], hb, fun h => absurd hv h⟩
  · rw [hn] at h; cases h

/-- **One turn of the server.**  The buffer now starts with the datagram; no other address's view
changes; the sender's changes as `Turn` says; and a sender that has an entry and sends nothing
new leaves the table as it is. -/
theorem serve_spec {s s' : Server A} {a : A} {d : List UInt8} {p : Option Printed}
    {r : Option (List UInt8)} (hu : Unique s.con) (h : serve .sent s a d = .loop s' p r) :
    s'.buf = receive s.buf d ∧ Unique s'.con ∧ (∀ b, b ≠ a → view s'.con b = view s.con b) ∧
      Turn (receive s.buf d) (view s.con a) (view s'.con a) p r ∧ view s.con a ≠ some int32Max ∧
      (view s.con a ≠ none → p = none → s'.con = s.con) := by
  rcases hf : findIndex a s.con with ⟨_ | i, con⟩
  · -- every entry is another's
    rcases findIndex_spec a s.con with ⟨j, hj, -⟩ | ⟨j, hj, -⟩ | ⟨hj, hn⟩
    · rw [hf] at hj; cases hj
    · rw [hf] at hj; cases hj
    · have hv : view s.con a = none := view_eq_none.mpr fun j => (hn j).2
      rw [hf] at hj
      cases hj
      simp only [serve, hf] at h
      cases h
      exact ⟨rfl, hu, fun _ _ => rfl, by rw [hv]; exact .full, by simp [hv], fun _ _ => rfl⟩
  · obtain ⟨hu', ht, hk, hb, hcon⟩ := findIndex_view hu hf
    have hv' : view con a = some ((view s.con a).getD 0) :=
      (view_eq_some hu').mpr ⟨i, ht, hk⟩
    obtain ⟨hbuf, hmax, hcase⟩ := serve_turn_at hf h
    have hmax' : view s.con a ≠ some int32Max := fun e => hmax (by rw [hk, e]; rfl)
    rw [hk] at hcase
    refine ⟨hbuf, ?_⟩
    rcases hcase with ⟨rfl, rfl, rfl, hlt⟩ | ⟨hc, rfl, rfl, heq⟩ | ⟨rfl, rfl, rfl, hle⟩
    · exact ⟨hu', hb, by rw [hv']; exact .ahead hlt, hmax', fun h _ => hcon h⟩
    · obtain ⟨hu'', hva, hvb⟩ := view_update (c := ⟨if (printedOf (receive s.buf d)).lastPart
        then true else (con i).free, (view s.con a).getD 0 + 1, (con i).addr⟩) hu' ht.2 (.inl ht)
      rw [hc]
      refine ⟨hu'', fun b hne => (hvb b hne).trans (hb b hne), ?_, hmax', fun _ h => by cases h⟩
      rw [hva, ht.1]
      have hturn := Turn.accept heq
      cases hl : (printedOf (receive s.buf d)).lastPart with
      | true => simpa [hl] using hturn
      | false => simpa [hl] using hturn
    · exact ⟨hu', hb, by rw [hv']; exact .again hle, hmax', fun h _ => hcon h⟩

/-- Only a chunk number that cannot be counted further keeps a turn from its end. -/
theorem serve_total {s : Server A} {a : A} (hu : Unique s.con)
    (hv : view s.con a ≠ some int32Max) (d : List UInt8) :
    ∃ s' p r, serve .sent s a d = .loop s' p r := by
  unfold serve
  rcases hf : findIndex a s.con with ⟨_ | i, con⟩
  · exact ⟨_, _, _, rfl⟩
  · obtain ⟨-, -, hk, -⟩ := findIndex_view hu hf
    have hmax : (con i).chunkNo ≠ int32Max := fun e => by
      cases hva : view s.con a with
      | none => rw [hva, e] at hk; exact absurd hk (by decide)
      | some k => rw [hva, e] at hk; exact hv (by rw [hva, hk]; rfl)
    dsimp only
    rw [if_neg hmax]
    split
    · exact ⟨_, _, _, rfl⟩
    · split <;> exact ⟨_, _, _, rfl⟩

/-- A chunk that the entry of its address is past is answered, and nothing else happens. -/
theorem serve_again {s : Server A} {a : A} {d : List UInt8} {k : Int} (hu : Unique s.con)
    (hv : view s.con a = some k) (hk : k ≠ int32Max) (hd : int32Be (receive s.buf d) ≤ k) :
    serve .sent s a d =
      .loop ⟨s.con, receive s.buf d⟩ none (some ((receive s.buf d).take maxBuf)) := by
  obtain ⟨s', p, r, h⟩ := serve_total hu (by rw [hv]; simpa using hk) d
  obtain ⟨hbuf, -, -, ht, -, hcon⟩ := serve_spec hu h
  have hv' : view s.con a ≠ none := by rw [hv]; simp
  rw [hv] at ht
  generalize view s'.con a = v' at ht
  cases ht with
  | ahead hlt => exact absurd hlt (by simp; omega)
  | accept heq => exact absurd heq (by simp; omega)
  | again =>
      rw [h, ← hbuf, ← hcon hv' rfl]

/-- A turn that prints nothing and answers has met a chunk that the entry is past. -/
theorem Turn.again_of {buf r : List UInt8} {v v' : Option Int} (h : Turn buf v v' none (some r)) :
    v' = some (v.getD 0) ∧ int32Be buf ≤ v.getD 0 := by
  cases h with
  | again h => exact ⟨rfl, h⟩

/-- A turn that prints nothing leaves the number in the entry, if there is one, as it is. -/
theorem Turn.getD_of {buf : List UInt8} {v v' : Option Int} {r : Option (List UInt8)}
    (h : Turn buf v v' none r) : v'.getD 0 = v.getD 0 := by
  cases h with
  | full | ahead | again => rfl

/-- A turn that prints has met the chunk that comes next. -/
theorem Turn.accept_of {buf : List UInt8} {v v' : Option Int} {p : Printed}
    {r : Option (List UInt8)} (h : Turn buf v v' (some p) r) :
    p = printedOf buf ∧ p.chunkNo = v.getD 0 + 1 ∧
      v' = if p.lastPart then none else some (v.getD 0 + 1) := by
  cases h with
  | accept h => exact ⟨rfl, h, rfl⟩

end Sop2.Transfer
