import Mathlib.Data.List.Range
import Sop2.Support.Bytes
import Sop2.Support.Runs

/-!
# Lab07 — L7 — bulk transfers

`bulk_read` and `bulk_write`, as they stand in `l7_common.h` and, word for word, in `l8_common.h`.
What `read` and `write` return is left open: any number of bytes up to what was asked for, an
interruption, an end of file, or another error.

The result of a call is a `long int`, and `c` an `int`; `len` is a `size_t`, and what is returned a
`ssize_t`.  A conversion keeps the last 32 or 64 bits.

* `Filled`, `Emptied`: the invariants of the loops.  The pointer, the count and the length are in
  step with what was transferred.
* `ReadRight`, `WriteRight`: what the functions should do.
* `bulk_law`: they do, exactly as long as no call transfers more than an `int` can tell, and all of
  them together no more than a `ssize_t` can.
* `bulk_right`: so they do on Linux, where no call transfers more.
-/

namespace Sop2.Bulk
open Support

/-! ### Conversions -/

/-- `INT_MAX` and `SSIZE_MAX`. -/
def intMax : Nat := 2147483647
def ssizeMax : Nat := 9223372036854775807

/-- A `long int`, as an `int`. -/
def toInt (x : Int) : Int := x.bmod (2 ^ 32)

/-- A `size_t`, as a `ssize_t`. -/
def toSsize (len : Nat) : Int := (len : Int).bmod (2 ^ 64)

theorem toInt_of_le {n : Nat} (h : n ≤ intMax) : toInt n = n := by
  unfold intMax at h
  exact Int.bmod_eq_of_le (by omega) (by omega)

theorem toInt_le (x : Int) : toInt x ≤ intMax := by
  have h : x.bmod (2 ^ 32) < (2 ^ 32 + 1) / 2 := Int.bmod_lt (by decide)
  unfold toInt intMax
  omega

theorem toSsize_of_le {len : Nat} (h : len ≤ ssizeMax) : toSsize len = len := by
  unfold ssizeMax at h
  exact Int.bmod_eq_of_le (by omega) (by omega)

theorem toSsize_neg {len : Nat} (h : ssizeMax < len) (hmax : len < 2 ^ 64) : toSsize len < 0 := by
  have hlow : 9223372036854775807 < len := h
  change (len : Int).bmod 18446744073709551616 < 0
  rw [Int.bmod_def]
  split <;> omega

/-- The length is returned as it is, if it can be. -/
theorem toSsize_nonneg_iff {len : Nat} (hmax : len < 2 ^ 64) :
    0 ≤ toSsize len ↔ len ≤ ssizeMax := by
  constructor
  · intro h
    by_contra hlt
    have hneg := toSsize_neg (Nat.lt_of_not_le hlt) hmax
    omega
  · intro h
    rw [toSsize_of_le h]
    exact Int.natCast_nonneg len

/-! ### The loops -/

/-- How a call of `read` or `write` ends. -/
inductive Outcome where
  | moved (n : Nat)
  | eintr
  | eof
  | error
  deriving DecidableEq

/-- `TEMP_FAILURE_RETRY`: the result of the call, unless it is made once more. -/
def tempFailureRetry : Outcome → Option Int
  | .moved n => some n
  | .eintr => none
  | .eof => some 0
  | .error => some (-1)

/-- The variables of `bulk_read` and `bulk_write`: `pos` is how far `buf` has come.  At the end
there is the value that is returned. -/
structure Loop where
  pos : Nat
  count : Nat
  len : Nat
  returned : Option Int

/-- The end of the loop body. -/
def Loop.advance (l : Loop) (c : Int) : Loop where
  pos := l.pos + c.toNat
  count := l.count - c.toNat
  len := l.len + c.toNat
  returned := if 0 < l.count - c.toNat then none else some (toSsize (l.len + c.toNat))

/-- The body of the loop of `bulk_read`, after `read`. -/
def Loop.read (l : Loop) (c : Int) : Loop :=
  if c < 0 then { l with returned := some c }
  else if c = 0 then { l with returned := some (toSsize l.len) }
  else l.advance c

/-- The body of the loop of `bulk_write`, after `write`. -/
def Loop.write (l : Loop) (c : Int) : Loop :=
  if c < 0 then { l with returned := some c } else l.advance c

/-- `bulk_read` on the way: `mem` is the memory from `buf` on, and `taken` how much of the stream
has been read. -/
structure Reading where
  loop : Loop
  mem : Nat → UInt8
  taken : Nat

/-- `bulk_write` on the way: `out` is what has been written. -/
structure Writing where
  loop : Loop
  out : List UInt8

def Reading.start (mem : Nat → UInt8) (count : Nat) : Reading := ⟨⟨0, count, 0, none⟩, mem, 0⟩

def Writing.start (count : Nat) : Writing := ⟨⟨0, count, 0, none⟩, []⟩

/-- `n` bytes are transferred. -/
def Outcome.bytes : Outcome → Nat
  | .moved n => n
  | .eintr | .eof | .error => 0

/-- What `read(fd, buf, count)` does to the memory. -/
def Reading.fill (stream : Nat → UInt8) (s : Reading) (n : Nat) : Reading where
  loop := s.loop
  mem i := if s.loop.pos ≤ i ∧ i < s.loop.pos + n then stream (s.taken + (i - s.loop.pos))
    else s.mem i
  taken := s.taken + n

/-- One call of `read`, and what `bulk_read` does with its result. -/
def Reading.turn (stream : Nat → UInt8) (o : Outcome) (s : Reading) : Reading :=
  let s := s.fill stream o.bytes
  match tempFailureRetry o with
  | none => s
  | some result => { s with loop := s.loop.read (toInt result) }

/-- One call of `write`, and what `bulk_write` does with its result. -/
def Writing.turn (buf : Nat → UInt8) (o : Outcome) (s : Writing) : Writing :=
  let s := { s with out := s.out ++ (List.range o.bytes).map fun i => buf (s.loop.pos + i) }
  match tempFailureRetry o with
  | none => s
  | some result => { s with loop := s.loop.write (toInt result) }

/-- What a call for `count` bytes can return. -/
def Outcome.Of (count : Nat) : Outcome → Prop
  | .moved n => 1 ≤ n ∧ n ≤ count
  | .eintr | .eof | .error => True

/-- A step of `bulk_read`. -/
def Reads (stream : Nat → UInt8) (s : Reading) (o : Outcome) (t : Reading) : Prop :=
  s.loop.returned = none ∧ o.Of s.loop.count ∧ t = s.turn stream o

/-- A step of `bulk_write`. -/
def Writes (buf : Nat → UInt8) (s : Writing) (o : Outcome) (t : Writing) : Prop :=
  s.loop.returned = none ∧ o.Of s.loop.count ∧ o ≠ .eof ∧ t = s.turn buf o

/-- What `bulk_read` should do with the outcome `o`.  It asks for no more than there is space for,
and changes nothing outside; if it returns no negative number, this many bytes of the stream are in
the buffer, in order, and no others have been read, and they are all, or there was an end of file;
and it returns a negative number for an error only. -/
structure ReadRight (count : Nat) (mem stream : Nat → UInt8) (o : Outcome) (t : Reading) :
    Prop where
  space : t.loop.returned = none →
    t.loop.count ≤ count - t.taken ∧ t.loop.pos + t.loop.count ≤ count
  outside : ∀ i, count ≤ i → t.mem i = mem i
  data : ∀ r : Nat, t.loop.returned = some (r : Int) → (∀ i < r, t.mem i = stream i) ∧ t.taken = r ∧
    (r = count ∨ o = .eof)
  negative : (∃ r : Int, t.loop.returned = some r ∧ r < 0) ↔ o = .error

/-- What `bulk_write` should do: it offers no more than the data that are left, and nothing from
outside; if it returns no negative number, all has been written, in order; and it returns a negative
number for an error only. -/
structure WriteRight (count : Nat) (buf : Nat → UInt8) (o : Outcome) (t : Writing) : Prop where
  space : t.loop.returned = none →
    t.loop.count ≤ count - t.out.length ∧ t.loop.pos + t.loop.count ≤ count
  data : ∀ r : Nat, t.loop.returned = some (r : Int) →
    r = count ∧ t.out = (List.range count).map buf
  negative : (∃ r : Int, t.loop.returned = some r ∧ r < 0) ↔ o = .error

/-- The outcome, when so much has been transferred, can be told: the bytes of one call by an `int`,
and those of all by a `ssize_t` if they are returned. -/
def Fits (count done : Nat) : Outcome → Prop
  | .moved n => n ≤ intMax ∧ (done + n = count → count ≤ ssizeMax)
  | .eof => done ≤ ssizeMax
  | .eintr | .error => True

/-! ### The body of the loop -/

theorem advance_of_le {l : Loop} {n : Nat} (hn : n ≤ intMax) :
    l.advance (toInt n) = ⟨l.pos + n, l.count - n, l.len + n,
      if 0 < l.count - n then none else some (toSsize (l.len + n))⟩ := by
  rw [toInt_of_le hn, Loop.advance, Int.toNat_natCast]

theorem read_of_le {l : Loop} {n : Nat} (h : 1 ≤ n) (hn : n ≤ intMax) :
    l.read (toInt n) = l.advance (toInt n) := by
  rw [Loop.read, toInt_of_le hn, if_neg (by omega), if_neg (by omega)]

theorem write_of_le {l : Loop} {n : Nat} (hn : n ≤ intMax) :
    l.write (toInt n) = l.advance (toInt n) := by
  rw [Loop.write, toInt_of_le hn, if_neg (by omega)]

variable {count n done : Nat} {mem stream buf : Nat → UInt8} {o : Outcome} {s t : Reading}
  {v w : Writing}

/-! ### `bulk_read` -/

/-- The pointer, the count and the length of a `bulk_read` are in step with what it has read. -/
structure Filled (count : Nat) (mem stream : Nat → UInt8) (s : Reading) : Prop where
  pos : s.loop.pos = s.taken
  len : s.loop.len = s.taken
  left : s.loop.count + s.taken = count
  data : ∀ i < s.taken, s.mem i = stream i
  outside : ∀ i, count ≤ i → s.mem i = mem i

theorem filled_start : Filled count mem stream (.start mem count) where
  pos := rfl
  len := rfl
  left := rfl
  data i hi := absurd hi (Nat.not_lt_zero i)
  outside _ _ := rfl

/-- What a `read` leaves in the buffer, if it asks for no more than there is space for. -/
theorem Filled.fill (h : Filled count mem stream s) (hn : n ≤ s.loop.count) :
    (∀ i < s.taken + n, (s.fill stream n).mem i = stream i) ∧
      ∀ i, count ≤ i → (s.fill stream n).mem i = mem i := by
  have hpos := h.pos
  have hcount := h.left
  constructor
  · intro i hi
    rw [Reading.fill]
    dsimp only
    split
    · rename_i hin
      congr 1
      omega
    · exact h.data i (by omega)
  · intro i hi
    rw [Reading.fill]
    dsimp only
    rw [if_neg (by omega)]
    exact h.outside i hi

theorem reads_turn (h : s.loop.returned = none) (ho : o.Of s.loop.count) :
    Reads stream s o (s.turn stream o) :=
  ⟨h, ho, rfl⟩

theorem turn_moved (stream : Nat → UInt8) (s : Reading) (n : Nat) :
    s.turn stream (.moved n) =
      { s.fill stream n with loop := s.loop.read (toInt n) } := rfl

/-- **A step of `bulk_read`** whose outcome can be told keeps all in step. -/
theorem Filled.step (h : Filled count mem stream s) (hstep : Reads stream s o t)
    (hfits : Fits count s.taken o) : Filled count mem stream t := by
  obtain ⟨-, hof, rfl⟩ := hstep
  have hkeep : ∀ returned : Option Int, Filled count mem stream
      { s.fill stream 0 with loop := { s.loop with returned := returned } } := by
    intro returned
    obtain ⟨hdata, hout⟩ := h.fill (n := 0) (Nat.zero_le _)
    exact ⟨h.pos, h.len, h.left, hdata, hout⟩
  cases o with
  | eintr => exact hkeep s.loop.returned
  | eof => exact hkeep (some (toSsize s.loop.len))
  | error => exact hkeep (some (toInt (-1)))
  | moved n =>
      obtain ⟨hone, hle⟩ := hof
      obtain ⟨hdata, hout⟩ := h.fill hle
      have hpos := h.pos
      have hlen := h.len
      have hcount := h.left
      rw [turn_moved, read_of_le hone hfits.1, advance_of_le hfits.1]
      constructor
      · change s.loop.pos + n = s.taken + n
        omega
      · change s.loop.len + n = s.taken + n
        omega
      · change s.loop.count - n + (s.taken + n) = count
        omega
      · exact hdata
      · exact hout

theorem Filled.right_none (h : Filled count mem stream t) (hret : t.loop.returned = none)
    (ho : o ≠ .error) : ReadRight count mem stream o t where
  space _ := by
    have hpos := h.pos
    have hleft := h.left
    constructor <;> omega
  outside := h.outside
  data r hr := by rw [hret] at hr; cases hr
  negative := by
    rw [hret]
    exact ⟨fun ⟨r, hr, _⟩ => (Option.some_ne_none r hr.symm).elim, fun he => absurd he ho⟩

theorem Filled.right_some (h : Filled count mem stream t)
    (hret : t.loop.returned = some (t.taken : Int)) (hend : t.taken = count ∨ o = .eof)
    (ho : o ≠ .error) : ReadRight count mem stream o t where
  space hnone := by rw [hret] at hnone; cases hnone
  outside := h.outside
  data r hr := by
    rw [hret] at hr
    obtain rfl : t.taken = r := Int.ofNat.inj (Option.some.inj hr)
    exact ⟨h.data, rfl, hend⟩
  negative := by
    rw [hret]
    refine ⟨fun ⟨r, hr, hneg⟩ => ?_, fun he => absurd he ho⟩
    cases hr
    omega

theorem Filled.right_error (h : Filled count mem stream t) (hret : t.loop.returned = some (-1)) :
    ReadRight count mem stream .error t where
  space hnone := by rw [hret] at hnone; cases hnone
  outside := h.outside
  data r hr := by
    rw [hret] at hr
    cases hr
  negative := ⟨fun _ => rfl, fun _ => ⟨-1, hret, by decide⟩⟩

/-- **A step of `bulk_read` is right** if its outcome can be told. -/
theorem Filled.right (h : Filled count mem stream s) (hstep : Reads stream s o t)
    (hfits : Fits count s.taken o) : ReadRight count mem stream o t := by
  have ht := h.step hstep hfits
  obtain ⟨hnone, hof, rfl⟩ := hstep
  have hlen := h.len
  have hleft := h.left
  cases o with
  | eintr => exact ht.right_none hnone (by simp)
  | eof =>
      refine ht.right_some ?_ (.inr rfl) (by simp)
      change some (toSsize s.loop.len) = some ((s.taken + 0 : Nat) : Int)
      rw [hlen, toSsize_of_le hfits, Nat.add_zero]
  | error => exact ht.right_error rfl
  | moved n =>
      obtain ⟨hone, hle⟩ := hof
      have hret : (s.turn stream (.moved n)).loop.returned =
          if 0 < s.loop.count - n then none else some (toSsize (s.loop.len + n)) := by
        rw [turn_moved, read_of_le hone hfits.1, advance_of_le hfits.1]
      have htaken : (s.turn stream (.moved n)).taken = s.taken + n := rfl
      by_cases hmore : 0 < s.loop.count - n
      · rw [if_pos hmore] at hret
        exact ht.right_none hret (by simp)
      · rw [if_neg hmore, hlen] at hret
        have hall : s.taken + n = count := by omega
        refine ht.right_some ?_ (.inl (htaken.trans hall)) (by simp)
        rw [hret, htaken, toSsize_of_le (hall ▸ hfits.2 hall)]

/-- More bytes than an `int` can tell are counted as fewer, as none, or as an error. -/
theorem toInt_lt (hn : intMax < n) : toInt n < n :=
  lt_of_le_of_lt (toInt_le n) (by exact_mod_cast hn)

/-- When fewer bytes are counted than were transferred, the next call is for too many. -/
theorem asks_too_much {left : Nat} {c : Int} (hc : 0 ≤ c) (hlt : c < n) (hle : n ≤ left) :
    0 < left - c.toNat ∧ left - n < left - c.toNat := by
  omega

/-- In a step that is right and not an error, what is returned is no negative number. -/
theorem ReadRight.nonneg (h : ReadRight count mem stream o t) {len : Nat}
    (hret : t.loop.returned = some (toSsize len)) (ho : o ≠ .error) (hmax : len < 2 ^ 64) :
    len ≤ ssizeMax ∧ t.taken = len := by
  have hle : len ≤ ssizeMax := by
    rw [← toSsize_nonneg_iff hmax]
    by_contra hneg
    exact ho (h.negative.mp ⟨_, hret, Int.not_le.mp hneg⟩)
  rw [toSsize_of_le hle] at hret
  exact ⟨hle, (h.data len hret).2.1⟩

/-- **A step of `bulk_read` that is right** has an outcome that can be told. -/
theorem Filled.fits (h : Filled count mem stream s) (hmax : count < 2 ^ 64)
    (hstep : Reads stream s o t) (hright : ReadRight count mem stream o t) :
    Fits count s.taken o := by
  obtain ⟨hnone, hof, rfl⟩ := hstep
  have hlen := h.len
  have hleft := h.left
  have hlenmax : s.loop.len < 2 ^ 64 := by
    refine Nat.lt_of_le_of_lt ?_ hmax
    omega
  cases o with
  | eintr | error => trivial
  | eof =>
      obtain ⟨hle, -⟩ := hright.nonneg rfl (by simp) hlenmax
      exact hlen ▸ hle
  | moved n =>
      obtain ⟨hone, hle⟩ := hof
      have hrest : count - s.taken = s.loop.count := by omega
      have htaken : (s.turn stream (.moved n)).taken = s.taken + n := rfl
      have hloop : (s.turn stream (.moved n)).loop = s.loop.read (toInt n) := by rw [turn_moved]
      have hn : n ≤ intMax := by
        by_contra hlong
        have hlt := toInt_lt (Nat.lt_of_not_le hlong)
        rw [Loop.read] at hloop
        split at hloop
        · -- an error is told
          rename_i hneg
          cases hright.negative.mp ⟨toInt n, by rw [hloop], hneg⟩
        · split at hloop
          · -- an end of file
            obtain ⟨-, hall⟩ := hright.nonneg (by rw [hloop]) (by simp) hlenmax
            omega
          · -- fewer bytes, so that the next call asks for too many
            obtain ⟨hmore, hmany⟩ := asks_too_much (Int.not_lt.mp ‹_›) hlt hle
            have hret : (s.turn stream (.moved n)).loop.returned = none := by
              rw [hloop, Loop.advance, if_pos hmore]
            obtain ⟨hspace, -⟩ := hright.space hret
            rw [hloop, htaken, Loop.advance, Nat.sub_add_eq, hrest] at hspace
            exact absurd hspace (Nat.not_le.mpr hmany)
      refine ⟨hn, fun hall => ?_⟩
      have hret : (s.turn stream (.moved n)).loop.returned = some (toSsize count) := by
        rw [hloop, read_of_le hone hn, advance_of_le hn]
        dsimp only
        rw [if_neg (by omega), hlen, hall]
      exact (hright.nonneg hret (by simp) hmax).1

/-- **Every run of `bulk_read`.** -/
theorem bulkRead_run {tr : List (Move Reading Outcome)} (hmax : count < 2 ^ 64)
    (r : Run (Reads stream) (.start mem count) tr s) :
    (∀ m ∈ tr, ReadRight count mem stream m.label m.after) ↔
      ∀ m ∈ tr, Fits count m.before.taken m.label :=
  r.law_moves (J := Filled count mem stream) (P := fun _ o t => ReadRight count mem stream o t)
    (C := fun s o _ => Fits count s.taken o) (fun h hstep hfits => h.step hstep hfits)
    (fun h hstep hfits => h.right hstep hfits) (fun h hstep hright => h.fits hmax hstep hright)
    filled_start

/-! ### `bulk_write` -/

/-- The pointer, the count and the length of a `bulk_write` are in step with what it has written. -/
structure Emptied (count : Nat) (buf : Nat → UInt8) (v : Writing) : Prop where
  pos : v.loop.pos = v.out.length
  len : v.loop.len = v.out.length
  left : v.loop.count + v.out.length = count
  data : v.out = (List.range v.out.length).map buf

theorem emptied_start : Emptied count buf (.start count) where
  pos := rfl
  len := rfl
  left := rfl
  data := rfl

theorem write_moved (buf : Nat → UInt8) (v : Writing) (n : Nat) :
    v.turn buf (.moved n) =
      ⟨v.loop.write (toInt n), v.out ++ (List.range n).map fun i => buf (v.loop.pos + i)⟩ := rfl

/-- **A step of `bulk_write`** whose outcome can be told keeps all in step. -/
theorem Emptied.step (h : Emptied count buf v) (hstep : Writes buf v o w)
    (hfits : Fits count v.out.length o) : Emptied count buf w := by
  obtain ⟨-, hof, hdata, rfl⟩ := hstep
  have hkeep : ∀ returned : Option Int,
      Emptied count buf
        { v with loop := { v.loop with returned := returned }, out := v.out ++ [] } := by
    intro returned
    rw [List.append_nil]
    exact ⟨h.pos, h.len, h.left, h.data⟩
  cases o with
  | eintr => exact hkeep v.loop.returned
  | eof => exact absurd rfl hdata
  | error => exact hkeep (some (toInt (-1)))
  | moved n =>
      obtain ⟨hone, hle⟩ := hof
      have hpos := h.pos
      have hlen := h.len
      have hleft := h.left
      have hout : (v.out ++ (List.range n).map fun i => buf (v.loop.pos + i)).length
          = v.out.length + n := by simp
      rw [write_moved, write_of_le hfits.1, advance_of_le hfits.1]
      constructor
      · dsimp only
        omega
      · dsimp only
        omega
      · dsimp only
        omega
      · dsimp only
        rw [hout, List.range_add, List.map_append, ← h.data, List.map_map, hpos]
        rfl

theorem Emptied.right_none (h : Emptied count buf w) (hret : w.loop.returned = none)
    (ho : o ≠ .error) : WriteRight count buf o w where
  space _ := by
    have hpos := h.pos
    have hleft := h.left
    constructor <;> omega
  data r hr := by rw [hret] at hr; cases hr
  negative := by
    rw [hret]
    exact ⟨fun ⟨r, hr, _⟩ => (Option.some_ne_none r hr.symm).elim, fun he => absurd he ho⟩

theorem Emptied.right_some (h : Emptied count buf w) (hret : w.loop.returned = some (count : Int))
    (hall : w.out.length = count) (ho : o ≠ .error) : WriteRight count buf o w where
  space hnone := by rw [hret] at hnone; cases hnone
  data r hr := by
    rw [hret] at hr
    obtain rfl : count = r := Int.ofNat.inj (Option.some.inj hr)
    exact ⟨rfl, hall ▸ h.data⟩
  negative := by
    rw [hret]
    refine ⟨fun ⟨r, hr, hneg⟩ => ?_, fun he => absurd he ho⟩
    cases hr
    omega

theorem right_error (hret : w.loop.returned = some (-1)) : WriteRight count buf .error w where
  space hnone := by rw [hret] at hnone; cases hnone
  data r hr := by
    rw [hret] at hr
    cases hr
  negative := ⟨fun _ => rfl, fun _ => ⟨-1, hret, by decide⟩⟩

/-- **A step of `bulk_write` is right** if its outcome can be told. -/
theorem Emptied.right (h : Emptied count buf v) (hstep : Writes buf v o w)
    (hfits : Fits count v.out.length o) : WriteRight count buf o w := by
  have hw := h.step hstep hfits
  obtain ⟨hnone, hof, hdata, rfl⟩ := hstep
  have hlen := h.len
  have hleft := h.left
  cases o with
  | eintr => exact hw.right_none hnone (by simp)
  | eof => exact absurd rfl hdata
  | error => exact right_error rfl
  | moved n =>
      obtain ⟨hone, hle⟩ := hof
      have hret : (v.turn buf (.moved n)).loop.returned =
          if 0 < v.loop.count - n then none else some (toSsize (v.loop.len + n)) := by
        rw [write_moved, write_of_le hfits.1, advance_of_le hfits.1]
      have hout : (v.turn buf (.moved n)).out.length = v.out.length + n := by
        rw [write_moved]
        simp
      by_cases hmore : 0 < v.loop.count - n
      · rw [if_pos hmore] at hret
        exact hw.right_none hret (by simp)
      · rw [if_neg hmore, hlen] at hret
        have hall : v.out.length + n = count := by omega
        refine hw.right_some ?_ (hout.trans hall) (by simp)
        rw [hret, hall, toSsize_of_le (hfits.2 hall)]

/-- **A step of `bulk_write` that is right** has an outcome that can be told. -/
theorem Emptied.fits (h : Emptied count buf v) (hmax : count < 2 ^ 64) (hstep : Writes buf v o w)
    (hright : WriteRight count buf o w) : Fits count v.out.length o := by
  obtain ⟨hnone, hof, hdata, rfl⟩ := hstep
  have hlen := h.len
  have hleft := h.left
  cases o with
  | eintr | error => trivial
  | eof => exact absurd rfl hdata
  | moved n =>
      obtain ⟨hone, hle⟩ := hof
      have hrest : count - v.out.length = v.loop.count := by omega
      have hout : (v.turn buf (.moved n)).out.length = v.out.length + n := by
        rw [write_moved]
        simp
      have hloop : (v.turn buf (.moved n)).loop = v.loop.write (toInt n) := by rw [write_moved]
      have hn : n ≤ intMax := by
        by_contra hlong
        have hlt := toInt_lt (Nat.lt_of_not_le hlong)
        rw [Loop.write] at hloop
        split at hloop
        · -- an error is told
          rename_i hneg
          cases hright.negative.mp ⟨toInt n, by rw [hloop], hneg⟩
        · -- fewer bytes or none, so that the next call offers too many
          obtain ⟨hmore, hmany⟩ := asks_too_much (Int.not_lt.mp ‹_›) hlt hle
          have hret : (v.turn buf (.moved n)).loop.returned = none := by
            rw [hloop, Loop.advance, if_pos hmore]
          obtain ⟨hspace, -⟩ := hright.space hret
          rw [hloop, hout, Loop.advance, Nat.sub_add_eq, hrest] at hspace
          exact absurd hspace (Nat.not_le.mpr hmany)
      refine ⟨hn, fun hall => ?_⟩
      have hret : (v.turn buf (.moved n)).loop.returned = some (toSsize count) := by
        rw [hloop, write_of_le hn, advance_of_le hn]
        dsimp only
        rw [if_neg (by omega), hlen, hall]
      rw [← toSsize_nonneg_iff hmax]
      by_contra hneg
      cases hright.negative.mp ⟨_, hret, Int.not_le.mp hneg⟩

/-- **Every run of `bulk_write`.** -/
theorem bulkWrite_run {tr : List (Move Writing Outcome)} (hmax : count < 2 ^ 64)
    (r : Run (Writes buf) (.start count) tr v) :
    (∀ m ∈ tr, WriteRight count buf m.label m.after) ↔
      ∀ m ∈ tr, Fits count m.before.out.length m.label :=
  r.law_moves (J := Emptied count buf) (P := fun _ o t => WriteRight count buf o t)
    (C := fun v o _ => Fits count v.out.length o) (fun h hstep hfits => h.step hstep hfits)
    (fun h hstep hfits => h.right hstep hfits) (fun h hstep hright => h.fits hmax hstep hright)
    emptied_start

/-- **The bulk transfers.**  For every count and every sequence of outcomes, `bulk_read` and
`bulk_write` do what they should at every step exactly if every outcome can be told: no call
transfers more than `INT_MAX` bytes, and no more than `SSIZE_MAX` are returned as a length. -/
theorem bulk_law (count : Nat) (hmax : count < 2 ^ 64) :
    (∀ (mem stream : Nat → UInt8) (tr : List (Move Reading Outcome)) (s : Reading),
      Run (Reads stream) (.start mem count) tr s →
        ((∀ m ∈ tr, ReadRight count mem stream m.label m.after) ↔
          ∀ m ∈ tr, Fits count m.before.taken m.label)) ∧
    ∀ (buf : Nat → UInt8) (tr : List (Move Writing Outcome)) (v : Writing),
      Run (Writes buf) (.start count) tr v →
        ((∀ m ∈ tr, WriteRight count buf m.label m.after) ↔
          ∀ m ∈ tr, Fits count m.before.out.length m.label) :=
  ⟨fun _ _ _ _ r => bulkRead_run hmax r, fun _ _ _ r => bulkWrite_run hmax r⟩

/-! ### On Linux -/

/-- What a call for `left` bytes does on Linux: it transfers no more than 0x7ffff000 bytes, and one
for more than `SSIZE_MAX` fails. -/
def Capped (left : Nat) : Outcome → Prop
  | .moved n => n ≤ 2147479552 ∧ left ≤ ssizeMax
  | .eof => left ≤ ssizeMax
  | .eintr | .error => True

/-- Such an outcome can be told, if the length could be told so far. -/
theorem Capped.fits {left : Nat} (h : Capped left o) (hleft : left + done = count)
    (hdone : 0 < done → count ≤ ssizeMax) : Fits count done o := by
  have hcount : left ≤ ssizeMax → count ≤ ssizeMax := fun hle => by
    rcases Nat.eq_zero_or_pos done with hzero | hpos
    · omega
    · exact hdone hpos
  cases o with
  | moved n => exact ⟨h.1.trans (by decide), fun _ => hcount h.2⟩
  | eof =>
      have hle := hcount h
      change done ≤ ssizeMax
      omega
  | eintr | error => trivial

/-- Once anything has been transferred the whole length can be told. -/
theorem Capped.told {left : Nat} (h : Capped left o) (hleft : left + done = count)
    (hdone : 0 < done → count ≤ ssizeMax) (hpos : 0 < done + o.bytes) : count ≤ ssizeMax := by
  rcases Nat.eq_zero_or_pos done with hzero | hbefore
  · cases o with
    | moved n =>
        have hle := h.2
        omega
    | eintr | eof | error =>
        change 0 < done + 0 at hpos
        omega
  · exact hdone hbefore

theorem taken_turn (stream : Nat → UInt8) (o : Outcome) (s : Reading) :
    (s.turn stream o).taken = s.taken + o.bytes := by
  cases o <;> rfl

theorem length_out_turn (buf : Nat → UInt8) (o : Outcome) (v : Writing) :
    (v.turn buf o).out.length = v.out.length + o.bytes := by
  have hout : (v.turn buf o).out =
      v.out ++ (List.range o.bytes).map fun i => buf (v.loop.pos + i) := by
    cases o <;> rfl
  rw [hout, List.length_append, List.length_map, List.length_range]

/-- What a `bulk_read` on Linux keeps: all is in step, and the count can be told once anything has
been read. -/
def FilledSoFar (count : Nat) (mem stream : Nat → UInt8) (s : Reading) : Prop :=
  Filled count mem stream s ∧ (0 < s.taken → count ≤ ssizeMax)

theorem FilledSoFar.step (h : FilledSoFar count mem stream s) (hstep : Reads stream s o t)
    (hcap : Capped s.loop.count o) : FilledSoFar count mem stream t := by
  obtain ⟨hfilled, hdone⟩ := h
  refine ⟨hfilled.step hstep (hcap.fits hfilled.left hdone), fun hpos => ?_⟩
  rw [hstep.2.2, taken_turn] at hpos
  exact hcap.told hfilled.left hdone hpos

/-- The same for a `bulk_write`. -/
def EmptiedSoFar (count : Nat) (buf : Nat → UInt8) (v : Writing) : Prop :=
  Emptied count buf v ∧ (0 < v.out.length → count ≤ ssizeMax)

theorem EmptiedSoFar.step (h : EmptiedSoFar count buf v) (hstep : Writes buf v o w)
    (hcap : Capped v.loop.count o) : EmptiedSoFar count buf w := by
  obtain ⟨hemptied, hdone⟩ := h
  refine ⟨hemptied.step hstep (hcap.fits hemptied.left hdone), fun hpos => ?_⟩
  rw [hstep.2.2.2, length_out_turn] at hpos
  exact hcap.told hemptied.left hdone hpos

/-- **The bulk transfers, on Linux.**  For every count and every sequence of outcomes there,
`bulk_read` and `bulk_write` do what they should at every step: `c` loses nothing of the result of a
call, and neither does the conversion of the length. -/
theorem bulk_right (count : Nat) (hmax : count < 2 ^ 64) :
    (∀ (mem stream : Nat → UInt8) (tr : List (Move Reading Outcome)) (s : Reading),
      Run (Reads stream) (.start mem count) tr s →
        (∀ m ∈ tr, Capped m.before.loop.count m.label) →
        ∀ m ∈ tr, ReadRight count mem stream m.label m.after) ∧
    ∀ (buf : Nat → UInt8) (tr : List (Move Writing Outcome)) (v : Writing),
      Run (Writes buf) (.start count) tr v →
        (∀ m ∈ tr, Capped m.before.loop.count m.label) →
        ∀ m ∈ tr, WriteRight count buf m.label m.after := by
  refine ⟨fun mem stream tr s r hcap => ?_, fun buf tr v r hcap => ?_⟩
  · obtain ⟨-, hkept⟩ := r.invariant_at (I := FilledSoFar count mem stream)
      (C := fun s o _ => Capped s.loop.count o) (fun h hstep hcap => h.step hstep hcap)
      ⟨filled_start, fun hpos => absurd hpos (Nat.lt_irrefl 0)⟩ hcap
    refine ((bulk_law count hmax).1 mem stream tr s r).mpr fun m hm => ?_
    obtain ⟨hfilled, hdone⟩ := (hkept m hm).1
    exact (hcap m hm).fits hfilled.left hdone
  · obtain ⟨-, hkept⟩ := r.invariant_at (I := EmptiedSoFar count buf)
      (C := fun v o _ => Capped v.loop.count o) (fun h hstep hcap => h.step hstep hcap)
      ⟨emptied_start, fun hpos => absurd hpos (Nat.lt_irrefl 0)⟩ hcap
    refine ((bulk_law count hmax).2 buf tr v r).mpr fun m hm => ?_
    obtain ⟨hemptied, hdone⟩ := (hkept m hm).1
    exact (hcap m hm).fits hemptied.left hdone

/-- Three bytes are read in two parts with an interruption, and written in two parts. -/
theorem bulk_right_three :
    (∃ (tr : List (Move Reading Outcome)) (s : Reading),
      Run (Reads fun i => i.toUInt8) (.start (fun _ => 0) 3) tr s ∧ s.loop.returned = some 3 ∧
        ∀ m ∈ tr, ReadRight 3 (fun _ => 0) (fun i => i.toUInt8) m.label m.after) ∧
    ∃ (tr : List (Move Writing Outcome)) (v : Writing),
      Run (Writes fun i => i.toUInt8) (.start 3) tr v ∧ v.out = [0, 1, 2] ∧
        ∀ m ∈ tr, WriteRight 3 (fun i => i.toUInt8) m.label m.after := by
  constructor
  · have r := ((Run.one (reads_turn (o := .moved 2) rfl ⟨by decide, by decide⟩) :
      Run (Reads fun i => i.toUInt8) (.start (fun _ => 0) 3) _ _).snoc
      (reads_turn (o := .eintr) rfl trivial)).snoc
      (reads_turn (o := .moved 1) rfl ⟨by decide, by decide⟩)
    refine ⟨_, _, r, by decide +kernel, (bulk_right 3 (by decide)).1 _ _ _ _ r ?_⟩
    simp only [List.forall_mem_append, List.forall_mem_singleton]
    exact ⟨⟨⟨by decide, by decide⟩, trivial⟩, ⟨by decide, by decide +kernel⟩⟩
  · have r := (Run.one (⟨rfl, ⟨by decide, by decide⟩, by decide, rfl⟩ : Writes _ _ (.moved 1) _) :
      Run (Writes fun i => i.toUInt8) (.start 3) _ _).snoc
      (⟨rfl, ⟨by decide, by decide⟩, by decide, rfl⟩ : Writes _ _ (.moved 2) _)
    refine ⟨_, _, r, by decide +kernel, (bulk_right 3 (by decide)).2 _ _ _ r ?_⟩
    simp only [List.forall_mem_append, List.forall_mem_singleton]
    exact ⟨⟨by decide, by decide⟩, ⟨by decide, by decide +kernel⟩⟩

end Sop2.Bulk
