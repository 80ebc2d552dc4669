import Mathlib.Data.List.Basic
import Mathlib.Data.List.TakeWhile
import Mathlib.Tactic.Ring

/-!
# Support — Bytes

Byte strings as lists.

* `beInt32`, `int32Be`: a 32-bit signed integer in network byte order, and back
  (`int32Be_beInt32`, `beInt32_inj`).
* `chunk n l i`: the `i`-th block of `n` elements of `l`.  The first `k` blocks together are the
  first `n * k` elements (`flatten_chunks`), and the blocks before `l.length / n` are the full
  ones (`chunk_length_lt`).
* `overwrite buf pos bs`: `bs` written into `buf` from `pos` on.
* `cString`: the bytes before the first NUL (`cString_append`).  `strncpy`: a copy of them of
  bounded length, and when that can be read back (`cString_strncpy_iff`).
-/

namespace Support

/-- The largest `int32_t`. -/
def int32Max : Int := 2147483647

/-- The four bytes of `htonl n`, in the order they lie in memory. -/
def beInt32 (n : Int) : List UInt8 :=
  let u := (n % 4294967296).toNat
  [.ofNat (u / 16777216), .ofNat (u / 65536), .ofNat (u / 256), .ofNat u]

/-- The number the bytes spell, most significant first. -/
def beNat (bs : List UInt8) : Nat := bs.foldl (fun acc b => acc * 256 + b.toNat) 0

/-- `ntohl` of the first four bytes, as an `int32_t`. -/
def int32Be (bs : List UInt8) : Int :=
  let u := beNat (bs.take 4)
  if u < 2147483648 then u else u - 4294967296

@[simp] theorem beInt32_length (n : Int) : (beInt32 n).length = 4 := rfl

theorem beNat_beInt32 (n : Int) : beNat (beInt32 n) = (n % 4294967296).toNat := by
  simp only [beNat, beInt32, List.foldl_cons, List.foldl_nil, UInt8.toNat_ofNat']
  omega

/-- Reading back what `htonl` wrote, whatever follows it. -/
theorem int32Be_beInt32 {n : Int} (h₀ : 0 ≤ n) (h : n ≤ int32Max) (bs : List UInt8) :
    int32Be (beInt32 n ++ bs) = n := by
  unfold int32Max at h
  have ht : (beInt32 n ++ bs).take 4 = beInt32 n := rfl
  unfold int32Be
  rw [ht, beNat_beInt32]
  dsimp only
  split <;> omega

theorem beInt32_inj {m n : Int} (hm₀ : 0 ≤ m) (hm : m ≤ int32Max) (hn₀ : 0 ≤ n)
    (hn : n ≤ int32Max) (h : beInt32 m = beInt32 n) : m = n := by
  have := int32Be_beInt32 hm₀ hm []
  rwa [h, int32Be_beInt32 hn₀ hn, eq_comm] at this

/-- What is read depends on the first four bytes only. -/
theorem int32Be_append {bs : List UInt8} (h : 4 ≤ bs.length) (cs : List UInt8) :
    int32Be (bs ++ cs) = int32Be bs := by
  unfold int32Be; rw [List.take_append_of_le_length h]

/-! ### Blocks of a list -/

variable {α : Type*}

/-- The `i`-th block of `n` elements. -/
def chunk (n : Nat) (l : List α) (i : Nat) : List α := (l.drop (n * i)).take n

theorem chunk_length (n : Nat) (l : List α) (i : Nat) :
    (chunk n l i).length = min n (l.length - n * i) := by
  simp [chunk]

/-- Every block before the last is full and the last one is not, it may be empty. -/
theorem chunk_length_lt {n : Nat} (hn : 0 < n) {l : List α} {i : Nat} (hi : i ≤ l.length / n) :
    (chunk n l i).length < n ↔ i = l.length / n := by
  rw [chunk_length]
  have h₁ := Nat.div_add_mod l.length n
  have h₂ := Nat.mod_lt l.length hn
  constructor
  · intro h
    by_contra hne
    have : n * (i + 1) ≤ n * (l.length / n) := Nat.mul_le_mul_left n (by omega)
    rw [Nat.mul_succ] at this
    omega
  · rintro rfl; omega

/-- The first `k` blocks, together. -/
theorem flatten_chunks (n : Nat) (l : List α) (k : Nat) :
    ((List.range k).map (chunk n l)).flatten = l.take (n * k) := by
  induction k with
  | zero => simp
  | succ k ih =>
      rw [List.range_succ, List.map_append, List.flatten_append, ih, Nat.mul_succ, List.take_add]
      simp [chunk]

/-- All blocks, up to the one that is not full, are the list. -/
theorem flatten_chunks_all {n : Nat} (hn : 0 < n) (l : List α) :
    ((List.range (l.length / n + 1)).map (chunk n l)).flatten = l := by
  have h := Nat.lt_mul_div_succ l.length hn
  rw [flatten_chunks, List.take_of_length_le (by omega)]

/-! ### Writing into a buffer -/

/-- `bs` written into `buf` from `pos` on. -/
def overwrite (buf : List α) (pos : Nat) (bs : List α) : List α :=
  buf.take pos ++ bs ++ buf.drop (pos + bs.length)

theorem overwrite_append (l old r : List α) {b : List α} {p : Nat} (hp : l.length = p)
    (hl : old.length = b.length) : overwrite (l ++ (old ++ r)) p b = l ++ (b ++ r) := by
  subst hp
  simp [overwrite, ← hl]

/-! ### C strings -/

/-- The bytes before the first NUL. -/
def cString (bs : List UInt8) : List UInt8 := bs.takeWhile (· ≠ 0)

/-- `dst` after `strncpy(dst, src, n)`. -/
def strncpy (dst src : List UInt8) (n : Nat) : List UInt8 :=
  let text := (cString src).take n
  text ++ List.replicate (n - text.length) 0 ++ dst.drop n

theorem zero_notMem_cString (bs : List UInt8) : 0 ∉ cString bs := fun h => by
  simpa using List.mem_takeWhile_imp h

theorem cString_of_notMem {bs : List UInt8} (h : 0 ∉ bs) : cString bs = bs :=
  List.takeWhile_eq_self_iff.mpr fun b hb => by simpa using fun e : b = 0 => h (e ▸ hb)

theorem length_cString_le (bs : List UInt8) : (cString bs).length ≤ bs.length :=
  (List.takeWhile_sublist _).length_le

/-- What stands behind a NUL is not read. -/
theorem cString_append_zero (bs cs : List UInt8) : cString (bs ++ 0 :: cs) = cString bs := by
  induction bs with
  | nil => rfl
  | cons b bs ih =>
      unfold cString at ih ⊢
      rw [List.cons_append, List.takeWhile_cons, List.takeWhile_cons, ih]

theorem cString_append {bs : List UInt8} (h : 0 ∉ bs) (cs : List UInt8) :
    cString (bs ++ 0 :: cs) = bs := by
  rw [cString_append_zero, cString_of_notMem h]

section

variable {dst src : List UInt8} {n : Nat} {b : UInt8}

/-- A copy that leaves the last byte of its buffer as it was. -/
theorem strncpy_eq (hd : dst.length = n + 1) (hb : dst[n]? = some b)
    (hle : (cString src).length ≤ n) :
    strncpy dst src n = cString src ++ List.replicate (n - (cString src).length) 0 ++ [b] := by
  obtain ⟨hn, rfl⟩ := List.getElem?_eq_some_iff.mp hb
  have hlast : dst.drop n = [dst[n]] := by
    rw [List.drop_eq_getElem_cons hn, List.drop_of_length_le (Nat.le_of_eq hd)]
  simp only [strncpy, hlast, List.take_of_length_le hle]

theorem length_strncpy (hd : dst.length = n + 1) (hb : dst[n]? = some b)
    (hle : (cString src).length ≤ n) : (strncpy dst src n).length = n + 1 := by
  rw [strncpy_eq hd hb hle]
  simp only [List.length_append, List.length_replicate, List.length_singleton]
  omega

theorem strncpy_last (hd : dst.length = n + 1) (hb : dst[n]? = some b)
    (hle : (cString src).length ≤ n) : (strncpy dst src n)[n]? = some b := by
  rw [strncpy_eq hd hb hle, List.getElem?_append_right (by simp; omega)]
  have hsub : n - (cString src ++ List.replicate (n - (cString src).length) 0).length = 0 := by
    simp only [List.length_append, List.length_replicate]
    omega
  rw [hsub]
  rfl

/-- Such a copy ends within its buffer if it is shorter than the copy can be, or the last byte is a
NUL. -/
theorem zero_mem_strncpy (hd : dst.length = n + 1) (hb : dst[n]? = some b)
    (hle : (cString src).length ≤ n) :
    0 ∈ strncpy dst src n ↔ (cString src).length < n ∨ b = 0 := by
  have hz := zero_notMem_cString src
  rw [strncpy_eq hd hb hle]
  simp only [List.mem_append, List.mem_replicate, List.mem_singleton, hz, false_or]
  constructor
  · rintro (⟨hne, -⟩ | h)
    · exact .inl (by omega)
    · exact .inr h.symm
  · rintro (hlt | rfl)
    · exact .inl ⟨by omega, trivial⟩
    · exact .inr rfl

/-- And then it reads as what was copied. -/
theorem cString_strncpy_iff (hd : dst.length = n + 1) (hb : dst[n]? = some b)
    (hle : (cString src).length ≤ n) :
    cString (strncpy dst src n) = cString src ↔ (cString src).length < n ∨ b = 0 := by
  rw [← zero_mem_strncpy hd hb hle]
  constructor
  · intro h
    by_contra hno
    have hlen := congrArg List.length h
    rw [cString_of_notMem hno, length_strncpy hd hb hle] at hlen
    omega
  · intro h
    rw [zero_mem_strncpy hd hb hle] at h
    have hz := zero_notMem_cString src
    rw [strncpy_eq hd hb hle]
    rcases Nat.lt_or_eq_of_le hle with hlt | heq
    · obtain ⟨k, hk⟩ : ∃ k, n - (cString src).length = k + 1 :=
        ⟨n - (cString src).length - 1, by omega⟩
      rw [hk, List.replicate_succ, List.append_assoc, List.cons_append, cString_append hz]
    · obtain rfl := h.resolve_left (by omega)
      rw [heq, Nat.sub_self, List.replicate_zero, List.append_nil, cString_append hz]

end

end Support
