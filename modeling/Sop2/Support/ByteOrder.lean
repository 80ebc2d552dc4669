import Sop2.Support.Bytes

/-!
# Support — Byte order

Words of 32 bits as they lie in the memory of a host, and the conversion to network byte order.

* `ByteOrder.store`, `ByteOrder.load`: the four bytes of a word, and back (`load_store`,
  `store_load`).
* `ByteOrder.htonl`, which is its own inverse and so also `ntohl` (`htonl_htonl`).
* `htonl_carried`: a word that one host stores and another loads is the same word in network byte
  order.
-/

namespace Support

/-- `uint32_t` and `int32_t`: the second is `BitVec.toInt` of the first. -/
abbrev Word : Type := BitVec 32

/-- The order in which a host keeps the bytes of a word. -/
inductive ByteOrder where
  | little
  | big
  deriving DecidableEq, Repr

/-- The four bytes of a word, most significant first. -/
def beWord (w : Word) : List UInt8 := beInt32 w.toNat

/-- The word the bytes spell, most significant first. -/
def wordBe (bs : List UInt8) : Word := .ofNat 32 (beNat bs)

theorem wordBe_beWord (w : Word) : wordBe (beWord w) = w := by
  have hmod : ((w.toNat : Int) % 4294967296).toNat = w.toNat := by omega
  rw [wordBe, beWord, beNat_beInt32, hmod, BitVec.ofNat_toNat, BitVec.setWidth_eq]

theorem beNat_four (a b c d : UInt8) :
    beNat [a, b, c, d] =
      ((a.toNat * 256 + b.toNat) * 256 + c.toNat) * 256 + d.toNat := by
  simp [beNat]

theorem beWord_wordBe {bs : List UInt8} (h : bs.length = 4) : beWord (wordBe bs) = bs := by
  obtain ⟨a, b, c, d, rfl⟩ : ∃ a b c d, bs = [a, b, c, d] := by
    match bs, h with
    | [a, b, c, d], _ => exact ⟨a, b, c, d, rfl⟩
  have ha := a.toNat_lt
  have hb := b.toNat_lt
  have hc := c.toNat_lt
  have hd := d.toNat_lt
  have hword : (wordBe [a, b, c, d]).toNat =
      ((a.toNat * 256 + b.toNat) * 256 + c.toNat) * 256 + d.toNat := by
    rw [wordBe, BitVec.toNat_ofNat, beNat_four]
    omega
  rw [beWord, hword]
  simp only [beInt32, List.cons.injEq, ← UInt8.toNat_inj, UInt8.toNat_ofNat', and_true]
  omega

namespace ByteOrder

/-- The order of the bytes in memory, against that of the network. -/
def arrange : ByteOrder → List UInt8 → List UInt8
  | .little, bs => bs.reverse
  | .big, bs => bs

@[simp] theorem arrange_arrange (o : ByteOrder) (bs : List UInt8) :
    o.arrange (o.arrange bs) = bs := by
  cases o <;> simp [arrange]

@[simp] theorem arrange_length (o : ByteOrder) (bs : List UInt8) :
    (o.arrange bs).length = bs.length := by
  cases o <;> simp [arrange]

/-- The bytes of a word in memory. -/
def store (o : ByteOrder) (w : Word) : List UInt8 := o.arrange (beWord w)

/-- The word in memory. -/
def load (o : ByteOrder) (bs : List UInt8) : Word := wordBe (o.arrange bs)

/-- `htonl`, and `ntohl`: the word whose bytes in memory are those of `w`, the highest first. -/
def htonl (o : ByteOrder) (w : Word) : Word := o.load (beWord w)

@[simp] theorem store_length (o : ByteOrder) (w : Word) : (o.store w).length = 4 := by
  simp [store, beWord]

@[simp] theorem load_store (o : ByteOrder) (w : Word) : o.load (o.store w) = w := by
  rw [load, store, arrange_arrange, wordBe_beWord]

theorem store_load (o : ByteOrder) {bs : List UInt8} (h : bs.length = 4) :
    o.store (o.load bs) = bs := by
  rw [load, store, beWord_wordBe (by simpa using h), arrange_arrange]

/-- What is sent after `htonl` does not depend on the host. -/
theorem store_htonl (o : ByteOrder) (w : Word) : o.store (o.htonl w) = beWord w :=
  o.store_load rfl

/-- What was received, after `ntohl`. -/
theorem htonl_load (o : ByteOrder) {bs : List UInt8} (h : bs.length = 4) :
    o.htonl (o.load bs) = wordBe bs := by
  have harr : (o.arrange bs).length = 4 := by simpa using h
  rw [htonl, load, load, beWord_wordBe harr, arrange_arrange]

@[simp] theorem htonl_htonl (o : ByteOrder) (w : Word) : o.htonl (o.htonl w) = w := by
  rw [← o.load_store (o.htonl w), store_htonl, htonl_load o rfl, wordBe_beWord]

/-- A word that one host sends as it lies in memory, and another receives. -/
def carried (sender receiver : ByteOrder) (w : Word) : Word := receiver.load (sender.store w)

@[simp] theorem htonl_carried (sender receiver : ByteOrder) (w : Word) :
    receiver.htonl (carried sender receiver w) = sender.htonl w := by
  rw [carried, htonl_load receiver (store_length ..), ← htonl_load sender (store_length ..),
    load_store]

end ByteOrder

end Support
