import Sop2.Lab08.Napoleon.StaffMap
import Sop2.Support.Decimal

/-!
# Lab08 — Napoleon — the messages

The datagrams of `napoleon.c`: what an adjutant's `sscanf` finds in `msg.buf`, and the emperor's order.

* `Legible`: the names that a report can have (`report_legible`).
* `report_order`: an order that is sent back as a report names the division it was for.
-/

namespace Sop2.Napoleon
open Support

variable {A : Type*}

/-- `message_t`. -/
structure Message (A : Type*) where
  buf : List UInt8
  addr : A

/-- `memset` and `recvfrom`, into 512 bytes the last of which stays a NUL. -/
def receive (datagram : List UInt8) (addr : A) : Message A :=
  ⟨datagram.take 511 ++ List.replicate (512 - (datagram.take 511).length) 0, addr⟩

/-- `%128[^\n]`. -/
def scanName (text : List UInt8) : Option (List UInt8) :=
  if (text.takeWhile (· ≠ 10)).take 128 = [] then none
  else some ((text.takeWhile (· ≠ 10)).take 128)

/-- `x`, `y`, `p` and `div_name`, if `sscanf` returns 4. -/
def sscanf (text : List UInt8) : Option ((Int × Int × Int) × List UInt8) :=
  (scanInt text).bind fun x =>
    (scanInt x.2).bind fun y =>
      (scanInt y.2).bind fun p =>
        (scanName (p.2.dropWhile isSpace)).map fun name => ((x.1, y.1, p.1), name)

/-- The values are those of a report. -/
def Valid (x y p : Int) : Prop := (0 ≤ x ∧ x ≤ 99) ∧ (0 ≤ y ∧ y ≤ 99) ∧ (p = 0 ∨ p = 1)

instance (x y p : Int) : Decidable (Valid x y p) := inferInstanceAs (Decidable (_ ∧ _))

/-- `div_name` has been set to zero before. -/
def divName (name : List UInt8) : List UInt8 := name ++ List.replicate (129 - name.length) 0

/-- The report that an adjutant finds in a message, unless that is badly formed or has bad values. -/
def Message.report (msg : Message A) : Option (Report A) :=
  (sscanf (cString msg.buf)).bind fun found =>
    if h : Valid found.1.1 found.1.2.1 found.1.2.2 then
      some
        { x := ⟨found.1.1.toNat, by unfold Valid at h; omega⟩
          y := ⟨found.1.2.1.toNat, by unfold Valid at h; omega⟩
          p := ⟨found.1.2.2.toNat, by unfold Valid at h; omega⟩
          name := divName found.2
          addr := msg.addr }
    else none

/-- `p` of our divisions. -/
def ours : Fin 2 := Fin.last 1

/-- `"%d %d 1 %s\n"`. -/
def orderText (x y : Fin 100) (name : List UInt8) : List UInt8 :=
  printInt x.val ++ 32 :: (printInt y.val ++ 32 :: 49 :: 32 :: (name ++ [10]))

/-- What is sent of `order`. -/
def order (x y : Fin 100) (name : List UInt8) : List UInt8 :=
  cString (snprintf 256 (orderText x y name))

/-- A name that a report can have. -/
structure Legible (name : List UInt8) : Prop where
  ne : name ≠ []
  le : name.length ≤ 128
  text : 0 ∉ name
  line : 10 ∉ name
  head : ∀ b ∈ name.head?, isSpace b = false

variable {name text : List UInt8} {msg : Message A} {rep : Report A}

theorem Legible.cString_divName (h : Legible name) : cString (divName name) = name := by
  obtain ⟨k, hk⟩ : ∃ k, 129 - name.length = k + 1 := ⟨128 - name.length, by have := h.le; omega⟩
  rw [divName, hk, List.replicate_succ]
  exact cString_append h.text _

/-! ### What is found -/

/-- What is found is a legible name, if the text has no NUL. -/
theorem scanName_legible (hzero : 0 ∉ text) (h : scanName (text.dropWhile isSpace) = some name) :
    Legible name := by
  rw [scanName] at h
  split at h
  · cases h
  · rename_i hne
    cases h
    have htake : (List.take 128 ((text.dropWhile isSpace).takeWhile (· ≠ 10))).Sublist
        (text.dropWhile isSpace) := (List.take_sublist ..).trans (List.takeWhile_sublist _)
    refine ⟨hne, List.length_take_le .., fun hmem => ?_, fun hmem => ?_, fun b hb => ?_⟩
    · exact hzero ((List.dropWhile_sublist _).subset (htake.subset hmem))
    · have hline := List.mem_takeWhile_imp ((List.take_sublist ..).subset hmem)
      exact absurd hline (by decide)
    · -- the first character is the one at which the white space ends
      have hstop := List.head?_dropWhile_not isSpace text
      cases hrest : text.dropWhile isSpace with
      | nil =>
          rw [hrest] at hb
          cases hb
      | cons a rest =>
          rw [hrest] at hstop hb hne
          rw [List.takeWhile_cons] at hb hne
          split at hb
          · obtain rfl : a = b := Option.some.inj hb
            simpa using hstop
          · cases hb

theorem sscanf_legible {x y p : Int} (hzero : 0 ∉ text)
    (h : sscanf text = some ((x, y, p), name)) : Legible name := by
  obtain ⟨⟨x', text₁⟩, hx, h⟩ := Option.bind_eq_some_iff.mp h
  obtain ⟨⟨y', text₂⟩, hy, h⟩ := Option.bind_eq_some_iff.mp h
  obtain ⟨⟨p', text₃⟩, hp, h⟩ := Option.bind_eq_some_iff.mp h
  obtain ⟨name', hname, h⟩ := Option.map_eq_some_iff.mp h
  cases h
  have hsuffix : text₃ <:+ text :=
    (scanInt_suffix hp).trans ((scanInt_suffix hy).trans (scanInt_suffix hx))
  exact scanName_legible (fun hmem => hzero (hsuffix.subset hmem)) hname

/-- **The reports.** -/
theorem report_legible (h : msg.report = some rep) :
    ∃ name, Legible name ∧ rep.name = divName name := by
  obtain ⟨⟨⟨x, y, p⟩, name⟩, hfound, h⟩ := Option.bind_eq_some_iff.mp h
  split at h
  · cases h
    exact ⟨name, sscanf_legible (zero_notMem_cString _) hfound, rfl⟩
  · cases h

/-! ### An order that comes back -/

theorem isInt32_coordinate (x : Fin 100) : IsInt32 x.val := by
  have hx := x.isLt
  constructor <;> omega

theorem valid_coordinates (x y : Fin 100) : Valid x.val y.val 1 := by
  have hx := x.isLt
  have hy := y.isLt
  exact ⟨by omega, by omega, .inr rfl⟩

theorem cString_receive {datagram : List UInt8} {addr : A} (hzero : 0 ∉ datagram)
    (hlength : datagram.length < 512) : cString (receive datagram addr).buf = datagram :=
  cString_snprintf hzero hlength

theorem zero_notMem_orderText (x y : Fin 100) (h : 0 ∉ name) : 0 ∉ orderText x y name := by
  have hx := printInt_ne_zero x.val
  have hy := printInt_ne_zero y.val
  simp [orderText, hx, hy, h]

theorem length_orderText (x y : Fin 100) (h : name.length ≤ 128) :
    (orderText x y name).length < 256 := by
  have hx := length_printInt (isInt32_coordinate x)
  have hy := length_printInt (isInt32_coordinate y)
  simp only [orderText, List.length_append, List.length_cons, List.length_nil]
  omega

/-- An order is sent as a whole. -/
theorem order_eq (x y : Fin 100) (h : Legible name) : order x y name = orderText x y name :=
  cString_snprintf (zero_notMem_orderText x y h.text) (length_orderText x y h.le)

theorem scanName_line (h : Legible name) : scanName ((name ++ [10]).dropWhile isSpace) = some name := by
  have hdrop : (name ++ [10]).dropWhile isSpace = name ++ [10] := by
    cases name with
    | nil => exact absurd rfl h.ne
    | cons b rest =>
        have hb := h.head b rfl
        rw [List.cons_append, List.dropWhile_cons, if_neg (by rw [hb]; exact Bool.false_ne_true)]
  have hall : ∀ b ∈ name, decide (b ≠ 10) = true := fun b hb =>
    decide_eq_true fun he => h.line (he ▸ hb)
  have hline : (name ++ [10]).takeWhile (· ≠ 10) = name := by
    rw [List.takeWhile_append_of_pos hall]
    exact List.append_nil _
  rw [scanName, hdrop, hline, List.take_of_length_le h.le, if_neg h.ne]

theorem sscanf_orderText (x y : Fin 100) (h : Legible name) :
    sscanf (orderText x y name) = some (((x.val : Int), (y.val : Int), 1), name) := by
  have hspace : isSpace 32 = true := rfl
  have hstop : ∀ rest : List UInt8, ∀ b ∈ (32 :: rest).head?, isDigit b = false := by
    rintro rest b ⟨⟩
    rfl
  have hx : scanInt (orderText x y name) = some ((x.val : Int), 32 :: _) :=
    scanInt_printInt (isInt32_coordinate x) (hstop _)
  have hy : scanInt (32 :: (printInt y.val ++ 32 :: 49 :: 32 :: (name ++ [10]))) =
      some ((y.val : Int), 32 :: 49 :: 32 :: (name ++ [10])) :=
    (scanInt_space hspace _).trans (scanInt_printInt (isInt32_coordinate y) (hstop _))
  have hp : scanInt (32 :: 49 :: 32 :: (name ++ [10])) = some (1, 32 :: (name ++ [10])) := by
    have hone : printInt 1 ++ 32 :: (name ++ [10]) = 49 :: 32 :: (name ++ [10]) := rfl
    rw [scanInt_space hspace, ← hone]
    exact scanInt_printInt ⟨by decide, by decide⟩ (hstop _)
  have hname : scanName ((32 :: (name ++ [10])).dropWhile isSpace) = some name := by
    rw [List.dropWhile_cons, if_pos hspace]
    exact scanName_line h
  rw [sscanf, hx, Option.bind_some, hy, Option.bind_some, hp, Option.bind_some, hname]
  rfl

/-- **An order that comes back.** -/
theorem report_order (x y : Fin 100) (h : Legible name) (addr : A) :
    (receive (order x y name) addr).report = some ⟨x, y, ours, divName name, addr⟩ := by
  have hlength : (orderText x y name).length < 512 :=
    (length_orderText x y h.le).trans (by decide)
  rw [order_eq x y h, Message.report, cString_receive (zero_notMem_orderText x y h.text) hlength,
    sscanf_orderText x y h, Option.bind_some, dif_pos (valid_coordinates x y)]
  rfl

end Sop2.Napoleon
