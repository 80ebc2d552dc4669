import Sop2.Lab06.Channel.Fifo

/-!
# Lab06 — Channel — the size contract

`channel.h` says of `channel_produce` that the length "has to be always <= CHANNEL_SIZE" and that 1
is returned "when data is too big to push into channel".  `channel_produce` has no such test: it
waits or copies, and what does not fit is copied behind `data`.

* `not_refuses`, `channelProduce_tooBig`: no call is refused; what is too big is copied.
* `Bounded.step`: calls that fit keep `length` within `CHANNEL_SIZE` and every section defined.
* `size_law`: the contract is kept for the lengths up to `CHANNEL_SIZE` only; and with those, every
  state of every run is bounded.
-/

namespace Sop2.Channel
open Support Support.Monitor

/-! ### The documented refusal -/

/-- The value a call returns. -/
def Ret.code : Ret → Nat
  | .produced => 0
  | .consumed _ => 0
  | .depleted => 1

/-- The section returns 1, signals nobody and leaves the channel as it is. -/
def Refuses (ch : ChannelT) (producedData : List UInt8) (length : UInt16) : Prop :=
  ∃ r : Ret, channelProduce ch producedData length = .leave ch [] r ∧ r.code = 1

/-- `channel_produce` returns 0 wherever it returns. -/
theorem not_refuses (ch : ChannelT) (producedData : List UInt8) (length : UInt16) :
    ¬ Refuses ch producedData length := by
  rintro ⟨r, h, hr⟩
  obtain ⟨-, -, -, rfl, -⟩ := channelProduce_leave h
  cases hr

/-- What is too big for an unoccupied channel is copied over the end of `data`. -/
theorem channelProduce_tooBig {ch : ChannelT} (hch : ch.status ≠ .occupied)
    (producedData : List UInt8) {length : UInt16} (hlen : channelSize < length.toNat) :
    channelProduce ch producedData length = .fault := by
  unfold channelProduce
  rw [if_neg hch, dif_neg fun h => Nat.not_le_of_lt hlen h.2]

/-- One byte more than `data` has is not refused: it is copied behind `data`. -/
theorem tooBig_copied :
    channelProduce ⟨.empty, zeros, 0⟩ (List.replicate 4097 65) 4097 = .fault ∧
      ¬ ∀ (ch : ChannelT) (producedData : List UInt8) (length : UInt16),
        channelSize < length.toNat → Refuses ch producedData length := by
  constructor
  · exact channelProduce_tooBig (by simp) _ (by decide)
  · intro h
    exact not_refuses ⟨.empty, zeros, 0⟩ (List.replicate 4097 65) 4097 (h _ _ _ (by decide))

/-! ### Calls that fit -/

/-- The length is what the comment asks for, and the caller's buffer has that many bytes. -/
def Call.Fits : Call → Prop
  | .produce producedData length =>
      length.toNat ≤ channelSize ∧ length.toNat ≤ producedData.length
  | .consume => True

/-- A section of `channel_produce` sets `length` to the length it was given. -/
theorem channelProduce_length {ch ch' : ChannelT} {producedData : List UInt8} {length : UInt16}
    {cvs : List Cv} {r : Ret} (h : channelProduce ch producedData length = .leave ch' cvs r) :
    ch'.length = length ∧ length.toNat ≤ channelSize := by
  unfold channelProduce at h
  split at h
  · cases h
  · split at h
    · rename_i hl
      cases h
      exact ⟨rfl, hl.2⟩
    · cases h

/-- A section of `channel_consume` leaves `length` alone, and copies that many bytes of `data`. -/
theorem channelConsume_length {ch ch' : ChannelT} {cvs : List Cv} {r : Ret}
    (h : channelConsume ch = .leave ch' cvs r) :
    ch'.length = ch.length ∧ ∀ consumedData, r = .consumed consumedData →
      consumedData.length ≤ ch.length.toNat := by
  unfold channelConsume at h
  split at h
  · cases h
  · split at h
    · cases h; exact ⟨rfl, by simp⟩
    · split at h
      · cases h; exact ⟨rfl, by rintro _ ⟨⟩; exact List.length_take_le ..⟩
      · cases h

/-- On a bounded channel the section of a call that fits is defined. -/
theorem body_defined {ch : ChannelT} (hch : ch.length.toNat ≤ channelSize) {c : Call}
    (hc : c.Fits) : monitor.body ch c ≠ .fault := by
  cases c with
  | produce producedData length =>
      have htake : (producedData.take length.toNat).length = length.toNat := by
        rw [List.length_take, Nat.min_eq_left hc.2]
      change channelProduce ch producedData length ≠ .fault
      unfold channelProduce
      split
      · simp
      · rw [dif_pos ⟨htake, hc.1⟩]; simp
  | consume =>
      change channelConsume ch ≠ .fault
      unfold channelConsume
      split
      · simp
      · split
        · simp
        · simp

/-! ### Every state -/

variable {P : Type*}

/-- The channel is within its size, and so is the call of every process that is inside of one. -/
structure Bounded (s : State P) : Prop where
  length : s.shared.length.toNat ≤ channelSize
  fits : ∀ p c, (s.ctl p).call = some c → c.Fits

/-- A call that begins fits. -/
def Label.Fits : Label P → Prop
  | .call _ c => c.Fits
  | _ => True

theorem Bounded.start {ch : ChannelT} (hch : ch.length.toNat ≤ channelSize) :
    Bounded (start ch : State P) :=
  ⟨hch, by simp [Channel.start, Ctl.call]⟩

theorem Bounded.defined {s : State P} (hs : Bounded s) {p : P} {c : Call}
    (hp : s.ctl p = .awake c) : monitor.body s.shared c ≠ .fault :=
  body_defined hs.length (hs.fits p c (by rw [hp]; rfl))

variable [DecidableEq P]

/-- One step: `length` changes in a section of `channel_produce` only. -/
theorem Bounded.step {s t : State P} {l : Label P} (hs : Bounded s) (h : Step monitor s l t)
    (hl : Label.Fits l) : Bounded t := by
  constructor
  · cases h with
    | call | wait | spurious => exact hs.length
    | ret p c sh cvs r W hp hb hW =>
        cases c with
        -- a section that returns has found room
        | produce producedData length =>
            obtain ⟨hlen, hle⟩ := channelProduce_length hb
            rw [hlen]; exact hle
        | consume =>
            rw [(channelConsume_length hb).1]; exact hs.length
    | env e => cases e; exact hs.length
  -- the calls that are inside: one that begins fits, the others were inside before
  · intro q d hq
    rw [h.call_eq q] at hq
    cases l with
    | call p c =>
        dsimp only at hq
        split at hq
        · cases hq; exact hl
        · exact hs.fits q d hq
    | ret p c r =>
        dsimp only at hq
        split at hq
        · cases hq
        · exact hs.fits q d hq
    | wait | spurious | env => exact hs.fits q d hq

/-- A bounded channel gives no more than `CHANNEL_SIZE` bytes to a consumer. -/
theorem Bounded.consumed {s t : State P} {l : Label P} (hs : Bounded s) (h : Step monitor s l t) :
    ∀ d ∈ consumed [l], d.length ≤ channelSize := by
  intro d hd
  cases h with
  | call | wait | spurious | env => simp [Channel.consumed] at hd
  | ret p c sh cvs r W hp hb hW =>
      cases c with
      | produce => simp [Channel.consumed] at hd
      | consume =>
          cases r with
          | produced | depleted => simp [Channel.consumed] at hd
          | consumed consumedData =>
              obtain rfl : d = consumedData := by simpa [Channel.consumed] using hd
              exact Nat.le_trans ((channelConsume_length hb).2 d rfl) hs.length

/-- A run whose calls fit, from a bounded channel. -/
theorem bounded_run {ch : ChannelT} (hch : ch.length.toNat ≤ channelSize)
    {tr : List (Move (State P) (Label P))} {s : State P} (r : Run (Step monitor) (start ch) tr s)
    (hl : ∀ m ∈ tr, Label.Fits m.label) :
    Bounded s ∧ ∀ d ∈ consumed (labels tr), d.length ≤ channelSize := by
  induction r with
  | refl => exact ⟨.start hch, by simp [labels, consumed]⟩
  | @snoc t u tr l r h ih =>
      obtain ⟨ht, hd⟩ := ih fun m hm => hl m (List.mem_append_left _ hm)
      refine ⟨ht.step h (hl ⟨t, l, u⟩ (by simp)), ?_⟩
      rw [labels_snoc, consumed_append]
      exact List.forall_mem_append.mpr ⟨hd, ht.consumed h⟩

/-- **The size contract.**  A length is either at most `CHANNEL_SIZE`, or the call is not refused as
it should be.  If all calls of a run fit, then in every state that it reaches `length` is at most
`CHANNEL_SIZE`, no section copies over the end of `data`, and no more than `CHANNEL_SIZE` bytes were
copied to any consumer. -/
theorem size_law :
    (∀ (ch : ChannelT) (producedData : List UInt8) (length : UInt16),
      (channelSize < length.toNat → Refuses ch producedData length) ↔
        length.toNat ≤ channelSize) ∧
    ∀ (ch : ChannelT) (tr : List (Move (State P) (Label P))) (s : State P),
      ch.length.toNat ≤ channelSize → Run (Step monitor) (start ch) tr s →
      (∀ m ∈ tr, Label.Fits m.label) →
      s.shared.length.toNat ≤ channelSize ∧
        (∀ p c, s.ctl p = .awake c → monitor.body s.shared c ≠ .fault) ∧
        ∀ d ∈ consumed (labels tr), d.length ≤ channelSize := by
  constructor
  · intro ch producedData length
    constructor
    · intro h
      by_contra hlt
      exact not_refuses ch producedData length (h (Nat.lt_of_not_le hlt))
    · intro hle hlt
      exact absurd hlt (Nat.not_lt_of_le hle)
  · intro ch tr s hch r hl
    obtain ⟨hs, hd⟩ := bounded_run hch r hl
    exact ⟨hs.length, fun p c hp => hs.defined hp, hd⟩

theorem size_law_two_calls :
    ∃ (tr : List (Move (State Bool) (Label Bool))) (s : State Bool),
      consumed (labels tr) = [[7, 9]] ∧ s.shared.length.toNat ≤ channelSize ∧
        ∀ d ∈ consumed (labels tr), d.length ≤ channelSize := by
  obtain ⟨tr₁, r₁, l₁⟩ := run_alone (M := monitor) (s := start ⟨.empty, zeros, 0⟩)
    (fun _ => rfl) true (c := .produce [7, 9] 2)
    (x := ⟨.occupied, memcpy zeros [7, 9] (by decide), 2⟩) rfl
  obtain ⟨tr₂, r₂, l₂⟩ := run_alone (M := monitor)
    (s := ⟨⟨.occupied, memcpy zeros [7, 9] (by decide), 2⟩, fun _ => .outside⟩)
    (fun _ => rfl) false (c := .consume) rfl
  have hfits : ∀ m ∈ tr₁ ++ tr₂, Label.Fits m.label := by
    intro m hm
    have hl : m.label ∈ labels (tr₁ ++ tr₂) := List.mem_map_of_mem hm
    rw [labels, List.map_append, l₁, l₂] at hl
    simp only [List.cons_append, List.nil_append, List.mem_cons, List.not_mem_nil, or_false] at hl
    rcases hl with hl | hl | hl | hl <;> rw [hl] <;> simp [Label.Fits, Call.Fits, channelSize]
  obtain ⟨hlen, -, hd⟩ := size_law.2 _ _ _ (by decide) (r₁.trans r₂) hfits
  refine ⟨tr₁ ++ tr₂, _, ?_, hlen, hd⟩
  rw [labels, List.map_append, l₁, l₂]; rfl

end Sop2.Channel
