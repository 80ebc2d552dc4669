import Sop2.Support.Monitor

/-!
# Lab06 — Channel — Definitions

The shared structure of `lab06/channel/channel.h` and the mutex-protected sections of
`channel_produce` and `channel_consume` (`channel.c`), as a monitor: one section is what a
process does from the moment it holds `data_mtx` to the moment it sleeps in `pthread_cond_wait`
or unlocks.  The step others take under `data_mtx` is the end of `ops-double-processor.c`, which
marks the channel depleted.

A `memcpy` past the end of `data` has no defined behaviour: `Outcome.fault`.
-/

namespace Sop2.Channel
open Support

/-- `CHANNEL_SIZE`. -/
def channelSize : Nat := 4096

/-- `CHANNEL_UNINITIALIZED`, `CHANNEL_EMPTY`, `CHANNEL_OCCUPIED`, `CHANNEL_DEPLETED`. -/
inductive Status where
  | uninitialized
  | empty
  | occupied
  | depleted
  deriving DecidableEq, Repr

/-- `char data[CHANNEL_SIZE]`. -/
def Buffer : Type := { data : List UInt8 // data.length = channelSize }

/-- The buffer of a zero-filled segment. -/
def zeros : Buffer := ⟨List.replicate channelSize 0, List.length_replicate⟩

/-- `memcpy` of the bytes `src` to the start of a buffer they fit in. -/
def memcpy (dst : Buffer) (src : List UInt8) (h : src.length ≤ channelSize) : Buffer :=
  ⟨src ++ dst.1.drop src.length, by have := dst.2; simp; omega⟩

/-- `channel_t`, without its mutex and condition variables. -/
structure ChannelT where
  status : Status
  data : Buffer
  length : UInt16

/-- The condition variables of a channel. -/
inductive Cv where
  | producerCv
  | consumerCv
  deriving DecidableEq, Repr

/-- What a call returns: `channel_produce` 0, `channel_consume` 0 with the bytes it copied, and
`channel_consume` 1. -/
inductive Ret where
  | produced
  | consumed (consumedData : List UInt8)
  | depleted
  deriving DecidableEq

/-- One section of `channel_produce`. -/
def channelProduce (channel : ChannelT) (producedData : List UInt8) (length : UInt16) :
    Outcome ChannelT Cv Ret :=
  if channel.status = .occupied then .wait .producerCv
  else if h : (producedData.take length.toNat).length = length.toNat ∧
      length.toNat ≤ channelSize then
    .leave
      { data := memcpy channel.data (producedData.take length.toNat) (h.1.symm ▸ h.2)
        length := length
        status := .occupied }
      [.consumerCv] .produced
  else .fault

/-- One section of `channel_consume`. -/
def channelConsume (channel : ChannelT) : Outcome ChannelT Cv Ret :=
  if channel.status = .empty then .wait .consumerCv
  else if channel.status = .depleted then .leave channel [] .depleted
  else if channel.length.toNat ≤ channelSize then
    .leave { channel with status := .empty } [.producerCv]
      (.consumed (channel.data.1.take channel.length.toNat))
  else .fault

/-- `ops-double-processor.c`, lines 50 to 53. -/
def deplete (channel : ChannelT) : ChannelT × List Cv :=
  ({ channel with status := .depleted }, [.consumerCv])

inductive Call where
  | produce (producedData : List UInt8) (length : UInt16)
  | consume

/-- The step taken on a channel outside its two functions. -/
inductive Ext where
  | deplete
  deriving DecidableEq

/-- A channel shared by any number of processes. -/
def monitor : Monitor ChannelT Cv Call Ret Ext where
  body ch
    | .produce producedData length => channelProduce ch producedData length
    | .consume => channelConsume ch
  env ch
    | .deplete => deplete ch

variable {P : Type*}

abbrev State (P : Type*) := Monitor.State P ChannelT Cv Call

abbrev Label (P : Type*) := Monitor.Label P Call Ret Ext

/-- Nobody has called anything yet. -/
def start (ch : ChannelT) : State P := ⟨ch, fun _ => .outside⟩

/-- The messages of the completed `channel_produce` calls, in order. -/
def produced (ls : List (Label P)) : List (List UInt8) :=
  ls.filterMap fun
    | .ret _ (.produce producedData length) _ => some (producedData.take length.toNat)
    | _ => none

/-- The messages of the successful `channel_consume` calls, in order. -/
def consumed (ls : List (Label P)) : List (List UInt8) :=
  ls.filterMap fun
    | .ret _ .consume (.consumed consumedData) => some consumedData
    | _ => none

/-- The message a channel holds when its status is `CHANNEL_OCCUPIED`. -/
def buffered (ch : ChannelT) : List (List UInt8) :=
  if ch.status = .occupied then [ch.data.1.take ch.length.toNat] else []

theorem memcpy_take (dst : Buffer) {src : List UInt8} {n : Nat} (hn : src.length = n)
    (h : src.length ≤ channelSize) : (memcpy dst src h).1.take n = src := by
  subst hn; simp [memcpy]

/-! ### What a section can do -/

/-- `channel_produce` waits while the channel is occupied; else it leaves exactly its message in
the channel and signals a consumer. -/
theorem channelProduce_leave {ch ch' : ChannelT} {producedData : List UInt8} {length : UInt16}
    {cvs : List Cv} {r : Ret}
    (h : channelProduce ch producedData length = .leave ch' cvs r) :
    ch.status ≠ .occupied ∧ ch'.status = .occupied ∧ cvs = [.consumerCv] ∧ r = .produced ∧
      ch'.data.1.take ch'.length.toNat = producedData.take length.toNat := by
  unfold channelProduce at h
  split at h
  · cases h
  · rename_i hs
    split at h
    · rename_i hl
      cases h
      exact ⟨hs, rfl, rfl, rfl, memcpy_take ch.data hl.1 (hl.1.symm ▸ hl.2)⟩
    · cases h

theorem channelProduce_wait {ch : ChannelT} {producedData : List UInt8} {length : UInt16} {cv : Cv}
    (h : channelProduce ch producedData length = .wait cv) :
    ch.status = .occupied ∧ cv = .producerCv := by
  unfold channelProduce at h
  split at h
  · cases h; exact ⟨‹_›, rfl⟩
  · split at h <;> cases h

/-- `channel_consume` leaves either because the channel is depleted, changing nothing, or with
the bytes the channel holds, after which it is empty and a producer is signalled. -/
theorem channelConsume_leave {ch ch' : ChannelT} {cvs : List Cv} {r : Ret}
    (h : channelConsume ch = .leave ch' cvs r) :
    (ch.status = .depleted ∧ ch' = ch ∧ cvs = [] ∧ r = .depleted) ∨
      (ch.status ≠ .empty ∧ ch.status ≠ .depleted ∧ ch'.status = .empty ∧
        cvs = [.producerCv] ∧ r = .consumed (ch.data.1.take ch.length.toNat)) := by
  unfold channelConsume at h
  split at h
  · cases h
  · split at h
    · cases h; exact .inl ⟨‹_›, rfl, rfl, rfl⟩
    · split at h
      · cases h; exact .inr ⟨‹_›, ‹_›, rfl, rfl, rfl⟩
      · cases h

theorem channelConsume_wait {ch : ChannelT} {cv : Cv} (h : channelConsume ch = .wait cv) :
    ch.status = .empty ∧ cv = .consumerCv := by
  unfold channelConsume at h
  split at h
  · cases h; exact ⟨‹_›, rfl⟩
  · split at h
    · cases h
    · split at h <;> cases h

end Sop2.Channel
