import Sop2.Lab06.Channel.Definitions
import Sop2.Support.Shared

/-!
# Lab06 — Channel — opening

`channel_open` of `lab06/channel/channel.c`, line by line, by any number of processes, among the
lines of `channel_produce`, `channel_consume` and the end of `ops-double-processor.c` of those that
have opened the channel.  The named semaphore has the value 1 when it is created; an object that
`ftruncate` gives its size is zero-filled; nobody dies between `sem_wait` and `sem_post`.

`channel_open` takes `status` without `data_mtx`, at any line of the others.  A sleeper in
`pthread_cond_wait` may go on at any time: a signal and a wake-up for no reason are one.

* `Stage`: what an opener knows at each of its lines between `sem_wait` and `sem_post`.
* `section_lines`: the lines of a call are its section of `Definitions`.
* `open_law`: the block that initialises runs once; nobody returns before it has; and afterwards no
  `channel_open` changes the channel.
-/

namespace Sop2.Channel
open Support Support.Shared

/-- The lines of `channel_open`. -/
inductive Opener where
  | semOpen
  | semWait
  | shmOpen
  | ftruncate
  | mmap
  | test
  | initMutex
  | initProducerCv
  | initConsumerCv
  | setEmpty
  | setLength
  | semPost
  deriving DecidableEq

/-- What a process does with a channel that it has opened. -/
inductive Deed where
  | call (c : Call)
  | ext (e : Ext)

/-- The lines of `channel_produce` and `channel_consume`. -/
inductive Line where
  | lock
  | test
  | sleep
  | copy
  | setLength
  | setStatus
  | signal
  | unlock

/-- Where a process is. -/
inductive Pc where
  | outside
  | opening (o : Opener)
  | opened
  | inside (d : Deed) (l : Line)

variable {P : Type*}

/-- What the processes share: the named semaphore, once it is created, and the segment. -/
structure Memory (P : Type*) where
  sem : Option Nat
  /-- The object has the size of a `channel_t`. -/
  sized : Bool
  channel : ChannelT
  mutexReady : Bool
  producerReady : Bool
  consumerReady : Bool
  /-- Who holds `data_mtx`. -/
  owner : Option P
  /-- How often the block of lines 46 to 60 was entered. -/
  inits : Nat
  /-- How often `channel_open` has got to its end. -/
  returns : Nat

/-- One line of `channel_open`. -/
def openLine (o : Opener) (m : Memory P) : Option (Memory P × Pc) :=
  match o with
  | .semOpen => some ({ m with sem := some (m.sem.getD 1) }, .opening .semWait)
  | .semWait =>
      match m.sem with
      | some (value + 1) => some ({ m with sem := some value }, .opening .shmOpen)
      | _ => none
  | .shmOpen => some (m, .opening .ftruncate)
  | .ftruncate =>
      some (if m.sized then m
        else { m with sized := true, channel := ⟨.uninitialized, zeros, 0⟩ }, .opening .mmap)
  | .mmap => some (m, .opening .test)
  | .test =>
      some (m, .opening (if m.channel.status = .uninitialized then .initMutex else .semPost))
  | .initMutex =>
      some ({ m with mutexReady := true, owner := none, inits := m.inits + 1 },
        .opening .initProducerCv)
  | .initProducerCv => some ({ m with producerReady := true }, .opening .initConsumerCv)
  | .initConsumerCv => some ({ m with consumerReady := true }, .opening .setEmpty)
  | .setEmpty =>
      some ({ m with channel := { m.channel with status := .empty } }, .opening .setLength)
  | .setLength => some ({ m with channel := { m.channel with length := 0 } }, .opening .semPost)
  | .semPost => some ({ m with sem := m.sem.map (· + 1), returns := m.returns + 1 }, .opened)

/-- The condition of the `while`. -/
def Deed.waits (ch : ChannelT) : Deed → Prop
  | .call (.produce _ _) => ch.status = .occupied
  | .call .consume => ch.status = .empty
  | .ext .deplete => False

instance (ch : ChannelT) : (d : Deed) → Decidable (d.waits ch)
  | .call (.produce _ _) => inferInstanceAs (Decidable (ch.status = .occupied))
  | .call .consume => inferInstanceAs (Decidable (ch.status = .empty))
  | .ext .deplete => inferInstanceAs (Decidable False)

/-- Where a call goes on behind the `while`. -/
def Deed.next (ch : ChannelT) : Deed → Line
  | .call (.produce _ _) => .copy
  | .call .consume => if ch.status = .depleted then .unlock else .copy
  | .ext .deplete => .setStatus

theorem take_fits {producedData : List UInt8} {length : UInt16}
    (h : (producedData.take length.toNat).length = length.toNat ∧ length.toNat ≤ channelSize) :
    (producedData.take length.toNat).length ≤ channelSize :=
  h.1.symm ▸ h.2

/-- `memcpy`, if it stays within `data`. -/
def Deed.copy (ch : ChannelT) : Deed → Option ChannelT
  | .call (.produce producedData length) =>
      if h : (producedData.take length.toNat).length = length.toNat ∧
          length.toNat ≤ channelSize then
        some { ch with data := memcpy ch.data (producedData.take length.toNat) (take_fits h) }
      else none
  | .call .consume => if ch.length.toNat ≤ channelSize then some ch else none
  | .ext .deplete => some ch

def Deed.setLength (ch : ChannelT) : Deed → ChannelT
  | .call (.produce _ length) => { ch with length := length }
  | .call .consume => ch
  | .ext .deplete => ch

def Deed.setStatus (ch : ChannelT) : Deed → ChannelT
  | .call (.produce _ _) => { ch with status := .occupied }
  | .call .consume => { ch with status := .empty }
  | .ext .deplete => { ch with status := .depleted }

/-- One line of `channel_produce`, of `channel_consume`, or of `ops-double-processor.c`. -/
def useLine (p : P) (d : Deed) (l : Line) (m : Memory P) : Option (Memory P × Pc) :=
  match l with
  | .lock => if m.owner.isNone then some ({ m with owner := some p }, .inside d .test) else none
  | .test =>
      some (if d.waits m.channel then ({ m with owner := none }, .inside d .sleep)
        else (m, .inside d (d.next m.channel)))
  | .sleep => some (m, .inside d .lock)
  | .copy => (d.copy m.channel).map fun ch => ({ m with channel := ch }, .inside d .setLength)
  | .setLength => some ({ m with channel := d.setLength m.channel }, .inside d .setStatus)
  | .setStatus => some ({ m with channel := d.setStatus m.channel }, .inside d .signal)
  | .signal => some (m, .inside d .unlock)
  | .unlock => some ({ m with owner := none }, .opened)

/-- What a process that has opened the channel does next: a call, or `channel_close`. -/
inductive Wish where
  | use (d : Deed)
  | close

/-- Whose line a step is. -/
inductive Event (P : Type*) where
  | opening (p : P)
  | other (p : P)

/-- The process `p`. -/
def work (p : P) : Program (Memory P) Wish (Event P) Pc
  | .outside, m, _ => some (some (.other p), m, .opening .semOpen)
  | .opening o, m, _ => (openLine o m).map fun (m, pc) => (some (.opening p), m, pc)
  | .opened, m, .use d => some (some (.other p), m, .inside d .lock)
  | .opened, m, .close => some (some (.other p), m, .outside)
  | .inside d l, m, _ => (useLine p d l m).map fun (m, pc) => (some (.other p), m, pc)

/-- There is no other party. -/
def nobody : Program (Memory P) Wish (Event P) Unit := fun _ _ _ => none

abbrev Openers (P : Type*) := Shared.State P (Memory P) Unit Pc

/-- Nobody has opened the channel, and there is neither a semaphore nor a segment. -/
def unopened : Openers P where
  data := ⟨none, false, ⟨.uninitialized, zeros, 0⟩, false, false, false, none, 0, 0⟩
  server := ()
  client _ := .outside

/-! ### Between `sem_wait` and `sem_post` -/

/-- The mutex and the condition variables are initialised. -/
def Memory.Ready (m : Memory P) : Prop :=
  m.mutexReady = true ∧ m.producerReady = true ∧ m.consumerReady = true

/-- The segment is initialised, and this was done once. -/
structure Initialised (m : Memory P) : Prop where
  sized : m.sized = true
  status : m.channel.status ≠ .uninitialized
  inits : m.inits = 1
  ready : m.Ready

/-- Nobody has come to the block, nor to the end. -/
structure Untouched (m : Memory P) : Prop where
  inits : m.inits = 0
  returns : m.returns = 0

/-- Somebody is in the block, for the first time. -/
structure Begun (m : Memory P) : Prop where
  sized : m.sized = true
  inits : m.inits = 1
  returns : m.returns = 0
  mutexReady : m.mutexReady = true

/-- What holds while nobody is between `sem_wait` and `sem_post`. -/
def Settled (m : Memory P) : Prop := Untouched m ∧ m.sized = false ∨ Initialised m

/-- What holds before each line of the process that is between `sem_wait` and `sem_post`. -/
def Stage (m : Memory P) : Opener → Prop
  | .semOpen | .semWait => False
  | .shmOpen | .ftruncate => Settled m
  | .mmap | .test =>
      Untouched m ∧ m.sized = true ∧ m.channel.status = .uninitialized ∨ Initialised m
  | .initMutex => Untouched m ∧ m.sized = true
  | .initProducerCv => Begun m
  | .initConsumerCv => Begun m ∧ m.producerReady = true
  | .setEmpty => Begun m ∧ m.Ready
  | .setLength => Begun m ∧ m.Ready ∧ m.channel.status = .empty
  | .semPost => Initialised m

variable {m m' : Memory P} {o : Opener} {pc : Pc}

/-- Once somebody has returned, the segment is initialised. -/
theorem Settled.initialised (h : Settled m) (hr : 0 < m.returns) : Initialised m :=
  h.resolve_left fun h => absurd h.1.returns (Nat.ne_of_gt hr)

theorem Stage.initialised (h : Stage m o) (hr : 0 < m.returns) : Initialised m := by
  have hne : m.returns ≠ 0 := Nat.ne_of_gt hr
  cases o with
  | semOpen | semWait => exact h.elim
  | shmOpen | ftruncate => exact Settled.initialised h hr
  | mmap | test => exact h.resolve_left fun h => hne h.1.returns
  | initMutex => exact (hne h.1.returns).elim
  | initProducerCv => exact (hne h.returns).elim
  | initConsumerCv | setEmpty | setLength => exact (hne h.1.returns).elim
  | semPost => exact h

theorem Settled.inits_le (h : Settled m) : m.inits ≤ 1 := by
  rcases h with h | h
  · simp [h.1.inits]
  · exact Nat.le_of_eq h.inits

theorem Stage.inits_le (h : Stage m o) : m.inits ≤ 1 := by
  cases o with
  | semOpen | semWait => exact h.elim
  | shmOpen | ftruncate => exact Settled.inits_le h
  | mmap | test =>
      rcases h with h | h
      · simp [h.1.inits]
      · exact Nat.le_of_eq h.inits
  | initMutex => simp [h.1.inits]
  | initProducerCv | semPost => exact Nat.le_of_eq h.inits
  | initConsumerCv | setEmpty | setLength => exact Nat.le_of_eq h.1.inits

/-- The semaphore is not a part of the segment. -/
theorem Initialised.gate (h : Initialised m) (sem : Option Nat) :
    Initialised { m with sem := sem } :=
  ⟨h.sized, h.status, h.inits, h.ready⟩

theorem Settled.gate (h : Settled m) (sem : Option Nat) : Settled { m with sem := sem } :=
  h.imp (fun h => ⟨⟨h.1.inits, h.1.returns⟩, h.2⟩) fun h => h.gate sem

theorem Stage.gate (h : Stage m o) (sem : Option Nat) : Stage { m with sem := sem } o := by
  have hbegun : ∀ {m : Memory P}, Begun m → Begun { m with sem := sem } :=
    fun h => ⟨h.sized, h.inits, h.returns, h.mutexReady⟩
  cases o with
  | semOpen | semWait => exact h
  | shmOpen | ftruncate => exact Settled.gate h sem
  | mmap | test => exact h.imp (fun h => ⟨⟨h.1.inits, h.1.returns⟩, h.2⟩) fun h => h.gate sem
  | initMutex => exact ⟨⟨h.1.inits, h.1.returns⟩, h.2⟩
  | initProducerCv => exact hbegun h
  | initConsumerCv | setEmpty | setLength => exact ⟨hbegun h.1, h.2⟩
  | semPost => exact Initialised.gate h sem

/-- **One line of an opener.**  It leads to the next stage, or out with the semaphore posted. -/
theorem Stage.line (h : Stage m o) (hline : openLine o m = some (m', pc)) :
    (∃ o', pc = .opening o' ∧ Stage m' o' ∧ m'.sem = m.sem ∧ m'.returns = m.returns) ∨
      pc = .opened ∧ Settled m' ∧ m'.sem = m.sem.map (· + 1) ∧ m'.returns = m.returns + 1 := by
  cases o with
  | semOpen | semWait => exact h.elim
  | shmOpen =>
      cases hline
      exact .inl ⟨_, rfl, h, rfl, rfl⟩
  | ftruncate =>
      cases hline
      refine .inl ⟨_, rfl, ?_, ?_⟩
      · rcases h with ⟨hu, hsized⟩ | h
        · rw [hsized]
          exact .inl ⟨⟨hu.inits, hu.returns⟩, rfl, rfl⟩
        · rw [h.sized]
          exact .inr h
      · split <;> exact ⟨rfl, rfl⟩
  | mmap =>
      cases hline
      exact .inl ⟨_, rfl, h, rfl, rfl⟩
  | test =>
      cases hline
      refine .inl ⟨_, rfl, ?_, rfl, rfl⟩
      rcases h with ⟨hu, hsized, hstatus⟩ | h
      · rw [if_pos hstatus]
        exact ⟨hu, hsized⟩
      · rw [if_neg h.status]
        exact h
  | initMutex =>
      cases hline
      exact .inl ⟨_, rfl, ⟨h.2, by simp [h.1.inits], h.1.returns, rfl⟩, rfl, rfl⟩
  | initProducerCv =>
      cases hline
      exact .inl ⟨_, rfl, ⟨⟨h.sized, h.inits, h.returns, h.mutexReady⟩, rfl⟩, rfl, rfl⟩
  | initConsumerCv =>
      cases hline
      obtain ⟨hb, hproducer⟩ := h
      exact .inl ⟨_, rfl, ⟨⟨hb.sized, hb.inits, hb.returns, hb.mutexReady⟩,
        hb.mutexReady, hproducer, rfl⟩, rfl, rfl⟩
  | setEmpty =>
      cases hline
      obtain ⟨hb, hready⟩ := h
      exact .inl ⟨_, rfl, ⟨⟨hb.sized, hb.inits, hb.returns, hb.mutexReady⟩, hready, rfl⟩, rfl, rfl⟩
  | setLength =>
      cases hline
      obtain ⟨hb, hready, hstatus⟩ := h
      exact .inl ⟨_, rfl, ⟨hb.sized, by simp [hstatus], hb.inits, hready⟩, rfl, rfl⟩
  | semPost =>
      cases hline
      exact .inr ⟨rfl, .inr ⟨h.sized, h.status, h.inits, h.ready⟩, rfl, rfl⟩

/-- When somebody has returned, the lines of an opener leave the channel as it is. -/
theorem Stage.keeps (h : Stage m o) (hr : 0 < m.returns) (hline : openLine o m = some (m', pc)) :
    m'.channel = m.channel := by
  have hne : m.returns ≠ 0 := Nat.ne_of_gt hr
  cases o with
  | semOpen | semWait => exact h.elim
  | shmOpen | mmap | test | initMutex | initProducerCv | initConsumerCv | semPost =>
      cases hline
      rfl
  | ftruncate =>
      cases hline
      rw [if_pos (Settled.initialised h hr).sized]
  | setEmpty | setLength => exact (hne h.1.returns).elim

/-! ### The lines of the others -/

/-- What the users of the channel leave alone. -/
structure Keeps (m m' : Memory P) : Prop where
  sem : m'.sem = m.sem
  sized : m'.sized = m.sized
  ready : m.Ready → m'.Ready
  inits : m'.inits = m.inits
  returns : m'.returns = m.returns
  status : m.channel.status ≠ .uninitialized → m'.channel.status ≠ .uninitialized

theorem Keeps.initialised (h : Keeps m m') (hm : Initialised m) : Initialised m' :=
  ⟨h.sized.trans hm.sized, h.status hm.status, h.inits.trans hm.inits, h.ready hm.ready⟩

/-- A stage that somebody has returned before is one after every line of a user. -/
theorem Keeps.stage (h : Keeps m m') (hr : 0 < m.returns) (hm : Stage m o) : Stage m' o := by
  have hinit := h.initialised (hm.initialised hr)
  have hne : m.returns ≠ 0 := Nat.ne_of_gt hr
  cases o with
  | semOpen | semWait => exact hm.elim
  | shmOpen | ftruncate | mmap | test => exact .inr hinit
  | initMutex | initConsumerCv | setEmpty | setLength => exact (hne hm.1.returns).elim
  | initProducerCv => exact (hne hm.returns).elim
  | semPost => exact hinit

/-- A process that has opened the channel and not closed it. -/
def Pc.HasOpened : Pc → Prop
  | .opened | .inside _ _ => True
  | _ => False

theorem copy_status {d : Deed} {ch ch' : ChannelT} (h : d.copy ch = some ch') :
    ch'.status = ch.status := by
  rcases d with (_ | _) | _
  · simp only [Deed.copy] at h
    split at h
    · cases h
      rfl
    · cases h
  · simp only [Deed.copy] at h
    split at h
    · cases h
      rfl
    · cases h
  · cases h
    rfl

/-- **One line of a user.** -/
theorem useLine_keeps {p : P} {d : Deed} {l : Line} (hline : useLine p d l m = some (m', pc)) :
    Keeps m m' ∧ pc.HasOpened := by
  have hkeeps : ∀ {ch : ChannelT} {owner : Option P},
      (m.channel.status ≠ .uninitialized → ch.status ≠ .uninitialized) →
      Keeps m { m with channel := ch, owner := owner } :=
    fun hs => ⟨rfl, rfl, id, rfl, rfl, hs⟩
  cases l with
  | lock =>
      simp only [useLine] at hline
      split at hline
      · cases hline
        exact ⟨hkeeps id, trivial⟩
      · cases hline
  | test =>
      simp only [useLine] at hline
      split at hline
      · cases hline
        exact ⟨hkeeps id, trivial⟩
      · cases hline
        exact ⟨hkeeps id, trivial⟩
  | sleep | signal | unlock =>
      cases hline
      exact ⟨hkeeps id, trivial⟩
  | copy =>
      obtain ⟨ch, hch, heq⟩ := Option.map_eq_some_iff.mp hline
      cases heq
      exact ⟨hkeeps fun hs => by rwa [copy_status hch], trivial⟩
  | setLength =>
      cases hline
      refine ⟨hkeeps fun hs => ?_, trivial⟩
      rcases d with (_ | _) | _ <;> exact hs
  | setStatus =>
      cases hline
      refine ⟨hkeeps fun _ => ?_, trivial⟩
      rcases d with (_ | _) | _ <;> exact nofun

/-! ### The lines of a call are its section -/

theorem waits_iff (ch : ChannelT) (c : Call) :
    Deed.waits ch (.call c) ↔ ∃ cv, monitor.body ch c = .wait cv := by
  cases c with
  | produce producedData length =>
      constructor
      · exact fun h => ⟨.producerCv, if_pos h⟩
      · exact fun ⟨cv, h⟩ => (channelProduce_wait h).1
  | consume =>
      constructor
      · exact fun h => ⟨.consumerCv, if_pos h⟩
      · exact fun ⟨cv, h⟩ => (channelConsume_wait h).1

section

variable {s : Openers P} [DecidableEq P]

theorem line_step {p : P} {d : Deed} {l : Line} (hp : s.client p = .inside d l)
    (hline : useLine p d l s.data = some (m, pc)) :
    ∃ t, Step nobody work s (some (.other p)) t ∧ t.client p = pc ∧ t.data = m :=
  ⟨_, .client p .close _ m pc (by rw [hp, work, hline]; rfl), Function.update_self .., rfl⟩

/-- The lines from `memcpy` to `pthread_mutex_unlock`. -/
theorem copy_lines {p : P} {d : Deed} {ch : ChannelT} (hp : s.client p = .inside d .copy)
    (hcopy : d.copy s.data.channel = some ch) :
    ∃ tr t, Run (Step nobody work) s tr t ∧ t.client p = .inside d .unlock ∧
      t.data.channel = d.setStatus (d.setLength ch) := by
  have hline : useLine p d .copy s.data =
      some ({ s.data with channel := ch }, .inside d .setLength) := by
    rw [useLine, hcopy]
    rfl
  obtain ⟨t₁, h₁, hp₁, hm₁⟩ := line_step hp hline
  obtain ⟨t₂, h₂, hp₂, hm₂⟩ := line_step hp₁ rfl
  obtain ⟨t₃, h₃, hp₃, hm₃⟩ := line_step hp₂ rfl
  obtain ⟨t₄, h₄, hp₄, hm₄⟩ := line_step hp₃ rfl
  exact ⟨_, t₄, (((Run.one h₁).snoc h₂).snoc h₃).snoc h₄, hp₄, by rw [hm₄, hm₃, hm₂, hm₁]⟩

/-- **The lines of a call**, with nobody in between, leave the channel as its section does. -/
theorem section_lines {p : P} {c : Call} {ch : ChannelT} {cvs : List Cv} {r : Ret}
    (hp : s.client p = .inside (.call c) .test)
    (hc : monitor.body s.data.channel c = .leave ch cvs r) :
    ∃ tr t, Run (Step nobody work) s tr t ∧ t.client p = .inside (.call c) .unlock ∧
      t.data.channel = ch := by
  have hwaits : ¬ Deed.waits s.data.channel (.call c) := fun h => by
    obtain ⟨cv, hcv⟩ := (waits_iff _ c).mp h
    cases hcv.symm.trans hc
  obtain ⟨t, h, hpt, hm⟩ := line_step hp (show _ = some _ from congrArg some (if_neg hwaits))
  have hcopies : ∀ {ch' : ChannelT}, Deed.next s.data.channel (.call c) = .copy →
      Deed.copy s.data.channel (.call c) = some ch' →
      Deed.setStatus (Deed.setLength ch' (.call c)) (.call c) = ch →
      ∃ tr t, Run (Step nobody work) s tr t ∧ t.client p = .inside (.call c) .unlock ∧
        t.data.channel = ch := fun {ch'} hnext hcopy hch => by
    obtain ⟨tr, u, r, hu, hdata⟩ := copy_lines (hnext ▸ hpt) (hm ▸ hcopy)
    exact ⟨_, u, (Run.one h).trans r, hu, hdata.trans hch⟩
  cases c with
  | produce producedData length =>
      simp only [monitor, channelProduce] at hc
      rw [if_neg (show ¬ s.data.channel.status = .occupied from hwaits)] at hc
      split at hc
      · rename_i hfits
        cases hc
        exact hcopies rfl (dif_pos hfits) rfl
      · cases hc
  | consume =>
      simp only [monitor, channelConsume] at hc
      rw [if_neg (show ¬ s.data.channel.status = .empty from hwaits)] at hc
      split at hc
      · rename_i hdepleted
        cases hc
        have hnext : Deed.next s.data.channel (.call .consume) = .unlock := if_pos hdepleted
        exact ⟨_, t, .one h, hnext ▸ hpt, by rw [hm]⟩
      · rename_i hdepleted
        split at hc
        · rename_i hlen
          cases hc
          exact hcopies (if_neg hdepleted) (if_pos hlen) rfl
        · cases hc

end

/-! ### The whole run -/

/-- Between `sem_wait` and `sem_post`. -/
def Pc.InSection : Pc → Prop
  | .opening o => o ≠ .semOpen ∧ o ≠ .semWait
  | _ => False

/-- One opener at a time is between `sem_wait` and `sem_post`, and who uses the channel does so
after somebody has returned. -/
structure Sound (s : Openers P) : Prop where
  users : ∀ p, (s.client p).HasOpened → 0 < s.data.returns
  gate : (∃ p o, s.client p = .opening o ∧ s.data.sem = some 0 ∧ Stage s.data o ∧
      ∀ q, (s.client q).InSection → q = p) ∨
    (∀ q, ¬ (s.client q).InSection) ∧ s.data.sem.getD 1 = 1 ∧ Settled s.data

theorem sound_unopened : Sound (unopened : Openers P) :=
  ⟨fun _ => False.elim, .inr ⟨fun _ => id, rfl, .inl ⟨⟨rfl, rfl⟩, rfl⟩⟩⟩

variable {s t : Openers P}

/-- Once somebody has returned, the segment is initialised. -/
theorem Sound.initialised (h : Sound s) (hr : 0 < s.data.returns) : Initialised s.data := by
  rcases h.gate with ⟨p, o, -, -, hstage, -⟩ | ⟨-, -, hsettled⟩
  · exact hstage.initialised hr
  · exact hsettled.initialised hr

theorem Sound.inits_le (h : Sound s) : s.data.inits ≤ 1 := by
  rcases h.gate with ⟨p, o, -, -, hstage, -⟩ | ⟨-, -, hsettled⟩
  · exact hstage.inits_le
  · exact hsettled.inits_le

/-- The opener between `sem_wait` and `sem_post` holds the semaphore, alone. -/
theorem Sound.holder (h : Sound s) {p : P} (hp : s.client p = .opening o)
    (ho : o ≠ .semOpen ∧ o ≠ .semWait) :
    s.data.sem = some 0 ∧ Stage s.data o ∧ ∀ q, (s.client q).InSection → q = p := by
  have hin : (s.client p).InSection := by rw [hp]; exact ho
  obtain ⟨q, o', hq, hs, hstage, honly⟩ := h.gate.resolve_right fun hno => hno.1 p hin
  obtain rfl := honly p hin
  obtain rfl := Pc.opening.inj (hp.symm.trans hq)
  exact ⟨hs, hstage, honly⟩

variable [DecidableEq P]

/-- A process moves, and not between `sem_wait` and `sem_post`. -/
theorem Sound.moves (h : Sound s) {p : P} {m : Memory P} {pc : Pc}
    (hp : ¬ (s.client p).InSection) (hpc : ¬ pc.InSection) (hsem : m.sem.getD 1 = s.data.sem.getD 1)
    (hreturns : m.returns = s.data.returns) (huser : pc.HasOpened → 0 < m.returns)
    (hstage : ∀ o, Stage s.data o → Stage m o) (hsettled : Settled s.data → Settled m) :
    Sound ⟨m, s.server, Function.update s.client p pc⟩ := by
  have hsection : ∀ q, (Function.update s.client p pc q).InSection → (s.client q).InSection :=
    (Function.forall_update_iff s.client fun q pc => pc.InSection → (s.client q).InSection).mpr
      ⟨fun h => (hpc h).elim, fun _ _ => id⟩
  refine ⟨(Function.forall_update_iff s.client fun _ pc => pc.HasOpened → 0 < m.returns).mpr
    ⟨huser, fun q _ hq => hreturns ▸ h.users q hq⟩, ?_⟩
  rcases h.gate with ⟨q, o, hq, hs, ho, honly⟩ | ⟨hnone, hs, ho⟩
  · left
    have hne : q ≠ p := by
      rintro rfl
      rw [hq] at hp
      cases o with
      | semOpen | semWait => exact ho
      | _ => exact hp ⟨nofun, nofun⟩
    refine ⟨q, o, (Function.update_of_ne hne ..).trans hq, ?_, hstage o ho,
      fun r hr => honly r (hsection r hr)⟩
    rw [hs] at hsem
    cases hm : m.sem with
    | none => rw [hm] at hsem; cases hsem
    | some v => rw [hm] at hsem; exact congrArg some hsem
  · exact .inr ⟨fun q hq => hnone q (hsection q hq), hsem.trans hs, hsettled ho⟩

/-- The opener between `sem_wait` and `sem_post` moves. -/
theorem Sound.opens (h : Sound s) {p : P} {o : Opener} (hp : s.client p = .opening o)
    (ho : o ≠ .semOpen ∧ o ≠ .semWait) {m : Memory P} {pc : Pc}
    (hline : openLine o s.data = some (m, pc)) :
    Sound ⟨m, s.server, Function.update s.client p pc⟩ := by
  obtain ⟨hs, hstage, honly⟩ := h.holder hp ho
  have hothers : ∀ q, q ≠ p → ¬ (Function.update s.client p pc q).InSection := fun q hqp hq => by
    rw [Function.update_of_ne hqp] at hq
    exact hqp (honly q hq)
  rcases hstage.line hline with ⟨o', rfl, hstage', hs', hr⟩ | ⟨rfl, hsettled, hs', hr⟩
  · refine ⟨(Function.forall_update_iff s.client fun _ pc => pc.HasOpened → 0 < m.returns).mpr
      ⟨False.elim, fun q _ hq => hr ▸ h.users q hq⟩, .inl ⟨p, o', ?_, hs'.trans hs, hstage', ?_⟩⟩
    · exact Function.update_self ..
    · exact fun q hq => by_contra fun hqp => hothers q hqp hq
  · have hpos : 0 < m.returns := hr ▸ Nat.succ_pos _
    refine ⟨fun _ _ => hpos, .inr ⟨fun q hq => ?_, ?_, hsettled⟩⟩
    · by_cases hqp : q = p
      · change (Function.update s.client p .opened q).InSection at hq
        rw [hqp, Function.update_self] at hq
        exact hq
      · exact hothers q hqp hq
    · rw [hs', hs]
      rfl

/-- `sem_wait` lets an opener in when nobody is there. -/
theorem Sound.enters (h : Sound s) {p : P} {m : Memory P} {pc : Pc}
    (hline : openLine .semWait s.data = some (m, pc)) :
    Sound ⟨m, s.server, Function.update s.client p pc⟩ := by
  simp only [openLine] at hline
  split at hline
  · rename_i value hsem
    cases hline
    obtain ⟨hnone, hone, hsettled⟩ := h.gate.resolve_left fun ⟨_, _, _, hs, _⟩ => by
      cases hsem.symm.trans hs
    obtain rfl : value = 0 := by
      rw [hsem] at hone
      exact Nat.succ.inj hone
    refine ⟨(Function.forall_update_iff s.client fun _ pc => pc.HasOpened → 0 < s.data.returns).mpr
      ⟨False.elim, fun q _ => h.users q⟩, .inl ⟨p, .shmOpen, ?_, rfl, hsettled.gate _, ?_⟩⟩
    · exact Function.update_self ..
    · intro q hq
      by_contra hqp
      change (Function.update s.client p _ q).InSection at hq
      rw [Function.update_of_ne hqp] at hq
      exact hnone q hq
  · cases hline

/-- **Every step.** -/
theorem Sound.step {l : Option (Event P)} (h : Sound s) (hstep : Step nobody work s l t) :
    Sound t := by
  cases hstep with
  | server a l d q hs => cases hs
  | client p a l m pc hw =>
      cases hp : s.client p with
      | outside =>
          rw [hp] at hw
          cases hw
          exact h.moves (by rw [hp]; exact id) (by simp [Pc.InSection]) rfl rfl nofun
            (fun _ => id) id
      | opened =>
          rw [hp] at hw
          have hr : 0 < s.data.returns := h.users p (by rw [hp]; trivial)
          cases a with
          | use d =>
              cases hw
              exact h.moves (by rw [hp]; exact id) id rfl rfl (fun _ => hr) (fun _ => id) id
          | close =>
              cases hw
              exact h.moves (by rw [hp]; exact id) id rfl rfl nofun (fun _ => id) id
      | inside d l =>
          rw [hp] at hw
          have hr : 0 < s.data.returns := h.users p (by rw [hp]; trivial)
          obtain ⟨⟨m', pc'⟩, hline, heq⟩ := Option.map_eq_some_iff.mp hw
          cases heq
          obtain ⟨hkeeps, hpc⟩ := useLine_keeps hline
          refine h.moves (by rw [hp]; exact id) ?_ (by rw [hkeeps.sem]) hkeeps.returns
            (fun _ => hkeeps.returns ▸ hr) (fun _ => hkeeps.stage hr)
            fun hs => .inr (hkeeps.initialised (hs.initialised hr))
          cases pc with
          | opened | inside => exact id
          | outside | opening => exact hpc.elim
      | opening o =>
          rw [hp] at hw
          obtain ⟨⟨m', pc'⟩, hline, heq⟩ := Option.map_eq_some_iff.mp hw
          cases heq
          by_cases ho : o ≠ .semOpen ∧ o ≠ .semWait
          · exact h.opens hp ho hline
          · cases o with
            | semOpen =>
                cases hline
                exact h.moves (by rw [hp]; exact ho) (by simp [Pc.InSection]) rfl rfl False.elim
                  (fun _ h => h.gate _) fun h => h.gate _
            | semWait => exact h.enters hline
            | _ => exact (ho ⟨nofun, nofun⟩).elim

/-- When somebody has returned, a step of an opener leaves the channel as it is. -/
theorem Sound.keeps {l : Option (Event P)} (h : Sound s) (hstep : Step nobody work s l t) {p : P}
    (hl : l = some (.opening p)) (hr : 0 < s.data.returns) : t.data.channel = s.data.channel := by
  cases hstep with
  | server a l d q hs => cases hs
  | client q a l m pc hw =>
      cases hq : s.client q with
      | outside =>
          rw [hq] at hw
          cases hw
          cases hl
      | opened =>
          rw [hq] at hw
          cases a with
          | use | close => cases hw; cases hl
      | inside d l =>
          rw [hq] at hw
          obtain ⟨⟨m', pc'⟩, hline, heq⟩ := Option.map_eq_some_iff.mp hw
          cases heq
          cases hl
      | opening o =>
          rw [hq] at hw
          obtain ⟨⟨m', pc'⟩, hline, heq⟩ := Option.map_eq_some_iff.mp hw
          cases heq
          by_cases ho : o ≠ .semOpen ∧ o ≠ .semWait
          · exact (h.holder hq ho).2.1.keeps hr hline
          · cases o with
            | semOpen =>
                cases hline
                rfl
            | semWait =>
                simp only [openLine] at hline
                split at hline
                · cases hline
                  rfl
                · cases hline
            | _ => exact (ho ⟨nofun, nofun⟩).elim

/-- **Opening the channel.**  Any number of processes open and use the channel, in any order of
their lines: the block that initialises runs at most once, and has run, and to its end, before
anybody returns from `channel_open`; and no line of `channel_open` changes the status, the length
or the data of the channel after that. -/
theorem open_law {tr : List (Move (Openers P) (Option (Event P)))}
    (r : Run (Step nobody work) unopened tr s) :
    s.data.inits ≤ 1 ∧
      (∀ p, (s.client p).HasOpened → 0 < s.data.returns) ∧
      (0 < s.data.returns → s.data.inits = 1 ∧ s.data.Ready) ∧
      ∀ m ∈ tr, ∀ p, m.label = some (.opening p) → 0 < m.before.data.returns →
        m.after.data.channel = m.before.data.channel := by
  have hsound : ∀ {t : Openers P} {tr : List (Move (Openers P) (Option (Event P)))},
      Run (Step nobody work) unopened tr t → Sound t :=
    fun r => r.invariant (I := Sound) Sound.step sound_unopened
  refine ⟨(hsound r).inits_le, (hsound r).users,
    fun hr => ⟨((hsound r).initialised hr).inits, ((hsound r).initialised hr).ready⟩, ?_⟩
  intro m m_in p hl hr
  obtain ⟨tr', r'⟩ := (r.split_at m_in).1
  exact (hsound r').keeps (r.step_of_mem m m_in) hl hr

/-- The process 0 opens the channel and produces a byte while the process 1 opens it. -/
def lateOpener : List (Option (Fin 2) × Wish) :=
  List.replicate 14 (some 0, .use (.call (.produce [7] 1))) ++
    List.replicate 5 (some 1, .close) ++
    List.replicate 6 (some 0, .use (.call (.produce [7] 1))) ++
    List.replicate 3 (some 1, .close)

/-- The late opener returns with the byte in the channel. -/
theorem open_law_late : ∃ tr, ∃ s : Openers (Fin 2), Run (Step nobody work) unopened tr s ∧
    s.data.returns = 2 ∧ s.data.channel.status = .occupied ∧ s.data.inits = 1 ∧ s.data.Ready := by
  obtain ⟨tr, r, -⟩ := @play_run (Fin 2) _ _ _ _ _ _ nobody work unopened lateOpener
  have hreturns : (play nobody work unopened lateOpener).2.data.returns = 2 := by decide +kernel
  have hlaw := open_law r
  obtain ⟨hinits, hready⟩ := hlaw.2.2.1 (by rw [hreturns]; decide)
  exact ⟨tr, _, r, hreturns, by decide +kernel, hinits, hready⟩

end Sop2.Channel
