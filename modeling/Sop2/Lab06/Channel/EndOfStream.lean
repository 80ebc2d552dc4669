import Sop2.Lab06.Channel.Fifo

/-!
# Lab06 — Channel — the end of a stream

`ops-double-processor.c`: one process doubles every byte of the messages of its input channel,
passes the chunks to `channel_produce` on its output channel, and at the end of its input sets
the output channel's status to `CHANNEL_DEPLETED`, whatever it is.  Any number of consumers call
`channel_consume` on the output channel until it returns 1.

The depletion waits for nothing, so a chunk nobody has read yet is gone
(`last_chunk_lost`).  `end_of_stream`: along any run every chunk is kept exactly when no
depletion is taken on an occupied channel; once the processor has closed, its chunks are then
the messages consumed, each once and in order.
-/

namespace Sop2.Channel
open Support Support.Monitor

/-! ### The doubling of one message -/

/-- `out_buf[0..out_len)`, and the chunks passed to `channel_produce` so far. -/
structure Doubling where
  passed : List (List UInt8)
  outBuf : List UInt8

/-- `out_buf[out_len++] = c`, and `channel_produce` once the buffer is full. -/
def Doubling.push (d : Doubling) (c : UInt8) : Doubling :=
  if (d.outBuf ++ [c]).length = channelSize then ⟨d.passed ++ [d.outBuf ++ [c]], []⟩
  else ⟨d.passed, d.outBuf ++ [c]⟩

/-- The chunks of one input message, lines 27 to 47. -/
def doubled (inBuf : List UInt8) : List (List UInt8) :=
  let d : Doubling := inBuf.foldl (fun d c => (d.push c).push c) ⟨[], []⟩
  if d.outBuf.length > 0 then d.passed ++ [d.outBuf] else d.passed

/-! ### The processor and its consumers -/

/-- Where `ops-double-processor` is. -/
inductive Processor where
  /-- At `channel_consume(ch_in, …)`, with the input messages still to come. -/
  | reading (ins : List (List UInt8))
  /-- Between two calls of `channel_produce` for one message. -/
  | passing (chunks : List (List UInt8)) (ins : List (List UInt8))
  /-- Inside `channel_produce`. -/
  | calling (chunks : List (List UInt8)) (ins : List (List UInt8))
  /-- Before the depletion of `ch_out`. -/
  | ending
  | closed

/-- The output channel, its producer `none` and its consumers `some c`. -/
structure Pipeline (C : Type*) where
  out : State (Option C)
  processor : Processor
  finished : C → Bool

variable {C : Type*} {s t : Pipeline C}

def begin (ins : List (List UInt8)) (ch : ChannelT) : Pipeline C :=
  ⟨start ch, .reading ins, fun _ => false⟩

/-! ### What a run passed, and what of it is in the channel -/

/-- The labels of `ch_out` in a trace. -/
def outLabels (tr : List (Move (Pipeline C) (Option (Label (Option C))))) :
    List (Label (Option C)) :=
  tr.filterMap Move.label

/-- The chunks passed to `channel_produce`, in order. -/
def passed (ls : List (Label (Option C))) : List (List UInt8) :=
  ls.filterMap fun
    | .call none (.produce producedData length) => some (producedData.take length.toNat)
    | _ => none

/-- The chunk of the call the processor is inside of. -/
def inCall (s : Pipeline C) : List (List UInt8) :=
  match (s.out.ctl none).call with
  | some (.produce producedData length) => [producedData.take length.toNat]
  | _ => []

/-- No depletion of the run is taken on an occupied channel. -/
def DepletesRead (tr : List (Move (Pipeline C) (Option (Label (Option C))))) : Prop :=
  ∀ m ∈ tr, m.label = some (.env .deplete) → m.before.out.shared.status ≠ .occupied

variable {tr : List (Move (Pipeline C) (Option (Label (Option C))))}

@[simp] theorem outLabels_snoc (m : Move (Pipeline C) (Option (Label (Option C)))) :
    outLabels (tr ++ [m]) = outLabels tr ++ m.label.toList := by
  cases h : m.label <;> simp [outLabels, h]

@[simp] theorem passed_append (ls ms : List (Label (Option C))) :
    passed (ls ++ ms) = passed ls ++ passed ms := by
  simp [passed]

theorem buffered_eq_nil {ch : ChannelT} : buffered ch = [] ↔ ch.status ≠ .occupied := by
  simp [buffered]

/-- What holds after a run: before the depletion the exactly-once law; after it the produced
chunks are the consumed ones and those that were lost, none if and only if the depletion found
nothing unread.  The passed chunks are the produced ones and the one being passed. -/
structure Account (tr : List (Move (Pipeline C) (Option (Label (Option C))))) (s : Pipeline C) :
    Prop where
  before : s.processor ≠ .closed →
    (∀ m ∈ tr, m.label ≠ some (.env .deplete)) ∧
      (s.out.shared.status = .empty ∨ s.out.shared.status = .occupied) ∧
      consumed (outLabels tr) ++ buffered s.out.shared = produced (outLabels tr)
  after : s.processor = .closed →
    s.out.shared.status = .depleted ∧ ∃ lost,
      consumed (outLabels tr) ++ lost = produced (outLabels tr) ∧ (lost = [] ↔ DepletesRead tr)
  passed : passed (outLabels tr) = produced (outLabels tr) ++ inCall s
  idle : (∀ cs ins, s.processor ≠ .calling cs ins) → (s.out.ctl none).call = none

theorem account_begin {ins : List (List UInt8)} {ch : ChannelT} (hch : ch.status = .empty) :
    Account [] (begin ins ch : Pipeline C) where
  before _ :=
    ⟨by simp, .inl hch, by simp [outLabels, consumed, produced, buffered, begin, start, hch]⟩
  after h := by cases h
  passed := by simp [outLabels, Channel.passed, produced, inCall, begin, start, Ctl.call]
  idle _ := rfl

theorem depletesRead_snoc {m : Move (Pipeline C) (Option (Label (Option C)))} :
    DepletesRead (tr ++ [m]) ↔ DepletesRead tr ∧
      (m.label = some (.env .deplete) → m.before.out.shared.status ≠ .occupied) := by
  simp [DepletesRead, or_imp, forall_and]

variable [DecidableEq C]

/-- One step of the processor or of a consumer; `none` labels those that leave `ch_out` alone. -/
inductive Pipeline.Step : Pipeline C → Option (Label (Option C)) → Pipeline C → Prop where
  | read {s : Pipeline C} (m : List UInt8) (ins : List (List UInt8))
      (hp : s.processor = .reading (m :: ins)) :
      Step s none { s with processor := .passing (doubled m) ins }
  | readEnd {s : Pipeline C} (hp : s.processor = .reading []) :
      Step s none { s with processor := .ending }
  | pass {s : Pipeline C} (c : List UInt8) (cs ins : List (List UInt8)) {out : State (Option C)}
      (hp : s.processor = .passing (c :: cs) ins)
      (h : Monitor.Step monitor s.out (.call none (.produce c (.ofNat c.length))) out) :
      Step s (some (.call none (.produce c (.ofNat c.length))))
        { s with out := out, processor := .calling cs ins }
  | nextMessage {s : Pipeline C} (ins : List (List UInt8)) (hp : s.processor = .passing [] ins) :
      Step s none { s with processor := .reading ins }
  | waits {s : Pipeline C} (cs ins : List (List UInt8)) {l : Label (Option C)}
      {out : State (Option C)} (hp : s.processor = .calling cs ins)
      (hl : l = .wait none ∨ l = .spurious none) (h : Monitor.Step monitor s.out l out) :
      Step s (some l) { s with out := out }
  | passRet {s : Pipeline C} (cs ins : List (List UInt8)) (c : Call) (r : Ret)
      {out : State (Option C)} (hp : s.processor = .calling cs ins)
      (h : Monitor.Step monitor s.out (.ret none c r) out) :
      Step s (some (.ret none c r)) { s with out := out, processor := .passing cs ins }
  | deplete {s : Pipeline C} {out : State (Option C)} (hp : s.processor = .ending)
      (h : Monitor.Step monitor s.out (.env .deplete) out) :
      Step s (some (.env .deplete)) { s with out := out, processor := .closed }
  | consumeCall {s : Pipeline C} (c : C) {out : State (Option C)} (hf : s.finished c = false)
      (h : Monitor.Step monitor s.out (.call (some c) .consume) out) :
      Step s (some (.call (some c) .consume)) { s with out := out }
  | consumerWaits {s : Pipeline C} (c : C) {l : Label (Option C)} {out : State (Option C)}
      (hl : l = .wait (some c) ∨ l = .spurious (some c))
      (h : Monitor.Step monitor s.out l out) : Step s (some l) { s with out := out }
  | consumeRet {s : Pipeline C} (c : C) (r : Ret) {out : State (Option C)}
      (h : Monitor.Step monitor s.out (.ret (some c) .consume r) out) :
      Step s (some (.ret (some c) .consume r))
        { s with
          out := out
          finished := if r = .depleted then Function.update s.finished c true else s.finished }

/-! ### What one step of the pipeline does to the output channel -/

/-- The calls the pipeline makes: the processor produces, the consumers consume. -/
def Used : Label (Option C) → Prop
  | .call none c => ∃ d n, c = .produce d n
  | .call (some _) c => c = .consume
  | .ret (some _) c _ => c = .consume
  | _ => True

theorem Pipeline.Step.out_none (h : Step s none t) :
    t.out = s.out ∧ s.processor ≠ .closed ∧ t.processor ≠ .closed := by
  cases h with
  | read m ins hp | readEnd hp | nextMessage ins hp => exact ⟨rfl, by rw [hp]; simp, by simp⟩

theorem Pipeline.Step.out_some {l : Label (Option C)} (h : Step s (some l) t) :
    Monitor.Step monitor s.out l t.out ∧ Used l := by
  cases h with
  | pass c cs ins hp h => exact ⟨h, c, _, rfl⟩
  | waits cs ins hp hl h | consumerWaits c hl h =>
      exact ⟨h, by rcases hl with rfl | rfl <;> trivial⟩
  | passRet cs ins c r hp h => exact ⟨h, trivial⟩
  | deplete hp h => exact ⟨h, trivial⟩
  | consumeCall c hf h => exact ⟨h, rfl⟩
  | consumeRet c r h => exact ⟨h, rfl⟩

/-- The depletion is what closes the processor. -/
theorem Pipeline.Step.closes {l : Option (Label (Option C))} (h : Step s l t)
    (hs : s.processor ≠ .closed) : t.processor = .closed ↔ l = some (.env .deplete) := by
  cases h with
  | read | readEnd | pass | nextMessage | passRet | deplete => simp
  | waits cs ins hp hl h => rcases hl with rfl | rfl <;> simpa using hs
  | consumerWaits c hl h => rcases hl with rfl | rfl <;> simpa using hs
  | consumeCall c hf h => simpa using hs
  | consumeRet c r h => simpa using hs

/-- On a depleted channel the consumers change nothing and get nothing. -/
theorem Pipeline.Step.after {l : Option (Label (Option C))} (h : Step s l t)
    (hs : s.processor = .closed) (hd : s.out.shared.status = .depleted) :
    t.processor = .closed ∧ t.out.shared.status = .depleted ∧ l ≠ some (.env .deplete) ∧
      consumed l.toList = [] ∧ produced l.toList = [] := by
  cases h with
  | read m ins hp | readEnd hp | pass c cs ins hp h | nextMessage ins hp | waits cs ins hp hl h
  | passRet cs ins c r hp h | deplete hp h => rw [hs] at hp; cases hp
  | consumerWaits c hl h =>
      rcases hl with rfl | rfl <;> cases h <;>
        exact ⟨hs, hd, by simp, by simp [consumed], by simp [produced]⟩
  | consumeCall c hf h =>
      cases h
      exact ⟨hs, hd, by simp, by simp [consumed], by simp [produced]⟩
  | consumeRet c r h =>
      cases h with
      | ret _ _ sh cvs _ W _ hb _ =>
          rcases channelConsume_leave hb with ⟨-, rfl, -, rfl⟩ | ⟨-, hne, -⟩
          · exact ⟨hs, hd, by simp, by simp [consumed], by simp [produced]⟩
          · exact absurd hd hne

/-- A chunk enters the produced ones when the call it was passed to returns. -/
theorem inCall_accounts {l : Label (Option C)} (h : Monitor.Step monitor s.out l t.out)
    (hl : Used l) : inCall s ++ passed [l] = produced [l] ++ inCall t := by
  have hcall := h.call_eq none
  unfold inCall
  cases l with
  | call p c =>
      cases p with
      | none =>
          obtain ⟨d, n, rfl⟩ := hl
          rw [hcall, h.call_of_call]
          simp [passed, produced]
      | some p => simp [passed, produced, hcall]
  | ret p c r =>
      cases p with
      | none =>
          rw [hcall, h.call_of_ret]
          cases c <;> simp [passed, produced]
      | some p =>
          obtain rfl : c = .consume := hl
          simp [passed, produced, hcall]
  | wait p | spurious p | env e => simp [passed, produced, hcall]

/-- Outside its calls the processor is inside no call of `ch_out`. -/
theorem Pipeline.Step.idle {l : Option (Label (Option C))} (h : Step s l t)
    (hs : (∀ cs ins, s.processor ≠ .calling cs ins) → (s.out.ctl none).call = none) :
    (∀ cs ins, t.processor ≠ .calling cs ins) → (t.out.ctl none).call = none := by
  intro ht
  cases h with
  | read m ins hp | readEnd hp | nextMessage ins hp => exact hs (by simp [hp])
  | pass c cs ins hp h => exact absurd rfl (ht cs ins)
  | waits cs ins hp hl h => exact absurd hp (ht cs ins)
  | passRet cs ins c r hp h => simpa using h.call_eq none
  | deplete hp h => exact (h.call_eq none).trans (hs (by simp [hp]))
  | consumeCall c hf h => exact (by simpa using h.call_eq none : _ = _).trans (hs ht)
  | consumerWaits c hl h =>
      rcases hl with rfl | rfl <;> exact (h.call_eq none).trans (hs ht)
  | consumeRet c r h => exact (by simpa using h.call_eq none : _ = _).trans (hs ht)

theorem deplete_status {out out' : State (Option C)}
    (h : Monitor.Step monitor out (.env .deplete) out') : out'.shared.status = .depleted := by
  cases h; rfl

/-! ### A whole run -/

theorem Account.step {l : Option (Label (Option C))} (ha : Account tr s)
    (h : Pipeline.Step s l t) : Account (tr ++ [⟨s, l, t⟩]) t := by
  have hpassed : Channel.passed (outLabels (tr ++ [⟨s, l, t⟩])) =
      produced (outLabels (tr ++ [⟨s, l, t⟩])) ++ inCall t := by
    cases l with
    | none => simpa [inCall, h.out_none.1] using ha.passed
    | some l =>
        obtain ⟨hout, hl⟩ := h.out_some
        simp only [outLabels_snoc, passed_append, produced_append, Option.toList_some]
        rw [ha.passed, List.append_assoc, inCall_accounts hout hl, List.append_assoc]
  refine ⟨fun ht => ?_, fun ht => ?_, hpassed, h.idle ha.idle⟩
  · have hs : s.processor ≠ .closed := fun hs =>
      ht (h.after hs (ha.after hs).1).1
    have hl : l ≠ some (.env .deplete) := fun hl => ht ((h.closes hs).mpr hl)
    obtain ⟨hn, hst, law⟩ := ha.before hs
    refine ⟨forall_mem_snoc hn hl, ?_⟩
    cases l with
    | none => simpa [h.out_none.1] using ⟨hst, law⟩
    | some l =>
        obtain ⟨hst', account⟩ := step_accounts h.out_some.1 (fun e => hl (by rw [e])) hst
        refine ⟨hst', ?_⟩
        simp only [outLabels_snoc, consumed_append, produced_append, Option.toList_some]
        rw [List.append_assoc, account, ← List.append_assoc, law]
  · by_cases hs : s.processor = .closed
    · obtain ⟨hd, lost, law, hlost⟩ := ha.after hs
      obtain ⟨-, hd', hl, hc, hp⟩ := h.after hs hd
      refine ⟨hd', lost, by simp [hc, hp, law], ?_⟩
      rw [hlost, depletesRead_snoc]
      exact ⟨fun hr => ⟨hr, fun e => absurd e hl⟩, And.left⟩
    · -- the depletion: what the channel still held is lost
      obtain ⟨hn, hst, law⟩ := ha.before hs
      obtain rfl := (h.closes hs).mp ht
      have hout := h.out_some.1
      refine ⟨deplete_status hout, buffered s.out.shared,
        by simpa [consumed, produced] using law, ?_⟩
      rw [buffered_eq_nil, depletesRead_snoc]
      exact ⟨fun hr => ⟨fun m hm e => absurd e (hn m hm), fun _ => hr⟩, fun hr => hr.2 rfl⟩

theorem account_run {ins : List (List UInt8)} {ch : ChannelT} (hch : ch.status = .empty)
    (r : Run Pipeline.Step (begin ins ch) tr s) : Account tr s := by
  induction r with
  | refl => exact account_begin hch
  | snoc _ h ih => exact ih.step h

/-- **The end of a stream.**  Along every run of the processor and its consumers on a channel
that starts empty, no chunk is lost, in that the consumed chunks and the one still in the channel
are the produced ones, if and only if no depletion of the run is taken on an occupied channel;
and once the processor has closed, the consumers were returned the chunks it passed to
`channel_produce`, each once and in order, under the same condition and no other. -/
theorem end_of_stream {ins : List (List UInt8)} {ch : ChannelT} (hch : ch.status = .empty)
    (r : Run Pipeline.Step (begin ins ch) tr s) :
    (consumed (outLabels tr) ++ buffered s.out.shared = produced (outLabels tr) ↔
        DepletesRead tr) ∧
      (s.processor = .closed →
        (consumed (outLabels tr) = passed (outLabels tr) ↔ DepletesRead tr)) := by
  have ha := account_run hch r
  by_cases hs : s.processor = .closed
  · -- what is consumed and what is lost are together what was produced
    obtain ⟨hd, lost, law, hlost⟩ := ha.after hs
    have hb : buffered s.out.shared = [] := buffered_eq_nil.mpr (by rw [hd]; simp)
    have hin : inCall s = [] := by
      simp [inCall, ha.idle (by simp [hs])]
    have hp := ha.passed
    rw [hin, List.append_nil] at hp
    have key : consumed (outLabels tr) = produced (outLabels tr) ↔ DepletesRead tr := by
      rw [← law, ← hlost]
      exact List.self_eq_append_right
    exact ⟨by rw [hb, List.append_nil]; exact key, fun _ => by rw [hp]; exact key⟩
  · obtain ⟨hn, -, law⟩ := ha.before hs
    exact ⟨iff_of_true law fun m hm e => absurd e (hn m hm), fun h => absurd h hs⟩

/-! ### Runs in which one process moves at a time -/

/-- The processor passes a chunk while everybody is outside. -/
theorem pass_alone {f : C → Bool} {x y : ChannelT} (c : List UInt8) (cs ins : List (List UInt8))
    (hb : channelProduce x c (.ofNat c.length) = .leave y [.consumerCv] .produced) :
    ∃ u : Pipeline C,
      Pipeline.Step ⟨start x, .passing (c :: cs) ins, f⟩
        (some (.call none (.produce c (.ofNat c.length)))) u ∧
      Pipeline.Step u (some (.ret none (.produce c (.ofNat c.length)) .produced))
        ⟨start y, .passing cs ins, f⟩ :=
  ⟨_, .pass c cs ins rfl (.call none _ rfl), .passRet cs ins _ .produced rfl
    (.ret_alone (by simp) (fun _ e => Function.update_of_ne e ..) hb)⟩

/-- A consumer calls `channel_consume` while everybody is outside. -/
theorem consume_alone {f : C → Bool} {x y : ChannelT} {p : Processor} (c : C) (hf : f c = false)
    {cvs : List Cv} {r : Ret} (hb : channelConsume x = .leave y cvs r) :
    ∃ u : Pipeline C,
      Pipeline.Step ⟨start x, p, f⟩ (some (.call (some c) .consume)) u ∧
      Pipeline.Step u (some (.ret (some c) .consume r))
        ⟨start y, p, if r = .depleted then Function.update f c true else f⟩ :=
  ⟨_, .consumeCall c hf (.call (some c) Call.consume rfl), .consumeRet c r
    (.ret_alone (by simp) (fun _ e => Function.update_of_ne e ..) hb)⟩

/-- A channel that holds two bytes. -/
def twoBytes : ChannelT := ⟨.occupied, memcpy zeros [97, 97] (by decide), 2⟩

/-- The message of one byte is read, and doubled into one chunk of two. -/
theorem read_one : Pipeline.Step (begin [[97]] ⟨.empty, zeros, 0⟩ : Pipeline Unit) none
    ⟨start ⟨.empty, zeros, 0⟩, .passing [[97, 97]] [], fun _ => false⟩ :=
  .read [97] [] rfl

/-- One input byte, one consumer that reads the chunk before the processor ends. -/
theorem end_of_stream_fast_consumer :
    ∃ tr : List (Move (Pipeline Unit) (Option (Label (Option Unit)))),
      consumed (outLabels tr) = [[97, 97]] ∧ consumed (outLabels tr) = passed (outLabels tr) := by
  obtain ⟨u, hcall, hret⟩ := pass_alone (C := Unit) (f := fun _ => false) (x := ⟨.empty, zeros, 0⟩)
    (y := twoBytes) [97, 97] [] [] rfl
  obtain ⟨v, hcall', hret'⟩ := consume_alone (C := Unit) (f := fun _ => false) (x := twoBytes)
    (y := { twoBytes with status := .empty }) (p := .passing [] []) () rfl
    (r := .consumed [97, 97]) rfl
  have r := ((((((Run.one read_one).snoc hcall).snoc hret).snoc hcall').snoc hret').snoc
    (.nextMessage [] rfl)).snoc (.readEnd rfl)
  refine ⟨_, rfl, ((end_of_stream rfl (r.snoc (.deplete rfl (.env Ext.deplete)))).2 rfl).mpr ?_⟩
  intro m hm hl
  simp only [List.nil_append, List.cons_append, List.mem_cons, List.not_mem_nil, or_false] at hm
  rcases hm with rfl | rfl | rfl | rfl | rfl | rfl | rfl | rfl
  all_goals cases hl
  simp [start]

/-- One input byte, one consumer that is slower than the processor: the only chunk is produced,
the channel is depleted over it, and the consumer is returned 1. -/
theorem last_chunk_lost : ∃ (tr : List (Move (Pipeline Unit) (Option (Label (Option Unit)))))
    (s : Pipeline Unit), Run Pipeline.Step (begin [[97]] ⟨.empty, zeros, 0⟩) tr s ∧
      s.processor = .closed ∧ s.finished () = true ∧
      passed (outLabels tr) = [[97, 97]] ∧ consumed (outLabels tr) = [] := by
  obtain ⟨u, hcall, hret⟩ := pass_alone (C := Unit) (f := fun _ => false) (x := ⟨.empty, zeros, 0⟩)
    (y := twoBytes) [97, 97] [] [] rfl
  have r := ((((Run.one read_one).snoc hcall).snoc hret).snoc (.nextMessage [] rfl)).snoc
    (.readEnd rfl)
  have hdeplete : Pipeline.Step (⟨start twoBytes, .ending, fun _ => false⟩ : Pipeline Unit)
      (some (.env .deplete))
      ⟨start { twoBytes with status := .depleted }, .closed, fun _ => false⟩ :=
    .deplete rfl (.env Ext.deplete)
  obtain ⟨v, hcall', hret'⟩ := consume_alone (C := Unit) (f := fun _ => false)
    (x := { twoBytes with status := .depleted }) (y := { twoBytes with status := .depleted })
    (p := .closed) () rfl (r := .depleted) rfl
  exact ⟨_, _, ((r.snoc hdeplete).snoc hcall').snoc hret', rfl, rfl, rfl, rfl⟩

end Sop2.Channel
