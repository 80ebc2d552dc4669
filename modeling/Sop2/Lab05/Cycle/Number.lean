import Mathlib.Data.ZMod.Defs
import Sop2.Lab05.Cycle.Ring

/-!
# Lab05 — Cycle — the number

The number that goes round the ring, over whole runs, whatever signals come and when.

* `token_law`: there is one number in the pipes and in the hands of the processes, or none, and that
  only after some process has left its loop.
* `Walk`: the way of a number round a ring, in its own terms.  `Underway.step`: the processes follow
  it, and so `number_law` says what they print.
-/

namespace Sop2.Cycle
open Support Support.Piped

variable {n : Nat} [NeZero n] {cap : Nat} {signalled : Fin n → Bool} {p : Fin n}

/-! ### The token -/

/-- Whether a process has a number in hand. -/
def Place.hand : Place → Nat
  | .initial | .got _ | .writing _ => 1
  | _ => 0

/-- The same, of a process that may still have to set up. -/
def hand (p : Fin n) : SetUp (Fin n) Place → Nat
  | .closing _ => (start p).hand
  | .working q => q.hand

/-- Behind the loop. -/
def left : SetUp (Fin n) Place → Bool
  | .closing _ => false
  | .working q => q.left

/-- The numbers in the pipes and in the hands. -/
abbrev tokens (s : State n) : Nat := s.weigh (fun _ => 1) hand

theorem Place.hand_of_left {q : Place} (h : q.left = true) : q.hand = 0 := by
  cases q <;> first | rfl | cases h

/-- What a process gives away it has taken before; it loses a number only when it leaves. -/
theorem Moves.spends {q q' : Place} {e : Seen n} (h : Moves signalled p q e q') :
    q'.hand + e.into (fun _ => 1) ≤ q.hand + e.out (fun _ => 1) ∧
      (q'.left = false → q'.hand + e.into (fun _ => 1) = q.hand + e.out fun _ => 1) := by
  cases h with
  | winding q q' hq hq' hrank hmain hfailed =>
      rw [Place.hand_of_left hq, Place.hand_of_left hq', hq']
      exact ⟨Nat.le_refl _, nofun⟩
  | sendFails | epipe | zero => exact ⟨Nat.zero_le 1, nofun⟩
  | send | sigint | quiet | receive | eof | interrupted | drawn | write =>
      exact ⟨Nat.le_refl _, fun _ => rfl⟩

theorem Moves.left_of_left {q q' : Place} {e : Seen n} (h : Moves signalled p q e q')
    (hq : q.left = true) : q'.left = true := by
  cases h with
  | winding q q' hq hq' hrank hmain hfailed => exact hq'
  | _ => cases hq

theorem start_left (p : Fin n) : (start p).left = false := by
  rw [start]
  split <;> rfl

/-- The same of a process that may still have to set up. -/
theorem op_spends {q q' : SetUp (Fin n) Place} {e : Seen n} (h : (op signalled p q).Goes e q') :
    hand p q' + e.into (fun _ => 1) ≤ hand p q + e.out (fun _ => 1) ∧
      (left q' = false → hand p q' + e.into (fun _ => 1) = hand p q + e.out fun _ => 1) ∧
      (left q = true → left q' = true) := by
  rcases withSetUp_goes h with ⟨f, es, rfl, rfl, rfl⟩ | ⟨rfl, rfl, rfl⟩ | ⟨w, w', rfl, rfl, hgoes⟩
  · exact ⟨Nat.le_refl _, fun _ => rfl, nofun⟩
  · exact ⟨Nat.le_refl _, fun _ => rfl, nofun⟩
  · have hmoves := goes_moves hgoes
    exact ⟨hmoves.spends.1, hmoves.spends.2, hmoves.left_of_left⟩

variable {s t : State n} {l : Fin n × Seen n} {tr : List (Move (State n) (Fin n × Seen n))}

/-- Who has left its loop has left it for ever. -/
theorem left_step (h : Step cap signalled s l t) {r : Fin n} (hr : left (s.pc r) = true) :
    left (t.pc r) = true := by
  by_cases hl : r = l.1
  · subst hl
    exact (op_spends h.goes_at).2.2 hr
  · rwa [h.stays hl]

/-- One number at most, and one until somebody leaves. -/
def Single (s : State n) : Prop :=
  tokens s ≤ 1 ∧ ((∀ r, left (s.pc r) = false) → tokens s = 1)

theorem Single.step (hs : Single s) (h : Step cap signalled s l t) : Single t := by
  have hweigh : tokens t + l.2.out (fun _ => 1) + hand l.1 (s.pc l.1) =
      tokens s + l.2.into (fun _ => 1) + hand l.1 (t.pc l.1) := h.weigh
  obtain ⟨hle, heq, -⟩ := op_spends h.goes_at
  obtain ⟨hone, hall⟩ := hs
  refine ⟨by omega, fun hnone => ?_⟩
  have hbefore : ∀ r, left (s.pc r) = false := fun r => by
    cases hr : left (s.pc r) with
    | false => rfl
    | true => rw [← hnone r, left_step h hr]
  have hkept := heq (hnone l.1)
  have hsingle := hall hbefore
  omega

theorem single_begin : Single (begin n) := by
  have hpipes : ∑ k, ((begin n).pipes.content k).length * 1 = 0 := by simp [begin, everyEnd]
  have hhands : ∑ p : Fin n, hand p ((begin n).pc p) = 1 := by
    have hhand : ∀ p : Fin n, hand p ((begin n).pc p) = if p = 0 then 1 else 0 := fun p => by
      change (start p).hand = _
      rw [start]
      split <;> rfl
    rw [Finset.sum_congr rfl fun p _ => hhand p, Finset.sum_ite_eq', if_pos (Finset.mem_univ _)]
  have htokens : tokens (begin n) = 1 := by rw [tokens, State.weigh, hpipes, hhands]
  exact ⟨htokens.le, fun _ => htokens⟩

/-- **There is one number**, in the pipes and in the hands of the processes, until some process
leaves its loop, and never more than one. -/
theorem single_run (r : Run (Step cap signalled) (begin n) tr s) : Single s :=
  r.invariant (I := Single) (fun hs h => hs.step h) single_begin

/-! ### The way of the number -/

/-- A number goes round a ring: `ps` are those that have seen it, with what they saw, and now `v` is
on its way to `p`. -/
inductive Walk : List (Fin n × Int) → Fin n → Int → Prop where
  | start : Walk [] 1 1
  | hop {ps : List (Fin n × Int)} {p : Fin n} {v v' : Int} (h : Walk ps p v) (hv : v ≠ 0)
      (hlow : v - 10 ≤ v') (hhigh : v' ≤ v + 10) : Walk (ps ++ [(p, v)]) (p + 1) v'

variable {ps : List (Fin n × Int)} {v : Int}

/-- Who sees it: the one after the other. -/
theorem Walk.order (h : Walk ps p v) :
    p = Fin.ofNat n (ps.length + 1) ∧
      ∀ k (hk : k < ps.length), (ps[k]).1 = Fin.ofNat n (k + 1) := by
  have hsucc : ∀ k : Nat, Fin.ofNat n k + 1 = Fin.ofNat n (k + 1) := fun k => by
    ext
    simp [Fin.val_add]
  induction h with
  | start => exact ⟨by rw [List.length_nil, ← hsucc]; simp, nofun⟩
  | @hop ps p v v' h hv hlow hhigh ih =>
      obtain ⟨hp, hall⟩ := ih
      refine ⟨by rw [List.length_append, List.length_singleton, ← hsucc, ← hp], fun k hk => ?_⟩
      by_cases hlast : k < ps.length
      · rw [List.getElem_append_left hlast]
        exact hall k hlast
      · rw [List.length_append, List.length_singleton] at hk
        obtain rfl : k = ps.length := by omega
        rw [List.getElem_concat_length rfl]
        exact hp

/-- What they see: the first number is 1, none is 0, and from one to the next it is a step of at
most 10. -/
theorem Walk.numbers (h : Walk ps p v) :
    (ps.map Prod.snd ++ [v]).head? = some 1 ∧ 0 ∉ ps.map Prod.snd ∧
      (ps.map Prod.snd ++ [v]).IsChain (fun a b => a - 10 ≤ b ∧ b ≤ a + 10) := by
  induction h with
  | start => exact ⟨rfl, List.not_mem_nil, .singleton 1⟩
  | @hop ps p v v' h hv hlow hhigh ih =>
      obtain ⟨hhead, hzero, hchain⟩ := ih
      rw [List.map_append, List.map_singleton]
      refine ⟨by rw [List.head?_append, hhead]; rfl, fun hmem => ?_, ?_⟩
      · rcases List.mem_append.mp hmem with hmem | hmem
        · exact hzero hmem
        · exact hv (List.mem_singleton.mp hmem).symm
      · refine hchain.append (.singleton v') fun a ha b hb => ?_
        rw [List.getLast?_concat] at ha
        cases ha
        cases hb
        exact ⟨hlow, hhigh⟩

/-- How far it can get. -/
theorem Walk.range (h : Walk ps p v) :
    1 - 10 * (ps.length : Int) ≤ v ∧ v ≤ 1 + 10 * (ps.length : Int) := by
  induction h with
  | start => exact ⟨by simp, by simp⟩
  | @hop ps p v v' h hv hlow hhigh ih =>
      rw [List.length_append, List.length_singleton]
      push_cast
      omega

/-! ### The processes follow it -/

/-- The number that is printed in a step, and by whom. -/
def line : Fin n × Seen n → Option (Fin n × List UInt8)
  | (p, .said (some text)) => some (p, text)
  | _ => none

/-- What is printed. -/
def printed (tr : List (Move (State n) (Fin n × Seen n))) : List (Fin n × List UInt8) :=
  tr.filterMap fun m => line m.label

/-- What a process has in hand, and to whom it is on its way. -/
def inHand (p : Fin n) : SetUp (Fin n) Place → Option (Fin n × Buffer)
  | .closing _ => if p = 0 then some (p + 1, number 1) else none
  | .working .initial => some (p + 1, number 1)
  | .working (.got buf) => some (p, buf)
  | .working (.writing buf) => some (p + 1, buf)
  | _ => none

/-- The number `v` is on its way to `p`: it is the one in the pipe or in the hand. -/
structure OnItsWay (s : State n) (p : Fin n) (v : Int) : Prop where
  isInt : IsInt32 v
  pipes : ∀ k, ∀ buf ∈ s.pipes.content k, buf = number v ∧ p = k + 1
  hands : ∀ r x, inHand r (s.pc r) = some x → x = (p, number v)
  got : ∀ r buf, s.pc r = .working (.got buf) → v ≠ 0

/-- The processes follow the walk. -/
def Underway (tr : List (Move (State n) (Fin n × Seen n))) (s : State n) : Prop :=
  ∃ ps p v, Walk ps p v ∧ printed tr = ps.map (Prod.map id printInt) ∧ OnItsWay s p v

theorem atoi_number {v : Int} (h : IsInt32 v) : atoi (number v) = v := atoi_snprintf h (by decide)

theorem cString_number {v : Int} (h : IsInt32 v) : cString (number v) = printInt v :=
  cString_printInt h (by decide)

/-- Who has nothing has no number. -/
theorem inHand_eq_none {q : SetUp (Fin n) Place} (h : hand p q = 0) : inHand p q = none := by
  cases q with
  | closing es =>
      rw [inHand, if_neg]
      rintro rfl
      rw [hand, start, if_pos rfl] at h
      cases h
  | working q => cases q <;> first | rfl | cases h

theorem inHand_of_left {q : Place} (h : q.left = true) : inHand p (.working q) = none :=
  inHand_eq_none (Place.hand_of_left h)

/-- Nobody gets a number. -/
theorem OnItsWay.stay {v : Int} (hs : OnItsWay s p v) (h : Step cap signalled s l t)
    (hpipes : ∀ k, ∀ buf ∈ t.pipes.content k, buf ∈ s.pipes.content k)
    (hmover : ∀ x, inHand l.1 (t.pc l.1) = some x → inHand l.1 (s.pc l.1) = some x)
    (hgot : ∀ buf, t.pc l.1 ≠ .working (.got buf)) : OnItsWay t p v where
  isInt := hs.isInt
  pipes k buf hbuf := hs.pipes k buf (hpipes k buf hbuf)
  hands r x hx := by
    by_cases hr : r = l.1
    · subst hr
      exact hs.hands _ x (hmover x hx)
    · rw [h.stays hr] at hx
      exact hs.hands r x hx
  got r buf hr := by
    by_cases hl : r = l.1
    · subst hl
      exact absurd hr (hgot buf)
    · rw [h.stays hl] at hr
      exact hs.got r buf hr

/-- The process `r` has the number now, and nobody else has one. -/
theorem OnItsWay.taken {v : Int} {r : Fin n} (hv : IsInt32 v) (ht : tokens t ≤ 1)
    (hhand : 0 < hand r (t.pc r)) (hr : inHand r (t.pc r) = some (p, number v))
    (hgot : ∀ buf, t.pc r = .working (.got buf) → v ≠ 0) : OnItsWay t p v := by
  obtain ⟨hempty, hothers⟩ := State.only_hand ht hhand
  refine ⟨hv, fun k buf hbuf => ?_, fun q x hx => ?_, fun q buf' hq => ?_⟩
  · rw [hempty k] at hbuf
    cases hbuf
  · by_cases hqr : q = r
    · subst hqr
      exact Option.some.inj (hx.symm.trans hr)
    · rw [inHand_eq_none (hothers q hqr)] at hx
      cases hx
  · by_cases hqr : q = r
    · subst hqr
      exact hgot buf' hq
    · have hzero := hothers q hqr
      rw [hq] at hzero
      cases hzero

/-- The number is in the pipe `k` now, and nowhere else. -/
theorem OnItsWay.sent {v : Int} {k : Fin n} (hv : IsInt32 v) (ht : tokens t ≤ 1)
    (hk : t.pipes.content k = [number v]) : OnItsWay t (k + 1) v := by
  obtain ⟨-, hothers, hhands⟩ := State.only_pipe ht (k := k) (by rw [hk]; exact List.cons_ne_nil _ _)
  refine ⟨hv, fun j buf hbuf => ?_, fun q x hx => ?_, fun q buf hq => ?_⟩
  · by_cases hj : j = k
    · subst hj
      rw [hk] at hbuf
      exact ⟨List.mem_singleton.mp hbuf, rfl⟩
    · rw [hothers j hj] at hbuf
      cases hbuf
  · rw [inHand_eq_none (hhands q)] at hx
    cases hx
  · have hzero := hhands q
    rw [hq] at hzero
    cases hzero

omit [NeZero n] in
theorem printed_snoc (m : Move (State n) (Fin n × Seen n)) :
    printed (tr ++ [m]) = printed tr ++ printed [m] :=
  List.filterMap_append

/-- What is drawn. -/
theorem draw_eq_some {buf : Buffer} {rand : Nat} {val : Int} (h : draw buf rand = some val) :
    IsInt32 val ∧ atoi buf - 10 ≤ val ∧ val ≤ atoi buf + 10 := by
  rw [draw] at h
  split at h
  · cases h
    have hlt : rand % 21 < 21 := Nat.mod_lt _ (by decide)
    exact ⟨(‹_ ∧ _› : IsInt32 _ ∧ _).2, by omega, by omega⟩
  · cases h

theorem Underway.step (hs : Underway tr s) (hone : Single s) (h : Step cap signalled s l t) :
    Underway (tr ++ [⟨s, l, t⟩]) t := by
  obtain ⟨ps, p, v, hwalk, hprinted, hway⟩ := hs
  have htone := (hone.step h).1
  have hshift := h.shifts
  obtain ⟨r, e⟩ := l
  have hgoes : (op signalled r (s.pc r)).Goes e (t.pc r) := h.goes_at
  -- a step by which nobody gets a number, and nothing is printed
  have stay : printed [(⟨s, (r, e), t⟩ : Move (State n) (Fin n × Seen n))] = [] →
      (∀ k, ∀ buf ∈ t.pipes.content k, buf ∈ s.pipes.content k) →
      (∀ x, inHand r (t.pc r) = some x → inHand r (s.pc r) = some x) →
      (∀ buf, t.pc r ≠ .working (.got buf)) → Underway (tr ++ [⟨s, (r, e), t⟩]) t := by
    intro hsaid hpipes hmover hgot
    exact ⟨ps, p, v, hwalk, by rw [printed_snoc, hsaid, List.append_nil, hprinted],
      hway.stay h hpipes hmover hgot⟩
  -- a step by which the number is written
  have sent : ∀ {buf : Buffer}, inHand r (s.pc r) = some (r + 1, buf) → 0 < hand r (s.pc r) →
      printed [(⟨s, (r, e), t⟩ : Move (State n) (Fin n × Seen n))] = [] →
      t.pipes.content = Function.update s.pipes.content r (s.pipes.content r ++ [buf]) →
      Underway (tr ++ [⟨s, (r, e), t⟩]) t := by
    intro buf hhand hpos hsaid hcontent
    obtain ⟨hp, hbuf⟩ := Prod.mk.inj (hway.hands r _ hhand)
    refine ⟨ps, p, v, hwalk, by rw [printed_snoc, hsaid, List.append_nil, hprinted], ?_⟩
    rw [← hp]
    refine .sent hway.isInt htone ?_
    rw [hcontent, Function.update_self, (State.only_hand hone.1 hpos).1 r, hbuf]
    rfl
  have same : t.pipes.content = s.pipes.content →
      ∀ k, ∀ buf ∈ t.pipes.content k, buf ∈ s.pipes.content k := fun heq k buf hbuf => heq ▸ hbuf
  rcases withSetUp_goes hgoes with ⟨f, es, hq, rfl, hq'⟩ | ⟨hq, rfl, hq'⟩ | ⟨w, w', hq, hq', hwork⟩
  · exact stay rfl (same hshift) (fun x hx => by rw [hq, ← hx, hq']; rfl) fun buf => by simp [hq']
  · refine stay rfl (same hshift) (fun x hx => ?_) fun buf => ?_
    · rw [hq, ← hx, hq', inHand, start]
      split <;> rfl
    · rw [hq', start]
      split <;> simp
  · have hmoves := goes_moves hwork
    cases hmoves with
    | sigint | quiet | eof | interrupted | sendFails | epipe =>
        exact stay rfl (same hshift) (by simp [hq', inHand]) fun buf => by simp [hq']
    | winding q q' hleft hleft' hrank hmain hfailed =>
        refine stay rfl (same hshift) (fun x hx => ?_) fun buf hgot => ?_
        · rw [hq', inHand_of_left hleft'] at hx
          cases hx
        · rw [hq'] at hgot
          cases hgot
          cases hleft'
    | zero buf hzero =>
        refine stay rfl (fun k buf' hbuf' => ?_) (by simp [hq', inHand]) fun buf => by simp [hq']
        rw [show s.pipes.content = _ from hshift]
        by_cases hk : k = r - 1
        · rw [hk, Function.update_self]
          exact List.mem_cons_of_mem _ (hk ▸ hbuf')
        · rwa [Function.update_of_ne hk]
    | send => exact sent (by rw [hq]; rfl) (by rw [hq]; exact Nat.one_pos) rfl hshift
    | write buf => exact sent (by rw [hq]; rfl) (by rw [hq]; exact Nat.one_pos) rfl hshift
    | receive buf hbuf =>
        have hmem : buf ∈ s.pipes.content (r - 1) := by
          rw [show s.pipes.content = _ from hshift, Function.update_self]
          exact List.mem_cons_self ..
        obtain ⟨rfl, hp⟩ := hway.pipes (r - 1) buf hmem
        rw [sub_add_cancel] at hp
        rw [atoi_number hway.isInt] at hbuf
        refine ⟨ps, p, v, hwalk, by rw [printed_snoc, hprinted]; exact List.append_nil _, ?_⟩
        refine .taken hway.isInt htone (r := r) ?_ ?_ fun _ _ => hbuf
        · rw [hq']
          exact Nat.one_pos
        · rw [hq', inHand, hp]
    | drawn buf rand val hval =>
        obtain ⟨hp, hbuf⟩ := Prod.mk.inj (hway.hands r (r, buf) (by rw [hq]; rfl))
        subst hbuf
        obtain ⟨hint, hlow, hhigh⟩ := draw_eq_some hval
        rw [atoi_number hway.isInt] at hlow hhigh
        refine ⟨_, _, val, hwalk.hop (hway.got r _ hq) hlow hhigh, ?_, ?_⟩
        · rw [printed_snoc, hprinted, List.map_append, ← hp]
          change _ ++ [(r, cString (number v))] = _
          rw [cString_number hway.isInt]
          rfl
        · refine .taken hint htone (r := r) ?_ ?_ fun buf hgot => ?_
          · rw [hq']
            exact Nat.one_pos
          · rw [hq', inHand, hp]
          · rw [hq'] at hgot
            cases hgot

theorem underway_begin : Underway [] (begin n) := by
  refine ⟨[], 1, 1, .start, rfl, by decide, nofun, fun r x hx => ?_, nofun⟩
  change inHand r (.closing _) = some x at hx
  rw [inHand] at hx
  split at hx
  · rename_i hr
    rw [hr, zero_add] at hx
    exact (Option.some.inj hx).symm
  · cases hx

theorem underway_run (r : Run (Step cap signalled) (begin n) tr s) : Underway tr s := by
  induction r with
  | refl => exact underway_begin
  | snoc r h ih => exact ih.step (single_run r) h

/-- What is drawn is an `int` for a long time. -/
theorem OnItsWay.draws {ps : List (Fin n × Int)} {v : Int} (hs : OnItsWay s p v)
    (hwalk : Walk ps p v) (hlong : ps.length ≤ 214748362) {r : Fin n} {buf : Buffer}
    (hr : s.pc r = .working (.got buf)) (rand : Nat) : (draw buf rand).isSome = true := by
  obtain ⟨-, rfl⟩ := Prod.mk.inj (hs.hands r (r, buf) (by rw [hr]; rfl))
  obtain ⟨hlow, hhigh⟩ := hwalk.range
  have hlt : rand % 21 < 21 := Nat.mod_lt _ (by decide)
  have hsum : IsInt32 (v + (rand % 21 : Nat)) := ⟨by omega, by omega⟩
  have hdiff : IsInt32 (v + (rand % 21 : Nat) - 10) := ⟨by omega, by omega⟩
  rw [draw, atoi_number hs.isInt, if_pos ⟨hsum, hdiff⟩]
  rfl

/-- **The number.**  Whatever signals come, in every run: there is never more than one number in the
pipes and in the hands of the processes, and until some process leaves its loop there is one; so no
pipe ever holds more than one message.  What is printed is printed by the processes in the order of
the ring, beginning with the process 1; the first number is 1, none is 0, and two that follow each
other differ by 10 at most.  Nothing overflows while at most 214748362 numbers have been printed. -/
theorem number_law (r : Run (Step cap signalled) (begin n) tr s) :
    (tokens s ≤ 1 ∧ ((∀ r, left (s.pc r) = false) → tokens s = 1) ∧
      ∀ k, (s.pipes.content k).length ≤ 1) ∧
    (∃ vs : List Int,
      printed tr = vs.mapIdx (fun k v => (Fin.ofNat n (k + 1), printInt v)) ∧
      (∀ v ∈ vs.head?, v = 1) ∧ 0 ∉ vs ∧ vs.IsChain fun a b => a - 10 ≤ b ∧ b ≤ a + 10) ∧
    ((printed tr).length ≤ 214748362 → ∀ p buf, s.pc p = .working (.got buf) →
      ∀ rand, (draw buf rand).isSome = true) := by
  obtain ⟨hle, hone⟩ := single_run r
  obtain ⟨ps, p, v, hwalk, hprinted, hway⟩ := underway_run r
  refine ⟨⟨hle, hone, fun k => ?_⟩, ⟨ps.map Prod.snd, ?_, ?_, ?_, ?_⟩, fun hlong q buf hq => ?_⟩
  · by_cases hk : s.pipes.content k = []
    · simp [hk]
    · exact (State.only_pipe hle hk).1.le
  · rw [hprinted]
    refine List.ext_getElem (by simp) fun k hk hk' => ?_
    rw [List.length_map] at hk
    simp only [List.getElem_map, List.getElem_mapIdx]
    exact Prod.ext (hwalk.order.2 k hk) rfl
  · intro v' hv'
    have hhead := hwalk.numbers.1
    rw [List.head?_append, Option.mem_def.mp hv'] at hhead
    exact Option.some.inj hhead
  · exact hwalk.numbers.2.1
  · exact (List.isChain_append.mp hwalk.numbers.2.2).1
  · rw [hprinted, List.length_map] at hlong
    exact hway.draws hwalk hlong hq

/-- Three processes begin; the second gets the number 1 and draws `r`, and what it sends comes to the
third. -/
def firstTurns (main p q : Fin n) (r : Nat) : List (Fin n × Option Answer) :=
  List.replicate 6 (main, none) ++ List.replicate 5 (p, none) ++
    [(p, some .quiet), (p, none), (p, some (.random r)), (p, none)] ++
    List.replicate 5 (q, none) ++ [(q, some .quiet), (q, none)]

theorem number_law_firstTurns : ∃ (tr : List (Move (State 3) (Fin 3 × Seen 3))) (s : State 3),
    printed tr = [(1, [49]), (2, [45, 50])] ∧ tokens s ≤ 1 := by
  have hplay : (play 1 (op fun _ => false) (begin 3)
      (firstTurns 0 1 2 7 ++ [(2, some (.random 12))])).map (fun x => x.1.filterMap line) =
        some [(1, [49]), (2, [45, 50])] := by decide
  obtain ⟨tr, s, r, h⟩ := play_map hplay
  rw [List.filterMap_map] at h
  exact ⟨tr, s, h, (number_law r).1.1⟩

end Sop2.Cycle
