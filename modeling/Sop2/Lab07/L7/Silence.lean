import Mathlib.Data.List.Nodup
import Sop2.Lab07.L7.Isolation

/-!
# Lab07 — L7 — silence

What keeps the server: it reads from one connection until twenty bytes have come, and does nothing
else meanwhile.

* `stuck_iff`: when the server cannot go on.
* `WaitsFor.run`: a client that is silent keeps everybody.
* `effort_run`: otherwise a connection is served in so many steps.
-/

namespace Sop2.L7
open Support
open Bulk (Reading Writing Outcome Reads Writes)

variable {C : Type*} {o : ByteOrder} {s t : State C} {c : C} {data : Nat → UInt8} {l : Actor C}
  {tr : List (Move (State C) (Actor C))}

/-- The server has stopped. -/
def Place.over : Place C → Bool
  | .ended | .failed _ | .undefined _ => true
  | _ => false

/-- There is nothing to do. -/
def Idle (s : State C) : Prop :=
  s.place = .waiting ∧ (∀ l, s.queue l = []) ∧ s.sigint = false

/-- The server reads from `c`, whose client has not sent twenty bytes, and may still. -/
def WaitsFor (s : State C) (c : C) : Prop :=
  ∃ r rest, s.place = .reading c r rest ∧ r.loop.returned = none ∧
    r.taken = (s.conn c).sent.length ∧ (s.conn c).peer = .sends

variable [DecidableEq C]

/-- The listening sockets that are reported. -/
def reported (s : State C) : List Listener :=
  [Listener.localSocket, .tcp].filter fun l => !(s.queue l).isEmpty

omit [DecidableEq C] in
theorem mem_reported (l : Listener) : l ∈ reported s ↔ s.queue l ≠ [] := by
  have hall : l ∈ [Listener.localSocket, .tcp] := by cases l <;> simp
  rw [reported, List.mem_filter, and_iff_right hall]
  simp

omit [DecidableEq C] in
theorem nodup_reported : (reported s).Nodup :=
  List.Nodup.filter _ (by simp)

/-- Who waits for a client does not go on. -/
theorem WaitsFor.stuck (hw : WaitsFor s c) : ¬ Step o s .server t := by
  obtain ⟨r, rest, hplace, hret, htaken, hpeer⟩ := hw
  intro hstep
  cases hstep with
  | read c' r' rest' out r'' h hread hgives =>
      cases hplace.symm.trans h
      cases out with
      | moved n =>
          have hone : 1 ≤ n := hread.2.1.1
          have hle : r.taken + n ≤ _ := hgives
          omega
      | eof => exact hgives.2 hpeer
      | error => exact absurd (hpeer.symm.trans hgives) (by decide)
      | eintr => exact hgives
  | returned c' r' rest' x h hx =>
      cases hplace.symm.trans h
      rw [hret] at hx
      cases hx
  | _ => cases hplace.symm.trans ‹s.place = _›

theorem Idle.stuck (hi : Idle s) : ¬ Step o s .server t := by
  obtain ⟨hplace, hqueue, hsigint⟩ := hi
  intro hstep
  cases hstep with
  | ready events h hne hn hevents =>
      obtain ⟨l, rest, rfl⟩ := List.exists_cons_of_ne_nil hne
      exact (hevents l).mp (List.mem_cons_self ..) (hqueue l)
  | eintr h hs =>
      rw [hsigint] at hs
      cases hs
  | _ => cases hplace.symm.trans ‹s.place = _›

theorem stuck_of_over (ho : s.place.over = true) : ¬ Step o s .server t := by
  intro hstep
  cases hstep <;>
  · rw [‹s.place = _›] at ho
    cases ho

/-- **When the server cannot go on.** -/
theorem stuck_iff (hs : Sound o s) :
    (¬ ∃ t, Step o s .server t) ↔ s.place.over = true ∨ Idle s ∨ ∃ c, WaitsFor s c := by
  constructor
  · intro hstuck
    have hhere := hs.here
    have hready := hs.ready
    cases hplace : s.place with
    | loop =>
        cases hwork : s.doWork with
        | true => exact absurd ⟨_, .serve hplace hwork⟩ hstuck
        | false => exact absurd ⟨_, .stop hplace hwork⟩ hstuck
    | waiting =>
        refine .inr (.inl ⟨hplace, fun l => ?_, ?_⟩)
        · by_contra hqueue
          refine hstuck ⟨_, .ready (reported s) hplace ?_ nodup_reported mem_reported⟩
          exact List.ne_nil_of_mem ((mem_reported l).mpr hqueue)
        · by_contra hsigint
          exact hstuck ⟨_, .eintr hplace (by simpa using hsigint)⟩
    | events rest =>
        cases rest with
        | nil => exact absurd ⟨_, .handled hplace⟩ hstuck
        | cons l rest =>
            rw [hplace] at hready
            obtain ⟨c, cs, hqueue⟩ := List.exists_cons_of_ne_nil (hready l (List.mem_cons_self ..))
            exact absurd ⟨_, .accept l rest c cs hplace hqueue⟩ hstuck
    | reading c r rest =>
        rw [hplace] at hhere
        obtain ⟨htaking, -⟩ := hhere
        cases hret : r.loop.returned with
        | some x => exact absurd ⟨_, .returned c r rest x hplace hret⟩ hstuck
        | none =>
            obtain ⟨mem, hfilled⟩ := htaking.filled
            have hmore := htaking.more hret
            have hleft := hfilled.left
            have hend : r.taken = (s.conn c).sent.length := by
              by_contra hne
              have hlt : r.taken + 1 ≤ (s.conn c).sent.length :=
                Nat.lt_of_le_of_ne htaking.taken hne
              exact hstuck ⟨_, .read c r rest (.moved 1) _ hplace
                ⟨hret, ⟨Nat.le_refl 1, by omega⟩, rfl⟩ hlt⟩
            refine .inr (.inr ⟨c, r, rest, hplace, hret, hend, ?_⟩)
            by_contra hpeer
            exact hstuck ⟨_, .read c r rest .eof _ hplace ⟨hret, trivial, rfl⟩ ⟨hend, hpeer⟩⟩
    | calculating c rest => exact absurd ⟨_, .calculate c rest hplace⟩ hstuck
    | writing c w rest =>
        rw [hplace] at hhere
        obtain ⟨hgiving, -⟩ := hhere
        cases hret : w.loop.returned with
        | some x =>
            exact absurd ⟨_, .wrote c w rest x hplace hret (hgiving.returned x hret).1⟩ hstuck
        | none =>
            have hmore := hgiving.more hret
            have hleft := hgiving.emptied.left
            exact absurd ⟨_, .write c w rest 1 _ hplace
              ⟨hret, ⟨Nat.le_refl 1, by omega⟩, nofun, rfl⟩⟩ hstuck
    | closing c rest => exact absurd ⟨_, .close c rest hplace⟩ hstuck
    | ended | failed | undefined => exact .inl rfl
  · rintro (hover | hidle | ⟨c, hwaits⟩) ⟨t, h⟩
    · exact stuck_of_over hover h
    · exact hidle.stuck h
    · exact hwaits.stuck h

/-! ### A client that is silent -/

/-- While the client `c` does nothing, the server waits for it. -/
theorem WaitsFor.step (hw : WaitsFor s c) (h : Step o s l t) (hl : l ≠ .client c) :
    l ≠ .server ∧ WaitsFor t c ∧ t.doWork = s.doWork ∧
      ∀ c', (t.conn c').written = (s.conn c').written := by
  have hserver : l ≠ .server := by
    rintro rfl
    exact hw.stuck h
  obtain ⟨r, rest, hplace, hret, htaken, hpeer⟩ := hw
  -- another client changes its own connection only, and writes nothing
  have hothers : ∀ {c'} (k : Conn), l = .client c' → k.written = (s.conn c').written →
      (Function.update s.conn c' k c = s.conn c) ∧
        ∀ c₁, (Function.update s.conn c' k c₁).written = (s.conn c₁).written := by
    rintro c' k rfl hwritten
    refine ⟨Function.update_of_ne (fun hc => hl (by rw [hc])) .., ?_⟩
    exact forall_update (P := fun c₁ k => k.written = (s.conn c₁).written) hwritten fun _ _ => rfl
  refine ⟨hserver, ?_⟩
  cases h with
  | connect l' c' hphase =>
      obtain ⟨hc, hwritten⟩ := hothers { s.conn c' with phase := .queued } rfl rfl
      exact ⟨⟨r, rest, hplace, hret, htaken.trans (by rw [← hc]; rfl),
        (congrArg Conn.peer hc).trans hpeer⟩, rfl, hwritten⟩
  | send c' bs hphase hp =>
      obtain ⟨hc, hwritten⟩ := hothers { s.conn c' with sent := (s.conn c').sent ++ bs } rfl rfl
      exact ⟨⟨r, rest, hplace, hret, htaken.trans (by rw [← hc]; rfl),
        (congrArg Conn.peer hc).trans hpeer⟩, rfl, hwritten⟩
  | hangUp c' p hphase hp =>
      obtain ⟨hc, hwritten⟩ := hothers { s.conn c' with peer := p } rfl rfl
      exact ⟨⟨r, rest, hplace, hret, htaken.trans (by rw [← hc]; rfl),
        (congrArg Conn.peer hc).trans hpeer⟩, rfl, hwritten⟩
  | sigint => exact ⟨⟨r, rest, hplace, hret, htaken, hpeer⟩, rfl, fun _ => rfl⟩
  | _ => exact absurd rfl hserver

/-- **A client that is silent keeps everybody.** -/
theorem WaitsFor.run (hw : WaitsFor s c) (r : Run (Step o) s tr t)
    (hsilent : ∀ m ∈ tr, m.label ≠ .client c) :
    (∀ m ∈ tr, m.label ≠ .server) ∧ WaitsFor t c ∧ t.doWork = s.doWork ∧
      ∀ c', (t.conn c').written = (s.conn c').written := by
  induction r with
  | refl => exact ⟨by simp, hw, rfl, fun _ => rfl⟩
  | @snoc t u tr l r h ih =>
      obtain ⟨hnone, hwt, hwork, hwritten⟩ :=
        ih fun m m_in => hsilent m (List.mem_append_left _ m_in)
      obtain ⟨hserver, hwu, hwork', hwritten'⟩ := hwt.step h (hsilent ⟨t, l, u⟩ (by simp))
      exact ⟨forall_mem_snoc hnone hserver, hwu, hwork'.trans hwork,
        fun c' => (hwritten' c').trans (hwritten c')⟩

/-! ### Any other -/

/-- What the server has still to do for a connection. -/
def effort : Place C → Nat
  | .reading _ r _ => if r.loop.returned = none then size - r.taken + 25 else 24
  | .calculating _ _ => 23
  | .writing _ w _ => size - w.out.length + 2
  | .closing _ _ => 1
  | _ => 0

omit [DecidableEq C] in
theorem effort_le (p : Place C) : effort p ≤ 45 := by
  cases p with
  | reading c r rest =>
      rw [effort]
      split
      · exact Nat.add_le_add_right (Nat.sub_le 20 _) 25
      · decide
  | writing c w rest => exact (Nat.add_le_add_right (Nat.sub_le 20 _) 2).trans (by decide)
  | _ => exact Nat.le_of_ble_eq_true rfl

/-- **Every step for a connection uses something up.** -/
theorem effort_lt (hs : Sound o s) (h : Step o s .server t) (hc : s.place.current ≠ none) :
    effort t.place < effort s.place := by
  have hhere := hs.here
  cases h with
  | read c r rest out r' h hread hgives =>
      rw [h] at hhere ⊢
      have hmore := hhere.1.more hread.1
      have htaken : r'.taken = r.taken + out.bytes := by
        rw [hread.2.2]
        cases out <;> rfl
      have hbefore : effort (.reading c r rest) = size - r.taken + 25 := if_pos hread.1
      change effort (.reading c r' rest) < _
      rw [hbefore, effort]
      split
      · rename_i hnone
        cases out with
        | moved n =>
            have hone : 1 ≤ n := hread.2.1.1
            rw [htaken, Outcome.bytes]
            omega
        | eof | error =>
            rw [hread.2.2] at hnone
            cases hnone
        | eintr => exact hgives.elim
      · omega
  | returned c r rest x h hx =>
      have hbefore : effort (.reading c r rest) = 24 :=
        if_neg (by rw [hx]; exact Option.some_ne_none x)
      rw [h, hbefore]
      change effort (bulkReadDone c rest x) < 24
      rw [bulkReadDone]
      split
      · exact Nat.succ_pos _
      · split
        · exact Nat.lt_succ_self 23
        · exact Nat.succ_lt_succ (Nat.succ_pos _)
  | calculate c rest h =>
      rw [h, State.calculated]
      split
      · exact (by decide : size - 0 + 2 < 23)
      · exact Nat.succ_pos _
  | write c w rest n w' h hwrite =>
      rw [h] at hhere ⊢
      obtain ⟨hgiving, -⟩ := hhere
      have hone : 1 ≤ n := hwrite.2.1.1
      have hmore := hgiving.more hwrite.1
      have hout : w'.out.length = w.out.length + n := by
        rw [hwrite.2.2.2, Bulk.write_moved]
        simp
      change size - w'.out.length + 2 < size - w.out.length + 2
      omega
  | wrote c w rest x h hx hnonneg =>
      rw [h]
      exact Nat.succ_lt_succ (Nat.succ_pos _)
  | epipe c w rest w' h hwrite hpeer =>
      rw [h]
      exact Nat.succ_lt_succ (Nat.succ_pos _)
  | writeFails c w rest w' h hwrite hpeer =>
      rw [h]
      exact Nat.succ_pos _
  | close c rest h =>
      rw [h]
      exact Nat.one_pos
  | serve h | stop h | ready _ h | eintr h | handled h | accept _ _ _ _ h | eagain _ _ h =>
      rw [h] at hc
      exact absurd rfl hc

omit [DecidableEq C] in
/-- A step of a client, or a signal, is none of the server. -/
theorem Step.place_eq [DecidableEq C] (h : Step o s l t) (hl : l ≠ .server) :
    t.place = s.place := by
  cases h with
  | connect | send | hangUp | sigint => rfl
  | _ => exact absurd rfl hl

def Actor.isServer : Actor C → Bool
  | .server => true
  | _ => false

/-- **A connection is served** in so many steps. -/
theorem effort_run (hs : Sound o s) (r : Run (Step o) s tr t)
    (hat : ∀ m ∈ tr, m.before.place.current ≠ none) :
    (tr.filter fun m => m.label.isServer).length + effort t.place ≤ effort s.place := by
  refine r.count_le (J := Sound o) (C := fun s _ _ => s.place.current ≠ none)
    (Φ := fun s => effort s.place) Actor.isServer (fun hs h _ => hs.step h) (fun hs h hc => ?_) hs hat
  rename_i s l t
  cases l with
  | server =>
      have hlt := effort_lt hs h hc
      rw [Nat.add_comm]
      exact hlt
  | client c | signal =>
      rw [h.place_eq fun h => by cases h]
      exact (Nat.zero_add _).le

/-- **Silence.**  In every reachable state the server can go on, unless it has stopped, or it waits
and there is no connection and no signal, or it reads from a client that has not sent twenty bytes and
may still.  While that client does nothing, whatever all the others do, the server does nothing, writes
nothing to anybody, and does not stop at `SIGINT`.  Otherwise a connection is served in 45 steps. -/
theorem silence_law (r : Run (Step o) (begin C data) tr s) :
    ((¬ ∃ t, Step o s .server t) ↔ s.place.over = true ∨ Idle s ∨ ∃ c, WaitsFor s c) ∧
    (∀ c, WaitsFor s c → ∀ tr' t, Run (Step o) s tr' t → (∀ m ∈ tr', m.label ≠ .client c) →
      (∀ m ∈ tr', m.label ≠ .server) ∧ WaitsFor t c ∧ t.doWork = s.doWork ∧
        ∀ c', (t.conn c').written = (s.conn c').written) ∧
    ∀ tr' t, Run (Step o) s tr' t → (∀ m ∈ tr', m.before.place.current ≠ none) →
      (tr'.filter fun m => m.label.isServer).length ≤ 45 := by
  have hs := sound_run r
  refine ⟨stuck_iff hs, fun c hw tr' t r' hsilent => hw.run r' hsilent, fun tr' t r' hat => ?_⟩
  exact (Nat.le_add_right _ _).trans ((effort_run hs r' hat).trans (effort_le _))

/-- A client connects, and sends nothing. -/
theorem connected_run : ∃ (tr : List (Move (State Unit) (Actor Unit))) (s : State Unit),
    Run (Step .big) (begin Unit fun _ => 0) tr s ∧ WaitsFor s () := by
  have r := ((((Run.one (.connect .tcp () rfl) : Run (Step .big) (begin Unit fun _ => 0) _ _).snoc
    (.serve rfl rfl)).snoc
    (.ready [.tcp] rfl (List.cons_ne_nil _ _) (List.nodup_cons.mpr ⟨nofun, List.nodup_nil⟩)
      fun l => by cases l <;> decide)).snoc
    (.accept .tcp [] () [] rfl rfl))
  exact ⟨_, _, r, _, _, rfl, rfl, rfl, rfl⟩

theorem silence_law_connected : ∃ s : State Unit, WaitsFor s () ∧
    ∀ tr t, Run (Step .big) s tr t → (∀ m ∈ tr, m.label ≠ .client ()) →
      ∀ m ∈ tr, m.label ≠ .server := by
  obtain ⟨tr, s, r, hw⟩ := connected_run
  exact ⟨s, hw, fun tr' t r' hsilent => ((silence_law r).2.1 () hw tr' t r' hsilent).1⟩

end Sop2.L7
