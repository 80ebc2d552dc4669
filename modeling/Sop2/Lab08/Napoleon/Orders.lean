import Sop2.Lab08.Napoleon.Messages
import Sop2.Lab08.Napoleon.Names

/-!
# Lab08 — Napoleon — the orders

`napoleon_thread` of `napoleon.c`, beside the adjutants with reports that came as datagrams.  The
emperor looks at the map row by row, chooses a division under `div_mutex`, and gives up the mutex
before he sends the order, so that the adjutants may register anything in between.  `SIGINT` clears
`do_work` at any time.

`target_name` is not initialised, and `strncpy` with 128 copies no NUL of a name of 128 characters;
what `%s` finds behind it is anything then.  An order is what is handed to `sendto`, which may drop it.

* `Court.part_run`: what the adjutants do is a run of their own.
* `Choice`: what the emperor has in hand between the two.
* `order_law`: to whom an order goes, what it says, and what becomes of it when it comes back.
-/

namespace Sop2.Napoleon
open Support

variable {A : Type*}

/-- Where the emperor is. -/
inductive Emperor (A : Type*) where
  /-- `while (do_work)`. -/
  | loop
  /-- About to look at the row. -/
  | survey (r : Fin 100)
  | choosing
  /-- Behind the section under `div_mutex`, with `target_addr` and `target_name`. -/
  | ordering (addr : A) (targetName : List UInt8)
  | gone

structure Court (A : Type*) where
  staff : Staff A
  doWork : Bool
  emperor : Emperor A

/-- `allies`. -/
def Registry.allies (g : Registry A) : List Nat :=
  (List.range g.numDivs).filter fun i => g.divP i = ours

/-- Behind the section under the mutex of a row. -/
def afterLook (r : Fin 100) : Emperor A :=
  match nextRow r with
  | some r' => .survey r'
  | none => .choosing

namespace Court

/-- Before the threads start. -/
def begin (g : Registry A) : Court A := ⟨Staff.begin g, true, .loop⟩

inductive Label (A : Type*) where
  | adjutant (l : Staff.Label)
  | emperor
  | look (r : Fin 100)
  | choose (d : Nat)
  | order (addr : A) (text : List UInt8)
  | sigint

/-- One section, or what comes between two. -/
inductive Step : Court A → Label A → Court A → Prop where
  | report {s : Court A} (i : Worker) (msg : Message A) (rep : Report A)
      (hrep : msg.report = some rep) (h : s.staff.clerk i = .idle) :
      Step s (.adjutant (.report i))
        { s with staff := { s.staff with clerk := Function.update s.staff.clerk i (.reported rep) } }
  | adjutant {s : Court A} (l : Staff.Label) (staff : Staff A) (h : Staff.Step s.staff l staff)
      (hl : ∀ i, l ≠ .report i) : Step s (.adjutant l) { s with staff := staff }
  | work {s : Court A} (h : s.emperor = .loop) (hwork : s.doWork = true) :
      Step s .emperor { s with emperor := .survey 0 }
  | stop {s : Court A} (h : s.emperor = .loop) (hwork : s.doWork = false) :
      Step s .emperor { s with emperor := .gone }
  | look {s : Court A} (r : Fin 100) (h : s.emperor = .survey r) :
      Step s (.look r) { s with emperor := afterLook r }
  | choose {s : Court A} (d : Nat) (target : List UInt8) (h : s.emperor = .choosing)
      (hd : d ∈ s.staff.registry.allies) (htarget : target.length = 129) :
      Step s (.choose d)
        { s with
          emperor := .ordering (s.staff.registry.divAddr d)
            (strncpy target (s.staff.registry.divNames d) 128) }
  | nobody {s : Court A} (h : s.emperor = .choosing) (hnobody : s.staff.registry.allies = []) :
      Step s .emperor { s with emperor := .loop }
  | order {s : Court A} (addr : A) (targetName behind : List UInt8) (x y : Fin 100)
      (h : s.emperor = .ordering addr targetName) :
      Step s (.order addr (order x y (cString (targetName ++ behind)))) { s with emperor := .loop }
  | sigint {s : Court A} : Step s .sigint { s with doWork := false }

end Court

/-! ### The adjutants -/

variable {g : Registry A} {s t : Court A} {l : Court.Label A}
  {tr : List (Move (Court A) (Court.Label A))}

/-- What an adjutant does. -/
def Court.Label.staff : Court.Label A → Option Staff.Label
  | .adjutant l => some l
  | _ => none

/-- The filings of a run. -/
def filed (tr : List (Move (Court A) (Court.Label A))) : List (Filing A) :=
  filings (tr.filterMap (Move.part Court.staff Court.Label.staff))

theorem Court.part_run (r : Run Court.Step (Court.begin g) tr s) :
    Run Staff.Step (Staff.begin g) (tr.filterMap (Move.part Court.staff Court.Label.staff))
      s.staff := by
  refine r.part (f := Court.staff) (g := Court.Label.staff) fun h => ?_
  cases h with
  | report i msg rep hrep hi => exact .inr ⟨.report i, rfl, .report i rep hi⟩
  | adjutant l staff h hl => exact .inr ⟨l, rfl, h⟩
  | _ => exact .inl ⟨rfl, rfl⟩

theorem filed_append (tr tr' : List (Move (Court A) (Court.Label A))) :
    filed (tr ++ tr') = filed tr ++ filed tr' := by
  rw [filed, List.filterMap_append]
  exact List.filterMap_append ..

theorem filed_adjutant (s t : Court A) (l : Staff.Label) :
    filed [⟨s, .adjutant l, t⟩] = (filing ⟨s.staff, l, t.staff⟩).toList := by
  change [(⟨s.staff, l, t.staff⟩ : Move (Staff A) Staff.Label)].filterMap filing = _
  cases h : filing (⟨s.staff, l, t.staff⟩ : Move (Staff A) Staff.Label) with
  | none => exact List.filterMap_cons_none h
  | some f => exact List.filterMap_cons_some h

/-- A report that an adjutant found. -/
def Written (rep : Report A) : Prop := ∃ name, Legible name ∧ rep.name = divName name

theorem Written.legible {f : Filing A} (h : Written f.rep) : Legible f.text := by
  obtain ⟨name, hname, heq⟩ := h
  rw [Filing.text, heq, hname.cString_divName]
  exact hname

theorem Written.parsed {rep : Report A} (h : Written rep) : Parsed rep.name := by
  obtain ⟨name, hname, heq⟩ := h
  exact ⟨name, List.length_pos_iff.mpr hname.ne, hname.le, hname.text, heq⟩

/-- Every report in hand, and every one that was filed, has been found in a message. -/
structure Founded (tr : List (Move (Court A) (Court.Label A))) (s : Court A) : Prop where
  clerk : ∀ i rep, s.staff.clerk i = .reported rep → Written rep
  filed : ∀ f ∈ filed tr, Written f.rep

theorem Founded.step (hs : Founded tr s) (h : Court.Step s l t) : Founded (tr ++ [⟨s, l, t⟩]) t := by
  -- the adjutant `i` goes on, and whoever has a report now had it before
  have hothers : ∀ {i : Worker} {k : Clerk A}, (∀ rep, k = .reported rep → Written rep) →
      ∀ j rep, Function.update s.staff.clerk i k j = .reported rep → Written rep := by
    intro i k hk j rep hj
    by_cases hji : j = i
    · rw [hji, Function.update_self] at hj
      exact hk rep hj
    · rw [Function.update_of_ne hji] at hj
      exact hs.clerk j rep hj
  have hsame : ∀ {m : Move (Court A) (Court.Label A)}, Napoleon.filed [m] = [] →
      ∀ f ∈ Napoleon.filed (tr ++ [m]), Written f.rep := by
    intro m hm f hf
    rw [filed_append, hm, List.append_nil] at hf
    exact hs.filed f hf
  cases h with
  | report i msg rep hrep hi =>
      refine ⟨hothers fun rep' heq => ?_, hsame rfl⟩
      cases heq
      exact report_legible hrep
  | adjutant l staff h hl =>
      cases h with
      | report i => exact absurd rfl (hl i)
      | register i rep hi =>
          refine ⟨hothers fun rep' heq => ?_, fun f hf => ?_⟩
          · split at heq <;> cases heq
          · rw [filed_append, filed_adjutant] at hf
            rcases List.mem_append.mp hf with hf | hf
            · exact hs.filed f hf
            · simp only [filing, hi, Option.toList_some, List.mem_singleton] at hf
              rw [hf]
              exact hs.clerk i rep hi
      | scan i d r x y hi =>
          refine ⟨hothers fun rep' heq => ?_, hsame rfl⟩
          rw [afterRow] at heq
          split at heq
          · cases heq
          · split at heq <;> cases heq
      | place i d x y hi => exact ⟨hothers fun rep' heq => (by cases heq), hsame rfl⟩
  | _ => exact ⟨hs.clerk, hsame rfl⟩

theorem founded_run (r : Run Court.Step (Court.begin g) tr s) : Founded tr s := by
  induction r with
  | refl => exact ⟨fun i rep h => (by cases h), fun f hf => absurd hf List.not_mem_nil⟩
  | snoc _ h ih => exact ih.step h

/-! ### The register -/

theorem Terminated.left {names names' : List (List UInt8)} (h : Terminated g (names ++ names')) :
    Terminated g names := fun before name after heq =>
  h before name (after ++ names') (by rw [heq, List.append_assoc, List.cons_append])

/-- The register is lawful, if all names fit. -/
theorem lawful_run {tr : List (Move (Staff A) Staff.Label)} {t : Staff A}
    (r : Run Staff.Step (Staff.begin g) tr t) (hg : ∀ d, (g.divNames d).length = 129)
    (hn : ∀ f ∈ filings tr, Parsed f.rep.name)
    (hterminated : Terminated g ((filings tr).map Filing.text)) :
    Lawful (filings tr) t.registry := by
  induction r with
  | refl => exact lawful_nil _ rfl
  | @snoc t u tr l r h ih =>
      rw [filings_snoc] at hn hterminated ⊢
      rw [List.map_append] at hterminated
      have ht := ih (fun f hf => hn f (List.mem_append_left _ hf)) hterminated.left
      rcases filing_cases h with ⟨hf, heq⟩ | ⟨rep, hf, heq⟩
      · rw [hf, heq, Option.toList_none, List.append_nil]
        exact ht
      · rw [hf, Option.toList_some] at hn hterminated ⊢
        rw [heq]
        refine (ht.register hg (fresh_run r) ?_).mpr (terminated_snoc.mp hterminated).2
        exact hn ⟨rep, (t.registry.register rep).2⟩
          (List.mem_append_right _ (List.mem_singleton_self _))

/-- A name that was filed gets the index again. -/
theorem Lawful.lookup {fs : List (Filing A)} {f : Filing A} {d : Nat} {name : List UInt8}
    (h : Lawful fs g) (hf : f ∈ fs) (hd : f.divIdx = some d) (hname : cString name = f.text) :
    g.lookup name = some d := by
  obtain ⟨hlt, hstored⟩ := h.stored f hf d hd
  cases hl : g.lookup name with
  | none => exact absurd (hstored.trans hname.symm) (lookup_none hl hlt)
  | some i =>
      obtain ⟨hi, heq⟩ := lookup_some hl
      exact congrArg some (h.inj hi hlt (heq.trans (hname.trans hstored.symm)))

theorem register_idx {rep : Report A} {d : Nat} (h : g.lookup rep.name = some d) :
    (g.register rep).2 = some d := by
  rcases register_cases g rep with ⟨i, hi, heq⟩ | ⟨hnone, -⟩ | ⟨hnone, -⟩
  · rw [heq]
    exact hi.symm.trans h
  · rw [hnone] at h
    cases h
  · rw [hnone] at h
    cases h

/-! ### The emperor -/

/-- The emperor does nothing. -/
def Quiet (m : Move (Court A) (Court.Label A)) : Prop :=
  (∃ l, m.label = .adjutant l) ∨ m.label = .sigint

/-- With the move `c` behind `before` the emperor chooses the division `d`, and has the address and the
name in hand. -/
structure Choice (g : Registry A) (before : List (Move (Court A) (Court.Label A)))
    (c : Move (Court A) (Court.Label A)) (d : Nat) (addr : A) (targetName : List UInt8) : Prop where
  run : Run Court.Step (Court.begin g) before c.before
  label : c.label = .choose d
  ally : d ∈ c.before.staff.registry.allies
  addr : addr = c.before.staff.registry.divAddr d
  name : ∃ target : List UInt8, target.length = 129 ∧
    targetName = strncpy target (c.before.staff.registry.divNames d) 128

/-- **What the emperor has in hand** he has chosen, and he has done nothing since. -/
theorem choice_run (r : Run Court.Step (Court.begin g) tr s) {addr : A} {targetName : List UInt8}
    (h : s.emperor = .ordering addr targetName) :
    ∃ before c since d, tr = before ++ c :: since ∧ (∀ m ∈ since, Quiet m) ∧
      Choice g before c d addr targetName := by
  induction r with
  | refl => cases h
  | @snoc t u tr l r hstep ih =>
      -- he has chosen before, and does nothing in this step
      have hold : t.emperor = .ordering addr targetName → Quiet ⟨t, l, u⟩ →
          ∃ before c since d, tr ++ [⟨t, l, u⟩] = before ++ c :: since ∧ (∀ m ∈ since, Quiet m) ∧
            Choice g before c d addr targetName := by
        intro ht hquiet
        obtain ⟨before, c, since, d, rfl, hsince, hc⟩ := ih ht
        exact ⟨before, c, since ++ [⟨t, l, u⟩], d, List.append_assoc .., forall_mem_snoc hsince hquiet,
          hc⟩
      cases hstep with
      | report => exact hold h (.inl ⟨_, rfl⟩)
      | adjutant => exact hold h (.inl ⟨_, rfl⟩)
      | sigint => exact hold h (.inr rfl)
      | choose d target ht hd htarget =>
          cases h
          exact ⟨tr, _, [], d, rfl, fun _ hm => absurd hm List.not_mem_nil, r, rfl, hd, rfl, target,
            htarget, rfl⟩
      | look r' ht =>
          change afterLook r' = _ at h
          rw [afterLook] at h
          split at h <;> cases h
      | _ => cases h

/-- A name of less than 128 characters is copied with a NUL. -/
theorem cString_target {target src behind : List UInt8} (htarget : target.length = 129)
    (hlength : (cString src).length < 128) :
    cString (strncpy target src 128 ++ behind) = cString src := by
  have hlast : target[128]? = some target[128] := List.getElem?_eq_getElem (by omega)
  obtain ⟨k, hk⟩ : ∃ k, 128 - (cString src).length = k + 1 :=
    ⟨127 - (cString src).length, by omega⟩
  rw [strncpy_eq htarget hlast hlength.le, hk, List.replicate_succ, List.append_assoc,
    List.append_assoc, List.cons_append]
  exact cString_append (zero_notMem_cString src) _

/-- The last filing with its name. -/
def Latest (fs : List (Filing A)) (f : Filing A) : Prop :=
  ∃ before after, fs = before ++ f :: after ∧ ∀ f' ∈ after, f'.text ≠ f.text

/-- The filing `f` is that of a division of ours, with the index `d`, which can be reached at `addr`. -/
structure Ally (f : Filing A) (d : Nat) (addr : A) : Prop where
  idx : f.divIdx = some d
  ours : f.rep.p = ours
  addr : addr = f.rep.addr

/-- The choice is a division as it was filed last. -/
theorem Choice.latest {before : List (Move (Court A) (Court.Label A))}
    {c : Move (Court A) (Court.Label A)} {d : Nat} {addr : A} {targetName : List UInt8}
    (hc : Choice g before c d addr targetName) (hg : ∀ d, (g.divNames d).length = 129)
    (hterminated : Terminated g ((filed before).map Filing.text)) :
    ∃ f ∈ filed before, Latest (filed before) f ∧ Ally f d addr ∧
      (f.text.length < 128 → ∀ behind, cString (targetName ++ behind) = f.text) := by
  have hwritten := (founded_run hc.run).filed
  have hlawful : Lawful (filed before) c.before.staff.registry :=
    lawful_run (Court.part_run hc.run) hg (fun f hf => (hwritten f hf).parsed) hterminated
  obtain ⟨hlt, hours⟩ := List.mem_filter.mp hc.ally
  have hlt := List.mem_range.mp hlt
  obtain ⟨pre, f, post, heq, hidx, hpost, haddr, hp⟩ := hlawful.latest d hlt
  have hf : f ∈ filed before := by
    rw [heq]
    exact List.mem_append_right _ List.mem_cons_self
  obtain ⟨target, htarget, hname⟩ := hc.name
  have hstored := (hlawful.stored f hf d hidx).2
  refine ⟨f, hf, ⟨pre, post, heq, hpost⟩, ⟨hidx, ?_, hc.addr.trans haddr⟩, fun hlength behind => ?_⟩
  · exact hp.symm.trans (of_decide_eq_true hours)
  · rw [hname, cString_target htarget (by rwa [hstored]), hstored]

/-- The emperor is on the way to an order. -/
def Emperor.orders : Emperor A → Nat
  | .loop | .gone => 0
  | _ => 1

def Court.Label.isOrder : Court.Label A → Bool
  | .order _ _ => true
  | _ => false

/-- The orders of a run. -/
def orders (tr : List (Move (Court A) (Court.Label A))) : List (Move (Court A) (Court.Label A)) :=
  tr.filter fun m => m.label.isOrder

/-- **When `do_work` has been cleared** there is one more order at most. -/
theorem orders_le (r : Run Court.Step s tr t) (hwork : s.doWork = false) :
    (orders tr).length + t.emperor.orders ≤ s.emperor.orders := by
  refine r.count_le (J := fun s => s.doWork = false) (C := fun _ _ _ => True)
    (Φ := fun s => s.emperor.orders) Court.Label.isOrder (fun hs h _ => ?_) (fun hs h _ => ?_) hwork
    fun _ _ => trivial
  · cases h with
    | sigint => rfl
    | _ => exact hs
  · cases h with
    | report | adjutant | sigint => exact (Nat.zero_add _).le
    | work h hw =>
        rw [hs] at hw
        cases hw
    | stop h | nobody h => exact Nat.zero_le _
    | look r' h =>
        rw [h]
        change 0 + (afterLook r').orders ≤ 1
        rw [afterLook]
        split <;> exact le_rfl
    | choose d target h | order addr targetName behind x y h =>
        rw [h]
        exact le_rfl

/-! ### The orders -/

theorem order_inv {addr : A} {text : List UInt8} (h : Court.Step s (.order addr text) t) :
    ∃ targetName behind x y, s.emperor = .ordering addr targetName ∧
      text = order x y (cString (targetName ++ behind)) := by
  cases h with
  | order addr targetName behind x y h => exact ⟨targetName, behind, x, y, h, rfl⟩

theorem sigint_inv (h : Court.Step s .sigint t) : t.doWork = false := by
  cases h
  rfl

/-- **The orders.**  Let the slots of the register be as `register_law` asks: a name of 128
characters gets one that ends with a NUL.  Every order goes to the address in the last report of a
division that said that it was ours, among those filed before the emperor chose it, once for each
choice; with a name of less than 128 characters it says this name, and if it is sent back as a
report, from anywhere and at any later time, then it is one for this division.  When `do_work` has
been cleared there is one more order at most. -/
theorem order_law (r : Run Court.Step (Court.begin g) tr s)
    (hg : ∀ d, (g.divNames d).length = 129)
    (hterminated : Terminated g ((filed tr).map Filing.text)) :
    (∀ before m after addr text, tr = before ++ m :: after → m.label = .order addr text →
      ∃ pre c since d f, before = pre ++ c :: since ∧ c.label = .choose d ∧
        (∀ m ∈ since, Quiet m) ∧ Latest (filed pre) f ∧ Ally f d addr ∧
        (f.text.length < 128 → ∃ x y, text = orderText x y f.text ∧ ∀ from_,
          (receive text from_).report = some ⟨x, y, ours, divName f.text, from_⟩ ∧
            (s.staff.registry.register ⟨x, y, ours, divName f.text, from_⟩).2 = some d)) ∧
    ∀ before m after, tr = before ++ m :: after → m.label = .sigint →
      (orders after).length ≤ 1 := by
  have hwritten := (founded_run r).filed
  have hlawful : Lawful (filed tr) s.staff.registry :=
    lawful_run (Court.part_run r) hg (fun f hf => (hwritten f hf).parsed) hterminated
  refine ⟨fun before m after addr text htr hm => ?_, fun before m after htr hm => ?_⟩
  · subst htr
    obtain ⟨r₁, hstep, -⟩ := r.cut
    rw [hm] at hstep
    obtain ⟨targetName, behind, x, y, h, rfl⟩ := order_inv hstep
    obtain ⟨pre, c, since, d, rfl, hsince, hc⟩ := choice_run r₁ h
    rw [List.append_assoc, filed_append] at hterminated hwritten hlawful
    rw [List.map_append] at hterminated
    obtain ⟨f, hf, hlatest, hally, hname⟩ := hc.latest hg hterminated.left
    refine ⟨pre, c, since, d, f, rfl, hc.label, hsince, hlatest, hally, fun hlength => ?_⟩
    have hmem : f ∈ filed pre ++ _ := List.mem_append_left (filed (c :: since ++ m :: after)) hf
    have hlegible := (hwritten f hmem).legible
    rw [hname hlength, order_eq x y hlegible]
    refine ⟨x, y, rfl, fun from_ => ⟨?_, ?_⟩⟩
    · rw [← order_eq x y hlegible]
      exact report_order x y hlegible from_
    · exact register_idx (hlawful.lookup hmem hally.idx hlegible.cString_divName)
  · subst htr
    obtain ⟨-, hstep, r₂⟩ := r.cut
    rw [hm] at hstep
    have hle := orders_le r₂ (sigint_inv hstep)
    have hone : m.after.emperor.orders ≤ 1 := by
      cases m.after.emperor <;> first | exact le_rfl | exact Nat.zero_le _
    omega

/-! ### One order -/

/-- The emperor looks at the map, from the row `r` on. -/
theorem survey_run (n : Nat) : ∀ (s : Court A) (r : Fin 100), r.val + n = 99 →
    s.emperor = .survey r →
      ∃ tr, Run Court.Step s tr { s with emperor := .choosing } ∧ orders tr = [] ∧ filed tr = [] := by
  induction n with
  | zero =>
      intro s r hr h
      have hlast : afterLook (A := A) r = .choosing := by
        rw [afterLook, nextRow, dif_neg (by omega)]
      have hstep := Court.Step.look r h
      rw [hlast] at hstep
      exact ⟨_, .one hstep, rfl, rfl⟩
  | succ n ih =>
      intro s r hr h
      have hlt : r.val + 1 < 100 := by omega
      have hnext : afterLook (A := A) r = .survey ⟨r + 1, hlt⟩ := by
        rw [afterLook, nextRow, dif_pos hlt]
      have hstep := Court.Step.look r h
      rw [hnext] at hstep
      obtain ⟨tr, rest, hnone, hfiled⟩ := ih { s with emperor := .survey ⟨r + 1, hlt⟩ } ⟨r + 1, hlt⟩
        (by dsimp only; omega) rfl
      exact ⟨_, .cons hstep rest, hnone, hfiled⟩

/-- A division of ours is reported. -/
theorem oneReport_run : ∃ (tr : List (Move (Court Unit) (Court.Label Unit))) (s : Court Unit),
    Run Court.Step (Court.begin (filled 0)) tr s ∧ s.emperor = .survey 0 ∧
      0 ∈ s.staff.registry.allies ∧ orders tr = [] ∧ (filed tr).map Filing.text = [[65]] := by
  have hlegible : Legible [65] :=
    ⟨by decide, by decide, by decide, by decide, fun b hb => by cases hb; rfl⟩
  have r : Run Court.Step (Court.begin (filled 0)) _ _ :=
    (((Run.one (.report 0 _ _ (report_order 0 0 hlegible ()) rfl)).snoc
      (.adjutant (.register 0) _ (.register 0 _ rfl) (fun i h => by cases h))).snoc (.work rfl rfl))
  exact ⟨_, _, r, rfl, by decide +kernel, rfl, by decide +kernel⟩

/-- And gets an order. -/
theorem oneOrder_run : ∃ (tr : List (Move (Court Unit) (Court.Label Unit))) (s : Court Unit),
    Run Court.Step (Court.begin (filled 0)) tr s ∧ (orders tr).length = 1 ∧
      (filed tr).map Filing.text = [[65]] := by
  obtain ⟨tr₁, s₁, r₁, hs₁, hally, hnone₁, hfiled₁⟩ := oneReport_run
  obtain ⟨tr₂, r₂, hnone₂, hfiled₂⟩ := survey_run 99 s₁ 0 rfl hs₁
  have r₃ := ((r₁.trans r₂).snoc (.choose 0 (List.replicate 129 0) rfl hally
    List.length_replicate)).snoc (.order _ _ [] 0 0 rfl)
  refine ⟨_, _, r₃, ?_, ?_⟩
  · simp only [orders, List.filter_append] at hnone₁ hnone₂ ⊢
    rw [hnone₁, hnone₂]
    rfl
  · rw [filed_append, filed_append, filed_append, hfiled₂, List.append_nil, List.map_append,
      List.map_append, hfiled₁]
    rfl

theorem order_law_oneOrder : ∃ (tr : List (Move (Court Unit) (Court.Label Unit))),
    (orders tr).length = 1 ∧
      ∀ before m after addr text, tr = before ++ m :: after → m.label = .order addr text →
        ∃ d f, Ally f d addr := by
  obtain ⟨tr, s, r, hone, hfiled⟩ := oneOrder_run
  have hlaw := order_law r (fun d => List.length_replicate) (by
    intro before name after _ _ _ _
    rfl)
  refine ⟨tr, hone, fun before m after addr text htr hm => ?_⟩
  obtain ⟨pre, c, since, d, f, -, -, -, -, hally, -⟩ := hlaw.1 before m after addr text htr hm
  exact ⟨d, f, hally⟩

end Sop2.Napoleon
