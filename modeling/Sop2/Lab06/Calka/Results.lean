import Mathlib.Algebra.Order.BigOperators.Group.List
import Mathlib.Algebra.Order.Ring.Int
import Mathlib.Data.List.Nodup
import Sop2.Lab06.Calka.Program

/-!
# Lab06 — Calka — the shared results

`total_randomized_points` and `hit_points` stay in step, whoever dies.

The batch `i` of a process is `computed` once its hits are known, it is among the `begun` once
its size has been added, and among the `merges` once its hits have been added too.  Only the
process that holds `mxResults` is between the two additions, and none dies there (`Ledger`).
-/

namespace Sop2.Calka
open Support Support.Robust

variable {P : Type*} [DecidableEq P]

/-- The batches whose hits are known, with the hits. -/
def computed (tr : List (Move (State P) (P × Option Event))) : List (P × Nat × Int) :=
  tr.filterMap fun m =>
    match m.label with
    | (p, some (.computed i hits)) => some (p, i, hits)
    | _ => none

/-- The batches whose size has been added. -/
def begun (tr : List (Move (State P) (P × Option Event))) : List (P × Nat) :=
  tr.filterMap fun m =>
    match m.label with
    | (p, some (.addTotal i)) => some (p, i)
    | _ => none

/-- The batches that have been merged, with the hits added. -/
def merges (tr : List (Move (State P) (P × Option Event))) : List (P × Nat × Int) :=
  tr.filterMap fun m =>
    match m.label with
    | (p, some (.addHits i hits)) => some (p, i, hits)
    | _ => none

/-- Whose batch it is, and which. -/
def batch (m : P × Nat × Int) : P × Nat := (m.1, m.2.1)

/-- The sum of the hits of the batches. -/
def allHits (ms : List (P × Nat × Int)) : Int := (ms.map fun m => m.2.2).sum

/-! ### What a process does to the results -/

def Site.upto : Site → Option (Nat × Nat)
  | .join | .print => some (0, 0)
  | .nested i _ => some (i + 1, i)
  | .finish => none

/-- How many batches the process has computed so far, and how many of them it has begun to merge;
`none` if it computes and merges no more. -/
def Place.upto : Place → Option (Nat × Nat)
  | .outside | .create | .openRw | .map | .post | .created => some (0, 0)
  | .lock k | .locked k | .ownerDead k | .repair k | .body k | .unlock k _ => k.upto
  | .loop i => some (i, i)
  | .resLock i _ | .resLocked i _ | .resOwnerDead i _ | .addTotal i _ => some (i + 1, i)
  | .addHits i _ | .resUnlock i => some (i + 1, i + 1)
  | _ => none

def Site.carried : Site → Option (Nat × Int)
  | .nested i hits => some (i, hits)
  | _ => none

/-- The batch that the process has computed and has not merged yet, with its hits. -/
def Place.carried : Place → Option (Nat × Int)
  | .lock k | .locked k | .ownerDead k | .repair k | .body k | .unlock k _ => k.carried
  | .resLock i hits | .resLocked i hits | .resOwnerDead i hits | .addTotal i hits
  | .addHits i hits => some (i, hits)
  | _ => none

/-- The process is about to die, or has died. -/
def Place.doomed : Place → Bool
  | .dying _ | .resDying | .dead => true
  | _ => false

/-- Between the two additions. -/
def Place.between : Place → Bool
  | .addHits _ _ => true
  | _ => false

/-- The process has destroyed the mutexes. -/
def Place.destroyed : Place → Bool
  | .unlink | .tornDown => true
  | _ => false

/-- The four kinds of steps, by what they do to the results. -/
inductive Turn (d : Shared) : Proc → Option Event → Shared → Proc → Prop where
  | computed (n : Int) (i : Nat) (hits : Int) (hlow : 0 ≤ hits) (hhigh : hits ≤ max 0 n) :
      Turn d ⟨n, .loop i⟩ (some (.computed i hits)) d ⟨n, .resLock i hits⟩
  | addTotal (n : Int) (i : Nat) (hits : Int) :
      Turn d ⟨n, .addTotal i hits⟩ (some (.addTotal i)) { d with total := wrap32 (d.total + n) }
        ⟨n, .addHits i hits⟩
  | addHits (n : Int) (i : Nat) (hits : Int) :
      Turn d ⟨n, .addHits i hits⟩ (some (.addHits i hits)) { d with hits := wrap32 (d.hits + hits) }
        ⟨n, .resUnlock i⟩
  | other (n : Int) (q q' : Place) (l : Option Event) (d' : Shared)
      (hl : l = none ∨ ∃ total hits, l = some (.printed total hits))
      (htotal : d'.total = d.total) (hhits : d'.hits = d.hits) (hq : q.between = false)
      (hq' : q'.between = false) (hupto : q'.upto = none ∨ q'.upto = q.upto)
      (hcarried : q'.carried = q.carried ∨ q'.carried = none ∧ q'.doomed = true)
      (hdoomed : q.doomed = true → q'.doomed = true) :
      Turn d ⟨n, q⟩ l d' ⟨n, q'⟩

theorem Site.next_upto (k : Site) (seen : Int) :
    (k.next seen).upto = none ∨ (k.next seen).upto = k.upto := by
  cases k with
  | join | print | nested i hits => exact .inr rfl
  | finish => simp only [Site.next]; split <;> exact .inl rfl

theorem Site.next_carried (k : Site) (seen : Int) : (k.next seen).carried = k.carried := by
  cases k with
  | join | print | nested i hits => rfl
  | finish => simp only [Site.next]; split <;> rfl

theorem Site.next_between (k : Site) (seen : Int) : (k.next seen).between = false := by
  cases k with
  | join | print | nested i hits => rfl
  | finish => simp only [Site.next]; split <;> rfl

/-- Every step is one of these. -/
theorem op_turn {c c' : Proc} {d d' : Shared} {l : Option Event}
    (h : (op c).Goes d l d' c') : Turn d c l d' c' := by
  obtain ⟨n, q⟩ := c
  -- most steps do nothing to the results
  have quiet : ∀ {q'}, l = none → d'.total = d.total → d'.hits = d.hits →
      q.between = false → q'.between = false → (q'.upto = none ∨ q'.upto = q.upto) →
      (q'.carried = q.carried ∨ q'.carried = none ∧ q'.doomed = true) →
      (q.doomed = true → q'.doomed = true) → Turn d ⟨n, q⟩ l d' ⟨n, q'⟩ :=
    fun hl => .other n q _ l d' (.inl hl)
  cases q with
  | loop i =>
      obtain ⟨rfl, ⟨hits, -, hlow, hhigh, rfl, rfl⟩ | ⟨rfl, rfl⟩⟩ := h
      · exact .computed n i hits hlow hhigh
      · exact quiet rfl rfl rfl rfl rfl (.inl rfl) (.inl rfl) id
  | addTotal i hits =>
      obtain ⟨rfl, rfl, rfl⟩ := h
      exact .addTotal n i hits
  | addHits i hits =>
      obtain ⟨rfl, rfl, rfl⟩ := h
      exact .addHits n i hits
  | summary =>
      obtain ⟨rfl, rfl, rfl⟩ := h
      exact .other n _ _ _ _ (.inr ⟨_, _, rfl⟩) rfl rfl rfl rfl (.inl rfl) (.inl rfl) id
  | unlock k seen =>
      obtain ⟨rfl, rfl, rfl⟩ := h
      exact quiet rfl rfl rfl rfl (k.next_between seen) (k.next_upto seen)
        (.inl (k.next_carried seen)) (fun e => by cases e)
  | outside =>
      obtain ⟨rfl, ⟨-, rfl⟩ | rfl, rfl⟩ := h <;>
        exact quiet rfl rfl rfl rfl rfl (.inr rfl) (.inl rfl) id
  | create | openRw =>
      obtain ⟨rfl, rfl, rfl⟩ := h
      dsimp only
      split
      · exact quiet rfl rfl rfl rfl rfl (.inr rfl) (.inl rfl) id
      · exact quiet rfl rfl rfl rfl rfl (.inl rfl) (.inl rfl) id
  | map =>
      obtain ⟨rfl, rfl, rfl | rfl⟩ := h
      · exact quiet rfl rfl rfl rfl rfl (.inr rfl) (.inl rfl) id
      · exact quiet rfl rfl rfl rfl rfl (.inl rfl) (.inl rfl) id
  | locked k =>
      obtain ⟨rfl, rfl, rfl | rfl⟩ := h
      · exact quiet rfl rfl rfl rfl rfl (.inr rfl) (.inl rfl) id
      · exact quiet rfl rfl rfl rfl rfl (.inl rfl) (.inr ⟨rfl, rfl⟩)
          (fun _ => rfl)
  | resLocked i hits =>
      obtain ⟨rfl, rfl, rfl | rfl⟩ := h
      · exact quiet rfl rfl rfl rfl rfl (.inr rfl) (.inl rfl) id
      · exact quiet rfl rfl rfl rfl rfl (.inl rfl) (.inr ⟨rfl, rfl⟩)
          (fun _ => rfl)
  | lock k =>
      obtain ⟨rfl, rfl, rfl | rfl⟩ := h <;>
        exact quiet rfl rfl rfl rfl rfl (.inr rfl) (.inl rfl) id
  | resLock i hits =>
      obtain ⟨rfl, rfl, rfl | rfl⟩ := h <;>
        exact quiet rfl rfl rfl rfl rfl (.inr rfl) (.inl rfl) id
  | dying k | resDying =>
      obtain ⟨rfl, rfl, rfl⟩ := h
      exact quiet rfl rfl rfl rfl rfl (.inl rfl) (.inl rfl) (fun _ => rfl)
  | refused | destroy | unlink =>
      obtain ⟨rfl, rfl, rfl⟩ := h
      exact quiet rfl rfl rfl rfl rfl (.inl rfl) (.inl rfl) id
  | left | tornDown | exited | dead => exact h.elim
  | _ =>
      obtain ⟨rfl, rfl, rfl⟩ := h
      exact quiet rfl rfl rfl rfl rfl (.inr rfl) (.inl rfl) id

/-! ### The ledger -/

/-- What is recorded of the batches of one process, given its place. -/
structure Account (N : P → Int) (com : List (P × Nat × Int)) (beg : List (P × Nat))
    (mer : List (P × Nat × Int)) (p : P) (c : Proc) : Prop where
  n : c.n = N p
  upto : ∀ a b, c.place.upto = some (a, b) →
    (∀ i hits, (p, i, hits) ∈ com → i < a) ∧ ∀ i, (p, i) ∈ beg → i < b
  carried : ∀ b, c.place.carried = some b → (p, b) ∈ com
  settled : ∀ b, (p, b) ∈ com → (p, b) ∈ mer ∨ c.place.carried = some b ∨ c.place.doomed = true

/-- **The ledger.**  What the shared results are, given the batches computed, begun and merged. -/
structure Ledger (N : P → Int) (com : List (P × Nat × Int)) (beg : List (P × Nat))
    (mer : List (P × Nat × Int)) (s : State P) : Prop where
  total : s.data.total = wrap32 (beg.map fun m => N m.1).sum
  hits : s.data.hits = wrap32 (allHits mer)
  account : ∀ p, Account N com beg mer p (s.pc p)
  /-- The batch that is begun but not merged is that of the process between the two additions. -/
  pending : ∀ p i hits, (s.pc p).place = .addHits i hits → beg = mer.map batch ++ [(p, i)]
  settled : (∀ p, (s.pc p).place.between = false) → beg = mer.map batch
  once : (com.map batch).Nodup
  begunOnce : beg.Nodup
  merged : ∀ m ∈ mer, m ∈ com
  bounds : ∀ m ∈ com, 0 ≤ m.2.2 ∧ m.2.2 ≤ max 0 (N m.1)

variable {c : P} {N : P → Int} {s t : State P} {com mer : List (P × Nat × Int)}
  {beg : List (P × Nat)} {tr : List (Move (State P) (P × Option Event))}

theorem ledger_begin : Ledger N [] [] [] (begin c N) where
  total := wrap32_zero.symm
  hits := wrap32_zero.symm
  account p := by
    refine ⟨rfl, fun _ _ _ => ⟨by simp, by simp⟩, fun b h => ?_, by simp⟩
    dsimp only [begin] at h
    split at h <;> cases h
  pending p i hits h := by
    dsimp only [begin] at h
    split at h <;> cases h
  settled _ := rfl
  once := .nil
  begunOnce := .nil
  merged := by simp
  bounds := by simp

omit [DecidableEq P] in
/-- The account of a process is not affected by the batches of the others. -/
theorem Account.frame {com' mer' : List (P × Nat × Int)} {beg' : List (P × Nat)} {p : P} {c : Proc}
    (h : Account N com beg mer p c) (hcom : ∀ b, (p, b) ∈ com' ↔ (p, b) ∈ com)
    (hbeg : ∀ i, (p, i) ∈ beg' ↔ (p, i) ∈ beg) (hmer : ∀ b, (p, b) ∈ mer' ↔ (p, b) ∈ mer) :
    Account N com' beg' mer' p c where
  n := h.n
  upto a b hab := ⟨fun i hits hi => (h.upto a b hab).1 i hits ((hcom _).mp hi),
    fun i hi => (h.upto a b hab).2 i ((hbeg _).mp hi)⟩
  carried b hb := (hcom b).mpr (h.carried b hb)
  settled b hb := (h.settled b ((hcom b).mp hb)).imp_left (hmer b).mpr

/-- Who is between the two additions holds `mxResults`. -/
theorem Place.between_mode {q : Place} (h : q.between = true) : q.mode .results ≠ none := by
  cases q with
  | addHits i hits => exact Option.some_ne_none _
  | _ => cases h

/-- While a process holds `mxResults`, no other is between the two additions. -/
theorem nobody_between (hs : Disciplined (fun c : Proc => c.place.mode) (fun _ => True) s) {p : P}
    (hp : (s.pc p).place.mode .results ≠ none) {r : P} (hr : r ≠ p) :
    (s.pc r).place.between = false :=
  Bool.eq_false_iff.mpr fun h => hr (alone hs (Place.between_mode h) hp)

omit [DecidableEq P] in
/-- What a process keeps of its account when it does nothing to the results. -/
theorem Account.other {p : P} {n : Int} {q q' : Place} (h : Account N com beg mer p ⟨n, q⟩)
    (hupto : q'.upto = none ∨ q'.upto = q.upto)
    (hcarried : q'.carried = q.carried ∨ q'.carried = none ∧ q'.doomed = true)
    (hdoomed : q.doomed = true → q'.doomed = true) : Account N com beg mer p ⟨n, q'⟩ where
  n := h.n
  upto a b hab := by
    rcases hupto with hu | hu
    · rw [hu] at hab
      cases hab
    · exact h.upto a b (hu ▸ hab)
  carried b hb := by
    rcases hcarried with hq | ⟨hq, -⟩
    · exact h.carried b (hq ▸ hb)
    · rw [hq] at hb
      cases hb
  settled b hb := by
    rcases h.settled b hb with hm | hm | hm
    · exact .inl hm
    · rcases hcarried with hq | ⟨-, hq⟩
      · exact .inr (.inl (hq.trans hm))
      · exact .inr (.inr hq)
    · exact .inr (.inr (hdoomed hm))

/-- One process moves, and no batch is begun or merged. -/
theorem Ledger.move {com' : List (P × Nat × Int)} (hL : Ledger N com beg mer s) {p : P}
    {c' : Proc} (d : Shared) (table : Mx → Mutex P) (htotal : d.total = s.data.total)
    (hhits : d.hits = s.data.hits) (hq : (s.pc p).place.between = false)
    (hq' : c'.place.between = false)
    (hp : Account N com' beg mer p c') (hr : ∀ r ≠ p, ∀ b, (r, b) ∈ com' ↔ (r, b) ∈ com)
    (honce : (com'.map batch).Nodup) (hmer : ∀ m ∈ com, m ∈ com')
    (hbounds : ∀ m ∈ com', 0 ≤ m.2.2 ∧ m.2.2 ≤ max 0 (N m.1)) :
    Ledger N com' beg mer ⟨d, table, Function.update s.pc p c'⟩ where
  total := htotal.trans hL.total
  hits := hhits.trans hL.hits
  account := (Function.forall_update_iff s.pc fun r c => Account N com' beg mer r c).mpr
    ⟨hp, fun r hne => (hL.account r).frame (hr r hne) (fun _ => .rfl) fun _ => .rfl⟩
  pending := (Function.forall_update_iff s.pc fun r c =>
      ∀ i hits, c.place = .addHits i hits → beg = mer.map batch ++ [(r, i)]).mpr
    ⟨fun i hits h => absurd hq' (by rw [h]; exact Bool.noConfusion), fun r _ => hL.pending r⟩
  settled h := by
    obtain ⟨-, hother⟩ :=
      (Function.forall_update_iff s.pc fun _ c => c.place.between = false).mp h
    refine hL.settled fun r => ?_
    by_cases hrp : r = p
    · exact hrp ▸ hq
    · exact hother r hrp
  once := honce
  begunOnce := hL.begunOnce
  merged m hm := hmer m (hL.merged m hm)
  bounds := hbounds

/-- The first addition: the batch is begun. -/
theorem Ledger.addTotal (hs : Disciplined (fun c : Proc => c.place.mode) (fun _ => True) s)
    (hL : Ledger N com beg mer s) {p : P} {n : Int} {i : Nat} {hits : Int}
    (hc : s.pc p = ⟨n, .addTotal i hits⟩) (table : Mx → Mutex P) :
    Ledger N com (beg ++ [(p, i)]) mer
      ⟨{ s.data with total := wrap32 (s.data.total + n) }, table,
        Function.update s.pc p ⟨n, .addHits i hits⟩⟩ := by
  have hp := hL.account p
  rw [hc] at hp
  have hholds : (s.pc p).place.mode .results ≠ none := by
    rw [hc]
    exact Option.some_ne_none _
  -- nobody else is between the two additions
  have hothers : ∀ r ≠ p, (s.pc r).place.between = false :=
    fun r hr => nobody_between hs hholds hr
  have hbeg : beg = mer.map batch := hL.settled fun r => by
    by_cases hr : r = p
    · rw [hr, hc]
      rfl
    · exact hothers r hr
  refine ⟨?_, hL.hits, ?_, ?_, ?_, hL.once, ?_, hL.merged, hL.bounds⟩
  · rw [List.map_append, List.sum_append]
    simp [hL.total, ← hp.n]
  · refine (Function.forall_update_iff s.pc fun r c =>
      Account N com (beg ++ [(p, i)]) mer r c).mpr ⟨⟨hp.n, ?_, hp.carried, hp.settled⟩, ?_⟩
    · rintro a b hab
      obtain ⟨rfl, rfl⟩ : i + 1 = a ∧ i + 1 = b := by simpa [Place.upto] using hab
      refine ⟨(hp.upto _ _ rfl).1, fun j hj => ?_⟩
      rcases List.mem_append.mp hj with hj | hj
      · exact Nat.lt_succ_of_lt ((hp.upto _ _ rfl).2 j hj)
      · cases List.mem_singleton.mp hj
        exact Nat.lt_succ_self i
    · exact fun r hr => (hL.account r).frame (fun _ => .rfl) (fun j => by simp [hr]) fun _ => .rfl
  · refine (Function.forall_update_iff s.pc fun r c => ∀ j hits, c.place = .addHits j hits →
      beg ++ [(p, i)] = mer.map batch ++ [(r, j)]).mpr
      ⟨fun j hits' h => ?_, fun r hr j hits' h => ?_⟩
    · cases h
      rw [hbeg]
    · have hbetween := hothers r hr
      rw [h] at hbetween
      cases hbetween
  · intro h
    have hbetween := h p
    dsimp only at hbetween
    rw [Function.update_self] at hbetween
    cases hbetween
  · refine hL.begunOnce.append (List.nodup_singleton _) ?_
    simpa using fun hi => lt_irrefl i ((hp.upto _ _ rfl).2 i hi)

/-- The second addition: the batch is merged. -/
theorem Ledger.addHits (hs : Disciplined (fun c : Proc => c.place.mode) (fun _ => True) s)
    (hL : Ledger N com beg mer s) {p : P} {n : Int} {i : Nat} {hits : Int}
    (hc : s.pc p = ⟨n, .addHits i hits⟩) (table : Mx → Mutex P) :
    Ledger N com beg (mer ++ [(p, i, hits)])
      ⟨{ s.data with hits := wrap32 (s.data.hits + hits) }, table,
        Function.update s.pc p ⟨n, .resUnlock i⟩⟩ := by
  have hp := hL.account p
  rw [hc] at hp
  have hothers : ∀ r ≠ p, (s.pc r).place.between = false := fun r hr =>
    nobody_between hs (by rw [hc]; exact Option.some_ne_none _) hr
  have hbeg : beg = (mer ++ [(p, i, hits)]).map batch := by
    rw [List.map_append, hL.pending p i hits (by rw [hc])]
    rfl
  refine ⟨hL.total, ?_, ?_, ?_, fun _ => hbeg, hL.once, hL.begunOnce, ?_, hL.bounds⟩
  · rw [allHits, List.map_append, List.sum_append, ← allHits]
    simp [hL.hits]
  · refine (Function.forall_update_iff s.pc fun r c =>
      Account N com beg (mer ++ [(p, i, hits)]) r c).mpr ⟨⟨hp.n, hp.upto, ?_, ?_⟩, ?_⟩
    · rintro b hb
      cases hb
    · rintro b hb
      rcases hp.settled b hb with hm | hm | hm
      · exact .inl (List.mem_append_left _ hm)
      · cases hm
        exact .inl (List.mem_append_right _ (List.mem_singleton_self _))
      · cases hm
    · exact fun r hr => (hL.account r).frame (fun _ => .rfl) (fun _ => .rfl) fun b => by simp [hr]
  · refine (Function.forall_update_iff s.pc fun r c => ∀ j hits', c.place = .addHits j hits' →
      beg = (mer ++ [(p, i, hits)]).map batch ++ [(r, j)]).mpr
      ⟨fun j hits' h => (by cases h), fun r hr j hits' h => ?_⟩
    have hbetween := hothers r hr
    rw [h] at hbetween
    cases hbetween
  · exact forall_mem_snoc hL.merged (hp.carried _ rfl)

/-- One step, on the ledger. -/
theorem Ledger.step (hs : Disciplined (fun c : Proc => c.place.mode) (fun _ => True) s)
    (hL : Ledger N com beg mer s) {l : P × Option Event} (h : Step s l t) :
    Ledger N (com ++ computed [⟨s, l, t⟩]) (beg ++ begun [⟨s, l, t⟩])
      (mer ++ merges [⟨s, l, t⟩]) t := by
  obtain ⟨p, e⟩ := l
  obtain ⟨c', hpc, hgoes⟩ := h.goes
  obtain ⟨d, table, pc'⟩ := t
  dsimp only at hpc hgoes
  subst hpc
  have hturn := op_turn hgoes
  have hp := hL.account p
  generalize hc : s.pc p = c at hturn hp
  cases hturn with
  | computed n i hits hlow hhigh =>
      change Ledger N (com ++ [(p, i, hits)]) (beg ++ []) (mer ++ []) _
      rw [List.append_nil, List.append_nil]
      -- the batch is the next one of `p`
      have hnew : (p, i) ∉ com.map batch := fun hi => by
        obtain ⟨⟨r, j, hits'⟩, hm, he⟩ := List.mem_map.mp hi
        cases he
        exact lt_irrefl _ ((hp.upto _ _ rfl).1 _ hits' hm)
      have hmine : Account N (com ++ [(p, i, hits)]) beg mer p ⟨n, .resLock i hits⟩ := by
        refine ⟨hp.n, ?_, ?_, ?_⟩
        · rintro a b hab
          obtain ⟨rfl, rfl⟩ : i + 1 = a ∧ i = b := by simpa [Place.upto] using hab
          refine ⟨fun j hits' hj => ?_, (hp.upto i i rfl).2⟩
          rcases List.mem_append.mp hj with hj | hj
          · exact Nat.lt_succ_of_lt ((hp.upto i i rfl).1 j hits' hj)
          · cases List.mem_singleton.mp hj
            exact Nat.lt_succ_self i
        · rintro b hb
          cases hb
          simp
        · intro b hb
          rcases List.mem_append.mp hb with hb | hb
          · refine (hp.settled b hb).imp_right fun h => ?_
            rcases h with h | h <;> cases h
          · cases List.mem_singleton.mp hb
            exact .inr (.inl rfl)
      refine hL.move s.data table rfl rfl (by rw [hc]; rfl) ?_ hmine ?_ ?_ ?_ ?_
      · rfl
      · intro r hr b
        simp [hr]
      · rw [List.map_append]
        exact hL.once.append (List.nodup_singleton _) (by simpa [batch] using hnew)
      · exact fun m hm => List.mem_append_left _ hm
      · refine forall_mem_snoc hL.bounds ⟨hlow, ?_⟩
        rw [← hp.n]
        exact hhigh
  | addTotal n i hits =>
      change Ledger N (com ++ []) (beg ++ [(p, i)]) (mer ++ []) _
      rw [List.append_nil, List.append_nil]
      exact hL.addTotal hs hc table
  | addHits n i hits =>
      change Ledger N (com ++ []) (beg ++ []) (mer ++ [(p, i, hits)]) _
      rw [List.append_nil, List.append_nil]
      exact hL.addHits hs hc table
  | other n q q' l d' hl htotal hhits hq hq' hupto hcarried hdoomed =>
      have hnone : computed [⟨s, (p, e), ⟨d, table, Function.update s.pc p ⟨n, q'⟩⟩⟩] = [] ∧
          begun [⟨s, (p, e), ⟨d, table, Function.update s.pc p ⟨n, q'⟩⟩⟩] = [] ∧
          merges [⟨s, (p, e), ⟨d, table, Function.update s.pc p ⟨n, q'⟩⟩⟩] = [] := by
        rcases hl with rfl | ⟨total, hits, rfl⟩ <;> exact ⟨rfl, rfl, rfl⟩
      obtain ⟨h₁, h₂, h₃⟩ := hnone
      rw [h₁, h₂, h₃, List.append_nil, List.append_nil, List.append_nil]
      exact hL.move d table htotal hhits (by rw [hc]; exact hq) hq'
        (hp.other hupto hcarried hdoomed) (fun _ _ _ => .rfl) hL.once (fun _ => id) hL.bounds

/-- The ledger is kept in every run. -/
theorem ledger (r : Run Step (begin c N) tr t) :
    Ledger N (computed tr) (begun tr) (merges tr) t := by
  induction r with
  | refl => exact ledger_begin
  | snoc r h ih =>
      simpa only [computed, begun, merges, List.filterMap_append] using
        ih.step (disciplined r) h

omit [DecidableEq P]

variable [DecidableEq P] {c : P} {tr : List (Move (State P) (P × Option Event))} {t : State P}

end Sop2.Calka
