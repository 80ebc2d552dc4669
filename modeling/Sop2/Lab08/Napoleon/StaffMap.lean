import Sop2.Lab08.Napoleon.Queue
import Sop2.Support.Bytes

/-!
# Lab08 — Napoleon — the staff map

The register of divisions and the map, `adjutant_thread` from the parsed report on.  A section
under one mutex is one step: the registration, the scan of one row, the placement of the piece.

The scan gives up the mutex of a row before it takes the next, and the placement comes after it.
Two adjutants with reports of one division can both scan before either places its piece
(`two_pieces`).  `one_cell`: as long as whoever places a piece does so ahead of the scans of all
others for the same division, no division is on the map twice.
-/

namespace Sop2.Napoleon
open Support

/-- `DIVISION_NAMES_SIZE`. -/
def divisionNamesSize : Nat := 128

/-- The map has rows and columns. -/
instance neZero_hundred : NeZero (100 : Nat) := ⟨by decide⟩

/-- What `sscanf` has found in a report, with the coordinates and `p` as they are checked; `name`
is `div_name`, which has 129 bytes. -/
structure Report (A : Type*) where
  x : Fin 100
  y : Fin 100
  p : Fin 2
  name : List UInt8
  addr : A

/-- `div_names`, `div_addr`, `div_p` and `num_divs`.  Nothing but `num_divs` is initialised. -/
structure Registry (A : Type*) where
  divNames : Nat → List UInt8
  divAddr : Nat → A
  divP : Nat → Fin 2
  numDivs : Nat

variable {A : Type*}

/-- `div_idx` after the loop over the names. -/
def Registry.lookup (g : Registry A) (name : List UInt8) : Option Nat :=
  (List.range g.numDivs).find? fun i => cString (g.divNames i) = cString name

/-- The section under `div_mutex`; no index when the register is full. -/
def Registry.register (g : Registry A) (rep : Report A) : Registry A × Option Nat :=
  let (g, divIdx) :=
    match g.lookup rep.name with
    | some i => (g, some i)
    | none =>
        if g.numDivs < divisionNamesSize then
          ({ g with
              divNames := Function.update g.divNames g.numDivs
                (strncpy (g.divNames g.numDivs) rep.name 128)
              numDivs := g.numDivs + 1 }, some g.numDivs)
        else (g, none)
  match divIdx with
  | some i =>
      ({ g with
          divAddr := Function.update g.divAddr i rep.addr
          divP := Function.update g.divP i rep.p }, some i)
  | none => (g, none)

/-- `map`; a cell holds the index of a division, or -1. -/
abbrev StaffMap := Fin 100 → Fin 100 → Int

/-- The section of the scan under the mutex of one row, and `found`. -/
def clearRow (d : Int) (row : Fin 100 → Int) : (Fin 100 → Int) × Bool :=
  match (List.finRange 100).find? fun c => row c = d with
  | some c => (Function.update row c (-1), true)
  | none => (row, false)

/-- The row after `r`. -/
def nextRow (r : Fin 100) : Option (Fin 100) :=
  if h : r.val + 1 < 100 then some ⟨r + 1, h⟩ else none

/-- Where an adjutant is with its report. -/
inductive Clerk (A : Type*) where
  | idle
  | reported (rep : Report A)
  /-- About to scan the row `r`, none of those before it having been found. -/
  | scanning (d : Nat) (r : Fin 100) (x y : Fin 100)
  | placing (d : Nat) (x y : Fin 100)

/-- The register, the map, and where the adjutants are. -/
structure Staff (A : Type*) where
  registry : Registry A
  map : StaffMap
  clerk : Worker → Clerk A

/-- The map before the adjutants start. -/
def Staff.begin (g : Registry A) : Staff A :=
  ⟨{ g with numDivs := 0 }, fun _ _ => -1, fun _ => .idle⟩

/-- Where a scan goes on. -/
def afterRow (d : Nat) (r x y : Fin 100) (found : Bool) : Clerk A :=
  if found then .placing d x y
  else
    match nextRow r with
    | some r' => .scanning d r' x y
    | none => .placing d x y

namespace Staff

inductive Label where
  | report (i : Worker)
  | register (i : Worker)
  | scan (i : Worker)
  | place (i : Worker)

/-- One section of an adjutant. -/
inductive Step : Staff A → Label → Staff A → Prop where
  | report {s : Staff A} (i : Worker) (rep : Report A) (h : s.clerk i = .idle) :
      Step s (.report i) { s with clerk := Function.update s.clerk i (.reported rep) }
  | register {s : Staff A} (i : Worker) (rep : Report A) (h : s.clerk i = .reported rep) :
      Step s (.register i)
        { s with
          registry := (s.registry.register rep).1
          clerk := Function.update s.clerk i
            (match (s.registry.register rep).2 with
            | some d => .scanning d 0 rep.x rep.y
            | none => .idle) }
  | scan {s : Staff A} (i : Worker) (d : Nat) (r x y : Fin 100)
      (h : s.clerk i = .scanning d r x y) :
      Step s (.scan i)
        { s with
          map := Function.update s.map r (clearRow d (s.map r)).1
          clerk := Function.update s.clerk i (afterRow d r x y (clearRow d (s.map r)).2) }
  | place {s : Staff A} (i : Worker) (d : Nat) (x y : Fin 100)
      (h : s.clerk i = .placing d x y) :
      Step s (.place i)
        { s with
          map := Function.update s.map x (Function.update (s.map x) y d)
          clerk := Function.update s.clerk i .idle }

end Staff

/-- The division `d` occupies at most one cell. -/
def AtMostOne (map : StaffMap) (d : Nat) : Prop :=
  ∀ r c r' c', map r c = d → map r' c' = d → r = r' ∧ c = c'

/-- An adjutant that is to place `d` later has not passed the row `x`, or is to place it on the
same cell. -/
def Clerk.Ahead (d : Nat) (x y : Fin 100) : Clerk A → Prop
  | .scanning d' r x' y' => d' = d → x < r → x' = x ∧ y' = y
  | .placing d' x' y' => d' = d → x' = x ∧ y' = y
  | _ => True

/-- If a piece is placed with the step, then ahead of all others who handle the same division. -/
def InTime (s : Staff A) (l : Staff.Label) (_ : Staff A) : Prop :=
  ∀ i d x y, l = .place i → s.clerk i = .placing d x y → ∀ j, j ≠ i → (s.clerk j).Ahead d x y

/-- What a clerk that scans or is to place knows of the map. -/
def Clerk.Knows (map : StaffMap) : Clerk A → Prop
  | .scanning d r x y => ∀ r' c, r' < r → map r' c = d → r' = x ∧ c = y
  | .placing d x y => ∀ r c, map r c = d → r = x ∧ c = y
  | _ => True

/-- One cell for each division, and every adjutant has seen to it. -/
structure OneCell (s : Staff A) : Prop where
  one : ∀ d, AtMostOne s.map d
  knows : ∀ i, (s.clerk i).Knows s.map

/-! ### What one section does to the map -/

variable {s t : Staff A} {l : Staff.Label}

/-- Fewer pieces on the map. -/
def Fewer (map' map : StaffMap) : Prop := ∀ (d : Nat) r c, map' r c = d → map r c = d

theorem AtMostOne.fewer {map map' : StaffMap} {d : Nat} (h : AtMostOne map d)
    (hf : Fewer map' map) : AtMostOne map' d :=
  fun r c r' c' e e' => h r c r' c' (hf d r c e) (hf d r' c' e')

theorem Clerk.Knows.fewer {map map' : StaffMap} {k : Clerk A} (h : k.Knows map)
    (hf : Fewer map' map) : k.Knows map' := by
  cases k with
  | scanning d r x y => exact fun r' c hr e => h r' c hr (hf d r' c e)
  | placing d x y => exact fun r c e => h r c (hf d r c e)
  | idle | reported => trivial

/-- **The scan of one row.**  It removes the piece it finds, the first one; or there is none. -/
theorem clearRow_cases (d : Nat) (row : Fin 100 → Int) :
    (∃ c, row c = d ∧ clearRow d row = (Function.update row c (-1), true)) ∨
      (∀ c, row c ≠ d) ∧ clearRow d row = (row, false) := by
  unfold clearRow
  cases h : (List.finRange 100).find? fun c => row c = d with
  | some c => exact .inl ⟨c, by simpa using List.find?_some h, rfl⟩
  | none =>
      exact .inr ⟨fun c => by simpa using List.find?_eq_none.mp h c (List.mem_finRange c), rfl⟩

theorem fewer_clearRow (d : Nat) (r : Fin 100) (map : StaffMap) :
    Fewer (Function.update map r (clearRow d (map r)).1) map := by
  intro d' r' c' e
  by_cases hr : r' = r
  · subst hr
    rw [Function.update_self] at e
    rcases clearRow_cases d (map r') with ⟨c, -, h⟩ | ⟨-, h⟩
    · rw [h] at e
      simp only [Function.update_apply] at e
      split at e
      · omega
      · exact e
    · rwa [h] at e
  · rwa [Function.update_of_ne hr] at e

/-- The rows below the next one are those below this one, and this one. -/
theorem nextRow_lt {r r' r'' : Fin 100} (h : nextRow r = some r') (hlt : r'' < r') :
    r'' < r ∨ r'' = r := by
  unfold nextRow at h
  split at h
  · cases h
    have hval : r''.val < r.val + 1 := hlt
    rcases Nat.lt_succ_iff_lt_or_eq.mp hval with h | h
    · exact .inl h
    · exact .inr (Fin.ext h)
  · cases h

theorem nextRow_none {r : Fin 100} (h : nextRow r = none) (r'' : Fin 100) :
    r'' < r ∨ r'' = r := by
  unfold nextRow at h
  split at h
  · cases h
  · have := r''.isLt
    rcases Nat.lt_or_eq_of_le (show r''.val ≤ r.val by omega) with h | h
    · exact .inl h
    · exact .inr (Fin.ext h)

/-- What the adjutant knows after the scan of one more row. -/
theorem OneCell.scanned (h : OneCell s) {d : Nat} {r x y : Fin 100}
    (hk : Clerk.Knows (A := A) s.map (.scanning d r x y)) :
    Clerk.Knows (A := A) (Function.update s.map r (clearRow d (s.map r)).1)
      (afterRow d r x y (clearRow d (s.map r)).2) := by
  have hf := fewer_clearRow d r s.map
  rcases clearRow_cases d (s.map r) with ⟨c, hc, hrow⟩ | ⟨hnone, hrow⟩
  · -- the only piece of the division is the one that was found
    rw [hrow] at hf ⊢
    intro r' c' e
    obtain ⟨rfl, rfl⟩ := h.one d r' c' r c (hf d r' c' e) hc
    dsimp only at e
    rw [Function.update_self, Function.update_self] at e
    omega
  · rw [hrow, Function.update_eq_self]
    unfold afterRow
    rw [if_neg Bool.false_ne_true]
    have hrow : ∀ c, s.map r c = d → False := hnone
    split
    · rename_i r' hr'
      intro r'' c hlt e
      rcases nextRow_lt hr' hlt with hlt | rfl
      · exact hk r'' c hlt e
      · exact (hrow c e).elim
    · rename_i hr'
      intro r'' c e
      rcases nextRow_none hr' r'' with hlt | rfl
      · exact hk r'' c hlt e
      · exact (hrow c e).elim

/-- A piece on the map after one was placed: that one, or another that was there. -/
theorem placed_cases {map : StaffMap} {d d' : Nat} {x y r c : Fin 100}
    (h : Function.update map x (Function.update (map x) y d) r c = d') :
    (r = x ∧ c = y ∧ d' = d) ∨ map r c = d' := by
  by_cases hr : r = x
  · subst hr
    rw [Function.update_self] at h
    by_cases hc : c = y
    · subst hc
      rw [Function.update_self] at h
      exact .inl ⟨rfl, rfl, by omega⟩
    · rw [Function.update_of_ne hc] at h
      exact .inr h
  · rw [Function.update_of_ne hr] at h
    exact .inr h

/-- A piece is placed ahead of all others who handle the same division. -/
theorem OneCell.place (h : OneCell s) {i : Worker} {d : Nat} {x y : Fin 100}
    (hi : s.clerk i = .placing d x y) (ha : ∀ j, j ≠ i → (s.clerk j).Ahead d x y) :
    OneCell { s with
      map := Function.update s.map x (Function.update (s.map x) y d)
      clerk := Function.update s.clerk i .idle } := by
  have hknow := h.knows i
  rw [hi] at hknow
  refine ⟨fun d' r c r' c' e e' => ?_, fun j => ?_⟩
  · rcases placed_cases e with ⟨hr, hc, hd⟩ | e₀ <;>
      rcases placed_cases e' with ⟨hr', hc', hd'⟩ | e₀'
    · exact ⟨hr.trans hr'.symm, hc.trans hc'.symm⟩
    · obtain ⟨hr', hc'⟩ := hknow r' c' (hd ▸ e₀')
      exact ⟨hr.trans hr'.symm, hc.trans hc'.symm⟩
    · obtain ⟨hr, hc⟩ := hknow r c (hd' ▸ e₀)
      exact ⟨hr.trans hr'.symm, hc.trans hc'.symm⟩
    · exact h.one d' r c r' c' e₀ e₀'
  · dsimp only
    by_cases hj : j = i
    · rw [hj, Function.update_self]
      trivial
    · rw [Function.update_of_ne hj]
      have hkj := h.knows j
      have haj := ha j hj
      cases hc : s.clerk j with
      | idle | reported => trivial
      | scanning d' r x' y' =>
          rw [hc] at hkj haj
          intro r' c hr e
          rcases placed_cases e with ⟨rfl, rfl, hd⟩ | e₀
          · obtain ⟨hx, hy⟩ := haj hd hr
            exact ⟨hx.symm, hy.symm⟩
          · exact hkj r' c hr e₀
      | placing d' x' y' =>
          rw [hc] at hkj haj
          intro r' c e
          rcases placed_cases e with ⟨rfl, rfl, hd⟩ | e₀
          · obtain ⟨hx, hy⟩ := haj hd
            exact ⟨hx.symm, hy.symm⟩
          · exact hkj r' c e₀

/-- One adjutant moves on, and the map loses pieces or none. -/
theorem OneCell.move (h : OneCell s) {i : Worker} {map : StaffMap} {g : Registry A} {k : Clerk A}
    (hf : Fewer map s.map) (hk : k.Knows map) :
    OneCell ⟨g, map, Function.update s.clerk i k⟩ := by
  refine ⟨fun d => (h.one d).fewer hf, fun j => ?_⟩
  dsimp only
  by_cases hj : j = i
  · rw [hj, Function.update_self]; exact hk
  · rw [Function.update_of_ne hj]; exact (h.knows j).fewer hf

theorem OneCell.step (h : OneCell s) (hs : Staff.Step s l t) (hin : InTime s l t) :
    OneCell t := by
  have hsame : Fewer s.map s.map := fun _ _ _ => id
  cases hs with
  | report i rep hi => exact h.move hsame trivial
  | register i rep hi =>
      refine h.move hsame ?_
      split
      · exact fun r' c hr => absurd hr (Nat.not_lt_zero _)
      · trivial
  | scan i d r x y hi =>
      have hk := h.knows i
      rw [hi] at hk
      exact h.move (fewer_clearRow d r s.map) (h.scanned hk)
  | place i d x y hi => exact h.place hi (hin i d x y rfl hi)

/-! ### The whole run -/

variable {g : Registry A} {tr : List (Move (Staff A) Staff.Label)}

theorem oneCell_begin (g : Registry A) : OneCell (Staff.begin g) where
  one d r c r' c' e := absurd (show (-1 : Int) = d from e) (by omega)
  knows i := trivial

/-- **One cell.**  Along every run of the adjutants in which whoever places a piece does so ahead
of all others who handle a report of the same division, every division occupies at most one cell
of the map at any time. -/
theorem one_cell (r : Run Staff.Step (Staff.begin g) tr t)
    (hin : ∀ m ∈ tr, InTime m.before m.label m.after) (d : Nat) : AtMostOne t.map d :=
  (r.invariant_at (C := InTime) (fun h hs hin => h.step hs hin) (oneCell_begin g) hin).1.one d

/-! ### Two reports of one division -/

/-- The scan of a map without the division, from the row `r` on. -/
theorem scan_run {i : Worker} {d : Nat} {x y : Fin 100} (n : Nat) :
    ∀ (s : Staff A) (r : Fin 100), r.val + n = 99 → s.clerk i = .scanning d r x y →
      (∀ r c, s.map r c ≠ d) →
      ∃ tr, Run Staff.Step s tr { s with clerk := Function.update s.clerk i (.placing d x y) } ∧
        ∀ m ∈ tr, m.label = .scan i := by
  induction n with
  | zero =>
      intro s r hr hi hnone
      have hrow : clearRow d (s.map r) = (s.map r, false) :=
        (clearRow_cases d (s.map r)).elim (fun ⟨c, hc, _⟩ => absurd hc (hnone r c)) And.right
      have hstep := Staff.Step.scan i d r x y hi
      have hlast : nextRow r = none := dif_neg (by omega)
      rw [hrow, Function.update_eq_self] at hstep
      simp only [afterRow, hlast, Bool.false_eq_true, if_false] at hstep
      exact ⟨_, .one hstep, by simp⟩
  | succ n ih =>
      intro s r hr hi hnone
      have hrow : clearRow d (s.map r) = (s.map r, false) :=
        (clearRow_cases d (s.map r)).elim (fun ⟨c, hc, _⟩ => absurd hc (hnone r c)) And.right
      have hstep := Staff.Step.scan i d r x y hi
      have hlt : r.val + 1 < 100 := by omega
      have hnext : nextRow r = some ⟨r + 1, hlt⟩ := dif_pos hlt
      rw [hrow, Function.update_eq_self] at hstep
      simp only [afterRow, hnext, Bool.false_eq_true, if_false] at hstep
      obtain ⟨tr, r', hl⟩ := ih
        { s with clerk := Function.update s.clerk i (.scanning d ⟨r + 1, hlt⟩ x y) }
        ⟨r + 1, hlt⟩ (by dsimp only; omega) (Function.update_self ..) hnone
      simp only [Function.update_idem] at r'
      refine ⟨_, .cons hstep r', fun m hm => ?_⟩
      rcases List.mem_cons.mp hm with rfl | hm
      · rfl
      · exact hl m hm

/-- A register with no names, for reports that come from nowhere. -/
def blank : Registry Unit := ⟨fun _ => [], fun _ => (), fun _ => 0, 0⟩

/-- The division `"A"` at the cell in the row 0 and the column `y`. -/
def seenAt (y : Fin 100) : Report Unit := ⟨0, y, 0, [65], ()⟩

theorem Staff.Step.registered {s : Staff A} (i : Worker) (rep : Report A) (d : Nat)
    (h : s.clerk i = .reported rep) (hd : (s.registry.register rep).2 = some d) :
    Staff.Step s (.register i)
      { s with
        registry := (s.registry.register rep).1
        clerk := Function.update s.clerk i (.scanning d 0 rep.x rep.y) } := by
  have hs := Staff.Step.register i rep h
  rw [hd] at hs
  exact hs

/-- Two adjutants take a report each and register the same division. -/
theorem bothScan_run : ∃ tr s, Run Staff.Step (Staff.begin blank) tr s ∧
    s.clerk 0 = .scanning 0 0 0 0 ∧ s.clerk 1 = .scanning 0 0 0 1 ∧
    s.clerk 2 = .idle ∧ s.clerk 3 = .idle ∧ (∀ r c, s.map r c = -1) ∧
    ∀ m ∈ tr, ∀ i, m.label ≠ .place i := by
  have r : Run Staff.Step (Staff.begin blank) _ _ :=
    (((Run.one (.report 0 (seenAt 0) rfl)).snoc (.registered 0 (seenAt 0) 0 rfl rfl)).snoc
      (.report 1 (seenAt 1) rfl)).snoc (.registered 1 (seenAt 1) 0 rfl rfl)
  refine ⟨_, _, r, rfl, rfl, rfl, rfl, fun _ _ => rfl, ?_⟩
  simp only [List.forall_mem_append, List.forall_mem_singleton]
  simp

/-- Both scan the whole map before either places the piece, and both place it. -/
theorem two_pieces : ∃ tr s, Run Staff.Step (Staff.begin blank) tr s ∧
    (∀ i, s.clerk i = .idle) ∧ s.map 0 0 = 0 ∧ s.map 0 1 = 0 ∧ ¬ AtMostOne s.map 0 := by
  obtain ⟨tr, s, r, h₀, h₁, h₂, h₃, hmap, -⟩ := bothScan_run
  have hnone : ∀ r c, s.map r c ≠ (0 : Nat) := fun r c e => by
    rw [hmap] at e
    omega
  obtain ⟨tr₁, r₁, -⟩ := scan_run 99 s 0 rfl h₀ hnone
  obtain ⟨tr₂, r₂, -⟩ := scan_run 99
    { s with clerk := Function.update s.clerk 0 (.placing 0 0 0) } 0 rfl
    ((Function.update_of_ne (by decide) ..).trans h₁) hnone
  have r₃ := (((r.trans r₁).trans r₂).snoc (.place 0 0 0 0 rfl)).snoc (.place 1 0 0 1 rfl)
  refine ⟨_, _, r₃, fun i => ?_, ?_, ?_, ?_⟩
  · rcases worker_cases i with rfl | rfl | rfl | rfl
    · rfl
    · rfl
    · exact h₂
    · exact h₃
  · rfl
  · rfl
  · intro h
    exact absurd (h 0 0 0 1 rfl rfl).2 (by decide)

/-- A section that places no piece. -/
theorem inTime_of_label (h : ∀ i, l ≠ .place i) : InTime s l t :=
  fun i _ _ _ hl => absurd hl (h i)

/-- The first adjutant places the piece before the second has scanned that row, so that the second
finds it there, and moves it. -/
theorem one_cell_two : ∃ tr s, Run Staff.Step (Staff.begin blank) tr s ∧
    (∀ i, s.clerk i = .idle) ∧ s.map 0 1 = 0 ∧ AtMostOne s.map 0 := by
  obtain ⟨tr, s, r, h₀, h₁, h₂, h₃, hmap, hl⟩ := bothScan_run
  obtain ⟨tr₁, r₁, hl₁⟩ := scan_run 99 s 0 rfl h₀ fun r c e => by
    rw [hmap] at e
    omega
  have r₂ := (r.trans r₁).snoc (.place 0 0 0 0 rfl)
  simp only [Function.update_idem] at r₂
  have hsecond := (Function.update_of_ne (show (1 : Worker) ≠ 0 by decide) .idle s.clerk).trans h₁
  have r₃ := r₂.snoc (.scan 1 0 0 0 1 hsecond)
  have hfound : ∃ row,
      clearRow (0 : Nat) (Function.update (s.map 0) 0 (0 : Nat)) = (row, true) := by
    rcases clearRow_cases 0 (Function.update (s.map 0) 0 (0 : Nat)) with ⟨c, -, h⟩ | ⟨hnone, -⟩
    · exact ⟨_, h⟩
    · exact absurd (Function.update_self ..) (hnone 0)
  obtain ⟨row, hfound⟩ := hfound
  simp only [Function.update_self, Function.update_idem, hfound, afterRow, if_true] at r₃
  have r₄ := r₃.snoc (.place 1 0 0 1 rfl)
  have hothers : ∀ j : Worker, j ≠ 0 → j = 1 ∨ s.clerk j = .idle := by
    intro j hj
    rcases worker_cases j with rfl | rfl | rfl | rfl
    · exact absurd rfl hj
    · exact .inl rfl
    · exact .inr h₂
    · exact .inr h₃
  refine ⟨_, _, r₄, fun i => ?_, rfl, one_cell r₄ ?_ 0⟩
  · dsimp only
    by_cases hi : i = 1
    · rw [hi, Function.update_self]
    · rw [Function.update_of_ne hi, Function.update_of_ne hi]
      by_cases hi' : i = 0
      · rw [hi', Function.update_self]
      · rw [Function.update_of_ne hi']
        exact (hothers i hi').resolve_left hi
  · simp only [List.forall_mem_append, List.forall_mem_singleton]
    refine ⟨⟨⟨⟨fun m hm => inTime_of_label (hl m hm), fun m hm => ?_⟩, ?_⟩, ?_⟩, ?_⟩
    · rw [hl₁ m hm]
      exact inTime_of_label fun i h => by cases h
    · -- the second adjutant handles the division too, and is to scan the row
      rintro i d x y ⟨⟩ hc j hj
      obtain ⟨rfl, rfl, rfl⟩ : 0 = d ∧ 0 = x ∧ 0 = y := by simpa using hc
      dsimp only
      rw [Function.update_of_ne hj]
      rcases hothers j hj with rfl | hidle
      · rw [h₁]
        exact fun _ hlt => absurd hlt (lt_irrefl _)
      · rw [hidle]
        trivial
    · exact inTime_of_label fun i h => by cases h
    · rintro i d x y ⟨⟩ - j hj
      dsimp only
      rw [Function.update_of_ne hj]
      by_cases hj' : j = 0
      · rw [hj', Function.update_self]
        trivial
      · rw [Function.update_of_ne hj', (hothers j hj').resolve_left hj]
        trivial

end Sop2.Napoleon
