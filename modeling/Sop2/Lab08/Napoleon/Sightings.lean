import Mathlib.Data.List.Induction
import Sop2.Lab08.Napoleon.StaffMap

/-!
# Lab08 — Napoleon — one report after another

The map when no two adjutants handle reports at once: `moveTo` is the whole of what one adjutant
does to the map with one report, the scan of the rows up to the first piece found and the
placement.  `mapAfter_run` is the connection: an adjutant that handles any reports one after
another, with no other in between, leaves the map after them.

`cell_law`: after any history of reports, a cell holds the division whose last report named it,
unless a later report named it too.  It goes by `Placed`, from the front of the history to its
end; that no division is on the map twice is what makes the first piece found the only one.
-/

namespace Sop2.Napoleon
open Support

/-- A report by the index of its division. -/
structure Sighting where
  d : Nat
  x : Fin 100
  y : Fin 100

/-- The scan of the rows `rows`, up to the first in which the division is found. -/
def clearRows (d : Int) : List (Fin 100) → StaffMap → StaffMap
  | [], map => map
  | r :: rows, map =>
      let map' := Function.update map r (clearRow d (map r)).1
      if (clearRow d (map r)).2 then map' else clearRows d rows map'

/-- The map after one report. -/
def moveTo (map : StaffMap) (m : Sighting) : StaffMap :=
  let map := clearRows m.d (List.finRange 100) map
  Function.update map m.x (Function.update (map m.x) m.y m.d)

/-- The map after `history`, none of it at the same time. -/
def mapAfter (history : List Sighting) : StaffMap := history.foldl moveTo fun _ _ => -1

@[simp] theorem mapAfter_snoc (history : List Sighting) (m : Sighting) :
    mapAfter (history ++ [m]) = moveTo (mapAfter history) m :=
  List.foldl_concat ..

/-! ### What one report does to the map -/

/-- **The scan of the map.**  Of a division that occupies one cell at most it leaves none in the
rows scanned, and it touches nothing else. -/
theorem clearRows_apply {d : Nat} (rows : List (Fin 100)) (map : StaffMap)
    (h : AtMostOne map d) (r c : Fin 100) :
    clearRows d rows map r c = if map r c = d ∧ r ∈ rows then -1 else map r c := by
  induction rows generalizing map with
  | nil => simp [clearRows]
  | cons r₀ rows ih =>
      rcases clearRow_cases d (map r₀) with ⟨c₀, hc₀, hrow⟩ | ⟨hnone, hrow⟩
      · -- the piece found is the only one, and the rows that follow are not scanned
        have hmap : clearRows d (r₀ :: rows) map
            = Function.update map r₀ (Function.update (map r₀) c₀ (-1)) := by
          simp only [clearRows, hrow, if_true]
        rw [hmap]
        by_cases hrc : r = r₀ ∧ c = c₀
        · obtain ⟨rfl, rfl⟩ := hrc
          simp [hc₀]
        · have hne : map r c ≠ d := fun e => hrc (h r c r₀ c₀ e hc₀)
          rw [if_neg fun hd => hne hd.1]
          by_cases hr : r = r₀
          · subst hr
            rw [Function.update_self, Function.update_of_ne fun hc => hrc ⟨rfl, hc⟩]
          · rw [Function.update_of_ne hr]
      · have hmap : clearRows d (r₀ :: rows) map = clearRows d rows map := by
          simp only [clearRows, hrow, Function.update_eq_self, Bool.false_eq_true, if_false]
        rw [hmap, ih map h]
        by_cases hr : r = r₀
        · subst hr
          simp [hnone c]
        · simp [hr]

theorem moveTo_apply {map : StaffMap} {m : Sighting} (h : AtMostOne map m.d) (x y : Fin 100) :
    moveTo map m x y =
      if x = m.x ∧ y = m.y then (m.d : Int) else if map x y = m.d then -1 else map x y := by
  have hclear := clearRows_apply (List.finRange 100) map h
  simp only [List.mem_finRange, and_true] at hclear
  simp only [moveTo, Function.update_apply]
  by_cases hx : x = m.x
  · subst hx
    by_cases hy : y = m.y
    · simp [hy]
    · have hcell : ¬ (m.x = m.x ∧ y = m.y) := fun e => hy e.2
      rw [if_neg hcell, if_pos rfl, Function.update_of_ne hy, hclear]
  · have hcell : ¬ (x = m.x ∧ y = m.y) := fun e => hx e.1
    rw [if_neg hcell, if_neg hx, hclear]

/-! ### The whole history -/

/-- The last report of `d` names the cell, and none after it does. -/
def StandsAt (history : List Sighting) (d : Nat) (x y : Fin 100) : Prop :=
  ∃ before after, history = before ++ ⟨d, x, y⟩ :: after ∧
    ∀ m ∈ after, m.d ≠ d ∧ ¬ (m.x = x ∧ m.y = y)

/-- The map shows who stands where. -/
def Placed (history : List Sighting) (map : StaffMap) : Prop :=
  ∀ x y, (∃ d : Nat, map x y = d ∧ StandsAt history d x y) ∨
    map x y = -1 ∧ ∀ d, ¬ StandsAt history d x y

theorem standsAt_nil (d : Nat) (x y : Fin 100) : ¬ StandsAt [] d x y := by
  rintro ⟨before, after, h, -⟩
  simp at h

theorem standsAt_snoc {history : List Sighting} {m : Sighting} {d : Nat} {x y : Fin 100} :
    StandsAt (history ++ [m]) d x y ↔
      m = ⟨d, x, y⟩ ∨ StandsAt history d x y ∧ m.d ≠ d ∧ ¬ (m.x = x ∧ m.y = y) := by
  constructor
  · rintro ⟨before, after, h, hafter⟩
    rcases snoc_eq_append_cons.mp h with ⟨-, -, rfl⟩ | ⟨after, rfl, hh⟩
    · exact .inl rfl
    · exact .inr ⟨⟨before, after, hh, fun m' hm' => hafter m' (by simp [hm'])⟩,
        hafter m (by simp)⟩
  · rintro (rfl | ⟨⟨before, after, rfl, hafter⟩, hm⟩)
    · exact ⟨history, [], by simp, by simp⟩
    · exact ⟨before, after ++ [m], by simp, forall_mem_snoc hafter hm⟩

/-- A division has one last report. -/
theorem StandsAt.unique {history : List Sighting} {d : Nat} {x y x' y' : Fin 100}
    (h : StandsAt history d x y) (h' : StandsAt history d x' y') : x = x' ∧ y = y' := by
  induction history using List.reverseRecOn with
  | nil => exact (standsAt_nil d x y h).elim
  | append_singleton history m ih =>
      rcases standsAt_snoc.mp h with rfl | ⟨h, hm, -⟩ <;>
        rcases standsAt_snoc.mp h' with e' | ⟨h', hm', -⟩
      · simpa using e'
      · exact (hm' rfl).elim
      · exact (hm (congrArg Sighting.d e')).elim
      · exact ih h h'

theorem Placed.iff {history : List Sighting} {map : StaffMap} (h : Placed history map) (d : Nat)
    (x y : Fin 100) : map x y = d ↔ StandsAt history d x y := by
  rcases h x y with ⟨d', hd', hs⟩ | ⟨hd', hs⟩
  · constructor
    · intro e
      obtain rfl : d' = d := by omega
      exact hs
    · intro h'
      obtain ⟨before, after, e, hafter⟩ := hs
      by_contra hne
      have hdd : d' ≠ d := fun e => hne (e ▸ hd')
      -- of the reports of two divisions at one cell one is the later
      obtain ⟨before', after', e', hafter'⟩ := h'
      rw [e] at e'
      rcases List.append_eq_append_iff.mp e' with ⟨as, -, ha⟩ | ⟨as, -, ha⟩
      · cases as with
        | nil => exact hdd (congrArg Sighting.d (List.cons.inj ha).1)
        | cons m as =>
            refine (hafter ⟨d, x, y⟩ ?_).2 ⟨rfl, rfl⟩
            rw [(List.cons.inj ha).2]
            simp
      · cases as with
        | nil => exact hdd (congrArg Sighting.d (List.cons.inj ha).1).symm
        | cons m as =>
            refine (hafter' ⟨d', x, y⟩ ?_).2 ⟨rfl, rfl⟩
            rw [(List.cons.inj ha).2]
            simp
  · exact ⟨fun e => by omega, fun h' => (hs d h').elim⟩

theorem Placed.atMostOne {history : List Sighting} {map : StaffMap} (h : Placed history map)
    (d : Nat) : AtMostOne map d :=
  fun r c r' c' e e' => ((h.iff d r c).mp e).unique ((h.iff d r' c').mp e')

theorem Placed.snoc {history : List Sighting} {map : StaffMap} (h : Placed history map)
    (m : Sighting) : Placed (history ++ [m]) (moveTo map m) := by
  intro x y
  rw [moveTo_apply (h.atMostOne m.d)]
  by_cases hcell : x = m.x ∧ y = m.y
  · obtain ⟨rfl, rfl⟩ := hcell
    exact .inl ⟨m.d, by simp, standsAt_snoc.mpr (.inl rfl)⟩
  · rw [if_neg hcell]
    have hm : ∀ d : Nat, m ≠ ⟨d, x, y⟩ := by
      rintro d rfl
      exact hcell ⟨rfl, rfl⟩
    rcases h x y with ⟨d, hd, hs⟩ | ⟨hd, hs⟩
    · by_cases hdm : m.d = d
      · -- it has gone elsewhere, and nobody took the cell over
        refine .inr ⟨by simp [hd, hdm], fun d' h' => ?_⟩
        rcases standsAt_snoc.mp h' with e | ⟨h', hne, -⟩
        · exact hm d' e
        · have := (h.iff d' x y).mpr h'
          omega
      · refine .inl ⟨d, ?_, standsAt_snoc.mpr (.inr ⟨hs, hdm, fun e => hcell ⟨e.1.symm, e.2.symm⟩⟩)⟩
        rw [if_neg (by omega), hd]
    · refine .inr ⟨by rw [if_neg (by omega), hd], fun d' h' => ?_⟩
      rcases standsAt_snoc.mp h' with e | ⟨h', -⟩
      · exact hm d' e
      · exact hs d' h'

theorem placed_mapAfter (history : List Sighting) : Placed history (mapAfter history) := by
  induction history using List.reverseRecOn with
  | nil => exact fun x y => .inr ⟨rfl, fun d => standsAt_nil d x y⟩
  | append_singleton history m ih =>
      rw [mapAfter_snoc]
      exact ih.snoc m

/-- **The map.**  After any history of reports a cell holds the division whose last report named
it and that no later report of any division named, and -1 if there is none.  A division is on the
map once at most, and where its last report put it if nobody took the cell over. -/
theorem cell_law (history : List Sighting) :
    (∀ x y (d : Nat), mapAfter history x y = d ↔ StandsAt history d x y) ∧
      (∀ x y, mapAfter history x y = -1 ↔ ∀ d, ¬ StandsAt history d x y) ∧
      (∀ d, AtMostOne (mapAfter history) d) ∧
      ∀ before after m, history = before ++ m :: after → (∀ m' ∈ after, m'.d ≠ m.d) →
        (∀ m' ∈ after, ¬ (m'.x = m.x ∧ m'.y = m.y)) → mapAfter history m.x m.y = m.d := by
  have h := placed_mapAfter history
  refine ⟨fun x y d => h.iff d x y, fun x y => ⟨fun e d hs => ?_, fun hs => ?_⟩, h.atMostOne,
    fun before after m e hlast hcell => ?_⟩
  · have := (h.iff d x y).mpr hs
    omega
  · rcases h x y with ⟨d, -, hd⟩ | ⟨e, -⟩
    · exact (hs d hd).elim
    · exact e
  · exact (h.iff m.d m.x m.y).mpr ⟨before, after, e, fun m' hm' => ⟨hlast m' hm', hcell m' hm'⟩⟩

/-! ### An adjutant that is alone -/

variable {A : Type*}

/-- The rows from `r` on. -/
def rowsFrom (r : Fin 100) : List (Fin 100) := (List.finRange 100).drop r

theorem rowsFrom_cons (r : Fin 100) :
    rowsFrom r = r :: (match nextRow r with | some r' => rowsFrom r' | none => []) := by
  have hlen : r.val < (List.finRange 100).length := by simp
  have hget : (List.finRange 100)[r.val] = r := by simp
  unfold rowsFrom nextRow
  rw [List.drop_eq_getElem_cons hlen, hget]
  split
  · rename_i h
    split at h
    · cases h
      rfl
    · cases h
  · rename_i h
    split at h
    · cases h
    · rw [List.drop_of_length_le (by simp; omega)]

/-- The scan of the rows from `r` on, with no other adjutant in between. -/
theorem scan_alone {i : Worker} {d : Nat} {x y : Fin 100} (n : Nat) :
    ∀ (s : Staff A) (r : Fin 100), r.val + n = 99 → s.clerk i = .scanning d r x y →
      Reaches Staff.Step s
        { s with
          map := clearRows d (rowsFrom r) s.map
          clerk := Function.update s.clerk i (.placing d x y) } := by
  induction n with
  | zero =>
      intro s r hr hi
      have hstep := Staff.Step.scan i d r x y hi
      have hlast : nextRow r = none := dif_neg (by omega)
      have hafter : afterRow d r x y (clearRow d (s.map r)).2 = (.placing d x y : Clerk A) := by
        simp [afterRow, hlast]
      rw [rowsFrom_cons, hlast]
      simp only [clearRows, ite_self]
      rw [hafter] at hstep
      exact ⟨_, .one hstep⟩
  | succ n ih =>
      intro s r hr hi
      have hstep := Staff.Step.scan i d r x y hi
      have hlt : r.val + 1 < 100 := by omega
      have hnext : nextRow r = some ⟨r + 1, hlt⟩ := dif_pos hlt
      rw [rowsFrom_cons, hnext]
      simp only [clearRows]
      cases hfound : (clearRow d (s.map r)).2 with
      | true =>
          simp only [hfound, afterRow, if_true] at hstep
          exact ⟨_, .one hstep⟩
      | false =>
          simp only [hfound, afterRow, hnext, Bool.false_eq_true, if_false] at hstep
          obtain ⟨tr, hrun⟩ := ih
            { s with
              map := Function.update s.map r (clearRow d (s.map r)).1
              clerk := Function.update s.clerk i (.scanning d ⟨r + 1, hlt⟩ x y) }
            ⟨r + 1, hlt⟩ (by dsimp only; omega) (Function.update_self ..)
          simp only [Function.update_idem] at hrun
          exact ⟨_, .cons hstep hrun⟩

/-- **An adjutant that is alone.**  From its registered report on it takes the map to the one
after the report. -/
theorem alone_run {s : Staff A} {i : Worker} {m : Sighting}
    (h : s.clerk i = .scanning m.d 0 m.x m.y) :
    Reaches Staff.Step s
      { s with map := moveTo s.map m, clerk := Function.update s.clerk i .idle } := by
  obtain ⟨tr, r⟩ := scan_alone 99 s 0 rfl h
  have hrun := r.snoc (.place i m.d m.x m.y (Function.update_self ..))
  simp only [Function.update_idem] at hrun
  exact ⟨_, hrun⟩

/-- What the reports are to the map, if they are handled in this order; a report that finds the
register full is dropped. -/
def Registry.sightings (g : Registry A) : List (Report A) → List Sighting
  | [] => []
  | rep :: reps =>
      let (g, divIdx) := g.register rep
      match divIdx with
      | some d => ⟨d, rep.x, rep.y⟩ :: g.sightings reps
      | none => g.sightings reps

/-- An adjutant handles the reports one after another. -/
theorem sightings_run {i : Worker} (reps : List (Report A)) :
    ∀ s : Staff A, s.clerk i = .idle → ∃ g, Reaches Staff.Step s
      ⟨g, (s.registry.sightings reps).foldl moveTo s.map, s.clerk⟩ := by
  induction reps with
  | nil => exact fun s _ => ⟨s.registry, [], .refl s⟩
  | cons rep reps ih =>
      intro s hidle
      have hreport := Staff.Step.report i rep hidle
      have hregister := Staff.Step.register (s := { s with
        clerk := Function.update s.clerk i (.reported rep) }) i rep (Function.update_self ..)
      -- behind the report the adjutant is idle again
      have hback : Function.update s.clerk i .idle = s.clerk := by
        rw [← hidle, Function.update_eq_self]
      simp only [Function.update_idem] at hregister
      cases hd : (s.registry.register rep).2 with
      | none =>
          rw [hd] at hregister
          dsimp only at hregister
          rw [hback] at hregister
          obtain ⟨g, tr, r⟩ := ih ⟨(s.registry.register rep).1, s.map, s.clerk⟩ hidle
          simp only [Registry.sightings, hd]
          exact ⟨g, _, .cons hreport (.cons hregister r)⟩
      | some d =>
          rw [hd] at hregister
          obtain ⟨tr₁, r₁⟩ := alone_run (i := i) (m := ⟨d, rep.x, rep.y⟩) (s :=
            ⟨(s.registry.register rep).1, s.map,
              Function.update s.clerk i (.scanning d 0 rep.x rep.y)⟩) (Function.update_self ..)
          simp only [Function.update_idem, hback] at r₁
          obtain ⟨g, tr₂, r₂⟩ :=
            ih ⟨(s.registry.register rep).1, moveTo s.map ⟨d, rep.x, rep.y⟩, s.clerk⟩ hidle
          simp only [Registry.sightings, hd, List.foldl_cons]
          exact ⟨g, _, .cons hreport (.cons hregister (r₁.trans r₂))⟩

/-- **One after another.**  From the map of `main`, an adjutant that handles any reports alone
leaves the map after them. -/
theorem mapAfter_run (g : Registry A) (reps : List (Report A)) :
    ∃ g', Reaches Staff.Step (Staff.begin g)
      ⟨g', mapAfter ((Staff.begin g).registry.sightings reps), fun _ => .idle⟩ :=
  sightings_run reps (i := 0) (Staff.begin g) rfl

end Sop2.Napoleon
