import Mathlib.Order.MinMax
import Mathlib.Algebra.BigOperators.Ring.Finset
import Mathlib.Data.List.FinRange
import Sop2.Support.Tally

/-!
# Support — The highest

The highest of some values, and how often it occurs, found in one pass; and what is dealt out when
those who have it share a number of points.
-/

namespace Support

variable {α β : Type*} [LinearOrder β]

/-- One more value, after the highest so far and its number. -/
def challenge (best : β × ℕ) (c : β) : β × ℕ :=
  if best.1 < c then (c, 1) else if c = best.1 then (best.1, best.2 + 1) else best

/-- `best` is the highest of `cs`, or `low` if there is none, and how often it occurs. -/
structure Highest (low : β) (cs : List β) (best : β × ℕ) : Prop where
  upper : ∀ c ∈ cs, c ≤ best.1
  count : best.2 = cs.count best.1
  mem : best.1 ∈ cs ∨ cs = [] ∧ best.1 = low

theorem highest_nil (low : β) : Highest low [] (low, 0) := ⟨nofun, rfl, .inr ⟨rfl, rfl⟩⟩

theorem Highest.snoc {low : β} {cs : List β} {best : β × ℕ} (h : Highest low cs best) {c : β}
    (hc : low < c) : Highest low (cs ++ [c]) (challenge best c) := by
  obtain ⟨upper, count, mem⟩ := h
  unfold challenge
  split_ifs with hlt heq
  · refine ⟨fun d hd => ?_, ?_, .inl (by simp)⟩
    · rcases List.mem_append.mp hd with hd | hd
      · exact (upper d hd).trans hlt.le
      · exact (List.mem_singleton.mp hd).le
    · have hnone : cs.count c = 0 :=
        List.count_eq_zero.mpr fun hd => absurd (upper c hd) (not_le.mpr hlt)
      simp [hnone]
  · subst heq
    refine ⟨fun d hd => ?_, by simp [count], .inl (by simp)⟩
    rcases List.mem_append.mp hd with hd | hd
    · exact upper d hd
    · exact (List.mem_singleton.mp hd).le
  · have hgt : c < best.1 := lt_of_le_of_ne (not_lt.mp hlt) heq
    refine ⟨fun d hd => ?_, by simp [count, heq], .inl ?_⟩
    · rcases List.mem_append.mp hd with hd | hd
      · exact upper d hd
      · exact (List.mem_singleton.mp hd).le.trans hgt.le
    · rcases mem with mem | ⟨-, hlow⟩
      · simp [mem]
      · exact absurd (hlow ▸ hgt) (not_lt.mpr hc.le)

theorem Highest.pos {low : β} {cs : List β} {best : β × ℕ} (h : Highest low cs best) (hcs : cs ≠ []) :
    best.1 ∈ cs ∧ 0 < best.2 := by
  have hmem := h.mem.resolve_right fun h => hcs h.1
  exact ⟨hmem, h.count ▸ List.count_pos_iff.mpr hmem⟩

/-! ### Those who take part -/

variable {n : ℕ} (here : Fin n → Bool) (value : Fin n → β)

/-- The values of those that take part, of a list of them. -/
def valuesOf (l : List (Fin n)) : List β := (l.filter here).map value

omit [LinearOrder β] in
theorem valuesOf_snoc (l : List (Fin n)) (i : Fin n) :
    valuesOf here value (l ++ [i]) =
      valuesOf here value l ++ if here i = true then [value i] else [] := by
  rw [valuesOf, List.filter_append, List.map_append]
  cases h : here i <;> simp [valuesOf, h]

/-- Whether `i` has the value `v`, and takes part. -/
def hasValue (v : β) (i : Fin n) : Bool := here i && decide (value i = v)

/-- Counted in one pass. -/
theorem tally_finRange (test : Fin n → Bool) :
    tally id test = ((List.finRange n).filter test).length := by
  have huniv : (Finset.univ.filter fun i => id (test i) = true) =
      ((List.finRange n).filter test).toFinset := by
    ext i
    simp
  rw [tally, huniv, List.toFinset_card_of_nodup ((List.nodup_finRange n).filter test)]

theorem count_valuesOf (v : β) :
    (valuesOf here value (List.finRange n)).count v = tally id (hasValue here value v) := by
  rw [tally_finRange, valuesOf, List.count, List.countP_map, List.countP_filter,
    List.countP_eq_length_filter]
  congr 1
  refine List.filter_congr fun i _ => ?_
  rw [hasValue, Bool.and_comm]
  rfl

omit [LinearOrder β] in
theorem mem_valuesOf {v : β} {l : List (Fin n)} :
    v ∈ valuesOf here value l ↔ ∃ i ∈ l, here i = true ∧ value i = v := by
  simp [valuesOf, and_assoc]

variable {here value}

/-- **The highest of all that take part.** -/
theorem Highest.spec {low : β} {best : β × ℕ}
    (h : Highest low (valuesOf here value (List.finRange n)) best) :
    (∀ i, here i = true → value i ≤ best.1) ∧ best.2 = tally id (hasValue here value best.1) ∧
      ((∃ i, here i = true) → (∃ i, here i = true ∧ value i = best.1) ∧ 0 < best.2) := by
  refine ⟨fun i hi => h.upper _ ?_, h.count.trans (count_valuesOf ..), fun ⟨i, hi⟩ => ?_⟩
  · exact (mem_valuesOf ..).mpr ⟨i, List.mem_finRange i, hi, rfl⟩
  · have hmem := (mem_valuesOf here value).mpr ⟨i, List.mem_finRange i, hi, rfl⟩
    obtain ⟨hbest, hpos⟩ := h.pos (List.ne_nil_of_mem hmem)
    obtain ⟨j, -, hj⟩ := (mem_valuesOf ..).mp hbest
    exact ⟨⟨j, hj⟩, hpos⟩

/-- **Those who win share the points.** -/
theorem sum_share_le (wins : Fin n → Bool) (points : ℕ) :
    ∑ i, (if wins i then points / tally id wins else 0) ≤ points := by
  calc ∑ i, (if wins i then points / tally id wins else 0)
      = tally id wins * (points / tally id wins) := by
        rw [← Finset.sum_filter, Finset.sum_const_nat fun _ _ => rfl]
        rfl
    _ ≤ points := Nat.mul_div_le ..

/-! ### Those who have a value -/

/-- Whether `i` has a value, and there is no higher one. -/
def winner (value : Fin n → Option β) (i : Fin n) : Bool :=
  (value i).any fun c => decide (∀ j, (value j).all (fun d => decide (d ≤ c)) = true)

/-- What `i` gets of the points. -/
def portion (value : Fin n → Option β) (points : ℕ) (i : Fin n) : ℕ :=
  if winner value i then points / tally id (winner value) else 0

variable {value : Fin n → Option β} {i : Fin n}

theorem winner_iff : winner value i = true ↔
    ∃ c, value i = some c ∧ ∀ j d, value j = some d → d ≤ c := by
  simp [winner, Option.any_eq_true, Option.all_eq_true]

/-- Those who have the highest value. -/
theorem winner_eq {best : β} (hupper : ∀ j d, value j = some d → d ≤ best)
    (hmem : ∃ j, value j = some best) : winner value i = decide (value i = some best) := by
  rw [Bool.eq_iff_iff, winner_iff, decide_eq_true_iff]
  constructor
  · rintro ⟨c, hc, hle⟩
    obtain ⟨j, hj⟩ := hmem
    rw [hc, le_antisymm (hupper i c hc) (hle j _ hj)]
  · exact fun hi => ⟨best, hi, hupper⟩

theorem portion_eq {best : β} (points : ℕ) (hupper : ∀ j d, value j = some d → d ≤ best)
    (hmem : ∃ j, value j = some best) : portion value points i =
      if value i = some best then
        points / tally id fun j => decide (value j = some best) else 0 := by
  have hwinner : winner value = fun j => decide (value j = some best) :=
    funext fun j => winner_eq hupper hmem
  rw [portion, hwinner]
  exact if_congr decide_eq_true_iff rfl rfl

theorem sum_portion_le (value : Fin n → Option β) (points : ℕ) :
    ∑ i, portion value points i ≤ points := sum_share_le (winner value) points

end Support
