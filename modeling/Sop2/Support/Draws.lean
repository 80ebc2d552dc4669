import Mathlib.Data.List.Perm.Basic

/-!
# Support — Draws

Drawing without replacement.

* `drawMany`: a number of draws, one after the other, with a stream of random numbers.
* `Drawer`: what is left after a draw is what was left before it, but for the card drawn.
* `Drawer.drawn`: then as many cards can be drawn as are left; and if they are all different, no
  card is drawn twice (`Drawn`).
-/

namespace Support

variable {S E α : Type*}

/-- The first `k` draws. -/
def drawMany (draw : S → Nat → Except E (α × S)) (rand : Nat → Nat) (s : S) :
    Nat → Except E (List α × S)
  | 0 => .ok ([], s)
  | k + 1 =>
      (drawMany draw rand s k).bind fun r =>
        (draw r.2 (rand k)).map fun d => (r.1 ++ [d.1], d.2)

/-- From any state with `I` a card can be drawn if one is left, and the others stay. -/
structure Drawer (draw : S → Nat → Except E (α × S)) (left : S → List α) (I : S → Prop) : Prop where
  step : ∀ {s}, I s → left s ≠ [] → ∀ rand,
    ∃ c t, draw s rand = .ok (c, t) ∧ I t ∧ (left s).Perm (c :: left t)

/-- Of `cards`, which are all different, `drawn` were drawn and `left` are left. -/
structure Drawn (cards drawn left : List α) : Prop where
  nodup : drawn.Nodup
  left_nodup : left.Nodup
  mem_left : ∀ c, c ∈ left ↔ c ∈ cards ∧ c ∉ drawn
  mem_drawn : ∀ c ∈ drawn, c ∈ cards
  all : drawn.length = cards.length → drawn.Perm cards

theorem Drawn.of_perm {cards drawn left : List α} (hcards : cards.Nodup)
    (h : cards.Perm (drawn ++ left)) : Drawn cards drawn left := by
  obtain ⟨hdrawn, hleft, hdisj⟩ := List.nodup_append.mp (h.nodup_iff.mp hcards)
  refine ⟨hdrawn, hleft, fun c => ?_, fun c hc => ?_, ?_⟩
  · rw [h.mem_iff, List.mem_append]
    constructor
    · exact fun hc => ⟨.inr hc, fun hc' => hdisj c hc' c hc rfl⟩
    · exact fun hc => hc.1.resolve_left hc.2
  · exact h.mem_iff.mpr (List.mem_append_left _ hc)
  · intro hlen
    have hsum := h.length_eq
    rw [List.length_append] at hsum
    obtain rfl : left = [] := List.length_eq_zero_iff.mp (by omega)
    rw [List.append_nil] at h
    exact h.symm

/-- As many cards can be drawn as are left. -/
theorem Drawer.perm {draw : S → Nat → Except E (α × S)} {left : S → List α} {I : S → Prop}
    (hd : Drawer draw left I) (rand : Nat → Nat) {s : S} (hs : I s) :
    ∀ k, k ≤ (left s).length → ∃ drawn t, drawMany draw rand s k = .ok (drawn, t) ∧ I t ∧
      drawn.length = k ∧ (left s).Perm (drawn ++ left t)
  | 0, _ => ⟨[], s, rfl, hs, rfl, .refl _⟩
  | k + 1, hk => by
      obtain ⟨drawn, t, hrun, ht, hlen, hperm⟩ := hd.perm rand hs k (Nat.le_of_succ_le hk)
      have hsum := hperm.length_eq
      rw [List.length_append] at hsum
      -- fewer were drawn than there were
      have hne : left t ≠ [] := by
        intro hnil
        rw [hnil, List.length_nil] at hsum
        omega
      obtain ⟨c, u, hdraw, hu, hstep⟩ := hd.step ht hne (rand k)
      refine ⟨drawn ++ [c], u, ?_, hu, by simp [hlen], ?_⟩
      · simp only [drawMany, hrun, Except.bind, hdraw, Except.map]
      · rw [List.append_assoc, List.singleton_append]
        exact hperm.trans (hstep.append_left drawn)

/-- **Drawing without replacement.**  As many cards can be drawn as are left, and if these are all
different, none is drawn twice. -/
theorem Drawer.drawn {draw : S → Nat → Except E (α × S)} {left : S → List α} {I : S → Prop}
    (hd : Drawer draw left I) (rand : Nat → Nat) {s : S} (hs : I s) (hnodup : (left s).Nodup)
    {k : Nat} (hk : k ≤ (left s).length) :
    ∃ drawn t, drawMany draw rand s k = .ok (drawn, t) ∧ I t ∧ drawn.length = k ∧
      (left t).length = (left s).length - k ∧ Drawn (left s) drawn (left t) := by
  obtain ⟨drawn, t, hrun, ht, hlen, hperm⟩ := hd.perm rand hs k hk
  have hsum := hperm.length_eq
  rw [List.length_append] at hsum
  exact ⟨drawn, t, hrun, ht, hlen, by omega, .of_perm hnodup hperm⟩

end Support
