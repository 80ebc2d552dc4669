import Mathlib.Data.List.Forall2
import Mathlib.Data.List.Perm.Basic
import Mathlib.Data.List.Nodup

/-!
# Support — SlotTable

A table of a fixed number of slots, as a list in which one value marks the slots that are free.
A slot is given up by `replace a free`, which writes over the first `a`, and taken by
`replace free a`.

* `occupied free l`: what the table holds.
* `occupied_release`, `occupied_take`: what giving up and taking a slot do to it.
* `free_mem_iff`: there is a free slot exactly when fewer values are held than there are slots.
* `setFirst`: the same for slots that are records, found by a test of one of their fields
  (`map_setFirst`).
* `forall₂_find?`, `forall₂_changeFirst`: two tables whose slots agree stay so, when the same is
  done to both.
-/

namespace Support

variable {α : Type*} [DecidableEq α]

/-- The values in the slots that are not free. -/
def occupied (free : α) (l : List α) : List α := l.filter (· ≠ free)

variable {free : α} {l : List α} {a : α}

theorem occupied_cons (b : α) (l : List α) :
    occupied free (b :: l) = if b = free then occupied free l else b :: occupied free l := by
  by_cases h : b = free <;> simp [occupied, h]

@[simp] theorem mem_occupied : a ∈ occupied free l ↔ a ∈ l ∧ a ≠ free := by
  simp [occupied]

theorem free_mem_iff : free ∈ l ↔ (occupied free l).length < l.length := by
  rw [occupied, List.length_filter_lt_length_iff_exists]
  simp

theorem getD_mem_occupied {k : Nat} (h : l.getD k free ≠ free) :
    l.getD k free ∈ occupied free l := by
  refine mem_occupied.mpr ⟨?_, h⟩
  rcases Nat.lt_or_ge k l.length with hk | hk
  · rw [← List.getElem_eq_getD (h := hk)]
    exact List.getElem_mem hk
  · rw [List.getD_eq_getElem?_getD, List.getElem?_eq_none hk] at h
    exact absurd rfl h

theorem replace_cons_ne {b c : α} (h : b ≠ a) (l : List α) :
    (b :: l).replace a c = b :: l.replace a c := by
  have hab : (a == b) = false := by simpa using Ne.symm h
  rw [List.replace_cons, hab]

/-- Giving up the slot of `a`. -/
theorem occupied_release (ha : a ≠ free) :
    occupied free (l.replace a free) = (occupied free l).erase a := by
  induction l with
  | nil => rfl
  | cons b l ih =>
      by_cases hb : b = a
      · subst hb
        rw [List.replace_cons_self, occupied_cons, occupied_cons, if_pos rfl, if_neg ha,
          List.erase_cons_head]
      · rw [replace_cons_ne hb, occupied_cons, occupied_cons, ih]
        split
        · rfl
        · rw [List.erase_cons_tail (by simpa using hb)]

/-- Taking a free slot for `a`. -/
theorem occupied_take (ha : a ≠ free) (hf : free ∈ l) :
    (occupied free (l.replace free a)).Perm (a :: occupied free l) := by
  induction l with
  | nil => cases hf
  | cons b l ih =>
      by_cases hb : b = free
      · subst hb
        rw [List.replace_cons_self, occupied_cons, occupied_cons, if_neg ha, if_pos rfl]
      · have hl : free ∈ l := (List.mem_cons.mp hf).resolve_left (Ne.symm hb)
        rw [replace_cons_ne hb, occupied_cons, occupied_cons, if_neg hb, if_neg hb]
        exact ((ih hl).cons b).trans (.swap ..)

theorem replace_self (a : α) (l : List α) : l.replace a a = l := by
  induction l with
  | nil => rfl
  | cons b l ih =>
      by_cases hb : b = a
      · rw [hb, List.replace_cons_self]
      · rw [replace_cons_ne hb, ih]

/-- Giving up the slot of a value that has none, or the mark itself. -/
theorem occupied_release_none (ha : a ∉ occupied free l) :
    occupied free (l.replace a free) = occupied free l := by
  by_cases h : a = free
  · rw [h, replace_self]
  · rw [List.replace_of_not_mem fun hm => ha (mem_occupied.mpr ⟨hm, h⟩)]

theorem nodup_release (hn : (occupied free l).Nodup) :
    (occupied free (l.replace a free)).Nodup := by
  by_cases ha : a ∈ occupied free l
  · rw [occupied_release (mem_occupied.mp ha).2]
    exact hn.erase a
  · rwa [occupied_release_none ha]

theorem mem_release (hn : (occupied free l).Nodup) {x : α} :
    x ∈ occupied free (l.replace a free) ↔ x ≠ a ∧ x ∈ occupied free l := by
  by_cases ha : a ∈ occupied free l
  · rw [occupied_release (mem_occupied.mp ha).2, hn.mem_erase_iff]
  · rw [occupied_release_none ha]
    exact ⟨fun hx => ⟨fun e => ha (e ▸ hx), hx⟩, And.right⟩

/-! ### Slots that are records -/

variable {β : Type*}

/-- The table with `b` written over the first slot that passes the test, if there is one. -/
def setFirst (p : β → Bool) (b : β) : List β → List β
  | [] => []
  | x :: xs => if p x then b :: xs else x :: setFirst p b xs

theorem setFirst_of_none {p : β → Bool} {b : β} {xs : List β} (h : ∀ x ∈ xs, p x = false) :
    setFirst p b xs = xs := by
  induction xs with
  | nil => rfl
  | cons x xs ih =>
      obtain ⟨hx, hxs⟩ := List.forall_mem_cons.mp h
      rw [setFirst, hx, ih hxs]
      rfl

/-- One slot is written, the first of those that pass the test. -/
theorem setFirst_of_mem {p : β → Bool} {xs : List β} (h : ∃ x ∈ xs, p x = true) (b : β) :
    ∃ pre x post, xs = pre ++ x :: post ∧ p x = true ∧ (∀ y ∈ pre, p y = false) ∧
      setFirst p b xs = pre ++ b :: post := by
  induction xs with
  | nil => simp at h
  | cons x xs ih =>
      cases hx : p x with
      | true => exact ⟨[], x, xs, rfl, hx, by simp, by simp [setFirst, hx]⟩
      | false =>
          have h' : ∃ y ∈ xs, p y = true := by simpa [hx] using h
          obtain ⟨pre, y, post, rfl, hy, hpre, he⟩ := ih h'
          refine ⟨x :: pre, y, post, rfl, hy, List.forall_mem_cons.mpr ⟨hx, hpre⟩, ?_⟩
          simp [setFirst, hx, he]

theorem mem_setFirst {p : β → Bool} {b x : β} {xs : List β} (h : x ∈ setFirst p b xs) :
    x = b ∨ x ∈ xs := by
  by_cases hp : ∃ y ∈ xs, p y = true
  · obtain ⟨pre, y, post, hxs, -, -, he⟩ := setFirst_of_mem hp b
    rw [he] at h
    rw [hxs]
    rcases List.mem_append.mp h with h | h
    · exact .inr (List.mem_append_left _ h)
    · rcases List.mem_cons.mp h with h | h
      · exact .inl h
      · exact .inr (List.mem_append_right _ (List.mem_cons_of_mem _ h))
  · rw [setFirst_of_none fun y hy => by simpa using fun e => hp ⟨y, hy, e⟩] at h
    exact .inr h

/-- Seen through the field `key`, the first slot whose field is `a` is replaced. -/
theorem map_setFirst (key : β → α) (a : α) (b : β) (xs : List β) :
    (setFirst (fun x => key x = a) b xs).map key = (xs.map key).replace a (key b) := by
  induction xs with
  | nil => rfl
  | cons x xs ih =>
      by_cases hx : key x = a
      · simp [setFirst, hx]
      · rw [List.map_cons, replace_cons_ne hx, ← ih]
        simp [setFirst, hx]

/-- What is counted of the slots, when one is written. -/
theorem countP_setFirst {p : β → Bool} {xs : List β} (q : β → Bool) {pre post : List β} {x : β}
    (b : β) (hxs : xs = pre ++ x :: post) (he : setFirst p b xs = pre ++ b :: post) :
    (setFirst p b xs).countP q + (if q x then 1 else 0) =
      xs.countP q + if q b then 1 else 0 := by
  rw [he, hxs, List.countP_append, List.countP_append, List.countP_cons, List.countP_cons]
  omega

/-! ### Two tables, slot by slot -/

/-- The table with its first slot that passes the test changed, if there is one. -/
def changeFirst (p : β → Bool) (f : β → β) : List β → List β
  | [] => []
  | x :: xs => if p x then f x :: xs else x :: changeFirst p f xs

theorem setFirst_eq_changeFirst (p : β → Bool) (b : β) (xs : List β) :
    setFirst p b xs = changeFirst p (fun _ => b) xs := by
  induction xs with
  | nil => rfl
  | cons x xs ih => rw [setFirst, changeFirst, ih]

/-- To write over the slot that was found is to change it. -/
theorem changeFirst_of_find? {p : β → Bool} {xs : List β} {x : β} (h : xs.find? p = some x)
    (f : β → β) : setFirst p (f x) xs = changeFirst p f xs := by
  induction xs with
  | nil => cases h
  | cons y ys ih =>
      rw [List.find?_cons] at h
      rw [setFirst, changeFirst]
      cases hy : p y with
      | true => rw [hy] at h; cases h; rfl
      | false => rw [hy] at h; rw [ih h]; rfl

theorem changeFirst_of_find?_none {p : β → Bool} {xs : List β} (h : xs.find? p = none) (f : β → β) :
    changeFirst p f xs = xs := by
  induction xs with
  | nil => rfl
  | cons y ys ih =>
      rw [List.find?_cons] at h
      rw [changeFirst]
      cases hy : p y with
      | true => rw [hy] at h; cases h
      | false => rw [hy] at h; rw [ih h]; rfl

variable {γ : Type*} {R : β → γ → Prop} {p : β → Bool} {q : γ → Bool} {xs : List β} {ys : List γ}

/-- Two tables whose slots agree find slots that agree. -/
theorem forall₂_find? (h : List.Forall₂ R xs ys) (hpq : ∀ {x y}, R x y → p x = q y) :
    (xs.find? p = none ∧ ys.find? q = none) ∨
      ∃ x y, xs.find? p = some x ∧ ys.find? q = some y ∧ R x y := by
  induction h with
  | nil => exact .inl ⟨rfl, rfl⟩
  | @cons x y xs ys hxy _ ih =>
      rw [List.find?_cons, List.find?_cons, ← hpq hxy]
      cases p x with
      | true => exact .inr ⟨x, y, rfl, rfl, hxy⟩
      | false => exact ih

/-- And agree when the slots found are changed so that they do. -/
theorem forall₂_changeFirst (h : List.Forall₂ R xs ys) (hpq : ∀ {x y}, R x y → p x = q y)
    {f : β → β} {g : γ → γ} (hfg : ∀ {x y}, R x y → p x = true → R (f x) (g y)) :
    List.Forall₂ R (changeFirst p f xs) (changeFirst q g ys) := by
  induction h with
  | nil => exact .nil
  | @cons x y xs ys hxy hrest ih =>
      rw [changeFirst, changeFirst, ← hpq hxy]
      cases hx : p x with
      | true => exact .cons (hfg hxy hx) hrest
      | false => exact .cons hxy ih

end Support
