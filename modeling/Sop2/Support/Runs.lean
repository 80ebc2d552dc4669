import Mathlib.Algebra.GroupWithZero.Nat
import Mathlib.Data.List.Induction
import Mathlib.Logic.Relation

/-!
# Support — Runs

Labelled steps, finite runs of them, and the rule by which an invariant of one step becomes an
invariant of every run.

* `Run step s tr t`: a finite run from `s` to `t`; its trace `tr` lists the moves in order, each
  with the state before it, its label and the state after it.
* `Run.invariant`: what holds at the start and is preserved by a step holds at the end.
* `Run.invariant_at`: the same at every state the run passes through, when only the steps that
  satisfy a side condition preserve the invariant and the run takes no others.
* `Run.law`, `Run.law_moves`: when the steps that satisfy the side condition are the only ones
  that preserve it.
* `Run.count_le`, `Run.length_le`: a run is not longer than what its steps can use up.
* `Run.part`: what a part of a system does while the whole runs.
-/

namespace Support

variable {S : Type*} {L : Type*}

/-- One step of a run: the state before it, its label and the state after it. -/
structure Move (S L : Type*) where
  before : S
  label : L
  after : S

/-- A finite run of `step`, with its moves in order. -/
inductive Run (step : S → L → S → Prop) : S → List (Move S L) → S → Prop where
  | refl (s : S) : Run step s [] s
  | snoc {s t u : S} {tr : List (Move S L)} {l : L} (r : Run step s tr t) (h : step t l u) :
      Run step s (tr ++ [⟨t, l, u⟩]) u

/-- `t` is reached from `s` by some run. -/
def Reaches (step : S → L → S → Prop) (s t : S) : Prop := ∃ tr, Run step s tr t

/-- What holds of the members of a list, and of one more. -/
theorem forall_mem_snoc {α : Type*} {P : α → Prop} {xs : List α} {x : α} (h : ∀ y ∈ xs, P y)
    (hx : P x) : ∀ y ∈ xs ++ [x], P y :=
  List.forall_mem_append.mpr ⟨h, List.forall_mem_singleton.mpr hx⟩

/-- A list with one more element, split at one of its elements: at the last, or before it. -/
theorem snoc_eq_append_cons {α : Type*} {xs before after : List α} {x y : α} :
    xs ++ [x] = before ++ y :: after ↔
      (after = [] ∧ xs = before ∧ x = y) ∨
        ∃ after', after = after' ++ [x] ∧ xs = before ++ y :: after' := by
  constructor
  · intro h
    rcases List.eq_nil_or_concat after with rfl | ⟨after, z, rfl⟩
    · obtain ⟨rfl, hx⟩ := List.append_inj' h rfl
      exact .inl ⟨rfl, rfl, List.singleton_inj.mp hx⟩
    · rw [List.concat_eq_append, ← List.cons_append, ← List.append_assoc] at h
      obtain ⟨rfl, hx⟩ := List.append_inj' h rfl
      obtain rfl := List.singleton_inj.mp hx
      exact .inr ⟨after, List.concat_eq_append, rfl⟩
  · rintro (⟨rfl, rfl, rfl⟩ | ⟨after', rfl, rfl⟩)
    · rfl
    · simp

namespace Run

variable {step : S → L → S → Prop}

theorem one {s t : S} {l : L} (h : step s l t) : Run step s [⟨s, l, t⟩] t := .snoc (.refl s) h

theorem trans {s t u : S} {tr tr' : List (Move S L)} (r₁ : Run step s tr t)
    (r₂ : Run step t tr' u) : Run step s (tr ++ tr') u := by
  induction r₂ with
  | refl => simpa using r₁
  | snoc _ h ih => rw [← List.append_assoc]; exact .snoc ih h

theorem cons {s t u : S} {l : L} {tr : List (Move S L)} (h : step s l t) (r : Run step t tr u) :
    Run step s (⟨s, l, t⟩ :: tr) u :=
  (one h).trans r

/-- **The invariant rule.**  What holds at the start of a run and is preserved by every step
holds at its end. -/
theorem invariant {I : S → Prop} (pres : ∀ {s l t}, I s → step s l t → I t) {s t : S}
    {tr : List (Move S L)} (r : Run step s tr t) (hs : I s) : I t := by
  induction r with
  | refl => exact hs
  | snoc _ h ih => exact pres ih h

/-- **The invariant rule under a side condition.**  If every step that satisfies `C` preserves
`I`, and every move of the run satisfies `C`, then `I` holds at the end of the run and before
and after each of its moves. -/
theorem invariant_at {I : S → Prop} {C : S → L → S → Prop}
    (pres : ∀ {s l t}, I s → step s l t → C s l t → I t) {s t : S} {tr : List (Move S L)}
    (r : Run step s tr t) (hs : I s) (hC : ∀ m ∈ tr, C m.before m.label m.after) :
    I t ∧ ∀ m ∈ tr, I m.before ∧ I m.after := by
  induction r with
  | refl => exact ⟨hs, by simp⟩
  | @snoc t u tr l r h ih =>
      obtain ⟨ht, hm⟩ := ih fun m m_in => hC m (List.mem_append_left _ m_in)
      have hu : I u := pres ht h (hC ⟨t, l, u⟩ (by simp))
      exact ⟨hu, forall_mem_snoc hm ⟨ht, hu⟩⟩

/-- **The exact condition, of moves.**  `J` is what the steps that satisfy `C` keep.  If, from `J`,
the steps that satisfy `C` are those that satisfy `P`, then all moves of a run satisfy the one
exactly when they all satisfy the other. -/
theorem law_moves {J : S → Prop} {P C : S → L → S → Prop}
    (pres : ∀ {s l t}, J s → step s l t → C s l t → J t)
    (post : ∀ {s l t}, J s → step s l t → C s l t → P s l t)
    (only : ∀ {s l t}, J s → step s l t → P s l t → C s l t) {s t : S} {tr : List (Move S L)}
    (r : Run step s tr t) (hs : J s) :
    (∀ m ∈ tr, P m.before m.label m.after) ↔ ∀ m ∈ tr, C m.before m.label m.after := by
  induction r with
  | refl => simp
  | @snoc t u tr l r h ih =>
      simp only [List.forall_mem_append, List.forall_mem_singleton, ih]
      refine and_congr_right fun hC => ?_
      have ht : J t := (r.invariant_at (C := C) pres hs hC).1
      exact ⟨only ht h, post ht h⟩

/-- **The exact condition.**  `J` is what the steps that satisfy `C` keep, and it implies `P`.
If a step from `J` to a state with `P` satisfies `C`, then a run has `P` after each of its moves
exactly when all of them satisfy `C`. -/
theorem law {J P : S → Prop} {C : S → L → S → Prop}
    (pres : ∀ {s l t}, J s → step s l t → C s l t → J t) (post : ∀ {s}, J s → P s)
    (only : ∀ {s l t}, J s → step s l t → P t → C s l t) {s t : S} {tr : List (Move S L)}
    (r : Run step s tr t) (hs : J s) :
    (∀ m ∈ tr, P m.after) ↔ ∀ m ∈ tr, C m.before m.label m.after :=
  r.law_moves (J := J) (P := fun _ _ t => P t) (C := C) pres
    (fun h hstep hC => post (pres h hstep hC)) only hs

/-- **The rule for the number of moves of a kind.**  If every step that satisfies `C`, from `J`, keeps
`J` and uses up something of `Φ` when it is of the kind, and never adds to it, then a run of such steps
has no more moves of the kind than there is of it. -/
theorem count_le {J : S → Prop} {C : S → L → S → Prop} {Φ : S → ℕ} (kind : L → Bool)
    (pres : ∀ {s l t}, J s → step s l t → C s l t → J t)
    (drop : ∀ {s l t}, J s → step s l t → C s l t → (if kind l then 1 else 0) + Φ t ≤ Φ s) {s t : S}
    {tr : List (Move S L)} (r : Run step s tr t) (hs : J s)
    (hC : ∀ m ∈ tr, C m.before m.label m.after) :
    (tr.filter fun m => kind m.label).length + Φ t ≤ Φ s := by
  induction r with
  | refl => simp
  | @snoc t u tr l r h ih =>
      have hbefore : ∀ m ∈ tr, C m.before m.label m.after := fun m m_in =>
        hC m (List.mem_append_left _ m_in)
      have ht : J t := (r.invariant_at (C := C) pres hs hbefore).1
      have ih := ih hbefore
      have hdrop := drop ht h (hC ⟨t, l, u⟩ (List.mem_append_right _ (List.mem_singleton_self _)))
      have hone : ([⟨t, l, u⟩].filter fun m : Move S L => kind m.label).length =
          if kind l then 1 else 0 := by
        rw [List.filter_cons]
        cases kind l <;> rfl
      rw [List.filter_append, List.length_append, hone]
      omega

/-- **The rule for the length of a run.**  If every step from `J` keeps `J` and uses up something of
`Φ`, then a run from `J` has no more moves than there is of it. -/
theorem length_le {J : S → Prop} {Φ : S → ℕ} (pres : ∀ {s l t}, J s → step s l t → J t)
    (drop : ∀ {s l t}, J s → step s l t → Φ t < Φ s) {s t : S} {tr : List (Move S L)}
    (r : Run step s tr t) (hs : J s) : tr.length + Φ t ≤ Φ s := by
  have hcount := r.count_le (J := J) (C := fun _ _ _ => True) (Φ := Φ) (fun _ => true)
    (fun hs h _ => pres hs h) (fun hs h _ => by rw [if_pos rfl, Nat.add_comm]; exact drop hs h) hs
    fun _ _ => trivial
  rwa [List.filter_eq_self.mpr fun _ _ => rfl] at hcount

/-- The trace tells where the run ends. -/
theorem end_eq {s t : S} {tr : List (Move S L)} (r : Run step s tr t) :
    t = (tr.getLast?.map Move.after).getD s := by
  cases r with
  | refl => rfl
  | snoc r h => simp

/-- Two runs with one trace end in one state. -/
theorem unique {s t u : S} {tr : List (Move S L)} (r : Run step s tr t) (r' : Run step s tr u) :
    t = u :=
  r.end_eq.trans r'.end_eq.symm

/-- The last move of a run. -/
theorem snoc_inv {s t : S} {tr : List (Move S L)} {m : Move S L} (r : Run step s (tr ++ [m]) t) :
    Run step s tr m.before ∧ step m.before m.label m.after ∧ t = m.after := by
  generalize he : tr ++ [m] = tr' at r
  cases r with
  | refl => simp at he
  | snoc r h =>
      obtain ⟨rfl, hm⟩ := List.append_inj' he rfl
      obtain rfl := List.singleton_inj.mp hm
      exact ⟨r, h, rfl⟩

/-- A run splits where its trace does. -/
theorem append_inv {s t : S} {tr tr' : List (Move S L)} (r : Run step s (tr ++ tr') t) :
    ∃ u, Run step s tr u ∧ Run step u tr' t := by
  induction tr' using List.reverseRecOn generalizing t with
  | nil => exact ⟨t, by simpa using r, .refl t⟩
  | append_singleton tr' m ih =>
      rw [← List.append_assoc] at r
      obtain ⟨r', h, rfl⟩ := r.snoc_inv
      obtain ⟨u, r₁, r₂⟩ := ih r'
      exact ⟨u, r₁, r₂.snoc h⟩

/-- A run, at one of its moves. -/
theorem cut {s t : S} {before after : List (Move S L)} {m : Move S L}
    (r : Run step s (before ++ m :: after) t) :
    Run step s before m.before ∧ step m.before m.label m.after ∧ Run step m.after after t := by
  rw [List.append_cons] at r
  obtain ⟨u, r₁, r₂⟩ := r.append_inv
  obtain ⟨r₀, h, rfl⟩ := r₁.snoc_inv
  exact ⟨r₀, h, r₂⟩

/-- Every move of a run is a step. -/
theorem step_of_mem {s t : S} {tr : List (Move S L)} (r : Run step s tr t) :
    ∀ m ∈ tr, step m.before m.label m.after := by
  induction r with
  | refl => simp
  | snoc _ h ih => exact forall_mem_snoc ih h

/-- A run splits at each of its moves. -/
theorem split_at {s t : S} {tr : List (Move S L)} (r : Run step s tr t) {m : Move S L}
    (m_in : m ∈ tr) : Reaches step s m.before ∧ Reaches step m.after t := by
  induction r with
  | refl => simp at m_in
  | @snoc t u tr l r h ih =>
      rcases List.mem_append.mp m_in with m_in | m_in
      · obtain ⟨h₁, tr₂, r₂⟩ := ih m_in
        exact ⟨h₁, _, r₂.snoc h⟩
      · obtain rfl := List.mem_singleton.mp m_in
        exact ⟨⟨tr, r⟩, _, .refl u⟩

/-- The runs of one system are runs of another along a map of its states and labels. -/
theorem map {S' L' : Type*} {step' : S' → L' → S' → Prop} (f : S → S') (g : L → L')
    (sim : ∀ {s l t}, step s l t → step' (f s) (g l) (f t)) {s t : S} {tr : List (Move S L)}
    (r : Run step s tr t) :
    Run step' (f s) (tr.map fun m => ⟨f m.before, g m.label, f m.after⟩) (f t) := by
  induction r with
  | refl => exact .refl _
  | snoc _ h ih => rw [List.map_append]; exact .snoc ih (sim h)

end Run

/-! ### A part of a system -/

section
variable {S' L' : Type*} {step : S → L → S → Prop} {step' : S' → L' → S' → Prop} {f : S → S'}
  {g : L → Option L'}

/-- What a move is for a part of the system. -/
def Move.part (f : S → S') (g : L → Option L') (m : Move S L) : Option (Move S' L') :=
  (g m.label).map fun l => ⟨f m.before, l, f m.after⟩

/-- **The runs of a part.**  If each step of the system is one of the part's, or leaves the part as
it is, then what the part does in a run is a run. -/
theorem Run.part
    (sim : ∀ {s l t}, step s l t →
      g l = none ∧ f t = f s ∨ ∃ l', g l = some l' ∧ step' (f s) l' (f t))
    {s t : S} {tr : List (Move S L)} (r : Run step s tr t) :
    Run step' (f s) (tr.filterMap (Move.part f g)) (f t) := by
  induction r with
  | refl => exact .refl _
  | @snoc t u tr l r h ih =>
      rw [List.filterMap_append]
      rcases sim h with ⟨hnone, heq⟩ | ⟨l', hsome, h'⟩
      · have hpart : Move.part f g ⟨t, l, u⟩ = none := by rw [Move.part, hnone]; rfl
        rw [List.filterMap_cons_none hpart, List.filterMap_nil, List.append_nil, heq]
        exact ih
      · have hpart : Move.part f g ⟨t, l, u⟩ = some ⟨f t, l', f u⟩ := by rw [Move.part, hsome]; rfl
        rw [List.filterMap_cons_some hpart, List.filterMap_nil]
        exact ih.snoc h'

end

/-! ### Processes by number

A process, a place or a resource of a fixed number of them is a member of `Fin n`.  What membership
tests on lists of them and the numerals that name them need is stated once. -/

instance lawfulBEq_fin (n : Nat) : LawfulBEq (Fin n) := inferInstance

instance neZero_one : NeZero (1 : Nat) := ⟨by decide⟩

instance neZero_two : NeZero (2 : Nat) := ⟨by decide⟩

end Support
