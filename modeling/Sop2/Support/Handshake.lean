import Sop2.Support.Tally

/-!
# Support — Handshakes

A server and its clients play rounds of four semaphores.  In a round the server posts `start` once
for each client that is in it, waits as often at `ready`, posts `results`, and waits at `done`; a
client waits at `start`, posts `ready`, waits at `results` and posts `done`.  The semaphores do not
say whose turn it is: a client that is fast could take what was meant for another.

Each client has its own time, which counts its operations on the semaphores; `T` is the time at
which the round begins, and `x` counts the operations of the server in the round.

* `Handshake.client`, `Handshake.server`, `Handshake.round`: what the operations, and the end of a
  round, do to all of that.
* `Handshake.together`: once one client has its results, all are ready, and nobody can start again.
* `Handshake.waiting`: if the server waits in vain, some client can go on.
-/

namespace Support

inductive Gate where
  | start
  | ready
  | results
  | done
  deriving DecidableEq

namespace Gate

def index : Gate → ℕ
  | start => 1
  | ready => 2
  | results => 3
  | done => 4

/-- The server posts it, and the clients wait. -/
def byServer : Gate → Bool
  | start | results => true
  | ready | done => false

theorem index_pos (g : Gate) : 0 < g.index := by cases g <;> decide

theorem index_le (g : Gate) : g.index ≤ 4 := by cases g <;> decide

theorem index_inj {g g' : Gate} (h : g.index = g'.index) : g = g' := by
  revert h
  cases g <;> cases g' <;> decide

end Gate

variable {ι : Type*} [Fintype ι] {T : ℕ} {here : ι → Bool} {time : ι → ℕ} {sem x : Gate → ℕ}
  {g g' : Gate} {i : ι}

/-- How many clients have passed a semaphore in the round. -/
def passed (T : ℕ) (time : ι → ℕ) (g : Gate) : ℕ := tally (fun t => decide (T + g.index ≤ t)) time

/-- How many clients are in the round. -/
def crowd (here : ι → Bool) : ℕ := tally id here

structure Handshake (T : ℕ) (here : ι → Bool) (time : ι → ℕ) (sem x : Gate → ℕ) : Prop where
  posted : ∀ g, g.byServer = true → sem g + passed T time g = x g
  taken : ∀ g, g.byServer = false → sem g + x g = passed T time g
  le : ∀ g, x g ≤ crowd here
  /-- The server does not begin with one semaphore before it is done with those before it. -/
  order : ∀ g g', g.index < g'.index → x g' ≠ 0 → x g = crowd here
  time_le : ∀ i, time i ≤ T + 4
  here_of_lt : ∀ i, T < time i → here i = true
  le_of_here : ∀ i, here i = true → T ≤ time i

/-! ### Counting -/

/-- When as many have passed as there are, all have. -/
theorem passed_eq_crowd (h : ∀ i, T < time i → here i = true) (hg : crowd here ≤ passed T time g)
    (hi : here i = true) : T + g.index ≤ time i := by
  have hsub : Finset.univ.filter (fun i => decide (T + g.index ≤ time i) = true) ⊆
      Finset.univ.filter fun i => here i = true := by
    intro j hj
    have hj := of_decide_eq_true (Finset.mem_filter.mp hj).2
    have hpos := g.index_pos
    exact Finset.mem_filter.mpr ⟨Finset.mem_univ _, h j (by omega)⟩
  have heq := Finset.eq_of_subset_of_card_le hsub hg
  have hmem : i ∈ Finset.univ.filter fun i => here i = true :=
    Finset.mem_filter.mpr ⟨Finset.mem_univ _, hi⟩
  rw [← heq] at hmem
  exact of_decide_eq_true (Finset.mem_filter.mp hmem).2

theorem crowd_le_passed (h : ∀ i, here i = true → T + g.index ≤ time i) :
    crowd here ≤ passed T time g :=
  Finset.card_le_card fun i hi => Finset.mem_filter.mpr
    ⟨Finset.mem_univ _, decide_eq_true (h i (Finset.mem_filter.mp hi).2)⟩

theorem passed_pos (h : T + g.index ≤ time i) : 0 < passed T time g :=
  Finset.card_pos.mpr ⟨i, Finset.mem_filter.mpr ⟨Finset.mem_univ _, decide_eq_true h⟩⟩

theorem passed_eq_zero (h : ∀ i, time i < T + g.index) : passed T time g = 0 :=
  tally_eq_zero _ fun i => decide_eq_false (by have := h i; omega)

/-- Who passes one semaphore passes no other. -/
theorem passed_update [DecidableEq ι] (hi : time i + 1 = T + g.index) (g' : Gate) :
    passed T (Function.update time i (time i + 1)) g' =
      passed T time g' + if g' = g then 1 else 0 := by
  have h := tally_update (fun t => decide (T + g'.index ≤ t)) time i (time i + 1)
  change passed T _ g' + _ = passed T time g' + _ at h
  by_cases hg : g' = g
  · subst hg
    rw [decide_eq_false (by omega), decide_eq_true (by omega)] at h
    rw [if_pos rfl]
    simpa using h
  · have hne : g'.index ≠ g.index := fun h => hg (Gate.index_inj h)
    have hsame : decide (T + g'.index ≤ time i) = decide (T + g'.index ≤ time i + 1) :=
      decide_eq_decide.mpr (by omega)
    rw [hsame] at h
    rw [if_neg hg]
    omega

namespace Handshake

/-- Nobody has begun. -/
theorem begin (hsem : ∀ g, sem g = 0) (htime : ∀ i, time i ≤ T)
    (hhere : ∀ i, here i = true → T ≤ time i) : Handshake T here time sem fun _ => 0 := by
  have hpassed : ∀ g, passed T time g = 0 := fun g => passed_eq_zero fun i => by
    have := htime i
    have := g.index_pos
    omega
  refine ⟨fun g _ => ?_, fun g _ => ?_, fun _ => Nat.zero_le _, fun _ _ _ h => absurd rfl h,
    fun i => (htime i).trans (Nat.le_add_right T 4), fun i hi => absurd (htime i) (not_le.mpr hi),
    hhere⟩
  · rw [hsem, hpassed]
  · rw [hsem, hpassed]

variable (h : Handshake T here time sem x)

include h

theorem passed_le (g : Gate) : passed T time g ≤ crowd here :=
  Finset.card_le_card fun i hi => by
    have hi := of_decide_eq_true (Finset.mem_filter.mp hi).2
    have hpos := g.index_pos
    exact Finset.mem_filter.mpr ⟨Finset.mem_univ _, h.here_of_lt i (by omega)⟩

/-- What the server has waited for everybody to post. -/
theorem all_taken (hg : g.byServer = false) (hx : x g = crowd here) (hi : here i = true) :
    T + g.index ≤ time i :=
  passed_eq_crowd h.here_of_lt (by have := h.taken g hg; omega) hi

/-- What everybody has passed cannot be passed again. -/
theorem sem_eq_zero (hg : ∀ i, here i = true → T + g.index ≤ time i) (hx : x g = crowd here) :
    sem g = 0 := by
  have hle := crowd_le_passed hg
  have hpassed := h.passed_le g
  cases hb : g.byServer with
  | true => have := h.posted g hb; omega
  | false => have := h.taken g hb; omega

/-- **Once one client has its results, all are ready.** -/
theorem together (hi : T + 3 ≤ time i) :
    x .ready = crowd here ∧ (∀ j, here j = true → T + 2 ≤ time j) ∧ sem .start = 0 := by
  have hpos := passed_pos (g := .results) hi
  have hposted := h.posted .results rfl
  have hready := h.order .ready .results (by decide) (by omega)
  have hall : ∀ j, here j = true → T + 2 ≤ time j := fun j hj => h.all_taken rfl hready hj
  refine ⟨hready, hall, h.sem_eq_zero (fun j hj => ?_) ?_⟩
  · have := hall j hj
    change T + 1 ≤ time j
    omega
  · have hcrowd : 0 < crowd here := lt_of_lt_of_le hpos (h.passed_le _)
    exact h.order .start .ready (by decide) (by omega)

/-- A client that has not its results finds the server before that. -/
theorem results_eq_zero (hx : x .results = 0) (i : ι) : time i ≤ T + 2 := by
  by_contra hlt
  have hpos : 0 < passed T time .results := passed_pos (show T + 3 ≤ time i by omega)
  have := h.posted .results rfl
  omega

/-- Before the server has begun with a round, nobody has. -/
theorem unstarted (hx : ∀ g, x g = 0) : (∀ g, sem g = 0) ∧ ∀ i, time i ≤ T := by
  have htime : ∀ i, time i ≤ T := by
    intro i
    by_contra hlt
    have hpos : 0 < passed T time .start := passed_pos (show T + 1 ≤ time i by omega)
    have := h.posted .start rfl
    have := hx .start
    omega
  refine ⟨fun g => ?_, htime⟩
  have hpassed : passed T time g = 0 := passed_eq_zero fun i => by
    have := htime i
    have := g.index_pos
    omega
  have := hx g
  cases hb : g.byServer with
  | true => have := h.posted g hb; omega
  | false => have := h.taken g hb; omega

/-- **The end of a round.** -/
theorem finished (hx : x .done = crowd here) :
    (∀ i, here i = true → time i = T + 4) ∧ ∀ g, sem g = 0 := by
  have hall : ∀ i, here i = true → T + 4 ≤ time i := fun i hi => h.all_taken rfl hx hi
  refine ⟨fun i hi => le_antisymm (h.time_le i) (hall i hi), fun g => ?_⟩
  refine h.sem_eq_zero (fun i hi => ?_) ?_
  · have := hall i hi
    have := g.index_le
    omega
  · by_cases hd : x .done = 0
    · have := h.le g
      omega
    · rcases eq_or_ne g .done with rfl | hg
      · exact hx
      · exact h.order g .done (by cases g <;> first | decide | exact absurd rfl hg) hd

/-- The next round begins. -/
theorem round (hx : x .done = crowd here) {here' : ι → Bool}
    (hsub : ∀ i, here' i = true → here i = true) :
    Handshake (T + 4) here' time sem fun _ => 0 := by
  obtain ⟨hall, hsem⟩ := h.finished hx
  exact begin hsem h.time_le fun i hi => (hall i (hsub i hi)).ge

/-- **If the server waits in vain, some client can go on**: one that is about to post, or one that
is about to pass a semaphore that is not 0. -/
theorem waiting (hg : g.byServer = true) (hg' : g'.byServer = false) (hnext : g'.index = g.index + 1)
    (hbefore : ∀ i, here i = true → T + g.index ≤ time i + 1) (hx : x g = crowd here)
    (hx' : x g' < crowd here) (hsem : sem g' = 0) :
    ∃ i, here i = true ∧
      (time i + 1 = T + g'.index ∨ (time i + 1 = T + g.index ∧ 0 < sem g)) := by
  have htaken := h.taken g' hg'
  have hposted := h.posted g hg
  -- somebody has not posted yet
  obtain ⟨i, hi, hlt⟩ : ∃ i, here i = true ∧ time i < T + g'.index := by
    by_contra hnone
    push Not at hnone
    have := crowd_le_passed hnone
    omega
  refine ⟨i, hi, ?_⟩
  have := hbefore i hi
  by_cases htime : time i + 1 = T + g'.index
  · exact .inl htime
  · refine .inr ⟨by omega, ?_⟩
    by_contra hzero
    have := passed_eq_crowd h.here_of_lt (g := g) (by omega) hi
    omega

theorem of_counts {x' : Gate → ℕ} (hx : ∀ g, x' g = x g) : Handshake T here time sem x' :=
  (funext hx : x' = x) ▸ h

variable [DecidableEq ι]

/-- **A client passes a semaphore.** -/
theorem client (hi : time i + 1 = T + g.index) (hhere : here i = true) {v : ℕ}
    (hv : if g.byServer then sem g = v + 1 else v = sem g + 1) :
    Handshake T here (Function.update time i (time i + 1)) (Function.update sem g v) x := by
  have hupdate := passed_update hi
  have hle := g.index_le
  have hcases : ∀ j, Function.update time i (time i + 1) j = time j ∨
      (j = i ∧ Function.update time i (time i + 1) j = time i + 1) := by
    intro j
    by_cases hj : j = i
    · subst hj
      exact .inr ⟨rfl, Function.update_self ..⟩
    · exact .inl (Function.update_of_ne hj ..)
  refine ⟨fun g' hg' => ?_, fun g' hg' => ?_, h.le, h.order, fun j => ?_, fun j hj => ?_,
    fun j hj => ?_⟩
  · have := h.posted g' hg'
    rw [hupdate]
    by_cases hgg : g' = g
    · subst hgg
      rw [if_pos hg'] at hv
      rw [Function.update_self, if_pos rfl]
      omega
    · rw [Function.update_of_ne hgg, if_neg hgg]
      omega
  · have := h.taken g' hg'
    rw [hupdate]
    by_cases hgg : g' = g
    · subst hgg
      rw [hg', if_neg Bool.false_ne_true] at hv
      rw [Function.update_self, if_pos rfl]
      omega
    · rw [Function.update_of_ne hgg, if_neg hgg]
      omega
  · have := h.time_le j
    rcases hcases j with hj | ⟨rfl, hj⟩ <;> omega
  · rcases hcases j with hj' | ⟨rfl, -⟩
    · exact h.here_of_lt j (by omega)
    · exact hhere
  · have := h.le_of_here j hj
    rcases hcases j with hj' | ⟨rfl, hj'⟩ <;> omega

omit [DecidableEq ι] in
/-- **The server passes a semaphore.** -/
theorem server (hlt : x g < crowd here) (hprev : ∀ g', g'.index < g.index → x g' = crowd here)
    {v : ℕ} (hv : if g.byServer then v = sem g + 1 else sem g = v + 1) :
    Handshake T here time (Function.update sem g v) (Function.update x g (x g + 1)) := by
  refine ⟨fun g' hg' => ?_, fun g' hg' => ?_, fun g' => ?_, fun g₁ g₂ hg hx => ?_, h.time_le,
    h.here_of_lt, h.le_of_here⟩
  · have := h.posted g' hg'
    by_cases hgg : g' = g
    · subst hgg
      rw [if_pos hg'] at hv
      rw [Function.update_self, Function.update_self]
      omega
    · rwa [Function.update_of_ne hgg, Function.update_of_ne hgg]
  · have := h.taken g' hg'
    by_cases hgg : g' = g
    · subst hgg
      rw [hg', if_neg Bool.false_ne_true] at hv
      rw [Function.update_self, Function.update_self]
      omega
    · rwa [Function.update_of_ne hgg, Function.update_of_ne hgg]
  · by_cases hgg : g' = g
    · subst hgg
      rw [Function.update_self]
      omega
    · rw [Function.update_of_ne hgg]
      exact h.le g'
  · by_cases hg₂ : g₂ = g
    · subst hg₂
      have hne : g₁ ≠ g₂ := fun h => by subst h; omega
      rw [Function.update_of_ne hne]
      exact hprev g₁ hg
    · rw [Function.update_of_ne hg₂] at hx
      by_cases hg₁ : g₁ = g
      · subst hg₁
        have := h.order g₁ g₂ hg hx
        omega
      · rw [Function.update_of_ne hg₁]
        exact h.order g₁ g₂ hg hx

end Handshake

end Support
