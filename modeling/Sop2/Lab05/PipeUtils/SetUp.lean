import Mathlib.Data.Fin.VecNotation
import Sop2.Lab05.Lotto.Game
import Sop2.Support.PipedSetUp

/-!
# Lab05 — PipeUtils — setting up

`close_pipes_except` and `close_pipes_all_one_end` of `pipe-utils.h`, and what `main` of
`sop-lotto.c`, `sop-roulette.c` and `sop-cards.c` does with them: behind every `fork` the child has
all ends of all pipes, as its parent does, and both close those that they do not use, before they go
to work.  What they do then is left open, so that this is about all three programs.

* `mem_setUp`, `nodup_setUp`: what is closed is what is not used, and no end twice.
* `setUp_perm`: it is what the processes close in `Cards` and in `Lotto`.
* `hygiene_law`: behind the setting up every end has one holder, until that gives it up.
-/

namespace Sop2.PipeUtils
open Support Support.Piped
open PipeCards (Pipe allEnds mem_allEnds nodup_allEnds own)

variable {F : Type*} {n : Nat}

/-! ### `pipe-utils.h` -/

/-- `pipe_t`: two descriptors. -/
abbrev PipeT (F : Type*) := Fin 2 → F

/-- `READ`. -/
def read : Fin 2 := ⟨0, by decide⟩

/-- `WRITE`. -/
def write : Fin 2 := ⟨1, by decide⟩

/-- `close_pipes_except`: what it closes, in order. -/
def closePipesExcept (pipes : Fin n → PipeT F) (exceptIdx : Fin n) (pipeEnd : Fin 2) : List F :=
  ((List.finRange n).flatMap fun i =>
    if i ≠ exceptIdx then [pipes i read, pipes i write] else []) ++
    [pipes exceptIdx (write - pipeEnd)]

/-- `close_pipes_all_one_end`. -/
def closePipesAllOneEnd (pipes : Fin n → PipeT F) (oneEnd : Fin 2) : List F :=
  (List.finRange n).map fun i => pipes i oneEnd

/-- Whoever has the one end left closes the other. -/
theorem other_end (e f : Fin 2) : f = write - e ↔ f ≠ e := by
  revert e f
  decide

theorem read_or_write (e : Fin 2) : e = read ∨ e = write := by
  revert e
  decide

/-- The descriptors are all different. -/
def Distinct (pipes : Fin n → PipeT F) : Prop :=
  ∀ {i j e f}, pipes i e = pipes j f → i = j ∧ e = f

variable {pipes : Fin n → PipeT F} {i j : Fin n} {e : Fin 2} {fd : F}

/-- What one turn of the loop of `close_pipes_except` closes. -/
theorem mem_turn : fd ∈ (if j ≠ i then [pipes j read, pipes j write] else []) ↔
    j ≠ i ∧ ∃ e, fd = pipes j e := by
  by_cases hj : j = i
  · simp [hj]
  · rw [if_pos hj, List.mem_cons, List.mem_singleton]
    refine ⟨?_, ?_⟩
    · rintro (rfl | rfl)
      · exact ⟨hj, _, rfl⟩
      · exact ⟨hj, _, rfl⟩
    · rintro ⟨-, e, rfl⟩
      rcases read_or_write e with rfl | rfl
      · exact .inl rfl
      · exact .inr rfl

/-- **`close_pipes_except`** closes all the descriptors but one. -/
theorem mem_closePipesExcept :
    fd ∈ closePipesExcept pipes i e ↔ ∃ j f, fd = pipes j f ∧ ¬ (j = i ∧ f = e) := by
  rw [closePipesExcept, List.mem_append, List.mem_flatMap, List.mem_singleton]
  constructor
  · rintro (⟨j, -, hj⟩ | rfl)
    · obtain ⟨hne, f, rfl⟩ := mem_turn.mp hj
      exact ⟨j, f, rfl, fun h => hne h.1⟩
    · exact ⟨i, write - e, rfl, fun h => (other_end e _).mp rfl h.2⟩
  · rintro ⟨j, f, rfl, hne⟩
    by_cases hj : j = i
    · subst hj
      have hf : f = write - e := (other_end e f).mpr fun hf => hne ⟨rfl, hf⟩
      exact .inr (by rw [hf])
    · exact .inl ⟨j, List.mem_finRange j, mem_turn.mpr ⟨hj, f, rfl⟩⟩

/-- It closes none of them twice. -/
theorem nodup_closePipesExcept (h : Distinct pipes) (i : Fin n) (e : Fin 2) :
    (closePipesExcept pipes i e).Nodup := by
  refine List.nodup_append'.mpr ⟨List.nodup_flatMap.mpr ⟨fun j _ => ?_, ?_⟩,
    List.nodup_singleton _, ?_⟩
  · have hpair : pipes j read ≠ pipes j write := fun heq => absurd (h heq).2 (by decide)
    split
    · exact List.nodup_cons.mpr ⟨by simpa using hpair, List.nodup_singleton _⟩
    · exact List.nodup_nil
  · refine (List.nodup_finRange n).imp fun {j k} hjk fd hj hk => ?_
    obtain ⟨-, f, rfl⟩ := mem_turn.mp hj
    obtain ⟨-, g, heq⟩ := mem_turn.mp hk
    exact hjk (h heq).1
  · intro fd hfd hlast
    obtain ⟨j, -, hj⟩ := List.mem_flatMap.mp hfd
    obtain ⟨hne, f, rfl⟩ := mem_turn.mp hj
    exact hne (h (List.mem_singleton.mp hlast)).1

theorem mem_closePipesAllOneEnd : fd ∈ closePipesAllOneEnd pipes e ↔ ∃ i, fd = pipes i e := by
  simp [closePipesAllOneEnd, eq_comm]

theorem nodup_closePipesAllOneEnd (h : Distinct pipes) (e : Fin 2) :
    (closePipesAllOneEnd pipes e).Nodup :=
  (List.nodup_finRange n).map fun _ _ heq => (h heq).1

/-! ### `main` -/

/-- `to_player`, and `from_player`. -/
def toPlayer (i : Fin n) : PipeT (End (Pipe n)) := ![.read (.toPlayer i), .write (.toPlayer i)]
def fromPlayer (i : Fin n) : PipeT (End (Pipe n)) :=
  ![.read (.fromPlayer i), .write (.fromPlayer i)]

/-- What the process closes behind the `fork`s: the server (`none`), or a player. -/
def setUp : Option (Fin n) → List (End (Pipe n))
  | none => closePipesAllOneEnd toPlayer read ++ closePipesAllOneEnd fromPlayer write
  | some i => closePipesExcept toPlayer i read ++ closePipesExcept fromPlayer i write

/-- Who uses the end. -/
def user : End (Pipe n) → Option (Fin n)
  | .read (.toPlayer i) | .write (.fromPlayer i) => some i
  | .write (.toPlayer _) | .read (.fromPlayer _) => none

theorem distinct_toPlayer : Distinct (toPlayer (n := n)) := by
  intro i j e f h
  rcases read_or_write e with rfl | rfl <;> rcases read_or_write f with rfl | rfl <;> cases h
  · exact ⟨rfl, rfl⟩
  · exact ⟨rfl, rfl⟩

theorem distinct_fromPlayer : Distinct (fromPlayer (n := n)) := by
  intro i j e f h
  rcases read_or_write e with rfl | rfl <;> rcases read_or_write f with rfl | rfl <;> cases h
  · exact ⟨rfl, rfl⟩
  · exact ⟨rfl, rfl⟩

theorem toPlayer_ne_fromPlayer (i j : Fin n) (e f : Fin 2) : toPlayer i e ≠ fromPlayer j f := by
  intro h
  rcases read_or_write e with rfl | rfl <;> rcases read_or_write f with rfl | rfl <;> cases h

/-- Every end is one of the two arrays. -/
theorem end_cases (f : End (Pipe n)) : ∃ i e, f = toPlayer i e ∨ f = fromPlayer i e := by
  obtain ⟨i | i⟩ | ⟨i | i⟩ := f
  · exact ⟨i, read, .inl rfl⟩
  · exact ⟨i, read, .inr rfl⟩
  · exact ⟨i, write, .inl rfl⟩
  · exact ⟨i, write, .inr rfl⟩

variable {p : Option (Fin n)} {f : End (Pipe n)}

theorem own_iff : own p f = true ↔ user f = p := by
  cases p with
  | none =>
      obtain ⟨i | i⟩ | ⟨i | i⟩ := f <;>
        simp [own, user, PipeCards.Game.holds, PipeCards.Game.start]
  | some j => obtain ⟨i | i⟩ | ⟨i | i⟩ := f <;> simp [own, user, PipeCards.ends]

/-- **What is closed is what is not used.** -/
theorem mem_setUp : f ∈ setUp p ↔ user f ≠ p := by
  cases p with
  | none =>
      rw [setUp, List.mem_append, mem_closePipesAllOneEnd, mem_closePipesAllOneEnd]
      constructor
      · rintro (⟨i, rfl⟩ | ⟨i, rfl⟩) <;> exact Option.some_ne_none i
      · intro hne
        obtain ⟨i | i⟩ | ⟨i | i⟩ := f
        · exact .inl ⟨i, rfl⟩
        · exact absurd rfl hne
        · exact absurd rfl hne
        · exact .inr ⟨i, rfl⟩
  | some i =>
      rw [setUp, List.mem_append, mem_closePipesExcept, mem_closePipesExcept]
      constructor
      · rintro (⟨j, e, rfl, hne⟩ | ⟨j, e, rfl, hne⟩) huser
        · rcases read_or_write e with rfl | rfl
          · exact hne ⟨Option.some.inj huser, rfl⟩
          · cases huser
        · rcases read_or_write e with rfl | rfl
          · cases huser
          · exact hne ⟨Option.some.inj huser, rfl⟩
      · intro hne
        obtain ⟨j, e, rfl | rfl⟩ := end_cases f
        · refine .inl ⟨j, e, rfl, ?_⟩
          rintro ⟨rfl, rfl⟩
          exact hne rfl
        · refine .inr ⟨j, e, rfl, ?_⟩
          rintro ⟨rfl, rfl⟩
          exact hne rfl

/-- No end is closed twice. -/
theorem nodup_setUp (p : Option (Fin n)) : (setUp p).Nodup := by
  cases p with
  | none =>
      refine List.nodup_append'.mpr ⟨nodup_closePipesAllOneEnd distinct_toPlayer read,
        nodup_closePipesAllOneEnd distinct_fromPlayer write, fun f hto hfrom => ?_⟩
      obtain ⟨i, rfl⟩ := mem_closePipesAllOneEnd.mp hto
      obtain ⟨j, heq⟩ := mem_closePipesAllOneEnd.mp hfrom
      exact toPlayer_ne_fromPlayer i j read write heq
  | some i =>
      refine List.nodup_append'.mpr ⟨nodup_closePipesExcept distinct_toPlayer i read,
        nodup_closePipesExcept distinct_fromPlayer i write, fun f hto hfrom => ?_⟩
      obtain ⟨j, e, rfl, -⟩ := mem_closePipesExcept.mp hto
      obtain ⟨k, g, heq, -⟩ := mem_closePipesExcept.mp hfrom
      exact toPlayer_ne_fromPlayer j k e g heq

theorem unused_setUp (p : Option (Fin n)) : Unused (own p) (setUp p) :=
  ⟨nodup_setUp p, fun _ hf => Bool.eq_false_iff.mpr fun ho => mem_setUp.mp hf (own_iff.mp ho)⟩

/-- The processes of `Cards` and of `Lotto` close the same ends, in another order. -/
theorem setUp_perm (p : Option (Fin n)) :
    (setUp p).Perm ((allEnds n).filter fun f => !own p f) := by
  refine (List.perm_ext_iff_of_nodup (nodup_setUp p) (nodup_allEnds.filter _)).mpr fun f => ?_
  rw [mem_setUp, List.mem_filter, and_iff_right (mem_allEnds f), Bool.not_eq_true',
    Bool.eq_false_iff, ne_eq, ne_eq, own_iff]

/-- **One process.**  Nothing goes wrong, and what it uses is left. -/
theorem closeEach_setUp (p : Option (Fin n)) :
    closeEach (setUp p) (fun _ => true) = some fun f => decide (user f = p) := by
  refine closeEach_eq_some.mpr ⟨nodup_setUp p, fun _ _ => rfl, funext fun f => ?_⟩
  simp [mem_setUp]

/-! ### All processes -/

section
variable {C A L Q : Type*} {cap : Nat} {work : Option (Fin n) → Q → Op (Pipe n) C A L Q}
  {start : Option (Fin n) → Q} {s : Piped.State (Option (Fin n)) (Pipe n) C (SetUp (Pipe n) Q)}
  {tr : List (Move (Piped.State (Option (Fin n)) (Pipe n) C (SetUp (Pipe n) Q))
    (Option (Fin n) × Event (Pipe n) C L))}

theorem held_run (r : Run (Step cap (withSetUp work start)) (everyEnd setUp) tr s) :
    Held own s := by
  refine Held.run (held_everyEnd unused_setUp fun p f => ?_) r
  rw [own_iff, mem_setUp]
  exact Decidable.em _

/-- **Who has an end**, once all work: its user, or nobody after that has given it up. -/
theorem holder (r : Run (Step cap (withSetUp work start)) (everyEnd setUp) tr s)
    (hwork : ∀ p, ∃ q, s.pc p = .working q) (f : End (Pipe n)) :
    (∀ p, s.has p f = true ↔ p = user f) ∨
      (∀ p, s.has p f = false) ∧ ∃ m ∈ tr, GivesUp (withSetUp work start) (user f) f m := by
  have honly : ∀ p, s.has p f = true → p = user f := by
    intro p hp
    obtain ⟨q, hq⟩ := hwork p
    exact (own_iff.mp ((held_run r).only hq hp)).symm
  have hkept := kept_or_givenUp r (everyEnd_has setUp (user f) f)
  by_cases hopen : s.has (user f) f = true
  · exact .inl fun p => ⟨honly p, fun hp => hp ▸ hopen⟩
  · refine .inr ⟨fun p => Bool.eq_false_iff.mpr fun hp => ?_, hkept.resolve_left hopen⟩
    exact hopen (honly p hp ▸ hp)

end

/-- **The hygiene of the pipes.**  For any number of players: each child closes every end other than
`to_player[i][READ]` and `from_player[i][WRITE]` once, and keeps these; the server closes as many
ends, and keeps `to_player[*][WRITE]` and `from_player[*][READ]`.  Whatever the processes do
afterwards, in every run an end that is closed by the setting up is open; once all are through with
it, each end is open in its user only, or in no process after its user has closed it or exited; and
an end of file of `from_player[i]` is read only after player `i` has closed it or exited. -/
theorem hygiene_law (n : Nat) {C A L Q : Type*} (work : Option (Fin n) → Q → Op (Pipe n) C A L Q)
    (start : Option (Fin n) → Q) :
    (∀ i : Fin n, (setUp (some i)).Nodup ∧
      (∀ f, f ∈ setUp (some i) ↔ ¬ (f = toPlayer i read ∨ f = fromPlayer i write)) ∧
      ∃ isOpen, closeEach (setUp (some i)) (fun _ => true) = some isOpen ∧
        ∀ f, isOpen f = true ↔ f = toPlayer i read ∨ f = fromPlayer i write) ∧
    (∃ isOpen, closeEach (setUp (n := n) none) (fun _ => true) = some isOpen ∧
      ∀ f, isOpen f = true ↔ ∃ i, f = toPlayer i write ∨ f = fromPlayer i read) ∧
    ∀ (cap : Nat) (tr : List (Move (Piped.State (Option (Fin n)) (Pipe n) C (SetUp (Pipe n) Q))
        (Option (Fin n) × Event (Pipe n) C L)))
      (s : Piped.State (Option (Fin n)) (Pipe n) C (SetUp (Pipe n) Q)),
      Run (Step cap (withSetUp work start)) (everyEnd setUp) tr s →
        (∀ p f fs, s.pc p = .closing (f :: fs) → s.has p f = true) ∧
        ((∀ p, ∃ q, s.pc p = .working q) → ∀ f, (∀ p, s.has p f = true ↔ p = user f) ∨
          (∀ p, s.has p f = false) ∧ ∃ m ∈ tr, GivesUp (withSetUp work start) (user f) f m) ∧
        ∀ tr₁ m tr₂, tr = tr₁ ++ m :: tr₂ → ∀ p i, m.label = (p, .eof (.fromPlayer i)) →
          ∃ m' ∈ tr₁, GivesUp (withSetUp work start) (some i) (fromPlayer i write) m' := by
  have huser : ∀ (i : Fin n) (f : End (Pipe n)),
      user f = some i ↔ f = toPlayer i read ∨ f = fromPlayer i write := by
    intro i f
    obtain ⟨j | j⟩ | ⟨j | j⟩ := f <;> simp [user, toPlayer, fromPlayer, read, write]
  have hserver : ∀ f : End (Pipe n),
      user f = none ↔ ∃ i, f = toPlayer i write ∨ f = fromPlayer i read := by
    intro f
    obtain ⟨j | j⟩ | ⟨j | j⟩ := f <;> simp [user, toPlayer, fromPlayer, read, write]
  refine ⟨fun i => ⟨nodup_setUp _, fun f => ?_, _, closeEach_setUp _, fun f => ?_⟩,
    ⟨_, closeEach_setUp _, fun f => ?_⟩, fun cap tr s r => ⟨?_, holder r, ?_⟩⟩
  · rw [mem_setUp, ne_eq, huser]
  · rw [decide_eq_true_eq, huser]
  · rw [decide_eq_true_eq, hserver]
  · intro p f fs hclosing
    exact (held_run r).open hclosing
  · rintro tr₁ ⟨t, l, u⟩ tr₂ rfl p i rfl
    rw [List.append_cons] at r
    obtain ⟨v, r₁, -⟩ := r.append_inv
    obtain ⟨r₁, h, -⟩ := r₁.snoc_inv
    exact givenUp_of_eof r₁ h (everyEnd_has ..)

/-- The first of two players exits at once, and the server reads the end of file from it; the second
player does nothing. -/
def watch : Option (Fin 2) → Bool → Op (Pipe 2) Unit Unit Unit Bool
  | none, false => .read (.fromPlayer 0) (fun _ => true) true none
  | some i, false => if i = 0 then .exit true else .halt
  | _, true => .halt

/-- All set up, and then the first player and the server work. -/
def watched : List (Option (Fin 2) × Option Unit) :=
  quiet (some 0) 7 ++ quiet (some 1) 7 ++ quiet none 5 ++ [(some 0, none), (none, none)]

theorem hygiene_law_watched : ∃ tr s, Run (Step 1 (withSetUp watch fun _ => false))
      (everyEnd setUp) tr s ∧
    (∃ m ∈ tr, GivesUp (withSetUp watch fun _ => false) (some 0) (fromPlayer 0 write) m) ∧
    (∀ p, s.has p (fromPlayer 0 write) = false) ∧
    ∀ p, s.has p (fromPlayer 1 write) = true ↔ p = some 1 := by
  have hplay : (play 1 (withSetUp watch fun _ => false) (everyEnd setUp) watched).map (fun x =>
      (decide ((none, .eof (.fromPlayer 0)) ∈ x.1), decide (∀ p, (x.2.pc p).isWorking = true),
        x.2.has (some 0) (fromPlayer 0 write), x.2.has (some 1) (fromPlayer 1 write))) =
      some (true, true, false, true) := by
    decide +kernel
  obtain ⟨tr, s, r, h⟩ := play_map hplay
  simp only [Prod.mk.injEq, decide_eq_true_eq] at h
  obtain ⟨heof, hworking, hfirst, hsecond⟩ := h
  obtain ⟨-, -, hrun⟩ := hygiene_law 2 watch fun _ => false
  obtain ⟨-, hholder, hgiven⟩ := hrun 1 _ _ r
  obtain ⟨m, hm, hlabel⟩ := List.mem_map.mp heof
  obtain ⟨tr₁, tr₂, rfl⟩ := List.append_of_mem hm
  obtain ⟨m', hm', hgives⟩ := hgiven tr₁ m tr₂ rfl none 0 hlabel
  have hall := hholder fun p => SetUp.isWorking_iff.mp (hworking p)
  refine ⟨_, s, r, ⟨m', List.mem_append_left _ hm', hgives⟩, ?_, ?_⟩
  · rcases hall (fromPlayer 0 write) with honly | ⟨hnobody, -⟩
    · rw [(honly (some 0)).mpr rfl] at hfirst
      cases hfirst
    · exact hnobody
  · rcases hall (fromPlayer 1 write) with honly | ⟨hnobody, -⟩
    · exact honly
    · rw [hnobody] at hsecond
      cases hsecond

end Sop2.PipeUtils
