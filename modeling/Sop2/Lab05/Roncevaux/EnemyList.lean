import Sop2.Lab05.Roncevaux.Strokes

/-!
# Lab05 — Roncevaux — the list of enemies

`child_work` of `sop-roncevaux.c` for one knight alone, with the array `enemyPipes` as it is: the
write end to the enemy `i` is at `2 * i + 1`.  What the system calls return, and what `rand` does,
is left open, so that an enemy may be gone at any time.

An enemy that is gone changes places with the last of the first `aliveEnemies`, which are one fewer
then; an end of file makes them none at once.

* `writeEnds_swap`: on the write ends the exchange is `swap`, as in `Fight`.
* `Listed`: the invariant.  The write ends are those of the living enemies, and behind them those
  that have reported `EPIPE`, the last one first.
* `Listed.closed_nodup`: no descriptor is closed twice.
* `strikes_end`: the inner loop ends.
* `enemyList_law`: all this, and no write to a closed descriptor and no division by 0.
-/

namespace Sop2.Roncevaux
open Support

/-! ### Exchanging two elements -/

section
variable {α : Type*} {xs : List α} {x y : α} {i j k : Nat}

/-- Without one of the two there is nothing to exchange. -/
theorem swap_of_none (h : xs[i]? = none ∨ xs[j]? = none) : swap xs i j = xs := by
  unfold swap
  split
  · rename_i hi hj
    rcases h with h | h
    · rw [h] at hi; cases hi
    · rw [h] at hj; cases hj
  · rfl

theorem swap_perm (xs : List α) (i j : Nat) : (swap xs i j).Perm xs := by
  unfold swap
  split
  · rename_i x y hi hj
    obtain ⟨hilen, rfl⟩ := List.getElem?_eq_some_iff.mp hi
    obtain ⟨hjlen, rfl⟩ := List.getElem?_eq_some_iff.mp hj
    exact List.set_set_perm hilen hjlen
  · exact .refl _

/-- One of the first `k + 1` changes places with the last of them: it is the first behind the first
`k` now. -/
theorem drop_swap_last (hi : xs[i]? = some x) (hik : i ≤ k) (hk : k < xs.length) :
    (swap xs i k).drop k = x :: xs.drop (k + 1) := by
  have hlast : xs[k]? = some xs[k] := List.getElem?_eq_getElem hk
  refine List.ext_getElem? fun j => ?_
  rw [List.getElem?_drop, swap_getElem? hi hlast]
  cases j with
  | zero => rw [Nat.add_zero, if_pos rfl, List.getElem?_cons_zero]
  | succ j =>
      rw [if_neg (by omega), if_neg (by omega), List.getElem?_cons_succ, List.getElem?_drop,
        Nat.add_right_comm, Nat.add_assoc]

end

variable {D : Type*}

/-- The elements at the odd positions. -/
def writeEnds : List D → List D
  | _ :: w :: pipes => w :: writeEnds pipes
  | _ => []

theorem writeEnds_getElem? : ∀ (pipes : List D) (i : Nat),
    (writeEnds pipes)[i]? = pipes[2 * i + 1]?
  | [], i => by simp [writeEnds]
  | [r], i => by simp [writeEnds]
  | _ :: w :: pipes, 0 => rfl
  | _ :: w :: pipes, i + 1 => by
      rw [writeEnds, List.getElem?_cons_succ, writeEnds_getElem? pipes i,
        show 2 * (i + 1) + 1 = 2 * i + 1 + 1 + 1 by omega, List.getElem?_cons_succ,
        List.getElem?_cons_succ]

theorem writeEnds_length {n : Nat} : ∀ {pipes : List D}, pipes.length = 2 * n →
    (writeEnds pipes).length = n := by
  induction n with
  | zero =>
      intro pipes h
      rw [List.eq_nil_of_length_eq_zero h]
      rfl
  | succ n ih =>
      intro pipes h
      match pipes, h with
      | _ :: w :: pipes, h =>
          simp only [List.length_cons] at h
          rw [writeEnds, List.length_cons, ih (by omega)]

/-- **The exchange**, seen from the write ends. -/
theorem writeEnds_swap (pipes : List D) (i j : Nat) :
    writeEnds (swap pipes (2 * i + 1) (2 * j + 1)) = swap (writeEnds pipes) i j := by
  ext1 k
  rw [writeEnds_getElem?]
  cases hi : (writeEnds pipes)[i]? with
  | none =>
      rw [swap_of_none (.inl hi), swap_of_none (.inl (by rw [← writeEnds_getElem?, hi])),
        writeEnds_getElem?]
  | some x =>
      cases hj : (writeEnds pipes)[j]? with
      | none =>
          rw [swap_of_none (.inr hj), swap_of_none (.inr (by rw [← writeEnds_getElem?, hj])),
            writeEnds_getElem?]
      | some y =>
          rw [swap_getElem? hi hj, swap_getElem? (by rw [← writeEnds_getElem?, hi])
            (by rw [← writeEnds_getElem?, hj]), writeEnds_getElem?]
          by_cases hkj : k = j
          · rw [if_pos hkj, if_pos (by omega)]
          · rw [if_neg hkj, if_neg (by omega)]
            by_cases hki : k = i
            · rw [if_pos hki, if_pos (by omega)]
            · rw [if_neg hki, if_neg (by omega)]

/-! ### `child_work` -/

/-- What `read` of `readEnd` returns: `EAGAIN`, an end of file, another error, or a byte. -/
inductive ReadResult where
  | again
  | eof
  | error
  | byte (buf : Int)
  deriving DecidableEq

inductive WriteResult where
  | ok
  | epipe
  | error
  deriving DecidableEq

/-- What `child_work` calls, and the divisors of its remainders. -/
inductive Call (D : Type*) where
  | read (r : ReadResult)
  | write (fd : D) (damage : Int) (r : WriteResult)
  | close (fd : D)
  | rem (divisor : Int)

/-- What comes from outside in one turn: what the calls return, and what `rand` does. -/
structure Chance where
  read : ReadResult
  enemy : Nat
  damage : Nat
  write : WriteResult

/-- Where a knight is in `child_work`; `closing i` is the loop behind the others. -/
inductive Phase where
  | outer
  | reading
  | test
  | striking
  | closeOwn
  | closing (i : Nat)
  | returned
  /-- `ERR`. -/
  | failed
  /-- A remainder that has no value. -/
  | crashed
  deriving DecidableEq

/-- The knight has not come to the loop behind the others. -/
def Phase.fights : Phase → Bool
  | .closing _ | .returned => false
  | _ => true

/-- The variables of `child_work`, and which descriptors are open. -/
structure Child (D : Type*) where
  phase : Phase
  hp : Int
  alive : Bool
  aliveEnemies : Nat
  enemyPipes : List D
  isOpen : D → Bool

/-- `child_work`, at its start. -/
def childWork (hp : Int) (enemyPipes : List D) (enemyNo : Nat) (isOpen : D → Bool) : Child D :=
  ⟨.outer, hp, true, enemyNo, enemyPipes, isOpen⟩

/-- After `read(readEnd, &buf, 1)`. -/
def Child.hear (c : Child D) : ReadResult → Child D
  | .again => { c with phase := .test }
  | .eof => { c with aliveEnemies := 0, phase := .test }
  | .error => { c with phase := .failed }
  | .byte buf =>
      if c.hp - buf < 0 then { c with hp := c.hp - buf, alive := false, phase := .test }
      else { c with hp := c.hp - buf }

variable [DecidableEq D]

/-- `close`. -/
def Child.close (c : Child D) (fd : D) : Child D :=
  { c with isOpen := Function.update c.isOpen fd false }

/-- `aliveEnemies--`, and the exchange. -/
def Child.strikeOut (c : Child D) (enemy : Nat) : Child D :=
  { c with
    aliveEnemies := c.aliveEnemies - 1
    enemyPipes := swap c.enemyPipes (2 * enemy + 1) (2 * (c.aliveEnemies - 1) + 1) }

/-- One turn of `while(aliveEnemies > 0)`, with an enemy left. -/
def Child.strike (attack : Int) (g : Chance) (c : Child D) : List (Call D) × Child D :=
  let enemy := g.enemy % c.aliveEnemies
  let rems := [.rem c.aliveEnemies, .rem (attack + 1)]
  match drawn attack g.damage, c.enemyPipes[2 * enemy + 1]? with
  | some d, some fd =>
      match g.write with
      | .ok => (rems ++ [.write fd (decode (encode d)) .ok, .rem 10], { c with phase := .outer })
      | .epipe =>
          (rems ++ [.write fd (decode (encode d)) .epipe, .close fd],
            (c.close fd).strikeOut enemy)
      | .error => (rems ++ [.write fd (decode (encode d)) .error], { c with phase := .failed })
  | _, _ => (rems, { c with phase := .crashed })

/-- One turn of one of the loops, or one statement between them. -/
def Child.turn (attack : Int) (readEnd : D) (g : Chance) (c : Child D) :
    Option (List (Call D) × Child D) :=
  match c.phase with
  | .outer =>
      some ([], { c with
        phase := if c.alive = true ∧ 0 < c.aliveEnemies then .reading else .closeOwn })
  | .reading => some ([.read g.read], c.hear g.read)
  | .test =>
      some ([], { c with
        phase := if c.alive = false ∨ c.aliveEnemies = 0 then .closeOwn else .striking })
  | .striking =>
      if 0 < c.aliveEnemies then some (c.strike attack g) else some ([], { c with phase := .outer })
  | .closeOwn => some ([.close readEnd], { c.close readEnd with phase := .closing 0 })
  | .closing i =>
      if i < c.aliveEnemies then
        c.enemyPipes[2 * i + 1]?.map fun fd =>
          ([.close fd], { c.close fd with phase := .closing (i + 1) })
      else some ([], { c with phase := .returned })
  | .returned | .failed | .crashed => none

/-- A step of `child_work`. -/
def Works (attack : Int) (readEnd : D) (c : Child D) (calls : List (Call D))
    (c' : Child D) : Prop :=
  ∃ g, c.turn attack readEnd g = some (calls, c')

/-! ### The invariant -/

/-- The calls of a run, in order. -/
def calls (tr : List (Move (Child D) (List (Call D)))) : List (Call D) := tr.flatMap Move.label

/-- The write ends that have reported `EPIPE`. -/
def reported (cs : List (Call D)) : List D :=
  cs.filterMap fun call => match call with
    | .write fd _ .epipe => some fd
    | _ => none

/-- The descriptors that have been closed. -/
def closed (cs : List (Call D)) : List D :=
  cs.filterMap fun call => match call with
    | .close fd => some fd
    | _ => none

/-- Whether an end of file has been read. -/
def ended (cs : List (Call D)) : Bool :=
  cs.any fun call => match call with
    | .read .eof => true
    | _ => false

/-- The descriptors that are closed behind the loops. -/
def Child.shut (readEnd : D) (c : Child D) : List D :=
  match c.phase with
  | .closing i => readEnd :: (writeEnds c.enemyPipes).take i
  | .returned => readEnd :: (writeEnds c.enemyPipes).take c.aliveEnemies
  | _ => []

/-- What is known after the calls `cs`, when `ends` are the write ends at the start. -/
structure Listed (readEnd : D) (ends : List D) (cs : List (Call D)) (c : Child D) : Prop where
  perm : (writeEnds c.enemyPipes).Perm ends
  gone : (writeEnds c.enemyPipes).drop (ends.length - (reported cs).length) = (reported cs).reverse
  alive : c.aliveEnemies = if ended cs then 0 else ends.length - (reported cs).length
  closed : closed cs = reported cs ++ c.shut readEnd
  isOpen : ∀ fd ∈ readEnd :: ends, c.isOpen fd = false ↔ fd ∈ Roncevaux.closed cs
  range : ∀ i, c.phase = .closing i → i ≤ c.aliveEnemies

omit [DecidableEq D] in
@[simp] theorem reported_append (cs cs' : List (Call D)) :
    reported (cs ++ cs') = reported cs ++ reported cs' :=
  List.filterMap_append

omit [DecidableEq D] in
@[simp] theorem closed_append (cs cs' : List (Call D)) :
    closed (cs ++ cs') = closed cs ++ closed cs' :=
  List.filterMap_append

omit [DecidableEq D] in
@[simp] theorem ended_append (cs cs' : List (Call D)) :
    ended (cs ++ cs') = (ended cs || ended cs') :=
  List.any_append

variable {attack hp : Int} {readEnd fd : D} {ends fds : List D} {cs new : List (Call D)}
  {c c' : Child D} {g : Chance} {n i : Nat} {isOpen : D → Bool}

omit [DecidableEq D] in
theorem listed_childWork (hlen : (writeEnds fds).length = n)
    (hopen : ∀ fd ∈ readEnd :: writeEnds fds, isOpen fd = true) :
    Listed readEnd (writeEnds fds) [] (childWork hp fds n isOpen) where
  perm := .refl _
  gone := by simp [reported, childWork]
  alive := by simp [reported, childWork, hlen, ended]
  closed := rfl
  isOpen fd hfd := by simp [childWork, hopen fd hfd, Roncevaux.closed]
  range i hi := by cases hi

omit [DecidableEq D] in
/-- Nothing is closed, and nothing has reported. -/
theorem Listed.stay (h : Listed readEnd ends cs c) (hpipes : c'.enemyPipes = c.enemyPipes)
    (hisOpen : c'.isOpen = c.isOpen) (hshut : c'.shut readEnd = c.shut readEnd)
    (hreported : reported new = []) (hclosed : Roncevaux.closed new = [])
    (halive : c'.aliveEnemies = if ended new then 0 else c.aliveEnemies)
    (hrange : ∀ i, c'.phase = .closing i → i ≤ c'.aliveEnemies) :
    Listed readEnd ends (cs ++ new) c' where
  perm := hpipes ▸ h.perm
  gone := by rw [reported_append, hreported, List.append_nil, hpipes]; exact h.gone
  alive := by
    rw [halive, h.alive, reported_append, hreported, List.append_nil, ended_append]
    cases ended cs <;> cases ended new <;> rfl
  closed := by
    rw [closed_append, reported_append, hreported, hclosed, hshut, List.append_nil,
      List.append_nil]
    exact h.closed
  isOpen fd hfd := by rw [hisOpen, closed_append, hclosed, List.append_nil]; exact h.isOpen fd hfd
  range := hrange

omit [DecidableEq D] in
theorem shut_of_fights (h : c.phase.fights = true) : c.shut readEnd = [] := by
  unfold Child.shut
  split
  · rename_i hphase
    rw [hphase] at h
    cases h
  · rename_i hphase
    rw [hphase] at h
    cases h
  · rfl

omit [DecidableEq D] in
/-- The same, before the loop at the end. -/
theorem Listed.goOn (h : Listed readEnd ends cs c) (hfights : c.phase.fights = true)
    (hfights' : c'.phase.fights = true) (hpipes : c'.enemyPipes = c.enemyPipes)
    (hisOpen : c'.isOpen = c.isOpen) (hreported : reported new = [])
    (hclosed : Roncevaux.closed new = [])
    (halive : c'.aliveEnemies = if ended new then 0 else c.aliveEnemies) :
    Listed readEnd ends (cs ++ new) c' := by
  refine h.stay hpipes hisOpen ?_ hreported hclosed halive fun i hi => ?_
  · rw [shut_of_fights hfights, shut_of_fights hfights']
  · rw [hi] at hfights'
    cases hfights'

omit [DecidableEq D] in
/-- How many have reported, and how many have not. -/
theorem Listed.count (h : Listed readEnd ends cs c) :
    (writeEnds c.enemyPipes).length = ends.length ∧ (reported cs).length ≤ ends.length := by
  have hlen := h.perm.length_eq
  have hgone := congrArg List.length h.gone
  rw [List.length_drop, List.length_reverse] at hgone
  exact ⟨hlen, by omega⟩

omit [DecidableEq D] in
/-- The living are among those that have not reported. -/
theorem Listed.alive_le (h : Listed readEnd ends cs c) :
    c.aliveEnemies ≤ ends.length - (reported cs).length := by
  rw [h.alive]
  split
  · exact Nat.zero_le _
  · exact Nat.le_refl _

omit [DecidableEq D] in
/-- A write end that has reported is not one of the living. -/
theorem Listed.notMem_reported (h : Listed readEnd ends cs c) (hnodup : ends.Nodup)
    (hi : i < c.aliveEnemies) (hfd : (writeEnds c.enemyPipes)[i]? = some fd) :
    fd ∉ reported cs := by
  intro hrep
  have hle := h.alive_le
  have hws := h.perm.nodup_iff.mpr hnodup
  rw [← List.take_append_drop (ends.length - (reported cs).length) (writeEnds c.enemyPipes),
    List.nodup_append'] at hws
  refine hws.2.2 ?_ (by rw [h.gone]; exact List.mem_reverse.mpr hrep)
  exact List.mem_of_getElem? (i := i) (by rw [List.getElem?_take_of_lt (by omega)]; exact hfd)

/-- An enemy is struck out. -/
theorem Listed.strikeOut (h : Listed readEnd ends cs c) (hphase : c.phase = .striking)
    (hi : i < c.aliveEnemies) (hfd : (writeEnds c.enemyPipes)[i]? = some fd)
    (hreported : reported new = [fd]) (hclosed : Roncevaux.closed new = [fd])
    (hended : ended new = false) :
    Listed readEnd ends (cs ++ new) ((c.close fd).strikeOut i) := by
  obtain ⟨hlen, hle⟩ := h.count
  have halive := h.alive
  have hended' : ended cs = false := by
    rw [← Bool.not_eq_true]
    intro he
    rw [if_pos he] at halive
    omega
  rw [hended', if_neg (by simp)] at halive
  have hk : (c.aliveEnemies - 1) + 1 = c.aliveEnemies := by omega
  have hends : writeEnds ((c.close fd).strikeOut i).enemyPipes =
      swap (writeEnds c.enemyPipes) i (c.aliveEnemies - 1) := writeEnds_swap ..
  have hnew : ends.length - (reported (cs ++ new)).length = c.aliveEnemies - 1 := by
    rw [reported_append, hreported, List.length_append, List.length_singleton]
    omega
  constructor
  case perm => rw [hends]; exact (swap_perm _ _ _).trans h.perm
  case gone =>
    rw [hends, hnew, drop_swap_last hfd (by omega) (by omega), hk, halive, h.gone,
      reported_append, hreported, List.reverse_append, List.reverse_singleton,
      List.singleton_append]
  case alive =>
    rw [ended_append, hended', hended, hnew]
    rfl
  case closed =>
    have hshut : c.shut readEnd = [] := by rw [Child.shut, hphase]
    have hshut' : ((c.close fd).strikeOut i).shut readEnd = [] := by
      rw [Child.shut, Child.strikeOut, Child.close, hphase]
    rw [closed_append, reported_append, h.closed, hshut, hshut', hclosed, hreported,
      List.append_nil, List.append_nil]
  case isOpen =>
    intro e he
    rw [closed_append, hclosed, List.mem_append, List.mem_singleton, ← h.isOpen e he]
    change Function.update c.isOpen fd false e = false ↔ _
    by_cases hefd : e = fd
    · simp [hefd]
    · simp [hefd]
  case range =>
    intro j hj
    rw [Child.strikeOut, Child.close, hphase] at hj
    cases hj

/-- One descriptor is closed behind the loops. -/
theorem Listed.shutOne (h : Listed readEnd ends cs c) (hnew : new = [.close fd])
    (hpipes : c'.enemyPipes = c.enemyPipes) (halive : c'.aliveEnemies = c.aliveEnemies)
    (hisOpen : c'.isOpen = Function.update c.isOpen fd false)
    (hshut : c'.shut readEnd = c.shut readEnd ++ [fd])
    (hrange : ∀ i, c'.phase = .closing i → i ≤ c'.aliveEnemies) :
    Listed readEnd ends (cs ++ new) c' := by
  subst hnew
  have hreported : reported [Call.close fd] = [] := rfl
  have hclosed : Roncevaux.closed [Call.close fd] = [fd] := rfl
  constructor
  case perm => exact hpipes ▸ h.perm
  case gone => rw [reported_append, hreported, List.append_nil, hpipes]; exact h.gone
  case alive =>
    rw [halive, h.alive, reported_append, hreported, List.append_nil, ended_append]
    cases ended cs <;> rfl
  case closed =>
    rw [closed_append, reported_append, hreported, hclosed, hshut, List.append_nil, h.closed,
      List.append_assoc]
  case isOpen =>
    intro e he
    rw [hisOpen, closed_append, hclosed, List.mem_append, List.mem_singleton, ← h.isOpen e he]
    by_cases hefd : e = fd
    · simp [hefd]
    · simp [hefd]
  case range => exact hrange

/-- What an attack does. -/
theorem Listed.strike (h : Listed readEnd ends cs c) (hphase : c.phase = .striking)
    (hpos : 0 < c.aliveEnemies) (hstrike : c.strike attack g = (new, c')) :
    Listed readEnd ends (cs ++ new) c' := by
  have hfights : c.phase.fights = true := by rw [hphase]; rfl
  have hlt : g.enemy % c.aliveEnemies < c.aliveEnemies := Nat.mod_lt _ hpos
  unfold Child.strike at hstrike
  dsimp only at hstrike
  split at hstrike
  · rename_i d fd hd hfd
    rw [← writeEnds_getElem?] at hfd
    split at hstrike
    · cases hstrike
      exact h.goOn hfights rfl rfl rfl rfl rfl rfl
    · cases hstrike
      exact h.strikeOut hphase hlt hfd rfl rfl rfl
    · cases hstrike
      exact h.goOn hfights rfl rfl rfl rfl rfl rfl
  · cases hstrike
    exact h.goOn hfights rfl rfl rfl rfl rfl rfl

omit [DecidableEq D] in
/-- What a `read` does. -/
theorem Listed.hear (h : Listed readEnd ends cs c) (hphase : c.phase = .reading)
    (r : ReadResult) : Listed readEnd ends (cs ++ [.read r]) (c.hear r) := by
  have hfights : c.phase.fights = true := by rw [hphase]; rfl
  cases r with
  | again | eof | error => exact h.goOn hfights rfl rfl rfl rfl rfl rfl
  | byte buf =>
      unfold Child.hear
      dsimp only
      split
      · exact h.goOn hfights rfl rfl rfl rfl rfl rfl
      · exact h.goOn hfights hfights rfl rfl rfl rfl rfl

/-- **One step.** -/
theorem Listed.step (h : Listed readEnd ends cs c)
    (hturn : c.turn attack readEnd g = some (new, c')) : Listed readEnd ends (cs ++ new) c' := by
  unfold Child.turn at hturn
  cases hphase : c.phase with
  | outer | test =>
      have hfights : c.phase.fights = true := by rw [hphase]; rfl
      rw [hphase] at hturn
      cases hturn
      refine h.goOn hfights ?_ rfl rfl rfl rfl rfl
      dsimp only
      split <;> rfl
  | reading =>
      rw [hphase] at hturn
      cases hturn
      exact h.hear hphase g.read
  | striking =>
      rw [hphase] at hturn
      dsimp only at hturn
      split at hturn
      · injection hturn with hstrike
        exact h.strike hphase ‹_› hstrike
      · cases hturn
        exact h.goOn (by rw [hphase]; rfl) rfl rfl rfl rfl rfl rfl
  | closeOwn =>
      rw [hphase] at hturn
      cases hturn
      refine h.shutOne rfl rfl rfl rfl ?_ fun i hi => ?_
      · have hshut : c.shut readEnd = [] := shut_of_fights (by rw [hphase]; rfl)
        rw [hshut]
        rfl
      · cases hi
        exact Nat.zero_le _
  | closing i =>
      rw [hphase] at hturn
      dsimp only at hturn
      split at hturn
      · rename_i hlt
        obtain ⟨fd, hfd, heq⟩ := Option.map_eq_some_iff.mp hturn
        cases heq
        rw [← writeEnds_getElem?] at hfd
        refine h.shutOne rfl rfl rfl rfl ?_ fun j hj => ?_
        · rw [Child.shut, Child.shut, hphase]
          dsimp only [Child.close]
          rw [List.take_add_one, hfd, List.cons_append]
          rfl
        · cases hj
          exact hlt
      · cases hturn
        refine h.stay rfl rfl ?_ rfl rfl rfl fun j hj => by cases hj
        have hi : i = c.aliveEnemies := by
          have hle := h.range i hphase
          omega
        rw [Child.shut, Child.shut, hphase, hi]
  | returned | failed | crashed =>
      rw [hphase] at hturn
      cases hturn

/-! ### What follows -/

omit [DecidableEq D] in
/-- **The living.**  As long as there was no end of file, they are those that have not reported. -/
theorem Listed.mem_alive (h : Listed readEnd ends cs c) (hnodup : ends.Nodup)
    (hended : ended cs = false) :
    fd ∈ (writeEnds c.enemyPipes).take c.aliveEnemies ↔ fd ∈ ends ∧ fd ∉ reported cs := by
  have hws := h.perm.nodup_iff.mpr hnodup
  have halive := h.alive
  rw [hended, if_neg (by simp)] at halive
  have hsplit := List.take_append_drop c.aliveEnemies (writeEnds c.enemyPipes)
  have hdrop : (writeEnds c.enemyPipes).drop c.aliveEnemies = (reported cs).reverse := by
    rw [halive]
    exact h.gone
  rw [hdrop] at hsplit
  rw [← hsplit, List.nodup_append'] at hws
  rw [← h.perm.mem_iff]
  constructor
  · intro hfd
    exact ⟨List.mem_of_mem_take hfd, fun hrep => hws.2.2 hfd (List.mem_reverse.mpr hrep)⟩
  · rintro ⟨hfd, hnot⟩
    rw [← hsplit, List.mem_append, List.mem_reverse] at hfd
    exact hfd.resolve_right hnot

omit [DecidableEq D] in
/-- **The closed ones**, before the loop at the end. -/
theorem Listed.closed_iff (h : Listed readEnd ends cs c) (hfights : c.phase.fights = true)
    (hfd : fd ∈ ends) : c.isOpen fd = false ↔ fd ∈ reported cs := by
  rw [h.isOpen fd (List.mem_cons_of_mem _ hfd), h.closed, shut_of_fights hfights, List.append_nil]

omit [DecidableEq D] in
/-- **No descriptor is closed twice.** -/
theorem Listed.closed_nodup (h : Listed readEnd ends cs c) (hnodup : (readEnd :: ends).Nodup) :
    (Roncevaux.closed cs).Nodup := by
  obtain ⟨hread, hends⟩ := List.nodup_cons.mp hnodup
  have hws := h.perm.nodup_iff.mpr hends
  have hle := h.alive_le
  have hsplit := List.take_append_drop (ends.length - (reported cs).length) (writeEnds c.enemyPipes)
  rw [h.gone] at hsplit
  rw [← hsplit, List.nodup_append'] at hws
  obtain ⟨hlive, hgone, hdisj⟩ := hws
  have hreported : (reported cs).Nodup := List.nodup_reverse.mp hgone
  have hreadNot : readEnd ∉ writeEnds c.enemyPipes := fun hmem => hread (h.perm.mem_iff.mp hmem)
  -- those that are closed at the end are the read end, and some of the living
  have hshut : ∀ j, j ≤ c.aliveEnemies →
      (reported cs ++ readEnd :: (writeEnds c.enemyPipes).take j).Nodup := by
    intro j hj
    have hsub : ((writeEnds c.enemyPipes).take j).Sublist
        ((writeEnds c.enemyPipes).take (ends.length - (reported cs).length)) :=
      List.take_sublist_take_left (hj.trans hle)
    refine List.nodup_append'.mpr ⟨hreported, List.nodup_cons.mpr
      ⟨fun hmem => hreadNot (List.mem_of_mem_take hmem), hlive.sublist hsub⟩,
      fun fd hrep hmem => ?_⟩
    rcases List.mem_cons.mp hmem with rfl | hmem
    · refine hreadNot ?_
      rw [← hsplit]
      exact List.mem_append_right _ (List.mem_reverse.mpr hrep)
    · exact hdisj (hsub.subset hmem) (List.mem_reverse.mpr hrep)
  rw [h.closed, Child.shut]
  split
  · rename_i i hphase
    exact hshut i (h.range i hphase)
  · exact hshut _ (Nat.le_refl _)
  · rw [List.append_nil]
    exact hreported

omit [DecidableEq D] in
/-- The living are open. -/
theorem Listed.open_of_alive (h : Listed readEnd ends cs c) (hnodup : ends.Nodup)
    (hfights : c.phase.fights = true) (hi : i < c.aliveEnemies)
    (hfd : (writeEnds c.enemyPipes)[i]? = some fd) : c.isOpen fd = true := by
  have hmem : fd ∈ ends := h.perm.mem_iff.mp (List.mem_of_getElem? hfd)
  rw [← Bool.not_eq_false, h.closed_iff hfights hmem]
  exact h.notMem_reported hnodup hi hfd

/-- An attack writes to a descriptor that is open, and divides by 0 only if `attack` is -1. -/
theorem Listed.strike_calls (h : Listed readEnd ends cs c) (hnodup : ends.Nodup)
    (hphase : c.phase = .striking) (hpos : 0 < c.aliveEnemies)
    (hstrike : c.strike attack g = (new, c')) :
    (∀ fd d r, .write fd d r ∈ new → c.isOpen fd = true) ∧
      ∀ d, .rem d ∈ new → d = 0 → attack = -1 := by
  have hlt : g.enemy % c.aliveEnemies < c.aliveEnemies := Nat.mod_lt _ hpos
  have hrems : ∀ d : Int, (d = c.aliveEnemies ∨ d = attack + 1 ∨ d = 10) → d = 0 → attack = -1 := by
    intro d hd hzero
    omega
  unfold Child.strike at hstrike
  dsimp only at hstrike
  split at hstrike
  · rename_i d fd hd hfd
    rw [← writeEnds_getElem?] at hfd
    have hopen := h.open_of_alive hnodup (by rw [hphase]; rfl) hlt hfd
    split at hstrike <;> cases hstrike
    all_goals
      refine ⟨fun fd' d' r hmem => ?_, fun d' hmem => hrems d' ?_⟩
      · simp only [List.cons_append, List.nil_append, List.mem_cons, List.not_mem_nil, or_false,
          reduceCtorEq, false_or, Call.write.injEq] at hmem
        obtain ⟨rfl, -⟩ := hmem
        exact hopen
      · simp only [List.cons_append, List.nil_append, List.mem_cons, List.not_mem_nil, or_false,
          reduceCtorEq, false_or, Call.rem.injEq] at hmem
        tauto
  · cases hstrike
    refine ⟨by simp, fun d' hmem => hrems d' ?_⟩
    simp only [List.mem_cons, List.not_mem_nil, or_false, Call.rem.injEq] at hmem
    tauto

/-- **What is called in a step**: no write to a descriptor that is closed, and no division by 0. -/
theorem Listed.calls (h : Listed readEnd ends cs c) (hnodup : ends.Nodup)
    (hturn : c.turn attack readEnd g = some (new, c')) :
    (∀ fd d r, .write fd d r ∈ new → c.isOpen fd = true) ∧
      ∀ d, .rem d ∈ new → d = 0 → attack = -1 := by
  unfold Child.turn at hturn
  cases hphase : c.phase with
  | outer | test | closeOwn | reading =>
      rw [hphase] at hturn
      cases hturn
      exact ⟨by simp, by simp⟩
  | striking =>
      rw [hphase] at hturn
      dsimp only at hturn
      split at hturn
      · injection hturn with hstrike
        exact h.strike_calls hnodup hphase ‹_› hstrike
      · cases hturn
        exact ⟨by simp, by simp⟩
  | closing i =>
      rw [hphase] at hturn
      dsimp only at hturn
      split at hturn
      · obtain ⟨fd, hfd, heq⟩ := Option.map_eq_some_iff.mp hturn
        cases heq
        exact ⟨by simp, by simp⟩
      · cases hturn
        exact ⟨by simp, by simp⟩
  | returned | failed | crashed =>
      rw [hphase] at hturn
      cases hturn

/-! ### The inner loop -/

/-- From one turn of the inner loop to the next an enemy is struck out. -/
theorem turn_striking (hphase : c.phase = .striking) (hphase' : c'.phase = .striking)
    (hturn : c.turn attack readEnd g = some (new, c')) : c'.aliveEnemies + 1 = c.aliveEnemies := by
  unfold Child.turn at hturn
  rw [hphase] at hturn
  dsimp only at hturn
  split at hturn
  · rename_i hpos
    injection hturn with hstrike
    unfold Child.strike at hstrike
    dsimp only at hstrike
    split at hstrike
    · split at hstrike
      · cases hstrike
        cases hphase'
      · cases hstrike
        exact Nat.succ_pred_eq_of_pos hpos
      · cases hstrike
        cases hphase'
    · cases hstrike
      cases hphase'
  · cases hturn
    cases hphase'

variable {tr : List (Move (Child D) (List (Call D)))}

/-- **The inner loop ends**: it can go on at every turn, and makes no more turns than there are
enemies, and one. -/
theorem strikes_end (hphase : c.phase = .striking) (r : Run (Works attack readEnd) c tr c')
    (hstay : ∀ m ∈ tr, m.after.phase = .striking) : tr.length ≤ c.aliveEnemies := by
  have hcount : c'.phase = .striking ∧ tr.length + c'.aliveEnemies = c.aliveEnemies := by
    induction r with
    | refl => exact ⟨hphase, Nat.zero_add _⟩
    | @snoc t u tr l r h ih =>
        obtain ⟨hall, hlast⟩ := List.forall_mem_append.mp hstay
        obtain ⟨ht, hsum⟩ := ih hall
        obtain ⟨g, hturn⟩ := h
        have hu : u.phase = .striking := hlast _ (List.mem_singleton_self _)
        have hone := turn_striking ht hu hturn
        rw [List.length_append, List.length_singleton]
        exact ⟨hu, by omega⟩
  omega

/-- It can go on at every turn. -/
theorem turn_of_striking (attack : Int) (readEnd : D) (hphase : c.phase = .striking) (g : Chance) :
    ∃ new c', c.turn attack readEnd g = some (new, c') := by
  unfold Child.turn
  rw [hphase]
  dsimp only
  split <;> exact ⟨_, _, rfl⟩

/-! ### Every run -/

omit [DecidableEq D] in
theorem calls_snoc (m : Move (Child D) (List (Call D))) :
    calls (tr ++ [m]) = calls tr ++ m.label := by
  rw [calls, List.flatMap_append, List.flatMap_singleton]
  rfl

theorem listed_run (h : Listed readEnd ends [] c) (hnodup : ends.Nodup)
    (r : Run (Works attack readEnd) c tr c') :
    Listed readEnd ends (calls tr) c' ∧ ∀ m ∈ tr,
      (∀ fd d res, .write fd d res ∈ m.label → m.before.isOpen fd = true) ∧
        ∀ d, .rem d ∈ m.label → d = 0 → attack = -1 := by
  induction r with
  | refl => exact ⟨h, by simp⟩
  | @snoc t u tr l r hstep ih =>
      obtain ⟨ht, hmoves⟩ := ih
      obtain ⟨g, hturn⟩ := hstep
      rw [calls_snoc]
      exact ⟨ht.step hturn, forall_mem_snoc hmoves (ht.calls hnodup hturn)⟩

/-- **The list of enemies.**  For any number of enemies, whatever the calls return and whatever is
drawn: before the loop at the end, and as long as no end of file was read, the first `aliveEnemies`
pairs hold the write ends that have not reported `EPIPE`, each once, and the others those that are
closed; after an end of file no enemy counts as alive, and what is closed is what has reported,
which the last pairs hold.  No write goes to a descriptor that is closed, none is closed twice,
nothing is divided by 0 unless `attack` is -1, and the inner loop ends. -/
theorem enemyList_law (attack hp : Int) (readEnd : D) (fds : List D) (n : Nat) (isOpen : D → Bool)
    (hlen : fds.length = 2 * n) (hnodup : (readEnd :: writeEnds fds).Nodup)
    (hopen : ∀ fd ∈ readEnd :: writeEnds fds, isOpen fd = true)
    (tr : List (Move (Child D) (List (Call D)))) (c : Child D)
    (r : Run (Works attack readEnd) (childWork hp fds n isOpen) tr c) :
    (c.phase.fights = true → ended (calls tr) = false →
      ((writeEnds c.enemyPipes).take c.aliveEnemies).Nodup ∧
      (∀ fd, fd ∈ (writeEnds c.enemyPipes).take c.aliveEnemies ↔
        fd ∈ writeEnds fds ∧ fd ∉ reported (calls tr)) ∧
      ∀ fd, fd ∈ (writeEnds c.enemyPipes).drop c.aliveEnemies ↔
        fd ∈ writeEnds fds ∧ c.isOpen fd = false) ∧
    (ended (calls tr) = true → c.aliveEnemies = 0 ∧
      (writeEnds c.enemyPipes).drop (n - (reported (calls tr)).length)
        = (reported (calls tr)).reverse ∧
      (c.phase.fights = true → ∀ fd ∈ writeEnds fds,
        c.isOpen fd = false ↔ fd ∈ reported (calls tr))) ∧
    (∀ m ∈ tr, ∀ fd d res, .write fd d res ∈ m.label → m.before.isOpen fd = true) ∧
    (closed (calls tr)).Nodup ∧
    (attack ≠ -1 → .rem 0 ∉ calls tr) ∧
    (c.phase = .striking → (∀ g, ∃ new c', c.turn attack readEnd g = some (new, c')) ∧
      ∀ tr' c', Run (Works attack readEnd) c tr' c' → (∀ m ∈ tr', m.after.phase = .striking) →
        tr'.length ≤ c.aliveEnemies) := by
  have hends : (writeEnds fds).length = n := writeEnds_length hlen
  have hws := (List.nodup_cons.mp hnodup).2
  have hstart : Listed readEnd (writeEnds fds) [] (childWork hp fds n isOpen) :=
    listed_childWork hends hopen
  obtain ⟨hlisted, hmoves⟩ := listed_run hstart hws r
  have halive := hlisted.alive
  refine ⟨fun hfights hended => ⟨?_, fun fd => hlisted.mem_alive hws hended, fun fd => ?_⟩,
    fun hended => ⟨?_, ?_, fun hfights fd hfd => hlisted.closed_iff hfights hfd⟩,
    fun m hm => (hmoves m hm).1, hlisted.closed_nodup hnodup, fun hattack hzero => ?_,
    fun hphase => ⟨turn_of_striking attack readEnd hphase, fun tr' c' r' => strikes_end hphase r'⟩⟩
  · exact (hlisted.perm.nodup_iff.mpr hws).sublist (List.take_sublist _ _)
  · rw [hended, if_neg (by simp)] at halive
    rw [halive, hlisted.gone, List.mem_reverse]
    constructor
    · intro hrep
      have hmem : fd ∈ (writeEnds c.enemyPipes).drop
          ((writeEnds fds).length - (reported (calls tr)).length) := by
        rw [hlisted.gone]
        exact List.mem_reverse.mpr hrep
      have hfd := hlisted.perm.mem_iff.mp (List.mem_of_mem_drop hmem)
      exact ⟨hfd, (hlisted.closed_iff hfights hfd).mpr hrep⟩
    · rintro ⟨hfd, hclosed⟩
      exact (hlisted.closed_iff hfights hfd).mp hclosed
  · rw [halive, if_pos hended]
  · rw [← hends]
    exact hlisted.gone
  · obtain ⟨m, hm, hrem⟩ := List.mem_flatMap.mp hzero
    exact hattack ((hmoves m hm).2 0 hrem rfl)

/-- One enemy, who is alive when an end of file is read: nobody is among the living then, and the
write end is open. -/
theorem eof_hides : ∃ (tr : List (Move (Child Nat) (List (Call Nat)))) (c : Child Nat),
    Run (Works 5 2) (childWork 3 [0, 1] 1 fun _ => true) tr c ∧ c.phase.fights = true ∧
      reported (calls tr) = [] ∧ (writeEnds c.enemyPipes).take c.aliveEnemies = [] ∧
      (writeEnds c.enemyPipes).drop c.aliveEnemies = [1] ∧ c.isOpen 1 = true ∧
      ¬ ∀ fd, fd ∈ (writeEnds c.enemyPipes).take c.aliveEnemies ↔
        fd ∈ writeEnds [0, 1] ∧ fd ∉ reported (calls tr) := by
  have r := (Run.one ⟨⟨.eof, 0, 0, .ok⟩, rfl⟩ :
    Run (Works 5 2) (childWork 3 [0, 1] 1 fun _ => true) _ _).snoc ⟨⟨.eof, 0, 0, .ok⟩, rfl⟩
  refine ⟨_, _, r, rfl, rfl, rfl, rfl, rfl, fun h => ?_⟩
  have hmem := (h 1).mpr (by decide)
  cases hmem

/-- Of three enemies the first and then the last are gone when they are attacked, and the other is
struck. -/
theorem enemyList_law_three : ∃ (tr : List (Move (Child Nat) (List (Call Nat)))) (c : Child Nat),
    Run (Works 5 6) (childWork 3 [0, 1, 2, 3, 4, 5] 3 fun _ => true) tr c ∧
      reported (calls tr) = [1, 5] ∧ writeEnds c.enemyPipes = [3, 5, 1] ∧
      (∀ fd, fd ∈ (writeEnds c.enemyPipes).take c.aliveEnemies ↔
        fd ∈ writeEnds [0, 1, 2, 3, 4, 5] ∧ fd ∉ reported (calls tr)) ∧
      (∀ fd, fd ∈ (writeEnds c.enemyPipes).drop c.aliveEnemies ↔
        fd ∈ writeEnds [0, 1, 2, 3, 4, 5] ∧ c.isOpen fd = false) ∧
      (closed (calls tr)).Nodup ∧ .rem 0 ∉ calls tr := by
  have r := (((((Run.one ⟨⟨.again, 0, 0, .epipe⟩, rfl⟩ :
    Run (Works 5 6) (childWork 3 [0, 1, 2, 3, 4, 5] 3 fun _ => true) _ _).snoc
    ⟨⟨.again, 0, 0, .epipe⟩, rfl⟩).snoc ⟨⟨.again, 0, 0, .epipe⟩, rfl⟩).snoc
    ⟨⟨.again, 0, 0, .epipe⟩, rfl⟩).snoc ⟨⟨.again, 0, 0, .epipe⟩, rfl⟩).snoc
    ⟨⟨.again, 0, 4, .ok⟩, rfl⟩
  obtain ⟨hpairs, -, -, hclosed, hrem, -⟩ := enemyList_law 5 3 6 [0, 1, 2, 3, 4, 5] 3
    (fun _ => true) rfl (by decide) (fun _ _ => rfl) _ _ r
  obtain ⟨-, halive, hgone⟩ := hpairs rfl rfl
  exact ⟨_, _, r, rfl, rfl, halive, hgone, hclosed, hrem (by decide)⟩

end Sop2.Roncevaux
