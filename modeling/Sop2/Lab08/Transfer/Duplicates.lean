import Mathlib.Data.List.DropRight
import Sop2.Lab08.Transfer.Client

/-!
# Lab08 — Transfer — duplicates

What the server does with a further copy of a datagram it has already accepted and printed.

While the address keeps its entry of `con[]`, a copy is idempotent: nothing is printed, the table
stays as it is, and the copy is answered.  The entry is given up with the last chunk, though, and
a copy that comes after that is taken for the start of a new file: a copy of the only chunk of a
file is printed once more (`one_chunk_printed_twice`), a copy of a later chunk takes an entry and
is not answered.  `duplicate_idempotent`: along any run a copy is idempotent exactly when the
address still holds the entry, which is when the chunk is among those printed for the address
since its last `Last Part`.
-/

namespace Sop2.Transfer
open Support

variable {A : Type*} [DecidableEq A]

/-- `d` from `a` was accepted and printed in one of the turns `ls`. -/
def Accepted (a : A) (d : List UInt8) (ls : List (Turned A)) : Prop :=
  ∃ l ∈ ls, l.addr = a ∧ l.dgram = d ∧ l.printed ≠ none

/-- A copy of `d` from `a` prints nothing, leaves the table as it is and is answered with its own
number. -/
def Idempotent (s : Server A) (a : A) (d : List UInt8) : Prop :=
  ∃ buf reply, serve .sent s a d = .loop ⟨s.con, buf⟩ none (some reply) ∧
    reply.take 4 = d.take 4

/-- The address has an entry, which is past the chunk `d` and can still count. -/
def Held (s : Server A) (a : A) (d : List UInt8) : Prop :=
  ∃ k, view s.con a = some k ∧ int32Be d ≤ k ∧ k < int32Max

/-- `ps` after the last `Last Part`. -/
def sinceLast (ps : List Printed) : List Printed := ps.rtakeWhile fun p => ! p.lastPart

/-- The turns of a run. -/
def served (tr : List (Move (Server A) (Turned A))) : List (Turned A) := tr.map Move.label

/-- The entry of an address counts the chunks printed since its last `Last Part`, which are
numbered from 1 on; and only chunks from number 1 on have been accepted. -/
structure Counted (a : A) (ls : List (Turned A)) (s : Server A) : Prop where
  unique : Unique s.con
  view : (view s.con a).getD 0 = (sinceLast (printedFor a ls)).length
  max : ((sinceLast (printedFor a ls)).length : Int) ≤ int32Max
  numbers : ∀ n : Int, (∃ p ∈ sinceLast (printedFor a ls), p.chunkNo = n) ↔
    1 ≤ n ∧ n ≤ (sinceLast (printedFor a ls)).length
  positive : ∀ d, 4 ≤ d.length → Accepted a d ls → 1 ≤ int32Be d

theorem int32Be_receive {d : List UInt8} (h : 4 ≤ d.length) (buf : List UInt8) :
    int32Be (receive buf d) = int32Be d :=
  int32Be_append h _

theorem sinceLast_concat (ps : List Printed) (p : Printed) :
    sinceLast (ps ++ [p]) = if p.lastPart then [] else sinceLast ps ++ [p] := by
  rw [sinceLast, List.rtakeWhile_concat]
  cases p.lastPart <;> rfl

variable {a : A} {s s' : Server A} {ls : List (Turned A)} {l : Turned A}

/-- A turn for another address. -/
theorem Counted.step_other (hs : Counted a ls s) (h : Serves s l s') (hl : l.addr ≠ a) :
    Counted a (ls ++ [l]) s' := by
  obtain ⟨-, hu, hv, -⟩ := serve_spec hs.unique h.turn
  have hp : printedFor a (ls ++ [l]) = printedFor a ls := by
    rw [printedFor_append, printedFor_other hl, List.append_nil]
  refine ⟨hu, ?_, ?_, ?_, fun d hd ⟨m, hm, ha, hmd⟩ => ?_⟩
  · rw [hp, hv a (Ne.symm hl)]; exact hs.view
  · rw [hp]; exact hs.max
  · rw [hp]; exact hs.numbers
  · rcases List.mem_append.mp hm with hm | hm
    · exact hs.positive d hd ⟨m, hm, ha, hmd⟩
    · obtain rfl := List.mem_singleton.mp hm
      exact absurd ha hl

/-- A turn for the address itself. -/
theorem Counted.step_self (hs : Counted l.addr ls s) (h : Serves s l s') :
    Counted l.addr (ls ++ [l]) s' := by
  obtain ⟨-, hu, -, ht, hmax, -⟩ := serve_spec hs.unique h.turn
  have hself := printedFor_self l
  have hpos : ∀ d, 4 ≤ d.length → Accepted l.addr d (ls ++ [l]) → 1 ≤ int32Be d := by
    rintro d hd ⟨m, hm, ha, rfl, hmp⟩
    rcases List.mem_append.mp hm with hm | hm
    · exact hs.positive _ hd ⟨m, hm, ha, rfl, hmp⟩
    · obtain rfl := List.mem_singleton.mp hm
      obtain ⟨p, hp⟩ := Option.ne_none_iff_exists'.mp hmp
      rw [hp] at ht
      obtain ⟨rfl, hno, -⟩ := ht.accept_of
      have := hs.view
      rw [← int32Be_receive hd s.buf]
      change int32Be (receive s.buf m.dgram) = _ at hno
      omega
  cases hp : l.printed with
  | none =>
      rw [hp] at ht hself
      have hps : printedFor l.addr (ls ++ [l]) = printedFor l.addr ls := by
        rw [printedFor_append, hself, Option.toList_none, List.append_nil]
      refine ⟨hu, ?_, ?_, ?_, hpos⟩
      · rw [hps, ht.getD_of]; exact hs.view
      · rw [hps]; exact hs.max
      · rw [hps]; exact hs.numbers
  | some p =>
      rw [hp] at ht hself
      obtain ⟨-, hno, hv'⟩ := ht.accept_of
      have hps : sinceLast (printedFor l.addr (ls ++ [l])) =
          if p.lastPart then [] else sinceLast (printedFor l.addr ls) ++ [p] := by
        rw [printedFor_append, hself, Option.toList_some, sinceLast_concat]
      have hview := hs.view
      have hle := hs.max
      cases hlast : p.lastPart with
      | true =>
          -- the entry is given up
          rw [hlast, if_pos rfl] at hps hv'
          refine ⟨hu, by rw [hps, hv']; rfl, by rw [hps]; decide, fun n => ?_, hpos⟩
          rw [hps]
          simp only [List.not_mem_nil, false_and, exists_false, List.length_nil, false_iff]
          omega
      | false =>
          rw [hlast, if_neg (by simp)] at hps hv'
          have hne : ((sinceLast (printedFor l.addr ls)).length : Int) ≠ int32Max := fun e => by
            cases hva : Transfer.view s.con l.addr with
            | none => rw [hva] at hview; rw [← hview] at e; exact absurd e (by decide)
            | some k => rw [hva] at hview hmax; exact hmax (by rw [← e, ← hview]; rfl)
          refine ⟨hu, ?_, ?_, fun n => ?_, hpos⟩
          · rw [hps, hv', List.length_append]; simp; omega
          · rw [hps, List.length_append]; simp; omega
          · rw [hps]
            simp only [List.mem_append, List.mem_singleton, or_and_right, exists_or,
              exists_eq_left, hs.numbers, List.length_append, List.length_singleton]
            omega

/-- One turn of the server keeps the count. -/
theorem Counted.step (hs : Counted a ls s) (h : Serves s l s') : Counted a (ls ++ [l]) s' := by
  by_cases hl : l.addr = a
  · subst hl; exact hs.step_self h
  · exact hs.step_other h hl

theorem counted_run {s₀ : Server A} (hcon : ∀ i, (s₀.con i).free = true)
    {tr : List (Move (Server A) (Turned A))} (r : Run Serves s₀ tr s) :
    Counted a (served tr) s := by
  induction r with
  | refl =>
      refine ⟨unique_of_free hcon, by rw [view_of_free hcon]; rfl, ?_, fun n => ?_, ?_⟩
      · simp [served, printedFor, sinceLast, int32Max]
      · simp [served, printedFor, sinceLast]
        omega
      · rintro d - ⟨l, hl, -⟩
        cases hl
  | snoc _ h ih =>
      rw [served, List.map_append]
      exact ih.step h

/-! ### Further copies -/

/-- A copy of a chunk is idempotent exactly when its address holds an entry that is past it. -/
theorem idempotent_iff_held (hu : Unique s.con) {d : List UInt8} (hd : 4 ≤ d.length)
    (hmax : ∀ k, view s.con a = some k → k ≤ int32Max) : Idempotent s a d ↔ Held s a d := by
  constructor
  · rintro ⟨buf, reply, h, -⟩
    obtain ⟨-, -, -, ht, hne, -⟩ := serve_spec hu h
    obtain ⟨hv, hle⟩ := ht.again_of
    have hk : (view s.con a).getD 0 ≠ int32Max := fun e => hne (by rw [← e]; exact hv)
    refine ⟨_, hv, by rwa [int32Be_receive hd] at hle, ?_⟩
    have := hmax _ hv
    omega
  · rintro ⟨k, hv, hle, hlt⟩
    refine ⟨_, _, serve_again hu hv (by omega) (by rwa [int32Be_receive hd]), ?_⟩
    rw [List.take_take, receive, List.take_append_of_le_length (by simp only [maxBuf]; omega)]
    rfl

/-- An accepted chunk is one that the entry of its address is past exactly when it is among those
printed for the address since its last `Last Part`. -/
theorem held_iff_printed (hs : Counted a ls s) {d : List UInt8} (hd : 4 ≤ d.length)
    (hacc : Accepted a d ls) :
    Held s a d ↔ (∃ p ∈ sinceLast (printedFor a ls), p.chunkNo = int32Be d) ∧
      ((sinceLast (printedFor a ls)).length : Int) < int32Max := by
  have hpos := hs.positive d hd hacc
  have hview := hs.view
  rw [hs.numbers]
  constructor
  · rintro ⟨k, hv, hle, hlt⟩
    rw [hv, Option.getD_some] at hview
    omega
  · rintro ⟨⟨-, hle⟩, hlt⟩
    cases hv : view s.con a with
    | none => rw [hv] at hview; simp at hview; omega
    | some k =>
        rw [hv, Option.getD_some] at hview
        exact ⟨k, hv, by omega, by omega⟩

/-- **Further copies of a datagram.**  In every state of every run of the server, a copy of a
datagram it has accepted and printed is idempotent if and only if the address still holds its
entry; which it does if and only if the chunk is among those printed for the address since its
last `Last Part`, and the chunk number has not reached the largest `int32_t`. -/
theorem duplicate_idempotent {s₀ : Server A} (hcon : ∀ i, (s₀.con i).free = true)
    {tr : List (Move (Server A) (Turned A))} (r : Run Serves s₀ tr s) {d : List UInt8}
    (hd : 4 ≤ d.length) (hacc : Accepted a d (served tr)) :
    (Idempotent s a d ↔ Held s a d) ∧
      (Held s a d ↔ (∃ p ∈ sinceLast (printedFor a (served tr)), p.chunkNo = int32Be d) ∧
        ((sinceLast (printedFor a (served tr))).length : Int) < int32Max) := by
  have hs := counted_run (a := a) hcon r
  refine ⟨idempotent_iff_held hs.unique hd fun k hk => ?_, held_iff_printed hs hd hacc⟩
  have hview := hs.view
  rw [hk, Option.getD_some] at hview
  rw [hview]
  exact hs.max

/-! ### Copies before and after the last chunk -/

/-- The first datagram of a file of two chunks, the second of them empty. -/
def firstOfTwo : List UInt8 := dgram (List.replicate 568 97) 0

/-- The turn of the server that accepts it. -/
def firstOfTwoTurn : Turned Unit :=
  ⟨(), firstOfTwo, some (part (List.replicate 568 97) 0), some (firstOfTwo.take maxBuf)⟩

set_option maxRecDepth 8000 in
/-- A copy of the first of two chunks is idempotent. -/
theorem duplicate_idempotent_first :
    ∃ (tr : List (Move (Server Unit) (Turned Unit))) (s : Server Unit),
      Run Serves freshServer tr s ∧ Accepted () firstOfTwo (served tr) ∧
        Idempotent s () firstOfTwo := by
  obtain ⟨server, hserves⟩ : ∃ server, Serves freshServer firstOfTwoTurn server :=
    ⟨_, by decide, rfl⟩
  have r := Run.one hserves
  have hacc : Accepted () firstOfTwo (served [⟨freshServer, firstOfTwoTurn, server⟩]) :=
    ⟨firstOfTwoTurn, List.mem_singleton.mpr rfl, rfl, rfl, by simp [firstOfTwoTurn]⟩
  have h := duplicate_idempotent (a := ()) (fun _ => rfl) r (by decide) hacc
  have hps : sinceLast (printedFor () (served [⟨freshServer, firstOfTwoTurn, server⟩])) =
      [part (List.replicate 568 97) 0] := rfl
  rw [hps] at h
  exact ⟨_, _, r, hacc, h.1.mpr (h.2.mpr ⟨⟨_, List.mem_singleton.mpr rfl, rfl⟩, by decide⟩)⟩

set_option maxRecDepth 8000 in
/-- The only chunk of a file of one byte: its first copy is accepted and printed, and so is the
next one, with nothing else received in between. -/
theorem one_chunk_printed_twice :
    ∃ (tr : List (Move (Server Unit) (Turned Unit))) (s : Server Unit),
      Run Serves freshServer tr s ∧ (served tr).map Turned.dgram = [dgram [97] 0] ∧
        Accepted () (dgram [97] 0) (served tr) ∧ ¬ Idempotent s () (dgram [97] 0) ∧
        ∃ s' reply, serve .sent s () (dgram [97] 0) = .loop s' (some (part [97] 0)) reply := by
  have hserves : ∃ server, Serves freshServer ⟨(), dgram [97] 0, some (part [97] 0),
      some (dgram [97] 0)⟩ server ∧ ∃ s' reply,
        serve .sent server () (dgram [97] 0) = .loop s' (some (part [97] 0)) reply :=
    ⟨_, ⟨by decide, rfl⟩, _, _, rfl⟩
  obtain ⟨server, hserves, s', reply, hagain⟩ := hserves
  refine ⟨_, _, Run.one hserves, rfl, ⟨_, List.mem_singleton.mpr rfl, rfl, rfl, by simp⟩, ?_,
    s', reply, hagain⟩
  rintro ⟨buf, reply', h, -⟩
  rw [hagain] at h
  cases h

end Sop2.Transfer
