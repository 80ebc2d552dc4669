import Sop2.Lab07.Hre.Registration
import Sop2.Support.Decimal

/-!
# Lab07 — Hre — the broadcast

`election_broadcast_thread` of `sop-hre.c` beside the loop of `do_server`, and the end of `main`, which
prints the votes.  The thread looks at one elector after another while it has the mutex; an event that
is a vote waits for the mutex.  `SIGINT` is blocked in both threads but for the time that `do_server`
waits in `epoll_pwait`.

* `announcements`: what there is to tell when these are the votes.
* `Round`: what has been told since the mutex was taken.
* `broadcast_law`: what is told in each round, and what is printed at the end.
-/

namespace Sop2.Hre
open Support

/-! ### The lines -/

/-- `"Elector %d voted %d\n"`. -/
def lineText (i : Elector) (vote : Int) : List UInt8 :=
  [69, 108, 101, 99, 116, 111, 114, 32] ++ (printInt i.val ++
    ([32, 118, 111, 116, 101, 100, 32] ++ (printInt vote ++ [10])))

/-- What is sent of `message`. -/
def line (i : Elector) (vote : Int) : List UInt8 := cString (snprintf 256 (lineText i vote))

/-- The elector, if it has voted. -/
def said (votes : Elector → Int) (i : Elector) : Option (List UInt8) :=
  if 0 ≤ votes i then some (line i (votes i)) else none

/-- The first `k` electors that have voted. -/
def announced (votes : Elector → Int) (k : Nat) : List (List UInt8) :=
  ((List.finRange 7).take k).filterMap (said votes)

/-- All that have voted. -/
def announcements (votes : Elector → Int) : List (List UInt8) :=
  (List.finRange 7).filterMap (said votes)

/-! ### The program -/

/-- Where the thread is. -/
inductive Herald where
  /-- `while (do_work)`. -/
  | check
  /-- `sleep(1)`, and before the mutex. -/
  | asleep
  /-- With the mutex, and about to look at this elector. -/
  | telling (i : Nat)
  | gone
  deriving DecidableEq

/-- Where `main` is. -/
inductive Main where
  | serving
  | joining
  /-- About to look at this elector, for the last time. -/
  | printing (i : Nat)
  | done
  deriving DecidableEq

structure Election where
  loop : EventLoop.State Server
  doWork : Bool
  herald : Herald
  main : Main

namespace Election

def begin : Election := ⟨Hre.begin, true, .check, .serving⟩

/-- The votes in `electors[]`. -/
def votes (s : Election) (j : Elector) : Int := (s.loop.server.electors j).vote

inductive Label where
  | serve (l : EventLoop.Label Input)
  | sigint
  | main
  | printed (text : Option (List UInt8))
  | herald
  | lock
  | told (text : Option (List UInt8))
  | unlock

/-- One step of a thread.  An elector that has not voted is passed over. -/
inductive Step (sfd : Int) : Election → Label → Election → Prop where
  | wait {s : Election} (loop : EventLoop.State Server) (h : s.main = .serving)
      (hwork : s.doWork = true) (hs : (Hre.loop sfd).Step s.loop .wait loop) :
      Step sfd s (.serve .wait) { s with loop := loop }
  | event {s : Election} (fd : Int) (input : Input) (loop : EventLoop.State Server)
      (h : s.main = .serving) (hs : (Hre.loop sfd).Step s.loop (.event fd input) loop)
      (hmutex : ∀ i, s.herald = .telling i → { s with loop := loop }.votes = s.votes) :
      Step sfd s (.serve (.event fd input)) { s with loop := loop }
  /-- `EINTR`. -/
  | sigint {s : Election} (h : s.main = .serving) (hbatch : s.loop.batch = [])
      (hwork : s.doWork = true) : Step sfd s .sigint { s with doWork := false }
  | leave {s : Election} (h : s.main = .serving) (hbatch : s.loop.batch = [])
      (hwork : s.doWork = false) : Step sfd s .main { s with main := .joining }
  | join {s : Election} (h : s.main = .joining) (hgone : s.herald = .gone) :
      Step sfd s .main { s with main := .printing 0 }
  | print {s : Election} (i : Elector) (h : s.main = .printing i) :
      Step sfd s (.printed (said s.votes i)) { s with main := .printing (i + 1) }
  | finish {s : Election} (h : s.main = .printing 7) : Step sfd s .main { s with main := .done }
  | work {s : Election} (h : s.herald = .check) (hwork : s.doWork = true) :
      Step sfd s .herald { s with herald := .asleep }
  | stop {s : Election} (h : s.herald = .check) (hwork : s.doWork = false) :
      Step sfd s .herald { s with herald := .gone }
  | lock {s : Election} (h : s.herald = .asleep) : Step sfd s .lock { s with herald := .telling 0 }
  | tell {s : Election} (i : Elector) (h : s.herald = .telling i) :
      Step sfd s (.told (said s.votes i)) { s with herald := .telling (i + 1) }
  | unlock {s : Election} (h : s.herald = .telling 7) :
      Step sfd s .unlock { s with herald := .check }

end Election

open Election (Label)

/-- A run of the program. -/
abbrev Trace := List (Move Election Label)

/-- What the loop of `do_server` does. -/
def Election.Label.served : Label → Option (EventLoop.Label Input)
  | .serve l => some l
  | _ => none

def Election.Label.told? : Label → Option (List UInt8)
  | .told text => text
  | _ => none

def Election.Label.printed? : Label → Option (List UInt8)
  | .printed text => text
  | _ => none

/-- The run of the loop of `do_server`. -/
def served (tr : Trace) : List (Move (EventLoop.State Server) (EventLoop.Label Input)) :=
  tr.filterMap (Move.part Election.loop Election.Label.served)

/-- What the thread has told. -/
def told (tr : Trace) : List (List UInt8) := tr.filterMap fun m => m.label.told?

/-- What `main` has printed. -/
def printed (tr : Trace) : List (List UInt8) := tr.filterMap fun m => m.label.printed?

variable {sfd : Int} {s t : Election} {l : Label} {tr tr' : Trace} {votes : Elector → Int}

theorem served_append (tr tr' : Trace) : served (tr ++ tr') = served tr ++ served tr' :=
  List.filterMap_append ..

theorem told_append (tr tr' : Trace) : told (tr ++ tr') = told tr ++ told tr' :=
  List.filterMap_append ..

theorem printed_append (tr tr' : Trace) : printed (tr ++ tr') = printed tr ++ printed tr' :=
  List.filterMap_append ..

theorem told_one (s t : Election) (l : Label) : told [⟨s, l, t⟩] = l.told?.toList := by
  cases h : l.told? with
  | none => exact List.filterMap_cons_none h
  | some text => exact List.filterMap_cons_some h

theorem printed_one (s t : Election) (l : Label) : printed [⟨s, l, t⟩] = l.printed?.toList := by
  cases h : l.printed? with
  | none => exact List.filterMap_cons_none h
  | some text => exact List.filterMap_cons_some h

/-! ### The votes -/

theorem served_run (r : Run (Election.Step sfd) Election.begin tr s) :
    Run (loop sfd).Step begin (served tr) s.loop := by
  refine r.part (f := Election.loop) (g := Election.Label.served) fun h => ?_
  cases h with
  | wait loop h hwork hs => exact .inr ⟨.wait, rfl, hs⟩
  | event fd input loop h hs hmutex => exact .inr ⟨.event fd input, rfl, hs⟩
  | _ => exact .inl ⟨rfl, rfl⟩

/-- The votes are the last that were cast. -/
theorem votes_run (r : Run (Election.Step sfd) Election.begin tr s) :
    s.votes = lastVote (served tr) := funext (ballot (served_run r)).1.votes

theorem voteOf_range {msg : UInt8} (h : IsVote msg) : 0 ≤ voteOf msg ∧ voteOf msg ≤ 2 := by
  obtain ⟨hlow, hhigh⟩ := h
  rw [voteOf]
  omega

/-- A move keeps the vote, or it is a new one. -/
theorem voteOfMove_cases (j : Elector) (v : Int)
    (m : Move (EventLoop.State Server) (EventLoop.Label Input)) :
    voteOfMove j v m = v ∨ 0 ≤ voteOfMove j v m ∧ voteOfMove j v m ≤ 2 := by
  unfold voteOfMove
  split
  · split
    · rename_i hvote
      exact .inr (voteOf_range hvote.2)
    · exact .inl rfl
  · exact .inl rfl

variable {es es' : List (Move (EventLoop.State Server) (EventLoop.Label Input))}

/-- A vote is 0, 1 or 2. -/
theorem lastVote_range (es : List (Move (EventLoop.State Server) (EventLoop.Label Input)))
    (j : Elector) : lastVote es j = -1 ∨ 0 ≤ lastVote es j ∧ lastVote es j ≤ 2 := by
  induction es using List.reverseRecOn with
  | nil => exact .inl rfl
  | append_singleton es m ih =>
      rw [lastVote, List.foldl_append, ← lastVote, List.foldl_cons, List.foldl_nil]
      rcases voteOfMove_cases j (lastVote es j) m with heq | hrange
      · rw [heq]
        exact ih
      · exact .inr hrange

/-- **Whoever has voted** has voted for ever. -/
theorem lastVote_mono {j : Elector} (h : 0 ≤ lastVote es j) : 0 ≤ lastVote (es ++ es') j := by
  induction es' using List.reverseRecOn with
  | nil => rwa [List.append_nil]
  | append_singleton es' m ih =>
      rw [← List.append_assoc, lastVote, List.foldl_append, ← lastVote, List.foldl_cons,
        List.foldl_nil]
      rcases voteOfMove_cases j (lastVote (es ++ es') j) m with heq | hrange
      · rw [heq]
        exact ih
      · exact hrange.1

/-! ### A round -/

@[simp] theorem announced_zero (votes : Elector → Int) : announced votes 0 = [] := rfl

theorem announced_seven (votes : Elector → Int) : announced votes 7 = announcements votes := rfl

theorem announced_succ (votes : Elector → Int) (i : Elector) :
    announced votes (i + 1) = announced votes i ++ (said votes i).toList := by
  have hi : (List.finRange 7)[i.val]? = some i := by
    rw [List.getElem?_eq_getElem (by rw [List.length_finRange]; exact i.isLt), List.getElem_finRange]
    rfl
  rw [announced, List.take_add_one, hi, List.filterMap_append, ← announced]
  rfl

/-- The round that has begun with the move `k`, in which the first `i` electors have been told. -/
structure Round (before : Trace) (k : Move Election Label) (since : Trace) (i : Nat)
    (votes : Elector → Int) : Prop where
  label : k.label = .lock
  inside : ∀ m ∈ since, m.label ≠ .lock ∧ m.label ≠ .unlock
  cast : votes = lastVote (served before)
  told : told since = announced votes i

/-- The thread has told the first electors, and the votes are those with which the round began. -/
def InRound (tr : Trace) (s : Election) : Prop :=
  ∀ i, s.herald = .telling i →
    i ≤ 7 ∧ ∃ before k since, tr = before ++ k :: since ∧ Round before k since i s.votes

theorem inRound_run (r : Run (Election.Step sfd) Election.begin tr s) : InRound tr s := by
  induction r with
  | refl => exact fun i h => (by cases h)
  | @snoc t u tr l r h ih =>
      -- somebody else goes on
      have hsame : u.herald = t.herald → (∀ i, t.herald = .telling i → u.votes = t.votes) →
          l ≠ .lock → l ≠ .unlock → l.told? = none → InRound (tr ++ [⟨t, l, u⟩]) u := by
        intro hherald hvotes hlock hunlock htold i hi
        rw [hherald] at hi
        obtain ⟨hle, before, k, since, rfl, hr⟩ := ih i hi
        refine ⟨hle, before, k, since ++ [⟨t, l, u⟩], List.append_assoc .., hr.label,
          forall_mem_snoc hr.inside ⟨hlock, hunlock⟩, ?_, ?_⟩
        · rw [hvotes i hi, hr.cast]
        · rw [told_append, told_one, htold, Option.toList_none, List.append_nil, hr.told, hvotes i hi]
      have hother : ∀ {l' : Label} {a : Herald}, (∀ i, a ≠ .telling i) →
          InRound (tr ++ [⟨t, l', { t with herald := a }⟩]) { t with herald := a } :=
        fun ha i hi => absurd hi (ha i)
      cases h with
      | wait loop h hwork hs =>
          cases hs
          exact hsame rfl (fun _ _ => rfl) (fun h => by cases h) (fun h => by cases h) rfl
      | event fd input loop h hs hmutex =>
          exact hsame rfl hmutex (fun h => by cases h) (fun h => by cases h) rfl
      | sigint | leave | join | print | finish =>
          exact hsame rfl (fun _ _ => rfl) (fun h => by cases h) (fun h => by cases h) rfl
      | work | stop | unlock => exact hother fun i h => by cases h
      | lock h =>
          have hvotes : t.votes = lastVote (served tr) := votes_run r
          intro i hi
          cases hi
          exact ⟨Nat.zero_le 7, tr, _, [], rfl, rfl, fun _ hm => absurd hm List.not_mem_nil,
            hvotes, rfl⟩
      | tell j h =>
          intro i hi
          cases hi
          obtain ⟨-, before, k, since, rfl, hr⟩ := ih j h
          refine ⟨j.isLt, before, k, since ++ [_], List.append_assoc .., hr.label,
            forall_mem_snoc hr.inside ⟨fun h => (by cases h), fun h => by cases h⟩, hr.cast, ?_⟩
          rw [told_append, told_one, hr.told]
          exact (announced_succ t.votes j).symm

/-! ### The end -/

/-- `main` has printed the first electors, and nobody votes any more. -/
structure Report (tr : Trace) (s : Election) : Prop where
  before : s.main = .serving ∨ s.main = .joining → printed tr = []
  printing : ∀ i, s.main = .printing i → i ≤ 7 ∧ printed tr = announced s.votes i
  done : s.main = .done → printed tr = announcements s.votes

theorem Report.step (hs : Report tr s) (h : Election.Step sfd s l t) :
    Report (tr ++ [⟨s, l, t⟩]) t := by
  -- the thread goes on
  have hsame : t.main = s.main → t.votes = s.votes → l.printed? = none →
      Report (tr ++ [⟨s, l, t⟩]) t := by
    intro hmain hvotes hl
    have heq : printed (tr ++ [⟨s, l, t⟩]) = printed tr := by
      rw [printed_append, printed_one, hl, Option.toList_none, List.append_nil]
    refine ⟨?_, ?_, ?_⟩ <;> rw [heq, hmain]
    · exact hs.before
    · rw [hvotes]
      exact hs.printing
    · rw [hvotes]
      exact hs.done
  -- `main` has not come to the end, and has not printed anything
  have hserves : s.main = .serving ∨ s.main = .joining →
      t.main = .serving ∨ t.main = .joining ∨ t.main = .printing 0 → l.printed? = none →
      Report (tr ++ [⟨s, l, t⟩]) t := by
    intro hmain hmain' hl
    have heq : printed (tr ++ [⟨s, l, t⟩]) = [] := by
      rw [printed_append, printed_one, hl, Option.toList_none, List.append_nil, hs.before hmain]
    refine ⟨fun _ => heq, fun i hi => ?_, fun hdone => ?_⟩
    · rcases hmain' with h | h | h <;> rw [h] at hi <;> cases hi
      exact ⟨Nat.zero_le 7, heq⟩
    · rcases hmain' with h | h | h <;> rw [h] at hdone <;> cases hdone
  cases h with
  | wait loop h => exact hserves (.inl h) (.inl h) rfl
  | event fd input loop h => exact hserves (.inl h) (.inl h) rfl
  | sigint h => exact hserves (.inl h) (.inl h) rfl
  | leave h => exact hserves (.inl h) (.inr (.inl rfl)) rfl
  | join h => exact hserves (.inr h) (.inr (.inr rfl)) rfl
  | print i h =>
      refine ⟨fun hmain => ?_, fun j hj => ?_, fun hdone => (by cases hdone)⟩
      · rcases hmain with hmain | hmain <;> cases hmain
      · cases hj
        refine ⟨i.isLt, ?_⟩
        rw [printed_append, printed_one, (hs.printing i h).2]
        exact (announced_succ s.votes i).symm
  | finish h =>
      refine ⟨fun hmain => ?_, fun j hj => (by cases hj), fun _ => ?_⟩
      · rcases hmain with hmain | hmain <;> cases hmain
      · rw [printed_append, (hs.printing 7 h).2, announced_seven]
        exact List.append_nil _
  | work | stop | lock | tell | unlock => exact hsame rfl rfl rfl

theorem report_run (r : Run (Election.Step sfd) Election.begin tr s) : Report tr s := by
  induction r with
  | refl => exact ⟨fun _ => rfl, fun i h => (by cases h), fun h => by cases h⟩
  | snoc _ h ih => exact ih.step h

/-! ### The broadcast -/

/-- The thread is on the way to a round. -/
def Herald.rounds : Herald → Nat
  | .asleep => 1
  | _ => 0

def Election.Label.isLock : Label → Bool
  | .lock => true
  | _ => false

/-- The rounds that are begun. -/
def rounds (tr : Trace) : Trace := tr.filter fun m => m.label.isLock

/-- **When `do_work` has been cleared** there is one more round at most. -/
theorem rounds_le (r : Run (Election.Step sfd) s tr t) (hwork : s.doWork = false) :
    (rounds tr).length + t.herald.rounds ≤ s.herald.rounds := by
  refine r.count_le (J := fun s => s.doWork = false) (C := fun _ _ _ => True)
    (Φ := fun s => s.herald.rounds) Election.Label.isLock (fun hs h _ => ?_) (fun hs h _ => ?_)
    hwork fun _ _ => trivial
  · cases h with
    | sigint => rfl
    | _ => exact hs
  · cases h with
    | wait | event | sigint | leave | join | print | finish => exact (Nat.zero_add _).le
    | work h hw =>
        rw [hs] at hw
        cases hw
    | lock h =>
        rw [h]
        exact le_rfl
    | stop | tell | unlock => exact Nat.zero_le _

/-- What has been told is the line of an elector that has voted. -/
theorem told_run (r : Run (Election.Step sfd) Election.begin tr s) :
    ∀ text ∈ told tr, ∃ j v, text = line j v ∧ 0 ≤ v ∧ v ≤ 2 ∧ 0 ≤ s.votes j := by
  induction r with
  | refl => exact fun text h => absurd h List.not_mem_nil
  | @snoc t u tr l r h ih =>
      intro text htext
      rw [told_append, told_one] at htext
      rcases List.mem_append.mp htext with hold | hnew
      · obtain ⟨j, v, rfl, hlow, hhigh, hvoted⟩ := ih text hold
        rw [votes_run r] at hvoted
        refine ⟨j, v, rfl, hlow, hhigh, ?_⟩
        rw [votes_run (r.snoc h), served_append]
        exact lastVote_mono hvoted
      · cases h with
        | tell i h =>
            have hsaid : said t.votes i = some text := Option.mem_toList.mp hnew
            rw [said] at hsaid
            split at hsaid
            · rename_i hvoted
              refine ⟨i, t.votes i, (Option.some.inj hsaid).symm, hvoted, ?_, hvoted⟩
              rw [votes_run r] at hvoted ⊢
              rcases lastVote_range (served tr) i with hnone | hrange
              · omega
              · exact hrange.2
            · cases hsaid
        | _ => cases hnew

theorem unlock_inv (h : Election.Step sfd s .unlock t) : s.herald = .telling 7 := by
  cases h with
  | unlock h => exact h

theorem sigint_inv (h : Election.Step sfd s .sigint t) : t.doWork = false := by
  cases h with
  | sigint => rfl

/-- Whoever has voted is among the announcements. -/
theorem mem_announcements {j : Elector} (h : 0 ≤ votes j) :
    line j (votes j) ∈ announcements votes :=
  List.mem_filterMap.mpr ⟨j, List.mem_finRange j, if_pos h⟩

/-- **The broadcast.**  Along every run: each round tells, in their order, all electors that had voted
when it began, each with the last vote that had been cast then, and no others, whatever the clients do
during the round; the votes are 0, 1 or 2, and what `main` prints at the end are the last votes of all
that have voted, among them everybody who was told in any round.  When `SIGINT` has come there is one
more round at most. -/
theorem broadcast_law (r : Run (Election.Step sfd) Election.begin tr s) :
    (∀ before u after, tr = before ++ u :: after → u.label = .unlock →
      ∃ earlier k since, before = earlier ++ k :: since ∧ k.label = .lock ∧
        (∀ m ∈ since, m.label ≠ .lock ∧ m.label ≠ .unlock) ∧
        told since = announcements (lastVote (served earlier))) ∧
    (s.main = .done → printed tr = announcements (lastVote (served tr))) ∧
    (∀ text ∈ told tr, ∃ j v, text = line j v ∧ 0 ≤ v ∧ v ≤ 2 ∧
      (s.main = .done → line j (lastVote (served tr) j) ∈ printed tr)) ∧
    ∀ before m after, tr = before ++ m :: after → m.label = .sigint → (rounds after).length ≤ 1 := by
  have hvotes := votes_run r
  have hprinted : s.main = .done → printed tr = announcements (lastVote (served tr)) := fun hdone =>
    hvotes ▸ (report_run r).done hdone
  refine ⟨fun before u after htr hu => ?_, hprinted, fun text htext => ?_,
    fun before m after htr hm => ?_⟩
  · subst htr
    obtain ⟨r₁, hstep, -⟩ := r.cut
    rw [hu] at hstep
    obtain ⟨-, earlier, k, since, rfl, hround⟩ := inRound_run r₁ 7 (unlock_inv hstep)
    refine ⟨earlier, k, since, rfl, hround.label, hround.inside, ?_⟩
    rw [hround.told, hround.cast, announced_seven]
  · obtain ⟨j, v, rfl, hlow, hhigh, hvoted⟩ := told_run r text htext
    refine ⟨j, v, rfl, hlow, hhigh, fun hdone => ?_⟩
    rw [hprinted hdone]
    exact mem_announcements (hvotes ▸ hvoted)
  · subst htr
    obtain ⟨-, hstep, r₂⟩ := r.cut
    rw [hm] at hstep
    have hle := rounds_le r₂ (sigint_inv hstep)
    have hone : m.after.herald.rounds ≤ 1 := by
      cases m.after.herald <;> first | exact le_rfl | exact Nat.zero_le _
    omega

/-! ### One vote -/

/-- The loop of `do_server`, while the thread has not begun. -/
theorem serve_run {a b : EventLoop.State Server} (r : Run (loop sfd).Step a es b) :
    ∃ tr, Run (Election.Step sfd) ⟨a, true, .check, .serving⟩ tr ⟨b, true, .check, .serving⟩ := by
  have hsim : ∀ {a : EventLoop.State Server} {l b}, (loop sfd).Step a l b →
      Election.Step sfd ⟨a, true, .check, .serving⟩ (.serve l) ⟨b, true, .check, .serving⟩ := by
    intro a l b h
    cases l with
    | wait => exact .wait b rfl rfl h
    | event fd input => exact .event fd input b rfl h fun i hi => by cases hi
  exact ⟨_, r.map (fun a => (⟨a, true, .check, .serving⟩ : Election)) Label.serve hsim⟩

/-- The elector with the index 2 votes 1. -/
theorem oneVote_run : ∃ es u, Run (loop 3).Step begin es ⟨u, []⟩ ∧ (u.electors 2).vote = 1 := by
  obtain ⟨es, r⟩ := oneElector_run
  obtain ⟨u, hu, hv⟩ : ∃ u, readEvent oneElector 5 (.bytes [49]) 0 .written = some u ∧
      (u.electors 2).vote = 1 := ⟨_, rfl, rfl⟩
  have h : (loop 3).Step ⟨oneElector, [5]⟩ (.event 5 (.client (.bytes [49]) 0 .written)) ⟨u, []⟩ :=
    .event 5 _ [] _ rfl (.client (by decide) (fun h => by cases h) (by rintro _ ⟨⟩; decide)
      (fun h => by cases h) hu)
  exact ⟨_, u, (r.snoc (accepted_wait (Option.some_ne_none 0))).snoc h, hv⟩

/-- After one round `SIGINT` comes. -/
theorem election_run : ∃ tr s, Run (Election.Step 3) Election.begin tr s ∧ s.main = .done ∧
    s.votes 2 = 1 := by
  obtain ⟨es, u, r, hv⟩ := oneVote_run
  obtain ⟨tr, r⟩ := serve_run r
  have r := (((r.snoc (.work rfl rfl)).snoc (.lock rfl)).snoc (.tell 0 rfl)).snoc (.tell 1 rfl)
  have r := ((((r.snoc (.tell 2 rfl)).snoc (.tell 3 rfl)).snoc (.tell 4 rfl)).snoc
    (.tell 5 rfl)).snoc (.tell 6 rfl)
  have r := ((((r.snoc (.unlock rfl)).snoc (.sigint rfl rfl rfl)).snoc (.stop rfl rfl)).snoc
    (.leave rfl rfl rfl)).snoc (.join rfl rfl)
  have r := ((((r.snoc (.print 0 rfl)).snoc (.print 1 rfl)).snoc (.print 2 rfl)).snoc
    (.print 3 rfl)).snoc (.print 4 rfl)
  have r := ((r.snoc (.print 5 rfl)).snoc (.print 6 rfl)).snoc (.finish rfl)
  exact ⟨_, _, r, rfl, hv⟩

theorem broadcast_law_oneVote : ∃ tr s, Run (Election.Step 3) Election.begin tr s ∧
    line 2 1 ∈ printed tr := by
  obtain ⟨tr, s, r, hdone, hv⟩ := election_run
  have hvotes := votes_run r
  refine ⟨tr, s, r, ?_⟩
  rw [(broadcast_law r).2.1 hdone, ← hvotes, ← hv]
  exact mem_announcements (by rw [hv]; decide)

end Sop2.Hre
