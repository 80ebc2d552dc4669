import Sop2.Lab05.Provinces.Cascade
import Sop2.Lab05.Provinces.Messages

/-!
# Lab05 — Provinces — flooding

`lab05/generated`: a province passes a letter on to all its outputs, unless it is the last one that
it passed on.

* `flooding_law`: that is enough as long as a letter that comes back to a province finds it with
  nothing else passed on since; two letters can follow each other around a cycle (`chase_exceeds`).
* `single_law`: one letter comes to all the provinces that can be reached, and dies out.
-/

namespace Sop2.Provinces
open Support Support.Piped

variable {n cap : Nat} {matrix : Fin n → Fin n → Int} {s t : State n Directive UInt8}
  {tr : Trace n Directive UInt8} {i j : Fin n} {k : Pipe n} {c d : Directive}
  {cs : List Directive} {l : Loop n UInt8}

/-- A province passes everything on. -/
def passOn (_ : Fin n) (c : Directive) (_ : Fin n) : List Directive := [c]

/-- A copy for everybody. -/
def copies (c : Directive) (outs : List (Fin n)) : List (Fin n × Directive) := outs.map (·, c)

theorem toward_copies (c : Directive) {outs : List (Fin n)} (h : outs.Nodup) :
    toward j (copies c outs) = if j ∈ outs then [c] else [] := by
  induction outs with
  | nil => rfl
  | cons a outs ih =>
      obtain ⟨ha, hnodup⟩ := List.nodup_cons.mp h
      change toward j ((a, c) :: copies c outs) = _
      by_cases haj : a = j
      · subst haj
        rw [toward_self, ih hnodup, if_neg ha, if_pos (List.mem_cons_self ..)]
      · rw [toward_of_ne haj, ih hnodup]
        simp [Ne.symm haj]

theorem receive_eq {state state' : UInt8} {f : List (Fin n) → List (Fin n × Directive)}
    (h : (generated matrix).receive i state c = some (state', f)) :
    c.letter ≠ state ∧ state' = c.letter ∧ f = copies c := by
  change (if c.letter ≠ state then some (c.letter, copies c) else none) = _ at h
  split at h
  next hne => cases h; exact ⟨hne, rfl, rfl⟩
  next => cases h

theorem generated_passes (matrix : Fin n → Fin n → Int) : Passes (generated matrix) passOn where
  sub h hnodup := by
    obtain ⟨-, -, rfl⟩ := receive_eq h
    rw [toward_copies _ hnodup]
    split
    · exact .refl _
    · exact List.nil_sublist _
  all h hnodup hj := by
    obtain ⟨-, -, rfl⟩ := receive_eq h
    rw [toward_copies _ hnodup, if_pos hj]
    rfl

/-! ### One letter after another -/

theorem take_eq (i : Fin n) (x : UInt8 × List Directive) (c : Directive) :
    (generated matrix).take i x c = if c.letter ≠ x.1 then (c.letter, x.2 ++ [c]) else x := by
  by_cases hc : c.letter ≠ x.1
  · have hrec : (generated matrix).receive i x.1 c = some (c.letter, copies c) := if_pos hc
    rw [Net.take, hrec, if_pos hc]
  · have hrec : (generated matrix).receive i x.1 c = none := if_neg hc
    rw [Net.take, hrec, if_neg hc]

/-- After a letter a province has passed something on. -/
theorem fold_ne_nil (matrix : Fin n → Fin n → Int) (i : Fin n) (h : ∀ c ∈ cs, c.letter ≠ 0) (hne : cs ≠ []) :
    ((generated matrix).fold i cs).2 ≠ [] := by
  have hfold : ∀ cs : List Directive, (∀ c ∈ cs, c.letter ≠ 0) →
      ((generated matrix).fold i cs).2 = [] → cs = [] := by
    intro cs
    induction cs using List.reverseRecOn with
    | nil => exact fun _ _ => rfl
    | append_singleton cs c ih =>
        intro h hnil
        rw [fold_snoc, take_eq] at hnil
        split at hnil
        · exact absurd hnil (by simp)
        next hc =>
          obtain rfl := ih (fun c hc => h c (List.mem_append_left _ hc)) hnil
          exact absurd (h c (by simp)) hc
  exact fun hnil => hne (hfold cs h hnil)

/-- One letter is passed on once. -/
theorem fold_same (matrix : Fin n → Fin n → Int) (i : Fin n) (h : ∀ c ∈ cs, c = d) :
    (generated matrix).fold i cs = (0, []) ∨ (generated matrix).fold i cs = (d.letter, [d]) := by
  induction cs using List.reverseRecOn with
  | nil => exact .inl rfl
  | append_singleton cs c ih =>
      obtain rfl := h c (by simp)
      rw [fold_snoc, take_eq]
      rcases ih fun c hc => h c (List.mem_append_left _ hc) with hfold | hfold <;> rw [hfold]
      · split
        · exact .inr rfl
        · exact .inl rfl
      · exact .inr (if_neg fun hne => hne rfl)

/-! ### What is in the network -/

section
variable (r : Run (Step cap (generated matrix)) (generated matrix).begin tr s)
include r

/-- The provinces read copies of what Casa Rosada sent. -/
theorem received_sent (i : Fin n) : ∀ c ∈ receivedBy i tr, c ∈ written .boss tr := by
  intro c hc
  obtain ⟨k, hk, hwritten⟩ := written_of_received r hc
  refine everywhere (G := fun _ c => c ∈ written .boss tr) (generated_passes matrix) r
    (fun _ => id) (fun _ hc _ c' hc' => ?_) (ne_reports hk) c hwritten
  rwa [List.mem_singleton.mp hc']

/-- What a province has passed on, and is about to. -/
theorem fold_processed (i : Fin n) : ((generated matrix).fold i (receivedBy i tr)).2 =
    processedBy i tr ++ (s.pc (some i)).unprinted := (heard r i).printed

theorem length_written_le (i j : Fin n) : (written (.edge i j) tr).length ≤
    ((generated matrix).fold i (receivedBy i tr)).2.length := by
  have hsub := (List.sublist_append_left ..).trans (passed (generated_passes matrix) r i j).sub
  rw [written_edge r, fold_processed r]
  refine hsub.length_le.trans_eq ?_
  simp [passOn, processedBy]

end

/-! ### What a province remembers -/

/-- A province that reads what it has passed on before has passed nothing else on since. -/
def Remembered (tr : Trace n Directive UInt8)
    (m : Move (State n Directive UInt8) (Option (Fin n) × Seen n Directive)) : Prop :=
  ∀ i k c, m.label = (some i, .read k c) → c ∈ processedBy i tr →
    ∀ l, (m.before.pc (some i)).loop = some l → l.state = c.letter

/-- A province passes nothing on twice. -/
theorem nodup_fold (r : Run (Step cap (generated matrix)) (generated matrix).begin tr s)
    (hG : ∀ tr₁ m tr₂, tr = tr₁ ++ m :: tr₂ → Remembered tr₁ m) (i : Fin n) :
    ((generated matrix).fold i (receivedBy i tr)).2.Nodup := by
  induction r with
  | refl => exact List.nodup_nil
  | @snoc s s' tr l r h ih =>
      have ih := ih fun tr₁ m tr₂ heq => hG tr₁ m (tr₂ ++ [⟨s, l, s'⟩]) (by simp [heq])
      have hlast : Remembered tr ⟨s, l, s'⟩ := hG tr _ [] rfl
      obtain ⟨p, e⟩ := l
      rw [receivedBy, events_snoc]
      by_cases hp : p = some i
      · subst hp
        rw [if_pos rfl, received_snoc]
        cases e with
        | read k c =>
            change ((generated matrix).fold i (receivedBy i tr ++ [c])).2.Nodup
            have hread : (s.pc (some i)).unprinted = [] ∧ ∃ l, (s.pc (some i)).loop = some l := by
              cases h with
              | read _ _ data eof again _ pipes hop hr => exact unprinted_of_read hop
            obtain ⟨hun, l, hl⟩ := hread
            have hprocessed := fold_processed r i
            rw [hun, List.append_nil] at hprocessed
            have hstate : ((generated matrix).fold i (receivedBy i tr)).1 = l.state :=
              (heard r i).state l hl
            rw [fold_snoc, take_eq, hstate]
            split
            next hne =>
              refine List.nodup_append.mpr ⟨ih, by simp, ?_⟩
              rintro a ha b hb rfl
              obtain rfl := List.mem_singleton.mp hb
              exact hne (hlast i k a rfl (hprocessed ▸ ha) l hl).symm
            next => exact ih
        | eof | wrote | epipe | said =>
            change ((generated matrix).fold i (receivedBy i tr ++ [])).2.Nodup
            rwa [List.append_nil]
      · rwa [if_neg hp, List.append_nil]

/-- So it passes on no more than was sent. -/
theorem length_fold_le (r : Run (Step cap (generated matrix)) (generated matrix).begin tr s)
    (hG : ∀ tr₁ m tr₂, tr = tr₁ ++ m :: tr₂ → Remembered tr₁ m) (i : Fin n) :
    ((generated matrix).fold i (receivedBy i tr)).2.length ≤ (written .boss tr).length :=
  (List.subperm_of_subset (nodup_fold r hG i) fun c hc =>
    received_sent r i c ((fold_sublist ..).subset hc)).length_le

theorem length_processed_le (r : Run (Step cap (generated matrix)) (generated matrix).begin tr s)
    (hG : ∀ tr₁ m tr₂, tr = tr₁ ++ m :: tr₂ → Remembered tr₁ m) (i : Fin n) :
    (processedBy i tr).length ≤ (written .boss tr).length := by
  have hle := length_fold_le r hG i
  rw [fold_processed r, List.length_append] at hle
  omega

theorem eq_of_length_le_one {cs : List Directive} (h : cs.length ≤ 1) (hc : c ∈ cs) (hd : d ∈ cs) :
    d = c := by
  cases cs with
  | nil => cases hc
  | cons a cs =>
      obtain rfl : cs = [] := List.eq_nil_of_length_eq_zero (by simpa using h)
      rw [List.mem_singleton.mp hc, List.mem_singleton.mp hd]

/-- One letter alone is the last one that a province has passed on. -/
theorem remembered_of_one (r : Run (Step cap (generated matrix)) (generated matrix).begin tr s)
    (hone : (written .boss tr).length ≤ 1) (tr₁ : Trace n Directive UInt8)
    (m : Move (State n Directive UInt8) (Option (Fin n) × Seen n Directive))
    (tr₂ : Trace n Directive UInt8) (htr : tr = tr₁ ++ m :: tr₂) : Remembered tr₁ m := by
  induction r generalizing tr₂ with
  | refl => simp at htr
  | @snoc s s' tr l r h ih =>
      rw [written_snoc, List.length_append] at hone
      have hone : (written .boss tr).length ≤ 1 := by omega
      obtain ⟨-, rfl, rfl⟩ | ⟨after, -, htr⟩ := snoc_eq_append_cons.mp htr
      · rintro i k c - hc l hl
        have hprinted := (heard r i).printed
        have hsame := fold_same matrix i fun d hd => eq_of_length_le_one hone
          (received_sent r i c (received_of_printed r (List.mem_append_left _ hc)))
          (received_sent r i d hd)
        rw [← (heard r i).state l hl]
        change (generated matrix).fold i (received (events (some i) tr)) = _ ∨ _ at hsame
        rcases hsame with hfold | hfold
        · rw [hfold] at hprinted
          rw [processedBy, (List.append_eq_nil_iff.mp hprinted.symm).1] at hc
          cases hc
        · exact congrArg Prod.fst hfold
      · exact ih hone after htr

/-! ### Two provinces that write to each other -/

/-- Casa Rosada takes a letter, and sends it. -/
def sendsLetter (b : UInt8) : List (Option (Fin 2) × Option (Option UInt8)) :=
  (none, some (some b)) :: quiet none 2

/-- One letter comes back, and is not passed on again. -/
def comesBack : List (Option (Fin 2) × Option (Option UInt8)) :=
  quiet none 7 ++ sendsLetter 97 ++ quiet (some 0) 11 ++ quiet (some 1) 11 ++ quiet (some 0) 3

theorem comesBack_run : ∃ (tr : Trace 2 Directive UInt8) (s : State 2 Directive UInt8),
    Run (Step 5 (generated twoCycle)) (generated twoCycle).begin tr s ∧
      (written .boss tr).length = 1 ∧ (receivedBy 0 tr).length = 2 ∧
      (∀ k, s.pipes.content k = []) ∧ ∀ i, (s.pc (some i)).unprinted = [] ∧ (s.pc (some i)).out = [] := by
  have hplay : (play 5 (generated twoCycle).op (generated twoCycle).begin comesBack).map
      (fun x => ((x.1.filterMap fun l => l.2.written? .boss).length,
        ((x.1.filterMap fun l => if l.1 = some 0 then some l.2 else none).filterMap
          received?).length, decide (∀ k ∈ allPipes 2, x.2.pipes.content k = []),
        decide (∀ i, (x.2.pc (some i)).unprinted = [] ∧ (x.2.pc (some i)).out = []))) =
      some (1, 2, true, true) := by
    decide +kernel
  obtain ⟨tr, s, r, h⟩ := play_map hplay
  simp only [Prod.mk.injEq, List.filterMap_map, decide_eq_true_eq] at h
  obtain ⟨hsent, hreceived, hempty, hidle⟩ := h
  exact ⟨tr, s, r, hsent, hreceived, fun k => hempty k (mem_allPipes k), hidle⟩

/-! ### Several letters -/

/-- **Flooding is bounded**, as long as what comes back to a province finds it as it was left. -/
theorem flooding_law (r : Run (Step cap (generated matrix)) (generated matrix).begin tr s)
    (hG : ∀ tr₁ m tr₂, tr = tr₁ ++ m :: tr₂ → Remembered tr₁ m) :
    (∀ i, (processedBy i tr).length ≤ (written .boss tr).length) ∧
      ∑ i, ∑ j, (written (.edge i j) tr).length ≤ n * n * (written .boss tr).length := by
  refine ⟨length_processed_le r hG, ?_⟩
  calc ∑ i, ∑ j, (written (.edge i j) tr).length
      ≤ ∑ _i : Fin n, ∑ _j : Fin n, (written .boss tr).length :=
        Finset.sum_le_sum fun i _ => Finset.sum_le_sum fun j _ =>
          (length_written_le r i j).trans (length_fold_le r hG i)
    _ = n * n * (written .boss tr).length := by simp [mul_assoc]

theorem flooding_law_comesBack : ∃ (tr : Trace 2 Directive UInt8) (s : State 2 Directive UInt8),
    Run (Step 5 (generated twoCycle)) (generated twoCycle).begin tr s ∧
      (receivedBy 0 tr).length = 2 ∧ (∀ i, (processedBy i tr).length ≤ 1) ∧
      ∑ i, ∑ j, (written (.edge i j) tr).length ≤ 4 := by
  obtain ⟨tr, s, r, hsent, hreceived, -⟩ := comesBack_run
  obtain ⟨hprocessed, hwritten⟩ := flooding_law r (remembered_of_one r hsent.le)
  rw [hsent] at hprocessed hwritten
  exact ⟨tr, s, r, hreceived, hprocessed, hwritten⟩

/-- Province 0 has passed on `a` and `b` when `a` comes back to it. -/
def chase : List (Option (Fin 2) × Option (Option UInt8)) :=
  quiet none 7 ++ sendsLetter 97 ++ sendsLetter 98 ++ quiet (some 0) 18 ++ quiet (some 1) 11 ++
    quiet (some 0) 3

theorem chase_exceeds : ∃ (tr : Trace 2 Directive UInt8) (s : State 2 Directive UInt8),
    Run (Step 5 (generated twoCycle)) (generated twoCycle).begin tr s ∧
      (written .boss tr).length = 2 ∧ (processedBy 0 tr).map Directive.letter = [97, 98, 97] := by
  have hplay : (play 5 (generated twoCycle).op (generated twoCycle).begin chase).map
      (fun x => ((x.1.filterMap fun l => l.2.written? .boss).length,
        ((x.1.filterMap fun l => if l.1 = some 0 then some l.2 else none).filterMap
          processed?).map Directive.letter)) = some (2, [97, 98, 97]) := by
    decide +kernel
  obtain ⟨tr, s, r, h⟩ := play_map hplay
  simp only [Prod.mk.injEq, List.filterMap_map] at h
  exact ⟨tr, s, r, h.1, h.2⟩

/-! ### One letter -/

/-- The provinces that can be reached from province 0. -/
def Reached (matrix : Fin n → Fin n → Int) (i : Fin n) : Prop :=
  ∃ z : Fin n, z.val = 0 ∧ Relation.ReflTransGen (fun a b => matrix a b = 1) z i

theorem Reached.zero (h : i.val = 0) : Reached matrix i := ⟨i, h, .refl⟩

theorem Reached.next (h : Reached matrix i) (hij : matrix i j = 1) : Reached matrix j := by
  obtain ⟨z, hz, hzi⟩ := h
  exact ⟨z, hz, hzi.tail hij⟩

section
variable (r : Run (Step cap (generated matrix)) (generated matrix).begin tr s)
include r

/-- Only who can be reached reads anything. -/
theorem reached_of_received (hc : c ∈ receivedBy i tr) : Reached matrix i := by
  obtain ⟨k, hk, hwritten⟩ := written_of_received r hc
  have hgood : ∀ k ≠ .reports, ∀ c ∈ written k tr,
      ∀ i, k ∈ (generated matrix).inputs i → Reached matrix i := by
    intro k hne
    refine everywhere (G := fun k _ => ∀ i, k ∈ (generated matrix).inputs i → Reached matrix i)
      (generated_passes matrix) r (fun _ _ i hi => ?_) (fun {i j k c} hk hgood hpipe _ _ b hb => ?_) hne
    · obtain ⟨_, h, -⟩ | ⟨-, h⟩ := mem_inputs.mp hi
      · cases h
      · exact .zero h
    · obtain ⟨a, h, -, -⟩ | ⟨h, -⟩ := mem_inputs.mp hb
      · cases h
        exact (hgood i hk).next (of_decide_eq_true hpipe)
      · cases h
  exact hgood k (ne_reports hk) c hwritten i hk

/-- What Casa Rosada sends are letters. -/
theorem letter_of_sent (hc : c ∈ written .boss tr) : c.letter ≠ 0 := by
  rw [written_boss r] at hc
  have hsent : c ∈ (generated matrix).toSend (letters (events none tr)) :=
    (sends r).sub.subset (List.mem_append_left _ hc)
  obtain ⟨⟨b, t⟩, hb, hcb⟩ := List.mem_flatMap.mp hsent
  obtain ⟨e, -, he⟩ := List.mem_filterMap.mp (List.fst_mem_of_mem_zipIdx hb)
  obtain rfl : c = ⟨b, t⟩ := List.mem_singleton.mp hcb
  cases e with
  | said l =>
      cases l with
      | none => cases he
      | some x =>
          cases x with
          | byte b' =>
              rw [letter?] at he
              split at he
              next hletter =>
                cases he
                rintro (rfl : b = 0)
                exact absurd (show isLetter 0 = true from hletter) (by decide)
              next => cases he
          | processed => cases he
  | read | eof | wrote | epipe => cases he

/-- What has come to a province it has passed on. -/
theorem processed_of_written {k : Pipe n} (hk : k ∈ (generated matrix).inputs i)
    (hempty : s.pipes.content k = []) (hprinted : (s.pc (some i)).unprinted = [])
    (hne : written k tr ≠ []) : processedBy i tr ≠ [] := by
  have hreceived : receivedBy i tr ≠ [] := by
    obtain ⟨c, hc⟩ := List.exists_mem_of_ne_nil _ hne
    rw [pipe_law r fun _ => rfl, hempty, List.append_nil, taken_input r hk] at hc
    obtain ⟨e, he, hec⟩ := List.mem_filterMap.mp hc
    cases e with
    | read a d => exact List.ne_nil_of_mem (List.mem_filterMap.mpr ⟨_, he, rfl⟩)
    | eof | wrote | epipe | said => cases hec
  have hfold := fold_ne_nil matrix i
    (fun c hc => letter_of_sent r (received_sent r i c hc)) hreceived
  rwa [fold_processed r, hprinted, List.append_nil] at hfold

/-- Nobody has a message in hand. -/
def Idle (s : State n Directive UInt8) : Prop :=
  ∀ i, (s.pc (some i)).unprinted = [] ∧ (s.pc (some i)).out = []

/-- Nothing is left in a pipe that somebody reads. -/
def Drained (matrix : Fin n → Fin n → Int) (s : State n Directive UInt8) : Prop :=
  ∀ i, ∀ k ∈ (generated matrix).inputs i, s.pipes.content k = []

/-- The letter has come to all the provinces that can be reached. -/
theorem processed_of_reached (hsent : written .boss tr ≠ []) (hdrained : Drained matrix s)
    (hidle : Idle s) (hi : Reached matrix i) : processedBy i tr ≠ [] := by
  obtain ⟨z, hz, hzi⟩ := hi
  induction hzi with
  | refl =>
      have hboss : .boss ∈ (generated matrix).inputs z := mem_inputs.mpr (.inr ⟨rfl, hz⟩)
      exact processed_of_written r hboss (hdrained z _ hboss) (hidle z).1 hsent
  | @tail a b _ hab ih =>
      by_cases hba : b = a
      · rwa [hba]
      · have hpipe : (generated matrix).pipe a b = true := decide_eq_true hab
        have hedge : .edge a b ∈ (generated matrix).inputs b :=
          mem_inputs.mpr (.inl ⟨a, rfl, hpipe, Ne.symm hba⟩)
        refine processed_of_written r hedge (hdrained b _ hedge) (hidle b).1 ?_
        have hall := (passed (generated_passes matrix) r a b).all hpipe hba
        rw [(hidle a).1, (hidle a).2, List.append_nil] at hall
        change _ ++ [] = List.flatMap (fun c => [c]) (processedBy a tr) at hall
        rw [List.append_nil, List.flatMap_singleton'] at hall
        rw [written_edge r]
        exact fun hnil => ih (hall.symm.trans hnil)

end

/-- **One letter** comes to every province once, or never. -/
theorem single_law (r : Run (Step cap (generated matrix)) (generated matrix).begin tr s)
    (hone : (written .boss tr).length ≤ 1) :
    (∀ i, (processedBy i tr).length ≤ 1 ∧ (processedBy i tr ≠ [] → Reached matrix i)) ∧
      (∀ i, (s.pc (some i)).after = .gone →
        ∀ k ∈ (generated matrix).inputs i, s.pipes.content k = []) ∧
      (written .boss tr ≠ [] → Drained matrix s → Idle s →
        ∀ i, processedBy i tr ≠ [] ↔ Reached matrix i) := by
  have hreached : ∀ i, processedBy i tr ≠ [] → Reached matrix i := by
    intro i hi
    obtain ⟨c, hc⟩ := List.exists_mem_of_ne_nil _ hi
    exact reached_of_received r (received_of_printed r (List.mem_append_left _ hc))
  refine ⟨fun i => ⟨?_, hreached i⟩, fun i hgone k hk => ?_, fun hsent hdrained hidle i =>
    ⟨hreached i, processed_of_reached r hsent hdrained hidle⟩⟩
  · exact (length_processed_le r (remembered_of_one r hone) i).trans hone
  · refine (ended_of_gone r hk ?_).1
    rw [← ins_after, hgone]
    rfl

theorem single_law_comesBack : ∃ (tr : Trace 2 Directive UInt8) (s : State 2 Directive UInt8),
    Run (Step 5 (generated twoCycle)) (generated twoCycle).begin tr s ∧
      (receivedBy 0 tr).length = 2 ∧ (∀ i, (processedBy i tr).length ≤ 1) ∧
      ∀ i, processedBy i tr ≠ [] ↔ Reached twoCycle i := by
  obtain ⟨tr, s, r, hsent, hreceived, hempty, hidle⟩ := comesBack_run
  obtain ⟨honce, -, hall⟩ := single_law r hsent.le
  have hne : written .boss tr ≠ [] := by
    intro hnil
    rw [hnil] at hsent
    cases hsent
  exact ⟨tr, s, r, hreceived, fun i => (honce i).1, hall hne (fun _ k _ => hempty k) hidle⟩

/-- Province 0 has the letter in hand. -/
def inHand : List (Option (Fin 2) × Option (Option UInt8)) :=
  quiet none 7 ++ sendsLetter 97 ++ quiet (some 0) 7

theorem inHand_unreached : ∃ (tr : Trace 2 Directive UInt8) (s : State 2 Directive UInt8),
    Run (Step 5 (generated twoCycle)) (generated twoCycle).begin tr s ∧
      (written .boss tr).length = 1 ∧ (∀ k, s.pipes.content k = []) ∧ Reached twoCycle 1 ∧
      processedBy 1 tr = [] := by
  have hplay : (play 5 (generated twoCycle).op (generated twoCycle).begin inHand).map
      (fun x => ((x.1.filterMap fun l => l.2.written? .boss).length,
        decide (∀ k ∈ allPipes 2, x.2.pipes.content k = []),
        (x.1.filterMap fun l => if l.1 = some 1 then some l.2 else none).filterMap processed?)) =
      some (1, true, []) := by
    decide +kernel
  obtain ⟨tr, s, r, h⟩ := play_map hplay
  simp only [Prod.mk.injEq, List.filterMap_map, decide_eq_true_eq] at h
  obtain ⟨hsent, hempty, hprocessed⟩ := h
  exact ⟨tr, s, r, hsent, fun k => hempty k (mem_allPipes k), (Reached.zero rfl).next (i := 0) rfl,
    hprocessed⟩

end Sop2.Provinces
