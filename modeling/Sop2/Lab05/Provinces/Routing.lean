import Sop2.Lab05.Provinces.Messages

/-!
# Lab05 — Provinces — routing

`lab05/generated_harder`: a packet names the provinces that it goes through.

* `Fits`: what is asked of the routes.  They begin at province 0, where Casa Rosada injects them, and
  do not stay anywhere, since nobody reads the pipe of a province to itself.
* `arrivals_first`, `arrivals_next`: how often a packet has arrived at each step of its path, by the
  law of the pipes.
* `routing_law`: a packet is received along its path, step by step; once nothing is under way, by all
  of it.
-/

namespace Sop2.Provinces
open Support Support.Piped

variable {n cap : Nat} {routes : List (Route n)} {s t : State n (Message n) Int}
  {tr : Trace n (Message n) Int} {i j a b : Fin n} {k : Pipe n} {c d : Message n}
  {cs : List (Message n)} {l : Loop n Int} {route : Route n} {path : List (Fin n)}
  {trigger index step m : Nat}

/-- What is asked of the routes. -/
structure Fits (routes : List (Route n)) : Prop where
  starts : ∀ route ∈ routes, ∃ z : Fin n, z.val = 0 ∧ route.path[0]? = some z
  moves : ∀ route ∈ routes, ∀ (step : Nat) (i : Fin n), route.path[step]? = some i →
    route.path[step + 1]? ≠ some i

/-- The packet of a route, on its way. -/
def Route.at (route : Route n) (trigger index step : Nat) : Packet n :=
  ⟨route.path, step, route.message, (trigger, index)⟩

/-- The pipe to a step of a path. -/
def via (path : List (Fin n)) : Nat → Option (Pipe n)
  | 0 => some .boss
  | step + 1 => path[step]?.bind fun i => path[step + 1]?.map fun j => .edge i j

/-- What a province passes on of a message. -/
def relayed (_ : Fin n) : Message n → Fin n → List (Message n)
  | .packet c, j => toward j c.forward
  | .report _ _, _ => []

theorem receive_packet (i : Fin n) (state : Int) (c : Packet n) :
    (generatedHarder routes).receive i state (.packet c) =
      some (wrap32 (state + 1), fun _ => c.forward) := rfl

theorem harder_passes (routes : List (Route n)) : Passes (generatedHarder routes) relayed where
  sub {i j state c state' f outs} h _ := by
    cases c with
    | packet c => cases h; exact .refl _
    | report => cases h
  all {i j state c state' f outs} h _ _ := by
    cases c with
    | packet c => cases h; rfl
    | report => cases h

theorem relayed_at (i j : Fin n) (c : Packet n) : relayed i (.packet c) j =
    if c.path[c.currentStep + 1]? = some j then
      [.packet { c with currentStep := c.currentStep + 1 }] else [] := by
  rw [relayed, Packet.forward]
  cases c.path[c.currentStep + 1]? with
  | none => rfl
  | some next => by_cases h : next = j <;> simp [toward, toward?, h]

theorem via_succ : via path (step + 1) = some k ↔
    ∃ i j, path[step]? = some i ∧ path[step + 1]? = some j ∧ k = .edge i j := by
  simp only [via, Option.bind_eq_some_iff, Option.map_eq_some_iff]
  constructor
  · rintro ⟨i, hi, j, hj, rfl⟩
    exact ⟨i, j, hi, hj, rfl⟩
  · rintro ⟨i, j, hi, hj, rfl⟩
    exact ⟨i, hi, j, hj, rfl⟩

/-- The pipe to a step is an input of the province there, and of no other. -/
theorem input_via (hfits : Fits routes) (hroute : route ∈ routes)
    (hvia : via route.path step = some k) (hk : k ∈ (generatedHarder routes).inputs i) :
    route.path[step]? = some i := by
  cases step with
  | zero =>
      obtain ⟨z, hz, hpath⟩ := hfits.starts route hroute
      cases hvia
      obtain ⟨_, h, -⟩ | ⟨-, hi⟩ := mem_inputs.mp hk
      · cases h
      · rw [hpath, Fin.ext (hz.trans hi.symm)]
  | succ step =>
      obtain ⟨a, b, -, hb, rfl⟩ := via_succ.mp hvia
      obtain ⟨_, h, -⟩ | ⟨h, -⟩ := mem_inputs.mp hk
      · cases h
        exact hb
      · cases h

/-- A path has its pipes. -/
theorem has_pipe (hroute : route ∈ routes) (ha : route.path[step]? = some a)
    (hb : route.path[step + 1]? = some b) : (generatedHarder routes).pipe a b = true := by
  refine List.any_eq_true.mpr ⟨route, hroute, decide_eq_true ?_⟩
  rw [List.mem_iff_getElem?]
  refine ⟨step, ?_⟩
  rw [List.getElem?_zip_eq_some]
  exact ⟨ha, by rwa [List.getElem?_tail]⟩

theorem via_input (hfits : Fits routes) (hroute : route ∈ routes) (hi : route.path[step]? = some i) :
    ∃ k ∈ (generatedHarder routes).inputs i, via route.path step = some k := by
  cases step with
  | zero =>
      obtain ⟨z, hz, hpath⟩ := hfits.starts route hroute
      rw [hpath] at hi
      cases hi
      exact ⟨.boss, mem_inputs.mpr (.inr ⟨rfl, hz⟩), rfl⟩
  | succ step =>
      have hlt : step < route.path.length :=
        (Nat.lt_succ_self step).trans (List.getElem?_eq_some_iff.mp hi).1
      have ha : route.path[step]? = some route.path[step] := List.getElem?_eq_getElem hlt
      refine ⟨.edge route.path[step] i, mem_inputs.mpr (.inl ⟨_, rfl, has_pipe hroute ha hi, ?_⟩),
        via_succ.mpr ⟨_, _, ha, hi, rfl⟩⟩
      exact fun heq => hfits.moves route hroute step i (ha.trans (congrArg some heq)) hi

/-! ### What is in the pipes -/

/-- A message is the packet of a route, at a step to which the pipe leads. -/
def OnRoute (routes : List (Route n)) (k : Pipe n) (c : Message n) : Prop :=
  ∃ (route : Route n) (trigger index step : Nat), routes[index]? = some route ∧
    via route.path step = some k ∧ c = .packet (route.at trigger index step)

section
variable (hfits : Fits routes)
  (r : Run (Step cap (generatedHarder routes)) (generatedHarder routes).begin tr s)
include hfits r

/-- **The pipes carry packets along their paths.** -/
theorem onRoute (hk : k ≠ .reports) : ∀ c ∈ written k tr, OnRoute routes k c := by
  refine everywhere (harder_passes routes) r (fun c hc => ?_) (fun hk hon hpipe c' hc' => ?_) hk
  · rw [written_boss r] at hc
    have hsent : c ∈ (generatedHarder routes).toSend (letters (events none tr)) :=
      (sends r).sub.subset (List.mem_append_left _ hc)
    obtain ⟨⟨b, t⟩, -, hcb⟩ := List.mem_flatMap.mp hsent
    obtain ⟨⟨route, index⟩, hroute, rfl⟩ := List.mem_map.mp hcb
    exact ⟨route, t, index, 0, List.mem_zipIdx_iff_getElem?.mp hroute, rfl, rfl⟩
  · obtain ⟨route, trigger, index, step, hroute, hvia, rfl⟩ := hon
    have hi := input_via hfits (List.mem_of_getElem? hroute) hvia hk
    rw [relayed_at] at hc'
    split at hc'
    next hj =>
      exact ⟨route, trigger, index, step + 1, hroute, via_succ.mpr ⟨_, _, hi, hj, rfl⟩,
        List.mem_singleton.mp hc'⟩
    next => cases hc'

/-- A province receives packets where they are on their paths. -/
theorem onRoute_of_read (h : .read k c ∈ events (some i) tr) :
    k ∈ (generatedHarder routes).inputs i ∧ OnRoute routes k c := by
  have hk := reads_inputs r h
  refine ⟨hk, onRoute hfits r (ne_reports hk) c ?_⟩
  rw [pipe_law r fun _ => rfl, taken_input r hk]
  exact List.mem_append_left _ (List.mem_filterMap.mpr ⟨_, h, if_pos rfl⟩)

/-- A province ignores nothing. -/
theorem fold_received (i : Fin n) : (generatedHarder routes).fold i (receivedBy i tr) =
    (wrap32 (receivedBy i tr).length, receivedBy i tr) := by
  have hpackets : ∀ c ∈ receivedBy i tr, ∃ p, c = .packet p := by
    intro c hc
    obtain ⟨k, hk, hc⟩ := written_of_received r hc
    obtain ⟨route, trigger, index, step, -, -, rfl⟩ := onRoute hfits r (ne_reports hk) c hc
    exact ⟨_, rfl⟩
  generalize receivedBy i tr = cs at hpackets
  induction cs using List.reverseRecOn with
  | nil =>
      rw [List.length_nil, Nat.cast_zero, wrap32_zero]
      rfl
  | append_singleton cs c ih =>
      obtain ⟨p, rfl⟩ := hpackets c (by simp)
      rw [fold_snoc, ih fun c hc => hpackets c (List.mem_append_left _ hc), Net.take,
        receive_packet, wrap32_add, List.length_append]
      rfl

/-- What a province has received, printed or not. -/
theorem received_eq (i : Fin n) :
    receivedBy i tr = processedBy i tr ++ (s.pc (some i)).unprinted := by
  have hprinted := (heard r i).printed
  change ((generatedHarder routes).fold i (receivedBy i tr)).2 = _ at hprinted
  rwa [fold_received hfits r] at hprinted

end

/-! ### How often a packet has arrived -/

/-- How often a packet was received at a step of its path. -/
def arrivals (route : Route n) (trigger index step : Nat) (tr : Trace n (Message n) Int) : Nat :=
  match route.path[step]? with
  | some i => (receivedBy i tr).count (.packet (route.at trigger index step))
  | none => 0

theorem arrivals_at (hi : route.path[step]? = some i) : arrivals route trigger index step tr =
    (receivedBy i tr).count (.packet (route.at trigger index step)) := by
  rw [arrivals, hi]

theorem count_flatMap_single {α β : Type*} [BEq α] [LawfulBEq α] [BEq β] [LawfulBEq β]
    {f : α → List β} {x : α} {y : β} {xs : List α}
    (h : ∀ a, (f a).count y = if a == x then 1 else 0) : (xs.flatMap f).count y = xs.count x := by
  induction xs with
  | nil => rfl
  | cons a xs ih => rw [List.flatMap_cons, List.count_append, ih, h, List.count_cons, add_comm]

/-- Each copy of a step gives one of the next. -/
theorem count_relayed (hj : route.path[step + 1]? = some j) (i : Fin n) (c : Message n) :
    (relayed i c j).count (.packet (route.at trigger index (step + 1))) =
      if c == .packet (route.at trigger index step) then 1 else 0 := by
  cases c with
  | report => rfl
  | packet p =>
      obtain ⟨path, currentStep, message, id⟩ := p
      rw [relayed_at]
      by_cases hp : Packet.mk path currentStep message id = route.at trigger index step
      · rw [hp]
        have hnext : (route.at trigger index step).path[(route.at trigger index step).currentStep + 1]? =
            some j := hj
        rw [if_pos hnext, if_pos (by simp)]
        exact List.count_singleton_self
      · have hne : ¬ (Message.packet ⟨path, currentStep, message, id⟩ ==
            Message.packet (route.at trigger index step)) = true := by
          simpa using hp
        rw [if_neg hne]
        split
        · refine List.count_eq_zero.mpr fun hmem => hp ?_
          have heq := List.mem_singleton.mp hmem
          simp only [Route.at, Message.packet.injEq, Packet.mk.injEq] at heq ⊢
          exact ⟨heq.1.symm, by omega, heq.2.2.1.symm, heq.2.2.2.symm⟩
        · exact List.count_nil

/-- Each route is sent once for each letter. -/
theorem count_toSend (hroute : routes[index]? = some route) (trigger : Nat) (bs : List UInt8) :
    ((generatedHarder routes).toSend bs).count (.packet (route.at trigger index 0)) =
      if trigger < bs.length then 1 else 0 := by
  have hinject : ∀ t b, ((generatedHarder routes).inject t b).count
      (.packet (route.at trigger index 0)) = if t = trigger then 1 else 0 := by
    intro t b
    change (routes.zipIdx.map (Route.packet t)).count _ = _
    rw [List.count_eq_countP, List.countP_map]
    split
    next ht =>
      subst ht
      have hcongr : ∀ x ∈ routes.zipIdx,
          ((fun c => c == Message.packet (route.at t index 0)) ∘ Route.packet t) x = true ↔
            (fun m => m == index) x.2 = true := by
        rintro ⟨route', index'⟩ hx
        have hx := List.mem_zipIdx_iff_getElem?.mp hx
        simp only [Function.comp_apply, Route.packet, Route.at, beq_iff_eq, Message.packet.injEq,
          Packet.mk.injEq, Prod.mk.injEq, true_and]
        constructor
        · exact fun h => h.2.2
        · rintro rfl
          rw [hroute] at hx
          cases hx
          exact ⟨rfl, rfl, rfl⟩
      rw [List.countP_congr hcongr]
      have hsnd : routes.zipIdx.countP (fun x => x.2 == index) =
          (routes.zipIdx.map Prod.snd).count index := by
        rw [List.count_eq_countP, List.countP_map]
        rfl
      rw [hsnd, List.zipIdx_map_snd]
      refine List.count_eq_one_of_mem List.nodup_range' ?_
      rw [List.mem_range'_1]
      exact ⟨Nat.zero_le _, by simpa using (List.getElem?_eq_some_iff.mp hroute).1⟩
    next ht =>
      rw [List.countP_eq_zero]
      rintro ⟨route', index'⟩ - hx
      simp [Route.packet, Route.at] at hx
      exact ht hx.2.2.1
  induction bs using List.reverseRecOn with
  | nil => rfl
  | append_singleton bs b ih =>
      rw [toSend_snoc, List.count_append, ih, hinject, List.length_append, List.length_singleton]
      split <;> split <;> split <;> omega

section
variable (hfits : Fits routes)
  (r : Run (Step cap (generatedHarder routes)) (generatedHarder routes).begin tr s)
include hfits r

theorem arrivals_taken (hroute : routes[index]? = some route) (hi : route.path[step]? = some i)
    (hvia : via route.path step = some k) : arrivals route trigger index step tr =
      (taken k tr).count (.packet (route.at trigger index step)) := by
  obtain ⟨k', hk, hvia'⟩ := via_input hfits (List.mem_of_getElem? hroute) hi
  obtain rfl : k' = k := Option.some.inj (hvia'.symm.trans hvia)
  rw [arrivals_at hi, taken_input r hk, receivedBy, received, List.count_filterMap,
    List.count_filterMap]
  refine List.countP_congr fun e he => ?_
  cases e with
  | read a c =>
      simp only [received?, Event.taken?, beq_iff_eq, Option.some.injEq]
      constructor
      · rintro rfl
        obtain ⟨-, route', trigger', index', step', -, hvia', heq⟩ := onRoute_of_read hfits r he
        simp only [Route.at, Message.packet.injEq, Packet.mk.injEq] at heq
        obtain ⟨hpath, rfl, -⟩ := heq
        rw [← hpath, hvia] at hvia'
        rw [if_pos (Option.some.inj hvia').symm]
      · split
        · exact Option.some.inj
        · simp
  | eof | wrote | epipe | said => exact Iff.rfl

/-- A packet arrives at province 0 once, when it has been sent. -/
theorem arrivals_first (hroute : routes[index]? = some route) (trigger : Nat) :
    arrivals route trigger index 0 tr +
      (s.pipes.content .boss).count (.packet (route.at trigger index 0)) +
      (s.pc none).pending.count (.packet (route.at trigger index 0)) =
        if trigger < (letters (events none tr)).length then 1 else 0 := by
  obtain ⟨z, hz, hpath⟩ := hfits.starts route (List.mem_of_getElem? hroute)
  have hall := (sends r).all z.pos
  have hboss : written .boss tr = sent (events none tr) := written_boss r
  rw [← count_toSend hroute, ← hall, ← hboss, pipe_law r fun _ => rfl, List.count_append,
    List.count_append, arrivals_taken hfits r hroute hpath rfl]

/-- It arrives where it is going as often as it has left. -/
theorem arrivals_next (hroute : routes[index]? = some route) (hi : route.path[step]? = some i)
    (hj : route.path[step + 1]? = some j) (trigger : Nat) :
    arrivals route trigger index (step + 1) tr +
      (s.pipes.content (.edge i j)).count (.packet (route.at trigger index (step + 1))) +
      (toward j (s.pc (some i)).out).count (.packet (route.at trigger index (step + 1))) =
        arrivals route trigger index step tr := by
  have hmem := List.mem_of_getElem? hroute
  have hne : j ≠ i := fun heq => hfits.moves route hmem step i hi (heq ▸ hj)
  have hall := (passed (harder_passes routes) r i j).all (has_pipe hmem hi hj) hne
  have hwritten : written (.edge i j) tr = wroteTo i j (events (some i) tr) := written_edge r i j
  have hreceived := received_eq hfits r i
  rw [processedBy] at hreceived
  rw [arrivals_at hi, ← count_flatMap_single (count_relayed hj i), hreceived, ← hall, ← hwritten,
    pipe_law r fun _ => rfl, List.count_append, List.count_append,
    arrivals_taken hfits r hroute hj (via_succ.mpr ⟨i, j, hi, hj, rfl⟩)]

end

/-! ### The way of a packet -/

def reception? (id : Nat × Nat) :
    Option (Fin n) × Seen n (Message n) → Option (Fin n × Packet n)
  | (some i, .read _ (.packet c)) => if c.id = id then some (i, c) else none
  | _ => none

/-- Who has received a packet, in order, and what. -/
def receptions (id : Nat × Nat) (tr : Trace n (Message n) Int) : List (Fin n × Packet n) :=
  tr.filterMap fun m => reception? id m.label

/-- The first steps along the path of a route. -/
def Route.hops (route : Route n) (trigger index m : Nat) : List (Fin n × Packet n) :=
  (route.path.take m).zipIdx.map fun x => (x.1, route.at trigger index x.2)

theorem receptions_snoc (id : Nat × Nat)
    (m : Move (State n (Message n) Int) (Option (Fin n) × Seen n (Message n))) :
    receptions id (tr ++ [m]) = receptions id tr ++ (reception? id m.label).toList :=
  filterMap_snoc ..

theorem reception?_eq_some {id : Nat × Nat} {m : Option (Fin n) × Seen n (Message n)}
    {c : Packet n} (h : reception? id m = some (i, c)) :
    c.id = id ∧ ∃ k, m = (some i, .read k (.packet c)) := by
  unfold reception? at h
  split at h
  · split at h
    · cases h
      exact ⟨‹_›, _, rfl⟩
    · cases h
  · cases h

theorem receivedBy_eq (i : Fin n) (tr : Trace n (Message n) Int) : receivedBy i tr =
    tr.filterMap fun m => (if m.label.1 = some i then some m.label.2 else none).bind received? :=
  List.filterMap_filterMap

theorem count_receptions (i : Fin n) (c : Packet n) (tr : Trace n (Message n) Int) :
    (receivedBy i tr).count (.packet c) = (receptions c.id tr).count (i, c) := by
  rw [receivedBy_eq, receptions, List.count_filterMap, List.count_filterMap]
  refine List.countP_congr fun m _ => ?_
  obtain ⟨s, ⟨p, e⟩, t⟩ := m
  simp only [beq_iff_eq]
  constructor
  · intro h
    by_cases hp : p = some i
    · rw [if_pos hp] at h
      subst hp
      cases e with
      | read k d =>
          cases h
          exact if_pos rfl
      | eof | wrote | epipe | said => cases h
    · rw [if_neg hp] at h
      cases h
  · intro h
    obtain ⟨-, k, hlabel⟩ := reception?_eq_some h
    cases hlabel
    rw [if_pos rfl]
    rfl

theorem mem_hops : (i, route.at trigger index step) ∈ route.hops trigger index m ↔
    step < m ∧ route.path[step]? = some i := by
  simp only [Route.hops, List.mem_map, Prod.mk.injEq, Prod.exists, List.mem_zipIdx_iff_getElem?,
    List.getElem?_take]
  constructor
  · rintro ⟨a, x, hx, rfl, heq⟩
    obtain rfl : x = step := congrArg Packet.currentStep heq
    split at hx
    · exact ⟨‹_›, hx⟩
    · cases hx
  · rintro ⟨hlt, hi⟩
    exact ⟨i, step, by rwa [if_pos hlt], rfl, rfl⟩

theorem hops_succ (hi : route.path[m]? = some i) : route.hops trigger index (m + 1) =
    route.hops trigger index m ++ [(i, route.at trigger index m)] := by
  have hlt : m ≤ route.path.length := (List.getElem?_eq_some_iff.mp hi).1.le
  simp [Route.hops, List.take_add_one, hi, List.zipIdx_append, hlt]

theorem arrivals_receptions (hi : route.path[step]? = some i) :
    arrivals route trigger index step tr =
      (receptions (trigger, index) tr).count (i, route.at trigger index step) :=
  (arrivals_at hi).trans (count_receptions ..)

section
variable (hfits : Fits routes)
  (r : Run (Step cap (generatedHarder routes)) (generatedHarder routes).begin tr s)
  (hroute : routes[index]? = some route)
include hfits r hroute

/-- A packet arrives no more often than it has arrived before. -/
theorem arrivals_le (trigger : Nat) (hle : m ≤ step) (hi : route.path[step]? = some i) :
    arrivals route trigger index step tr ≤ arrivals route trigger index m tr := by
  induction step generalizing i with
  | zero => rw [Nat.le_zero.mp hle]
  | succ step ih =>
      rcases Nat.lt_or_eq_of_le hle with hlt | rfl
      · have hstep : step < route.path.length :=
          (Nat.lt_succ_self step).trans (List.getElem?_eq_some_iff.mp hi).1
        have ha := List.getElem?_eq_getElem hstep
        have hnext := arrivals_next hfits r hroute ha hi trigger
        have hprev := ih (Nat.le_of_lt_succ hlt) ha
        omega
      · exact le_rfl

/-- It arrives once, if ever. -/
theorem arrivals_le_one (trigger : Nat) (hi : route.path[step]? = some i) :
    arrivals route trigger index step tr ≤ 1 := by
  have hle := arrivals_le hfits r hroute trigger (Nat.zero_le step) hi
  have hfirst := arrivals_first hfits r hroute trigger
  split at hfirst <;> omega

end

/-- **A packet goes along its path.** -/
theorem receptions_eq (hfits : Fits routes)
    (r : Run (Step cap (generatedHarder routes)) (generatedHarder routes).begin tr s)
    (hroute : routes[index]? = some route) (trigger : Nat) :
    ∃ m ≤ route.path.length, receptions (trigger, index) tr = route.hops trigger index m := by
  induction r with
  | refl => exact ⟨0, Nat.zero_le _, rfl⟩
  | @snoc s s' tr l r h ih =>
      obtain ⟨m, hm, hreceptions⟩ := ih
      rw [receptions_snoc]
      cases hl : reception? (trigger, index) l with
      | none => exact ⟨m, hm, by rw [hreceptions]; exact List.append_nil _⟩
      | some x =>
          obtain ⟨i, c⟩ := x
          obtain ⟨hid, k, rfl⟩ := reception?_eq_some hl
          have r' := r.snoc h
          have hread : .read k (.packet c) ∈ events (some i)
              (tr ++ [⟨s, (some i, .read k (.packet c)), s'⟩]) := by
            rw [events_snoc, if_pos rfl]
            exact List.mem_append_right _ (List.mem_singleton_self _)
          obtain ⟨hk, route', trigger', index', step, hroute', hvia, heq⟩ :=
            onRoute_of_read hfits r' hread
          obtain rfl : c = route'.at trigger' index' step := Message.packet.inj heq
          obtain ⟨rfl, rfl⟩ := Prod.mk.inj hid
          rw [hroute] at hroute'
          cases hroute'
          have hi := input_via hfits (List.mem_of_getElem? hroute) hvia hk
          have hafter : receptions (trigger', index')
              (tr ++ [⟨s, (some i, .read k (.packet (route.at trigger' index' step))), s'⟩]) =
              route.hops trigger' index' m ++ [(i, route.at trigger' index' step)] := by
            rw [receptions_snoc, hl, hreceptions]
            rfl
          -- it has not been there before, and it has been everywhere before
          have hold : ¬ step < m := fun hlt => by
            have hone := arrivals_le_one hfits r' hroute trigger' hi
            have hbefore : 0 < (route.hops trigger' index' m).count
                (i, route.at trigger' index' step) :=
              List.count_pos_iff.mpr (mem_hops.mpr ⟨hlt, hi⟩)
            rw [arrivals_receptions hi, hafter, List.count_append, List.count_singleton_self] at hone
            omega
          have hnew : ¬ m < step := fun hlt => by
            have hmlt := hlt.trans (List.getElem?_eq_some_iff.mp hi).1
            have ha := List.getElem?_eq_getElem hmlt
            have hle := arrivals_le hfits r' hroute trigger' hlt.le hi
            rw [arrivals_receptions hi, arrivals_receptions ha, hafter, List.count_append,
              List.count_singleton_self] at hle
            have hmem := List.count_pos_iff.mp (Nat.lt_of_lt_of_le (Nat.succ_pos _) hle)
            rcases List.mem_append.mp hmem with hmem | hmem
            · exact absurd (mem_hops.mp hmem).1 (lt_irrefl m)
            · have hsame := congrArg (fun x => x.2.currentStep) (List.mem_singleton.mp hmem)
              exact absurd hsame (Nat.ne_of_lt hlt)
          obtain rfl : step = m := by omega
          refine ⟨step + 1, (List.getElem?_eq_some_iff.mp hi).1, ?_⟩
          rw [hops_succ hi, hreceptions]
          rfl

/-! ### At rest -/

/-- Nothing is under way: no packet is in a pipe, no province has one in hand, and Casa Rosada is not
amid a distribution. -/
structure AtRest (s : State n (Message n) Int) : Prop where
  pipes : ∀ k (c : Packet n), .packet c ∉ s.pipes.content k
  provinces : ∀ i, (s.pc (some i)).unprinted = [] ∧ (s.pc (some i)).out = []
  boss : (s.pc none).pending = []

/-- How often a province occurs on the routes. -/
def occurrences (routes : List (Route n)) (i : Fin n) : Nat :=
  (routes.map fun route => route.path.count i).sum

/-- How many letters Casa Rosada has taken. -/
def triggers (tr : Trace n (Message n) Int) : Nat := (letters (events none tr)).length

def Message.id? : Message n → Option (Nat × Nat)
  | .packet c => some c.id
  | .report _ _ => none

/-- A list, by a key of its members. -/
theorem length_eq_sum {α κ : Type*} [DecidableEq κ] (key : α → Option κ) (S : Finset κ) {xs : List α}
    (h : ∀ x ∈ xs, ∃ y ∈ S, key x = some y) :
    xs.length = ∑ y ∈ S, xs.countP fun x => decide (key x = some y) := by
  induction xs with
  | nil => simp
  | cons x xs ih =>
      obtain ⟨y, hy, hkey⟩ := h x (List.mem_cons_self ..)
      have hone : ∑ z ∈ S, (if decide (key x = some z) = true then 1 else 0) = 1 := by
        simp only [hkey, decide_eq_true_eq, Option.some.injEq]
        rw [Finset.sum_ite_eq, if_pos hy]
      simp only [List.length_cons, List.countP_cons, Finset.sum_add_distrib, hone,
        ih fun x hx => h x (List.mem_cons_of_mem _ hx)]

theorem sum_getElem? {α : Type*} (f : α → Nat) (xs : List α) :
    ∑ m ∈ Finset.range xs.length, (xs[m]?.map f).getD 0 = (xs.map f).sum := by
  induction xs with
  | nil => rfl
  | cons x xs ih =>
      rw [List.length_cons, Finset.sum_range_succ', List.map_cons, List.sum_cons, ← ih, add_comm]
      rfl

/-- How often a packet was received by `i`. -/
theorem countP_receptions (i : Fin n) (id : Nat × Nat) (tr : Trace n (Message n) Int) :
    ((receivedBy i tr).countP fun c => decide (c.id? = some id)) =
      (receptions id tr).countP fun x => decide (x.1 = i) := by
  rw [receivedBy_eq, receptions, List.countP_filterMap, List.countP_filterMap]
  refine List.countP_congr fun m _ => ?_
  obtain ⟨s, ⟨p, e⟩, t⟩ := m
  cases p with
  | none => simp [reception?]
  | some a =>
      cases e with
      | read k c =>
          cases c with
          | packet c =>
              by_cases ha : a = i <;> by_cases hc : c.id = id <;>
                simp [reception?, received?, Message.id?, ha, hc]
          | report => by_cases ha : a = i <;> simp [reception?, received?, Message.id?, ha]
      | eof | wrote | epipe | said => by_cases ha : a = i <;> simp [reception?, received?, ha]

theorem countP_hops (trigger index : Nat) (i : Fin n) (route : Route n) :
    ((route.hops trigger index route.path.length).countP fun x => decide (x.1 = i)) =
      route.path.count i := by
  rw [Route.hops, List.take_length, List.countP_map, List.count_eq_countP]
  conv_rhs => rw [← List.zipIdx_map_fst 0 route.path, List.countP_map]
  rfl

section
variable (hfits : Fits routes)
  (r : Run (Step cap (generatedHarder routes)) (generatedHarder routes).begin tr s)
include hfits r

/-- A packet was sent for a letter that has been taken. -/
theorem lt_triggers (hroute : routes[index]? = some route) (hi : route.path[step]? = some i)
    (h : 0 < arrivals route trigger index step tr) : trigger < triggers tr := by
  have hfirst := arrivals_first hfits r hroute trigger
  have hle := arrivals_le hfits r hroute trigger (Nat.zero_le step) hi
  rw [triggers]
  split at hfirst <;> omega

theorem arrivals_of_rest (hrest : AtRest s) (hroute : routes[index]? = some route)
    (htrigger : trigger < triggers tr) (hi : route.path[step]? = some i) :
    arrivals route trigger index step tr = 1 := by
  induction step generalizing i with
  | zero =>
      have hfirst := arrivals_first hfits r hroute trigger
      rw [List.count_eq_zero.mpr (hrest.pipes _ _), hrest.boss] at hfirst
      exact hfirst.trans (if_pos htrigger)
  | succ step ih =>
      have hstep : step < route.path.length :=
        (Nat.lt_succ_self step).trans (List.getElem?_eq_some_iff.mp hi).1
      have ha := List.getElem?_eq_getElem hstep
      have hnext := arrivals_next hfits r hroute ha hi trigger
      rw [List.count_eq_zero.mpr (hrest.pipes _ _), (hrest.provinces _).2] at hnext
      exact hnext.trans (ih ha)

/-- Every packet has visited its whole path. -/
theorem receptions_of_rest (hrest : AtRest s) (hroute : routes[index]? = some route)
    (htrigger : trigger < triggers tr) :
    receptions (trigger, index) tr = route.hops trigger index route.path.length := by
  obtain ⟨m, hm, hreceptions⟩ := receptions_eq hfits r hroute trigger
  rcases Nat.lt_or_eq_of_le hm with hlt | rfl
  · have hi := List.getElem?_eq_getElem hlt
    have hone := arrivals_of_rest hfits r hrest hroute htrigger hi
    rw [arrivals_receptions hi, hreceptions] at hone
    have hmem := List.count_pos_iff.mp (hone ▸ Nat.one_pos)
    exact absurd (mem_hops.mp hmem).1 (lt_irrefl m)
  · exact hreceptions

/-- How much a province has received in all. -/
theorem length_received (hrest : AtRest s) (i : Fin n) :
    (receivedBy i tr).length = triggers tr * occurrences routes i := by
  have hkeys : ∀ c ∈ receivedBy i tr, ∃ id ∈ Finset.range (triggers tr) ×ˢ Finset.range routes.length,
      c.id? = some id := by
    intro c hc
    obtain ⟨k, hk, hwritten⟩ := written_of_received r hc
    obtain ⟨route, trigger, index, step, hroute, hvia, rfl⟩ :=
      onRoute hfits r (ne_reports hk) c hwritten
    have hi := input_via hfits (List.mem_of_getElem? hroute) hvia hk
    have hpos : 0 < arrivals route trigger index step tr := by
      rw [arrivals_at hi]
      exact List.count_pos_iff.mpr hc
    exact ⟨(trigger, index), Finset.mem_product.mpr ⟨Finset.mem_range.mpr
      (lt_triggers hfits r hroute hi hpos), Finset.mem_range.mpr
      (List.getElem?_eq_some_iff.mp hroute).1⟩, rfl⟩
  rw [length_eq_sum Message.id? _ hkeys, Finset.sum_product]
  have hrow : ∀ trigger ∈ Finset.range (triggers tr), ∑ index ∈ Finset.range routes.length,
      ((receivedBy i tr).countP fun c => decide (c.id? = some (trigger, index))) = occurrences routes i := by
    intro trigger htrigger
    rw [occurrences, ← sum_getElem?]
    refine Finset.sum_congr rfl fun index hindex => ?_
    have hroute := List.getElem?_eq_getElem (Finset.mem_range.mp hindex)
    rw [countP_receptions, receptions_of_rest hfits r hrest hroute (Finset.mem_range.mp htrigger),
      countP_hops, hroute]
    rfl
  rw [Finset.sum_const_nat hrow, Finset.card_range]

/-- What a province has counted, in its loop and in its report. -/
theorem relayed_of_rest (hrest : AtRest s) (i : Fin n) :
    (∀ l, (s.pc (some i)).loop = some l →
        l.state = wrap32 (triggers tr * occurrences routes i : Nat)) ∧
      ∀ c, .wrote .reports c ∈ events (some i) tr →
        c = .report i (wrap32 (triggers tr * occurrences routes i : Nat)) := by
  have hlength := length_received hfits r hrest i
  refine ⟨fun l hl => ?_, fun c hc => ?_⟩
  · have hstate : ((generatedHarder routes).fold i (receivedBy i tr)).1 = l.state :=
      (heard r i).state l hl
    rw [← hstate, fold_received hfits r, hlength]
  · have hf : (generatedHarder routes).report = some .report := rfl
    rw [reported hf r hc, fold_received hfits r, hlength]

end

/-! ### Routing -/

/-- **Packets are routed along their paths**, in every run: each is received by the provinces of a
prefix of its path, in order, as it was sent.  Once nothing is under way it has visited the whole
path, and every province has relayed as many as it occurs on the routes, for each letter; that is
what its `messages_relayed` says, as long as an `int` can. -/
theorem routing_law (hfits : Fits routes)
    (r : Run (Step cap (generatedHarder routes)) (generatedHarder routes).begin tr s) :
    (∀ (trigger index : Nat) (route : Route n), routes[index]? = some route →
      ∃ m ≤ route.path.length, receptions (trigger, index) tr = route.hops trigger index m) ∧
    (AtRest s →
      (∀ trigger < triggers tr, ∀ (index : Nat) (route : Route n), routes[index]? = some route →
        receptions (trigger, index) tr = route.hops trigger index route.path.length) ∧
      ∀ i, (receivedBy i tr).length = triggers tr * occurrences routes i ∧
        (triggers tr * occurrences routes i ≤ 2147483647 →
          (∀ l, (s.pc (some i)).loop = some l →
            l.state = (triggers tr * occurrences routes i : Nat)) ∧
          ∀ c, .wrote .reports c ∈ events (some i) tr →
            c = .report i (triggers tr * occurrences routes i : Nat))) := by
  refine ⟨fun trigger index route hroute => receptions_eq hfits r hroute trigger, fun hrest =>
    ⟨fun trigger htrigger index route hroute => receptions_of_rest hfits r hrest hroute htrigger,
      fun i => ⟨length_received hfits r hrest i, fun hint => ?_⟩⟩⟩
  have hrelayed := relayed_of_rest hfits r hrest i
  rwa [wrap32_natCast hint] at hrelayed

/-- One packet goes there and back, and one stays there. -/
def roundTrip : List (Route 2) := [⟨[0, 1, 0], "a"⟩, ⟨[0, 1], "b"⟩]

theorem roundTrip_fits : Fits roundTrip where
  starts := by simp [roundTrip]
  moves route hroute step i := by
    simp only [roundTrip, List.mem_cons, List.not_mem_nil, or_false] at hroute
    rcases hroute with rfl | rfl <;>
      (obtain _ | _ | _ | step := step <;> simp <;> (rintro rfl; decide))

/-- Casa Rosada sends both packets. -/
def distributes : List (Option (Fin 2) × Option (Option UInt8)) :=
  quiet none 8 ++ (none, some (some 97)) :: quiet none 3

theorem routing_law_roundTrip :
    ∃ (tr : Trace 2 (Message 2) Int) (s : State 2 (Message 2) Int),
      Run (Step 5 (generatedHarder roundTrip)) (generatedHarder roundTrip).begin tr s ∧
        triggers tr = 1 ∧ (receptions (0, 0) tr).map Prod.fst = [0, 1, 0] ∧
        (receivedBy 0 tr).length = 3 ∧ (receivedBy 1 tr).length = 2 := by
  have hplay : (play 5 (generatedHarder roundTrip).op (generatedHarder roundTrip).begin
      (distributes ++ quiet (some 0) 19 ++ quiet (some 1) 17 ++ quiet (some 0) 4)).map
      (fun x => (((x.1.filterMap fun l => if l.1 = none then some l.2 else none).filterMap
          letter?).length, decide (∀ k ∈ allPipes 2, x.2.pipes.content k = []),
        decide (∀ i, (x.2.pc (some i)).unprinted = [] ∧ (x.2.pc (some i)).out = []),
        decide ((x.2.pc none).pending = []))) = some (1, true, true, true) := by
    decide +kernel
  obtain ⟨tr, s, r, h⟩ := play_map hplay
  simp only [Prod.mk.injEq, List.filterMap_map, decide_eq_true_eq] at h
  obtain ⟨htriggers, hempty, hprovinces, hpending⟩ := h
  have hrest : AtRest s := by
    refine ⟨fun k c hc => ?_, hprovinces, hpending⟩
    rw [hempty k (mem_allPipes k)] at hc
    cases hc
  have htriggers : triggers tr = 1 := htriggers
  obtain ⟨hpaths, hrelayed⟩ := (routing_law roundTrip_fits r).2 hrest
  refine ⟨tr, s, r, htriggers, ?_, ?_, ?_⟩
  · rw [hpaths 0 (htriggers ▸ Nat.one_pos) 0 _ rfl]
    rfl
  · rw [(hrelayed 0).1, htriggers]
    rfl
  · rw [(hrelayed 1).1, htriggers]
    rfl

/-! ### Two billion packets -/

/-- The only packet stays where it is injected. -/
def stays : List (Route 1) := [⟨[0], "a"⟩]

theorem stays_fits : Fits stays where
  starts := by simp [stays]
  moves route hroute step i := by
    obtain rfl := List.mem_singleton.mp hroute
    cases step <;> simp

/-- Casa Rosada waits for a letter, and the province for a packet. -/
structure Idling (s : State 1 (Message 1) Int) : Prop where
  boss : ∃ t, s.pc none = .fifo t
  province : ∃ m, s.pc (some 0) = .check ⟨m, [.boss], []⟩
  empty : ∀ k, s.pipes.content k = []
  listens : s.pipes.reads (some 0) .boss = true

theorem Idling.atRest {s : State 1 (Message 1) Int} (h : Idling s) : AtRest s where
  pipes k c hc := by
    rw [h.empty k] at hc
    cases hc
  provinces i := by
    obtain ⟨m, hm⟩ := h.province
    rw [Subsingleton.elim i 0, hm]
    exact ⟨rfl, rfl⟩
  boss := by
    obtain ⟨t, ht⟩ := h.boss
    rw [ht]
    rfl

/-- One letter: the packet is injected and received, and both wait again. -/
theorem Idling.letter {s : State 1 (Message 1) Int} (h : Idling s) : ∃ tr u,
    Run (Step 5 (generatedHarder stays)) s tr u ∧ Idling u ∧ triggers tr = 1 := by
  obtain ⟨t, ht⟩ := h.boss
  obtain ⟨m, hm⟩ := h.province
  have hread : ¬ s.pipes.NoReader .boss := Pipes.not_noReader.mpr ⟨some 0, h.listens⟩
  have hroom : (s.pipes.content .boss).length < 5 := by
    rw [h.empty]
    decide
  let c : Message 1 := Route.packet t (stays[0], 0)
  have hnext : s.pipes.content .boss ++ [c] = [c] := by rw [h.empty, List.nil_append]
  have hask : Step 5 (generatedHarder stays) s _ (s.go none s.pipes (.inject [c] (t + 1))) :=
    .ask none _ (some 97) _ _ ((congrArg _ ht).trans rfl) rfl
  have hwrite : Step 5 (generatedHarder stays) (s.go none s.pipes (.inject [c] (t + 1))) _ _ :=
    .write none (.boss : Pipe 1) c _ _ _ rfl (.ok hread hroom)
  have r := (((((((Run.one hask).snoc hwrite).snoc
    (.act none _ _ rfl)).snoc
    (.act (some 0) _ _ ((congrArg _ hm).trans rfl))).snoc
    (.read (some 0) (.boss : Pipe 1) _ _ _ c _ rfl (.data c [] hnext))).snoc
    (.act (some 0) _ _ rfl)).snoc
    (.act (some 0) _ _ rfl)).snoc
    (.act (some 0) _ _ rfl)
  refine ⟨_, _, r, ⟨⟨_, rfl⟩, ⟨_, rfl⟩, fun k => ?_, h.listens⟩, rfl⟩
  by_cases hk : k = .boss
  · subst hk
    rfl
  · exact (Function.update_of_ne hk ..).trans ((Function.update_of_ne hk ..).trans (h.empty k))

/-- Any number of letters. -/
theorem idling_run (k : Nat) : ∃ tr s,
    Run (Step 5 (generatedHarder stays)) (generatedHarder stays).begin tr s ∧ Idling s ∧
      triggers tr = k := by
  induction k with
  | zero =>
      have hplay : ∃ es s, play 5 (generatedHarder stays).op (generatedHarder stays).begin
          (quiet none 4 ++ quiet (some 0) 3) = some (es, s) ∧ Idling s ∧
            (es.filterMap fun l => if l.1 = none then some l.2 else none).filterMap letter? = [] :=
        ⟨_, _, rfl, ⟨⟨_, rfl⟩, ⟨_, rfl⟩, fun _ => rfl, rfl⟩, rfl⟩
      obtain ⟨es, s, hplay, hidle, hnone⟩ := hplay
      obtain ⟨tr, r, rfl⟩ := play_run hplay
      rw [List.filterMap_map] at hnone
      exact ⟨tr, s, r, hidle, congrArg List.length hnone⟩
  | succ k ih =>
      obtain ⟨tr, s, r, hidle, htriggers⟩ := ih
      obtain ⟨tr', u, r', hidle', hone⟩ := hidle.letter
      refine ⟨tr ++ tr', u, r.trans r', hidle', ?_⟩
      rw [triggers, events, letters] at htriggers hone ⊢
      rw [List.filterMap_append, List.filterMap_append, List.length_append, htriggers, hone]

/-- The pipes are empty while both packets are in hand; and after 2147483648 packets at rest, the
counter of the province that has relayed them is negative. -/
theorem routing_amiss :
    (∃ (tr : Trace 2 (Message 2) Int) (s : State 2 (Message 2) Int),
      Run (Step 5 (generatedHarder roundTrip)) (generatedHarder roundTrip).begin tr s ∧
        triggers tr = 1 ∧ (∀ k, s.pipes.content k = []) ∧
        (receptions (0, 0) tr).map Prod.fst = [0, 1]) ∧
    ∃ (tr : Trace 1 (Message 1) Int) (s : State 1 (Message 1) Int) (l : Loop 1 Int),
      Run (Step 5 (generatedHarder stays)) (generatedHarder stays).begin tr s ∧ AtRest s ∧
        triggers tr * occurrences stays 0 = 2147483648 ∧ (s.pc (some 0)).loop = some l ∧
        l.state = -2147483648 := by
  constructor
  · have hplay : (play 5 (generatedHarder roundTrip).op (generatedHarder roundTrip).begin
        (distributes ++ quiet (some 0) 15 ++ quiet (some 1) 8)).map
        (fun x => (((x.1.filterMap fun l => if l.1 = none then some l.2 else none).filterMap
            letter?).length, decide (∀ k ∈ allPipes 2, x.2.pipes.content k = []),
          (x.1.filterMap (reception? (0, 0))).map Prod.fst)) = some (1, true, [0, 1]) := by
      decide +kernel
    obtain ⟨tr, s, r, h⟩ := play_map hplay
    simp only [Prod.mk.injEq, List.filterMap_map, decide_eq_true_eq] at h
    obtain ⟨htriggers, hempty, hreceptions⟩ := h
    exact ⟨tr, s, r, htriggers, fun k => hempty k (mem_allPipes k), hreceptions⟩
  · obtain ⟨tr, s, r, hidle, htriggers⟩ := idling_run 2147483648
    have hcount : triggers tr * occurrences stays 0 = 2147483648 := by
      rw [htriggers]
      rfl
    have hrelayed := (relayed_of_rest stays_fits r hidle.atRest 0).1
    obtain ⟨m, hm⟩ := hidle.province
    have hloop : (s.pc (some 0)).loop = some ⟨m, [.boss], []⟩ := by
      rw [hm]
      rfl
    refine ⟨tr, s, _, r, hidle.atRest, hcount, hloop, ?_⟩
    rw [hrelayed _ hloop, hcount]
    exact wrap32_past (by decide) (by decide)

end Sop2.Provinces
