import Mathlib.Data.Finset.Card
import Mathlib.Data.Fintype.Card
import Mathlib.Data.List.Induction
import Mathlib.Data.List.TakeWhile
import Sop2.Lab08.Napoleon.StaffMap

/-!
# Lab08 — Napoleon — the register of divisions

What the register says after any run of the adjutants: `Filing` is one section under `div_mutex`,
the report and the index it got, and `Lawful` relates the register to all filings so far.

`main` does not initialise `div_names`, and `strncpy` with 128 copies no NUL of a name of 128
characters.  The last byte of the slot ends the name then, or does not.  `register_law`: the
register is lawful all along a run exactly when the slots that names of 128 characters get end
with a NUL before the program starts (`Terminated`).  Which slots these are is known from the
reports: the slot is the number of the other names before (`Lawful.card`).
-/

namespace Sop2.Napoleon
open Support

variable {A : Type*}

/-- `div_name` after the `memset` and `sscanf` with `%128[^\n]`. -/
def Parsed (name : List UInt8) : Prop :=
  ∃ chars : List UInt8, 1 ≤ chars.length ∧ chars.length ≤ 128 ∧ 0 ∉ chars ∧
    name = chars ++ List.replicate (129 - chars.length) 0

/-- A report and the index it got. -/
structure Filing (A : Type*) where
  rep : Report A
  divIdx : Option Nat

/-- The name reported. -/
def Filing.text (f : Filing A) : List UInt8 := cString f.rep.name

/-- The filing of a move. -/
def filing (m : Move (Staff A) Staff.Label) : Option (Filing A) :=
  match m.label with
  | .register i =>
      match m.before.clerk i with
      | .reported rep => some ⟨rep, (m.before.registry.register rep).2⟩
      | _ => none
  | _ => none

/-- The filings of a run, in order. -/
def filings (tr : List (Move (Staff A) Staff.Label)) : List (Filing A) := tr.filterMap filing

/-- The register after the filings `fs`. -/
structure Lawful (fs : List (Filing A)) (g : Registry A) : Prop where
  bound : g.numDivs ≤ divisionNamesSize
  full : ∀ f ∈ fs, f.divIdx = none → g.numDivs = divisionNamesSize
  same : ∀ f ∈ fs, ∀ f' ∈ fs, ∀ d d', f.divIdx = some d → f'.divIdx = some d' →
    (d = d' ↔ f.text = f'.text)
  stored : ∀ f ∈ fs, ∀ d, f.divIdx = some d → d < g.numDivs ∧ cString (g.divNames d) = f.text
  latest : ∀ d < g.numDivs, ∃ before f after, fs = before ++ f :: after ∧ f.divIdx = some d ∧
    (∀ f' ∈ after, f'.text ≠ f.text) ∧ g.divAddr d = f.rep.addr ∧ g.divP d = f.rep.p

/-- A name of 128 characters that comes as the next of the `names`, the register not being full,
gets a slot of `g` that ends with a NUL. -/
def Fits (g : Registry A) (names : List (List UInt8)) (name : List UInt8) : Prop :=
  name ∉ names → names.toFinset.card < divisionNamesSize → name.length = 128 →
    (g.divNames names.toFinset.card)[128]? = some 0

/-- Each of the `names` fits when it comes. -/
def Terminated (g : Registry A) (names : List (List UInt8)) : Prop :=
  ∀ before name after, names = before ++ name :: after → Fits g before name

/-! ### One name -/

theorem Parsed.cString_eq {name : List UInt8} (h : Parsed name) :
    ∃ chars, cString name = chars ∧ chars.length ≤ 128 ∧ 0 ∉ chars := by
  obtain ⟨chars, -, hle, hz, rfl⟩ := h
  obtain ⟨n, hn⟩ : ∃ n, 129 - chars.length = n + 1 := ⟨128 - chars.length, by omega⟩
  rw [hn, List.replicate_succ]
  exact ⟨chars, cString_append hz _, hle, hz⟩

/-- **The copy of a name.**  It reads as the name unless that has 128 characters and the slot does
not end with a NUL. -/
theorem cString_strncpy {dst name : List UInt8} (hd : dst.length = 129) (h : Parsed name) :
    cString (strncpy dst name 128) = cString name ↔
      ((cString name).length = 128 → dst[128]? = some 0) := by
  obtain ⟨chars, hc, hle, -⟩ := h.cString_eq
  have hlast : dst[128]? = some dst[128] := List.getElem?_eq_getElem (by omega)
  have hlen : (cString name).length ≤ 128 := by rw [hc]; exact hle
  rw [cString_strncpy_iff hd hlast hlen, hlast]
  constructor
  · rintro (hlt | hz) heq
    · omega
    · rw [hz]
  · intro h
    rcases Nat.lt_or_eq_of_le hlen with hlt | heq
    · exact .inl hlt
    · exact .inr (Option.some.inj (h heq))

/-! ### One section -/

variable {g : Registry A} {rep : Report A}

theorem lookup_some {name : List UInt8} {i : Nat} (h : g.lookup name = some i) :
    i < g.numDivs ∧ cString (g.divNames i) = cString name :=
  ⟨List.mem_range.mp (List.mem_of_find?_eq_some h), by simpa using List.find?_some h⟩

theorem lookup_none {name : List UInt8} (h : g.lookup name = none) {i : Nat}
    (hi : i < g.numDivs) : cString (g.divNames i) ≠ cString name := by
  simpa using List.find?_eq_none.mp h i (List.mem_range.mpr hi)

/-- The register with the address and side of the last report for `i`. -/
def Registry.signed (g : Registry A) (i : Nat) (rep : Report A) : Registry A :=
  { g with
    divAddr := Function.update g.divAddr i rep.addr
    divP := Function.update g.divP i rep.p }

/-- The register with one more name. -/
def Registry.entered (g : Registry A) (rep : Report A) : Registry A :=
  { g with
    divNames := Function.update g.divNames g.numDivs
      (strncpy (g.divNames g.numDivs) rep.name 128)
    numDivs := g.numDivs + 1 }

/-- **One section.**  The name is known; or it is new and there is room; or there is none. -/
theorem register_cases (g : Registry A) (rep : Report A) :
    (∃ i, g.lookup rep.name = some i ∧ g.register rep = (g.signed i rep, some i)) ∨
      (g.lookup rep.name = none ∧ g.numDivs < divisionNamesSize ∧
        g.register rep = ((g.entered rep).signed g.numDivs rep, some g.numDivs)) ∨
      g.lookup rep.name = none ∧ divisionNamesSize ≤ g.numDivs ∧ g.register rep = (g, none) := by
  unfold Registry.register
  cases h : g.lookup rep.name with
  | some i => exact .inl ⟨i, rfl, rfl⟩
  | none =>
      by_cases hlt : g.numDivs < divisionNamesSize
      · exact .inr (.inl ⟨rfl, hlt, by simp only [if_pos hlt]; rfl⟩)
      · exact .inr (.inr ⟨rfl, by omega, by simp only [if_neg hlt]⟩)

/-! ### A lawful register -/

variable {fs : List (Filing A)}

/-- The names in the register are different from each other. -/
theorem Lawful.inj (h : Lawful fs g) {d d' : Nat} (hd : d < g.numDivs) (hd' : d' < g.numDivs)
    (e : cString (g.divNames d) = cString (g.divNames d')) : d = d' := by
  obtain ⟨b, f, a, hf, hfd, -⟩ := h.latest d hd
  obtain ⟨b', f', a', hf', hfd', -⟩ := h.latest d' hd'
  have hm : f ∈ fs := by simp [hf]
  have hm' : f' ∈ fs := by simp [hf']
  rw [(h.stored f hm d hfd).2, (h.stored f' hm' d' hfd').2] at e
  exact (h.same f hm f' hm' d d' hfd hfd').mpr e

/-- The names in the register were reported. -/
theorem Lawful.reported (h : Lawful fs g) {d : Nat} (hd : d < g.numDivs) :
    cString (g.divNames d) ∈ fs.map Filing.text := by
  obtain ⟨b, f, a, hf, hfd, -⟩ := h.latest d hd
  have hm : f ∈ fs := by simp [hf]
  rw [(h.stored f hm d hfd).2]
  exact List.mem_map_of_mem hm

/-- As many names were reported as the register holds, as long as it is not full. -/
theorem Lawful.card (h : Lawful fs g) :
    g.numDivs ≤ (fs.map Filing.text).toFinset.card ∧
      (g.numDivs < divisionNamesSize → (fs.map Filing.text).toFinset.card = g.numDivs) := by
  have hcard : ((Finset.range g.numDivs).image fun d => cString (g.divNames d)).card
      = g.numDivs := by
    rw [Finset.card_image_of_injOn, Finset.card_range]
    intro d hd d' hd' e
    exact h.inj (Finset.mem_range.mp hd) (Finset.mem_range.mp hd') e
  have hsub : ((Finset.range g.numDivs).image fun d => cString (g.divNames d)) ⊆
      (fs.map Filing.text).toFinset := by
    intro name hname
    obtain ⟨d, hd, rfl⟩ := Finset.mem_image.mp hname
    exact List.mem_toFinset.mpr (h.reported (Finset.mem_range.mp hd))
  refine ⟨hcard ▸ Finset.card_le_card hsub, fun hlt => ?_⟩
  rw [← hcard]
  congr 1
  refine Finset.Subset.antisymm (fun name hname => ?_) hsub
  obtain ⟨f, hf, rfl⟩ := List.mem_map.mp (List.mem_toFinset.mp hname)
  cases hd : f.divIdx with
  | none =>
      have := h.full f hf hd
      omega
  | some d =>
      obtain ⟨hlt, e⟩ := h.stored f hf d hd
      exact Finset.mem_image.mpr ⟨d, Finset.mem_range.mpr hlt, e⟩

/-- A name is in the register if it was reported and the register is not full. -/
theorem Lawful.lookup_none_iff (h : Lawful fs g) (hlt : g.numDivs < divisionNamesSize)
    (name : List UInt8) : g.lookup name = none ↔ cString name ∉ fs.map Filing.text := by
  constructor
  · intro hl hmem
    obtain ⟨f, hf, e⟩ := List.mem_map.mp hmem
    cases hd : f.divIdx with
    | none =>
        have := h.full f hf hd
        omega
    | some d =>
        obtain ⟨hdlt, hs⟩ := h.stored f hf d hd
        exact lookup_none hl hdlt (hs.trans e)
  · intro hmem
    cases hl : g.lookup name with
    | none => rfl
    | some i =>
        obtain ⟨hi, e⟩ := lookup_some hl
        exact (hmem (e ▸ h.reported hi)).elim

theorem lawful_nil (g : Registry A) (h : g.numDivs = 0) : Lawful [] g where
  bound := by simp [h]
  full := by simp
  same := by simp
  stored := by simp
  latest d hd := by omega

/-! ### One more filing -/

/-- A filing for the index `i` of `g'`, which has the names of `g` and perhaps one more. -/
theorem Lawful.file (h : Lawful fs g) {g' : Registry A} {i : Nat} (hi : i < g'.numDivs)
    (hbound : g'.numDivs ≤ divisionNamesSize) (hgrow : g.numDivs ≤ g'.numDivs)
    (hold : ∀ d < g'.numDivs, d ≠ i → d < g.numDivs)
    (hnames : ∀ d < g.numDivs, g'.divNames d = g.divNames d)
    (haddr : g'.divAddr = g.divAddr) (hp : g'.divP = g.divP)
    (hname : cString (g'.divNames i) = cString rep.name)
    (hother : ∀ d < g.numDivs, d ≠ i → cString (g.divNames d) ≠ cString rep.name) :
    Lawful (fs ++ [⟨rep, some i⟩]) (g'.signed i rep) := by
  -- an old filing has the new index exactly when it has the new name
  have hnew : ∀ f ∈ fs, ∀ d, f.divIdx = some d → (d = i ↔ f.text = cString rep.name) := by
    intro f hf d hd
    obtain ⟨hlt, hs⟩ := h.stored f hf d hd
    constructor
    · rintro rfl
      rw [← hs, ← hnames d hlt, hname]
    · intro e
      by_contra hne
      exact hother d hlt hne (hs.trans e)
  refine ⟨hbound, forall_mem_snoc (fun f hf hd => ?_) (by simp), fun f hf f' hf' d d' hd hd' => ?_,
    forall_mem_snoc (fun f hf d hd => ?_) fun d hd => ?_, fun d hd => ?_⟩
  · have := h.full f hf hd
    change g'.numDivs = _
    omega
  · rcases List.mem_append.mp hf with hf | hf <;> rcases List.mem_append.mp hf' with hf' | hf'
    · exact h.same f hf f' hf' d d' hd hd'
    · obtain rfl := List.mem_singleton.mp hf'
      obtain rfl := Option.some.inj hd'
      exact hnew f hf d hd
    · obtain rfl := List.mem_singleton.mp hf
      obtain rfl := Option.some.inj hd
      rw [eq_comm, hnew f' hf' d' hd', eq_comm]
      rfl
    · obtain rfl := List.mem_singleton.mp hf
      obtain rfl := List.mem_singleton.mp hf'
      simp [← Option.some.inj hd, ← Option.some.inj hd']
  · obtain ⟨hlt, hs⟩ := h.stored f hf d hd
    exact ⟨Nat.lt_of_lt_of_le hlt hgrow, (congrArg cString (hnames d hlt)).trans hs⟩
  · obtain rfl := Option.some.inj hd
    exact ⟨hi, hname⟩
  · by_cases hdi : d = i
    · subst hdi
      exact ⟨fs, _, [], rfl, rfl, by simp, Function.update_self .., Function.update_self ..⟩
    · have hlt := hold d hd hdi
      obtain ⟨before, f, after, e, hfd, hafter, hfa, hfp⟩ := h.latest d hlt
      have hm : f ∈ fs := by simp [e]
      have hne : Filing.text ⟨rep, some i⟩ ≠ f.text := fun e => hdi ((hnew f hm d hfd).mpr e.symm)
      refine ⟨before, f, after ++ [⟨rep, some i⟩], by rw [e]; simp, hfd,
        forall_mem_snoc hafter hne, ?_, ?_⟩
      · exact ((Function.update_of_ne hdi ..).trans (congrFun haddr d)).trans hfa
      · exact ((Function.update_of_ne hdi ..).trans (congrFun hp d)).trans hfp

/-- A filing that gets no index, the register being full. -/
theorem Lawful.turnedAway (h : Lawful fs g) (hfull : divisionNamesSize ≤ g.numDivs)
    (hl : g.lookup rep.name = none) : Lawful (fs ++ [⟨rep, none⟩]) g := by
  refine ⟨h.bound, forall_mem_snoc h.full fun _ => Nat.le_antisymm h.bound hfull,
    fun f hf f' hf' d d' hd hd' => ?_, forall_mem_snoc h.stored (by simp), fun d hd => ?_⟩
  · have hmem : ∀ f ∈ fs ++ [⟨rep, none⟩], ∀ d, f.divIdx = some d → f ∈ fs :=
      forall_mem_snoc (fun f hf _ _ => hf) (by simp)
    exact h.same f (hmem f hf d hd) f' (hmem f' hf' d' hd') d d' hd hd'
  · obtain ⟨before, f, after, e, hfd, hafter, hfa⟩ := h.latest d hd
    have hm : f ∈ fs := by simp [e]
    refine ⟨before, f, after ++ [⟨rep, none⟩], by rw [e]; simp, hfd,
      forall_mem_snoc hafter ?_, hfa⟩
    rw [← (h.stored f hm d hfd).2]
    exact (lookup_none hl hd).symm

/-- **One more filing.**  The register stays lawful exactly when the name fits. -/
theorem Lawful.register {g₀ : Registry A} (h : Lawful fs g) (hg₀ : ∀ d, (g₀.divNames d).length = 129)
    (hfresh : ∀ d, g.numDivs ≤ d → g.divNames d = g₀.divNames d) (hn : Parsed rep.name) :
    Lawful (fs ++ [⟨rep, (g.register rep).2⟩]) (g.register rep).1 ↔
      Fits g₀ (fs.map Filing.text) (cString rep.name) := by
  rcases register_cases g rep with ⟨i, hl, e⟩ | ⟨hl, hlt, e⟩ | ⟨hl, hfull, e⟩
  · obtain ⟨hi, hs⟩ := lookup_some hl
    have hlaw : Lawful (fs ++ [⟨rep, some i⟩]) (g.signed i rep) :=
      h.file hi h.bound le_rfl (fun d hd _ => hd) (fun _ _ => rfl) rfl rfl hs
        fun d hd hdi e => hdi (h.inj hd hi (e.trans hs.symm))
    rw [e]
    exact ⟨fun _ hnew => (hnew (hs ▸ h.reported hi)).elim, fun _ => hlaw⟩
  · have hcard := h.card.2 hlt
    have hnew := (h.lookup_none_iff hlt rep.name).mp hl
    have hcopy := cString_strncpy (hfresh g.numDivs le_rfl ▸ hg₀ g.numDivs) hn
    have hname : ((g.entered rep).divNames g.numDivs) =
        strncpy (g.divNames g.numDivs) rep.name 128 := Function.update_self ..
    rw [e]
    unfold Fits
    rw [hcard, ← hfresh g.numDivs le_rfl]
    constructor
    · intro hlaw _ _
      have hstored := (hlaw.stored ⟨rep, some g.numDivs⟩ (by simp) _ rfl).2
      exact hcopy.mp ((congrArg cString hname).symm.trans hstored)
    · intro hfits
      refine h.file (Nat.lt_succ_self _) hlt (Nat.le_succ _)
        (fun d hd hne => lt_of_le_of_ne (Nat.lt_succ_iff.mp hd) hne)
        (fun d hd => Function.update_of_ne (Nat.ne_of_lt hd) ..) rfl rfl ?_
        fun d hd _ => lookup_none hl hd
      rw [hname]
      exact hcopy.mpr (hfits hnew hlt)
  · have hcard := h.card.1
    rw [e]
    exact ⟨fun _ _ hlt => by omega, fun _ => h.turnedAway hfull hl⟩

/-! ### The whole run -/

variable {s t : Staff A} {l : Staff.Label} {tr : List (Move (Staff A) Staff.Label)}

/-- A step files nothing and keeps the register, or it files one report. -/
theorem filing_cases (h : Staff.Step s l t) :
    filing ⟨s, l, t⟩ = none ∧ t.registry = s.registry ∨
      ∃ rep, filing ⟨s, l, t⟩ = some ⟨rep, (s.registry.register rep).2⟩ ∧
        t.registry = (s.registry.register rep).1 := by
  cases h with
  | report | scan | place => exact .inl ⟨rfl, rfl⟩
  | register i rep hi => exact .inr ⟨rep, by simp only [filing, hi], rfl⟩

@[simp] theorem filings_snoc (tr : List (Move (Staff A) Staff.Label))
    (m : Move (Staff A) Staff.Label) : filings (tr ++ [m]) = filings tr ++ (filing m).toList := by
  unfold filings
  rw [List.filterMap_append]
  cases h : filing m <;> simp [h]

/-- The slots behind the names are as they were. -/
theorem fresh_run (r : Run Staff.Step (Staff.begin g) tr t) :
    ∀ d, t.registry.numDivs ≤ d → t.registry.divNames d = g.divNames d := by
  refine r.invariant
    (I := fun s => ∀ d, s.registry.numDivs ≤ d → s.registry.divNames d = g.divNames d)
    (fun {s l t} hs h => ?_) fun _ _ => rfl
  rcases filing_cases h with ⟨-, e⟩ | ⟨rep, -, e⟩
  · rwa [e]
  · rw [e]
    rcases register_cases s.registry rep with ⟨i, -, e⟩ | ⟨-, -, e⟩ | ⟨-, -, e⟩ <;> rw [e]
    · exact hs
    · intro d hd
      have hlt : s.registry.numDivs < d := hd
      exact (Function.update_of_ne (by omega) ..).trans (hs d (by omega))
    · exact hs

theorem terminated_snoc {names : List (List UInt8)} {name : List UInt8} :
    Terminated g (names ++ [name]) ↔ Terminated g names ∧ Fits g names name := by
  constructor
  · intro h
    exact ⟨fun before name' after e => h before name' (after ++ [name]) (by simp [e]),
      h names name [] rfl⟩
  · rintro ⟨h, hfits⟩ before name' after e
    rcases snoc_eq_append_cons.mp e with ⟨-, rfl, rfl⟩ | ⟨after, -, e⟩
    · exact hfits
    · exact h before name' after e

/-- **The register.**  Let `div_names` hold whatever it does, and let the adjutants take reports
with names of up to 128 characters in any order.  In every state of the run there are at most
`DIVISION_NAMES_SIZE` names; a report gets an index unless the register is full; two that got one
got the same exactly if their names are equal; the name at an index is the reported one; and its
address and side are those of the last report with the name — in every state exactly when every
name of 128 characters comes to a slot that ends with a NUL. -/
theorem register_law (r : Run Staff.Step (Staff.begin g) tr t)
    (hg : ∀ d, (g.divNames d).length = 129) (hn : ∀ f ∈ filings tr, Parsed f.rep.name) :
    (∀ tr₁ s, tr₁ <+: tr → Run Staff.Step (Staff.begin g) tr₁ s →
      Lawful (filings tr₁) s.registry) ↔ Terminated g ((filings tr).map Filing.text) := by
  induction r with
  | refl =>
      refine ⟨fun _ before name after e => ?_, fun _ tr₁ s hpre r₁ => ?_⟩
      · simp [filings] at e
      · obtain rfl := List.prefix_nil.mp hpre
        obtain rfl := r₁.unique (.refl _)
        exact lawful_nil _ rfl
  | @snoc t u tr l r h ih =>
      have ih := ih fun f hf => hn f (by simp [hf])
      have hsplit : (∀ tr₁ s, tr₁ <+: tr ++ [⟨t, l, u⟩] → Run Staff.Step (Staff.begin g) tr₁ s →
          Lawful (filings tr₁) s.registry) ↔
            (∀ tr₁ s, tr₁ <+: tr → Run Staff.Step (Staff.begin g) tr₁ s →
              Lawful (filings tr₁) s.registry) ∧
            Lawful (filings (tr ++ [⟨t, l, u⟩])) u.registry := by
        constructor
        · exact fun hall => ⟨fun tr₁ s hpre => hall tr₁ s (hpre.trans (List.prefix_append ..)),
            hall _ u (List.prefix_refl _) (r.snoc h)⟩
        · rintro ⟨hall, hlast⟩ tr₁ s hpre r₁
          rcases List.prefix_concat_iff.mp hpre with rfl | hpre
          · exact r₁.unique (r.snoc h) ▸ hlast
          · exact hall tr₁ s hpre r₁
      rw [hsplit, ih]
      rcases filing_cases h with ⟨hf, e⟩ | ⟨rep, hf, e⟩
      · rw [filings_snoc, hf, e, Option.toList_none, List.append_nil]
        exact and_iff_left_of_imp fun hT => ih.mpr hT tr t (List.prefix_refl _) r
      · have hp : Parsed rep.name := hn ⟨rep, (t.registry.register rep).2⟩ (by rw [filings_snoc, hf]; simp)
        rw [filings_snoc, hf, e, Option.toList_some, List.map_append]
        refine Iff.trans (and_congr_right fun hT => ?_) terminated_snoc.symm
        have hlaw := ih.mpr hT tr t (List.prefix_refl _) r
        exact hlaw.register hg (fresh_run r) hp

/-! ### One report, twice -/

/-- Two adjutants register the same report, one after the other. -/
theorem twice_run (g : Registry A) (rep : Report A) {i j : Option Nat}
    (hi : ((Staff.begin g).registry.register rep).2 = i)
    (hj : (((Staff.begin g).registry.register rep).1.register rep).2 = j) : ∃ tr t,
    Run Staff.Step (Staff.begin g) tr t ∧
      t.registry = (((Staff.begin g).registry.register rep).1.register rep).1 ∧
      filings tr = [⟨rep, i⟩, ⟨rep, j⟩] := by
  have r : Run Staff.Step (Staff.begin g) _ _ :=
    (((Run.one (.report 0 rep rfl)).snoc (.report 1 rep rfl)).snoc
      (.register 0 rep rfl)).snoc (.register 1 rep rfl)
  subst hi hj
  exact ⟨_, _, r, rfl, rfl⟩

/-- A name of 128 characters. -/
def longName : List UInt8 := List.replicate 128 65 ++ List.replicate 1 0

/-- A report with this name. -/
def longReport : Report Unit := ⟨0, 0, 0, longName, ()⟩

/-- Every slot holds the byte `b`, 129 times. -/
def filled (b : UInt8) : Registry Unit := ⟨fun _ => List.replicate 129 b, fun _ => (), fun _ => 0, 0⟩

theorem parsed_longName : Parsed longName :=
  ⟨List.replicate 128 65, by simp, by simp, by simp, by simp [longName]⟩

/-- In a register that holds no NUL one name gets two indices, and neither slot says it. -/
theorem longName_twice : ∃ tr t, Run Staff.Step (Staff.begin (filled 1)) tr t ∧
    filings tr = [⟨longReport, some 0⟩, ⟨longReport, some 1⟩] ∧ Parsed longName ∧
    t.registry.numDivs = 2 ∧ cString (t.registry.divNames 0) ≠ cString longName ∧
    ¬ Lawful (filings tr) t.registry := by
  obtain ⟨tr, t, r, ht, hf⟩ := @twice_run _ (filled 1) longReport (some 0) (some 1)
    (by decide +kernel) (by decide +kernel)
  refine ⟨tr, t, r, hf, parsed_longName, ?_, ?_, fun h => ?_⟩
  · rw [ht]
    decide +kernel
  · rw [ht]
    decide +kernel
  · rw [hf] at h
    have hsame := h.same ⟨longReport, some 0⟩ (by simp) ⟨longReport, some 1⟩ (by simp) 0 1 rfl rfl
    exact absurd (hsame.mpr rfl) (by decide)

/-- In a register of NULs it gets one. -/
theorem longName_once : ∃ tr t, Run Staff.Step (Staff.begin (filled 0)) tr t ∧
    filings tr = [⟨longReport, some 0⟩, ⟨longReport, some 0⟩] ∧
    Lawful (filings tr) t.registry := by
  obtain ⟨tr, t, r, ht, hf⟩ := @twice_run _ (filled 0) longReport (some 0) (some 0)
    (by decide +kernel) (by decide +kernel)
  refine ⟨tr, t, r, hf, (register_law r (fun _ => by simp [filled]) ?_).mpr ?_ tr t
    (List.prefix_refl _) r⟩
  · rw [hf]
    simpa using show Parsed longReport.name from parsed_longName
  · intro before name after _ _ _ _
    rfl

end Sop2.Napoleon
