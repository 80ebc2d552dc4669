import Sop2.Lab05.Roncevaux.Battle

/-!
# Lab05 — Roncevaux — the strokes

`char damage = rand() % (knight.attack + 1)` of `child_work`, the byte that is written, and what the
victim reads from it; `main` takes `attack` from a file, whatever `int` it is.

* `told_iff`: the victim reads the damage that was drawn, between 0 and `attack`, for every random
  value exactly if `attack` is between 0 and 127.
* `Fair.turn`: with such attacks only such damages are under way, so that a hit does not raise `HP`.
* `strokes_law`: both, the second for every run of the battle.
-/

namespace Sop2.Roncevaux
open Support

/-! ### One stroke -/

/-- `INT_MIN`, `INT_MAX` and `RAND_MAX`. -/
def intMin : Int := -2147483648
def intMax : Int := 2147483647
def randMax : Int := 2147483647

/-- `rand() % (knight.attack + 1)`, where that has a value: the sum is an `int`, and not 0. -/
def drawn (attack r : Int) : Option Int :=
  if intMax < attack + 1 ∨ attack + 1 = 0 then none else some (r.tmod (attack + 1))

/-- `char damage`, as it is written. -/
def encode (damage : Int) : BitVec 8 := .ofInt 8 damage

/-- `char buf`, as it is subtracted: `char` is signed. -/
def decode (byte : BitVec 8) : Int := byte.toInt

/-- The victim subtracts the damage that was drawn, which is between 0 and `attack`. -/
def Told (attack r : Int) : Prop :=
  ∃ damage, drawn attack r = some damage ∧ decode (encode damage) = damage ∧
    0 ≤ damage ∧ damage ≤ attack

theorem decode_encode (damage : Int) : decode (encode damage) = damage.bmod 256 := by
  rw [decode, encode, BitVec.toInt_ofInt]

/-- `damage` of `Fight` is what the victim reads. -/
theorem damage_eq {attack r d : Int} (hattack : intMin ≤ attack) (h : drawn attack r = some d) :
    damage attack r = some (decode (encode d)) := by
  unfold drawn at h
  split at h
  · cases h
  · rename_i hsum
    obtain ⟨hmax, hzero⟩ := not_or.mp hsum
    have hwrap : wrap32 (attack + 1) = attack + 1 :=
      wrap32_eq ⟨by unfold intMin at hattack; omega, by unfold intMax at hmax; omega⟩
    cases h
    rw [decode_encode, damage, hwrap]
    exact if_neg hzero

theorem damage_range {attack r d : Int} (h₀ : 0 ≤ attack) (h : attack ≤ 127) (hr : 0 ≤ r)
    (hd : damage attack r = some d) : d = r.tmod (attack + 1) ∧ 0 ≤ d ∧ d ≤ attack := by
  have hlow : 0 ≤ r.tmod (attack + 1) := Int.tmod_nonneg _ hr
  have hhigh : r.tmod (attack + 1) < attack + 1 := Int.tmod_lt_of_pos _ (by omega)
  have hdrawn : drawn attack r = some (r.tmod (attack + 1)) := if_neg (by unfold intMax; omega)
  rw [damage_eq (by unfold intMin; omega) hdrawn, decode_encode,
    Int.bmod_eq_of_le (by omega) (by omega)] at hd
  cases hd
  exact ⟨rfl, hlow, by omega⟩

/-- **One stroke.** -/
theorem told_iff (attack : Int) :
    (∀ r, 0 ≤ r → r ≤ randMax → Told attack r) ↔ 0 ≤ attack ∧ attack ≤ 127 := by
  constructor
  · intro h
    have hpos : 0 ≤ attack := by
      obtain ⟨d, -, -, hlow, hhigh⟩ := h 0 (by decide) (by decide)
      omega
    refine ⟨hpos, ?_⟩
    by_contra hheavy
    -- the random value 128 is drawn as it is, and read as -128
    obtain ⟨d, hdrawn, hread, hlow, -⟩ := h 128 (by decide) (by decide)
    unfold drawn at hdrawn
    split at hdrawn
    · cases hdrawn
    · have hd : Int.tmod 128 (attack + 1) = 128 := Int.tmod_eq_of_lt (by decide) (by omega)
      rw [hd] at hdrawn
      cases hdrawn
      revert hread
      decide
  · rintro ⟨h₀, h⟩ r hr -
    have hdrawn : drawn attack r = some (r.tmod (attack + 1)) :=
      if_neg (by unfold intMax; omega)
    have hread := damage_eq (by unfold intMin; omega) hdrawn
    obtain ⟨hsame, hlow, hhigh⟩ := damage_range h₀ h hr hread
    rw [hsame] at hlow hhigh
    exact ⟨_, hdrawn, hsame, hlow, hhigh⟩

/-- A stroke of 200 heals its victim by 56, and the attack -1 divides by 0. -/
theorem heavy_heals :
    drawn 200 200 = some 200 ∧ decode (encode 200) = -56 ∧ drawn (-1) 0 = none ∧
      ¬ ∀ attack, intMin ≤ attack → attack ≤ intMax → ∀ r, 0 ≤ r → r ≤ randMax → Told attack r := by
  refine ⟨by decide, by decide, by decide, fun h => ?_⟩
  have hrange := (told_iff 200).mp (h 200 (by decide) (by decide))
  omega

/-! ### The battle -/

variable {size : Army → Nat} {cap : Nat} {army : Name size → Knight} {s t : State size}
  {l : Option (Name size) × Option Event} {pipes pipes' : Pipes (Option (Name size)) (Name size) Int}
  {k : Name size} {f f' : Fighter size} {e : Option Event}

/-- A knight whose strokes are read as they were drawn, and whose `HP` is an `int` that a stroke can
be subtracted from. -/
structure Knight.Fit (k : Knight) : Prop where
  attack : 0 ≤ k.attack ∧ k.attack ≤ 127
  hp : intMin + 127 ≤ k.hp

/-- What is in the pipes behind a turn was there before, or was struck. -/
theorem Turn.content (h : Turn cap pipes k f e pipes' f') {j : Name size} {c : Int}
    (hc : c ∈ pipes'.content j) :
    c ∈ pipes.content j ∨ ∃ r, 0 ≤ r ∧ damage f.knight.attack r = some c := by
  cases h with
  | hit buf hp pipes' h hr hl hsign | die buf hp pipes' h hr hl hsign =>
      cases hr with
      | data _ cs hk =>
          left
          by_cases hj : j = k
          · subst hj
            rw [hk]
            exact List.mem_cons_of_mem _ (by simpa [Pipes.set] using hc)
          · simpa [Pipes.set, hj] using hc
  | eof pipes' h hr => cases hr; exact .inl hc
  | strike enemy e r d pipes' h henemy he hr hd hw =>
      cases hw with
      | ok hread hlen =>
          by_cases hj : j = e
          · subst hj
            have hor : c ∈ pipes.content j ∨ c = d := by simpa [Pipes.set] using hc
            exact hor.imp_right fun (hc : c = d) => ⟨r, hr, hc ▸ hd⟩
          · exact .inl (by simpa [Pipes.set, hj] using hc)
  | broken enemy e r d pipes' h henemy he hr hd hw => cases hw; exact .inl hc
  | bornRead | bornWrite | fight | go | again | trap | killedRead | killedWrite | reaped | closeOwn
  | closing | ending => exact .inl hc

/-- A turn leaves the knight alone, or takes from it what is in its pipe. -/
theorem Turn.knight (h : Turn cap pipes k f e pipes' f') :
    f'.knight = f.knight ∨ f.place = .reading ∧ ∃ buf ∈ pipes.content k,
      f'.knight.attack = f.knight.attack ∧ Loses f.knight.hp buf f'.knight.hp ∧
        (f'.alive = true → 0 ≤ f'.knight.hp) := by
  cases h with
  | hit buf hp pipes' h hr hl hsign =>
      cases hr with
      | data _ cs hk => exact .inr ⟨h, buf, by rw [hk]; simp, rfl, hl, fun _ => hsign⟩
  | die buf hp pipes' h hr hl hsign =>
      cases hr with
      | data _ cs hk => exact .inr ⟨h, buf, by rw [hk]; simp, rfl, hl, by simp⟩
  | go f' h =>
      obtain ⟨⟨place, rfl⟩, -⟩ := turn_cases h
      exact .inl rfl
  | bornRead | bornWrite | fight | again | eof | strike | broken | trap | killedRead | killedWrite
  | reaped | closeOwn | closing | ending => exact .inl rfl

/-- A blow that is told of was drawn. -/
theorem Turn.strikes {hp d : Int} (h : Turn cap pipes k f (some (.strikes hp d)) pipes' f') :
    ∃ r, 0 ≤ r ∧ damage f.knight.attack r = some d := by
  cases h with
  | strike enemy e r d pipes' h henemy he hr hd hw => exact ⟨r, hr, hd⟩

/-- A hit that does not heal takes no more from the `HP` than it has, down to `INT_MIN`. -/
theorem Loses.le {hp buf hp' : Int} (h : Loses hp buf hp') (hbuf : 0 ≤ buf)
    (hlow : intMin ≤ hp - buf) : intMin ≤ hp' ∧ hp' ≤ hp := by
  unfold intMin at hlow ⊢
  rcases h with rfl | ⟨-, rfl⟩
  · omega
  · have hle := wrap32_le hlow
    have hint := isInt32_wrap32 (hp - buf)
    exact ⟨hint.1, by omega⟩

/-- What is known of a knight with the attack and the `HP` of `k` at the start: one that lives has
not lost more than it had, or nothing yet. -/
structure Steady (k : Knight) (f : Fighter size) : Prop where
  attack : f.knight.attack = k.attack
  fighting : f.place.fighting = true → f.alive = true
  hp : f.alive = true → 0 ≤ f.knight.hp ∨ f.knight.hp = k.hp
  low : intMin ≤ f.knight.hp

/-- What is under way are damages that are read as they were drawn. -/
structure Fair (army : Name size → Knight) (s : State size) : Prop where
  content : ∀ j, ∀ c ∈ s.pipes.content j, 0 ≤ c ∧ c ≤ 127
  steady : ∀ k, Steady (army k) (s.fighter k)

theorem fair_battle (harmy : ∀ k, (army k).Fit) : Fair army (battle army) where
  content := by simp [battle]
  steady k :=
    { attack := rfl
      fighting := fun h => by cases h
      hp := fun _ => .inr rfl
      low := by
        have hk := (harmy k).hp
        change intMin ≤ (army k).hp
        omega }

/-- A turn of a knight, in a fair battle. -/
theorem Fair.turn (harmy : ∀ k, (army k).Fit) (hs : Fair army s)
    (h : Turn cap s.pipes k (s.fighter k) e pipes' f') :
    (∀ j, ∀ c ∈ pipes'.content j, 0 ≤ c ∧ c ≤ 127) ∧ Steady (army k) f' ∧
      f'.knight.hp ≤ (s.fighter k).knight.hp := by
  have hfit := harmy k
  have hk := hs.steady k
  refine ⟨fun j c hc => ?_, ?_⟩
  · rcases h.content hc with hc | ⟨r, hr, hd⟩
    · exact hs.content j c hc
    · rw [hk.attack] at hd
      obtain ⟨-, hlow, hhigh⟩ := damage_range hfit.attack.1 hfit.attack.2 hr hd
      exact ⟨hlow, hhigh.trans hfit.attack.2⟩
  · have hfighting := h.place.2.2.1 hk.fighting
    rcases h.knight with hsame | ⟨hread, buf, hbuf, hsame, hloses, halive⟩
    · have hlived : f'.alive = true → (s.fighter k).alive = true := by
        intro ha
        by_contra hdead
        rw [h.place.2.1 (Bool.eq_false_iff.mpr hdead)] at ha
        cases ha
      refine ⟨⟨?_, hfighting, fun ha => ?_, ?_⟩, ?_⟩
      · rw [hsame]; exact hk.attack
      · rw [hsame]; exact hk.hp (hlived ha)
      · rw [hsame]; exact hk.low
      · rw [hsame]
    · -- a hit, of a knight that lived before
      have hrange := hs.content k buf hbuf
      have hbefore := hk.hp (hk.fighting (by rw [hread]; rfl))
      have hfull := hfit.hp
      have hmin : intMin ≤ 0 - 127 := by decide
      obtain ⟨hlow, hle⟩ := hloses.le hrange.1 (by omega)
      exact ⟨⟨hsame.trans hk.attack, hfighting, fun ha => .inl (halive ha), hlow⟩, hle⟩

/-- **One step** of a fair battle. -/
theorem Fair.step (harmy : ∀ k, (army k).Fit) (hs : Fair army s) (h : Step cap s l t) :
    Fair army t ∧ ∀ k, (t.fighter k).knight.hp ≤ (s.fighter k).knight.hp := by
  cases h with
  | parentRead j | parentWrite j => exact ⟨⟨hs.content, hs.steady⟩, fun _ => Int.le_refl _⟩
  | knight k e pipes f h =>
      obtain ⟨hcontent, hsteady, hle⟩ := hs.turn harmy h
      refine ⟨⟨hcontent, fun j => ?_⟩, fun j => ?_⟩
      · dsimp only
        by_cases hj : j = k
        · subst hj; rw [Function.update_self]; exact hsteady
        · rw [Function.update_of_ne hj]; exact hs.steady j
      · dsimp only
        by_cases hj : j = k
        · subst hj; rw [Function.update_self]; exact hle
        · rw [Function.update_of_ne hj]

/-- **The strokes.**  In every army, each random value of a knight is told as it was drawn, between
0 and its `attack`, if and only if that is between 0 and 127.  If all attacks are, and no knight has
an `HP` that a stroke cannot be subtracted from, then in every run of the battle no `HP` ever
increases or leaves the range of `int`, and every stroke is between 0 and the knight's `attack`. -/
theorem strokes_law {size : Army → Nat} (army : Name size → Knight) :
    (∀ k, (∀ r, 0 ≤ r → r ≤ randMax → Told (army k).attack r) ↔
      0 ≤ (army k).attack ∧ (army k).attack ≤ 127) ∧
    ∀ (cap : Nat) (tr : List (Move (State size) (Option (Name size) × Option Event)))
      (s : State size), (∀ k, (army k).Fit) → Run (Step cap) (battle army) tr s →
      ∀ mv ∈ tr,
        (∀ k, intMin ≤ (mv.after.fighter k).knight.hp ∧
          (mv.after.fighter k).knight.hp ≤ (mv.before.fighter k).knight.hp) ∧
        ∀ k hp d, mv.label = (some k, some (.strikes hp d)) → 0 ≤ d ∧ d ≤ (army k).attack := by
  refine ⟨fun k => told_iff _, fun cap tr s harmy r mv hmv => ?_⟩
  obtain ⟨-, hfair⟩ := r.invariant_at (I := Fair army) (C := fun _ _ _ => True)
    (fun hs h _ => (hs.step harmy h).1) (fair_battle harmy) fun _ _ => trivial
  have hs := (hfair mv hmv).1
  have hstep := r.step_of_mem mv hmv
  refine ⟨fun k => ⟨((hfair mv hmv).2.steady k).low, (hs.step harmy hstep).2 k⟩,
    fun k hp d hlabel => ?_⟩
  rw [hlabel] at hstep
  generalize mv.after = t at hstep
  cases hstep with
  | knight _ _ _ _ h =>
      obtain ⟨r, hr, hd⟩ := h.strikes
      rw [(hs.steady k).attack] at hd
      exact (damage_range (harmy k).attack.1 (harmy k).attack.2 hr hd).2

/-- Roland, with an `HP` of 3, is hit by a stroke of 5. -/
theorem strokes_law_duel : ∃ s : State duel, (s.fighter roland).knight.hp = -2 ∧
    intMin ≤ (s.fighter roland).knight.hp ∧ ∀ r, 0 ≤ r → r ≤ randMax → Told 5 r := by
  have r := ((((((((((((Run.one
    (.knight roland _ _ _ (.bornRead marsil rfl (by decide))) :
    Run (Step 65536) (battle fun _ => ⟨3, 5⟩) _ _).snoc
    (.knight roland _ _ _ (.bornWrite roland rfl rfl))).snoc
    (.knight marsil _ _ _ (.bornRead roland rfl (by decide)))).snoc
    (.knight marsil _ _ _ (.bornWrite marsil rfl rfl))).snoc
    (.knight roland _ _ _ (.fight rfl (duel_cases (absurd rfl) fun _ => rfl)
      (duel_cases (fun _ => rfl) (by rintro ⟨⟩))))).snoc
    (.knight marsil _ _ _ (.fight rfl (duel_cases (fun _ => rfl) (absurd rfl))
      (duel_cases (by rintro ⟨⟩) fun _ => rfl)))).snoc
    (.knight marsil _ _ _ (.go _ rfl))).snoc
    (.knight marsil _ _ _ (.again rfl rfl (Pipes.not_noWriter.mpr ⟨some roland, rfl⟩)))).snoc
    (.knight marsil _ _ _ (.go _ rfl))).snoc
    (.knight marsil _ _ _ (.strike 0 roland 5 5 _ rfl (by decide) rfl (by decide) damage_five
      (.ok (Pipes.not_noReader.mpr ⟨some roland, rfl⟩) (by decide))))).snoc
    (.knight roland _ _ _ (.go _ rfl))).snoc
    (.knight roland _ _ _ (.die 5 (-2) _ rfl (.data 5 [] rfl) (.inl rfl) (by decide))))
  obtain ⟨htold, hrun⟩ := strokes_law (fun _ : Name duel => (⟨3, 5⟩ : Knight))
  have hlaw := hrun 65536 _ _ (fun _ => ⟨by decide, by decide⟩) r _
    (List.mem_append_right _ (List.mem_singleton_self _))
  exact ⟨_, rfl, (hlaw.1 roland).1, (htold roland).mpr (by decide)⟩

end Sop2.Roncevaux
