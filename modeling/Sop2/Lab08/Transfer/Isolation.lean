import Mathlib.Data.List.Forall2
import Sop2.Lab08.Transfer.Duplicates

/-!
# Lab08 — Transfer — isolation

What one client can see of the others.  Two runs of the server get datagrams from the same addresses
in the same order and of the same lengths, one client sends the same in both, and the datagrams of
the others agree in their first eight bytes, the chunk number and the last-message bit.

Every datagram lands in the same buffer, which is not cleared, and an answer is the whole buffer.  A
byte behind the end of a datagram is what the last longer one left there; `Stained` says that it is
the text of another client.  `isolation_law`: the client gets the same answers and the same is
printed for it, whatever the texts of the others, exactly when none of its datagrams that are
answered comes to a buffer stained behind its end.
-/

namespace Sop2.Transfer
open Support

variable {A : Type*} [DecidableEq A]

/-- A datagram and its sender. -/
structure Arrival (A : Type*) where
  addr : A
  dgram : List UInt8

def Turned.arrival (l : Turned A) : Arrival A := ⟨l.addr, l.dgram⟩

/-- What arrives along a run. -/
def arrivals (tr : List (Move (Server A) (Turned A))) : List (Arrival A) :=
  (served tr).map Turned.arrival

/-- `a` sends the same, the others as many bytes with the same first eight. -/
structure Alike (a : A) (x x' : Arrival A) : Prop where
  addr : x'.addr = x.addr
  length : x'.dgram.length = x.dgram.length
  head : x'.dgram.take 8 = x.dgram.take 8
  own : x.addr = a → x'.dgram = x.dgram

/-- The answers that `a` gets, over the turns `ls`. -/
def repliesTo (a : A) (ls : List (Turned A)) : List (List UInt8) :=
  ls.filterMap fun l => if l.addr = a then l.reply else none

/-- The byte `p` of the buffer is the text of another client than `a`: the last datagram of the
arrivals that reached it. -/
def Stained (a : A) (xs : List (Arrival A)) (p : Nat) : Prop :=
  ∃ before x after, xs = before ++ x :: after ∧ x.addr ≠ a ∧ 8 ≤ p ∧ p < x.dgram.length ∧
    ∀ y ∈ after, y.dgram.length < p

/-- The server answers the arrival: it has an entry for the sender, or finds one, and the number is
not ahead of it. -/
def Answers (s : Server A) (x : Arrival A) : Prop :=
  ∃ i con, findIndex x.addr s.con = (some i, con) ∧
    int32Be (receive s.buf x.dgram) ≤ (con i).chunkNo + 1

/-- No answered datagram of `a` comes to a buffer that is stained behind its end. -/
def Clean (a : A) (tr : List (Move (Server A) (Turned A))) : Prop :=
  ∀ tr₁ m tr₂, tr = tr₁ ++ m :: tr₂ → m.label.addr = a → Answers m.before m.label.arrival →
    ∀ p, m.label.dgram.length < p → p < maxBuf → ¬ Stained a (arrivals tr₁) p

/-- What `a` gets and what is printed for it do not depend on the texts of the others. -/
def Isolated (a : A) (s₀ : Server A) (tr : List (Move (Server A) (Turned A))) : Prop :=
  ∀ tr' s', Run Serves s₀ tr' s' → List.Forall₂ (Alike a) (arrivals tr) (arrivals tr') →
    repliesTo a (served tr') = repliesTo a (served tr) ∧
      printedFor a (served tr') = printedFor a (served tr)

/-! ### What a turn decides by -/

/-- What a turn decides by the chunk number and the last-message bit: the table after it, whether
the text is printed and whether the buffer is sent back; nothing if the count overflows. -/
def verdict (con : Fin maxAddr → Connection A) (a : A) (chunkNo last : Int) :
    Option ((Fin maxAddr → Connection A) × Bool × Bool) :=
  match findIndex a con with
  | (none, con) => some (con, false, false)
  | (some index, con) =>
      if (con index).chunkNo = int32Max then none
      else if chunkNo > (con index).chunkNo + 1 then some (con, false, false)
      else if chunkNo = (con index).chunkNo + 1 then
        some (Function.update con index
          { con index with
            free := if last ≠ 0 then true else (con index).free
            chunkNo := (con index).chunkNo + 1 }, true, true)
      else some (con, false, true)

/-- How a turn ends that has come to a verdict. -/
def Served.of (buf : List UInt8) :
    Option ((Fin maxAddr → Connection A) × Bool × Bool) → Served A
  | none => .overflow
  | some (con, printed, answered) =>
      .loop ⟨con, buf⟩ (if printed then some (printedOf buf) else none)
        (if answered then some (buf.take maxBuf) else none)

/-- **A turn**, by its verdict. -/
theorem serve_eq (s : Server A) (a : A) (d : List UInt8) :
    serve .sent s a d = .of (receive s.buf d)
      (verdict s.con a (int32Be (receive s.buf d)) (int32Be ((receive s.buf d).drop 4))) := by
  unfold serve verdict
  rcases findIndex a s.con with ⟨_ | index, con⟩
  · rfl
  · dsimp only
    split
    · rfl
    · split
      · rfl
      · split
        · simp [Served.of, answer, printedOf]
        · rfl

/-- What is printed is sent back as well, and what is sent back is not ahead of the entry. -/
theorem verdict_spec {con con' : Fin maxAddr → Connection A} {a : A} {n last : Int}
    {printed answered : Bool} (h : verdict con a n last = some (con', printed, answered)) :
    (printed = true → answered = true) ∧
      (answered = true ↔ ∃ i con₁, findIndex a con = (some i, con₁) ∧ n ≤ (con₁ i).chunkNo + 1) := by
  unfold verdict at h
  rcases hf : findIndex a con with ⟨_ | index, con₁⟩
  · rw [hf] at h
    cases h
    exact ⟨nofun, nofun, fun ⟨i, con₂, e, _⟩ => by cases e⟩
  · rw [hf] at h
    dsimp only at h
    split at h
    · cases h
    · split at h
      · cases h
        refine ⟨nofun, nofun, fun ⟨i, con₂, e, hle⟩ => ?_⟩
        cases e
        omega
      · rename_i hle
        have hle : n ≤ (con₁ index).chunkNo + 1 := by omega
        split at h <;> cases h <;> exact ⟨fun _ => rfl, fun _ => ⟨index, _, rfl, hle⟩, fun _ => rfl⟩

/-- One turn of the loop, by its verdict. -/
theorem serves_iff {s t : Server A} {l : Turned A} :
    Serves s l t ↔ l.dgram.length ≤ maxBuf ∧ ∃ con printed answered,
      verdict s.con l.addr (int32Be (receive s.buf l.dgram))
        (int32Be ((receive s.buf l.dgram).drop 4)) = some (con, printed, answered) ∧
      t = ⟨con, receive s.buf l.dgram⟩ ∧
      l.printed = (if printed then some (printedOf (receive s.buf l.dgram)) else none) ∧
      l.reply = if answered then some ((receive s.buf l.dgram).take maxBuf) else none := by
  constructor
  · rintro ⟨hlen, hturn⟩
    rw [serve_eq] at hturn
    cases hv : verdict s.con l.addr (int32Be (receive s.buf l.dgram))
        (int32Be ((receive s.buf l.dgram).drop 4)) with
    | none =>
        rw [hv] at hturn
        cases hturn
    | some v =>
        obtain ⟨con, printed, answered⟩ := v
        rw [hv, Served.of] at hturn
        injection hturn with h₁ h₂ h₃
        exact ⟨hlen, con, printed, answered, rfl, h₁.symm, h₂.symm, h₃.symm⟩
  · rintro ⟨hlen, con, printed, answered, hv, rfl, hp, hr⟩
    exact ⟨hlen, by rw [serve_eq, hv, hp, hr, Served.of]⟩

/-! ### What is in the buffer -/

theorem receive_getElem? (buf d : List UInt8) (p : Nat) :
    (receive buf d)[p]? = if p < d.length then d[p]? else if p = d.length then some 0 else buf[p]? := by
  unfold receive
  rcases Nat.lt_trichotomy p d.length with hlt | rfl | hgt
  · rw [if_pos hlt, List.getElem?_append_left hlt]
  · rw [if_neg (lt_irrefl _), if_pos rfl, List.getElem?_append_right le_rfl, Nat.sub_self]
    rfl
  · obtain ⟨k, rfl⟩ : ∃ k, p = d.length + 1 + k := ⟨p - (d.length + 1), by omega⟩
    rw [if_neg (by omega), if_neg (by omega), List.getElem?_append_right (by omega),
      show d.length + 1 + k - d.length = k + 1 by omega, List.getElem?_cons_succ,
      List.getElem?_drop]

theorem receive_length {buf d : List UInt8} (h : d.length < buf.length) :
    (receive buf d).length = buf.length := by
  simp only [receive, List.length_append, List.length_cons, List.length_drop]
  omega

/-- A number is read from four bytes. -/
theorem int32Be_congr {xs ys : List UInt8} (h : ∀ p < 4, xs[p]? = ys[p]?) :
    int32Be xs = int32Be ys := by
  have htake : xs.take 4 = ys.take 4 := by
    refine List.ext_getElem? fun p => ?_
    rw [List.getElem?_take, List.getElem?_take]
    split
    · exact h p ‹_›
    · rfl
  unfold int32Be
  rw [htake]

omit [DecidableEq A] in
theorem stained_snoc {a : A} {xs : List (Arrival A)} {x : Arrival A} {p : Nat} :
    Stained a (xs ++ [x]) p ↔
      (x.addr ≠ a ∧ 8 ≤ p ∧ p < x.dgram.length) ∨ Stained a xs p ∧ x.dgram.length < p := by
  constructor
  · rintro ⟨before, y, after, e, hy, h8, hlt, hafter⟩
    rcases snoc_eq_append_cons.mp e with ⟨rfl, -, rfl⟩ | ⟨after, rfl, rfl⟩
    · exact .inl ⟨hy, h8, hlt⟩
    · exact .inr ⟨⟨before, y, after, rfl, hy, h8, hlt, fun z hz => hafter z (by simp [hz])⟩,
        hafter x (by simp)⟩
  · rintro (⟨hx, h8, hlt⟩ | ⟨⟨before, y, after, rfl, hy, h8, hlt, hafter⟩, hx⟩)
    · exact ⟨xs, x, [], rfl, hx, h8, hlt, by simp⟩
    · exact ⟨before, y, after ++ [x], by simp, hy, h8, hlt, forall_mem_snoc hafter hx⟩

omit [DecidableEq A] in
theorem Stained.le {a : A} {xs : List (Arrival A)} {p : Nat} (h : Stained a xs p) : 8 ≤ p := by
  obtain ⟨-, -, -, -, -, h8, -⟩ := h
  exact h8

/-- The tables of the two servers agree, and the bytes of the buffers but for the stained ones. -/
structure Same (a : A) (xs : List (Arrival A)) (s s' : Server A) : Prop where
  con : s'.con = s.con
  length : s.buf.length = maxBuf + 1 ∧ s'.buf.length = maxBuf + 1
  bytes : ∀ p, ¬ Stained a xs p → s'.buf[p]? = s.buf[p]?

variable {a : A} {s s' t t' : Server A} {xs : List (Arrival A)} {l l' : Turned A}

/-- The buffers once the two datagrams are received. -/
theorem Same.received (h : Same a xs s s') (hlen : l.dgram.length ≤ maxBuf)
    (hl : Alike a l.arrival l'.arrival) :
    Same a (xs ++ [l.arrival]) ⟨s.con, receive s.buf l.dgram⟩ ⟨s'.con, receive s'.buf l'.dgram⟩ := by
  have hlen' : l'.dgram.length = l.dgram.length := hl.length
  refine ⟨h.con, ⟨?_, ?_⟩, fun p hp => ?_⟩
  · exact (receive_length (by rw [h.length.1]; omega)).trans h.length.1
  · exact (receive_length (by rw [h.length.2]; omega)).trans h.length.2
  · dsimp only
    rw [receive_getElem?, receive_getElem?, hlen']
    split
    · rename_i hlt
      by_cases ha : l.addr = a
      · rw [show l'.dgram = l.dgram from hl.own ha]
      · -- of another's datagram only the first eight bytes are clean
        have h8 : p < 8 := by
          by_contra hge
          exact hp (stained_snoc.mpr (.inl ⟨ha, by omega, hlt⟩))
        have hhead := congrArg (fun d : List UInt8 => d[p]?) hl.head
        simpa [List.getElem?_take, h8, Turned.arrival] using hhead
    · split
      · rfl
      · exact h.bytes p fun hs => hp (stained_snoc.mpr (.inr ⟨hs, by
          change l.dgram.length < p
          omega⟩))

/-- The two turns come to the same verdict. -/
theorem Same.verdict (h : Same a xs s s') (hlen : l.dgram.length ≤ maxBuf)
    (hl : Alike a l.arrival l'.arrival) :
    Transfer.verdict s'.con l'.addr (int32Be (receive s'.buf l'.dgram))
        (int32Be ((receive s'.buf l'.dgram).drop 4))
      = Transfer.verdict s.con l.addr (int32Be (receive s.buf l.dgram))
          (int32Be ((receive s.buf l.dgram).drop 4)) := by
  have hr := h.received hlen hl
  have hbyte : ∀ p < 8, (receive s'.buf l'.dgram)[p]? = (receive s.buf l.dgram)[p]? :=
    fun p hp => hr.bytes p fun hs => by
      have := hs.le
      omega
  have hn : int32Be (receive s'.buf l'.dgram) = int32Be (receive s.buf l.dgram) :=
    int32Be_congr fun p hp => hbyte p (by omega)
  have hlast : int32Be ((receive s'.buf l'.dgram).drop 4)
      = int32Be ((receive s.buf l.dgram).drop 4) :=
    int32Be_congr fun p hp => by
      rw [List.getElem?_drop, List.getElem?_drop]
      exact hbyte (4 + p) (by omega)
  rw [h.con, show l'.addr = l.addr from hl.addr, hn, hlast]

/-- **Two turns.**  Both servers answer or neither does, both print or neither does, and they are
the same but for the stains. -/
theorem Same.step (h : Same a xs s s') (hl : Alike a l.arrival l'.arrival) (hs : Serves s l t)
    (hs' : Serves s' l' t') :
    Same a (xs ++ [l.arrival]) t t' ∧ ∃ printed answered : Bool,
      (printed = true → answered = true) ∧ (answered = true ↔ Answers s l.arrival) ∧
      l.printed = (if printed then some (printedOf t.buf) else none) ∧
      l'.printed = (if printed then some (printedOf t'.buf) else none) ∧
      l.reply = (if answered then some (t.buf.take maxBuf) else none) ∧
      l'.reply = if answered then some (t'.buf.take maxBuf) else none := by
  obtain ⟨hlen, con, printed, answered, hv, rfl, hp, hr⟩ := serves_iff.mp hs
  obtain ⟨hlen', con', printed', answered', hv', rfl, hp', hr'⟩ := serves_iff.mp hs'
  rw [h.verdict hlen hl, hv] at hv'
  cases hv'
  have hrec := h.received hlen hl
  obtain ⟨hpa, hans⟩ := verdict_spec hv
  exact ⟨⟨rfl, hrec.length, hrec.bytes⟩, printed, answered, hpa, hans, hp, hp', hr, hr'⟩

/-- The other server has a turn for every datagram that is alike. -/
theorem Same.turn (h : Same a xs s s') {x' : Arrival A} (hl : Alike a l.arrival x')
    (hs : Serves s l t) : ∃ l' t', Serves s' l' t' ∧ l'.arrival = x' := by
  obtain ⟨hlen, con, printed, answered, hv, -⟩ := serves_iff.mp hs
  have hv' := @Same.verdict _ _ a s s' xs l ⟨x'.addr, x'.dgram, none, none⟩ h hlen hl
  rw [hv] at hv'
  exact ⟨⟨x'.addr, x'.dgram,
      if printed then some (printedOf (receive s'.buf x'.dgram)) else none,
      if answered then some ((receive s'.buf x'.dgram).take maxBuf) else none⟩, _,
    serves_iff.mpr ⟨hl.length ▸ hlen, con, printed, answered, hv', rfl, rfl, rfl⟩, rfl⟩

/-! ### Two runs -/

variable {s₀ : Server A} {tr tr' : List (Move (Server A) (Turned A))}

omit [DecidableEq A] in
@[simp] theorem arrivals_append (tr tr' : List (Move (Server A) (Turned A))) :
    arrivals (tr ++ tr') = arrivals tr ++ arrivals tr' := by
  simp [arrivals, served]

omit [DecidableEq A] in
@[simp] theorem served_append (tr tr' : List (Move (Server A) (Turned A))) :
    served (tr ++ tr') = served tr ++ served tr' :=
  List.map_append

@[simp] theorem repliesTo_append (a : A) (ls ls' : List (Turned A)) :
    repliesTo a (ls ++ ls') = repliesTo a ls ++ repliesTo a ls' :=
  List.filterMap_append

/-- Two lists related element by element, the first with a last one. -/
theorem forall₂_snoc {α β : Type*} {R : α → β → Prop} {xs : List α} {x : α} {ys : List β}
    (h : List.Forall₂ R (xs ++ [x]) ys) :
    ∃ ys' y, ys = ys' ++ [y] ∧ List.Forall₂ R xs ys' ∧ R x y := by
  have hrev := List.forall₂_reverse_iff.mpr h
  rw [List.reverse_append, List.reverse_singleton, List.singleton_append,
    List.forall₂_cons_left_iff] at hrev
  obtain ⟨y, ys', hy, hys, e⟩ := hrev
  refine ⟨ys'.reverse, y, ?_, ?_, hy⟩
  · rw [← List.reverse_reverse ys, e, List.reverse_cons]
  · rw [← List.forall₂_reverse_iff, List.reverse_reverse]
    exact hys

omit [DecidableEq A] in
/-- A trace splits where its arrivals do. -/
theorem arrivals_split {xs ys : List (Arrival A)} {x : Arrival A}
    (h : arrivals tr = xs ++ x :: ys) : ∃ tr₁ m tr₂, tr = tr₁ ++ m :: tr₂ ∧ arrivals tr₁ = xs ∧
      m.label.arrival = x ∧ arrivals tr₂ = ys := by
  obtain ⟨ls, ls', hls, rfl, hx⟩ := List.map_eq_append_iff.mp h
  obtain ⟨l, ls', rfl, rfl, rfl⟩ := List.map_eq_cons_iff.mp hx
  obtain ⟨tr₁, ms, rfl, rfl, hm⟩ := List.map_eq_append_iff.mp hls
  obtain ⟨m, tr₂, rfl, rfl, rfl⟩ := List.map_eq_cons_iff.mp hm
  exact ⟨tr₁, m, tr₂, rfl, rfl, rfl, rfl⟩

omit [DecidableEq A] in
/-- The last move of a run, alike the last of another. -/
theorem alike_snoc {m : Move (Server A) (Turned A)}
    (h : List.Forall₂ (Alike a) (arrivals (tr ++ [m])) (arrivals tr')) :
    ∃ tr₁ m', tr' = tr₁ ++ [m'] ∧ List.Forall₂ (Alike a) (arrivals tr) (arrivals tr₁) ∧
      Alike a m.label.arrival m'.label.arrival := by
  rw [arrivals_append] at h
  obtain ⟨xs', x', e, hpre, hlast⟩ := forall₂_snoc h
  obtain ⟨tr₁, m', tr₂, rfl, rfl, rfl, hnil⟩ := arrivals_split e
  obtain rfl : tr₂ = [] := by simpa [arrivals, served] using hnil
  exact ⟨tr₁, m', rfl, hpre, hlast⟩

omit [DecidableEq A] in
/-- Where nothing has arrived in one run, nothing has in the other. -/
theorem alike_nil (h : List.Forall₂ (Alike a) (arrivals []) (arrivals tr')) : tr' = [] := by
  have hlength := h.length_eq
  simpa [arrivals, served] using hlength.symm

/-- Two runs along arrivals that are alike. -/
theorem same_run (hbuf : s₀.buf.length = maxBuf + 1) (r : Run Serves s₀ tr s)
    (r' : Run Serves s₀ tr' s') (hl : List.Forall₂ (Alike a) (arrivals tr) (arrivals tr')) :
    Same a (arrivals tr) s s' := by
  induction r generalizing tr' s' with
  | refl =>
      obtain rfl := alike_nil hl
      obtain rfl := r'.unique (.refl _)
      exact ⟨rfl, ⟨hbuf, hbuf⟩, fun _ _ => rfl⟩
  | @snoc t u tr l r h ih =>
      obtain ⟨tr₁, m', rfl, hpre, hlast⟩ := alike_snoc hl
      obtain ⟨r₁, h', rfl⟩ := r'.snoc_inv
      rw [arrivals_append]
      exact ((ih r₁ hpre).step hlast h h').1

/-- There is a run along every sequence of arrivals that is alike. -/
theorem alike_run (hbuf : s₀.buf.length = maxBuf + 1) (r : Run Serves s₀ tr s) :
    ∀ xs', List.Forall₂ (Alike a) (arrivals tr) xs' →
      ∃ tr' s', Run Serves s₀ tr' s' ∧ arrivals tr' = xs' := by
  induction r with
  | refl =>
      intro xs' hl
      obtain rfl := List.forall₂_nil_left_iff.mp hl
      exact ⟨[], _, .refl _, rfl⟩
  | @snoc t u tr l r h ih =>
      intro xs' hl
      rw [arrivals_append] at hl
      obtain ⟨xs', x', rfl, hpre, hlast⟩ := forall₂_snoc hl
      obtain ⟨tr', s', r', rfl⟩ := ih xs' hpre
      obtain ⟨l', t', h', rfl⟩ := (same_run hbuf r r' hpre).turn hlast h
      exact ⟨_, _, r'.snoc h', by rw [arrivals_append]; rfl⟩

theorem repliesTo_self (h : l.addr = a) : repliesTo a [l] = l.reply.toList := by
  cases hr : l.reply <;> simp [repliesTo, h, hr]

theorem repliesTo_other (h : l.addr ≠ a) : repliesTo a [l] = [] := by
  simp [repliesTo, h]

/-- As many answers go to `a` in both runs. -/
theorem repliesTo_length (hbuf : s₀.buf.length = maxBuf + 1) (r : Run Serves s₀ tr s)
    (r' : Run Serves s₀ tr' s') (hl : List.Forall₂ (Alike a) (arrivals tr) (arrivals tr')) :
    (repliesTo a (served tr')).length = (repliesTo a (served tr)).length := by
  induction r generalizing tr' s' with
  | refl =>
      rw [alike_nil hl]
  | @snoc t u tr l r h ih =>
      obtain ⟨tr₁, m', rfl, hpre, hlast⟩ := alike_snoc hl
      obtain ⟨r₁, h', rfl⟩ := r'.snoc_inv
      obtain ⟨-, printed, answered, -, -, -, -, hr, hr'⟩ := (same_run hbuf r r₁ hpre).step hlast h h'
      have haddr : m'.label.addr = l.addr := hlast.addr
      rw [served_append, served_append, repliesTo_append, repliesTo_append, List.length_append,
        List.length_append, ih r₁ hpre]
      congr 1
      change (repliesTo a [m'.label]).length = (repliesTo a [l]).length
      by_cases ha : l.addr = a
      · rw [repliesTo_self ha, repliesTo_self (haddr.trans ha), hr, hr']
        cases answered with
        | false => rfl
        | true => rfl
      · rw [repliesTo_other ha, repliesTo_other (haddr ▸ ha)]

/-- **What is left in the buffer.**  Behind the datagrams that came later, the last one that
reached so far. -/
theorem left_in_buf (r : Run Serves s₀ tr s) {before after : List (Arrival A)} {x : Arrival A}
    {p : Nat} (hp : p < x.dgram.length) (he : arrivals tr = before ++ x :: after)
    (hafter : ∀ y ∈ after, y.dgram.length < p) : s.buf[p]? = x.dgram[p]? := by
  induction r generalizing after with
  | refl => simp [arrivals, served] at he
  | @snoc t u tr l r h ih =>
      obtain ⟨hlen, con, printed, answered, hv, rfl, -⟩ := serves_iff.mp h
      rw [arrivals_append] at he
      dsimp only
      rw [receive_getElem?]
      rcases snoc_eq_append_cons.mp he with ⟨rfl, -, rfl⟩ | ⟨after, rfl, htr⟩
      · exact if_pos hp
      · have hlt : l.dgram.length < p := hafter l.arrival (by simp [Turned.arrival])
        rw [if_neg (by omega), if_neg (by omega)]
        exact ih htr fun y hy => hafter y (by simp [hy])

/-! ### Isolation -/

/-- A clean turn: what is sent back is the same in both runs. -/
theorem Same.clean (h : Same a xs s s') (hmax : ∀ x ∈ xs, x.dgram.length ≤ maxBuf)
    (hl : Alike a l.arrival l'.arrival) (hs : Serves s l t) (hs' : Serves s' l' t')
    (ha : l.addr = a)
    (hclean : Answers s l.arrival → ∀ p, l.dgram.length < p → p < maxBuf → ¬ Stained a xs p) :
    l'.reply = l.reply ∧ l'.printed = l.printed := by
  obtain ⟨hsame, printed, answered, hpa, hans, hp, hp', hr, hr'⟩ := h.step hl hs hs'
  cases answered with
  | false =>
      cases printed with
      | true => cases hpa rfl
      | false =>
          simp only [Bool.false_eq_true, if_false] at hp hp' hr hr'
          exact ⟨hr'.trans hr.symm, hp'.trans hp.symm⟩
  | true =>
      have hbuf : t'.buf = t.buf := by
        refine List.ext_getElem? fun p => hsame.bytes p fun hst => ?_
        rcases stained_snoc.mp hst with ⟨hne, -⟩ | ⟨hst', hlt⟩
        · exact hne ha
        · refine hclean (hans.mp rfl) p hlt ?_ hst'
          obtain ⟨before, x, after, rfl, -, -, hp, -⟩ := hst'
          exact lt_of_lt_of_le hp (hmax x (by simp))
      rw [hr, hr', hp, hp', hbuf]
      exact ⟨rfl, rfl⟩

theorem arrivals_le (r : Run Serves s₀ tr s) : ∀ x ∈ arrivals tr, x.dgram.length ≤ maxBuf := by
  intro x hx
  obtain ⟨l, hl, rfl⟩ := List.mem_map.mp hx
  obtain ⟨m, hm, rfl⟩ := List.mem_map.mp hl
  exact (r.step_of_mem m hm).length

/-- Without stains behind its datagrams the client is isolated. -/
theorem Clean.isolated (hbuf : s₀.buf.length = maxBuf + 1) (r : Run Serves s₀ tr s)
    (hc : Clean a tr) : Isolated a s₀ tr := by
  intro tr' s' r' hl
  induction r generalizing tr' s' with
  | refl =>
      rw [alike_nil hl]
      exact ⟨rfl, rfl⟩
  | @snoc t u tr l r h ih =>
      obtain ⟨tr₁, m', rfl, hpre, hlast⟩ := alike_snoc hl
      obtain ⟨r₁, h', rfl⟩ := r'.snoc_inv
      have hprefix : Clean a tr := fun tr₁ m tr₂ e => hc tr₁ m (tr₂ ++ [⟨t, l, u⟩]) (by simp [e])
      obtain ⟨hreply, hprinted⟩ := ih hprefix tr₁ _ r₁ hpre
      have haddr : m'.label.addr = l.addr := hlast.addr
      rw [served_append, served_append, repliesTo_append, repliesTo_append, printedFor_append,
        printedFor_append, hreply, hprinted]
      by_cases ha : l.addr = a
      · obtain ⟨hr, hp⟩ := (same_run hbuf r r₁ hpre).clean (arrivals_le r) hlast h h' ha
          (hc tr ⟨t, l, u⟩ [] rfl ha)
        change _ ++ repliesTo a [m'.label] = _ ++ repliesTo a [l] ∧
          _ ++ printedFor a [m'.label] = _ ++ printedFor a [l]
        subst ha
        have hself := printedFor_self m'.label
        rw [haddr, hp] at hself
        rw [repliesTo_self haddr, repliesTo_self rfl, hr, hself, printedFor_self]
        exact ⟨rfl, rfl⟩
      · change _ ++ repliesTo a [m'.label] = _ ++ repliesTo a [l] ∧
          _ ++ printedFor a [m'.label] = _ ++ printedFor a [l]
        rw [repliesTo_other ha, repliesTo_other (haddr ▸ ha), printedFor_other ha,
          printedFor_other (haddr ▸ ha)]
        exact ⟨rfl, rfl⟩

/-- A stain behind an answered datagram is the byte of another client's text, and another text
makes another answer. -/
theorem Isolated.clean (hbuf : s₀.buf.length = maxBuf + 1) (r : Run Serves s₀ tr s)
    (hi : Isolated a s₀ tr) : Clean a tr := by
  rintro tr₁ m tr₂ rfl ha hans p hlt hmax ⟨before, x, after, he, hne, h8, hp, hafter⟩
  -- the same arrivals, with another byte in that text
  let x' : Arrival A := ⟨x.addr, x.dgram.set p (x.dgram[p] + 1)⟩
  have halike : Alike a x x' := ⟨rfl, List.length_set, by simp [x', List.take_set_of_le h8],
    fun e => (hne e).elim⟩
  have hself : ∀ ys : List (Arrival A), List.Forall₂ (Alike a) ys ys := fun ys =>
    List.forall₂_same.mpr fun y _ => ⟨rfl, rfl, rfl, fun _ => rfl⟩
  have hpre : List.Forall₂ (Alike a) (arrivals tr₁) (before ++ x' :: after) := by
    rw [he]
    exact List.rel_append (hself before) (.cons halike (hself after))
  have hall : List.Forall₂ (Alike a) (arrivals (tr₁ ++ m :: tr₂))
      ((before ++ x' :: after) ++ m.label.arrival :: arrivals tr₂) := by
    rw [arrivals_append]
    exact List.rel_append hpre (hself (m.label.arrival :: arrivals tr₂))
  obtain ⟨tr', s', r', he'⟩ := alike_run hbuf r _ hall
  have heq := (hi tr' s' r' (he' ▸ hall)).1
  obtain ⟨tr₁', m', tr₂', rfl, hpre', hm, -⟩ := arrivals_split he'
  -- up to the turn of `m` the two runs give `a` as many answers
  rw [← List.singleton_append, ← List.append_assoc] at r r'
  obtain ⟨u, r₂, -⟩ := r.append_inv
  obtain ⟨r₁, h, -⟩ := r₂.snoc_inv
  obtain ⟨u', r₂', -⟩ := r'.append_inv
  obtain ⟨r₁', h', -⟩ := r₂'.snoc_inv
  rw [← hpre'] at hpre
  have hlast : Alike a m.label.arrival m'.label.arrival := by
    rw [hm]
    exact ⟨rfl, rfl, rfl, fun _ => rfl⟩
  obtain ⟨-, printed, answered, -, hans', -, -, hr, hr'⟩ :=
    (same_run hbuf r₁ r₁' hpre).step hlast h h'
  obtain rfl : answered = true := hans'.mpr hans
  have haddr : m'.label.addr = a := (show m'.label.addr = m.label.addr from hlast.addr).trans ha
  have hreply : m'.after.buf.take maxBuf = m.after.buf.take maxBuf := by
    rw [← List.singleton_append, served_append, repliesTo_append, ← List.singleton_append (l := tr₂),
      served_append, repliesTo_append, served_append, repliesTo_append, served_append,
      repliesTo_append] at heq
    have hinj := (List.append_inj heq (repliesTo_length hbuf r₁ r₁' hpre)).2
    change repliesTo a [m'.label] ++ _ = repliesTo a [m.label] ++ _ at hinj
    rw [repliesTo_self ha, repliesTo_self haddr, hr, hr'] at hinj
    exact (List.cons.inj hinj).1
  -- but they differ in the byte `p`
  have hsnoc : arrivals (tr₁ ++ [m]) = before ++ x :: (after ++ [m.label.arrival]) := by
    rw [arrivals_append, he, List.append_assoc, List.cons_append]
    rfl
  have hsnoc' : arrivals (tr₁' ++ [m']) = before ++ x' :: (after ++ [m.label.arrival]) := by
    rw [arrivals_append, hpre', List.append_assoc, List.cons_append, ← hm]
    rfl
  have hshort := forall_mem_snoc (P := fun y : Arrival A => y.dgram.length < p) hafter
    (show m.label.arrival.dgram.length < p from hlt)
  have hleft : m.after.buf[p]? = x.dgram[p]? := left_in_buf (r₁.snoc h) hp hsnoc hshort
  have hleft' : m'.after.buf[p]? = x'.dgram[p]? :=
    left_in_buf (r₁'.snoc h') (by simpa [x'] using hp) hsnoc' hshort
  have hbyte := congrArg (fun b : List UInt8 => b[p]?) hreply
  simp only [List.getElem?_take, hmax, if_true, hleft, hleft'] at hbyte
  rw [List.getElem?_set_self hp, List.getElem?_eq_getElem hp] at hbyte
  have hval := congrArg UInt8.toNat (Option.some.inj hbyte)
  rw [UInt8.toNat_add] at hval
  change (_ + 1) % 256 = _ at hval
  omega

/-- **Isolation.**  Along every run of the server, what a client gets, and what is printed for it,
are the same whatever the others send behind the first eight bytes of their datagrams, exactly when
no datagram of the client that is answered comes to a buffer with such bytes behind its end. -/
theorem isolation_law (hbuf : s₀.buf.length = maxBuf + 1) (r : Run Serves s₀ tr s) (a : A) :
    Isolated a s₀ tr ↔ Clean a tr :=
  ⟨fun hi => hi.clean hbuf r, fun hc => hc.isolated hbuf r⟩

/-! ### Two clients -/

/-- The first chunk of a file, with the text `text`. -/
def firstChunk (text : List UInt8) : List UInt8 := beInt32 1 ++ beInt32 0 ++ text

/-- A turn for a first chunk, from an address that has an entry with the number 0. -/
theorem serves_firstChunk {s : Server Bool} {i : Fin maxAddr} {a : Bool}
    {con : Fin maxAddr → Connection Bool} (hf : findIndex a s.con = (some i, con))
    (hk : (con i).chunkNo = 0) {text : List UInt8} (hlen : text.length + 8 ≤ maxBuf) :
    Serves s
      ⟨a, firstChunk text, some (printedOf (receive s.buf (firstChunk text))),
        some ((receive s.buf (firstChunk text)).take maxBuf)⟩
      ⟨Function.update con i { con i with chunkNo := 1 }, receive s.buf (firstChunk text)⟩ := by
  have hbuf : receive s.buf (firstChunk text)
      = beInt32 1 ++ (beInt32 0 ++ (text ++ 0 :: s.buf.drop ((firstChunk text).length + 1))) := by
    simp [receive, firstChunk]
  have hn : int32Be (receive s.buf (firstChunk text)) = 1 := by
    rw [hbuf]
    exact int32Be_beInt32 (by decide) (by decide) _
  have hlast : int32Be ((receive s.buf (firstChunk text)).drop 4) = 0 := by
    rw [hbuf, List.drop_left' (beInt32_length 1)]
    exact int32Be_beInt32 (by decide) (by decide) _
  refine serves_iff.mpr ⟨?_, _, true, true, ?_, rfl, rfl, rfl⟩
  · simp only [firstChunk, List.length_append, beInt32_length]
    omega
  · have hmax : (0 : Int) ≠ int32Max := by decide
    rw [hn, hlast]
    simp [verdict, hf, hk, hmax]

/-- The other client sends a text, and then the client an empty one: the last byte of the text is
in the answer. -/
theorem pair_run (c : UInt8) : ∃ tr s reply, Run Serves freshPair tr s ∧
    arrivals tr = [⟨true, firstChunk [97, 97, 97, c]⟩, ⟨false, firstChunk []⟩] ∧
    repliesTo false (served tr) = [reply] ∧ reply[11]? = some c := by
  have h₁ := @serves_firstChunk freshPair _ true _ rfl rfl [97, 97, 97, c]
    (show 4 + 8 ≤ maxBuf by decide)
  have r := (Run.one h₁).snoc
    (@serves_firstChunk _ _ false _ rfl rfl [] (show 0 + 8 ≤ maxBuf by decide))
  refine ⟨_, _, _, r, rfl, rfl, ?_⟩
  rw [List.getElem?_take, if_pos (by decide), receive_getElem?, if_neg (by decide),
    if_neg (by decide)]
  dsimp only
  rw [receive_getElem?, if_pos (by simp [firstChunk])]
  rfl

/-- Two texts of another client that differ in one byte, and two answers. -/
theorem answer_leaks : ∃ tr s tr' s', Run Serves freshPair tr s ∧ Run Serves freshPair tr' s' ∧
    List.Forall₂ (Alike false) (arrivals tr) (arrivals tr') ∧
    repliesTo false (served tr') ≠ repliesTo false (served tr) := by
  obtain ⟨tr, s, reply, r, harr, hrep, hbyte⟩ := pair_run 97
  obtain ⟨tr', s', reply', r', harr', hrep', hbyte'⟩ := pair_run 98
  refine ⟨tr, s, tr', s', r, r', ?_, fun h => ?_⟩
  · rw [harr, harr']
    exact .cons ⟨rfl, rfl, rfl, nofun⟩ (.cons ⟨rfl, rfl, rfl, fun _ => rfl⟩ .nil)
  · rw [hrep, hrep'] at h
    rw [(List.cons.inj h).1, hbyte] at hbyte'
    exact absurd (Option.some.inj hbyte') (by decide)

omit [DecidableEq A] in
theorem mem_arrivals {m : Move (Server A) (Turned A)} (hm : m ∈ tr) :
    m.label.arrival ∈ arrivals tr :=
  List.mem_map_of_mem (List.mem_map_of_mem hm)

/-- A client whose datagrams are the longest comes to no stain. -/
theorem clean_of_longest (h : ∀ y ∈ arrivals tr, y.addr = a → ∀ x ∈ arrivals tr,
    x.dgram.length ≤ y.dgram.length) : Clean a tr := by
  rintro tr₁ m tr₂ rfl ha - p hlt - ⟨before, x, after, he, -, -, hp, -⟩
  have hx : x ∈ arrivals (tr₁ ++ m :: tr₂) := by simp [he]
  have hle : x.dgram.length ≤ m.label.dgram.length :=
    h _ (mem_arrivals (by simp)) ha x hx
  omega

/-- The other client sends a text, and then the client one as long: it is answered, and
isolated. -/
theorem isolation_law_pair : ∃ tr s reply, Run Serves freshPair tr s ∧
    arrivals tr = [⟨true, firstChunk [97, 97, 97]⟩, ⟨false, firstChunk [98, 98, 98]⟩] ∧
    repliesTo false (served tr) = [reply] ∧ Isolated false freshPair tr := by
  have h₁ := @serves_firstChunk freshPair _ true _ rfl rfl [97, 97, 97]
    (show 3 + 8 ≤ maxBuf by decide)
  have r := (Run.one h₁).snoc
    (@serves_firstChunk _ _ false _ rfl rfl [98, 98, 98] (show 3 + 8 ≤ maxBuf by decide))
  refine ⟨_, _, _, r, rfl, rfl, (isolation_law (by simp [freshPair]) r false).mpr ?_⟩
  refine clean_of_longest fun y hy _ x hx => le_of_eq ?_
  have hlength : ∀ z ∈ [(⟨true, firstChunk [97, 97, 97]⟩ : Arrival Bool),
      ⟨false, firstChunk [98, 98, 98]⟩], z.dgram.length = 11 := by
    simp [firstChunk]
  exact (hlength x hx).trans (hlength y hy).symm

end Sop2.Transfer
