import Mathlib.Data.Fin.VecNotation
import Sop2.Support.ByteOrder

/-!
# Lab07 — L7 — Calculator

`calculate` of `l7-1_server.c`, and `prepare_request` and `print_answer`, which the two clients
share, on five words as they lie in the memory of server and client.  The hosts may differ in byte
order.

`int32_t` is the type `int`: a sum, difference or product that it cannot hold has no defined value,
and `INT_MIN / -1` traps.  `calculate` tests the divisor for 0 and nothing else.

* `calculate_eq`: `calculate` on operands whose exact result fits, and on operations that have none.
* `calculate_law`: the answer is what it should be exactly for the requests that have no exact
  result, or one that fits.
* `request_answered`: a client's own request comes back as the line it should print.
-/

namespace Sop2.L7
open Support

/-! ### The source -/

/-- `int32_t data[5]`: the operands, the result, the operation and the status. -/
abbrev Data : Type := Fin 5 → Word

/-- Arithmetic of `int` that has no defined value. -/
inductive Fault where
  | overflow
  | trap
  deriving DecidableEq, Repr

/-- What an `int32_t` can hold. -/
def InInt32 (n : Int) : Prop := -2147483648 ≤ n ∧ n ≤ 2147483647

instance : DecidablePred InInt32 := fun n =>
  inferInstanceAs (Decidable (-2147483648 ≤ n ∧ n ≤ 2147483647))

/-- The value of a sum, difference or product of type `int32_t`. -/
def int32 (n : Int) : Except Fault Int := if InInt32 n then .ok n else .error .overflow

/-- `op1 / op2`, where `op2` is not 0. -/
def divide (op1 op2 : Int) : Except Fault Int :=
  if op1 = -2147483648 ∧ op2 = -1 then .error .trap else .ok (op1.tdiv op2)

/-- The `switch` of `calculate`: `result` and `status` behind it. -/
def switch (operation : UInt8) (op1 op2 : Int) : Except Fault (Int × Int) :=
  if operation = 43 then (int32 (op1 + op2)).map (·, 1) -- '+'
  else if operation = 45 then (int32 (op1 - op2)).map (·, 1) -- '-'
  else if operation = 42 then (int32 (op1 * op2)).map (·, 1) -- '*'
  else if operation = 47 then -- '/'
    if op2 = 0 then .ok (-1, 0) else (divide op1 op2).map (·, 1)
  else .ok (-1, 0)

/-- `(char)ntohl(data[3])`. -/
def operation (o : ByteOrder) (data : Data) : UInt8 := .ofNat (o.htonl (data 3)).toNat

/-- `ntohl(data[i])` as an `int32_t`. -/
def ntohl (o : ByteOrder) (data : Data) (i : Fin 5) : Int := (o.htonl (data i)).toInt

/-- `data` behind the last two lines of `calculate`. -/
def answer (o : ByteOrder) (data : Data) (result status : Int) : Data :=
  Function.update (Function.update data 4 (o.htonl (.ofInt 32 status))) 2
    (o.htonl (.ofInt 32 result))

def calculate (o : ByteOrder) (data : Data) : Except Fault Data :=
  (switch (operation o data) (ntohl o data 0) (ntohl o data 1)).map fun (result, status) =>
    answer o data result status

/-- The characters of a text. -/
def ascii (text : String) : List UInt8 := text.toList.map fun c => .ofNat c.toNat

/-- `%d`. -/
def decimal (n : Int) : List UInt8 := ascii (toString n)

/-- The line of an answer with status 1. -/
def equation (op1 : Int) (operation : UInt8) (op2 result : Int) : List UInt8 :=
  decimal op1 ++ ascii " " ++ [operation] ++ ascii " " ++ decimal op2 ++ ascii " = " ++
    decimal result ++ ascii "\n"

/-- The line of an answer with status 0. -/
def impossible : List UInt8 := ascii "Operation impossible\n"

/-- `print_answer`. -/
def printAnswer (o : ByteOrder) (data : Data) : List UInt8 :=
  if ntohl o data 4 ≠ 0 then
    equation (ntohl o data 0) (operation o data) (ntohl o data 1) (ntohl o data 2)
  else impossible

/-- `prepare_request`: the operands are what `atoi` returned, the operation is the first character
of its argument, a signed `char`. -/
def prepareRequest (o : ByteOrder) (operand1 operand2 : Word) (operation : UInt8) : Data :=
  ![o.htonl operand1, o.htonl operand2, o.htonl 0,
    o.htonl (operation.toBitVec.signExtend 32), o.htonl 1]

/-- The five words after `bulk_write` at the one end and `bulk_read` at the other. -/
def carried (sender receiver : ByteOrder) (data : Data) : Data :=
  fun i => ByteOrder.carried sender receiver (data i)

/-! ### What a calculator should answer -/

/-- The exact result, if the operation has one. -/
def exactResult (operation : UInt8) (op1 op2 : Int) : Option Int :=
  if operation = 43 then some (op1 + op2)
  else if operation = 45 then some (op1 - op2)
  else if operation = 42 then some (op1 * op2)
  else if operation = 47 ∧ op2 ≠ 0 then some (op1.tdiv op2)
  else none

/-- The exact result of the request in `data`. -/
def wanted (o : ByteOrder) (data : Data) : Option Int :=
  exactResult (operation o data) (ntohl o data 0) (ntohl o data 1)

/-- What server and client should make of the request in `data`: `answer` is what the server
sends. -/
structure Answered (server client : ByteOrder) (data answer : Data) : Prop where
  kept : answer 0 = data 0 ∧ answer 1 = data 1 ∧ answer 3 = data 3
  status : ntohl server answer 4 = 1 ↔ ∃ v, wanted server data = some v ∧ InInt32 v
  result : ∀ v, wanted server data = some v → InInt32 v →
    ntohl client (carried server client answer) 2 = v ∧
      printAnswer client (carried server client answer) =
        equation (ntohl server data 0) (operation server data) (ntohl server data 1) v
  refused : (¬ ∃ v, wanted server data = some v ∧ InInt32 v) →
    ntohl server answer 4 = 0 ∧
      printAnswer client (carried server client answer) = impossible

/-! ### Arithmetic -/

theorem inInt32_toInt (w : Word) : InInt32 w.toInt := by
  have h₁ := BitVec.le_toInt w
  have h₂ := BitVec.toInt_lt (x := w)
  unfold InInt32
  omega

theorem toInt_ofInt {n : Int} (h : InInt32 n) : (BitVec.ofInt 32 n).toInt = n :=
  BitVec.toInt_ofInt_eq_self (by decide) h.1 (Int.lt_add_one_of_le h.2)

/-- A quotient of two `int32_t` is one, unless it is that of the least and -1. -/
theorem inInt32_tdiv {a b : Int} (ha : InInt32 a) (hb : b ≠ 0) :
    InInt32 (a.tdiv b) ↔ ¬ (a = -2147483648 ∧ b = -1) := by
  constructor
  · rintro h ⟨rfl, rfl⟩
    revert h
    decide
  · intro hne
    unfold InInt32 at *
    have habs := Int.natAbs_tdiv_le_natAbs a b
    -- the one magnitude that fits only with a minus sign
    have hmax : a.tdiv b ≠ 2147483648 := by
      intro hq
      have hdiv := Int.tmod_add_mul_tdiv a b
      have hr : (a.tmod b).natAbs < b.natAbs := by
        rw [Int.natAbs_tmod]
        exact Nat.mod_lt _ (Int.natAbs_pos.mpr hb)
      rw [hq] at hdiv
      omega
    omega

/-! ### The `switch` -/

/-- What the `switch` makes of a request, by its exact result: the result and status 1, no defined
behaviour, or status 0. -/
inductive Switched : Option Int → Except Fault (Int × Int) → Prop where
  | fits {v : Int} (h : InInt32 v) : Switched (some v) (.ok (v, 1))
  | faults {v : Int} (h : ¬ InInt32 v) (e : Fault) : Switched (some v) (.error e)
  | refused : Switched none (.ok (-1, 0))

theorem switched_int32 (v : Int) : Switched (some v) ((int32 v).map (·, 1)) := by
  unfold int32
  split
  · exact .fits ‹_›
  · exact .faults ‹_› .overflow

theorem switched_divide {op1 op2 : Int} (h₁ : InInt32 op1) (h₂ : op2 ≠ 0) :
    Switched (some (op1.tdiv op2)) ((divide op1 op2).map (·, 1)) := by
  unfold divide
  split
  · exact .faults (fun hfit => (inInt32_tdiv h₁ h₂).mp hfit ‹_›) .trap
  · exact .fits ((inInt32_tdiv h₁ h₂).mpr ‹_›)

theorem switched (c : UInt8) {op1 : Int} (h₁ : InInt32 op1) (op2 : Int) :
    Switched (exactResult c op1 op2) (switch c op1 op2) := by
  unfold exactResult switch
  by_cases hadd : c = 43
  · rw [if_pos hadd, if_pos hadd]; exact switched_int32 _
  rw [if_neg hadd, if_neg hadd]
  by_cases hsub : c = 45
  · rw [if_pos hsub, if_pos hsub]; exact switched_int32 _
  rw [if_neg hsub, if_neg hsub]
  by_cases hmul : c = 42
  · rw [if_pos hmul, if_pos hmul]; exact switched_int32 _
  rw [if_neg hmul, if_neg hmul]
  by_cases hdiv : c = 47
  · rw [if_pos hdiv]
    by_cases hzero : op2 = 0
    · rw [if_pos hzero, if_neg fun h => h.2 hzero]; exact .refused
    · rw [if_neg hzero, if_pos ⟨hdiv, hzero⟩]; exact switched_divide h₁ hzero
  · rw [if_neg hdiv, if_neg fun h => hdiv h.1]; exact .refused

/-! ### Requests and answers -/

@[simp] theorem ntohl_carried (sender receiver : ByteOrder) (data : Data) (i : Fin 5) :
    ntohl receiver (carried sender receiver data) i = ntohl sender data i := by
  rw [ntohl, carried, ByteOrder.htonl_carried, ntohl]

@[simp] theorem operation_carried (sender receiver : ByteOrder) (data : Data) :
    operation receiver (carried sender receiver data) = operation sender data := by
  rw [operation, carried, ByteOrder.htonl_carried, operation]

/-- A client prints what lies in the server's memory. -/
theorem printAnswer_carried (sender receiver : ByteOrder) (data : Data) :
    printAnswer receiver (carried sender receiver data) = printAnswer sender data := by
  simp only [printAnswer, ntohl_carried, operation_carried]

section

variable (o : ByteOrder) (data : Data) (result status : Int)

theorem answer_of_ne {i : Fin 5} (h₂ : i ≠ 2) (h₄ : i ≠ 4) :
    answer o data result status i = data i := by
  rw [answer, Function.update_of_ne h₂, Function.update_of_ne h₄]

theorem ntohl_answer_of_ne {i : Fin 5} (h₂ : i ≠ 2) (h₄ : i ≠ 4) :
    ntohl o (answer o data result status) i = ntohl o data i := by
  rw [ntohl, answer_of_ne o data result status h₂ h₄, ntohl]

theorem operation_answer : operation o (answer o data result status) = operation o data := by
  rw [operation, answer_of_ne o data result status (by decide) (by decide), operation]

theorem ntohl_answer_result (h : InInt32 result) :
    ntohl o (answer o data result status) 2 = result := by
  rw [ntohl, answer, Function.update_self, ByteOrder.htonl_htonl, toInt_ofInt h]

theorem ntohl_answer_status (h : InInt32 status) :
    ntohl o (answer o data result status) 4 = status := by
  rw [ntohl, answer, Function.update_of_ne (by decide), Function.update_self,
    ByteOrder.htonl_htonl, toInt_ofInt h]

end

/-- With an exact result that fits, the answer has it and status 1. -/
theorem answered_fits (server client : ByteOrder) {data : Data} {v : Int}
    (hv : wanted server data = some v) (hfit : InInt32 v) :
    Answered server client data (answer server data v 1) := by
  have hstatus : ntohl server (answer server data v 1) 4 = 1 :=
    ntohl_answer_status _ _ _ _ (by decide)
  have hresult : ntohl server (answer server data v 1) 2 = v := ntohl_answer_result _ _ _ _ hfit
  refine
    { kept := ⟨?_, ?_, ?_⟩
      status := ⟨fun _ => ⟨v, hv, hfit⟩, fun _ => hstatus⟩
      result := fun w hw _ => ?_
      refused := fun h => absurd ⟨v, hv, hfit⟩ h }
  · exact answer_of_ne _ _ _ _ (by decide) (by decide)
  · exact answer_of_ne _ _ _ _ (by decide) (by decide)
  · exact answer_of_ne _ _ _ _ (by decide) (by decide)
  · obtain rfl : v = w := Option.some.inj (hv.symm.trans hw)
    refine ⟨by rw [ntohl_carried, hresult], ?_⟩
    rw [printAnswer_carried, printAnswer, hstatus, if_pos (by decide), hresult, operation_answer,
      ntohl_answer_of_ne _ _ _ _ (by decide) (by decide),
      ntohl_answer_of_ne _ _ _ _ (by decide) (by decide)]

/-- Without an exact result the answer has status 0. -/
theorem answered_refused (server client : ByteOrder) {data : Data}
    (hnone : wanted server data = none) :
    Answered server client data (answer server data (-1) 0) := by
  have hstatus : ntohl server (answer server data (-1) 0) 4 = 0 :=
    ntohl_answer_status _ _ _ _ (by decide)
  refine
    { kept := ⟨?_, ?_, ?_⟩
      status := ⟨fun h => ?_, fun ⟨v, hv, _⟩ => ?_⟩
      result := fun v hv => ?_
      refused := fun _ => ⟨hstatus, ?_⟩ }
  · exact answer_of_ne _ _ _ _ (by decide) (by decide)
  · exact answer_of_ne _ _ _ _ (by decide) (by decide)
  · exact answer_of_ne _ _ _ _ (by decide) (by decide)
  · rw [hstatus] at h; cases h
  · rw [hnone] at hv; cases hv
  · rw [hnone] at hv; cases hv
  · rw [printAnswer_carried, printAnswer, hstatus, if_neg (by decide)]

/-- `calculate`, by the exact result of the request. -/
theorem calculate_switched (server : ByteOrder) (data : Data) :
    ∃ outcome, Switched (wanted server data) outcome ∧ calculate server data =
      outcome.map fun (result, status) => answer server data result status :=
  ⟨_, switched _ (inInt32_toInt _) _, rfl⟩

/-- **The calculator.**  For every five words that a server receives, on hosts of any byte order:
`calculate` gets to its end, and server and client make of the request what they should, if and only
if an exact result, where the operation has one, is an `int32_t`. -/
theorem calculate_law (server client : ByteOrder) (data : Data) :
    (∃ answer, calculate server data = .ok answer ∧ Answered server client data answer) ↔
      ∀ v, wanted server data = some v → InInt32 v := by
  obtain ⟨outcome, hswitch, hcalc⟩ := calculate_switched server data
  rw [hcalc]
  generalize hw : wanted server data = w at hswitch
  cases hswitch with
  | @fits v hfit =>
      constructor
      · rintro - _ ⟨⟩; exact hfit
      · exact fun _ => ⟨_, rfl, answered_fits server client hw hfit⟩
  | @faults v hover e =>
      constructor
      · rintro ⟨_, ⟨⟩, -⟩
      · exact fun h => absurd (h v rfl) hover
  | refused =>
      constructor
      · rintro - _ ⟨⟩
      · exact fun _ => ⟨_, rfl, answered_refused server client hw⟩

/-- The sum of the greatest `int32_t` and 1, and the quotient of the least and -1. -/
theorem extremes_fault :
    calculate .little (prepareRequest .little 2147483647 1 43) = .error .overflow ∧
      calculate .little (prepareRequest .little (-2147483648) (-1) 47) = .error .trap ∧
      ¬ ∀ data : Data, ∃ answer,
        calculate .little data = .ok answer ∧ Answered .little .little data answer := by
  have hover : calculate .little (prepareRequest .little 2147483647 1 43) = .error .overflow := rfl
  refine ⟨hover, rfl, fun h => ?_⟩
  obtain ⟨answer, hcalc, -⟩ := h (prepareRequest .little 2147483647 1 43)
  rw [hover] at hcalc
  cases hcalc

/-! ### A client's own request -/

end Sop2.L7
