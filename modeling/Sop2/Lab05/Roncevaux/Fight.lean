import Mathlib.Data.Fintype.Sigma
import Sop2.Support.Int32
import Sop2.Support.Pipes
import Sop2.Support.Runs

/-!
# Lab05 — Roncevaux — the fight

`lab05/prelab/sop-roncevaux.c` after the last `fork`: two armies of any sizes; every knight reads
its own pipe, and writes to those of its enemies.

All processes start with all ends of all pipes.  A knight closes those that it does not use, one
after the other, before it fights (`bornRead`, `bornWrite`), and the parent all of them, at any
time.  A knight that is done closes its own read end, the write ends to the enemies that are in
the first `aliveEnemies` slots, and then all its write ends once more.

A knight of attack -1 divides by 0 when it strikes, and is killed by `SIGFPE`; then all its ends are
closed, in any order.  So `alive` is false for the knights that have died of a stroke and for those
that were killed.  The sum `attack + 1` and the difference `HP - buf` are of type `int`: where they
overflow, they wrap, or the process is killed, or the test that follows sees the value of a wider
register.

The parent forks before it closes, so that it makes no difference to the ends of the pipes that
some knights are born late.
-/

namespace Sop2.Roncevaux
open Support

inductive Army where
  | franci
  | saraceni
  deriving DecidableEq

def Army.other : Army → Army
  | .franci => .saraceni
  | .saraceni => .franci

/-- A knight's army, and its number. -/
abbrev Name (size : Army → Nat) := (a : Army) × Fin (size a)

/-- `knight_t`, without the name. -/
structure Knight where
  hp : Int
  attack : Int

/-- Where a knight is. -/
inductive Place (size : Army → Nat) where
  /-- Before `child_work`. -/
  | born
  /-- `while (alive && aliveEnemies > 0)`. -/
  | outer
  | reading
  /-- `if (!alive || aliveEnemies == 0)`. -/
  | test
  | striking
  | closeOwn
  /-- The enemies whose write ends are still to be closed in `child_work`. -/
  | closing (enemies : List (Name size))
  /-- The same after `child_work`. -/
  | ending (enemies : List (Name size))
  /-- Killed by a signal; its ends are being closed. -/
  | killed
  | exited

/-- The variables of `child_work`. -/
structure Fighter (size : Army → Nat) where
  knight : Knight
  alive : Bool
  aliveEnemies : Nat
  enemyPipes : List (Name size)
  place : Place size

/-- The pipes, which carry the damage of each stroke, and the knights; of the processes, `none` is
the parent. -/
structure State (size : Army → Nat) where
  pipes : Pipes (Option (Name size)) (Name size) Int
  fighter : Name size → Fighter size

inductive Event where
  | strikes (hp damage : Int)
  | dies
  deriving DecidableEq

variable {size : Army → Nat}

/-- `enemyPipes`, by the enemies whose pipes they are. -/
def enemies (a : Army) : List (Name size) :=
  (List.finRange (size a.other)).map fun i => ⟨a.other, i⟩

/-- `char damage = rand() % (attack + 1)`, where `r` is what `rand` returns; none if that divides
by 0. -/
def damage (attack r : Int) : Option Int :=
  let divisor := wrap32 (attack + 1)
  if divisor = 0 then none else some ((r.tmod divisor).bmod 256)

/-- `knight.HP -= buf`. -/
def Loses (hp buf hp' : Int) : Prop :=
  hp' = hp - buf ∨ ¬ IsInt32 (hp - buf) ∧ hp' = wrap32 (hp - buf)

/-- The elements `i` and `j` change places. -/
def swap {α : Type*} (l : List α) (i j : Nat) : List α :=
  match l[i]?, l[j]? with
  | some x, some y => (l.set i y).set j x
  | _, _ => l

/-- The steps that only look at the variables. -/
def Fighter.turn (f : Fighter size) : Option (Fighter size) :=
  match f.place with
  | .outer =>
      some { f with place := if f.alive = true ∧ 0 < f.aliveEnemies then .reading else .closeOwn }
  | .test =>
      some { f with place := if f.alive = false ∨ f.aliveEnemies = 0 then .closeOwn else .striking }
  | .striking => if f.aliveEnemies = 0 then some { f with place := .outer } else none
  | .closing [] => some { f with place := .ending f.enemyPipes }
  | .ending [] => some { f with place := .exited }
  | _ => none

/-- What a knight can do next, to its variables and to the pipes. -/
inductive Turn (cap : Nat) (pipes : Pipes (Option (Name size)) (Name size) Int) (k : Name size)
    (f : Fighter size) :
    Option Event → Pipes (Option (Name size)) (Name size) Int → Fighter size → Prop where
  | bornRead (j : Name size) (h : f.place = .born) (hj : j ≠ k) :
      Turn cap pipes k f none (pipes.closeRead (some k) j) f
  | bornWrite (j : Name size) (h : f.place = .born) (hj : j.1 = k.1) :
      Turn cap pipes k f none (pipes.closeWrite (some k) j) f
  | fight (h : f.place = .born) (hr : ∀ j ≠ k, pipes.reads (some k) j = false)
      (hw : ∀ j, j.1 = k.1 → pipes.writes (some k) j = false) :
      Turn cap pipes k f none pipes { f with place := .outer }
  | go (f' : Fighter size) (h : f.turn = some f') : Turn cap pipes k f none pipes f'
  | hit (buf hp : Int) (pipes' : Pipes (Option (Name size)) (Name size) Int)
      (h : f.place = .reading) (hr : pipes.Read k (some buf) pipes')
      (hl : Loses f.knight.hp buf hp) (hsign : 0 ≤ hp) :
      Turn cap pipes k f none pipes' { f with knight := { f.knight with hp := hp } }
  | die (buf hp : Int) (pipes' : Pipes (Option (Name size)) (Name size) Int)
      (h : f.place = .reading) (hr : pipes.Read k (some buf) pipes')
      (hl : Loses f.knight.hp buf hp) (hsign : hp < 0) :
      Turn cap pipes k f (some .dies) pipes'
        { f with knight := { f.knight with hp := hp }, alive := false, place := .test }
  /-- `EAGAIN`. -/
  | again (h : f.place = .reading) (hempty : pipes.content k = []) (hw : ¬ pipes.NoWriter k) :
      Turn cap pipes k f none pipes { f with place := .test }
  | eof (pipes' : Pipes (Option (Name size)) (Name size) Int) (h : f.place = .reading)
      (hr : pipes.Read k none pipes') :
      Turn cap pipes k f none pipes' { f with aliveEnemies := 0, place := .test }
  | strike (enemy : Nat) (e : Name size) (r d : Int)
      (pipes' : Pipes (Option (Name size)) (Name size) Int) (h : f.place = .striking)
      (henemy : enemy < f.aliveEnemies) (he : f.enemyPipes[enemy]? = some e) (hr : 0 ≤ r)
      (hd : damage f.knight.attack r = some d) (hw : pipes.Write cap e d true pipes') :
      Turn cap pipes k f (some (.strikes f.knight.hp d)) pipes' { f with place := .outer }
  /-- `EPIPE`. -/
  | broken (enemy : Nat) (e : Name size) (r d : Int)
      (pipes' : Pipes (Option (Name size)) (Name size) Int) (h : f.place = .striking)
      (henemy : enemy < f.aliveEnemies) (he : f.enemyPipes[enemy]? = some e) (hr : 0 ≤ r)
      (hd : damage f.knight.attack r = some d) (hw : pipes.Write cap e d false pipes') :
      Turn cap pipes k f none (pipes'.closeWrite (some k) e)
        { f with
          aliveEnemies := f.aliveEnemies - 1
          enemyPipes := swap f.enemyPipes enemy (f.aliveEnemies - 1) }
  /-- `SIGFPE`. -/
  | trap (r : Int) (h : f.place = .striking) (hpos : 0 < f.aliveEnemies) (hr : 0 ≤ r)
      (hd : damage f.knight.attack r = none ∨ ¬ IsInt32 (f.knight.attack + 1)) :
      Turn cap pipes k f none pipes { f with alive := false, place := .killed }
  | killedRead (j : Name size) (h : f.place = .killed) :
      Turn cap pipes k f none (pipes.closeRead (some k) j) f
  | killedWrite (j : Name size) (h : f.place = .killed) :
      Turn cap pipes k f none (pipes.closeWrite (some k) j) f
  | reaped (h : f.place = .killed) (hr : ∀ j, pipes.reads (some k) j = false)
      (hw : ∀ j, pipes.writes (some k) j = false) :
      Turn cap pipes k f none pipes { f with place := .exited }
  | closeOwn (h : f.place = .closeOwn) :
      Turn cap pipes k f none (pipes.closeRead (some k) k)
        { f with place := .closing (f.enemyPipes.take f.aliveEnemies) }
  | closing (e : Name size) (es : List (Name size)) (h : f.place = .closing (e :: es)) :
      Turn cap pipes k f none (pipes.closeWrite (some k) e) { f with place := .closing es }
  | ending (e : Name size) (es : List (Name size)) (h : f.place = .ending (e :: es)) :
      Turn cap pipes k f none (pipes.closeWrite (some k) e) { f with place := .ending es }

/-- One step of one process.  A pipe holds at most `cap` strokes. -/
inductive Step (cap : Nat) :
    State size → Option (Name size) × Option Event → State size → Prop where
  | knight {s : State size} (k : Name size) (e : Option Event)
      (pipes : Pipes (Option (Name size)) (Name size) Int) (f : Fighter size)
      (h : Turn cap s.pipes k (s.fighter k) e pipes f) :
      Step cap s (some k, e) ⟨pipes, Function.update s.fighter k f⟩
  | parentRead {s : State size} (j : Name size) :
      Step cap s (none, none) ⟨s.pipes.closeRead none j, s.fighter⟩
  | parentWrite {s : State size} (j : Name size) :
      Step cap s (none, none) ⟨s.pipes.closeWrite none j, s.fighter⟩

/-- The armies take the field. -/
def battle (army : Name size → Knight) : State size where
  pipes := ⟨fun _ => [], fun _ _ => true, fun _ _ => true⟩
  fighter k := ⟨army k, true, size k.1.other, enemies k.1, .born⟩

end Sop2.Roncevaux
