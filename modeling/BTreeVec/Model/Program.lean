import BTreeVec.Lib.Machine
import BTreeVec.Model.Client
import BTreeVec.Model.Unwind

/-!
# Programs

What a safe program can do with any number of vectors: it calls their methods, borrows
them through iterators and references, clones them, consumes them and drops them, in any
order that the borrow checker lets through. A value that is not there any more, or whose
borrow has ended, is refused: such a program does not compile. A panic is caught, and the
program goes on with the values it has.

A clone is a copy of another value's items, but its nodes do not know their places and its
leaves are not chained to each other. So a copy is only used in place, which needs neither:
other calls on it are refused here, though they compile.
-/

namespace BTreeVec

open Prog

variable {T P : Type} {B : Nat} [TaggedPtr P]

/-- How a call uses the vector: by `&self`, or by `&mut self` or `self`. -/
inductive Access where
  | shared
  | exclusive
deriving DecidableEq, Repr

/--
What a variable holds. A borrow names the variable of the vector that it borrows from. The
parameters are the types of vectors, of cursors, of references to items and of owning
iterators.
-/
inductive Value (ν γ ρ ω : Type) where
  | vec (v : ν)
  /-- A vector that `clone` made. -/
  | copy (v : ν)
  | iter (owner : Nat) (self : γ)
  | iterMut (owner : Nat) (self : γ)
  | itemMut (owner : Nat) (self : ρ)
  | intoIter (self : ω)
  | moved
deriving DecidableEq, Repr

/-- The value after the vector in the variable `x` was used: the borrows in the way have ended. -/
def Value.after {ν γ ρ ω : Type} (access : Access) (x : Nat) : Value ν γ ρ ω → Value ν γ ρ ω
  | .iter owner self =>
      if owner = x ∧ access = .exclusive then .moved else .iter owner self
  | .iterMut owner self => if owner = x then .moved else .iterMut owner self
  | .itemMut owner self => if owner = x then .moved else .itemMut owner self
  | value => value

/-- The variables of a program, by number. -/
abbrev Vars (ν γ ρ ω : Type) := List (Value ν γ ρ ω)

def Vars.after {ν γ ρ ω : Type} (vars : Vars ν γ ρ ω) (access : Access) (x : Nat) : Vars ν γ ρ ω :=
  vars.map (Value.after access x)

abbrev Env := Vars BTreeVec Cursor Slot IntoIter

/-- The methods that give a mutable reference to an item. -/
inductive Lend where
  | getMut (index : Nat)
  | firstMut
  | lastMut
  | indexMut (index : Nat)
deriving DecidableEq, Repr

def Lend.exec (v : BTreeVec) : Lend → Exec T P B (Option Slot)
  | getMut index => v.getMut index
  | firstMut => v.firstMut
  | lastMut => v.lastMut
  | indexMut index => do return some (← v.indexMut index)

def Op.access : Op T → Access
  | get _ | first | last | len => .shared
  | _ => .exclusive

/-- The call moves no item and no node. -/
def Op.inPlace : Op T → Bool
  | get _ | getMut _ _ | first | last | len => true
  | _ => false

/-- A call on `IntoIter`. -/
def IntoIter.step : Step → IntoIter → Exec T P B (Option T × IntoIter)
  | .next, self => self.next
  | .nth n, self => self.nth n

/-- One statement of a program; `x` is a variable, and a new value goes into a new one. -/
inductive Action (T : Type) where
  | create
  /-- `cloneItem` is what `Clone` does to each item, `none` if it panics with `panic`. -/
  | clone (x : Nat) (cloneItem : T → Option T) (panic : Fault)
  | call (x : Nat) (op : Op T)
  | index (x i : Nat)
  /-- Makes a mutable reference, and reads the item behind it. -/
  | lend (x : Nat) (how : Lend)
  | iter (x : Nat)
  | iterMut (x : Nat)
  | intoIter (x : Nat)
  /-- A call on an iterator; the item behind a mutable reference is read at once. -/
  | step (x : Nat) (call : Step)
  | exactLen (x : Nat)
  | cloneIter (x : Nat)
  | read (x : Nat)
  | write (x : Nat) (item : T)
  | drop (x : Nat)

namespace Action

/-- A mutable reference to the item in `slot` is read and put into a new variable. -/
def bindItem (env : Env) (owner : Nat) : Option Slot → Exec T P B (Env × Ret T)
  | none => return (env, .option none)
  | some slot => do
      let item ← LeafNode.child slot.1 slot.2
      return (env ++ [.itemMut owner slot], .option (some item))

/-- What the statement does, if it compiles. -/
def exec (env : Env) : Action T → Option (Exec T P B (Env × Ret T))
  | create => some do return (env ++ [.vec (← BTreeVec.create)], .unit)
  | clone x cloneItem panic =>
      match env[x]? with
      | some (.vec v) | some (.copy v) => some do
          return (env.after .shared x ++ [.copy (← v.tryClone cloneItem panic)], .unit)
      | _ => none
  | call x op =>
      match env[x]? with
      | some (.vec v) => some do
          let (v, r) ← op.exec v
          return ((env.after op.access x).set x (.vec v), r)
      | some (.copy v) =>
          if op.inPlace then some do
            let (v, r) ← op.exec v
            return ((env.after op.access x).set x (.copy v), r)
          else none
      | _ => none
  | index x i =>
      match env[x]? with
      | some (.vec v) | some (.copy v) => some do
          return (env.after .shared x, .item (← v.index i))
      | _ => none
  | lend x how =>
      match env[x]? with
      | some (.vec v) => some do bindItem (env.after .exclusive x) x (← how.exec v)
      | _ => none
  | iter x =>
      match env[x]? with
      | some (.vec v) => some do return (env.after .shared x ++ [.iter x (← v.iter)], .unit)
      | _ => none
  | iterMut x =>
      match env[x]? with
      | some (.vec v) => some do
          return (env.after .exclusive x ++ [.iterMut x (← v.iterMut)], .unit)
      | _ => none
  | intoIter x =>
      match env[x]? with
      | some (.vec v) => some do
          return ((env.after .exclusive x).set x (.intoIter (← v.intoIter)), .unit)
      | _ => none
  | step x c =>
      match env[x]? with
      | some (.iter owner self) => some do
          let (item, self) ← Iter.step c self
          return (env.set x (.iter owner self), .option item)
      | some (.iterMut owner self) => some do
          let (slot, self) ← IterMut.step c self
          bindItem (env.set x (.iterMut owner self)) owner slot
      | some (.intoIter self) => some do
          let (item, self) ← IntoIter.step c self
          return (env.set x (.intoIter self), .option item)
      | _ => none
  | exactLen x =>
      match env[x]? with
      | some (.iter _ self) => some do return (env, .nat (← Iter.len self))
      | some (.iterMut _ self) => some do return (env, .nat (← IterMut.len self))
      | some (.intoIter self) => some do return (env, .nat (← IntoIter.len self))
      | _ => none
  | cloneIter x =>
      match env[x]? with
      | some (.iter owner self) => some (pure (env ++ [.iter owner (Iter.clone self)], .unit))
      | _ => none
  | read x =>
      match env[x]? with
      | some (.itemMut _ slot) => some do
          return (env, .item (← LeafNode.child slot.1 slot.2))
      | _ => none
  | write x item =>
      match env[x]? with
      | some (.itemMut _ slot) => some do
          BTreeVec.write slot item
          return (env, .unit)
      | _ => none
  | drop x =>
      match env[x]? with
      | some (.vec v) | some (.copy v) => some do
          v.drop
          return ((env.after .exclusive x).set x .moved, .unit)
      | some (.intoIter self) => some do
          self.drop
          return (env.set x .moved, .unit)
      | some .moved | none => none
      -- a borrow has no destructor
      | some _ => some (pure (env.set x .moved, .unit))

/--
The variables after the statement panicked. The vector is still there; an iterator that
panicked is not used again.
-/
def unwind (env : Env) : Action T → Env
  | call x op => env.after op.access x
  | clone x _ _ | index x _ | iter x => env.after .shared x
  | lend x _ | iterMut x => env.after .exclusive x
  | intoIter x | drop x => (env.after .exclusive x).set x .moved
  | step x _ => env.set x .moved
  | _ => env

/-- The item that is passed by value, and dropped if the call panics. -/
def argument : Action T → List T
  | call _ (.insert _ item) | call _ (.push item) => [item]
  | _ => []

/-- The statement as a step: what the program gets from it, `none` if it does not compile. -/
def run (a : Action T) : Env × Store T P B → Option (Except Fault (Ret T)) × Env × Store T P B
  | (env, s) =>
      match a.exec env with
      | none => (none, env, s)
      | some m =>
          match m s with
          | .ok (env', r) s' => (some (.ok r), env', s')
          | .error e s' =>
              (some (.error e), a.unwind env, { s' with dropped := s'.dropped ++ a.argument })

/-- The statement goes through the leaf chain, or prepares to. -/
def Iterates : Action T → Prop
  | iter _ | iterMut _ | intoIter _ => True
  | _ => False

end Action

/-- A program that starts without any vector. -/
def runProgram (acts : List (Action T)) :
    List (Option (Except Fault (Ret T))) × Env × Store T P B :=
  Machine.run Action.run acts ([], Store.empty)

end BTreeVec
