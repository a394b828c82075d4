import BTreeVec.Model.Program
import BTreeVec.Proof.Refine

/-!
# Programs on plain lists

The same programs, run on lists: a vector is the list of its items, a borrow is a position
in the list of its owner, and an owning iterator is the list of the items it has left. This
is what a program on vectors is meant to do, with the destructors that it runs.
-/

namespace BTreeVec

variable {T : Type}

/-- A program between two statements, with the items dropped so far. -/
structure Lists (T : Type) where
  vars : Vars (List T) Nat Nat (List T)
  dropped : List T
deriving DecidableEq, Repr

/-- The items that the call drops. -/
def Op.overwrites (l : List T) : Op T → List T
  | getMut index _ => l[index]?.toList
  | _ => []

/-- The position that is lent, `none` where the call panics. -/
def Lend.onList (l : List T) : Lend → Option Nat
  | getMut index => some index
  | firstMut => some 0
  | lastMut => some (l.length - 1)
  | indexMut index => if index < l.length then some index else none

namespace Action

/-- A reference to the item at the position `pos` of `l`, if there is one, is made and read. -/
def bindPosition (w : Lists T) (owner : Nat) (l : List T) (pos : Nat) :
    Option (Except Fault (Ret T)) × Lists T :=
  match l[pos]? with
  | none => (some (.ok (.option none)), w)
  | some item => (some (.ok (.option (some item))),
      { w with vars := w.vars ++ [.itemMut owner pos] })

def onLists (a : Action T) (w : Lists T) : Option (Except Fault (Ret T)) × Lists T :=
  match a with
  | create => (some (.ok .unit), { w with vars := w.vars ++ [.vec []] })
  | clone x cloneItem panic =>
      match w.vars[x]? with
      | some (.vec l) | some (.copy l) =>
          let vars := w.vars.after .shared x
          match l.mapM cloneItem with
          | some l => (some (.ok .unit), { w with vars := vars ++ [.copy l] })
          | none => (some (.error panic), { w with vars := vars })
      | _ => (none, w)
  | call x op =>
      match w.vars[x]? with
      | some (.vec l) =>
          match op.onList l with
          | some (l', r) => (some (.ok r),
              ⟨(w.vars.after op.access x).set x (.vec l'), w.dropped ++ op.overwrites l⟩)
          | none => (some (.error .assertion),
              ⟨w.vars.after op.access x, w.dropped ++ (call x op).argument⟩)
      | some (.copy l) =>
          match op.inPlace, op.onList l with
          | true, some (l', r) => (some (.ok r),
              ⟨(w.vars.after op.access x).set x (.copy l'), w.dropped ++ op.overwrites l⟩)
          | _, _ => (none, w)
      | _ => (none, w)
  | index x i =>
      match w.vars[x]? with
      | some (.vec l) | some (.copy l) =>
          let w := { w with vars := w.vars.after .shared x }
          match l[i]? with
          | some item => (some (.ok (.item item)), w)
          | none => (some (.error .unwrap), w)
      | _ => (none, w)
  | lend x how =>
      match w.vars[x]? with
      | some (.vec l) =>
          let w := { w with vars := w.vars.after .exclusive x }
          match how.onList l with
          | some pos => bindPosition w x l pos
          | none => (some (.error .unwrap), w)
      | _ => (none, w)
  | iter x =>
      match w.vars[x]? with
      | some (.vec _) =>
          (some (.ok .unit), { w with vars := w.vars.after .shared x ++ [.iter x 0] })
      | _ => (none, w)
  | iterMut x =>
      match w.vars[x]? with
      | some (.vec _) =>
          (some (.ok .unit), { w with vars := w.vars.after .exclusive x ++ [.iterMut x 0] })
      | _ => (none, w)
  | intoIter x =>
      match w.vars[x]? with
      | some (.vec l) =>
          (some (.ok .unit), { w with vars := (w.vars.after .exclusive x).set x (.intoIter l) })
      | _ => (none, w)
  | step x c =>
      match w.vars[x]? with
      | some (.iter owner pos) =>
          match w.vars[owner]? with
          | some (.vec l) =>
              let pos := pos + c.skips
              (some (.ok (.option l[pos]?)),
                { w with vars := w.vars.set x (.iter owner (min (pos + 1) l.length)) })
          | _ => (none, w)
      | some (.iterMut owner pos) =>
          match w.vars[owner]? with
          | some (.vec l) =>
              let pos := pos + c.skips
              bindPosition { w with vars := w.vars.set x (.iterMut owner (min (pos + 1) l.length)) }
                owner l pos
          | _ => (none, w)
      | some (.intoIter l) => (some (.ok (.option l[c.skips]?)),
          ⟨w.vars.set x (.intoIter (l.drop (c.skips + 1))), w.dropped ++ l.take c.skips⟩)
      | _ => (none, w)
  | exactLen x =>
      match w.vars[x]? with
      | some (.iter owner pos) | some (.iterMut owner pos) =>
          match w.vars[owner]? with
          | some (.vec l) => (some (.ok (.nat (l.length - pos))), w)
          | _ => (none, w)
      | some (.intoIter l) => (some (.ok (.nat l.length)), w)
      | _ => (none, w)
  | cloneIter x =>
      match w.vars[x]? with
      | some (.iter owner pos) =>
          (some (.ok .unit), { w with vars := w.vars ++ [.iter owner pos] })
      | _ => (none, w)
  | read x =>
      match w.vars[x]? with
      | some (.itemMut owner pos) =>
          match w.vars[owner]? with
          | some (.vec l) => (l[pos]?.map fun item => .ok (.item item), w)
          | _ => (none, w)
      | _ => (none, w)
  | write x item =>
      match w.vars[x]? with
      | some (.itemMut owner pos) =>
          match w.vars[owner]? with
          | some (.vec l) =>
              match l[pos]? with
              | some old => (some (.ok .unit),
                  ⟨w.vars.set owner (.vec (l.set pos item)), w.dropped ++ [old]⟩)
              | none => (none, w)
          | _ => (none, w)
      | _ => (none, w)
  | drop x =>
      match w.vars[x]? with
      | some (.vec l) | some (.copy l) =>
          (some (.ok .unit), ⟨(w.vars.after .exclusive x).set x .moved, w.dropped ++ l⟩)
      | some (.intoIter l) => (some (.ok .unit), ⟨w.vars.set x .moved, w.dropped ++ l⟩)
      | some .moved | none => (none, w)
      | some _ => (some (.ok .unit), { w with vars := w.vars.set x .moved })

end Action

/-- The program of `runProgram`, on lists. -/
def runOnLists (acts : List (Action T)) : List (Option (Except Fault (Ret T))) × Lists T :=
  Machine.run Action.onLists acts ⟨[], []⟩

end BTreeVec
