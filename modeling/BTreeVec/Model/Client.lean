import BTreeVec.Model.Iter

/-!
# Calls on a vector

What a program can do with one vector: it calls the methods in some order, and it
may catch a panic and go on with the vector it has.
-/

namespace BTreeVec

open Prog

variable {T P : Type} {B : Nat} [TaggedPtr P]

inductive Op (T : Type) where
  | insert (index : Nat) (item : T)
  | push (item : T)
  | remove (index : Nat)
  | pop
  | get (index : Nat)
  /-- Reads the item behind the reference and writes another one there. -/
  | getMut (index : Nat) (item : T)
  | first
  | last
  | len
deriving DecidableEq, Repr

inductive Ret (T : Type) where
  | unit
  | item (x : T)
  | option (x : Option T)
  | nat (n : Nat)
deriving DecidableEq, Repr

namespace Op

def exec (v : BTreeVec) : Op T → Exec T P B (BTreeVec × Ret T)
  | insert index item => do return (← v.insert index item, .unit)
  | push item => do return (← v.push item, .unit)
  | remove index => do
      let (v, item) ← v.remove index
      return (v, .item item)
  | pop => do
      let (v, item) ← v.pop
      return (v, .option item)
  | get index => do return (v, .option (← v.get index))
  | getMut index item => do
      match ← v.getMut index with
      | none => return (v, .option none)
      | some slot => do
          let old ← LeafNode.child slot.1 slot.2
          BTreeVec.write slot item
          return (v, .option (some old))
  | first => do return (v, .option (← v.first))
  | last => do return (v, .option (← v.last))
  | len => return (v, .nat v.len)

/-- The documented bound on the index, without which the call panics. -/
def InBounds (v : BTreeVec) : Op T → Prop
  | insert index _ => index ≤ v.len
  | remove index => index < v.len
  | _ => True

end Op

/-- The calls in order, as long as none panics. -/
def execAll : List (Op T) → BTreeVec → Exec T P B BTreeVec
  | [], v => return v
  | op :: ops, v => do
      let (v, _) ← op.exec v
      execAll ops v

/-- A new vector and some calls on it. -/
def history (ops : List (Op T)) : Exec T P B BTreeVec := do
  execAll ops (← BTreeVec.create)

/-- What the caller gets from each call, a panic being caught. -/
def observe : List (Op T) → BTreeVec → Store T P B → List (Except Fault (Ret T))
  | [], _, _ => []
  | op :: ops, v, s =>
      match op.exec v s with
      | .ok (v', r) s' => .ok r :: observe ops v' s'
      | .error e s' => .error e :: observe ops v s'

/-- The vector and the store after some calls, of which some may have panicked. -/
inductive Reachable : BTreeVec → Store T P B → Prop where
  | create {v : BTreeVec} {s : Store T P B} (h : BTreeVec.create Store.empty = .ok v s) :
      Reachable v s
  | call {v v' : BTreeVec} {s s' : Store T P B} (op : Op T) {r : Ret T} (hv : Reachable v s)
      (h : op.exec v s = .ok (v', r) s') : Reachable v' s'
  | panic {v : BTreeVec} {s s' : Store T P B} (op : Op T) {e : Fault} (hv : Reachable v s)
      (h : op.exec v s = .error e s') : Reachable v s'

theorem Reachable.execAll {v v' : BTreeVec} {s s' : Store T P B} {ops : List (Op T)}
    (hv : Reachable v s) (h : BTreeVec.execAll ops v s = .ok v' s') : Reachable v' s' := by
  induction ops generalizing v s with
  | nil =>
      injection h with hv' hs'
      subst hv' hs'
      exact hv
  | cons op ops ih =>
      simp only [BTreeVec.execAll, bind, EStateM.bind] at h
      cases he : op.exec v s with
      | error e t => rw [he] at h; cases h
      | ok r t =>
          rw [he] at h
          exact ih (hv.call op he) h

theorem Reachable.history {v : BTreeVec} {s : Store T P B} {ops : List (Op T)}
    (h : BTreeVec.history ops Store.empty = .ok v s) : Reachable v s := by
  simp only [BTreeVec.history, bind, EStateM.bind] at h
  cases hc : (BTreeVec.create : Exec T P B BTreeVec) Store.empty with
  | error e t => rw [hc] at h; cases h
  | ok v₀ s₀ =>
      rw [hc] at h
      exact (Reachable.create hc).execAll h

/--
Some calls on `v` were made since the store was `s`, of which some may have panicked. The
vector they leave is none once it was dropped.
-/
inductive Used (v : BTreeVec) (s : Store T P B) : Option BTreeVec → Store T P B → Prop where
  | start : Used v s (some v) s
  | call {v' v'' : BTreeVec} {s' s'' : Store T P B} (op : Op T) {r : Ret T}
      (hv : Used v s (some v') s') (h : op.exec v' s' = .ok (v'', r) s'') : Used v s (some v'') s''
  | panic {v' : BTreeVec} {s' s'' : Store T P B} (op : Op T) {e : Fault}
      (hv : Used v s (some v') s') (h : op.exec v' s' = .error e s'') : Used v s (some v') s''
  | drop {v' : BTreeVec} {s' s'' : Store T P B} (hv : Used v s (some v') s')
      (h : v'.drop s' = .ok () s'') : Used v s none s''

/-- `k` calls of `next`, and then the iterator is dropped. -/
def IntoIter.consume : Nat → IntoIter → Exec T P B (List (Option T))
  | 0, self => do
      self.drop
      return []
  | k + 1, self => do
      let (item, self) ← self.next
      return item :: (← consume k self)

/-- The slots that `drop` takes the items out of, and the store after each. -/
def IntoIter.takesOf (leaf : Addr) : List Nat → Store T P B → List (Slot × Store T P B)
  | [], _ => []
  | i :: is, s =>
      match (LeafNode.takeChild leaf i : Exec T P B T) s with
      | .ok item s' =>
          let s' := { s' with dropped := s'.dropped ++ [item] }
          ((leaf, i), s') :: takesOf leaf is s'
      | .error _ _ => []

/-- As `consume`: the slots that the items are taken out of, and the store after each. -/
def IntoIter.takes : Nat → IntoIter → Store T P B → List (Slot × Store T P B)
  | 0, self, s =>
      match self.leaf with
      | none => []
      | some leaf => takesOf leaf (List.range' self.index (self.length - self.index)) s
  | k + 1, self, s =>
      match (self.next : Exec T P B (Option T × IntoIter)) s with
      | .ok (item, self) s' =>
          -- the index has gone past the slot
          let slot := (item.bind fun _ => self.leaf).map fun leaf => (leaf, self.index - 1)
          slot.toList.map (fun slot => (slot, s')) ++ takes k self s'
      | .error _ _ => []

/-- A call on a borrowing iterator. -/
inductive Step where
  | next
  | nth (n : Nat)
deriving DecidableEq, Repr

/-- The items that the call passes over. -/
def Step.skips : Step → Nat
  | next => 0
  | nth n => n

def Iter.step : Step → Iter → Exec T P B (Option T × Iter)
  | .next, self => Iter.next self
  | .nth n, self => Iter.nth self n

def IterMut.step : Step → IterMut → Exec T P B (Option Slot × IterMut)
  | .next, self => IterMut.next self
  | .nth n, self => IterMut.nth self n

/-- What some calls in a row give. -/
def steps {γ α : Type} (step : Step → γ → Exec T P B (Option α × γ)) :
    List Step → γ → Exec T P B (List (Option α))
  | [], _ => return []
  | call :: calls, self => do
      let (item, self) ← step call self
      return item :: (← steps step calls self)

/-- The slots that some calls in a row hand out, the run ending with the first that panics. -/
def IterMut.slots : List Step → IterMut → Store T P B → List Slot
  | [], _, _ => []
  | call :: calls, self, s =>
      match IterMut.step call self s with
      | .ok (slot, self) s' => slot.toList ++ slots calls self s'
      | .error _ _ => []

end BTreeVec
