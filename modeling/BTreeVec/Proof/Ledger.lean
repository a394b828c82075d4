import Mathlib.Algebra.Order.Group.Multiset
import Mathlib.Tactic.Abel
import BTreeVec.Proof.Program

/-!
# The items of a program

Every item that was moved into a vector is in one place: it was moved out again, it was
dropped, or a vector or an owning iterator still has it. On lists each statement keeps that
account, and so it does on vectors.
-/

set_option linter.dupNamespace false

namespace BTreeVec

open Prog

variable {T P : Type} {B : Nat} [TaggedPtr P] {s : Store T P B} {l l' : List T} {F : Set Addr}
  {x : Nat} {env : Env} {vars : Vars (List T) Nat Nat (List T)} {R : Nat → Set Addr}
  {lost : Set Addr} {w : Lists T}
  {acts : List (Action T)}

/-! ## What is moved in and out -/

/-- The items that a call moves into the vector, or that are dropped when it panics. -/
def Op.given : Op T → Except Fault (Ret T) → Multiset T
  | insert _ item, _ | push item, _ => {item}
  | getMut _ item, .ok (.option (some _)) => {item}
  | _, _ => 0

/-- The items that a call moves out of the vector. -/
def Op.taken : Op T → Except Fault (Ret T) → Multiset T
  | remove _, .ok (.item item) => {item}
  | pop, .ok (.option item) => item.toList
  | _, _ => 0

/--
The items that a statement moves into vectors, where `held` are the items of each variable.
A clone comes with the items that `Clone` made for it.
-/
def Action.given (held : Nat → List T) : Action T → Option (Except Fault (Ret T)) → Multiset T
  | clone x cloneItem _, some (.ok _) => ((held x).mapM cloneItem).getD []
  | call _ op, some r => op.given r
  | write _ item, some _ => {item}
  | _, _ => 0

/-- The items that a statement moves out of vectors and owning iterators. -/
def Action.taken {ν γ ρ ω : Type} (vars : Vars ν γ ρ ω) :
    Action T → Option (Except Fault (Ret T)) → Multiset T
  | call _ op, some r => op.taken r
  | step x _, r =>
      match vars[x]?, r with
      | some (.intoIter _), some (.ok (.option item)) => item.toList
      | _, _ => 0
  | _, _ => 0

/-- The items that the value has. -/
def Value.items (s : Store T P B) : Value BTreeVec Cursor Slot IntoIter → List T
  | .vec v | .copy v => s.itemsOf v
  | .intoIter self => self.items s
  | _ => []

def Value.listed {γ ρ : Type} : Value (List T) γ ρ (List T) → List T
  | .vec l | .copy l | .intoIter l => l
  | _ => []

/-- The items that each variable has. -/
def Store.held (s : Store T P B) (env : Env) (x : Nat) : List T :=
  (env[x]?.map (Value.items s)).getD []

def Lists.held (w : Lists T) (x : Nat) : List T := (w.vars[x]?.map Value.listed).getD []

theorem listed_after (vars : Vars (List T) Nat Nat (List T)) (access : Access) (x : Nat) :
    (vars.after access x).flatMap Value.listed = vars.flatMap Value.listed := by
  rw [Vars.after, List.flatMap_map]
  refine List.flatMap_congr fun p _ => ?_
  cases p with
  | vec | copy | intoIter | moved => rfl
  | iter | iterMut | itemMut =>
      simp only [Value.after]
      split <;> rfl

theorem listed_push {vars : Vars (List T) Nat Nat (List T)}
    (p : Value (List T) Nat Nat (List T)) :
    (vars ++ [p]).flatMap Value.listed = vars.flatMap Value.listed ++ p.listed := by
  simp

theorem set_conserves {i : Nat} {old : T} (hi : l[i]? = some old) (item : T) :
    (l : Multiset T) + {item} = 0 + l.set i item + [old] := by
  obtain ⟨pre, post, rfl, rfl⟩ := split_at hi
  rw [List.set_append_right _ _ (Nat.le_refl _), Nat.sub_self, List.set_cons_zero]
  simp only [← Multiset.coe_add, ← Multiset.cons_coe, ← Multiset.singleton_add, Multiset.coe_nil]
  abel

/-- A call moves in what it is given, and out what it gives or drops. -/
theorem Op.conserves {op : Op T} {r : Ret T} (h : op.onList l = some (l', r)) :
    (l : Multiset T) + op.given (.ok r) = op.taken (.ok r) + l' + op.overwrites l := by
  cases op with
  | insert i item =>
      have hi : i ≤ l.length := by
        by_contra hn
        rw [onList, if_neg hn] at h
        cases h
      rw [onList, if_pos hi] at h
      cases h
      have hl : (l : Multiset T) = l.take i + l.drop i := by
        rw [Multiset.coe_add, List.take_append_drop]
      rw [hl]
      simp only [given, taken, overwrites, ← Multiset.coe_add, ← Multiset.cons_coe,
        ← Multiset.singleton_add, Multiset.coe_nil]
      abel
  | push item =>
      cases h
      simp only [given, taken, overwrites, ← Multiset.coe_add, ← Multiset.cons_coe,
        ← Multiset.singleton_add, Multiset.coe_nil]
      abel
  | remove i =>
      obtain ⟨item, hitem, he⟩ := Option.map_eq_some_iff.mp (show l[i]?.map _ = some _ from h)
      cases he
      obtain ⟨pre, post, rfl, rfl⟩ := split_at hitem
      rw [List.eraseIdx_append_of_length_le (Nat.le_refl _), Nat.sub_self, List.eraseIdx_cons_zero]
      simp only [given, taken, overwrites, ← Multiset.coe_add, ← Multiset.cons_coe,
        ← Multiset.singleton_add, Multiset.coe_nil]
      abel
  | pop =>
      cases h
      rcases List.eq_nil_or_concat l with rfl | ⟨pre, item, rfl⟩
      · rfl
      · rw [List.concat_eq_append, List.dropLast_concat, List.getLast?_concat]
        simp only [given, taken, overwrites, ← Multiset.coe_add, ← Multiset.cons_coe,
          ← Multiset.singleton_add, Multiset.coe_nil, Option.toList_some]
        abel
  | getMut i item =>
      cases h
      cases hi : l[i]? with
      | none =>
          rw [List.set_eq_of_length_le (List.getElem?_eq_none_iff.mp hi), overwrites, hi]
          simp only [given, taken, Multiset.coe_nil, Option.toList_none, zero_add]
      | some old =>
          rw [overwrites, hi]
          exact set_conserves hi item
  | get | first | last | len =>
      cases h
      simp only [given, taken, overwrites, Multiset.coe_nil, add_zero, zero_add]

/-- A call that panics drops what it was given. -/
theorem Op.given_none {op : Op T} {e : Fault} (h : op.onList l = none) (x : Nat) :
    op.given (.error e) = (Action.call x op).argument ∧ op.taken (.error e) = 0 := by
  cases op with
  | insert | remove => exact ⟨rfl, rfl⟩
  | push | pop | get | getMut | first | last | len => cases h

/-- The items of the values, and those that were dropped. -/
def Lists.items (w : Lists T) : Multiset T := (w.vars.flatMap Value.listed : List T) + w.dropped

namespace Lists

variable {d xs : List T} {p q : Value (List T) Nat Nat (List T)}

theorem items_after (access : Access) (x : Nat) :
    items ⟨vars.after access x, d⟩ = items ⟨vars, d⟩ := by
  rw [items, items, listed_after]

theorem items_push (hq : q.listed = []) : items ⟨vars ++ [q], d⟩ = items ⟨vars, d⟩ := by
  rw [items, items, listed_push, hq, List.append_nil]

/-- A clone is made. -/
theorem items_clone :
    items ⟨vars, d⟩ + xs = 0 + items ⟨vars.after .shared x ++ [.copy xs], d⟩ := by
  rw [items, items, listed_push, listed_after, ← Multiset.coe_add]
  show _ = 0 + (_ + (xs : Multiset T) + _)
  abel

theorem items_dropped : items ⟨vars, d ++ xs⟩ = items ⟨vars, d⟩ + xs := by
  rw [items, items, ← Multiset.coe_add, add_assoc]

theorem items_set {g m : Multiset T} (hx : vars[x]? = some p)
    (hp : (p.listed : Multiset T) + g = m + q.listed + xs) :
    items ⟨vars, d⟩ + g = m + items ⟨vars.set x q, d ++ xs⟩ := by
  obtain ⟨L, R, rfl, rfl⟩ := split_at hx
  rw [List.set_append_right _ _ (Nat.le_refl _), Nat.sub_self, List.set_cons_zero]
  simp only [items, List.flatMap_append, List.flatMap_cons, ← Multiset.coe_add]
  calc ↑(L.flatMap Value.listed) + (↑p.listed + ↑(R.flatMap Value.listed)) + ↑d + g
      = ↑(L.flatMap Value.listed) + ↑(R.flatMap Value.listed) + ↑d + (↑p.listed + g) := by abel
    _ = ↑(L.flatMap Value.listed) + ↑(R.flatMap Value.listed) + ↑d + (m + ↑q.listed + ↑xs) := by
        rw [hp]
    _ = _ := by abel

/-- A value gives way to one with the same items. -/
theorem items_same (hx : vars[x]? = some p) (hp : p.listed = q.listed) :
    items ⟨vars.set x q, d⟩ = items ⟨vars, d⟩ := by
  have hp : (p.listed : Multiset T) + 0 = 0 + q.listed + ([] : List T) := by
    rw [hp, add_zero, zero_add, Multiset.coe_nil, add_zero]
  have hset := items_set (d := d) hx hp
  rw [add_zero, zero_add, List.append_nil] at hset
  exact hset.symm

end Lists

namespace Action

theorem bindPosition_items (w : Lists T) (o : Nat) (l : List T) (pos : Nat) :
    (bindPosition w o l pos).2.items = w.items := by
  unfold bindPosition
  split
  · rfl
  · exact Lists.items_push rfl

/-- A statement moves in what it is given, and out what it gives. -/
theorem conserves (a : Action T) (w : Lists T) :
    w.items + a.given w.held (a.onLists w).1
      = a.taken w.vars (a.onLists w).1 + (a.onLists w).2.items := by
  -- where nothing is moved in or out, only the items count
  have hsame : ∀ {w' : Lists T}, w'.items = w.items → w.items + 0 = 0 + w'.items := by
    intro w' h
    rw [h, add_zero, zero_add]
  cases a with
  | create => exact hsame (Lists.items_push rfl)
  | clone x f panic =>
      simp only [onLists]
      cases hx : w.vars[x]? with
      | none => exact hsame rfl
      | some p =>
          cases p with
          | vec l | copy l =>
              have hheld : w.held x = l := by rw [Lists.held, hx]; rfl
              cases hl : l.mapM f with
              | none =>
                  simp only [hl]
                  exact hsame (Lists.items_after _ _)
              | some l' =>
                  simp only [hl]
                  show _ + (((w.held x).mapM f).getD [] : Multiset T) = _
                  rw [hheld, hl]
                  exact Lists.items_clone
          | iter | iterMut | itemMut | intoIter | moved => exact hsame rfl
  | call x op =>
      simp only [onLists]
      split
      · rename_i l hx
        rw [← Lists.items_after op.access x]
        split
        · rename_i l' r ho
          have hafter := after_plain rfl hx op.access x
          exact Lists.items_set (p := .vec l) (q := .vec l') hafter (op.conserves ho)
        · -- the item that was passed by value is dropped
          rename_i ho
          obtain ⟨hgiven, htaken⟩ := Op.given_none (e := .assertion) ho x
          show _ + op.given (.error .assertion) = op.taken (.error .assertion) + _
          rw [hgiven, htaken, zero_add, Lists.items_dropped]
      · rename_i l hx
        split
        · rename_i l' r hop ho
          rw [← Lists.items_after op.access x]
          have hafter := after_plain rfl hx op.access x
          exact Lists.items_set (p := .copy l) (q := .copy l') hafter (op.conserves ho)
        · exact hsame rfl
      · exact hsame rfl
  | index x i =>
      simp only [onLists]
      split
      · split <;> exact hsame (Lists.items_after _ _)
      · split <;> exact hsame (Lists.items_after _ _)
      · exact hsame rfl
  | lend x how =>
      simp only [onLists]
      split
      · split
        · exact hsame ((bindPosition_items _ _ _ _).trans (Lists.items_after _ _))
        · exact hsame (Lists.items_after _ _)
      · exact hsame rfl
  | iter x =>
      simp only [onLists]
      split
      · exact hsame ((Lists.items_push rfl).trans (Lists.items_after _ _))
      · exact hsame rfl
  | iterMut x =>
      simp only [onLists]
      split
      · exact hsame ((Lists.items_push rfl).trans (Lists.items_after _ _))
      · exact hsame rfl
  | intoIter x =>
      simp only [onLists]
      split
      · rename_i l hx
        have hafter := after_plain rfl hx .exclusive x
        have hitems := Lists.items_same (d := w.dropped) (q := .intoIter l) hafter rfl
        exact hsame (hitems.trans (Lists.items_after _ _))
      · exact hsame rfl
  | step x c =>
      simp only [onLists, taken]
      cases hx : w.vars[x]? with
      | none => exact hsame rfl
      | some p =>
          cases p with
          | iter owner pos =>
              dsimp only
              split
              · exact hsame (Lists.items_same hx rfl)
              · exact hsame rfl
          | iterMut owner pos =>
              dsimp only
              split
              · exact hsame ((bindPosition_items _ _ _ _).trans (Lists.items_same hx rfl))
              · exact hsame rfl
          | intoIter l =>
              refine Lists.items_set (q := .intoIter (l.drop (c.skips + 1))) hx ?_
              show (l : Multiset T) + 0 = l[c.skips]?.toList + l.drop (c.skips + 1) + l.take c.skips
              rw [Multiset.coe_add, ← List.drop_eq_getElem?_toList_append, add_zero, add_comm,
                Multiset.coe_add, List.take_append_drop]
          | vec | copy | itemMut | moved => exact hsame rfl
  | exactLen x =>
      simp only [onLists]
      split
      · split <;> exact hsame rfl
      · split <;> exact hsame rfl
      · exact hsame rfl
      · exact hsame rfl
  | cloneIter x =>
      simp only [onLists]
      split
      · exact hsame (Lists.items_push rfl)
      · exact hsame rfl
  | read x =>
      simp only [onLists]
      split
      · split <;> exact hsame rfl
      · exact hsame rfl
  | write x item =>
      simp only [onLists]
      split
      · split
        · rename_i owner pos _ _ l ho
          split
          · rename_i old hl
            exact Lists.items_set (p := .vec l) (q := .vec (l.set pos item)) ho
              (set_conserves hl item)
          · exact hsame rfl
        · exact hsame rfl
      · exact hsame rfl
  | drop x =>
      simp only [onLists]
      cases hx : w.vars[x]? with
      | none => exact hsame rfl
      | some p =>
          cases p with
          | vec l | copy l =>
              rw [← Lists.items_after .exclusive x]
              have hafter := after_plain rfl hx .exclusive x
              refine Lists.items_set (q := .moved) hafter ?_
              show (l : Multiset T) + 0 = 0 + 0 + l
              rw [add_zero, zero_add, zero_add]
          | intoIter l =>
              refine Lists.items_set (q := .moved) hx ?_
              show (l : Multiset T) + 0 = 0 + 0 + l
              rw [add_zero, zero_add, zero_add]
          | moved => exact hsame rfl
          | iter | iterMut | itemMut => exact hsame (Lists.items_same hx rfl)

end Action

/-! ## On vectors -/

theorem Matches.items {p : Value BTreeVec Cursor Slot IntoIter}
    {q : Value (List T) Nat Nat (List T)} (h : Matches s env vars F (some p) (some q)) :
    p.items s = q.listed := by
  cases h with
  | vec hv => exact hv.itemsOf
  | copy hv => exact hv.itemsOf
  | intoIter hc => exact hc.items
  | moved | iter | iterMut | itemMut => rfl

theorem Agree.items (h : Agree R lost env s vars) :
    env.flatMap (Value.items s) = vars.flatMap Value.listed := by
  rw [List.flatMap_def, List.flatMap_def]
  refine congrArg List.flatten (List.ext_getElem? fun x => ?_)
  have hx := h.each x
  rw [List.getElem?_map, List.getElem?_map]
  generalize R x = F, env[x]? = p, vars[x]? = q at hx
  cases p with
  | none =>
      cases hx
      rfl
  | some p =>
      cases q with
      | none => cases hx
      | some q => rw [Option.map_some, Option.map_some, hx.items]

theorem Agree.held (h : Agree R lost env s w.vars) : s.held env = w.held := by
  funext x
  have hx := h.each x
  rw [Store.held, Lists.held]
  generalize R x = F, env[x]? = p, w.vars[x]? = q at hx
  cases p with
  | none =>
      cases hx
      rfl
  | some p =>
      cases q with
      | none => cases hx
      | some q => rw [Option.map_some, Option.map_some, hx.items]

/-- What a statement moves out is the same in both programs. -/
theorem Agree.taken (h : Agree R lost env s vars) (a : Action T)
    (r : Option (Except Fault (Ret T))) : a.taken env r = a.taken vars r := by
  cases a with
  | step x c =>
      have hx := h.each x
      simp only [Action.taken]
      generalize R x = F, env[x]? = p, vars[x]? = q at hx
      cases hx with
      | intoIter =>
          rcases r with _ | e | o
          · rfl
          · rfl
          · cases o <;> rfl
      | _ => rfl
  | call x op => cases r <;> rfl
  | _ => rfl

/-- The items of all values, and those that were dropped. -/
def Store.allItems (p : Env × Store T P B) : Multiset T :=
  (p.1.flatMap (Value.items p.2) : List T) + p.2.dropped

/-- The items that the statements move into vectors, from `p` on. -/
def itemsGiven (acts : List (Action T)) (p : Env × Store T P B) : Multiset T :=
  Machine.tally Action.run (fun a p => a.given (p.2.held p.1) (a.run p).1) acts p

/-- The items that the statements move out of vectors and owning iterators, from `p` on. -/
def itemsTaken (acts : List (Action T)) (p : Env × Store T P B) : Multiset T :=
  Machine.tally Action.run (fun a p => a.taken p.1 (a.run p).1) acts p

theorem Simulates.items {p : Env × Store T P B} (h : Simulates lost p w) :
    Store.allItems p = w.items := by
  obtain ⟨⟨R, hagree⟩, hd⟩ := h
  rw [Store.allItems, Lists.items, hagree.items, hd]

/--
**No item is lost, and none is there twice.** In every program, the items that were moved
into vectors are those that were moved out again, that were dropped, and that the vectors
and owning iterators still have.
-/
theorem items_conserved (hB : 3 ≤ B) (hiter : ∀ a ∈ acts, a.Iterates → 4 ≤ B) :
    itemsGiven acts (([], Store.empty) : Env × Store T P B)
      = itemsTaken acts (([], Store.empty) : Env × Store T P B)
        + Store.allItems (runProgram acts : _ × Env × Store T P B).2 := by
  have hempty : Simulates ∅ (([], Store.empty) : Env × Store T P B) ⟨[], []⟩ := ⟨⟨_, .empty⟩, rfl⟩
  have hstep : ∀ a ∈ acts, ∀ p : Env × Store T P B, (∃ lost w, Simulates lost p w) →
      (∃ lost w, Simulates lost (a.run p).2 w)
        ∧ Store.allItems p + a.given (p.2.held p.1) (a.run p).1
          = a.taken p.1 (a.run p).1 + Store.allItems (a.run p).2 := by
    intro a ha r h
    obtain ⟨env, s⟩ := r
    obtain ⟨lost, w, hsim⟩ := h
    obtain ⟨hout, hsim'⟩ := Action.refines hB (hiter a ha) hsim
    refine ⟨⟨_, _, hsim'⟩, ?_⟩
    obtain ⟨R, hagree⟩ := hsim.agree
    rw [hsim.items, hsim'.items, hout, hagree.taken, hagree.held]
    exact a.conserves w
  exact (zero_add _).symm.trans (Machine.run_conserves hstep ⟨_, _, hempty⟩)

theorem items_conserved_severalOwners :
    itemsGiven severalOwners (([], Store.empty) : Env × Store Nat PairPtr 4)
      = itemsTaken severalOwners (([], Store.empty) : Env × Store Nat PairPtr 4)
        + Store.allItems (runProgram severalOwners : _ × Env × Store Nat PairPtr 4).2 :=
  items_conserved (by decide) fun _ _ _ => Nat.le_refl 4

end BTreeVec
