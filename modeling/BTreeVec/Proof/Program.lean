import BTreeVec.Proof.Borrow
import BTreeVec.Proof.Unwind

/-!
# Programs on vectors

A program on vectors does what it does on lists. The vectors and owning iterators it has
are in regions of the store of their own; a borrow has no region, and is about the region
of its owner, which no statement changes while the borrow lasts, except through references.
The nodes that a clone had made when an item panicked are in no region, and stay as they are.
-/

set_option linter.dupNamespace false

namespace BTreeVec

open Prog

variable {T P : Type} {B : Nat} [TaggedPtr P] {s t : Store T P B} {v : BTreeVec} {l l' : List T}
  {F F' : Set Addr} {x y o pos : Nat} {env env' : Env} {vars vars' : Vars (List T) Nat Nat (List T)}
  {R : Nat → Set Addr} {lost : Set Addr} {a : Action T} {w : Lists T}

/-! ## One value and what it stands for -/

/-- The variable `x` has a vector, which stands for the list `l`. -/
structure Owner (env : Env) (vars : Vars (List T) Nat Nat (List T)) (x : Nat) (v : BTreeVec)
    (l : List T) : Prop where
  env : env[x]? = some (.vec v)
  vars : vars[x]? = some (.vec l)

/-- The variable that the value borrows from. -/
def Value.owner {ν γ ρ ω : Type} : Value ν γ ρ ω → Option Nat
  | .iter owner _ | .iterMut owner _ | .itemMut owner _ => some owner
  | _ => none

/-- What is in a variable of the one program and of the other, with the nodes that it has. -/
inductive Matches (s : Store T P B) (env : Env) (vars : Vars (List T) Nat Nat (List T)) :
    Set Addr → Option (Value BTreeVec Cursor Slot IntoIter) →
      Option (Value (List T) Nat Nat (List T)) → Prop where
  | none : Matches s env vars ∅ none none
  | moved : Matches s env vars ∅ (some .moved) (some .moved)
  | vec {v : BTreeVec} {l : List T} {F : Set Addr} (h : VecAt s v l F) :
      Matches s env vars F (some (.vec v)) (some (.vec l))
  | copy {v : BTreeVec} {l : List T} {F : Set Addr} (h : CopyAt s v l F) :
      Matches s env vars F (some (.copy v)) (some (.copy l))
  | intoIter {c : IntoIter} {l : List T} {F : Set Addr} (h : Holding s c l F) :
      Matches s env vars F (some (.intoIter c)) (some (.intoIter l))
  | iter {o pos : Nat} {v : BTreeVec} {l : List T} {c : Cursor} (ho : Owner env vars o v l)
      (hc : StandsAt v s l.length c pos) (hB : 4 ≤ B) :
      Matches s env vars ∅ (some (.iter o c)) (some (.iter o pos))
  | iterMut {o pos : Nat} {v : BTreeVec} {l : List T} {c : Cursor} (ho : Owner env vars o v l)
      (hc : StandsAt v s l.length c pos) (hB : 4 ≤ B) :
      Matches s env vars ∅ (some (.iterMut o c)) (some (.iterMut o pos))
  | itemMut {o pos : Nat} {v : BTreeVec} {l : List T} {slot : Slot} (ho : Owner env vars o v l)
      (hs : SlotAt s (s.leavesOf v) slot pos) :
      Matches s env vars ∅ (some (.itemMut o slot)) (some (.itemMut o pos))

/-- The owner of a borrow is where it was, and the borrow is about the same place in it. -/
def Keeps (s t : Store T P B) (env env' : Env) (vars vars' : Vars (List T) Nat Nat (List T))
    (o : Nat) : Prop :=
  ∀ v l, Owner env vars o v l → ∃ l', Owner env' vars' o v l' ∧ l'.length = l.length ∧ Steady v s t

theorem Matches.mono {p : Option (Value BTreeVec Cursor Slot IntoIter)}
    {q : Option (Value (List T) Nat Nat (List T))} (h : Matches s env vars F p q)
    (hF : ∀ a ∈ F, t.heap.read a = s.heap.read a)
    (ho : ∀ o, p.bind Value.owner = some o → Keeps s t env env' vars vars' o) :
    Matches t env' vars' F p q := by
  cases h with
  | none => exact .none
  | moved => exact .moved
  | vec h => exact .vec (h.congr hF)
  | copy h => exact .copy (h.congr hF)
  | intoIter h => exact .intoIter (h.congr hF)
  | iter hown hc hB =>
      obtain ⟨l', hown', hlen, hst⟩ := ho _ rfl _ _ hown
      exact .iter hown' (hlen ▸ hst.standsAt hc) hB
  | iterMut hown hc hB =>
      obtain ⟨l', hown', hlen, hst⟩ := ho _ rfl _ _ hown
      exact .iterMut hown' (hlen ▸ hst.standsAt hc) hB
  | itemMut hown hs =>
      obtain ⟨l', hown', _, hst⟩ := ho _ rfl _ _ hown
      exact .itemMut hown' (hst.slotAt hs)

/-! ## All variables -/

/-- The variables of the two programs match, and have all nodes but the `lost` ones. -/
structure Agree (R : Nat → Set Addr) (lost : Set Addr) (env : Env) (s : Store T P B)
    (vars : Vars (List T) Nat Nat (List T)) : Prop where
  regions : Heap.Regions s.heap R lost
  each : ∀ x, Matches s env vars (R x) env[x]? vars[x]?

/-- No variable borrows from `x`. -/
def Unborrowed (env : Env) (x : Nat) : Prop :=
  ∀ y : Nat, env[y]?.bind Value.owner ≠ some x

namespace Agree

theorem empty : Agree (fun _ => ∅) ∅ [] (Store.empty : Store T P B) [] :=
  ⟨.empty, fun _ => .none⟩

theorem isSome_iff (h : Agree R lost env s vars) (x : Nat) : env[x]?.isSome = vars[x]?.isSome := by
  have hx := h.each x
  generalize R x = F, env[x]? = p, vars[x]? = q at hx ⊢
  cases hx <;> rfl

theorem length_eq (h : Agree R lost env s vars) : env.length = vars.length := by
  have h₁ := h.isSome_iff env.length
  have h₂ := h.isSome_iff vars.length
  simp at h₁ h₂
  omega

theorem owner_vec (h : Agree R lost env s vars) (ho : Owner env vars o v l) :
    VecAt s v l (R o) := by
  have hx := h.each o
  rw [ho.env, ho.vars] at hx
  generalize R o = F at hx ⊢
  cases hx with
  | vec h => exact h

theorem vecAt (h : Agree R lost env s vars) (hx : env[x]? = some (.vec v)) :
    ∃ l, VecAt s v l (R x) := by
  have hm := h.each x
  rw [hx] at hm
  generalize R x = F, vars[x]? = q at hm ⊢
  cases hm with
  | vec hv => exact ⟨_, hv⟩

/-- What can be said of a vector and of a clone alike. -/
theorem copyAt (h : Agree R lost env s vars)
    (hx : env[x]? = some (.vec v) ∨ env[x]? = some (.copy v)) : ∃ l, CopyAt s v l (R x) := by
  rcases hx with hx | hx
  · obtain ⟨l, hv⟩ := h.vecAt hx
    exact ⟨l, hv.copyAt⟩
  · have hm := h.each x
    rw [hx] at hm
    generalize R x = F, vars[x]? = q at hm ⊢
    cases hm with
    | copy hv => exact ⟨_, hv⟩

/-- A borrow has an owner. -/
theorem owner_of_borrow (h : Agree R lost env s vars) (hy : env[y]?.bind Value.owner = some o) :
    ∃ v l, Owner env vars o v l := by
  have hx := h.each y
  generalize R y = F, env[y]? = p, vars[y]? = q at hx hy
  cases hx with
  | none => cases hy
  | moved => cases hy
  | vec h => cases hy
  | copy h => cases hy
  | intoIter h => cases hy
  | iter ho hc hB => cases hy; exact ⟨_, _, ho⟩
  | iterMut ho hc hB => cases hy; exact ⟨_, _, ho⟩
  | itemMut ho hs => cases hy; exact ⟨_, _, ho⟩

/-- Nothing but a vector is borrowed from. -/
theorem unborrowed (h : Agree R lost env s vars) (hx : ∀ v, env[x]? ≠ some (.vec v)) :
    Unborrowed env x := by
  intro y hy
  obtain ⟨v, l, ho⟩ := h.owner_of_borrow hy
  exact hx v ho.env

end Agree

/-! ## What a statement does to the variables -/

theorem getElem?_after {ν γ ρ ω : Type} (vars : Vars ν γ ρ ω) (access : Access) (x y : Nat) :
    (vars.after access x)[y]? = vars[y]?.map (Value.after access x) := List.getElem?_map

/-- A value that borrows from nothing stays. -/
theorem after_plain {ν γ ρ ω : Type} {vars : Vars ν γ ρ ω} {p : Value ν γ ρ ω} {y : Nat}
    (hp : p.owner = none) (hy : vars[y]? = some p) (access : Access) (x : Nat) :
    (vars.after access x)[y]? = some p := by
  rw [getElem?_after, hy]
  cases p with
  | vec | copy | intoIter | moved => rfl
  | iter | iterMut | itemMut => cases hp

namespace Owner

theorem ne (ho : Owner env vars o v l) (hx : ∀ v, env[x]? ≠ some (.vec v)) : o ≠ x :=
  fun he => hx v (he ▸ ho.env)

theorem after (ho : Owner env vars o v l) (access : Access) (x : Nat) :
    Owner (env.after access x) (vars.after access x) o v l where
  env := after_plain rfl ho.env access x
  vars := after_plain rfl ho.vars access x

theorem set (ho : Owner env vars o v l) (hne : o ≠ x) (p : Value BTreeVec Cursor Slot IntoIter)
    (q : Value (List T) Nat Nat (List T)) : Owner (env.set x p) (vars.set x q) o v l where
  env := by rw [List.getElem?_set_ne hne.symm]; exact ho.env
  vars := by rw [List.getElem?_set_ne hne.symm]; exact ho.vars

theorem push (ho : Owner env vars o v l) (p : Value BTreeVec Cursor Slot IntoIter)
    (q : Value (List T) Nat Nat (List T)) : Owner (env ++ [p]) (vars ++ [q]) o v l where
  env := by rw [List.getElem?_append_left (List.getElem?_eq_some_iff.mp ho.env).1]; exact ho.env
  vars := by rw [List.getElem?_append_left (List.getElem?_eq_some_iff.mp ho.vars).1]; exact ho.vars

end Owner

theorem Value.owner_after {ν γ ρ ω : Type} (p : Value ν γ ρ ω) (x : Nat) :
    (p.after .exclusive x).owner ≠ some x := by
  cases p with
  | iter o c => by_cases ho : o = x <;> simp [after, owner, ho]
  | iterMut o c => by_cases ho : o = x <;> simp [after, owner, ho]
  | itemMut o r => by_cases ho : o = x <;> simp [after, owner, ho]
  | vec | copy | intoIter | moved => simp [after, owner]

/-- Nothing borrows from a vector that was just used by `&mut self`. -/
theorem unborrowed_after (env : Env) (x : Nat) : Unborrowed (env.after .exclusive x) x := by
  intro y hy
  rw [getElem?_after, Option.bind_eq_some_iff] at hy
  obtain ⟨_, hp, ho⟩ := hy
  obtain ⟨p, _, rfl⟩ := Option.map_eq_some_iff.mp hp
  exact p.owner_after x ho

namespace Agree

/-- Borrows in the way of a use of `x` end, and nothing else happens. -/
theorem after (h : Agree R lost env s vars) (access : Access) (x : Nat) :
    Agree R lost (env.after access x) s (vars.after access x) := by
  refine ⟨h.regions, fun y => ?_⟩
  have hy := h.each y
  rw [getElem?_after, getElem?_after]
  generalize R y = F, env[y]? = p, vars[y]? = q at hy ⊢
  cases hy with
  | none => exact .none
  | moved => exact .moved
  | vec h => exact .vec h
  | copy h => exact .copy h
  | intoIter h => exact .intoIter h
  | iter ho hc hB =>
      simp only [Option.map_some, Value.after]
      split
      · exact .moved
      · exact .iter (ho.after access x) hc hB
  | iterMut ho hc hB =>
      simp only [Option.map_some, Value.after]
      split
      · exact .moved
      · exact .iterMut (ho.after access x) hc hB
  | itemMut ho hs =>
      simp only [Option.map_some, Value.after]
      split
      · exact .moved
      · exact .itemMut (ho.after access x) hs

/-- The owner of a borrow is not touched by what happens in another region. -/
theorem keeps (h : Agree R lost env s vars) (hw : Heap.Within s.heap t.heap (R x) F') (hne : o ≠ x)
    (p : Value BTreeVec Cursor Slot IntoIter) (q : Value (List T) Nat Nat (List T)) :
    Keeps s t env (env.set x p) vars (vars.set x q) o := fun _ l hown =>
  ⟨l, hown.set hne p q, rfl, .of_read (h.owner_vec hown) (h.regions.untouched hw hne)⟩

/-- The value of `x`, from which nothing borrows, is replaced, and its nodes may change. -/
theorem set {p : Value BTreeVec Cursor Slot IntoIter} {q : Value (List T) Nat Nat (List T)}
    (h : Agree R lost env s vars) (hx : env[x]? ≠ none) (hfree : Unborrowed env x)
    (hw : Heap.Within s.heap t.heap (R x) F')
    (hnew : Matches t (env.set x p) (vars.set x q) F' (some p) (some q)) :
    Agree (Function.update R x F') lost (env.set x p) t (vars.set x q) := by
  refine ⟨h.regions.step hw, fun y => ?_⟩
  have hlt : x < env.length := by
    by_contra hn
    exact hx (List.getElem?_eq_none (Nat.le_of_not_lt hn))
  by_cases hy : y = x
  · subst hy
    rw [Function.update_self, List.getElem?_set_self hlt,
      List.getElem?_set_self (h.length_eq ▸ hlt)]
    exact hnew
  · rw [Function.update_of_ne hy, List.getElem?_set_ne (Ne.symm hy),
      List.getElem?_set_ne (Ne.symm hy)]
    refine (h.each y).mono (h.regions.untouched hw hy) fun o ho => h.keeps hw (fun he => ?_) p q
    exact hfree y (he ▸ ho)

/-- The vector of `x` is used by `&mut self` or `self`, and what is there afterwards owns itself. -/
theorem replace {p : Value BTreeVec Cursor Slot IntoIter} {q : Value (List T) Nat Nat (List T)}
    (h : Agree R lost env s vars) (ho : Owner env vars x v l)
    (hw : Heap.Within s.heap t.heap (R x) F')
    (hnew : ∀ env vars, Matches t env vars F' (some p) (some q)) :
    Agree (Function.update R x F') lost ((env.after .exclusive x).set x p) t
      ((vars.after .exclusive x).set x q) := by
  refine (h.after .exclusive x).set ?_ (unborrowed_after env x) hw (hnew _ _)
  rw [(ho.after .exclusive x).env]
  exact Option.some_ne_none _

/-- A borrow is replaced, and no node changes. -/
theorem setBorrow {p : Value BTreeVec Cursor Slot IntoIter} {q : Value (List T) Nat Nat (List T)}
    (h : Agree R lost env s vars) (hx : env[x]? ≠ none) (hv : ∀ v, env[x]? ≠ some (.vec v))
    (hR : R x = ∅) (hnew : Matches s (env.set x p) (vars.set x q) ∅ (some p) (some q)) :
    Agree R lost (env.set x p) s (vars.set x q) := by
  have hw : Heap.Within s.heap s.heap (R x) ∅ := by
    rw [hR]
    exact .refl fun a ha => absurd ha (Set.notMem_empty a)
  have hset := h.set hx (h.unborrowed hv) hw hnew
  rwa [← hR, Function.update_eq_self] at hset

/-- A new variable. -/
theorem push {p : Value BTreeVec Cursor Slot IntoIter} {q : Value (List T) Nat Nat (List T)}
    (h : Agree R lost env s vars) (hnew : Matches s env vars ∅ (some p) (some q)) :
    Agree R lost (env ++ [p]) s (vars ++ [q]) := by
  have hkeeps : ∀ o, Keeps s s env (env ++ [p]) vars (vars ++ [q]) o := fun o v l hown =>
    ⟨l, hown.push p q, rfl, .refl v s⟩
  refine ⟨h.regions, fun y => ?_⟩
  have hy := h.each y
  by_cases hlt : y < env.length
  · rw [List.getElem?_append_left hlt, List.getElem?_append_left (h.length_eq ▸ hlt)]
    exact hy.mono (fun _ _ => rfl) fun o _ => hkeeps o
  · have hle := Nat.le_of_not_lt hlt
    rw [List.getElem?_eq_none hle, List.getElem?_eq_none (l := vars) (h.length_eq ▸ hle)] at hy
    have hR : R y = ∅ := by
      generalize R y = F at hy
      cases hy
      rfl
    rw [hR, List.getElem?_append_right hle, List.getElem?_append_right (h.length_eq ▸ hle),
      ← h.length_eq]
    cases y - env.length with
    | zero => exact hnew.mono (fun _ _ => rfl) fun o _ => hkeeps o
    | succ k => exact .none

/-- A new variable whose nodes were allocated just now. -/
theorem pushOwner {p : Value BTreeVec Cursor Slot IntoIter} {q : Value (List T) Nat Nat (List T)}
    (h : Agree R lost env s vars) (hw : Heap.Within s.heap t.heap ∅ F')
    (hnew : ∀ env vars, Matches t env vars F' (some p) (some q)) :
    ∃ R', Agree R' lost (env ++ [p]) t (vars ++ [q]) := by
  have hpush := h.push .moved
  have hlast : (env ++ [.moved])[env.length]? = some .moved := by simp
  have hR : R env.length = ∅ := by
    have hm := hpush.each env.length
    rw [hlast] at hm
    generalize R env.length = F, (vars ++ [.moved])[env.length]? = q at hm
    cases hm
    rfl
  have hset := hpush.set (x := env.length) (by simp) (hpush.unborrowed (by simp)) (hR ▸ hw)
    (hnew _ _)
  rw [List.set_append_right _ _ (Nat.le_refl _), Nat.sub_self, List.set_cons_zero, h.length_eq,
    List.set_append_right _ _ (Nat.le_refl _), Nat.sub_self, List.set_cons_zero] at hset
  exact ⟨_, hset⟩

/-- The record of dropped items says nothing about the nodes. -/
theorem noteDropped (h : Agree R lost env s vars) (xs : List T) :
    Agree R lost env { s with dropped := xs } vars :=
  ⟨h.regions, fun y => (h.each y).mono (fun _ _ => rfl) fun _ _ _ l ho =>
    ⟨l, ho, rfl, .of_read (h.owner_vec ho) fun _ _ => rfl⟩⟩

/-- Nobody gets the new nodes, and nothing else happened. -/
theorem lose (h : Agree R lost env s vars) (hg : Grown s t) :
    Agree R (lost ∪ {x | s.heap.read x = none ∧ t.heap.read x ≠ none}) env t vars := by
  have hread : ∀ x, s.heap.read x ≠ none → t.heap.read x = s.heap.read x := by
    intro x hx
    obtain ⟨c, hc⟩ := Option.ne_none_iff_exists'.mp hx
    exact hg.read x (Heap.lt_next_of_read hc)
  refine ⟨h.regions.lose hread, fun y => (h.each y).mono (fun x hx => ?_) fun o _ v l ho => ?_⟩
  · exact hread x (h.regions.held x hx)
  · exact ⟨l, ho, rfl, .of_read (h.owner_vec ho) fun x hx => hread x (h.regions.held x hx)⟩

/-- Items of the vector in `o` are overwritten, and its borrows go on. -/
theorem rewrite (h : Agree R lost env s vars) (ho : Owner env vars o v l) (hv : VecAt t v l' (R o))
    (hw : Heap.Within s.heap t.heap (R o) (R o)) (hst : Steady v s t)
    (hlen : l'.length = l.length) : Agree R lost env t (vars.set o (.vec l')) := by
  have hregions := h.regions.step hw
  rw [Function.update_eq_self] at hregions
  have hnew : (vars.set o (.vec l'))[o]? = some (.vec l') :=
    List.getElem?_set_self (List.getElem?_eq_some_iff.mp ho.vars).1
  refine ⟨hregions, fun y => ?_⟩
  by_cases hy : y = o
  · subst hy
    rw [ho.env, hnew]
    exact .vec hv
  · rw [List.getElem?_set_ne (Ne.symm hy)]
    refine (h.each y).mono (h.regions.untouched hw hy) fun o' _ v' l₁ hown => ?_
    by_cases ho' : o' = o
    · subst ho'
      obtain rfl : v' = v := by
        have := hown.env.symm.trans ho.env
        injection this with this
        injection this
      obtain rfl : l₁ = l := by
        have := hown.vars.symm.trans ho.vars
        injection this with this
        injection this
      exact ⟨l', ⟨ho.env, hnew⟩, hlen, hst⟩
    · refine ⟨l₁, ⟨hown.env, ?_⟩, rfl, .of_read (h.owner_vec hown) (h.regions.untouched hw ho')⟩
      rw [List.getElem?_set_ne (Ne.symm ho')]
      exact hown.vars

end Agree

/-! ## One statement -/

theorem set_self {α : Type} {xs : List α} {i : Nat} {a : α} (h : xs[i]? = some a) :
    xs.set i a = xs := by
  obtain ⟨hi, rfl⟩ := List.getElem?_eq_some_iff.mp h
  exact List.set_getElem_self hi

theorem BTreeVec.insert_dropped {pre post : List T} (h : VecAt s v (pre ++ post) F) (hB : 3 ≤ B)
    (x : T) : Returns (do return (← v.insert pre.length x, Ret.unit)) s
      (fun (_ : BTreeVec × Ret T) t => t.dropped = s.dropped) := by
  rw [returns_bind]
  refine (BTreeVec.insert_spec h hB x).mono ?_
  intro v' t hr
  obtain ⟨F', _, he⟩ := hr
  exact he.dropped

/-- A call drops the item that it overwrites, and no other. -/
theorem VecAt.exec_dropped (h : VecAt s v l F) (hB : 3 ≤ B) {op : Op T} {r : Ret T}
    (ho : op.onList l = some (l', r)) :
    Returns (op.exec v) s (fun _ t => t.dropped = s.dropped ++ op.overwrites l) := by
  have hnone : ∀ {m : Exec T P B (BTreeVec × Ret T)},
      Returns m s (fun _ t => t.dropped = s.dropped) →
      Returns m s (fun _ t => t.dropped = s.dropped ++ []) := fun hm =>
    hm.mono fun _ t ht => by rw [List.append_nil, ht]
  cases op with
  | insert i x =>
      have hi : i ≤ l.length := by
        by_contra hn
        rw [Op.onList, if_neg hn] at ho
        cases ho
      rw [← List.take_append_drop i l] at h
      have hins := BTreeVec.insert_dropped h hB x
      rw [List.length_take, Nat.min_eq_left hi] at hins
      exact hnone hins
  | push x =>
      have hsize := h.size
      rw [← List.append_nil l] at h
      have hins := BTreeVec.insert_dropped h hB x
      rw [← hsize] at hins
      exact hnone hins
  | remove i =>
      obtain ⟨x, hx, _⟩ := Option.map_eq_some_iff.mp (show l[i]?.map _ = some _ from ho)
      obtain ⟨pre, post, rfl, rfl⟩ := split_at hx
      refine hnone ?_
      rw [Op.exec, returns_bind]
      refine (BTreeVec.remove_spec h hB).mono ?_
      intro r t hrun
      obtain ⟨_, F', _, he⟩ := hrun
      exact he.dropped
  | pop =>
      have hsize := h.size
      refine hnone ?_
      unfold Op.exec BTreeVec.pop
      rcases List.eq_nil_or_concat l with rfl | ⟨pre, x, rfl⟩
      · rw [if_neg (by rw [hsize]; simp)]
        rfl
      · rw [List.concat_eq_append] at h hsize
        have hi : v.size - 1 = pre.length := by rw [hsize]; simp
        rw [if_pos (by rw [hsize]; simp), hi]
        simp only [returns_bind, returns_pure]
        refine (BTreeVec.remove_spec h hB).mono ?_
        intro r t hrun
        obtain ⟨_, F', _, he⟩ := hrun
        exact he.dropped
  | get | getMut | first | last | len =>
      exact (h.copyAt.exec rfl ho).mono fun _ t ht => ht.2.2.2

/--
The two programs have variables that match, and have dropped the same items. No variable of
the one has the `lost` nodes.
-/
structure Simulates (lost : Set Addr) (p : Env × Store T P B) (w : Lists T) : Prop where
  agree : ∃ R, Agree R lost p.1 p.2 w.vars
  dropped : p.2.dropped = w.dropped

namespace Action

/-- The nodes that the statement leaves to nobody: a clone made them, and then panicked. -/
def leaks (a : Action T) (p : Env × Store T P B) : Set Addr :=
  match a, (a.run p).1 with
  | clone _ _ _, some (.error _) =>
      {x | p.2.heap.read x = none ∧ (a.run p).2.2.heap.read x ≠ none}
  | _, _ => ∅

/-- The statement has the same outcome in both programs, and leaves them in states that match. -/
def Refines (a : Action T) (lost : Set Addr) (env : Env) (s : Store T P B) (w : Lists T) : Prop :=
  (a.run (env, s)).1 = (a.onLists w).1 ∧ Simulates lost (a.run (env, s)).2 (a.onLists w).2

section
variable {m : Exec T P B (Env × Ret T)} {r : Ret T} {u : Lists T} {e : Fault}

theorem refines_refused (he : (a.exec env : Option (Exec T P B (Env × Ret T))) = none)
    (hl : a.onLists w = (none, w)) (h : Simulates lost (env, s) w) : a.Refines lost env s w := by
  unfold Refines
  simp only [run, he, hl]
  exact ⟨trivial, h⟩

theorem refines_ok (he : a.exec env = some m) (hl : a.onLists w = (some (.ok r), u))
    (hm : Returns m s (fun e t => e.2 = r ∧ Simulates lost (e.1, t) u)) :
    a.Refines lost env s w := by
  obtain ⟨⟨env', r'⟩, t, hmt, rfl, h⟩ := returns_iff.mp hm
  have hr : a.run (env, s) = (some (.ok r'), env', t) := by
    simp only [run, he, hmt]
  unfold Refines
  rw [hr, hl]
  exact ⟨rfl, h⟩

/-- A panic leaves what was passed by value to be dropped. -/
theorem refines_panic (he : a.exec env = some m) (hl : a.onLists w = (some (.error e), u))
    (hm : m s = .error e t) (h : Agree R lost (a.unwind env) t u.vars)
    (hd : t.dropped ++ a.argument = u.dropped) : a.Refines lost env s w := by
  have hr : a.run (env, s)
      = (some (.error e), a.unwind env, { t with dropped := t.dropped ++ a.argument }) := by
    simp only [run, he, hm]
  unfold Refines
  rw [hr, hl]
  exact ⟨rfl, ⟨R, h.noteDropped _⟩, hd⟩

theorem Refines.leak (h : a.Refines lost env s w) (hl : a.leaks (env, s) = ∅) :
    a.Refines (lost ∪ a.leaks (env, s)) env s w := by
  rw [hl, Set.union_empty]
  exact h

theorem leaks_of_refused (hr : (a.run (env, s)).1 = none) : a.leaks (env, s) = ∅ := by
  unfold leaks
  cases a <;> simp [hr]

theorem leaks_of_ok (hr : (a.run (env, s)).1 = some (.ok r)) : a.leaks (env, s) = ∅ := by
  unfold leaks
  cases a <;> simp [hr]

theorem leaks_of_panic {x : Nat} {f : T → Option T} {panic : Fault}
    (he : (clone x f panic).exec env = some m) (hm : m s = .error e t) :
    (clone x f panic).leaks (env, s) = {b | s.heap.read b = none ∧ t.heap.read b ≠ none} := by
  simp only [leaks, run, he, hm]

end

section
variable (h : Agree R lost env s w.vars) (hd : s.dropped = w.dropped)
include h hd

theorem create_refines (hB : 3 ≤ B) : create.Refines lost env s w := by
  refine refines_ok rfl rfl ?_
  rw [returns_bind]
  refine (create_spec hB).mono ?_
  intro v t hr
  obtain ⟨rfl, hv⟩ := hr
  exact ⟨rfl, ⟨R, h.push (.vec hv)⟩, hd⟩

theorem call_refines (hB : 3 ≤ B) (x : Nat) (op : Op T) : (call x op).Refines lost env s w := by
  have hx := h.each x
  generalize hF : R x = F, hp : env[x]? = p, hq : w.vars[x]? = q at hx
  cases hx with
  | @vec v l F hv =>
      subst hF
      have hown : Owner env w.vars x v l := ⟨hp, hq⟩
      have hex := hv.exec hB op
      cases ho : op.onList l with
      | none =>
          -- the call panics, and the borrows that it ended stay ended
          rw [ho] at hex
          have hex : op.exec v s = .error .assertion s := hex
          refine refines_panic (R := R) (e := .assertion)
            (u := ⟨w.vars.after op.access x, w.dropped ++ (call x op).argument⟩)
            (by simp only [exec, hp]; rfl) (by simp only [onLists, hq, ho]) ?_
            (h.after op.access x) (by rw [hd])
          simp only [bind, EStateM.bind, hex]
      | some o =>
          obtain ⟨l', r⟩ := o
          rw [ho] at hex
          refine refines_ok (r := r) (u := ⟨(w.vars.after op.access x).set x (.vec l'),
            w.dropped ++ op.overwrites l⟩) (by simp only [exec, hp]; rfl)
            (by simp only [onLists, hq, ho]) ?_
          rw [returns_bind]
          cases hacc : op.access with
          | shared =>
              obtain ⟨rfl, hover⟩ := Op.onList_shared hacc ho
              refine (hv.copyAt.exec_shared hacc ho).mono ?_
              intro _ t hr
              obtain ⟨rfl, rfl⟩ := hr
              refine ⟨rfl, ⟨R, ?_⟩, ?_⟩
              · have hafter := hown.after .shared x
                dsimp only
                rw [set_self hafter.env, set_self hafter.vars]
                exact h.after .shared x
              · rw [hover, List.append_nil, hd]
          | exclusive =>
              refine (Returns.and hex (hv.exec_dropped hB ho)).mono ?_
              intro g t hr
              obtain ⟨v', r'⟩ := g
              obtain ⟨⟨rfl, F', hv', hloc⟩, hdt⟩ := hr
              refine ⟨rfl, ⟨_, h.replace hown (hloc.within hv'.live) fun _ _ => .vec hv'⟩, ?_⟩
              rw [hdt, hd]
  | @copy v l F hv =>
      subst hF
      cases hop : op.inPlace with
      | false =>
          exact refines_refused (by simp only [exec, hp, hop]; rfl)
            (by simp only [onLists, hq, hop]) ⟨⟨R, h⟩, hd⟩
      | true =>
          obtain ⟨l', r, ho⟩ := Op.onList_inPlace l hop
          have hafter := h.after op.access x
          refine refines_ok (r := r) (u := ⟨(w.vars.after op.access x).set x (.copy l'),
            w.dropped ++ op.overwrites l⟩) (by simp only [exec, hp, hop]; rfl)
            (by simp only [onLists, hq, hop, ho]) ?_
          rw [returns_bind]
          refine (hv.exec hop ho).mono ?_
          intro _ t hr
          obtain ⟨rfl, hv', hw, hdrop⟩ := hr
          refine ⟨rfl, ⟨_, hafter.set ?_ (hafter.unborrowed ?_) hw (.copy hv')⟩, by rw [hdrop, hd]⟩
          · rw [getElem?_after, hp]
            exact Option.some_ne_none _
          · rw [getElem?_after, hp]
            exact fun v hv => by cases hv
  | _ => exact refines_refused (by simp only [exec, hp]) (by simp only [onLists, hq]) ⟨⟨R, h⟩, hd⟩

omit h hd in
/-- A vector is cloned as a copy is. With an item that panics the new nodes are lost. -/
theorem clone_of {x : Nat} {f : T → Option T} {panic : Fault}
    (he : ((clone x f panic).exec env : Option (Exec T P B _))
      = some do return (env.after .shared x ++ [.copy (← v.tryClone f panic)], .unit))
    (hl : (clone x f panic).onLists w = match l.mapM f with
      | some l => (some (.ok .unit), { w with vars := w.vars.after .shared x ++ [.copy l] })
      | none => (some (.error panic), { w with vars := w.vars.after .shared x }))
    (h : Agree R lost env s w.vars) (hd : s.dropped = w.dropped) (hv : CopyAt s v l F) :
    (clone x f panic).Refines (lost ∪ (clone x f panic).leaks (env, s)) env s w := by
  have hafter := h.after .shared x
  cases hm : l.mapM f with
  | some l' =>
      rw [hm] at hl
      have hok : (clone x f panic).Refines lost env s w := by
        refine refines_ok he hl ?_
        rw [returns_bind]
        refine (hv.tryClone_ok panic hm).mono ?_
        intro v' t hr
        obtain ⟨F', hv', hw, hdrop⟩ := hr
        exact ⟨rfl, hafter.pushOwner hw fun _ _ => .copy hv', hdrop.trans hd⟩
      have hout : ((clone x f panic).run (env, s)).1 = some (.ok .unit) := by
        rw [hok.1, hl]
      exact hok.leak (leaks_of_ok hout)
  | none =>
      rw [hm] at hl
      obtain ⟨t, hrun, hg⟩ := hv.tryClone_panics panic hm
      have hrun : (do return (env.after .shared x ++ [.copy (← v.tryClone f panic)], Ret.unit) :
          Exec T P B (Env × Ret T)) s = .error panic t := by
        simp only [bind, EStateM.bind, hrun]
      rw [leaks_of_panic he hrun]
      refine refines_panic he hl hrun (hafter.lose hg) ?_
      rw [hg.dropped, hd]
      exact List.append_nil _

theorem clone_refines (x : Nat) (f : T → Option T) (panic : Fault) :
    (clone x f panic).Refines (lost ∪ (clone x f panic).leaks (env, s)) env s w := by
  have hx := h.each x
  generalize hF : R x = F, hp : env[x]? = p, hq : w.vars[x]? = q at hx
  cases hx with
  | @vec v l F hv =>
      exact clone_of (l := l) (by simp only [exec, hp])
        (by cases hm : l.mapM f <;> simp only [onLists, hq, hm]) h hd hv.copyAt
  | @copy v l F hv =>
      exact clone_of (l := l) (by simp only [exec, hp])
        (by cases hm : l.mapM f <;> simp only [onLists, hq, hm]) h hd hv
  | _ =>
      have href : (clone x f panic).Refines lost env s w :=
        refines_refused (by simp only [exec, hp]) (by simp only [onLists, hq]) ⟨⟨R, h⟩, hd⟩
      have hout : ((clone x f panic).run (env, s)).1 = none := by
        simp only [run, exec, hp]
      exact href.leak (leaks_of_refused hout)

omit h hd in
theorem index_of {x i : Nat} (he : ((index x i).exec env : Option (Exec T P B _))
      = some do return (env.after .shared x, .item (← v.index i)))
    (hl : (index x i).onLists w = (some (match l[i]? with
      | some item => .ok (.item item)
      | none => .error .unwrap), { w with vars := w.vars.after .shared x }))
    (h : Agree R lost env s w.vars) (hd : s.dropped = w.dropped) (hv : CopyAt s v l F) :
    (index x i).Refines lost env s w := by
  have hafter := h.after .shared x
  cases hi : l[i]? with
  | none =>
      rw [hi] at hl
      refine refines_panic (R := R) he hl ?_ hafter ((List.append_nil _).trans hd)
      simp only [bind, EStateM.bind, hv.index_panics hi]
  | some item =>
      rw [hi] at hl
      refine refines_ok he hl ?_
      rw [returns_bind]
      refine (hv.index_ok hi).mono ?_
      intro _ t hr
      obtain ⟨rfl, rfl⟩ := hr
      exact ⟨rfl, ⟨R, hafter⟩, hd⟩

theorem index_refines (x i : Nat) : (index x i).Refines lost env s w := by
  have hx := h.each x
  generalize hF : R x = F, hp : env[x]? = p, hq : w.vars[x]? = q at hx
  cases hx with
  | @vec v l F hv =>
      exact index_of (l := l) (by simp only [exec, hp])
        (by simp only [onLists, hq]; cases l[i]? <;> rfl) h hd hv.copyAt
  | @copy v l F hv =>
      exact index_of (l := l) (by simp only [exec, hp])
        (by simp only [onLists, hq]; cases l[i]? <;> rfl) h hd hv
  | _ => exact refines_refused (by simp only [exec, hp]) (by simp only [onLists, hq]) ⟨⟨R, h⟩, hd⟩

theorem iter_refines (hB : 4 ≤ B) (x : Nat) : (iter x).Refines lost env s w := by
  have hx := h.each x
  generalize hF : R x = F, hp : env[x]? = p, hq : w.vars[x]? = q at hx
  cases hx with
  | @vec v l F hv =>
      have hown : Owner env w.vars x v l := ⟨hp, hq⟩
      refine refines_ok (r := .unit) (u := { w with vars := w.vars.after .shared x ++ [.iter x 0] })
        (by simp only [exec, hp]; rfl) (by simp only [onLists, hq]) ?_
      rw [returns_bind]
      refine (Cursor.start_at hv).mono ?_
      intro c t hr
      obtain ⟨rfl, hc⟩ := hr
      exact ⟨rfl, ⟨R, (h.after .shared x).push (.iter (hown.after .shared x) hc hB)⟩, hd⟩
  | _ => exact refines_refused (by simp only [exec, hp]) (by simp only [onLists, hq]) ⟨⟨R, h⟩, hd⟩

theorem iterMut_refines (hB : 4 ≤ B) (x : Nat) : (iterMut x).Refines lost env s w := by
  have hx := h.each x
  generalize hF : R x = F, hp : env[x]? = p, hq : w.vars[x]? = q at hx
  cases hx with
  | @vec v l F hv =>
      have hown : Owner env w.vars x v l := ⟨hp, hq⟩
      refine refines_ok (r := .unit)
        (u := { w with vars := w.vars.after .exclusive x ++ [.iterMut x 0] })
        (by simp only [exec, hp]; rfl) (by simp only [onLists, hq]) ?_
      rw [returns_bind]
      refine (Cursor.start_at hv).mono ?_
      intro c t hr
      obtain ⟨rfl, hc⟩ := hr
      exact ⟨rfl, ⟨R, (h.after .exclusive x).push (.iterMut (hown.after .exclusive x) hc hB)⟩, hd⟩
  | _ => exact refines_refused (by simp only [exec, hp]) (by simp only [onLists, hq]) ⟨⟨R, h⟩, hd⟩

theorem intoIter_refines (hB : 4 ≤ B) (x : Nat) : (intoIter x).Refines lost env s w := by
  have hx := h.each x
  generalize hF : R x = F, hp : env[x]? = p, hq : w.vars[x]? = q at hx
  cases hx with
  | @vec v l F hv =>
      subst hF
      have hown : Owner env w.vars x v l := ⟨hp, hq⟩
      refine refines_ok (r := .unit)
        (u := { w with vars := (w.vars.after .exclusive x).set x (.intoIter l) })
        (by simp only [exec, hp]; rfl) (by simp only [onLists, hq]) ?_
      rw [returns_bind]
      refine (BTreeVec.intoIter_holding hv ((hv.leavesFilled hB).noGap hv)).mono ?_
      intro c t hr
      obtain ⟨rfl, hc⟩ := hr
      exact ⟨rfl, ⟨_, h.replace hown (.refl hv.live) fun _ _ => .intoIter hc⟩, hd⟩
  | _ => exact refines_refused (by simp only [exec, hp]) (by simp only [onLists, hq]) ⟨⟨R, h⟩, hd⟩

theorem drop_refines (x : Nat) : (drop x).Refines lost env s w := by
  have hx := h.each x
  generalize hF : R x = F, hp : env[x]? = p, hq : w.vars[x]? = q at hx
  cases hx with
  | @vec v l F hv =>
      subst hF
      have hown : Owner env w.vars x v l := ⟨hp, hq⟩
      refine refines_ok (r := .unit)
        (u := ⟨(w.vars.after .exclusive x).set x .moved, w.dropped ++ l⟩)
        (by simp only [exec, hp]; rfl) (by simp only [onLists, hq]) ?_
      rw [returns_bind]
      refine hv.drop_within.mono ?_
      intro _ t hr
      obtain ⟨hw, hdrop⟩ := hr
      exact ⟨rfl, ⟨_, h.replace hown hw fun _ _ => .moved⟩, by rw [hdrop, hd]⟩
  | @copy v l F hv =>
      subst hF
      have hafter := h.after .exclusive x
      refine refines_ok (r := .unit)
        (u := ⟨(w.vars.after .exclusive x).set x .moved, w.dropped ++ l⟩)
        (by simp only [exec, hp]; rfl) (by simp only [onLists, hq]) ?_
      rw [returns_bind]
      refine hv.drop_within.mono ?_
      intro _ t hr
      obtain ⟨hw, hdrop⟩ := hr
      refine ⟨rfl, ⟨_, hafter.set ?_ (unborrowed_after env x) hw .moved⟩, by rw [hdrop, hd]⟩
      rw [getElem?_after, hp]
      exact Option.some_ne_none _
  | @intoIter c l F hc =>
      subst hF
      have hfree := h.unborrowed (x := x) fun v hv => by rw [hp] at hv; cases hv
      refine refines_ok (r := .unit) (u := ⟨w.vars.set x .moved, w.dropped ++ l⟩)
        (by simp only [exec, hp]; rfl) (by simp only [onLists, hq]) ?_
      rw [returns_bind]
      refine (IntoIter.drop_holding hc).mono ?_
      intro _ t hr
      obtain ⟨hw, hdrop⟩ := hr
      refine ⟨rfl, ⟨_, h.set ?_ hfree hw .moved⟩, by rw [hdrop, hd]⟩
      rw [hp]
      exact Option.some_ne_none _
  | none | moved =>
      exact refines_refused (by simp only [exec, hp]) (by simp only [onLists, hq]) ⟨⟨R, h⟩, hd⟩
  | _ =>
      -- a borrow ends
      refine refines_ok (r := .unit) (u := { w with vars := w.vars.set x .moved })
        (by simp only [exec, hp]; rfl) (by simp only [onLists, hq]) ?_
      refine ⟨rfl, ⟨R, h.setBorrow ?_ ?_ hF .moved⟩, hd⟩
      · rw [hp]
        exact Option.some_ne_none _
      · intro v hv
        rw [hp] at hv
        cases hv

/-- A reference is made in both programs, or in neither. -/
theorem bindItem_simulates (ho : Owner env w.vars o v l) {slot : Option Slot}
    (hp : PointsAt v s l.length pos slot) :
    ∃ r u, bindPosition w o l pos = (some (.ok r), u)
      ∧ Returns (bindItem env o slot) s (fun e t => e.2 = r ∧ Simulates lost (e.1, t) u) := by
  cases slot with
  | none =>
      refine ⟨.option none, w, ?_, rfl, ⟨R, h⟩, hd⟩
      rw [bindPosition, hp.none]
  | some slot =>
      obtain ⟨item, hslot, hl⟩ := hp.item (h.owner_vec ho)
      refine ⟨.option (some item), { w with vars := w.vars ++ [.itemMut o pos] }, ?_, ?_⟩
      · rw [bindPosition, hl]
      · rw [bindItem, returns_bind, LeafNode.child_slot hslot]
        exact ⟨rfl, ⟨R, h.push (.itemMut ho hp)⟩, hd⟩

theorem lend_refines (x : Nat) (how : Lend) : (lend x how).Refines lost env s w := by
  have hx := h.each x
  generalize hF : R x = F, hp : env[x]? = p, hq : w.vars[x]? = q at hx
  cases hx with
  | @vec v l F hv =>
      have hown : Owner env w.vars x v l := ⟨hp, hq⟩
      have hafter := h.after .exclusive x
      cases hpos : how.onList l with
      | none =>
          refine refines_panic (R := R) (e := .unwrap)
            (u := { w with vars := w.vars.after .exclusive x })
            (by simp only [exec, hp]; rfl) (by simp only [onLists, hq, hpos]) ?_ hafter
            ((List.append_nil _).trans hd)
          simp only [bind, EStateM.bind, Lend.exec_panics hv hpos]
      | some pos =>
          obtain ⟨slot, t, hs, rfl, hpt⟩ := returns_iff.mp (Lend.exec_ok hv hpos)
          obtain ⟨r, u, hl, hm⟩ := bindItem_simulates
            (w := { w with vars := w.vars.after .exclusive x }) hafter hd
            (hown.after .exclusive x) hpt
          refine refines_ok (r := r) (u := u) (by simp only [exec, hp]; rfl)
            (by simp only [onLists, hq, hpos, hl]) ?_
          rw [returns_bind]
          exact .of_ok hs hm
  | _ => exact refines_refused (by simp only [exec, hp]) (by simp only [onLists, hq]) ⟨⟨R, h⟩, hd⟩

theorem step_refines (x : Nat) (call : Step) : (step x call).Refines lost env s w := by
  have hx := h.each x
  generalize hF : R x = F, hp : env[x]? = p, hq : w.vars[x]? = q at hx
  cases hx with
  | @iter o pos v l c ho hc hB =>
      have hv := h.owner_vec ho
      refine refines_ok (r := .option l[pos + call.skips]?)
        (u := { w with vars := w.vars.set x (.iter o (min (pos + call.skips + 1) l.length)) })
        (by simp only [exec, hp]; rfl) (by simp only [onLists, hq, ho.vars]) ?_
      rw [returns_bind]
      refine (Iter.step_gives hv (hv.leavesFilled hB) hc call).mono ?_
      intro e t hr
      obtain ⟨_, c'⟩ := e
      obtain ⟨rfl, rfl, hc'⟩ := hr
      have hne : o ≠ x := ho.ne (by simp [hp])
      exact ⟨rfl, ⟨R, h.setBorrow (by simp [hp]) (by simp [hp]) hF (.iter (ho.set hne _ _) hc' hB)⟩,
        hd⟩
  | @iterMut o pos v l c ho hc hB =>
      have hv := h.owner_vec ho
      obtain ⟨⟨slot, c'⟩, t, hs, rfl, hc', hpt⟩ :=
        returns_iff.mp (IterMut.step_points hv (hv.leavesFilled hB) hc call)
      have hown := ho.set (ho.ne (x := x) (by simp [hp])) (.iterMut o c')
        (.iterMut o (min (pos + call.skips + 1) l.length))
      have hset := h.setBorrow (by simp [hp]) (by simp [hp]) hF (.iterMut hown hc' hB)
      obtain ⟨r, u, hl, hm⟩ := bindItem_simulates (w := { w with
        vars := w.vars.set x (.iterMut o (min (pos + call.skips + 1) l.length)) }) hset hd hown hpt
      refine refines_ok (r := r) (u := u) (by simp only [exec, hp]; rfl)
        (by simp only [onLists, hq, ho.vars, hl]) ?_
      rw [returns_bind]
      exact .of_ok hs hm
  | @intoIter c l F hc =>
      subst hF
      have hfree := h.unborrowed (x := x) (by simp [hp])
      refine refines_ok (r := .option l[call.skips]?)
        (u := ⟨w.vars.set x (.intoIter (l.drop (call.skips + 1))), w.dropped ++ l.take call.skips⟩)
        (by simp only [exec, hp]; rfl) (by simp only [onLists, hq]) ?_
      rw [returns_bind]
      refine (IntoIter.step_holding hc call).mono ?_
      intro e t hr
      obtain ⟨_, c'⟩ := e
      obtain ⟨rfl, hc', hw, hdrop⟩ := hr
      have hset := h.set (by simp [hp]) hfree hw (.intoIter hc')
      rw [Function.update_eq_self] at hset
      exact ⟨rfl, ⟨R, hset⟩, by rw [hdrop, hd]⟩
  | _ => exact refines_refused (by simp only [exec, hp]) (by simp only [onLists, hq]) ⟨⟨R, h⟩, hd⟩

theorem exactLen_refines (x : Nat) : (exactLen x).Refines lost env s w := by
  have hx := h.each x
  generalize hF : R x = F, hp : env[x]? = p, hq : w.vars[x]? = q at hx
  cases hx with
  | @iter o pos v l c ho hc hB =>
      refine refines_ok (r := .nat (l.length - pos)) (u := w)
        (by simp only [exec, hp]; rfl) (by simp only [onLists, hq, ho.vars]) ?_
      rw [returns_bind]
      refine (exactLen_at hc).mono ?_
      intro _ t hr
      obtain ⟨rfl, rfl⟩ := hr
      exact ⟨rfl, ⟨R, h⟩, hd⟩
  | @iterMut o pos v l c ho hc hB =>
      refine refines_ok (r := .nat (l.length - pos)) (u := w)
        (by simp only [exec, hp]; rfl) (by simp only [onLists, hq, ho.vars]) ?_
      rw [returns_bind]
      refine (exactLen_at hc).mono ?_
      intro _ t hr
      obtain ⟨rfl, rfl⟩ := hr
      exact ⟨rfl, ⟨R, h⟩, hd⟩
  | @intoIter c l F hc =>
      refine refines_ok (r := .nat l.length) (u := w)
        (by simp only [exec, hp]; rfl) (by simp only [onLists, hq]) ?_
      rw [returns_bind]
      refine (IntoIter.len_holding hc).mono ?_
      intro _ t hr
      obtain ⟨rfl, rfl⟩ := hr
      exact ⟨rfl, ⟨R, h⟩, hd⟩
  | _ => exact refines_refused (by simp only [exec, hp]) (by simp only [onLists, hq]) ⟨⟨R, h⟩, hd⟩

theorem cloneIter_refines (x : Nat) : (cloneIter x).Refines lost env s w := by
  have hx := h.each x
  generalize hF : R x = F, hp : env[x]? = p, hq : w.vars[x]? = q at hx
  cases hx with
  | @iter o pos v l c ho hc hB =>
      refine refines_ok (r := .unit) (u := { w with vars := w.vars ++ [.iter o pos] })
        (by simp only [exec, hp]; rfl) (by simp only [onLists, hq]) ?_
      exact ⟨rfl, ⟨R, h.push (.iter ho hc hB)⟩, hd⟩
  | _ => exact refines_refused (by simp only [exec, hp]) (by simp only [onLists, hq]) ⟨⟨R, h⟩, hd⟩

theorem read_refines (x : Nat) : (read x).Refines lost env s w := by
  have hx := h.each x
  generalize hF : R x = F, hp : env[x]? = p, hq : w.vars[x]? = q at hx
  cases hx with
  | @itemMut o pos v l slot ho hs =>
      obtain ⟨item, hslot, hl⟩ := hs.slot (h.owner_vec ho)
      refine refines_ok (r := .item item) (u := w) (by simp only [exec, hp]; rfl)
        (by simp only [onLists, hq, ho.vars, hl, Option.map_some]) ?_
      rw [returns_bind, LeafNode.child_slot hslot]
      exact ⟨rfl, ⟨R, h⟩, hd⟩
  | _ => exact refines_refused (by simp only [exec, hp]) (by simp only [onLists, hq]) ⟨⟨R, h⟩, hd⟩

theorem write_refines (x : Nat) (item : T) : (write x item).Refines lost env s w := by
  have hx := h.each x
  generalize hF : R x = F, hp : env[x]? = p, hq : w.vars[x]? = q at hx
  cases hx with
  | @itemMut o pos v l slot ho hs =>
      have hv := h.owner_vec ho
      obtain ⟨old, _, hl⟩ := hs.slot hv
      refine refines_ok (r := .unit)
        (u := ⟨w.vars.set o (.vec (l.set pos item)), w.dropped ++ [old]⟩)
        (by simp only [exec, hp]; rfl) (by simp only [onLists, hq, ho.vars, hl]) ?_
      rw [returns_bind]
      refine (BTreeVec.write_at hv hs item).mono ?_
      intro _ t hr
      obtain ⟨hv', hloc, hst, hdrop⟩ := hr
      have hw := h.rewrite ho hv' (hloc.within hv'.live) hst List.length_set
      exact ⟨rfl, ⟨R, hw⟩, by rw [hdrop, hd, hl]; rfl⟩
  | _ => exact refines_refused (by simp only [exec, hp]) (by simp only [onLists, hq]) ⟨⟨R, h⟩, hd⟩

end

/-- Every statement does what it does on lists. -/
theorem refines (hB : 3 ≤ B) (hiter : a.Iterates → 4 ≤ B) (h : Simulates lost (env, s) w) :
    a.Refines (lost ∪ a.leaks (env, s)) env s w := by
  obtain ⟨⟨R, h⟩, hd⟩ := h
  cases a with
  | create => exact (create_refines h hd hB).leak rfl
  | clone x f panic => exact clone_refines h hd x f panic
  | call x op => exact (call_refines h hd hB x op).leak rfl
  | index x i => exact (index_refines h hd x i).leak rfl
  | lend x how => exact (lend_refines h hd x how).leak rfl
  | iter x => exact (iter_refines h hd (hiter trivial) x).leak rfl
  | iterMut x => exact (iterMut_refines h hd (hiter trivial) x).leak rfl
  | intoIter x => exact (intoIter_refines h hd (hiter trivial) x).leak rfl
  | step x call => exact (step_refines h hd x call).leak rfl
  | exactLen x => exact (exactLen_refines h hd x).leak rfl
  | cloneIter x => exact (cloneIter_refines h hd x).leak rfl
  | read x => exact (read_refines h hd x).leak rfl
  | write x item => exact (write_refines h hd x item).leak rfl
  | drop x => exact (drop_refines h hd x).leak rfl

end Action

/-- The nodes that nobody has after the program, since a clone made them and panicked. -/
def nodesLeaked (acts : List (Action T)) (p : Env × Store T P B) : Set Addr :=
  Machine.noted Action.run (fun a p lost => lost ∪ a.leaks p) acts p ∅

/-- What holds after every program. -/
theorem runProgram_simulates (hB : 3 ≤ B) {acts : List (Action T)}
    (hiter : ∀ a ∈ acts, a.Iterates → 4 ≤ B) :
    (runProgram acts : _ × Env × Store T P B).1 = (runOnLists acts).1
      ∧ Simulates (nodesLeaked acts (([], Store.empty) : Env × Store T P B))
        (runProgram acts : _ × Env × Store T P B).2 (runOnLists acts).2 := by
  have hempty : Simulates ∅ (([], Store.empty) : Env × Store T P B) ⟨[], []⟩ :=
    ⟨⟨_, .empty⟩, rfl⟩
  refine Machine.run_simulates_noting (fun a ha lost p w h => ?_) hempty
  exact Action.refines hB (hiter a ha) h

/--
**A program on vectors does what it does on lists.** Every statement has the outcome that it
has there, and the same items are dropped in the same order. With `B` at least 4 this is so
for all programs, with `B = 3` for those without iterators.
-/
theorem program_refines_lists (hB : 3 ≤ B) {acts : List (Action T)}
    (hiter : ∀ a ∈ acts, a.Iterates → 4 ≤ B) :
    (runProgram acts : _ × Env × Store T P B).1 = (runOnLists acts).1
      ∧ (runProgram acts : _ × Env × Store T P B).2.2.dropped = (runOnLists acts).2.dropped := by
  obtain ⟨hout, hsim⟩ := runProgram_simulates (P := P) hB hiter
  exact ⟨hout, hsim.dropped⟩

/--
Two vectors, a clone and an owning iterator live side by side, and another clone is dropped. A
clone, a call and an index panic. Then two items are swapped through references that an
`IterMut` gave.
-/
def severalOwners : List (Action Nat) :=
  .create :: (List.range 6).map (fun i => .call 0 (.push i)) ++
  [.create, .call 1 (.push 7), .call 1 (.push 8), .clone 0 some .unwrap,
    .clone 0 (fun item => if item = 3 then none else some item) .unwrap, .call 0 (.remove 6),
    .index 2 6, .create, .call 3 (.push 9), .intoIter 3, .step 3 .next, .clone 1 some .unwrap,
    .drop 4, .iterMut 1, .step 5 .next, .step 5 .next, .write 6 8, .write 7 7]

theorem program_refines_lists_severalOwners :
    (runProgram severalOwners : _ × Env × Store Nat PairPtr 4).1 = (runOnLists severalOwners).1
      ∧ (runProgram severalOwners : _ × Env × Store Nat PairPtr 4).2.2.dropped
        = (runOnLists severalOwners).2.dropped :=
  program_refines_lists (by decide) fun _ _ _ => Nat.le_refl 4

end BTreeVec
