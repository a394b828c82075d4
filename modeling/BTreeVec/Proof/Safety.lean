import BTreeVec.Proof.Program

/-!
# What a safe program is promised

No statement of a program goes wrong but as documented; every node belongs to one value,
and is gone when that value is; and no two references are to the same item. A `Clone` that
panics costs memory, and nothing else. All of it follows from the programs on lists.
-/

set_option linter.dupNamespace false

namespace BTreeVec

open Prog

variable {T P : Type} {B : Nat} [TaggedPtr P] {s t : Store T P B} {v : BTreeVec} {l l' : List T}
  {F : Set Addr} {x y o pos : Nat} {env : Env} {vars : Vars (List T) Nat Nat (List T)}
  {R : Nat → Set Addr} {lost : Set Addr} {a : Action T} {w : Lists T} {acts : List (Action T)}
  {u : Option (Value (List T) Nat Nat (List T))}

/-! ## Panics -/

/--
The panics that are documented: the index is out of bounds of the vector in the variable, or
an item of it panics when it is cloned. `items` has the items of a vector.
-/
def Action.Documents {ν γ ρ ω : Type} (items : ν → List T) (vars : Vars ν γ ρ ω) :
    Action T → Fault → Prop
  | .clone x cloneItem panic, e => e = panic
      ∧ ∃ v, (vars[x]? = some (.vec v) ∨ vars[x]? = some (.copy v))
        ∧ ∃ item ∈ items v, cloneItem item = none
  | .call x (.insert i _), e => e = .assertion
      ∧ ∃ v, vars[x]? = some (.vec v) ∧ (items v).length < i
  | .call x (.remove i), e => e = .assertion
      ∧ ∃ v, vars[x]? = some (.vec v) ∧ (items v).length ≤ i
  | .index x i, e => e = .unwrap
      ∧ ∃ v, (vars[x]? = some (.vec v) ∨ vars[x]? = some (.copy v)) ∧ (items v).length ≤ i
  | .lend x (.indexMut i), e => e = .unwrap
      ∧ ∃ v, vars[x]? = some (.vec v) ∧ (items v).length ≤ i
  | _, _ => False

theorem mapM_eq_none_iff {f : T → Option T} :
    l.mapM f = none ↔ ∃ item ∈ l, f item = none := by
  induction l with
  | nil => simp
  | cons item l ih =>
      cases hi : f item with
      | none => simp [List.mapM_cons, hi]
      | some c =>
          cases hl : l.mapM f with
          | none => simpa [List.mapM_cons, hi, hl] using ih.mp hl
          | some l' =>
              rw [hl] at ih
              simpa [List.mapM_cons, hi, hl] using ih

namespace Action

theorem bindPosition_ne_error (w : Lists T) (o : Nat) (l : List T) (pos : Nat) (e : Fault) :
    (bindPosition w o l pos).1 ≠ some (.error e) := by
  unfold bindPosition
  split <;> simp

theorem onLists_error_iff {e : Fault} :
    (a.onLists w).1 = some (.error e) ↔ a.Documents id w.vars e := by
  cases a with
  | clone x f panic =>
      simp only [onLists, Documents]
      cases hx : w.vars[x]? with
      | none => simp
      | some p =>
          cases p with
          | vec l | copy l =>
              dsimp only
              have hnone := mapM_eq_none_iff (l := l) (f := f)
              cases hl : l.mapM f with
              | none => simpa [eq_comm (a := panic)] using fun _ => hnone.mp hl
              | some l' => simpa [hl] using fun _ => hnone
          | _ => simp
  | call x op =>
      simp only [onLists]
      cases hx : w.vars[x]? with
      | none => cases op <;> simp [Documents, hx]
      | some p =>
          cases p with
          | vec l =>
              cases op with
              | insert index item =>
                  rcases Nat.lt_or_ge l.length index with hi | hi
                  · simp [Documents, Op.onList, hx, hi, Nat.not_le.mpr hi,
                      eq_comm (a := Fault.assertion)]
                  · simp [Documents, Op.onList, hx, hi]
              | remove index =>
                  rcases Nat.lt_or_ge index l.length with hi | hi
                  · simp [Documents, Op.onList, hx, hi]
                  · simp [Documents, Op.onList, hx, hi, eq_comm (a := Fault.assertion)]
              | _ => simp [Documents, Op.onList]
          | copy l => cases op <;> simp [Documents, Op.onList, Op.inPlace, hx]
          | _ => cases op <;> simp [Documents, hx]
  | index x i =>
      simp only [onLists, Documents]
      cases hx : w.vars[x]? with
      | none => simp
      | some p =>
          cases p with
          | vec l | copy l =>
              rcases Nat.lt_or_ge i l.length with hi | hi
              · simp [hi]
              · simp [hi, eq_comm (a := Fault.unwrap)]
          | _ => simp
  | lend x how =>
      simp only [onLists]
      cases hx : w.vars[x]? with
      | none => cases how <;> simp [Documents, hx]
      | some p =>
          cases p with
          | vec l =>
              cases how with
              | indexMut i =>
                  rcases Nat.lt_or_ge i l.length with hi | hi
                  · simp [Documents, Lend.onList, hx, hi, bindPosition_ne_error]
                  · simp [Documents, Lend.onList, hx, hi, Nat.not_lt.mpr hi,
                      eq_comm (a := Fault.unwrap)]
              | _ => simp [Documents, Lend.onList, bindPosition_ne_error]
          | _ => cases how <;> simp [Documents, hx]
  | create => simp [onLists, Documents]
  | _ =>
      refine iff_of_false (fun h => ?_) id
      simp only [onLists] at h
      repeat' split at h
      all_goals first
        | cases h
        | exact bindPosition_ne_error _ _ _ _ e h
        | simp at h
end Action

/-- A vector of the one program stands for a list of the other. -/
theorem Agree.exists_vec (h : Agree R lost env s vars) (x : Nat) (Q : List T → Prop) :
    (∃ v, env[x]? = some (.vec v) ∧ Q (s.itemsOf v)) ↔ ∃ l, vars[x]? = some (.vec l) ∧ Q l := by
  have hx := h.each x
  generalize R x = F, env[x]? = p, vars[x]? = q at hx
  cases hx with
  | vec hv => simp [hv.itemsOf]
  | _ => simp

theorem Agree.exists_copy (h : Agree R lost env s vars) (x : Nat) (Q : List T → Prop) :
    (∃ v, (env[x]? = some (.vec v) ∨ env[x]? = some (.copy v)) ∧ Q (s.itemsOf v))
      ↔ ∃ l, (vars[x]? = some (.vec l) ∨ vars[x]? = some (.copy l)) ∧ Q l := by
  have hx := h.each x
  generalize R x = F, env[x]? = p, vars[x]? = q at hx
  cases hx with
  | vec hv => simp [hv.itemsOf]
  | copy hv => simp [hv.itemsOf]
  | _ => simp

theorem Agree.documents (h : Agree R lost env s vars) (a : Action T) (e : Fault) :
    a.Documents s.itemsOf env e ↔ a.Documents id vars e := by
  cases a with
  | clone x f panic =>
      exact and_congr_right' (h.exists_copy x fun l => ∃ item ∈ l, f item = none)
  | call x op =>
      cases op with
      | insert i item => exact and_congr_right' (h.exists_vec x fun l => l.length < i)
      | remove i => exact and_congr_right' (h.exists_vec x fun l => l.length ≤ i)
      | _ => rfl
  | index x i => exact and_congr_right' (h.exists_copy x fun l => l.length ≤ i)
  | lend x how =>
      cases how with
      | indexMut i => exact and_congr_right' (h.exists_vec x fun l => l.length ≤ i)
      | _ => rfl
  | _ => rfl

/--
**Nothing goes wrong but as documented.** A statement fails in a program just when its index
is out of bounds, or an item panics as it is cloned, in the state that the statements before
it leave. So no access is to memory that is not there, no item is read that is not
initialized, and no assertion of the code fails but those on the index.
-/
theorem panics_documented (hB : 3 ≤ B) (hiter : ∀ a ∈ acts, a.Iterates → 4 ≤ B) (i : Nat)
    (e : Fault) : (runProgram acts : _ × Env × Store T P B).1[i]? = some (some (.error e))
      ↔ ∃ a, acts[i]? = some a
        ∧ a.Documents (runProgram (acts.take i) : _ × Env × Store T P B).2.2.itemsOf
          (runProgram (acts.take i) : _ × Env × Store T P B).2.1 e := by
  have hbefore : ∀ a ∈ acts.take i, a.Iterates → 4 ≤ B :=
    fun a ha => hiter a (List.mem_of_mem_take ha)
  obtain ⟨R, hagree⟩ := (runProgram_simulates (P := P) hB hbefore).2.agree
  rw [(runProgram_simulates (P := P) hB hiter).1, runOnLists, Machine.run_output,
    Option.map_eq_some_iff]
  simp only [Action.onLists_error_iff, hagree.documents]
  rfl

/-- A clone, a call and an index that panic, and a call that does not. -/
theorem panics_documented_severalOwners :
    (runProgram severalOwners : _ × Env × Store Nat PairPtr 4).1[11]? = some (some (.error .unwrap))
      ∧ (runProgram severalOwners : _ × Env × Store Nat PairPtr 4).1[12]?
        = some (some (.error .assertion))
      ∧ (runProgram severalOwners : _ × Env × Store Nat PairPtr 4).1[13]?
        = some (some (.error .unwrap))
      ∧ ∀ e, (runProgram severalOwners : _ × Env × Store Nat PairPtr 4).1[6]?
        ≠ some (some (.error e)) := by
  have h := @panics_documented Nat PairPtr 4 _ severalOwners (by decide)
    (fun _ _ _ => Nat.le_refl 4)
  have hclone := (h 11 .unwrap).mpr ⟨severalOwners[11], rfl, rfl, ⟨some 2, 6⟩,
    Or.inl (by decide +kernel), 3, by decide +kernel, rfl⟩
  have hcall := (h 12 .assertion).mpr ⟨severalOwners[12], rfl, rfl, ⟨some 2, 6⟩,
    by decide +kernel, by decide +kernel⟩
  have hindex := (h 13 .unwrap).mpr ⟨severalOwners[13], rfl, rfl, ⟨some 4, 6⟩,
    Or.inr (by decide +kernel), by decide +kernel⟩
  refine ⟨hclone, hcall, hindex, fun e he => ?_⟩
  obtain ⟨a, ha, hd⟩ := (h 6 e).mp he
  obtain rfl : a = .call 0 (.push 5) := (Option.some.inj ha).symm
  exact hd

/-! ## Nodes -/

/-- The node belongs to the value: its tree has it. -/
def Value.Owns (s : Store T P B) (a : Addr) : Value BTreeVec Cursor Slot IntoIter → Prop
  | .vec v | .copy v => ∃ r d, v.root = some r ∧ Reach s r d a
  | .intoIter c => ∃ r d, c.tree.root = some r ∧ Reach s r d a
  | _ => False

/-- Each live node belongs to one value, or it is lost and belongs to none. -/
structure OneOwner (lost : Set Addr) (env : Env) (s : Store T P B) : Prop where
  live : ∀ a, s.heap.read a ≠ none ↔ (∃ p ∈ env, p.Owns s a) ∨ a ∈ lost
  unowned : ∀ p ∈ env, ∀ a, p.Owns s a → a ∉ lost
  one : ∀ (x y : Nat) p q a, env[x]? = some p → env[y]? = some q → Value.Owns s a p →
    Value.Owns s a q → x = y

theorem Holding.reach_iff {a : Addr} {c : IntoIter} (h : Holding s c l F) :
    (∃ r d, c.tree.root = some r ∧ Reach s r d a) ↔ a ∈ F := by
  cases h with
  | empty =>
      constructor
      · intro ht
        obtain ⟨r, d, hr, _⟩ := ht
        cases hr
      · exact fun ha => absurd ha (Set.notMem_empty a)
  | @tree root k m c l htall hk hlink hnd hat =>
      have htree : c.tree = ⟨some root, m⟩ := by cases hat <;> rfl
      rw [htree]
      constructor
      · intro ht
        obtain ⟨r, d, hr, hd⟩ := ht
        cases hr
        exact htall.reach_iff.mp ⟨d, hd⟩
      · intro ha
        obtain ⟨d, hd⟩ := htall.reach_iff.mpr ha
        exact ⟨root, d, rfl, hd⟩

theorem Matches.owns {a : Addr} {r : Value BTreeVec Cursor Slot IntoIter}
    (h : Matches s env vars F (some r) u) : r.Owns s a ↔ a ∈ F := by
  cases h with
  | vec hv => exact hv.copyAt.reach_iff
  | copy hv => exact hv.reach_iff
  | intoIter hc => exact hc.reach_iff
  | moved => exact iff_of_false id (Set.notMem_empty a)
  | iter ho hc hB => exact iff_of_false id (Set.notMem_empty a)
  | iterMut ho hc hB => exact iff_of_false id (Set.notMem_empty a)
  | itemMut ho hs => exact iff_of_false id (Set.notMem_empty a)

theorem Agree.owns {a : Addr} {p : Value BTreeVec Cursor Slot IntoIter}
    (h : Agree R lost env s vars) (hx : env[x]? = some p) : p.Owns s a ↔ a ∈ R x :=
  Matches.owns (hx ▸ h.each x)

theorem Agree.oneOwner (h : Agree R lost env s vars) : OneOwner lost env s where
  live a := by
    rw [h.regions.live a]
    refine or_congr_left ⟨fun hr => ?_, fun hr => ?_⟩
    · obtain ⟨x, ha⟩ := hr
      cases hx : env[x]? with
      | none =>
          have hempty := h.each x
          rw [hx] at hempty
          generalize R x = F, vars[x]? = u at hempty ha
          cases hempty
          exact absurd ha (Set.notMem_empty a)
      | some p => exact ⟨p, List.mem_of_getElem? hx, (h.owns hx).mpr ha⟩
    · obtain ⟨p, hp, ha⟩ := hr
      obtain ⟨x, hx⟩ := List.mem_iff_getElem?.mp hp
      exact ⟨x, (h.owns hx).mp ha⟩
  unowned p hp a ha := by
    obtain ⟨x, hx⟩ := List.mem_iff_getElem?.mp hp
    exact h.regions.unowned x a ((h.owns hx).mp ha)
  one x y p q a hx hy hp hq := by
    by_contra hne
    exact h.regions.apart x y hne a ((h.owns hx).mp hp) ((h.owns hy).mp hq)

/--
**Each node belongs to one value.** In every program the live nodes are those of the vectors
and of the owning iterators that are there, and no two of these share one. So what one does
is no other's business, and with the last of them the last node is gone. Only a clone that
panics leaves nodes behind, which no value reaches.
-/
theorem nodes_have_one_owner (hB : 3 ≤ B) (hiter : ∀ a ∈ acts, a.Iterates → 4 ≤ B) :
    OneOwner (nodesLeaked acts (([], Store.empty) : Env × Store T P B))
      (runProgram acts : _ × Env × Store T P B).2.1
      (runProgram acts : _ × Env × Store T P B).2.2 := by
  obtain ⟨R, hagree⟩ := (runProgram_simulates (P := P) hB hiter).2.agree
  exact hagree.oneOwner

/-- Four values have nodes, and the panicked clone left some. -/
theorem nodes_have_one_owner_severalOwners :
    OneOwner (nodesLeaked severalOwners (([], Store.empty) : Env × Store Nat PairPtr 4))
      (runProgram severalOwners : _ × Env × Store Nat PairPtr 4).2.1
      (runProgram severalOwners : _ × Env × Store Nat PairPtr 4).2.2 :=
  nodes_have_one_owner (by decide) fun _ _ _ => Nat.le_refl 4

/-- A clone panics at its second item, and the leaf that it made outlives the vector. -/
example : ((runProgram [.create, .call 0 (.push 7), .call 0 (.push 8),
      .clone 0 (fun x => if x = 8 then none else some x) .unwrap, .drop 0] :
        _ × Env × Store Nat PairPtr 4).2.2.heap.cells.map Option.isSome) = [false, true] := by
  decide +kernel

/-- Two values that may be there together: no item is reached mutably by both. -/
def Value.Apart {ν ω : Type} : Value ν Nat Nat ω → Value ν Nat Nat ω → Prop
  | .itemMut o p, .itemMut o' q => o = o' → p ≠ q
  | .iterMut o p, .itemMut o' q | .itemMut o' q, .iterMut o p => o = o' → q < p
  | .iterMut o _, .iterMut o' _ => o ≠ o'
  | .iter o _, .iterMut o' _ | .iterMut o _, .iter o' _ => o ≠ o'
  | .iter o _, .itemMut o' _ | .itemMut o _, .iter o' _ => o ≠ o'
  | _, _ => True

namespace Value.Apart

variable {ν ω : Type} {p q : Value ν Nat Nat ω}

theorem symm (h : p.Apart q) : q.Apart p := by
  cases p <;> cases q <;> first | exact h | exact Ne.symm h | exact fun he => (h he.symm).symm

theorem of_owner {o : Nat} (hp : p.owner ≠ some o) (hq : q.owner = some o) : p.Apart q := by
  have hne : ∀ {o'}, p.owner = some o' → o' ≠ o := fun h he => hp (he ▸ h)
  cases q with
  | vec | copy | intoIter | moved => cases hq
  | iter =>
      cases hq
      cases p with
      | iterMut | itemMut => exact hne rfl
      | vec | copy | iter | intoIter | moved => trivial
  | iterMut =>
      cases hq
      cases p with
      | iter | iterMut => exact hne rfl
      | itemMut => exact fun he => absurd he.symm (hne rfl)
      | vec | copy | intoIter | moved => trivial
  | itemMut =>
      cases hq
      cases p with
      | iter => exact hne rfl
      | iterMut | itemMut => exact fun he => absurd he (hne rfl)
      | vec | copy | intoIter | moved => trivial

theorem after (h : p.Apart q) (access : Access) (x : Nat) :
    (p.after access x).Apart (q.after access x) := by
  have hsub : ∀ r : Value ν Nat Nat ω, r.after access x = r ∨ r.after access x = .moved := by
    intro r
    cases r with
    | vec | copy | intoIter | moved => exact Or.inl rfl
    | iter | iterMut | itemMut =>
        simp only [Value.after]
        split
        · exact Or.inr rfl
        · exact Or.inl rfl
  have hmoved : ∀ r : Value ν Nat Nat ω, Apart .moved r ∧ Apart r .moved := by
    intro r
    cases r <;> exact ⟨trivial, trivial⟩
  rcases hsub p with hp | hp <;> rcases hsub q with hq | hq <;> rw [hp, hq]
  · exact h
  · exact (hmoved p).2
  · exact (hmoved q).1
  · trivial

/-- The cursor only moves on. -/
theorem advance {o pos pos' : Nat} (h : p.Apart (.iterMut o pos)) (hle : pos ≤ pos') :
    p.Apart (.iterMut o pos') := by
  cases p with
  | itemMut o' q => exact fun he => Nat.lt_of_lt_of_le (h he) hle
  | vec | copy | iter | iterMut | intoIter | moved => exact h

/-- What the cursor is before was not given out. -/
theorem given {o pos pos' : Nat} (h : p.Apart (.iterMut o pos)) (hle : pos ≤ pos') :
    p.Apart (.itemMut o pos') := by
  cases p with
  | itemMut o' q => exact fun he => Nat.ne_of_lt (Nat.lt_of_lt_of_le (h he.symm) hle)
  | iterMut o' q => exact fun he => absurd he h
  | vec | copy | iter | intoIter | moved => exact h

end Value.Apart

/-- No two values reach the same item mutably. -/
def Exclusive {ν ω : Type} (vars : Vars ν Nat Nat ω) : Prop :=
  vars.Pairwise Value.Apart

namespace Exclusive

variable {p q : Value (List T) Nat Nat (List T)}

theorem after (h : Exclusive vars) (access : Access) (x : Nat) : Exclusive (vars.after access x) :=
  List.Pairwise.map _ (fun _ _ hpq => hpq.after access x) h

theorem push (h : Exclusive vars) (hq : ∀ p ∈ vars, p.Apart q) : Exclusive (vars ++ [q]) := by
  refine List.pairwise_append.mpr ⟨h, List.pairwise_singleton _ _, fun p hp q' hq' => ?_⟩
  obtain rfl := List.mem_singleton.mp hq'
  exact hq p hp

theorem set (h : Exclusive vars) (hx : vars[x]? = some p)
    (hq : ∀ r : Value (List T) Nat Nat (List T), r.Apart p → r.Apart q) :
    Exclusive (vars.set x q) := by
  obtain ⟨L, R, rfl, rfl⟩ := split_at hx
  rw [List.set_append_right _ _ (Nat.le_refl _), Nat.sub_self, List.set_cons_zero]
  obtain ⟨hL, hR, hLR⟩ := List.pairwise_append.mp h
  obtain ⟨hp, hR⟩ := List.pairwise_cons.mp hR
  refine List.pairwise_append.mpr ⟨hL, List.pairwise_cons.mpr ⟨fun r hr => ?_, hR⟩, ?_⟩
  · exact (hq r (hp r hr).symm).symm
  · intro r hr r' hr'
    rcases List.mem_cons.mp hr' with rfl | hr'
    · exact hq r (hLR r hr p List.mem_cons_self)
    · exact hLR r hr r' (List.mem_cons_of_mem _ hr')

/-- All other values are apart from the one in `x`. -/
theorem apart_of_mem_set {r : Value (List T) Nat Nat (List T)} (h : Exclusive vars)
    (hx : vars[x]? = some p) (hr : r ∈ vars.set x q) : r = q ∨ r.Apart p := by
  obtain ⟨L, R, rfl, rfl⟩ := split_at hx
  rw [List.set_append_right _ _ (Nat.le_refl _), Nat.sub_self, List.set_cons_zero, mem_mid] at hr
  obtain ⟨_, hR, hLR⟩ := List.pairwise_append.mp h
  rcases hr with rfl | hr | hr
  · exact Or.inl rfl
  · exact Or.inr (hLR r hr p List.mem_cons_self)
  · exact Or.inr ((List.pairwise_cons.mp hR).1 r hr).symm

theorem get (h : Exclusive vars) (hne : x ≠ y) (hx : vars[x]? = some p) (hy : vars[y]? = some q) :
    p.Apart q := by
  obtain ⟨hlx, rfl⟩ := List.getElem?_eq_some_iff.mp hx
  obtain ⟨hly, rfl⟩ := List.getElem?_eq_some_iff.mp hy
  have hpair := List.pairwise_iff_getElem.mp h
  rcases Nat.lt_or_gt_of_ne hne with hlt | hlt
  · exact hpair x y hlx hly hlt
  · exact (hpair y x hly hlx hlt).symm

end Exclusive

/-- After a use by `&mut self` nothing borrows any more, after one by `&self` only `Iter`. -/
theorem apart_after {q : Value (List T) Nat Nat (List T)} (hq : q.owner = some x) :
    ∀ p ∈ vars.after .exclusive x, p.Apart q := by
  intro p hp
  obtain ⟨p, _, rfl⟩ := List.mem_map.mp hp
  exact .of_owner (p.owner_after x) hq

theorem apart_after_shared (pos : Nat) : ∀ p ∈ vars.after .shared x, p.Apart (.iter x pos) := by
  intro p hp
  obtain ⟨p, _, rfl⟩ := List.mem_map.mp hp
  cases p with
  | vec | copy | intoIter | moved => trivial
  | iter o c =>
      simp only [Value.after]
      split <;> trivial
  | iterMut o c | itemMut o c =>
      simp only [Value.after]
      split
      · trivial
      · rename_i hne
        exact hne

theorem apart_plain {p q : Value (List T) Nat Nat (List T)} (hq : q.owner = none) : p.Apart q := by
  cases q <;> cases hq <;> cases p <;> trivial

/-- What borrows from nothing gives way to something else that does. -/
theorem Exclusive.replace {p q : Value (List T) Nat Nat (List T)} (h : Exclusive vars)
    (hx : vars[x]? = some p) (hp : p.owner = none) (hq : q.owner = none) (access : Access) :
    Exclusive ((vars.after access x).set x q) :=
  (h.after access x).set (after_plain hp hx access x) fun _ _ => apart_plain hq

namespace Action

theorem bindPosition_exclusive {w : Lists T} (h : Exclusive w.vars)
    (hpos : ∀ p ∈ w.vars, pos < l.length → p.Apart (.itemMut o pos)) :
    Exclusive (bindPosition w o l pos).2.vars := by
  unfold bindPosition
  split
  · exact h
  · rename_i hl
    exact h.push fun p hp => hpos p hp (List.getElem?_eq_some_iff.mp hl).1

theorem exclusive (h : Exclusive w.vars)
    (hle : ∀ (x o pos : Nat) (l : List T), w.vars[x]? = some (.iterMut o pos) →
      w.vars[o]? = some (.vec l) → pos ≤ l.length) :
    Exclusive (a.onLists w).2.vars := by
  cases a with
  | create => exact h.push fun p _ => apart_plain rfl
  | clone x f panic =>
      simp only [onLists]
      split
      · split
        · exact (h.after _ x).push fun p _ => apart_plain rfl
        · exact h.after _ x
      · split
        · exact (h.after _ x).push fun p _ => apart_plain rfl
        · exact h.after _ x
      · exact h
  | call x op =>
      simp only [onLists]
      split
      · rename_i l hx
        split
        · exact h.replace hx rfl rfl op.access
        · exact h.after _ x
      · rename_i l hx
        split
        · exact h.replace hx rfl rfl op.access
        · exact h
      · exact h
  | index x i =>
      simp only [onLists]
      split
      · split <;> exact h.after _ x
      · split <;> exact h.after _ x
      · exact h
  | lend x how =>
      simp only [onLists]
      split
      · split
        · exact bindPosition_exclusive (h.after _ x) fun p hp _ => apart_after rfl p hp
        · exact h.after _ x
      · exact h
  | iter x =>
      simp only [onLists]
      split
      · exact (h.after _ x).push (apart_after_shared 0)
      · exact h
  | iterMut x =>
      simp only [onLists]
      split
      · exact (h.after _ x).push (apart_after rfl)
      · exact h
  | intoIter x =>
      simp only [onLists]
      split
      · rename_i l hx
        exact h.replace hx rfl rfl .exclusive
      · exact h
  | step x c =>
      simp only [onLists]
      split
      · rename_i o pos hx
        split
        · exact h.set hx fun r hr => by cases r <;> exact hr
        · exact h
      · rename_i o pos hx
        split
        · rename_i l ho
          have hpos := hle x o pos l hx ho
          refine bindPosition_exclusive (h.set hx fun r hr => hr.advance (by omega)) ?_
          intro p hp hlt
          rcases h.apart_of_mem_set hx hp with rfl | hp
          · intro _
            omega
          · exact hp.given (Nat.le_add_right pos _)
        · exact h
      · rename_i l hx
        exact h.set hx fun r _ => apart_plain rfl
      · exact h
  | exactLen x =>
      simp only [onLists]
      split
      · split <;> exact h
      · split <;> exact h
      · exact h
      · exact h
  | cloneIter x =>
      simp only [onLists]
      split
      · rename_i o pos hx
        refine h.push fun p hp => ?_
        rw [← set_self hx] at hp
        rcases h.apart_of_mem_set hx hp with rfl | hp
        · trivial
        · exact hp
      · exact h
  | read x =>
      simp only [onLists]
      split
      · split <;> exact h
      · exact h
  | write x item =>
      simp only [onLists]
      split
      · split
        · rename_i ho
          split
          · exact h.set ho fun r _ => apart_plain rfl
          · exact h
        · exact h
      · exact h
  | drop x =>
      simp only [onLists]
      split
      · rename_i l hx
        exact h.replace hx rfl rfl .exclusive
      · rename_i l hx
        exact h.replace hx rfl rfl .exclusive
      · rename_i l hx
        exact h.set hx fun r _ => apart_plain rfl
      · exact h
      · exact h
      · rename_i hx
        exact h.set hx fun r _ => apart_plain rfl

end Action

theorem Agree.cursor_le (h : Agree R lost env s vars) {x o pos : Nat}
    (hx : vars[x]? = some (.iterMut o pos)) (ho : vars[o]? = some (.vec l)) :
    pos ≤ l.length := by
  have hm := h.each x
  rw [hx] at hm
  generalize R x = F, env[x]? = p at hm
  cases hm with
  | iterMut hown hc hB =>
      obtain rfl : _ = l := by
        have := hown.vars.symm.trans ho
        injection this with this
        injection this
      exact hc.le

/-- References to different items are to different slots. -/
theorem Agree.slots_apart (h : Agree R lost env s vars) {o' : Nat} {r r' : Slot}
    (he : Exclusive vars) (hne : x ≠ y) (hx : env[x]? = some (.itemMut o r))
    (hy : env[y]? = some (.itemMut o' r')) : r ≠ r' := by
  have hmx := h.each x
  have hmy := h.each y
  rw [hx] at hmx
  rw [hy] at hmy
  generalize hFx : R x = Fx, hvx : vars[x]? = u at hmx
  generalize hFy : R y = Fy, hvy : vars[y]? = u' at hmy
  cases hmx with
  | @itemMut _ pos v l _ ho hs =>
      cases hmy with
      | @itemMut _ pos' v' l' _ ho' hs' =>
          rintro rfl
          obtain ⟨L, _, hL, _⟩ := id hs
          obtain ⟨L', _, hL', _⟩ := id hs'
          by_cases hoo : o = o'
          · subst hoo
            obtain rfl : v = v' := by
              have := ho.env.symm.trans ho'.env
              injection this with this
              injection this
            have hpos := hs.unique (h.owner_vec ho).leaves_nodup hs'
            exact he.get hne hvx hvy rfl hpos
          · have hmem : r.1 ∈ s.leavesOf v := by rw [hL]; simp
            have hmem' : r.1 ∈ s.leavesOf v' := by rw [hL']; simp
            exact h.regions.apart o o' hoo r.1 ((h.owner_vec ho).leaves_mem hmem)
              ((h.owner_vec ho').leaves_mem hmem')

/--
**No two references are to the same item.** In every program, two mutable references that
are there at once are to different slots, whether `IterMut` gave them or another method.
-/
theorem references_apart (hB : 3 ≤ B) (hiter : ∀ a ∈ acts, a.Iterates → 4 ≤ B) {o' : Nat}
    {r r' : Slot} (hne : x ≠ y)
    (hx : (runProgram acts : _ × Env × Store T P B).2.1[x]? = some (.itemMut o r))
    (hy : (runProgram acts : _ × Env × Store T P B).2.1[y]? = some (.itemMut o' r')) : r ≠ r' := by
  have hempty : Simulates ∅ (([], Store.empty) : Env × Store T P B) ⟨[], []⟩ := ⟨⟨_, .empty⟩, rfl⟩
  have hstep : ∀ a ∈ acts, ∀ (p : Env × Store T P B) (w : Lists T),
      (∃ lost, Simulates lost p w) ∧ Exclusive w.vars → (a.run p).1 = (a.onLists w).1
        ∧ (∃ lost, Simulates lost (a.run p).2 (a.onLists w).2)
          ∧ Exclusive (a.onLists w).2.vars := by
    intro a ha p w h
    obtain ⟨⟨lost, hsim⟩, hex⟩ := h
    obtain ⟨hout, hsim'⟩ := Action.refines hB (hiter a ha) hsim
    obtain ⟨R, hagree⟩ := hsim.agree
    exact ⟨hout, ⟨_, hsim'⟩, Action.exclusive hex fun x o pos l => hagree.cursor_le⟩
  have hrun := Machine.run_simulates hstep ⟨⟨_, hempty⟩, List.Pairwise.nil⟩
  obtain ⟨lost, hsim⟩ := hrun.2.1
  obtain ⟨R, hagree⟩ := hsim.agree
  exact hagree.slots_apart hrun.2.2 hne hx hy

theorem references_apart_severalOwners : ∃ r r' : Slot,
    (runProgram severalOwners : _ × Env × Store Nat PairPtr 4).2.1[6]? = some (.itemMut 1 r)
      ∧ (runProgram severalOwners : _ × Env × Store Nat PairPtr 4).2.1[7]? = some (.itemMut 1 r')
      ∧ r ≠ r' := by
  have hx : (runProgram severalOwners : _ × Env × Store Nat PairPtr 4).2.1[6]?
      = some (.itemMut 1 (3, 0)) := by decide +kernel
  have hy : (runProgram severalOwners : _ × Env × Store Nat PairPtr 4).2.1[7]?
      = some (.itemMut 1 (3, 1)) := by decide +kernel
  exact ⟨_, _, hx, hy, references_apart (by decide) (fun _ _ _ => Nat.le_refl 4) (by decide) hx hy⟩

end BTreeVec
