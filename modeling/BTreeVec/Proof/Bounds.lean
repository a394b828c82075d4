import Mathlib.Data.Nat.Log
import BTreeVec.Proof.Height
import BTreeVec.Proof.Owning

/-!
# How large a tree is

With `B` at least 4 every row of the tree has at least `B / 2` times as many nodes as the row
above it, and never more than `B` times as many. So the height is logarithmic in the number
of items from both sides, the nodes are at most linear in it, and the loops go down to a leaf
and back up to the root in a logarithmic number of turns.
-/

set_option linter.dupNamespace false

namespace BTreeVec

open Prog

variable {T P : Type} {B : Nat} [TaggedPtr P] {s : Store T P B} {v : BTreeVec} {l : List T}
  {F : Set Addr} {U : List Addr} {Ds : List (List Addr)} {N : NodeKind} {C : List (Child T N)}
  {nx : Option Addr} {root : Addr} {k : Nat}

/-! ## Rows -/

theorem RowAt.mul_le (h : RowAt s N U C nx) (hU : ∀ a ∈ U, k ≤ s.width a) :
    U.length * k ≤ C.length := by
  induction U generalizing C with
  | nil =>
      rw [List.length_nil, Nat.zero_mul]
      exact Nat.zero_le _
  | cons a U ih =>
      obtain ⟨E, C', rfl, hE, h⟩ := h
      have ha := hU a List.mem_cons_self
      have := ih h fun x hx => hU x (List.mem_cons_of_mem _ hx)
      rw [hE.width] at ha
      rw [List.length_cons, Nat.succ_mul, List.length_append]
      omega

theorem RowAt.le_mul (h : RowAt s N U C nx) : C.length ≤ U.length * B := by
  induction U generalizing C with
  | nil =>
      obtain rfl : C = [] := h
      exact Nat.zero_le _
  | cons a U ih =>
      obtain ⟨E, C', rfl, hE, h⟩ := h
      have := ih h
      have := hE.length_le
      rw [List.length_cons, Nat.succ_mul, List.length_append]
      omega

namespace Below

/-- A row with at least `k` children or items to a node, and so on below. -/
theorem pow_le (h : Below s U Ds l) (hk : ∀ x ∈ U ++ Ds.flatten, k ≤ s.width x) :
    U.length * k ^ (Ds.length + 1) ≤ l.length := by
  induction Ds generalizing U with
  | nil =>
      rw [List.length_nil, Nat.zero_add, Nat.pow_one]
      exact RowAt.mul_le h fun a ha => hk a (List.mem_append_left _ ha)
  | cons D Ds ih =>
      have hlen : U.length * k ≤ D.length := by
        have := h.1.row.mul_le fun a ha => hk a (List.mem_append_left _ ha)
        rwa [BTreeVec.counted, List.length_map] at this
      calc U.length * k ^ (Ds.length + 1 + 1) = U.length * k * k ^ (Ds.length + 1) := by
            rw [Nat.pow_succ _ (Ds.length + 1), Nat.mul_comm (k ^ _) k, Nat.mul_assoc]
        _ ≤ D.length * k ^ (Ds.length + 1) := Nat.mul_le_mul_right _ hlen
        _ ≤ l.length := ih h.2.2 fun x hx => hk x (List.mem_append_right _ hx)

theorem le_pow (h : Below s U Ds l) : l.length ≤ U.length * B ^ (Ds.length + 1) := by
  induction Ds generalizing U with
  | nil =>
      rw [List.length_nil, Nat.zero_add, Nat.pow_one]
      exact RowAt.le_mul h
  | cons D Ds ih =>
      have hlen : D.length ≤ U.length * B := by
        have := h.1.row.le_mul
        rwa [BTreeVec.counted, List.length_map] at this
      calc l.length ≤ D.length * B ^ (Ds.length + 1) := ih h.2.2
        _ ≤ U.length * B * B ^ (Ds.length + 1) := Nat.mul_le_mul_right _ hlen
        _ = U.length * B ^ (Ds.length + 1 + 1) := by
            rw [Nat.pow_succ _ (Ds.length + 1), Nat.mul_comm (B ^ _) B, Nat.mul_assoc]

/-- The rows at least double, so the last is half of all nodes. -/
theorem nodes_mul_le (h : Below s U Ds l) (h2 : 2 ≤ k) (hk : ∀ x ∈ U ++ Ds.flatten, k ≤ s.width x) :
    (U.length + (U ++ Ds.flatten).length) * k ≤ 2 * l.length := by
  induction Ds generalizing U with
  | nil =>
      have := RowAt.mul_le h fun a ha => hk a (List.mem_append_left _ ha)
      rw [List.flatten_nil, List.append_nil, Nat.add_mul]
      omega
  | cons D Ds ih =>
      have hlen : U.length * 2 ≤ D.length := by
        have := h.1.row.mul_le fun a ha => Nat.le_trans h2 (hk a (List.mem_append_left _ ha))
        rwa [BTreeVec.counted, List.length_map] at this
      rw [List.flatten_cons, List.length_append]
      calc (U.length + (U.length + (D ++ Ds.flatten).length)) * k
          ≤ (D.length + (D ++ Ds.flatten).length) * k := Nat.mul_le_mul_right _ (by omega)
        _ ≤ 2 * l.length := ih h.2.2 fun x hx => hk x (List.mem_append_right _ hx)

end Below

namespace Tree

/-- Below the root every node has at least `B / 2` children or items. -/
theorem half_le (h : Tree s root Ds l) (hB : 4 ≤ B) : ∀ x ∈ Ds.flatten, B / 2 ≤ s.width x :=
  h.below.wide hB fun hDs a ha => by
    rw [List.mem_singleton.mp ha]
    exact h.wide hDs

theorem two_mul_pow_le {D : List Addr} (h : Tree s root (D :: Ds) l) (hB : 4 ≤ B) :
    2 * (B / 2) ^ (Ds.length + 1) ≤ l.length := by
  have hD : 2 ≤ D.length := by
    have := h.below.1.row.mul_le (k := 2) fun a ha => by
      rw [List.mem_singleton.mp ha]
      exact h.wide (List.cons_ne_nil _ _)
    rw [BTreeVec.counted, List.length_map, List.length_singleton] at this
    omega
  calc 2 * (B / 2) ^ (Ds.length + 1) ≤ D.length * (B / 2) ^ (Ds.length + 1) :=
        Nat.mul_le_mul_right _ hD
    _ ≤ l.length := h.below.2.2.pow_le fun x hx => h.half_le hB x hx

theorem nodes_le (h : Tree s root Ds l) (hB : 4 ≤ B) :
    Ds.flatten.length * (B / 2) ≤ 2 * l.length := by
  cases Ds with
  | nil =>
      rw [List.flatten_nil, List.length_nil, Nat.zero_mul]
      exact Nat.zero_le _
  | cons D Ds =>
      have hall := h.below.2.2.nodes_mul_le (k := B / 2) (by omega) fun x hx => h.half_le hB x hx
      rw [Nat.add_mul] at hall
      rw [List.flatten_cons]
      omega

end Tree

theorem RowAt.pow_succ_le (h : RowAt s N U C nx) (hU : ∀ a ∈ U, k ≤ s.width a) {n : Nat}
    (hn : 2 * k ^ n ≤ U.length) : 2 * k ^ (n + 1) ≤ C.length :=
  calc 2 * k ^ (n + 1) = 2 * k ^ n * k := by rw [Nat.pow_succ, Nat.mul_assoc]
    _ ≤ U.length * k := Nat.mul_le_mul_right _ hn
    _ ≤ C.length := h.mul_le hU

/-- Seen from below, the rows get shorter by half at least, up to a root with two children. -/
theorem Above.two_mul_pow_le {A : List Addr} {As : List (List Addr)} {cnt : Addr → Nat} {size : Nat}
    (h : Above s U cnt (A :: As) size) (hB : 4 ≤ B) :
    (∀ a ∈ A, 2 ≤ s.width a) ∧ 2 * (B / 2) ^ As.length ≤ U.length := by
  induction As generalizing U A cnt with
  | nil =>
      obtain ⟨he, hwide, _, r, rfl, _⟩ := h
      have hw := hwide rfl
      refine ⟨hw, ?_⟩
      have := he.row.mul_le hw
      rwa [BTreeVec.counted, List.length_map, List.length_singleton, Nat.one_mul] at this
  | cons A' As ih =>
      obtain ⟨he, _, hocc, h⟩ := h
      obtain ⟨hwide, hpow⟩ := ih h
      have hhalf := h.1.half_le (hocc A' rfl) hwide
      refine ⟨fun a ha => Nat.le_trans (by omega) (hhalf a ha), ?_⟩
      have := he.row.pow_succ_le hhalf hpow
      rwa [BTreeVec.counted, List.length_map] at this

theorem AtLeaves.two_mul_pow_le {A : List Addr} {As : List (List Addr)}
    (h : AtLeaves s U (A :: As) l) (hB : 4 ≤ B) : 2 * (B / 2) ^ (As.length + 1) ≤ l.length := by
  obtain ⟨hwide, hpow⟩ := h.above.two_mul_pow_le hB
  exact h.row.pow_succ_le (h.above.1.half_le (h.occ A rfl) hwide) hpow

/-! ## Memory and height -/

/-- The nodes that are allocated and not yet destroyed. -/
def Store.liveNodes (s : Store T P B) : List Addr :=
  (List.range s.heap.next).filter fun a => (s.heap.read a).isSome

omit [TaggedPtr P] in
theorem mem_liveNodes {a : Addr} : a ∈ s.liveNodes ↔ s.heap.read a ≠ none := by
  rw [Store.liveNodes, List.mem_filter, List.mem_range, Option.isSome_iff_ne_none]
  constructor
  · exact fun h => h.2
  · intro h
    obtain ⟨c, hc⟩ := Option.ne_none_iff_exists'.mp h
    exact ⟨Heap.lt_next_of_read hc, h⟩

/-- The bounds that the documented complexity rests on. -/
structure Bounded (v : BTreeVec) (s : Store T P B) : Prop where
  /-- Each node but the root makes room for at least half as many items as there are. -/
  nodes : (s.liveNodes.length - 1) * (B / 2) ≤ 2 * v.size
  full : ∀ h, HasLevels v s h → v.size ≤ B ^ h
  half : ∀ h, HasLevels v s h → 2 ≤ h → 2 * (B / 2) ^ (h - 1) ≤ v.size

theorem Sound.bounded (h : Sound v s l F) (hB : 4 ≤ B) : Bounded v s := by
  have hnd : s.liveNodes.Nodup := List.nodup_range.filter _
  have hmem : ∀ a, a ∈ s.liveNodes ↔ a ∈ F := fun a =>
    mem_liveNodes.trans ⟨h.live a, h.vec.live a⟩
  cases h.vec with
  | empty =>
      have hnil : s.liveNodes = [] := List.eq_nil_iff_forall_not_mem.mpr fun a ha =>
        absurd ((hmem a).mp ha) (Set.notMem_empty a)
      have hnone : ∀ h, ¬ HasLevels ⟨none, 0⟩ s h := by
        intro h hrun
        obtain ⟨r, d, a, hr, _⟩ := hrun
        cases hr
      refine ⟨?_, fun h hl => absurd hl (hnone h), fun h hl => absurd hl (hnone h)⟩
      rw [hnil, List.length_nil, Nat.zero_sub, Nat.zero_mul]
      exact Nat.zero_le _
  | @tree root Ds l ht =>
      have hperm : s.liveNodes.Perm (rowNodes Ds [root] []) :=
        (List.perm_ext_iff_of_nodup hnd ht.nodup).mpr hmem
      have hlen : s.liveNodes.length - 1 = Ds.flatten.length := by
        rw [hperm.length_eq, rowNodes]
        simp
      refine ⟨hlen ▸ ht.nodes_le hB, fun h hl => ?_, fun h hl hh => ?_⟩
      · have hle := ht.below.le_pow
        rw [List.length_singleton, Nat.one_mul] at hle
        exact hl.eq ht ▸ hle
      · cases Ds with
        | nil => exact absurd (hl.eq ht ▸ hh) (by simp)
        | cons D Ds =>
            rw [hl.eq ht]
            exact ht.two_mul_pow_le hB

/--
**Memory is linear and height logarithmic in the number of items**, if `B` is at least 4,
after any calls: what was removed leaves no nodes and no levels behind.
-/
theorem size_bounded (hB : 4 ≤ B) (h : Reachable v s) : Bounded v s := by
  obtain ⟨l, F, hs⟩ := h.sound
  exact hs.bounded hB

theorem size_bounded_pushed : ∃ (v : BTreeVec) (s : Store Nat PairPtr 4), v.size = 8
    ∧ Bounded v s := by
  obtain ⟨v, s, h, hsize⟩ := pushed_four
  exact ⟨v, s, hsize, size_bounded (Nat.le_refl 4) (.history h)⟩

/-! ## Turns -/

/-- `leaf_for`, cut off after some turns. -/
def leafForWithin (turns : Nat) (root : Addr) (index : Nat) : Exec T P B (Addr × Nat) :=
  loop .outOfFuel (fun (root, index) => leafForStep root index) turns (root, index)

/-- Rows that get longer by half at least are as few as the logarithm says. -/
theorem length_le_log {Rs : List (List Addr)} {n : Nat} (hB : 4 ≤ B)
    (h : ∀ R Rs', Rs = R :: Rs' → 2 * (B / 2) ^ (Rs'.length + 1) ≤ n) :
    Rs.length ≤ Nat.log (B / 2) (n / 2) := by
  cases Rs with
  | nil => exact Nat.zero_le _
  | cons R Rs =>
      have hpow := h R Rs rfl
      exact Nat.le_log_of_pow_le (by omega) (by rw [List.length_cons]; omega)

theorem Tree.length_le_log (h : Tree s root Ds l) (hB : 4 ≤ B) :
    Ds.length ≤ Nat.log (B / 2) (l.length / 2) := by
  refine BTreeVec.length_le_log hB fun D Ds' hD => ?_
  subst hD
  exact h.two_mul_pow_le hB

theorem AtLeaves.length_le_log {As : List (List Addr)} (h : AtLeaves s U As l) (hB : 4 ≤ B) :
    As.length ≤ Nat.log (B / 2) (l.length / 2) := by
  refine BTreeVec.length_le_log hB fun A As' hA => ?_
  subst hA
  exact h.two_mul_pow_le hB

theorem Tree.leafForWithin_eq (h : Tree s root Ds l) {i turns : Nat} (hi : i ≤ l.length)
    (hturns : Ds.length < turns) : leafForWithin turns root i s = leafFor root i s := by
  obtain ⟨hc, hitems⟩ := h.counted
  rw [← hitems] at hi
  exact loop_eq (leafForLoop_spec hturns hc hi)
    (leafForLoop_spec (Nat.lt_succ_of_lt hc.height_lt) hc hi)

/--
**`leaf_for` is fast.** The loop ends on the way to any item, or to the end, and the number of
turns it makes is at most one more than the logarithm of half the number of items to the base
`B / 2`.
-/
theorem leafFor_turns (hB : 4 ≤ B) (h : Reachable v s) (hroot : v.root = some root)
    {i turns : Nat} (hi : i ≤ v.size) (hturns : Nat.log (B / 2) (v.size / 2) < turns) :
    ∃ r, leafForWithin turns root i s = .ok r s ∧ leafFor root i s = .ok r s := by
  obtain ⟨l, F, hs⟩ := h.sound
  cases hs.vec with
  | empty => cases hroot
  | @tree root Ds l ht =>
      obtain rfl := Option.some.inj hroot
      have heq := ht.leafForWithin_eq hi (Nat.lt_of_le_of_lt (ht.length_le_log hB) hturns)
      obtain ⟨hc, hitems⟩ := ht.counted
      have hle : i ≤ (s.itemsUnder Ds.length root).length := hitems ▸ hi
      obtain ⟨r, _, he, rfl, _⟩ := returns_iff.mp (leafFor_spec hc hle)
      exact ⟨r, heq.trans he, he⟩

theorem leafFor_turns_pushed : ∃ (v : BTreeVec) (s : Store Nat PairPtr 4) (root : Addr),
    v.root = some root ∧ v.size = 8
      ∧ ∃ r, leafForWithin 3 root 5 s = .ok r s ∧ leafFor root 5 s = .ok r s := by
  obtain ⟨v, s, h, hsize⟩ := pushed_four
  have hreach : Reachable v s := .history h
  obtain ⟨l, F, hs⟩ := hreach.sound
  have hne : l ≠ [] := fun hl => by
    have := hs.vec.size
    rw [hsize, hl] at this
    cases this
  obtain ⟨Ds, root, hroot, _⟩ := hs.vec.root_ne_none hne
  refine ⟨v, s, root, hroot, hsize, ?_⟩
  exact leafFor_turns (Nat.le_refl 4) hreach hroot (by omega) (by rw [hsize]; decide)

/-- `insert` of `insert.rs`, cut off after some turns. -/
def Insert.insertWithin (turns : Nat) (node : Addr) (index : Nat) (item : T) (rootSize : Nat) :
    Exec T P B Addr := do
  let new ← insertOnce .leaf node index item
  let result ← handleInsertion .leaf ⟨node, new⟩ rootSize
  loop .outOfFuel (fun result => match result with
    | .done root => pure (.inr root)
    | .insertion ins => .inl <$> handleInsertion .internal ins rootSize) turns result

/-- `remove` of `remove.rs`, cut off after some turns. -/
def Remove.removeWithin (turns : Nat) (node : Addr) (i : Nat) : Exec T P B (Addr × T) := do
  let (removal, item) ← removeOnce .leaf node i
  match ← handleRemoval removal with
  | .done root => return (root, item)
  | .removal removal => do
      let root ← loop .outOfFuel (fun removal => do
        match ← handleRemoval removal with
        | .removal removal => pure (.inl removal)
        | .done root => .inr <$> collapseRoot root) turns removal
      return (root, item)

namespace BTreeVec

/-- `insert`, with both of its loops cut off. -/
def insertWithin (turns : Nat) (self : BTreeVec) (index : Nat) (item : T) :
    Exec T P B BTreeVec := do
  check .assertion (index ≤ self.size)
  let root ← match self.root with
    | some root => pure root
    | none => LeafNode.alloc
  let (leaf, index) ← leafForWithin turns root index
  let root ← Insert.insertWithin turns leaf index item self.size
  return ⟨some root, self.size + 1⟩

/-- `remove`, with both of its loops cut off. -/
def removeWithin (turns : Nat) (self : BTreeVec) (index : Nat) :
    Exec T P B (BTreeVec × T) := do
  check .assertion (index < self.size)
  let (leaf, index) ← leafForWithin turns (← orFault .unwrap self.root) index
  let (root, item) ← Remove.removeWithin turns leaf index
  return (⟨some root, ← sub .underflow self.size 1⟩, item)

end BTreeVec

theorem LeafSplit.insertWithin_eq {pre post : List T} {a : Addr} {V : List Addr}
    {As : List (List Addr)} {l₁ xs ys l₂ : List T} {turns : Nat}
    (h : LeafSplit s root Ds pre post a U V As l₁ xs ys l₂) (hB : 4 ≤ B)
    (hturns : Nat.log (B / 2) ((pre ++ post).length / 2) + 1 < turns) (x : T) :
    Insert.insertWithin turns a xs.length x (pre ++ post).length s
      = Insert.insert a xs.length x (pre ++ post).length s := by
  have hl : (l₁ ++ (xs ++ ys ++ l₂)).length = (pre ++ post).length := by
    rw [h.pre_eq, h.post_eq]; simp
  have hrows := h.all.length_le_log hB
  rw [hl] at hrows
  have hstart := Insert.start_spec (x := x) h.row₁ h.leaf h.row₂ h.all (by omega) .trivial
    (fun _ _ _ => trivial) hl
  unfold Insert.insertWithin Insert.insert
  refine (hstart.mono fun new s₁ h₁ => ?_).bind_congr rfl
  refine (h₁.mono fun r s₂ h₂ => ?_).bind_congr rfl
  obtain ⟨v, hv, hv', hc⟩ := h₂
  exact loop_eq (hc.loop (by omega) .trivial (by omega)) (hc.loop hv' .trivial (by omega))

theorem LeafSplit.removeWithin_eq {pre post : List T} {x : T} {a : Addr} {V : List Addr}
    {As : List (List Addr)} {l₁ xs ys l₂ : List T} {turns : Nat}
    (h : LeafSplit s root Ds pre (x :: post) a U V As l₁ xs (x :: ys) l₂) (hB : 4 ≤ B)
    (hturns : Nat.log (B / 2) ((pre ++ x :: post).length / 2) < turns) :
    Remove.removeWithin turns a xs.length s = Remove.remove a xs.length s := by
  have hl : l₁ ++ (xs ++ x :: ys ++ l₂) = pre ++ x :: post := by
    rw [h.pre_eq, h.post_eq]; simp
  have hrows := h.all.length_le_log hB
  rw [hl] at hrows
  have hstart := Remove.start_spec (G := fun _ _ _ => True) h.row₁ h.leaf h.row₂ h.all (by omega)
    (by intros; trivial) fun _ _ => trivial
  unfold Remove.removeWithin Remove.remove
  refine (hstart.mono fun r s₁ h₁ => ?_).bind_congr rfl
  refine (h₁.2.mono fun r s₂ h₂ => ?_).bind_congr rfl
  cases r with
  | done root => rfl
  | removal rm =>
      obtain ⟨v, hv, hv', hd⟩ := h₂
      have hloop := hd.loop hv' (by omega) fun _ _ => trivial
      have heq := loop_eq (hd.loop (show v < turns by omega) (by omega) fun _ _ => trivial) hloop
      exact bind_congr heq fun _ _ _ => rfl

theorem Tree.insertWithin_eq (h : Tree s root Ds l) (hB : 4 ≤ B) {i turns : Nat}
    (hi : i ≤ l.length) (hturns : Nat.log (B / 2) (l.length / 2) + 1 < turns) (x : T) :
    (do
      let (leaf, index) ← leafForWithin turns root i
      let root ← Insert.insertWithin turns leaf index x l.length
      return ⟨some root, l.length + 1⟩ : Exec T P B BTreeVec) s = (do
      let (leaf, index) ← leafFor root i
      let root ← Insert.insert leaf index x l.length
      return ⟨some root, l.length + 1⟩ : Exec T P B BTreeVec) s := by
  have hrows := h.length_le_log hB
  have hleaf := h.leafForWithin_eq hi (show Ds.length < turns by omega)
  obtain ⟨pre, post, rfl, rfl⟩ : ∃ pre post, l = pre ++ post ∧ i = pre.length :=
    ⟨l.take i, l.drop i, (List.take_append_drop i l).symm, by simp [hi]⟩
  refine (h.leafFor_spec.mono fun r s₁ hr => ?_).bind_congr hleaf
  obtain ⟨a, _⟩ := r
  obtain ⟨rfl, U, V, As, l₁, xs, ys, l₂, hs, rfl⟩ := hr
  exact bind_congr (hs.insertWithin_eq hB hturns x) fun _ _ _ => rfl

theorem VecAt.insertWithin_eq (h : VecAt s v l F) (hB : 4 ≤ B) {turns : Nat}
    (hturns : Nat.log (B / 2) (v.size / 2) + 1 < turns) (i : Nat) (x : T) :
    v.insertWithin turns i x s = v.insert i x s := by
  unfold BTreeVec.insertWithin BTreeVec.insert
  refine bind_congr rfl fun _ t ht => ?_
  obtain ⟨hi, rfl⟩ := check_eq_ok ht
  cases h with
  | empty =>
      refine ((LeafNode.alloc_spec t).mono fun new s₁ h₁ => ?_).bind_congr rfl
      obtain ⟨_, _, hb, hlink, _⟩ := h₁
      have htree : Tree s₁ new [] ([] : List T) :=
        ⟨⟨[], [], rfl, hb, rfl⟩, hlink, fun hD => absurd rfl hD, List.nodup_singleton _⟩
      exact htree.insertWithin_eq hB hi hturns x
  | @tree root Ds l h => exact h.insertWithin_eq hB hi hturns x

theorem VecAt.removeWithin_eq (h : VecAt s v l F) (hB : 4 ≤ B) {turns : Nat}
    (hturns : Nat.log (B / 2) (v.size / 2) + 1 < turns) (i : Nat) :
    v.removeWithin turns i s = v.remove i s := by
  unfold BTreeVec.removeWithin BTreeVec.remove
  refine bind_congr rfl fun _ t ht => ?_
  obtain ⟨hi, rfl⟩ := check_eq_ok ht
  cases h with
  | empty => exact absurd hi (Nat.not_lt_zero i)
  | @tree root Ds l h =>
      have hrows := h.length_le_log hB
      replace hturns : Nat.log (B / 2) (l.length / 2) + 1 < turns := hturns
      have hleaf := h.leafForWithin_eq (Nat.le_of_lt hi) (show Ds.length < turns by omega)
      obtain ⟨x, hx⟩ : ∃ x, l[i]? = some x := ⟨_, List.getElem?_eq_getElem hi⟩
      obtain ⟨pre, post, rfl, rfl⟩ := split_at hx
      refine Returns.bind_congr (returns_orFault.mpr ⟨root, rfl, ?_⟩) rfl
      refine (h.leafFor_spec.mono fun r s₁ hr => ?_).bind_congr hleaf
      obtain ⟨a, _⟩ := r
      obtain ⟨rfl, U, V, As, l₁, xs, ys, l₂, hs, rfl⟩ := hr
      obtain ⟨y, ys, rfl⟩ := List.exists_cons_of_ne_nil (hs.ys_ne (List.cons_ne_nil _ _))
      have hpost := hs.post_eq
      rw [List.cons_append, List.cons.injEq] at hpost
      obtain ⟨rfl, _⟩ := hpost
      exact bind_congr (hs.removeWithin_eq hB (by omega)) fun _ _ _ => rfl

/--
The call ends, cut off or not, and does the same: it returns if its index is in bounds, and if
not it panics at once.
-/
structure EndsAs {α : Type} (s : Store T P B) (cut uncut : Exec T P B α) (inBounds : Prop) :
    Prop where
  same : cut s = uncut s
  returns : inBounds → ∃ r s', cut s = .ok r s'
  panics : ¬ inBounds → cut s = .error .assertion s

theorem VecAt.insert_endsAs (h : VecAt s v l F) (hB : 4 ≤ B) {turns : Nat}
    (hturns : Nat.log (B / 2) (v.size / 2) + 1 < turns) (i : Nat) (x : T) :
    EndsAs s (v.insertWithin turns i x) (v.insert i x) (i ≤ v.size) where
  same := h.insertWithin_eq hB hturns i x
  returns hi := by
    rw [h.insertWithin_eq hB hturns i x]
    rw [h.size] at hi
    rw [← List.take_append_drop i l] at h
    have hrun := BTreeVec.insert_spec h (by omega) x
    rw [List.length_take_of_le hi] at hrun
    obtain ⟨v', s', he, _⟩ := returns_iff.mp hrun
    exact ⟨v', s', he⟩
  panics hi := bind_error (check_of_not hi)

theorem VecAt.remove_endsAs (h : VecAt s v l F) (hB : 4 ≤ B) {turns : Nat}
    (hturns : Nat.log (B / 2) (v.size / 2) + 1 < turns) (i : Nat) :
    EndsAs s (v.removeWithin turns i) (v.remove i) (i < v.size) where
  same := h.removeWithin_eq hB hturns i
  returns hi := by
    rw [h.removeWithin_eq hB hturns i]
    rw [h.size] at hi
    obtain ⟨x, hx⟩ : ∃ x, l[i]? = some x := ⟨_, List.getElem?_eq_getElem hi⟩
    obtain ⟨pre, post, rfl, rfl⟩ := split_at hx
    obtain ⟨r, s', he, _⟩ := returns_iff.mp (BTreeVec.remove_spec h (by omega))
    exact ⟨r, s', he⟩
  panics hi := bind_error (check_of_not hi)

/--
**Insertion and removal are fast.** At any index, on the way down and on the way back up, the
number of turns is at most two more than the logarithm of half the number of items to the
base `B / 2`. This is so for each single call, whatever calls were made before.
-/
theorem updates_turns (hB : 4 ≤ B) (h : Reachable v s) {turns : Nat}
    (hturns : Nat.log (B / 2) (v.size / 2) + 1 < turns) :
    (∀ i x, EndsAs s (v.insertWithin turns i x) (v.insert i x) (i ≤ v.size))
      ∧ ∀ i, EndsAs s (v.removeWithin turns i) (v.remove i) (i < v.size) := by
  obtain ⟨l, F, hs⟩ := h.sound
  exact ⟨hs.vec.insert_endsAs hB hturns, hs.vec.remove_endsAs hB hturns⟩

theorem updates_turns_pushed : ∃ (v : BTreeVec) (s : Store Nat PairPtr 4), v.size = 8
    ∧ (∀ i x, EndsAs s (v.insertWithin 4 i x) (v.insert i x) (i ≤ v.size))
    ∧ ∀ i, EndsAs s (v.removeWithin 4 i) (v.remove i) (i < v.size) := by
  obtain ⟨v, s, h, hsize⟩ := pushed_four
  refine ⟨v, s, hsize, ?_⟩
  exact updates_turns (Nat.le_refl 4) (.history h) (by rw [hsize]; decide)

end BTreeVec
