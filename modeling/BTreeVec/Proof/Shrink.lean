import BTreeVec.Proof.Balance

/-!
# Removal climbs

`remove` goes from the leaf to the root like `insert` does. Between two turns the row
it is at has been put in order, while the row above still has the old counts, and may
still have a node that was merged away. `Shrinking` says this, with one case for each
`RemovalKind`, and one turn of the loop moves it up by one row.
-/

namespace BTreeVec

open Prog

variable {T P : Type} {B : Nat} [TaggedPtr P] {s s' : Store T P B} {N : NodeKind}
  {a b n p : Addr} {nx : Option Addr}

/-- `s'` is `s` without the node at `a`, which was destroyed empty and without a parent. -/
structure Store.Freed (s s' : Store T P B) (a : Addr) : Prop where
  self : s'.heap.read a = none
  other : ∀ x, x ≠ a → s'.heap.read x = s.heap.read x
  next : s'.heap.next = s.heap.next
  dropped : s'.dropped = s.dropped
  destroyed : ∃ c, s'.destroyed = s.destroyed ++ [(a, c)] ∧ c.length = 0 ∧ c.link.1 = none

namespace Store.Freed

theorem body (h : Store.Freed s s' a) {x : Addr} (hx : x ≠ a) : s'.body x = s.body x := by
  rw [Store.body, h.other x hx]; rfl

theorem link (h : Store.Freed s s' a) {x : Addr} (hx : x ≠ a) : s'.link x = s.link x := by
  rw [Store.link, h.other x hx]; rfl

end Store.Freed

theorem Effect.of_freed (h : Store.Freed s s' a) {F F' : Set Addr} (ha : a ∈ F)
    (hF : F' = F \ {a}) : Effect s s' F F' := by
  subst hF
  obtain ⟨c, hc, hlen, hl⟩ := h.destroyed
  refine ⟨⟨fun x hx _ => h.other x fun he => hx (he ▸ ha), ?_, fun x hx => Or.inl hx.1,
    Nat.le_of_eq h.next.symm⟩, ⟨_, hc, fun d hd => ?_⟩, h.dropped⟩
  · intro x hx
    have hxa : x ≠ a := fun he => hx (he ▸ h.self)
    rw [h.other x hxa] at hx
    obtain ⟨c, hc⟩ := Option.ne_none_iff_exists'.mp hx
    by_cases hF : x ∈ F
    · exact Or.inl ⟨hF, hxa⟩
    · exact Or.inr ⟨hF, Heap.lt_next_of_read hc⟩
  · obtain rfl := List.mem_singleton.mp hd
    exact ⟨hlen, hl⟩

namespace NodeRef

theorem destroy_spec (h : NodeAt s N a [] nx) {i : Nat} (hl : s.link a = some (none, i))
    (fuel : Nat) : Returns (destroy (fuel + 1) N a) s (fun _ s' => Store.Freed s s' a) := by
  obtain ⟨c, hc, hlc⟩ := Option.map_eq_some_iff.mp hl
  have hlink : c.link.1 = none := by rw [hlc]
  unfold destroy
  simp only [returns_bind, returns_parent hl, returns_check, returns_deref, returns_modify]
  refine ⟨trivial, c, hc, ?_⟩
  cases N with
  | leaf =>
      obtain ⟨n, hr, hn⟩ := Store.body_leaf.mp h
      obtain rfl : c = .leaf n := Option.some.inj (hc.symm.trans hr)
      have hlen : n.length = 0 := hn.length
      have hsl : n.children.slice? 0 n.length = some [] := by
        rw [hlen]
        exact Slots.slice?_prefix (show n.children.toList = [] ++ _ from rfl)
      unfold LeafNode.drop
      simp only [LeafNode.items, deallocate, returns_bind, returns_derefLeaf,
        returns_orFault, returns_modify, returns_deref]
      refine ⟨n, hr, [], hsl, [], rfl, .leaf n, hr, ?_, ?_, Heap.next_free .., ?_, .leaf n, rfl,
        hlen, hlink⟩
      · simp [Heap.read_free]
      · intro x hx; simp [Heap.read_free, hx]
      · exact List.append_nil _
  | internal =>
      obtain ⟨n, hr, hn⟩ := Store.body_internal.mp h.1
      obtain rfl : c = .internal n := Option.some.inj (hc.symm.trans hr)
      have hlen : n.length = 0 := hn.length
      unfold InternalNode.destroyChildren
      simp only [returns_bind, returns_derefInternal]
      refine ⟨n, hr, (modifyInternal_spec (by exact hr) _).mono ?_⟩
      intro _ s₁ w
      rw [hlen]
      simp only [List.range_zero, forEach, returns_pure, deallocate, returns_bind, returns_deref,
        returns_modify]
      refine ⟨_, w.self, ?_, ?_, ?_, w.dropped, .internal n, w.destroyed, hlen, hlink⟩
      · simp [Heap.read_free]
      · intro x hx
        simp only [Heap.read_free, hx, if_false]
        exact w.other x hx
      · exact (Heap.next_free ..).trans w.next

theorem destroyPrefix_spec (h : NodeAt s N a [] nx) {i : Nat} (hl : s.link a = some (none, i))
    (fuel : Nat) : Returns (destroyPrefix (fuel + 1) a) s (fun _ s' => Store.Freed s s' a) := by
  rw [destroyPrefix, returns_bind, returns_cast h.tag]
  exact destroy_spec h hl fuel

end NodeRef

namespace Remove

/-! ## The row of the removal -/

/-- The right one of two neighbours, if it was not merged away. -/
def RemovalKind.stays : RemovalKind → Addr → List Addr
  | .merged _ _, _ => []
  | .moved _ _ _, b => [b]
  | .absorbed _, b => [b]

namespace Rebalanced

variable {E F : List (Child T N)} {j : Nat} {k : RemovalKind}

theorem row (h : Rebalanced s' N a b E F nx j n k) :
    RowAt s' N (a :: k.stays b) (E ++ F) nx := by
  cases h with
  | movedRight hE half hat₁ hat₂ =>
      refine ⟨_, _, ?_, hat₁, _, [], (List.append_nil _).symm, hat₂, rfl⟩
      rw [hE, List.append_assoc]; rfl
  | movedLeft hF half hat₁ hat₂ =>
      refine ⟨_, _, ?_, hat₁, _, [], (List.append_nil _).symm, hat₂, rfl⟩
      rw [hF, List.append_assoc]; rfl
  | merged hn hE hF _ hat₁ hat₂ => exact ⟨_, [], (List.append_nil _).symm, hat₁, rfl⟩

/-- Both nodes that are left have the minimum, `n` having lacked one child at most. -/
theorem half (h : Rebalanced s' N a b E F nx j n k)
    (hmin : (B / 2 ≤ E.length ∧ n = b ∧ B / 2 ≤ F.length + 1)
      ∨ (B / 2 ≤ F.length ∧ n = a ∧ B / 2 ≤ E.length + 1)) (hab : a ≠ b) :
    ∀ x ∈ a :: k.stays b, B / 2 ≤ s'.width x := by
  intro x hx
  cases h with
  | movedRight hE half hat₁ hat₂ =>
      obtain ⟨_, _, hF⟩ := hmin.resolve_right fun h => hab h.2.1.symm
      simp only [RemovalKind.stays, List.mem_cons, List.not_mem_nil, or_false] at hx
      rcases hx with rfl | rfl
      · rw [hat₁.width]; exact half
      · rw [hat₂.width]; exact hF
  | movedLeft hF half hat₁ hat₂ =>
      obtain ⟨_, _, hE⟩ := hmin.resolve_left fun h => hab h.2.1
      simp only [RemovalKind.stays, List.mem_cons, List.not_mem_nil, or_false] at hx
      rcases hx with rfl | rfl
      · rw [hat₁.width, List.length_append]; exact hE
      · rw [hat₂.width]; exact half
  | merged hn hE hF _ hat₁ hat₂ =>
      obtain rfl := List.mem_singleton.mp (show x ∈ [a] from hx)
      rw [hat₁.width, List.length_append]
      omega

/-- No node that is left is empty. -/
theorem inner {E F : List (Child T .internal)} (h : Rebalanced s' .internal a b E F nx j n k)
    (hB : 2 ≤ B) (hE : E ≠ []) : ∀ x ∈ a :: k.stays b, s'.kids x ≠ [] := by
  have key : ∀ {c : Addr} {G : List (Child T .internal)} {nx : Option Addr},
      NodeAt s' .internal c G nx → G ≠ [] → s'.kids c ≠ [] := by
    intro c G nx hG hne hk
    rw [hG.kids] at hk
    exact hne (List.map_eq_nil_iff.mp hk)
  intro x hx
  cases h with
  | movedRight hE' half hat₁ hat₂ =>
      simp only [RemovalKind.stays, List.mem_cons, List.not_mem_nil, or_false] at hx
      rcases hx with rfl | rfl
      · exact key hat₁ (List.length_pos_iff.mp (by omega))
      · exact key hat₂ (List.cons_ne_nil _ _)
  | movedLeft hF half hat₁ hat₂ =>
      simp only [RemovalKind.stays, List.mem_cons, List.not_mem_nil, or_false] at hx
      rcases hx with rfl | rfl
      · exact key hat₁ (by simp)
      · exact key hat₂ (List.length_pos_iff.mp (by omega))
  | merged hn hE' hF _ hat₁ hat₂ =>
      obtain rfl := List.mem_singleton.mp (show x ∈ [a] from hx)
      exact key hat₁ (by simp [hE])

end Rebalanced

/-- The row of two rebalanced neighbours has the children it had. -/
theorem Rebalanced.splice {L R : List Addr} {E F C : List (Child T N)} {j : Nat}
    {k : RemovalKind} (hnb : Neighbours s N p a b E F nx j)
    (hr : Rebalanced s' N a b E F nx j n k)
    (f : Frame s s' {a, b} {y | y ∈ kidsOf N (E ++ F)})
    (hside : ∀ x, x ∈ L ∨ x ∈ R → s'.body x = s.body x)
    (hrow : RowAt s N (L ++ a :: b :: R) C none) (hnd : (kidsOf N C).Nodup) :
    RowAt s' N (L ++ a :: (k.stays b ++ R)) C none
      ∧ ∀ x ∈ kidsOf N (E ++ F), x ∈ kidsOf N C := by
  obtain ⟨C₁, E', C₂, rfl, h₁, hat₁, h₂⟩ := RowAt.mid.mp hrow
  obtain ⟨F', C₂, rfl, hat₂, h₂⟩ := h₂
  obtain ⟨rfl, _⟩ := hnb.at₁.unique hat₁
  obtain ⟨rfl, hnx⟩ := hnb.at₂.unique hat₂
  simp only [kidsOf_append, List.nodup_append, List.mem_append] at hnd
  -- the children beside theirs keep their links
  have hlink : ∀ x, x ∈ kidsOf N C₁ ∨ x ∈ kidsOf N C₂ → s'.link x = s.link x := by
    intro x hx
    refine f.link x fun hmem => ?_
    rw [Set.mem_ofPred_eq, kidsOf_append, List.mem_append] at hmem
    grind
  rw [← List.append_assoc E F C₂]
  constructor
  · refine RowAt.splice (h₁.congr (fun x hx => ?_) fun x hx => ?_) (hr.row.map_next hnx)
      (h₂.congr (fun x hx => ?_) fun x hx => ?_)
    · exact hside x (Or.inl hx)
    · exact hlink x (Or.inl hx)
    · exact hside x (Or.inr hx)
    · exact hlink x (Or.inr hx)
  · intro x hx
    rw [kidsOf_append, kidsOf_append, List.mem_append, List.mem_append]
    exact Or.inr (Or.inl hx)

/-- The rows below two rebalanced neighbours are as good as before. -/
theorem Below.rebalanced {L R : List Addr} {Ds : List (List Addr)} {l : List T}
    {E F : List (Child T (rowKind Ds))} {j : Nat} {k : RemovalKind}
    (h : Below s (L ++ a :: b :: R) Ds l) (hnb : Neighbours s (rowKind Ds) p a b E F nx j)
    (hr : Rebalanced s' (rowKind Ds) a b E F nx j n k)
    (f : Frame s s' {a, b} {y | y ∈ kidsOf _ (E ++ F)})
    (hnd : (rowNodes Ds (L ++ a :: b :: R) []).Nodup) (hB : 3 ≤ B)
    (hE : rowKind Ds = .internal → E ≠ [])
    (hwide : ∀ c ∈ kidsOf _ (E ++ F), B / 2 ≤ s.width c) :
    Below s' (L ++ a :: (k.stays b ++ R)) Ds l := by
  have hside : ∀ x, x ∈ L ∨ x ∈ R → s'.body x = s.body x := by
    intro x hx
    refine f.body x fun hmem => ?_
    simp only [rowNodes, List.nodup_append, List.nodup_cons, List.mem_cons] at hnd
    rcases hmem with rfl | rfl
    · grind
    · grind
  cases Ds with
  | nil => exact (hr.splice hnb f hside h List.nodup_nil).1
  | cons D Ds =>
      obtain ⟨he, ho, hbelow⟩ := h
      rw [rowNodes, List.flatten_cons] at hnd
      have hnd' := List.nodup_append.mp hnd
      have hndD := List.nodup_append.mp hnd'.1
      have hkD : kidsOf (T := T) (rowKind (D :: Ds)) (counted s.total D) = D :=
        kidsOf_counted s.total D
      obtain ⟨hrow, hsub⟩ := hr.splice hnb f hside he.row (hkD.symm ▸ hndD.1)
      rw [hkD] at hsub
      -- below the two nothing is written
      have hlow : ∀ x ∈ D ++ Ds.flatten, s'.body x = s.body x := by
        intro x hx
        refine f.body x fun hmem => hnd'.2.2 x hx x ?_ rfl
        simp only [List.mem_append, List.mem_cons]
        rcases hmem with rfl | rfl
        · exact Or.inl (Or.inr (Or.inl rfl))
        · exact Or.inl (Or.inr (Or.inr (Or.inl rfl)))
      have hD : ∀ x ∈ D, s'.body x = s.body x := fun x hx => hlow x (List.mem_append_left _ hx)
      -- a node of the new row is one of the two, or was there before
      have hmem : ∀ x ∈ L ++ a :: (k.stays b ++ R), x ∈ a :: k.stays b ∨ x ∈ L ∨ x ∈ R := by
        intro x hx
        rcases mem_mid.mp hx with rfl | hx | hx
        · exact Or.inl List.mem_cons_self
        · exact Or.inr (Or.inl hx)
        · rcases List.mem_append.mp hx with hx | hx
          · exact Or.inl (List.mem_cons_of_mem _ hx)
          · exact Or.inr (Or.inr hx)
      have hold : ∀ x, x ∈ L ∨ x ∈ R → x ∈ L ++ a :: b :: R := fun x hx =>
        mem_mid.mpr (Or.inr (hx.imp_right (List.mem_cons_of_mem _)))
      refine ⟨⟨?_, ?_⟩, ?_, hbelow.congr hlow fun x hx => ?_⟩
      · rw [counted_congr fun x hx => total_congr (hD x hx)]
        exact hrow
      · intro x hx
        rcases hmem x hx with hx | hx
        · exact hr.inner (by omega) (hE rfl) x hx
        · rw [kids_congr (hside x hx)]
          exact he.inner x (hold x hx)
      · intro x hx hw c hc hcD
        rw [width_congr (hD c hcD)]
        rcases hmem x hx with hx | hx
        · obtain ⟨G, _, hG, hGsub⟩ := hr.row.nodeAt hx
          rw [hG.kids] at hc
          exact hwide c (kidsOf_mono hGsub hc)
        · rw [kids_congr (hside x hx)] at hc
          rw [width_congr (hside x hx)] at hw
          exact ho x (hold x hx) hw c hc hcD
      · refine f.link x fun hmem => ?_
        exact hndD.2.2 x (hsub x hmem) x hx rfl

/--
What the row below tells the parents: they believe in the nodes `U` with the counts
`cnt`, of which the nodes `V` are left.
-/
inductive Reported (s : Store T P B) (N : NodeKind) (cnt : Addr → Nat) :
    List Addr → List Addr → Removal → Prop where
  | absorbed {L R : List Addr} {n : Addr} {q : Option Addr} {i : Nat}
      (hl : s.link n = some (q, i)) (hn : cnt n = s.total n + 1)
      (ho : ∀ c ∈ L ++ R, cnt c = s.total c) :
      Reported s N cnt (L ++ n :: R) (L ++ n :: R) ⟨n, .absorbed i⟩
  | moved {L R : List Addr} {n a b p : Addr} {j src dest size : Nat} (hn : n = a ∨ n = b)
      (ha : s.link a = some (some p, j)) (hb : s.link b = some (some p, j + 1))
      (hc : (src = j ∧ dest = j + 1 ∧ cnt a = s.total a + size ∧ cnt b + size = s.total b + 1)
        ∨ (src = j + 1 ∧ dest = j ∧ cnt b = s.total b + size ∧ cnt a + size = s.total a + 1))
      (ho : ∀ c ∈ L ++ R, cnt c = s.total c) :
      Reported s N cnt (L ++ a :: b :: R) (L ++ a :: b :: R) ⟨n, .moved src dest size⟩
  | merged {L R : List Addr} {n a b p : Addr} {j : Nat} (hn : n = a ∨ n = b)
      (ha : s.link a = some (some p, j)) (hb : s.link b = some (some p, j + 1))
      (hc : cnt a + cnt b = s.total a + 1) (ho : ∀ c ∈ L ++ R, cnt c = s.total c)
      (he : NodeAt s N b [] none) (hw : N = .internal → 2 ≤ s.width a)
      (hlt : s.width a < 2 * (B / 2)) :
      Reported s N cnt (L ++ a :: R) (L ++ a :: b :: R) ⟨n, .merged (j + 1) j⟩

/-- The counts of two rebalanced neighbours are wrong as `k` says. -/
theorem Rebalanced.reported {L R : List Addr} {E F : List (Child T N)} {j : Nat}
    {k : RemovalKind} {cnt : Addr → Nat} (hnb : Neighbours s N p a b E F nx j)
    (hr : Rebalanced s' N a b E F nx j n k)
    (f : Frame s s' {a, b} {y | y ∈ kidsOf N (E ++ F)}) (hn : cnt n = s.total n + 1)
    (ha : a ≠ n → cnt a = s.total a) (hb : b ≠ n → cnt b = s.total b)
    (ho : ∀ c ∈ L ++ R, cnt c = s'.total c) (hlen : N = .internal → 2 ≤ E.length + F.length) :
    Reported s' N cnt (L ++ a :: (k.stays b ++ R)) (L ++ a :: b :: R) ⟨n, k⟩ := by
  have hla : s'.link a = some (some p, j) :=
    (hnb.link_eq f (List.Subset.refl _) (Or.inl rfl)).trans hnb.link₁
  have hlb : s'.link b = some (some p, j + 1) :=
    (hnb.link_eq f (List.Subset.refl _) (Or.inr rfl)).trans hnb.link₂
  have hta := hnb.at₁.total
  have htb := hnb.at₂.total
  cases hr with
  | movedRight hE half hat₁ hat₂ =>
      -- the counts of both sides are off by what was moved
      refine .moved (Or.inr rfl) hla hlb (Or.inl ⟨rfl, rfl, ?_, ?_⟩) ho
      · rw [ha hnb.ne, hta, hat₁.total, hE]; simp
      · rw [hn, htb, hat₂.total, List.map_cons, List.sum_cons]; omega
  | movedLeft hF half hat₁ hat₂ =>
      refine .moved (Or.inl rfl) hla hlb (Or.inr ⟨rfl, rfl, ?_, ?_⟩) ho
      · rw [hb hnb.ne.symm, htb, hat₂.total, hF, List.map_cons, List.sum_cons]
        omega
      · rw [hn, hta, hat₁.total]; simp; omega
  | merged hpair hE hF hlt hat₁ hat₂ =>
      -- one node has the children of both
      refine .merged hpair hla hlb ?_ ho hat₂ (fun hN => ?_) ?_
      · rw [hat₁.total, List.map_append, List.sum_append, ← hta, ← htb]
        rcases hpair with rfl | rfl
        · rw [hn, hb hnb.ne.symm]; omega
        · rw [hn, ha hnb.ne]; omega
      · rw [hat₁.width, List.length_append]
        exact hlen hN
      · rw [hat₁.width, List.length_append]
        exact hlt

/-- A root with one child can give way to it. -/
def RootOk (s : Store T P B) (V : List Addr) : List (List Addr) → Prop
  | [] => True
  | D :: Ds => (∀ a ∈ V, 2 ≤ s.width a) ∨ Ds = [] ∨ ∀ d ∈ D, 2 ≤ s.width d

/-- The state between two turns of the loop. -/
structure Shrinking (s : Store T P B) (Ds : List (List Addr)) (V U : List Addr) (rm : Removal)
    (cnt : Addr → Nat) (As : List (List Addr)) (size : Nat) (l : List T) : Prop where
  below : Below s V Ds l
  above : Above s U cnt As size
  occ : OccTop s As V
  root : As = [] → RootOk s V Ds
  reported : Reported s (rowKind Ds) cnt V U rm
  nodup : (rowNodes Ds U As).Nodup

theorem Reported.sublist {cnt : Addr → Nat} {V U : List Addr} {rm : Removal}
    (h : Reported s N cnt V U rm) : V.Sublist U := by
  cases h with
  | absorbed => exact List.Sublist.refl _
  | moved => exact List.Sublist.refl _
  | merged => exact List.Sublist.append_left ((List.sublist_cons_self _ _).cons_cons _) _

theorem Reported.congr {cnt : Addr → Nat} {V U : List Addr} {rm : Removal}
    (h : Reported s N cnt V U rm) (hb : ∀ x ∈ U, s'.body x = s.body x)
    (hl : ∀ x ∈ U, s'.link x = s.link x) : Reported s' N cnt V U rm := by
  have ht : ∀ x ∈ U, s'.total x = s.total x := fun x hx => total_congr (hb x hx)
  cases h with
  | absorbed hl' hn ho =>
      refine .absorbed ((hl _ (by simp)).trans hl') (by rwa [ht _ (by simp)]) fun c hc => ?_
      rw [ht c (mem_mid.mpr (Or.inr (List.mem_append.mp hc)))]
      exact ho c hc
  | moved hn ha hb' hc ho =>
      refine .moved hn ((hl _ (by simp)).trans ha) ((hl _ (by simp)).trans hb') ?_ fun c hc => ?_
      · rw [ht _ (by simp), ht _ (by simp)]; exact hc
      · rw [ht c (by grind)]; exact ho c hc
  | merged hn ha hb' hc ho he hw hlt =>
      refine .merged hn ((hl _ (by simp)).trans ha) ((hl _ (by simp)).trans hb') ?_ (fun c hc => ?_)
        (he.congr (hb _ (by simp)) fun x hx => absurd hx (by simp)) (fun hN => ?_) ?_
      · rw [ht _ (by simp)]; exact hc
      · rw [ht c (by grind)]; exact ho c hc
      · rw [width_congr (hb _ (by simp))]; exact hw hN
      · rw [width_congr (hb _ (by simp))]; exact hlt

/-- The nodes of the tree are as they were. -/
theorem Shrinking.congr {Ds As : List (List Addr)} {V U : List Addr} {rm : Removal}
    {cnt : Addr → Nat} {size : Nat} {l : List T} (h : Shrinking s Ds V U rm cnt As size l)
    (hb : ∀ x ∈ rowNodes Ds U As, s'.body x = s.body x)
    (hl : ∀ x ∈ rowNodes Ds U As, s'.link x = s.link x) :
    Shrinking s' Ds V U rm cnt As size l := by
  have hD : ∀ x ∈ Ds.flatten, x ∈ rowNodes Ds U As := fun x hx => List.mem_append_left _ hx
  have hU : ∀ x ∈ U, x ∈ rowNodes Ds U As := fun x hx =>
    List.mem_append_right _ (List.mem_append_left _ hx)
  have hA : ∀ x ∈ As.flatten, x ∈ rowNodes Ds U As := fun x hx =>
    List.mem_append_right _ (List.mem_append_right _ hx)
  have hV : ∀ x ∈ V, x ∈ rowNodes Ds U As := fun x hx => hU x (h.reported.sublist.subset hx)
  refine ⟨h.below.congr ?_ fun x hx => hl x (hD x hx),
    h.above.congr (fun x hx => hb x (hA x hx)) ?_ fun _ _ => rfl,
    h.occ.congr (fun x hx => hb x (hA x hx)) fun x hx => hb x (hV x hx), fun hAs => ?_,
    h.reported.congr (fun x hx => hb x (hU x hx)) fun x hx => hl x (hU x hx), h.nodup⟩
  · intro x hx
    rcases List.mem_append.mp hx with hx | hx
    · exact hb x (hV x hx)
    · exact hb x (hD x hx)
  · intro x hx
    rcases List.mem_append.mp hx with hx | hx
    · exact hl x (hU x hx)
    · exact hl x (hA x hx)
  · cases Ds with
    | nil => trivial
    | cons D Ds =>
        rcases h.root hAs with hr | hr | hr
        · exact Or.inl fun a ha => by rw [width_congr (hb a (hV a ha))]; exact hr a ha
        · exact Or.inr (Or.inl hr)
        · refine Or.inr (Or.inr fun d hd => ?_)
          rw [width_congr (hb d (hD d (List.mem_append_left _ hd)))]
          exact hr d hd

theorem Reported.node_mem {cnt : Addr → Nat} {V U : List Addr} {rm : Removal}
    (h : Reported s N cnt V U rm) : rm.node ∈ U := by
  cases h with
  | absorbed => exact mem_mid.mpr (Or.inl rfl)
  | moved hn =>
      rcases hn with rfl | rfl
      · simp
      · simp
  | merged hn =>
      rcases hn with rfl | rfl
      · simp
      · simp

/-- A node that the parents believe in is left, or it was emptied into its neighbour. -/
theorem Reported.mem {cnt : Addr → Nat} {V U : List Addr} {rm : Removal}
    (h : Reported s N cnt V U rm) {x : Addr} (hx : x ∈ U) : x ∈ V ∨ NodeAt s N x [] none := by
  cases h with
  | absorbed => exact Or.inl hx
  | moved => exact Or.inl hx
  | @merged L R n a b p j hn ha hb hc ho he =>
      simp only [List.mem_append, List.mem_cons] at hx ⊢
      rcases hx with hx | rfl | rfl | hx
      · exact Or.inl (Or.inl hx)
      · exact Or.inl (Or.inr (Or.inl rfl))
      · exact Or.inr he
      · exact Or.inl (Or.inr (Or.inr hx))

/-- All of them are nodes of one kind. -/
theorem Shrinking.nodeAt {Ds As : List (List Addr)} {V U : List Addr} {rm : Removal}
    {cnt : Addr → Nat} {size : Nat} {l : List T} (h : Shrinking s Ds V U rm cnt As size l)
    {x : Addr} (hx : x ∈ U) : ∃ E nx, NodeAt s (rowKind Ds) x E nx := by
  rcases h.reported.mem hx with hV | he
  · obtain ⟨C, hrow⟩ := h.below.rowAt
    obtain ⟨E, nx, hE, _⟩ := hrow.nodeAt hV
    exact ⟨E, nx, hE⟩
  · exact ⟨[], none, he⟩

/-- `m` is `n` itself, or it is next to `n` under the same parent. -/
def Beside (s : Store T P B) (n m : Addr) : Prop :=
  m = n ∨ ∃ p xs ys k, s.link n = some (some p, xs.length) ∧ p ≠ n
    ∧ s.body p = some (.internal (xs ++ (n, k) :: ys))
    ∧ (m ∈ xs.getLast?.map Prod.fst ∨ m ∈ ys.head?.map Prod.fst)

/-- It is enough that `n` has the same parent, and the parent the same children. -/
theorem Beside.congr {m : Addr} (h : Beside s' n m) (hl : s'.link n = s.link n)
    (hb : ∀ p i, s'.link n = some (some p, i) → p ≠ n → s'.body p = s.body p) : Beside s n m := by
  refine h.imp_right fun h => ?_
  obtain ⟨p, xs, ys, k, hlink, hpn, hp, hm⟩ := h
  exact ⟨p, xs, ys, k, hl ▸ hlink, hpn, (hb p _ hlink hpn).symm.trans hp, hm⟩

/-- The row of a removal before `restore`: `n` has just lost a child. -/
structure Lacking (s : Store T P B) (Ds : List (List Addr)) (L : List Addr) (n : Addr)
    (R : List Addr) (cnt : Addr → Nat) (As : List (List Addr)) (size : Nat) (l : List T) :
    Prop where
  below : Below s (L ++ n :: R) Ds l
  above : Above s (L ++ n :: R) cnt As size
  count : cnt n = s.total n + 1
  count_eq : ∀ c ∈ L ++ R, cnt c = s.total c
  /-- Nodes with siblings are occupied, but `n` may lack one child. -/
  occ : ∀ A ∈ As.head?, ∀ a ∈ A, 2 ≤ s.width a → ∀ c ∈ s.kids a,
    B / 2 ≤ s.width c + 1 ∧ (c ≠ n → B / 2 ≤ s.width c)
  root : As = [] → RootOk s (L ++ n :: R) Ds
  nodup : (rowNodes Ds (L ++ n :: R) As).Nodup

namespace Lacking

variable {Ds As : List (List Addr)} {L R : List Addr} {cnt : Addr → Nat} {size : Nat} {l : List T}

theorem absorbed (h : Lacking s Ds L n R cnt As size l) {q : Option Addr} {i : Nat}
    (hl : s.link n = some (q, i)) (ho : OccTop s As (L ++ n :: R)) :
    Shrinking s Ds (L ++ n :: R) (L ++ n :: R) ⟨n, .absorbed i⟩ cnt As size l :=
  ⟨h.below, h.above, ho, h.root, .absorbed hl h.count h.count_eq, h.nodup⟩

/-- `n` and a neighbour were rebalanced. -/
theorem paired {A L₁ R₁ : List Addr} {F G : List (Child T (rowKind Ds))} {j : Nat}
    {k : RemovalKind} (h : Lacking s Ds L n R cnt (A :: As) size l)
    (hU : L ++ n :: R = L₁ ++ a :: b :: R₁)
    (hnb : Neighbours s (rowKind Ds) p a b F G nx j)
    (hr : Rebalanced s' (rowKind Ds) a b F G nx j n k)
    (f : Frame s s' {a, b} {y | y ∈ kidsOf _ (F ++ G)}) (hB : 3 ≤ B)
    (hmin : (B / 2 ≤ F.length ∧ n = b ∧ B / 2 ≤ G.length + 1)
      ∨ (B / 2 ≤ G.length ∧ n = a ∧ B / 2 ≤ F.length + 1))
    (hwide : ∀ c ∈ kidsOf _ (F ++ G), B / 2 ≤ s.width c)
    (hF : rowKind Ds = .internal → F ≠ [])
    (hlen : rowKind Ds = .internal → 2 ≤ F.length + G.length) :
    Shrinking s' Ds (L₁ ++ a :: (k.stays b ++ R₁)) (L₁ ++ a :: b :: R₁) ⟨n, k⟩ cnt (A :: As) size
      l := by
  have hbelow := h.below
  have habove := h.above
  have hnd := h.nodup
  have hcount : ∀ c ∈ L₁ ++ a :: b :: R₁, c ≠ n → cnt c = s.total c := by
    intro c hc hcn
    rw [← hU] at hc
    exact h.count_eq c (List.mem_append.mpr ((mem_mid.mp hc).resolve_left hcn))
  rw [hU] at hbelow habove hnd
  have hndrow : (rowNodes Ds (L₁ ++ a :: b :: R₁) []).Nodup := by
    refine hnd.sublist ?_
    exact List.Sublist.append_left (List.Sublist.append_left (List.nil_sublist _) _) _
  have hdisj := List.nodup_append.mp hnd
  have hdisjU := List.nodup_append.mp hdisj.2.1
  have hab : a ∈ L₁ ++ a :: b :: R₁ ∧ b ∈ L₁ ++ a :: b :: R₁ := by simp
  -- the rows above are not touched
  have hAs : ∀ x ∈ (A :: As).flatten, s'.body x = s.body x := by
    intro x hx
    refine f.body x fun hmem => ?_
    rcases hmem with rfl | rfl
    · exact hdisjU.2.2 x hab.1 x hx rfl
    · exact hdisjU.2.2 x hab.2 x hx rfl
  have hkids : ∀ x ∈ kidsOf _ (F ++ G), x ∈ Ds.flatten := by
    intro x hx
    rw [kidsOf_append, List.mem_append, ← hnb.at₁.kids, ← hnb.at₂.kids] at hx
    rcases hx with hx | hx
    · exact hbelow.kids_mem hab.1 hx
    · exact hbelow.kids_mem hab.2 hx
  have hlinkU : ∀ x ∈ (L₁ ++ a :: b :: R₁) ++ (A :: As).flatten, s'.link x = s.link x :=
    fun x hx => f.link x fun hmem => hdisj.2.2 x (hkids x hmem) x hx rfl
  -- the nodes beside the two
  have hside : ∀ c, c ∈ L₁ ++ R₁ → c ≠ n ∧ s'.body c = s.body c := by
    intro c hc
    have hrow := hdisjU.1
    simp only [List.nodup_append, List.nodup_cons, List.mem_cons] at hrow
    have hca : c ≠ a ∧ c ≠ b := by
      rw [List.mem_append] at hc
      constructor
      · rintro rfl; grind
      · rintro rfl; grind
    refine ⟨?_, f.body c fun hmem => hmem.elim hca.1 hca.2⟩
    rcases hmin with ⟨_, rfl, _⟩ | ⟨_, rfl, _⟩
    · exact hca.2
    · exact hca.1
  have hmem : ∀ c ∈ L₁ ++ R₁, c ∈ L₁ ++ a :: b :: R₁ := fun c hc =>
    mem_mid.mpr (Or.inr ((List.mem_append.mp hc).imp_right (List.mem_cons_of_mem _)))
  have hother : ∀ c ∈ L₁ ++ R₁, cnt c = s'.total c := fun c hc => by
    rw [hcount c (hmem c hc) (hside c hc).1, total_congr (hside c hc).2]
  refine ⟨Below.rebalanced hbelow hnb hr f hndrow hB hF hwide,
    habove.congr hAs hlinkU fun _ _ => rfl,
    ?_, (fun hA => nomatch hA), ?_, hnd⟩
  · intro A' hA' x hx hw c hc hcV
    cases hA'
    have hb := hAs x (List.mem_append_left _ hx)
    rw [kids_congr hb] at hc
    rw [width_congr hb] at hw
    rcases mem_mid.mp hcV with rfl | hcs
    · exact hr.half hmin hnb.ne c List.mem_cons_self
    · have hcs' : c ∈ k.stays b ∨ c ∈ L₁ ++ R₁ := by
        rw [List.mem_append] at hcs ⊢; tauto
      rcases hcs' with hcs | hcs
      · exact hr.half hmin hnb.ne c (List.mem_cons_of_mem _ hcs)
      · rw [width_congr (hside c hcs).2]
        exact (h.occ A rfl x hx hw c hc).2 (hside c hcs).1
  · exact hr.reported hnb f h.count (hcount a hab.1) (hcount b hab.2) hother hlen

end Lacking

/--
The node `n` of the row under its parent `p`: its children are `E`, and its siblings are the
last of `xs` and the first of `ys`.
-/
structure Under (s : Store T P B) (Ds : List (List Addr)) (L : List Addr) (n : Addr)
    (R : List Addr) (cnt : Addr → Nat) (A : List Addr) (As : List (List Addr)) (size : Nat)
    (l : List T) (p : Addr) (D₁ xs ys D₂ : List (Addr × Nat))
    (C₁ E C₂ : List (Child T (rowKind Ds))) : Prop where
  lacking : Lacking s Ds L n R cnt (A :: As) size l
  upper : p ∈ A
  left : counted cnt L = D₁ ++ xs
  right : counted cnt R = ys ++ D₂
  parent : NodeAt s .internal p (xs ++ (n, cnt n) :: ys) none
  row₁ : RowAt s (rowKind Ds) L C₁ (some n)
  node : NodeAt s (rowKind Ds) n E (R.head?.or none)
  row₂ : RowAt s (rowKind Ds) R C₂ none

namespace Under

variable {Ds As : List (List Addr)} {L R A : List Addr} {cnt : Addr → Nat} {size : Nat}
  {l : List T} {D₁ xs ys D₂ : List (Addr × Nat)} {C₁ E C₂ : List (Child T (rowKind Ds))}

theorem link (u : Under s Ds L n R cnt A As size l p D₁ xs ys D₂ C₁ E C₂) :
    s.link n = some (some p, xs.length) := by
  have := (Adopted.append.mp u.parent.2).2.1
  rwa [Nat.zero_add] at this

theorem width (u : Under s Ds L n R cnt A As size l p D₁ xs ys D₂ C₁ E C₂) :
    s.width p = xs.length + 1 + ys.length := by
  rw [u.parent.width, List.length_append, List.length_cons]
  omega

/-- The parent has two children if `n` has a sibling. -/
theorem two_of_sibling (u : Under s Ds L n R cnt A As size l p D₁ xs ys D₂ C₁ E C₂)
    (hsib : xs ≠ [] ∨ ys ≠ []) : 2 ≤ s.width p := by
  rw [u.width]
  rcases hsib with h | h
  · have := List.length_pos_iff.mpr h
    omega
  · have := List.length_pos_iff.mpr h
    omega

theorem parent_ne (u : Under s Ds L n R cnt A As size l p D₁ xs ys D₂ C₁ E C₂) :
    p ≠ n ∧ ∀ x, x ∈ L ∨ x ∈ R → x ≠ n ∧ p ≠ x := by
  have hnd := u.lacking.nodup
  have hp := u.upper
  simp only [rowNodes, List.flatten_cons, List.nodup_append, List.nodup_cons, List.mem_cons,
    List.mem_append] at hnd
  constructor
  · grind
  · grind

/-- It has enough children, or no sibling to get one from. -/
theorem occ (u : Under s Ds L n R cnt A As size l p D₁ xs ys D₂ C₁ E C₂)
    (h : B / 2 ≤ E.length ∨ xs = [] ∧ ys = []) : OccTop s (A :: As) (L ++ n :: R) := by
  intro A' hA' x hx hw c hc _
  cases hA'
  obtain ⟨_, hne⟩ := u.lacking.occ _ rfl x hx hw c hc
  by_cases hcn : c = n
  · subst hcn
    obtain ⟨G, nx, hG, _⟩ := u.lacking.above.1.row.nodeAt hx
    rw [hG.kids] at hc
    obtain ⟨i, hi⟩ := hG.link_of_mem hc
    rw [u.link, Option.some.injEq, Prod.mk.injEq, Option.some.injEq] at hi
    obtain ⟨rfl, _⟩ := hi
    rcases h with hge | ⟨hx, hy⟩
    · rw [u.node.width]
      exact hge
    · rw [u.width, hx, hy] at hw
      exact absurd hw (by simp)
  · exact hne hcn

theorem half_self (u : Under s Ds L n R cnt A As size l p D₁ xs ys D₂ C₁ E C₂)
    (hw : 2 ≤ s.width p) : B / 2 ≤ E.length + 1 := by
  rw [← u.node.width]
  refine (u.lacking.occ _ rfl p u.upper hw n ?_).1
  rw [u.parent.kids]
  simp [kidsOf]

theorem half_sibling (u : Under s Ds L n R cnt A As size l p D₁ xs ys D₂ C₁ E C₂)
    (hw : 2 ≤ s.width p) {c : Addr} {G : List (Child T (rowKind Ds))} {nx : Option Addr}
    (hG : NodeAt s (rowKind Ds) c G nx) (hcn : c ≠ n)
    (hc : c ∈ (xs ++ (n, cnt n) :: ys).map Prod.fst) : B / 2 ≤ G.length := by
  rw [← hG.width]
  refine (u.lacking.occ _ rfl p u.upper hw c ?_).2 hcn
  rw [u.parent.kids]
  exact hc

/-- The sibling to the left is the last node of the row to the left of `n`. -/
theorem left_sibling (u : Under s Ds L n R cnt A As size l p D₁ xs ys D₂ C₁ E C₂) {c : Addr}
    (hc : c ∈ xs.getLast?.map Prod.fst) : ∃ L' F nx j, L = L' ++ [c]
      ∧ Neighbours s (rowKind Ds) p c n F E nx j ∧ B / 2 ≤ F.length := by
  obtain ⟨⟨c, m⟩, he, rfl⟩ := Option.map_eq_some_iff.mp hc
  obtain ⟨xs, rfl⟩ := List.getLast?_eq_some_iff.mp he
  have hL : L = (D₁ ++ xs).map Prod.fst ++ [c] := by
    rw [← map_fst_counted cnt L, u.left]
    simp
  have hcL : c ∈ L := by
    rw [hL]
    simp
  obtain ⟨hpn, hne⟩ := u.parent_ne
  have h₁ := u.row₁
  rw [hL] at h₁
  obtain ⟨_, _, rfl, _, F, _, rfl, hF, _⟩ := RowAt.append.mp h₁
  have hl₁ := (Adopted.append.mp (Adopted.append.mp u.parent.2).1).2.1
  have hl₂ := u.link
  rw [Nat.zero_add] at hl₁
  rw [List.length_append, List.length_singleton] at hl₂
  have hw := u.two_of_sibling (Or.inl (by simp))
  exact ⟨_, F, _, _, hL,
    ⟨(hne c (Or.inl hcL)).1, hF, u.node, hl₁, hl₂, (hne c (Or.inl hcL)).2, hpn⟩,
    u.half_sibling hw hF (hne c (Or.inl hcL)).1 (by simp)⟩

/-- The sibling to the right is the first node of the row to the right of `n`. -/
theorem right_sibling (u : Under s Ds L n R cnt A As size l p D₁ xs ys D₂ C₁ E C₂) {c : Addr}
    (hc : c ∈ ys.head?.map Prod.fst) : ∃ R' G nx j, R = c :: R'
      ∧ Neighbours s (rowKind Ds) p n c E G nx j ∧ B / 2 ≤ G.length := by
  obtain ⟨⟨c, m⟩, he, rfl⟩ := Option.map_eq_some_iff.mp hc
  obtain ⟨ys, rfl⟩ := List.head?_eq_some_iff.mp he
  have hR : R = c :: (ys ++ D₂).map Prod.fst := by
    rw [← map_fst_counted cnt R, u.right]
    simp
  have hcR : c ∈ R := by
    rw [hR]
    exact List.mem_cons_self
  obtain ⟨hpn, hne⟩ := u.parent_ne
  have hn := u.node
  have h₂ := u.row₂
  rw [hR] at h₂ hn
  obtain ⟨G, _, rfl, hG, _⟩ := h₂
  have hl₂ := (Adopted.append.mp u.parent.2).2.2.1
  rw [Nat.zero_add] at hl₂
  have hw := u.two_of_sibling (Or.inr (by simp))
  exact ⟨_, G, _, _, hR, ⟨(hne c (Or.inr hcR)).1.symm, hn, hG, u.link, hl₂, hpn,
    (hne c (Or.inr hcR)).2⟩, u.half_sibling hw hG (hne c (Or.inr hcR)).1 (by simp)⟩

theorem inner (u : Under s Ds L n R cnt A As size l p D₁ xs ys D₂ C₁ E C₂)
    (hN : rowKind Ds = .internal) : E ≠ [] := by
  intro he
  refine u.lacking.below.kids_ne hN (mem_mid.mpr (Or.inl rfl)) ?_
  rw [u.node.kids, he, kidsOf_nil]

/-- An internal node that lacks a child is not empty, so a sibling of it has two. -/
theorem two_le_half (u : Under s Ds L n R cnt A As size l p D₁ xs ys D₂ C₁ E C₂)
    (hlt : E.length < B / 2) (hN : rowKind Ds = .internal) : 2 ≤ B / 2 := by
  have := List.length_pos_iff.mpr (u.inner hN)
  omega

/-- The children of a sibling have siblings themselves. -/
theorem kids_half (u : Under s Ds L n R cnt A As size l p D₁ xs ys D₂ C₁ E C₂)
    (hlt : E.length < B / 2) {c : Addr} {G : List (Child T (rowKind Ds))} {nx : Option Addr}
    (hG : NodeAt s (rowKind Ds) c G nx) (hc : c ∈ L ++ n :: R) (hmin : B / 2 ≤ G.length) :
    ∀ x ∈ kidsOf _ G, B / 2 ≤ s.width x := by
  intro x hx
  have htwo := u.two_le_half hlt
  rw [← hG.kids] at hx
  refine u.lacking.below.kids_wide hc ?_ hx
  rw [hG.width]
  cases Ds with
  | nil => exact absurd (u.lacking.below.kids_mem hc hx) List.not_mem_nil
  | cons D Ds => exact Nat.le_trans (htwo rfl) hmin

/-- `n` and a sibling were rebalanced. -/
theorem helped (u : Under s Ds L n R cnt A As size l p D₁ xs ys D₂ C₁ E C₂) (hB : 3 ≤ B)
    (hlt : E.length < B / 2) (hwide : ∀ c ∈ s.kids n, B / 2 ≤ s.width c) {k : RemovalKind}
    (h : Helped s s' (rowKind Ds) p n E (xs.getLast?.map Prod.fst) (ys.head?.map Prod.fst) k) :
    (∃ V, Shrinking s' Ds V (L ++ n :: R) ⟨n, k⟩ cnt (A :: As) size l)
      ∧ ∃ m ∈ L ++ n :: R, Beside s n m
        ∧ Frame s s' {n, m} {x | x ∈ s.kids n ∨ x ∈ s.kids m} := by
  obtain ⟨a, b, F, G, nx, j, hnb, hr, hf, hcase⟩ := h
  have hself : ∀ x ∈ kidsOf _ E, B / 2 ≤ s.width x := fun x hx =>
    hwide x (by rw [u.node.kids]; exact hx)
  have hf' : Frame s s' {a, b} {x | x ∈ s.kids a ∨ x ∈ s.kids b} := by
    refine hf.mono (Set.Subset.refl _) fun x hx => ?_
    rw [Set.mem_ofPred_eq, kidsOf_append, List.mem_append, ← hnb.at₁.kids, ← hnb.at₂.kids] at hx
    exact hx
  have hbeside : ∀ {m : Addr}, m ∈ xs.getLast?.map Prod.fst ∨ m ∈ ys.head?.map Prod.fst →
      Beside s n m := fun hm => Or.inr ⟨p, xs, ys, _, u.link, u.parent_ne.1, u.parent.1, hm⟩
  have htwo := u.two_le_half hlt
  rcases hcase with ⟨ha, rfl, rfl, hmin⟩ | ⟨rfl, hb, rfl, hmin⟩
  · have hw : 2 ≤ s.width p := u.two_of_sibling (Or.inl fun hx => by simp [hx] at ha)
    have hm := hbeside (Or.inl ha)
    obtain ⟨L', _, _, _, rfl, _⟩ := u.left_sibling ha
    have hU : L' ++ [a] ++ b :: R = L' ++ a :: b :: R := by simp
    refine ⟨⟨L' ++ a :: (k.stays b ++ R), ?_⟩, a, by simp, hm, hf'.mono ?_ ?_⟩
    · rw [hU]
      refine u.lacking.paired hU hnb hr hf hB (Or.inl ⟨hmin, rfl, u.half_self hw⟩) ?_ ?_ ?_
      · intro x hx
        rw [kidsOf_append, List.mem_append] at hx
        exact hx.elim (u.kids_half hlt hnb.at₁ (by simp) hmin x) (hself x)
      · intro hN
        have := htwo hN
        exact List.length_pos_iff.mp (by omega)
      · intro hN
        have := htwo hN
        omega
    · intro x hx
      exact hx.symm
    · intro x hx
      exact hx.symm
  · have hw : 2 ≤ s.width p := u.two_of_sibling (Or.inr fun hy => by simp [hy] at hb)
    have hm := hbeside (Or.inr hb)
    obtain ⟨R', _, _, _, rfl, _⟩ := u.right_sibling hb
    refine ⟨⟨L ++ a :: (k.stays b ++ R'), ?_⟩, b, by simp, hm, hf'⟩
    refine u.lacking.paired rfl hnb hr hf hB (Or.inr ⟨hmin, rfl, u.half_self hw⟩) ?_ u.inner ?_
    · intro x hx
      rw [kidsOf_append, List.mem_append] at hx
      exact hx.elim (hself x) (u.kids_half hlt hnb.at₂ (by simp) hmin x)
    · intro hN
      have := htwo hN
      omega

/-- `restore` on a node with a parent. -/
theorem restore_spec (u : Under s Ds L n R cnt A As size l p D₁ xs ys D₂ C₁ E C₂) (hB : 3 ≤ B)
    (hwide : ∀ c ∈ s.kids n, B / 2 ≤ s.width c) :
    Returns (restore (rowKind Ds) n) s (fun k s' =>
      (∃ V, Shrinking s' Ds V (L ++ n :: R) ⟨n, k⟩ cnt (A :: As) size l)
      ∧ (∃ m ∈ L ++ n :: R, Beside s n m
        ∧ Frame s s' {n, m} {x | x ∈ s.kids n ∨ x ∈ s.kids m})
      ∧ (B / 2 ≤ s.width n → s' = s)) := by
  have hmem : n ∈ L ++ n :: R := mem_mid.mpr (Or.inl rfl)
  unfold restore
  simp only [returns_bind, NodeRef.siblings_spec u.node u.link u.parent.1,
    Node.length_spec u.node]
  split
  · rename_i hcond
    simp only [returns_bind, Node.index_spec u.node u.link, returns_pure]
    refine ⟨⟨_, u.lacking.absorbed u.link (u.occ ?_)⟩, ⟨n, hmem, Or.inl rfl, Frame.refl s _ _⟩,
      fun _ => trivial⟩
    refine hcond.imp_right fun hno => ?_
    simpa using hno
  · rename_i hcond
    rw [not_or, Nat.not_le, not_not] at hcond
    obtain ⟨hlt, hsib⟩ := hcond
    obtain ⟨kd, htag⟩ := u.lacking.below.kids_tag
    refine (rebalance_spec (k := kd) (p := p) (E := E) hlt u.inner ?_ ?_ ?_ ?_).mono ?_
    · intro c hc
      obtain ⟨_, F, nx, j, _, hnb, hmin⟩ := u.left_sibling hc
      exact ⟨F, nx, j, hnb, hmin⟩
    · intro c hc
      obtain ⟨_, G, nx, j, _, hnb, hmin⟩ := u.right_sibling hc
      exact ⟨G, nx, j, hnb, hmin⟩
    · rw [Bool.or_eq_true, Option.isSome_iff_ne_none, Option.isSome_iff_ne_none] at hsib
      exact hsib
    · intro c hc
      refine htag c ?_
      rcases hc with rfl | hc | hc
      · exact hmem
      · obtain ⟨L', _, _, _, rfl, _⟩ := u.left_sibling hc
        simp
      · obtain ⟨R', _, _, _, rfl, _⟩ := u.right_sibling hc
        simp
    · intro k s' h'
      obtain ⟨hs, hm⟩ := u.helped hB hlt hwide h'
      refine ⟨hs, hm, fun hge => ?_⟩
      rw [u.node.width] at hge
      exact absurd hge (Nat.not_le.mpr hlt)

end Under

/-- The children of `n` had a sibling, the one that is gone, so they are at least half full. -/
theorem Lacking.restore_spec {Ds As : List (List Addr)} {L R : List Addr} {cnt : Addr → Nat}
    {size : Nat} {l : List T} (h : Lacking s Ds L n R cnt As size l) (hB : 3 ≤ B)
    (hwide : ∀ c ∈ s.kids n, B / 2 ≤ s.width c) :
    Returns (restore (rowKind Ds) n) s (fun k s' =>
      (∃ V, Shrinking s' Ds V (L ++ n :: R) ⟨n, k⟩ cnt As size l)
      ∧ (∃ m ∈ L ++ n :: R, Beside s n m
        ∧ Frame s s' {n, m} {x | x ∈ s.kids n ∨ x ∈ s.kids m})
      ∧ (B / 2 ≤ s.width n → s' = s)) := by
  have hmem : n ∈ L ++ n :: R := mem_mid.mpr (Or.inl rfl)
  obtain ⟨C, hrow⟩ := h.below.rowAt
  obtain ⟨C₁, E, C₂, rfl, h₁, hn, h₂⟩ := RowAt.mid.mp hrow
  cases As with
  | nil =>
      -- the root has no sibling
      obtain ⟨_, _, hl, _⟩ := Above.root h.above
      unfold restore
      simp only [returns_bind, NodeRef.siblings_of_root hn hl, Node.length_spec hn]
      rw [if_pos (Or.inr (by simp))]
      simp only [returns_bind, Node.index_spec hn hl, returns_pure]
      refine ⟨⟨_, h.absorbed hl ?_⟩, ⟨n, hmem, Or.inl rfl, Frame.refl s _ _⟩, fun _ => trivial⟩
      intro A hA
      cases hA
  | cons A As =>
      obtain ⟨A₁, p, A₂, D₁, xs, ys, D₂, rfl, hL, hR, _, hp, _⟩ := h.above.1.parent
      have u : Under s Ds L n R cnt (A₁ ++ p :: A₂) As size l p D₁ xs ys D₂ C₁ E C₂ :=
        ⟨h, mem_mid.mpr (Or.inl rfl), hL, hR, hp, h₁, hn, h₂⟩
      exact u.restore_spec hB hwide

/-! ## The parent hears of it -/

/-- The upper row seen around the common parent of two neighbours. -/
theorem parent_pair {A L R : List Addr} {cnt : Addr → Nat} {j : Nat}
    (h : Edge s A (L ++ a :: b :: R) cnt) (hnd : A.Nodup) (ha : s.link a = some (some p, j))
    (hb : s.link b = some (some p, j + 1)) :
    ∃ A₁ A₂ D₁ xs ys D₂, A = A₁ ++ p :: A₂ ∧ counted cnt L = D₁ ++ xs
      ∧ counted cnt R = ys ++ D₂ ∧ RowAt s .internal A₁ D₁ (some p)
      ∧ NodeAt s .internal p (xs ++ (a, cnt a) :: (b, cnt b) :: ys) none
      ∧ RowAt s .internal A₂ D₂ none ∧ xs.length = j := by
  obtain ⟨A₁, q, A₂, D₁, xs, ys, D₂, rfl, hL, hR, h₁, hq, h₂⟩ := h.parent
  have hlink := (Adopted.append.mp hq.2).2.1
  rw [ha, Option.some.injEq, Prod.mk.injEq, Option.some.injEq, Nat.zero_add] at hlink
  obtain ⟨rfl, rfl⟩ := hlink
  cases ys with
  | nil =>
      -- then `b` would be a child of a node further right
      rw [List.nil_append, counted_cons] at hR
      obtain ⟨r, hr, i, hi⟩ := h₂.link_of_mem (x := b) (by rw [← hR]; exact List.mem_cons_self)
      rw [hb, Option.some.injEq, Prod.mk.injEq, Option.some.injEq] at hi
      rw [List.nodup_middle, List.nodup_cons, List.mem_append] at hnd
      exact absurd (Or.inr (hi.1 ▸ hr)) hnd.1
  | cons y ys =>
      rw [counted_cons, List.cons_append, List.cons.injEq] at hR
      obtain ⟨rfl, hR⟩ := hR
      exact ⟨A₁, A₂, D₁, xs, ys, D₂, rfl, hL, hR, h₁, hq, h₂, rfl⟩

/--
The parent `p` was repaired: it had the children of `E₀`, and has those of `E` with one item
less below them, all of `E₀` or all but one.
-/
structure Patched (s s' : Store T P B) (Ds As : List (List Addr)) (V U A₁ : List Addr) (p : Addr)
    (A₂ : List Addr) (rm : Removal) (cnt : Addr → Nat) (size : Nat) (l : List T)
    (D₁ E₀ E D₂ : List (Addr × Nat)) : Prop where
  before : Shrinking s Ds V U rm cnt ((A₁ ++ p :: A₂) :: As) size l
  row_eq : U = D₁.map Prod.fst ++ (E₀.map Prod.fst ++ D₂.map Prod.fst)
  counted_eq : counted s.total V = D₁ ++ (E ++ D₂)
  row₁ : RowAt s .internal A₁ D₁ (some p)
  row₂ : RowAt s .internal A₂ D₂ none
  parent : NodeAt s .internal p E₀ none
  after : NodeAt s' .internal p E none
  sublist : (E.map Prod.fst).Sublist (E₀.map Prod.fst)
  short : E₀.length ≤ E.length + 1
  nonempty : E ≠ []
  total : s.total p = s'.total p + 1
  frame : Frame s s' {p} {x | x ∈ E₀.map Prod.fst}

namespace Patched

variable {Ds As : List (List Addr)} {V U A₁ A₂ : List Addr} {rm : Removal} {cnt : Addr → Nat}
  {size : Nat} {l : List T} {D₁ D₂ E₀ E : List (Addr × Nat)}

theorem upper (_ : Patched s s' Ds As V U A₁ p A₂ rm cnt size l D₁ E₀ E D₂) :
    p ∈ A₁ ++ p :: A₂ := mem_mid.mpr (Or.inl rfl)

theorem length_le (h : Patched s s' Ds As V U A₁ p A₂ rm cnt size l D₁ E₀ E D₂) :
    E.length ≤ E₀.length := by
  have := h.sublist.length_le
  rwa [List.length_map, List.length_map] at this

/-- The row that is left, by parents. -/
theorem left_eq (h : Patched s s' Ds As V U A₁ p A₂ rm cnt size l D₁ E₀ E D₂) :
    V = D₁.map Prod.fst ++ (E.map Prod.fst ++ D₂.map Prod.fst) := by
  rw [← map_fst_counted s.total V, h.counted_eq, List.map_append, List.map_append]

theorem left_sublist (h : Patched s s' Ds As V U A₁ p A₂ rm cnt size l D₁ E₀ E D₂) :
    V.Sublist U := by
  rw [h.left_eq, h.row_eq]
  exact List.Sublist.append_left (h.sublist.append_right _) _

/-! The rows hold no node twice, so what is written and relinked lies in none of the others. -/

theorem disjoint (h : Patched s s' Ds As V U A₁ p A₂ rm cnt size l D₁ E₀ E D₂) :
    (∀ x ∈ Ds.flatten, x ∉ U ∧ x ∉ A₁ ++ p :: A₂) ∧ U.Nodup
      ∧ (∀ x ∈ U, x ∉ A₁ ++ p :: A₂ ∧ x ∉ As.flatten) ∧ (A₁ ++ p :: A₂).Nodup
      ∧ ∀ x ∈ A₁ ++ p :: A₂, x ∉ As.flatten := by
  have hnd := h.before.nodup
  rw [rowNodes, List.flatten_cons] at hnd
  obtain ⟨_, hrest, hlow⟩ := List.nodup_append.mp hnd
  obtain ⟨hU, hA, hmid⟩ := List.nodup_append.mp hrest
  obtain ⟨hA, _, htop⟩ := List.nodup_append.mp hA
  refine ⟨fun x hx => ⟨fun hxU => ?_, fun hxA => ?_⟩, hU,
    fun x hx => ⟨fun hxA => ?_, fun hxA => ?_⟩, hA, fun x hx hxA => htop x hx x hxA rfl⟩
  · exact hlow x hx x (List.mem_append_left _ hxU) rfl
  · exact hlow x hx x (List.mem_append_right _ (List.mem_append_left _ hxA)) rfl
  · exact hmid x hx x (List.mem_append_left _ hxA) rfl
  · exact hmid x hx x (List.mem_append_right _ hxA) rfl

theorem body_low (h : Patched s s' Ds As V U A₁ p A₂ rm cnt size l D₁ E₀ E D₂) :
    ∀ x ∈ V ++ Ds.flatten, s'.body x = s.body x := by
  intro x hx
  refine h.frame.body x fun he => ?_
  obtain rfl := Set.mem_singleton_iff.mp he
  rcases List.mem_append.mp hx with hx | hx
  · exact (h.disjoint.2.2.1 x (h.left_sublist.subset hx)).1 h.upper
  · exact (h.disjoint.1 x hx).2 h.upper

theorem body_high (h : Patched s s' Ds As V U A₁ p A₂ rm cnt size l D₁ E₀ E D₂) :
    ∀ x ∈ As.flatten, s'.body x = s.body x := by
  intro x hx
  refine h.frame.body x fun he => ?_
  obtain rfl := Set.mem_singleton_iff.mp he
  exact h.disjoint.2.2.2.2 x h.upper hx

theorem body_side (h : Patched s s' Ds As V U A₁ p A₂ rm cnt size l D₁ E₀ E D₂) :
    ∀ x, x ∈ A₁ ∨ x ∈ A₂ → s'.body x = s.body x := by
  intro x hx
  refine h.frame.body x fun he => ?_
  obtain rfl := Set.mem_singleton_iff.mp he
  have hnd := h.disjoint.2.2.2.1
  rw [List.nodup_middle, List.nodup_cons, List.mem_append] at hnd
  exact hnd.1 hx

theorem link_of_not_mem (h : Patched s s' Ds As V U A₁ p A₂ rm cnt size l D₁ E₀ E D₂)
    (hx : x ∉ U) : s'.link x = s.link x := by
  refine h.frame.link x fun hmem => hx ?_
  rw [h.row_eq]
  exact List.mem_append_right _ (List.mem_append_left _ hmem)

theorem link_low (h : Patched s s' Ds As V U A₁ p A₂ rm cnt size l D₁ E₀ E D₂) :
    ∀ x ∈ Ds.flatten, s'.link x = s.link x := fun x hx =>
  h.link_of_not_mem (h.disjoint.1 x hx).1

theorem link_high (h : Patched s s' Ds As V U A₁ p A₂ rm cnt size l D₁ E₀ E D₂) :
    ∀ x ∈ (A₁ ++ p :: A₂) ++ As.flatten, s'.link x = s.link x := by
  intro x hx
  refine h.link_of_not_mem fun hxU => ?_
  rcases List.mem_append.mp hx with hx | hx
  · exact (h.disjoint.2.2.1 x hxU).1 hx
  · exact (h.disjoint.2.2.1 x hxU).2 hx

/-- The children of the other parents keep their links. -/
theorem link_side (h : Patched s s' Ds As V U A₁ p A₂ rm cnt size l D₁ E₀ E D₂) :
    ∀ x ∈ D₁.map Prod.fst ++ D₂.map Prod.fst, s'.link x = s.link x := by
  intro x hx
  refine h.frame.link x fun hmem => ?_
  rw [Set.mem_ofPred_eq] at hmem
  have hnd := h.disjoint.2.1
  rw [h.row_eq, List.nodup_append] at hnd
  obtain ⟨_, hrest, hleft⟩ := hnd
  rcases List.mem_append.mp hx with hx | hx
  · exact hleft x hx x (List.mem_append_left _ hmem) rfl
  · exact (List.nodup_append.mp hrest).2.2 x hmem x hx rfl

/-! The row of the parent, after the repair. -/

theorem row (h : Patched s s' Ds As V U A₁ p A₂ rm cnt size l D₁ E₀ E D₂) :
    RowAt s' .internal (A₁ ++ p :: A₂) (counted s'.total V) none := by
  rw [counted_congr fun x hx => total_congr (h.body_low x (List.mem_append_left _ hx)),
    h.counted_eq]
  refine RowAt.splice (M := []) (h.row₁.congr (fun x hx => ?_) fun x hx => ?_)
    ⟨E, [], (List.append_nil E).symm, h.after, rfl⟩
    (h.row₂.congr (fun x hx => ?_) fun x hx => ?_)
  · exact h.body_side x (Or.inl hx)
  · exact h.link_side x (List.mem_append_left _ hx)
  · exact h.body_side x (Or.inr hx)
  · exact h.link_side x (List.mem_append_right _ hx)

theorem inner (h : Patched s s' Ds As V U A₁ p A₂ rm cnt size l D₁ E₀ E D₂) :
    ∀ a ∈ A₁ ++ p :: A₂, s'.kids a ≠ [] := by
  intro x hx
  rcases mem_mid.mp hx with rfl | hxs
  · rw [h.after.kids]
    simpa [kidsOf] using h.nonempty
  · rw [kids_congr (h.body_side x hxs)]
    exact h.before.above.1.inner x hx

/-- The nodes of the removal's row are as occupied as they were. -/
theorem occ (h : Patched s s' Ds As V U A₁ p A₂ rm cnt size l D₁ E₀ E D₂) :
    Occ s' (A₁ ++ p :: A₂) V := by
  intro x hx hwx c hc hcV
  rw [width_congr (h.body_low c (List.mem_append_left _ hcV))]
  rcases mem_mid.mp hx with rfl | hxs
  · rw [h.after.kids] at hc
    rw [h.after.width] at hwx
    refine h.before.occ _ rfl x hx ?_ c ?_ hcV
    · rw [h.parent.width]
      exact Nat.le_trans hwx h.length_le
    · rw [h.parent.kids]
      exact h.sublist.subset hc
  · rw [kids_congr (h.body_side x hxs)] at hc
    rw [width_congr (h.body_side x hxs)] at hwx
    exact h.before.occ _ rfl x hx hwx c hc hcV

/-- A node with siblings in the parent's row was well occupied, before the repair. -/
theorem occ_above (h : Patched s s' Ds As V U A₁ p A₂ rm cnt size l D₁ E₀ E D₂) {A : List Addr}
    {c : Addr} (hA : A ∈ As.head?) (hx : x ∈ A) (hwx : 2 ≤ s'.width x) (hc : c ∈ s'.kids x) :
    c ∈ A₁ ++ p :: A₂ ∧ B / 2 ≤ s.width c := by
  obtain ⟨_, _, ho, habove⟩ := h.before.above
  have hb := h.body_high x (List.mem_flatten.mpr ⟨A, List.mem_of_mem_head? hA, hx⟩)
  rw [kids_congr hb] at hc
  rw [width_congr hb] at hwx
  have hcA := Above.kids_mem habove hA hx hc
  exact ⟨hcA, ho A hA x hx hwx c hc hcA⟩

/-- A root among the row of the parent: the others kept their children. -/
theorem root_ok (h : Patched s s' Ds As V U A₁ p A₂ rm cnt size l D₁ E₀ E D₂) (hAs : As = [])
    (hroot : 2 ≤ E.length ∨ Ds = [] ∨ ∀ d ∈ V, 2 ≤ s.width d) :
    RootOk s' (A₁ ++ p :: A₂) (V :: Ds) := by
  rcases hroot with hE | hDs | hV
  · refine Or.inl fun x hx => ?_
    rcases mem_mid.mp hx with rfl | hxs
    · rwa [h.after.width]
    · rw [width_congr (h.body_side x hxs)]
      exact h.before.above.2.1 hAs x hx
  · exact Or.inr (Or.inl hDs)
  · refine Or.inr (Or.inr fun d hd => ?_)
    rw [width_congr (h.body_low d (List.mem_append_left _ hd))]
    exact hV d hd

/-- The parent may be a child short, and the row above it has not heard. -/
theorem lacking (h : Patched s s' Ds As V U A₁ p A₂ rm cnt size l D₁ E₀ E D₂)
    (hroot : As = [] → 2 ≤ E.length ∨ Ds = [] ∨ ∀ d ∈ V, 2 ≤ s.width d) :
    Lacking s' (V :: Ds) A₁ p A₂ s.total As size l where
  below := ⟨⟨h.row, h.inner⟩, h.occ, h.before.below.congr h.body_low h.link_low⟩
  above := h.before.above.2.2.2.congr h.body_high h.link_high fun _ _ => rfl
  count := h.total
  count_eq c hc := (total_congr (h.body_side c (List.mem_append.mp hc))).symm
  occ A hA x hx hwx c hc := by
    obtain ⟨hcA, hold⟩ := h.occ_above hA hx hwx hc
    rcases mem_mid.mp hcA with rfl | hcs
    · rw [h.after.width]
      rw [h.parent.width] at hold
      exact ⟨Nat.le_trans hold h.short, fun hcp => absurd rfl hcp⟩
    · rw [width_congr (h.body_side c hcs)]
      exact ⟨Nat.le_succ_of_le hold, fun _ => hold⟩
  root hAs := h.root_ok hAs (hroot hAs)
  nodup := by
    refine (rowNodes_perm Ds V _ As).nodup_iff.mp (h.before.nodup.sublist ?_)
    exact List.Sublist.append_left (h.left_sublist.append_right _) _

/-- Where the parent kept its children, it is as occupied as it was. -/
theorem occTop (h : Patched s s' Ds As V U A₁ p A₂ rm cnt size l D₁ E₀ E D₂)
    (hsame : E₀.length = E.length) : OccTop s' As (A₁ ++ p :: A₂) := by
  intro A hA x hx hwx c hc _
  obtain ⟨hcA, hold⟩ := h.occ_above hA hx hwx hc
  rcases mem_mid.mp hcA with rfl | hcs
  · rw [h.after.width, ← hsame, ← h.parent.width]
    exact hold
  · rw [width_congr (h.body_side c hcs)]
    exact hold

end Patched

/-- What one turn does to the children of the parent `p`, which are nodes of kind `N`. -/
inductive Repaired (s s' : Store T P B) (N : NodeKind) (p : Addr) : Prop where
  /-- They are the same, with other counts. -/
  | kept {E₀ E : List (Addr × Nat)} (hp : s.body p = some (.internal E₀))
      (hp' : s'.body p = some (.internal E)) (hk : E.map Prod.fst = E₀.map Prod.fst)
      (hsum : (E₀.map Prod.snd).sum = (E.map Prod.snd).sum + 1)
      (same : ∀ x, x ≠ p → s'.body x = s.body x) (link : ∀ x, s'.link x = s.link x)
  /-- The emptied `b` was taken out, and if enough are left that was all. -/
  | took {xs ys : List (Addr × Nat)} {a b : Addr} {m₁ m₂ : Nat} {C : List (Child T N)}
      {nx : Option Addr} (hp : s.body p = some (.internal (xs ++ (a, m₁) :: (b, m₂) :: ys)))
      (hc : m₁ + m₂ = s.total a + 1) (ha : NodeAt s N a C nx) (hlt : C.length < 2 * (B / 2))
      (hb : NodeAt s N b [] none) (gone : s'.body b = none)
      (rest : B / 2 ≤ xs.length + 1 + ys.length →
        s'.body p = some (.internal (xs ++ (a, s.total a) :: ys))
          ∧ (∀ x, x ≠ p → x ≠ b → s'.body x = s.body x)
          ∧ ∀ x, x ∉ s.kids p → s'.link x = s.link x) : Repaired s s' N p

/--
What one turn writes on its way from `n` up to `p`: the parent, one node beside it at most,
and a child of the parent that was empty, as the turn before had left it.
-/
structure Climbed (s s' : Store T P B) (n p : Addr) : Prop where
  parent : ∃ i, s.link n = some (some p, i)
  repaired : ∃ N E nx, NodeAt s N n E nx ∧ Repaired s s' N p
  wrote : ∃ m, Beside s p m
    ∧ (∀ x, x ≠ p → x ≠ m →
      Same s s' x ∨ x ∈ s.kids p ∧ 2 ≤ s.width p ∧ s.width x = 0)
    ∧ ∀ x, x ∉ s.kids p → x ∉ s.kids m → s'.link x = s.link x

/-- A child of `p` was taken out, then `p` was restored, and the child destroyed. -/
theorem Climbed.of_frames {s₁ s₂ : Store T P B} {m : Addr} {i : Nat}
    (hl : s.link n = some (some p, i))
    (hrep : ∃ N E nx, NodeAt (T := T) s N n E nx ∧ Repaired s s' N p)
    (f₁ : Frame s s₁ {p} {x | x ∈ s.kids p}) (hp : p ∉ s.kids p) (hsub : s₁.kids p ⊆ s.kids p)
    (hm : Beside s₁ p m) (f₂ : Frame s₁ s₂ {p, m} {x | x ∈ s₁.kids p ∨ x ∈ s₁.kids m})
    (hfr : Store.Freed s₂ s' b) (hb : b ∈ s.kids p) (hwp : 2 ≤ s.width p) (hwb : s.width b = 0) :
    Climbed s s' n p := by
  refine ⟨⟨i, hl⟩, hrep, m, hm.congr (f₁.link p hp) fun x _ _ hx => f₁.body x hx, ?_, ?_⟩
  · intro x hxp hxm
    by_cases hxb : x = b
    · subst hxb
      exact Or.inr ⟨hb, hwp, hwb⟩
    · have hx₂ : x ∉ ({p, m} : Set Addr) := fun hx => hx.elim hxp hxm
      exact Or.inl (((Same.of_frame f₁ hxp).trans (.of_frame f₂ hx₂)).trans
        (.of_read (hfr.other x hxb)))
  · intro x hxp hxm
    have hxb : x ≠ b := fun he => hxp (he ▸ hb)
    rw [hfr.link hxb, f₂.link x, f₁.link x hxp]
    intro hx
    rcases hx with hx | hx
    · exact hxp (hsub hx)
    · by_cases hmp : m = p
      · exact hxp (hsub (hmp ▸ hx))
      · rw [kids_congr (f₁.body m hmp)] at hx
        exact hxm hx

/-- The result of one turn: the root is reached, or the removal is one row higher. -/
def Turned (s s' : Store T P B) (Ds : List (List Addr)) (V U : List Addr) (rm : Removal)
    (As : List (List Addr)) (size : Nat) (l : List T) : RemovalResult → Prop
  | .done root => As = [] ∧ s' = s ∧ root = rm.node ∧ V = [root] ∧ U = [root]
      ∧ s.link root = some (none, 0)
  | .removal rm' => ∃ A As' V', As = A :: As' ∧ Shrinking s' (V :: Ds) V' A rm' s.total As' size l
      ∧ Effect s s' {x | x ∈ rowNodes Ds U As} {x | x ∈ rowNodes (V :: Ds) A As'}
      ∧ Climbed s s' rm.node rm'.node

theorem frame_once {s'' : Store T P B} (f : Frame s s' {p} ∅) (f' : Frame s' s'' {p} ∅) :
    Frame s s'' {p} ∅ := (f.trans f').mono (by simp) (by simp)

/-- `Merged`: the count of the emptied node is added to that of its neighbour. -/
theorem repair_merged {xs ys : List (Addr × Nat)} {m₁ m₂ k i : Nat}
    (hl : s.link n = some (some p, i))
    (hp : s.body p = some (.internal (xs ++ (a, m₁) :: (b, m₂) :: ys))) (hc : m₁ + m₂ = k + 1) :
    Returns (repairSizes ⟨n, .merged (xs.length + 1) xs.length⟩) s (fun r s' =>
      r = some (p, some (xs.length + 1))
      ∧ s'.body p = some (.internal (xs ++ (a, k) :: (b, 0) :: ys)) ∧ Frame s s' {p} ∅) := by
  unfold repairSizes
  simp only [returns_bind, returns_parent hl, returns_orFault, returns_pure]
  refine ⟨p, rfl, ?_⟩
  have hright : ∀ m k, xs ++ (a, m) :: (b, k) :: ys = (xs ++ [(a, m)]) ++ (b, k) :: ys := by simp
  have h₁ := InternalNode.replaceSize_at (i := xs.length + 1) 0 hp (hright m₁ m₂) (by simp)
  refine h₁.mono ?_
  intro m₂ s₁ h₁
  obtain ⟨rfl, hp₁, f₁⟩ := h₁
  have h₂ := InternalNode.addSize_at m₂ hp₁ (hright m₁ 0).symm rfl
  refine h₂.mono ?_
  intro _ s₂ h₂
  obtain ⟨hp₂, f₂⟩ := h₂
  refine (InternalNode.subSize_at hp₂ rfl rfl (by omega)).mono ?_
  intro _ s₃ h₃
  obtain ⟨hp₃, f₃⟩ := h₃
  rw [show m₁ + m₂ - 1 = k by omega] at hp₃
  exact ⟨rfl, hp₃, frame_once (frame_once f₁ f₂) f₃⟩

/-- `Moved` to the right: from the count of `a` to that of `b`. -/
theorem repair_movedRight {xs ys : List (Addr × Nat)} {m₁ m₂ k₁ k₂ size i : Nat}
    (hl : s.link n = some (some p, i))
    (hp : s.body p = some (.internal (xs ++ (a, m₁) :: (b, m₂) :: ys))) (h₁ : m₁ = k₁ + size)
    (h₂ : m₂ + size = k₂ + 1) :
    Returns (repairSizes ⟨n, .moved xs.length (xs.length + 1) size⟩) s (fun r s' =>
      r = some (p, none)
      ∧ s'.body p = some (.internal (xs ++ (a, k₁) :: (b, k₂) :: ys)) ∧ Frame s s' {p} ∅) := by
  unfold repairSizes
  simp only [returns_bind, returns_parent hl, returns_orFault, returns_pure]
  refine ⟨p, rfl, (InternalNode.subSize_at hp rfl rfl (by omega)).mono ?_⟩
  intro _ s₁ h₁
  obtain ⟨hp₁, f₁⟩ := h₁
  have hright : ∀ m k, xs ++ (a, m) :: (b, k) :: ys = (xs ++ [(a, m)]) ++ (b, k) :: ys := by simp
  have hadd := InternalNode.addSize_at (i := xs.length + 1) size hp₁ (hright _ m₂) (by simp)
  refine hadd.mono ?_
  intro _ s₂ h₂
  obtain ⟨hp₂, f₂⟩ := h₂
  refine (InternalNode.subSize_at hp₂ rfl (by simp) (by omega)).mono ?_
  intro _ s₃ h₃
  obtain ⟨hp₃, f₃⟩ := h₃
  rw [show m₁ - size = k₁ by omega, show m₂ + size - 1 = k₂ by omega, List.append_assoc] at hp₃
  exact ⟨rfl, hp₃, frame_once (frame_once f₁ f₂) f₃⟩

/-- `Moved` to the left: from the count of `b` to that of `a`. -/
theorem repair_movedLeft {xs ys : List (Addr × Nat)} {m₁ m₂ k₁ k₂ size i : Nat}
    (hl : s.link n = some (some p, i))
    (hp : s.body p = some (.internal (xs ++ (a, m₁) :: (b, m₂) :: ys))) (h₁ : m₂ = k₂ + size)
    (h₂ : m₁ + size = k₁ + 1) :
    Returns (repairSizes ⟨n, .moved (xs.length + 1) xs.length size⟩) s (fun r s' =>
      r = some (p, none)
      ∧ s'.body p = some (.internal (xs ++ (a, k₁) :: (b, k₂) :: ys)) ∧ Frame s s' {p} ∅) := by
  unfold repairSizes
  simp only [returns_bind, returns_parent hl, returns_orFault, returns_pure]
  have hright : ∀ m k, xs ++ (a, m) :: (b, k) :: ys = (xs ++ [(a, m)]) ++ (b, k) :: ys := by simp
  have hsub := InternalNode.subSize_at (i := xs.length + 1) (k := size) hp (hright m₁ m₂) (by simp)
    (by omega)
  refine ⟨p, rfl, hsub.mono ?_⟩
  intro _ s₁ h₁
  obtain ⟨hp₁, f₁⟩ := h₁
  have hadd := InternalNode.addSize_at size hp₁ (hright m₁ _).symm rfl
  refine hadd.mono ?_
  intro _ s₂ h₂
  obtain ⟨hp₂, f₂⟩ := h₂
  refine (InternalNode.subSize_at hp₂ rfl rfl (by omega)).mono ?_
  intro _ s₃ h₃
  obtain ⟨hp₃, f₃⟩ := h₃
  rw [show m₂ - size = k₂ by omega, show m₁ + size - 1 = k₁ by omega] at hp₃
  exact ⟨rfl, hp₃, frame_once (frame_once f₁ f₂) f₃⟩

/-- `Absorbed`: one item less below `n`. -/
theorem repair_absorbed {xs ys : List (Addr × Nat)} {k : Nat}
    (hl : s.link n = some (some p, xs.length))
    (hp : s.body p = some (.internal (xs ++ (n, k + 1) :: ys))) :
    Returns (repairSizes ⟨n, .absorbed xs.length⟩) s (fun r s' => r = some (p, none)
      ∧ s'.body p = some (.internal (xs ++ (n, k) :: ys)) ∧ Frame s s' {p} ∅) := by
  unfold repairSizes
  simp only [returns_bind, returns_parent hl, returns_pure]
  refine (InternalNode.subSize_at hp rfl rfl (Nat.le_add_left 1 k)).mono ?_
  intro _ s₁ h₁
  obtain ⟨hp₁, f₁⟩ := h₁
  exact ⟨trivial, hp₁, f₁⟩

theorem counted_sides {L R : List Addr} {cnt cnt' : Addr → Nat}
    (h : ∀ c ∈ L ++ R, cnt c = cnt' c) :
    counted cnt' L = counted cnt L ∧ counted cnt' R = counted cnt R :=
  ⟨counted_congr fun x hx => (h x (List.mem_append_left _ hx)).symm,
    counted_congr fun x hx => (h x (List.mem_append_right _ hx)).symm⟩

section Turn

variable {Ds As : List (List Addr)} {V U A₁ A₂ : List Addr} {rm : Removal} {cnt : Addr → Nat}
  {size : Nat} {l : List T} {D₁ D₂ E₀ E : List (Addr × Nat)}

/-- The parent has the right counts again and no child less: it is the next to be absorbed. -/
theorem Shrinking.climb (h : Shrinking s Ds V V rm cnt ((A₁ ++ p :: A₂) :: As) size l)
    (hV₀ : counted cnt V = D₁ ++ (E₀ ++ D₂)) (hV : counted s.total V = D₁ ++ (E ++ D₂))
    (h₁ : RowAt s .internal A₁ D₁ (some p)) (h₂ : RowAt s .internal A₂ D₂ none)
    (hp : NodeAt s .internal p E₀ none) (hp' : s'.body p = some (.internal E))
    (hk : E.map Prod.fst = E₀.map Prod.fst)
    (hsum : (E₀.map Prod.snd).sum = (E.map Prod.snd).sum + 1) (f : Frame s s' {p} ∅) {i : Nat}
    (hln : s.link rm.node = some (some p, i)) :
    Returns
      (do return .removal ⟨p, .absorbed (← Node.index .internal p)⟩ : Exec T P B RemovalResult)
      s' (fun r s'' => Turned s s'' Ds V V rm ((A₁ ++ p :: A₂) :: As) size l r) := by
  have hat := hp.recount hp' hk f
  have htotal : s.total p = s'.total p + 1 := by
    rw [hp.total, hat.total]
    exact hsum
  have hlen : E₀.length = E.length := by
    have := congrArg List.length hk
    rw [List.length_map, List.length_map] at this
    exact this.symm
  have hpA : p ∈ A₁ ++ p :: A₂ := mem_mid.mpr (Or.inl rfl)
  have hVk : V = D₁.map Prod.fst ++ (E₀.map Prod.fst ++ D₂.map Prod.fst) := by
    rw [← map_fst_counted cnt V, hV₀]; simp
  have hne : E ≠ [] := by
    intro hnil
    refine h.above.1.inner p hpA ?_
    rw [hp.kids]
    show E₀.map Prod.fst = []
    rw [← hk, hnil]; rfl
  -- the parent keeps its children, and loses an item
  have patched : Patched s s' Ds As V V A₁ p A₂ rm cnt size l D₁ E₀ E D₂ :=
    ⟨h, hVk, hV, h₁, h₂, hp, hat, hk ▸ List.Sublist.refl _, by omega, hne, htotal,
      f.mono (Set.Subset.refl _) (Set.empty_subset _)⟩
  have hlack := patched.lacking fun hAs => Or.inl (by
    have := h.above.2.1 hAs p hpA
    rwa [hp.width, hlen] at this)
  obtain ⟨q, i, hl⟩ := hlack.above.link_of_mem hpA
  rw [returns_bind, Node.index_spec hat hl, returns_pure]
  have hclimbed : Climbed s s' rm.node p := by
    obtain ⟨G, nx, hG⟩ := h.nodeAt h.reported.node_mem
    have hlink : ∀ x, s'.link x = s.link x := fun x => f.link x (Set.notMem_empty x)
    exact ⟨⟨_, hln⟩, ⟨_, G, nx, hG, .kept hp.1 hp' hk hsum (fun x hx => f.body x hx) hlink⟩, p,
      Or.inl rfl, fun x hx _ => Or.inl (.of_frame f hx), fun x _ _ => hlink x⟩
  refine ⟨_, As, _, rfl, hlack.absorbed hl (patched.occTop hlen), ?_, hclimbed⟩
  have hF : {x | x ∈ rowNodes (V :: Ds) (A₁ ++ p :: A₂) As}
      = {x | x ∈ rowNodes Ds V ((A₁ ++ p :: A₂) :: As)} :=
    Set.ext fun x => (rowNodes_perm Ds V _ As).mem_iff.symm
  rw [hF]
  refine .of_frame f ?_ (Set.empty_subset _)
  intro x hx
  obtain rfl := Set.mem_singleton_iff.mp hx
  refine List.mem_append_right _ (List.mem_append_right _ ?_)
  rw [List.flatten_cons]
  exact List.mem_append_left _ hpA

/--
The emptied node `b` was taken out of its parent `p`: `a` is the neighbour that has its
children, and `s₁` is the store with `p` a child short.
-/
structure Taken (s s₁ : Store T P B) (Ds : List (List Addr)) (L : List Addr) (a b : Addr)
    (R : List Addr) (rm : Removal) (cnt : Addr → Nat) (A₁ : List Addr) (p : Addr) (A₂ : List Addr)
    (As : List (List Addr)) (size : Nat) (l : List T) (D₁ xs ys D₂ : List (Addr × Nat)) :
    Prop where
  before : Shrinking s Ds (L ++ a :: R) (L ++ a :: b :: R) rm cnt ((A₁ ++ p :: A₂) :: As) size l
  left : counted cnt L = D₁ ++ xs
  right : counted cnt R = ys ++ D₂
  row₁ : RowAt s .internal A₁ D₁ (some p)
  parent : NodeAt s .internal p (xs ++ (a, cnt a) :: (b, cnt b) :: ys) none
  row₂ : RowAt s .internal A₂ D₂ none
  count : cnt a + cnt b = s.total a + 1
  count_eq : ∀ c ∈ L ++ R, cnt c = s.total c
  emptied : NodeAt s (rowKind Ds) b [] none
  two : rowKind Ds = .internal → 2 ≤ s.width a
  few : s.width a < 2 * (B / 2)
  after : NodeAt s₁ .internal p (xs ++ (a, s.total a) :: ys) none
  frame : Frame s s₁ {p} {x | x ∈ s.kids p}

namespace Taken

variable {s₁ : Store T P B} {L R : List Addr} {xs ys : List (Addr × Nat)}

theorem upper (_ : Taken s s₁ Ds L a b R rm cnt A₁ p A₂ As size l D₁ xs ys D₂) :
    p ∈ A₁ ++ p :: A₂ := mem_mid.mpr (Or.inl rfl)

theorem wide (t : Taken s s₁ Ds L a b R rm cnt A₁ p A₂ As size l D₁ xs ys D₂) :
    2 ≤ s.width p := by
  rw [t.parent.width, List.length_append, List.length_cons, List.length_cons]
  omega

/-- The row before, by parents. -/
theorem row_eq (t : Taken s s₁ Ds L a b R rm cnt A₁ p A₂ As size l D₁ xs ys D₂) :
    L ++ a :: b :: R = D₁.map Prod.fst
      ++ ((xs ++ (a, cnt a) :: (b, cnt b) :: ys).map Prod.fst ++ D₂.map Prod.fst) := by
  rw [← map_fst_counted cnt L, ← map_fst_counted cnt R, t.left, t.right]
  simp

/-- The row that is left, by parents, with the counts that its parents have now. -/
theorem counted_eq (t : Taken s s₁ Ds L a b R rm cnt A₁ p A₂ As size l D₁ xs ys D₂) :
    counted s.total (L ++ a :: R) = D₁ ++ (xs ++ (a, s.total a) :: ys ++ D₂) := by
  obtain ⟨hcL, hcR⟩ := counted_sides t.count_eq
  rw [counted_append, counted_cons, hcL, hcR, t.left, t.right]
  simp

theorem sublist (_ : Taken s s₁ Ds L a b R rm cnt A₁ p A₂ As size l D₁ xs ys D₂) :
    ((xs ++ (a, s.total a) :: ys).map Prod.fst).Sublist
      ((xs ++ (a, cnt a) :: (b, cnt b) :: ys).map Prod.fst) := by
  rw [List.map_append, List.map_append]
  exact List.Sublist.append_left ((List.sublist_cons_self _ _).cons_cons _) _

theorem patched (t : Taken s s₁ Ds L a b R rm cnt A₁ p A₂ As size l D₁ xs ys D₂) :
    Patched s s₁ Ds As (L ++ a :: R) (L ++ a :: b :: R) A₁ p A₂ rm cnt size l D₁
      (xs ++ (a, cnt a) :: (b, cnt b) :: ys) (xs ++ (a, s.total a) :: ys) D₂ := by
  have hf := t.frame
  rw [t.parent.kids] at hf
  refine ⟨t.before, t.row_eq, t.counted_eq, t.row₁, t.row₂, t.parent, t.after, t.sublist, ?_,
    by simp, ?_, hf⟩
  · simp only [List.length_append, List.length_cons]
    omega
  · have hcount := t.count
    rw [t.parent.total, t.after.total]
    simp [Node.itemSize]
    omega

/-- The children of the parent are in the row. -/
theorem kids_mem (t : Taken s s₁ Ds L a b R rm cnt A₁ p A₂ As size l D₁ xs ys D₂) {x : Addr}
    (hx : x ∈ s.kids p) : x ∈ L ++ a :: b :: R := by
  rw [t.parent.kids] at hx
  rw [t.row_eq]
  exact List.mem_append_right _ (List.mem_append_left _ hx)

/-- No node of the row is in the row above it. -/
theorem ne_upper (t : Taken s s₁ Ds L a b R rm cnt A₁ p A₂ As size l D₁ xs ys D₂) {x m : Addr}
    (hx : x ∈ L ++ a :: b :: R) (hm : m ∈ A₁ ++ p :: A₂) : x ≠ m := by
  rintro rfl
  exact (t.patched.disjoint.2.2.1 x hx).1 hm

theorem not_mem (t : Taken s s₁ Ds L a b R rm cnt A₁ p A₂ As size l D₁ xs ys D₂) :
    b ∉ L ++ a :: R := by
  have hnd := t.before.nodup
  simp only [rowNodes, List.nodup_append, List.nodup_cons, List.mem_cons] at hnd
  grind

/-- A root that is left with one child is left with one that has two. -/
theorem root_ok (t : Taken s s₁ Ds L a b R rm cnt A₁ p A₂ As size l D₁ xs ys D₂) (hAs : As = []) :
    2 ≤ (xs ++ (a, s.total a) :: ys).length ∨ Ds = [] ∨ ∀ d ∈ L ++ a :: R, 2 ≤ s.width d := by
  subst hAs
  cases Ds with
  | nil => exact Or.inr (Or.inl rfl)
  | cons D Ds =>
      by_cases hlen : 2 ≤ (xs ++ (a, s.total a) :: ys).length
      · exact Or.inl hlen
      · -- without another child there is no other node in the row
        rw [List.length_append, List.length_cons] at hlen
        obtain rfl := List.length_eq_zero_iff.mp (show xs.length = 0 by omega)
        obtain rfl := List.length_eq_zero_iff.mp (show ys.length = 0 by omega)
        obtain ⟨rfl, rfl, _, _⟩ := Above.root t.before.above.2.2.2
        obtain rfl : D₁ = [] := t.row₁
        obtain rfl : D₂ = [] := t.row₂
        refine Or.inr (Or.inr fun d hd => ?_)
        have hLR : L = [] ∧ R = [] :=
          ⟨List.map_eq_nil_iff.mp t.left, List.map_eq_nil_iff.mp t.right⟩
        rw [hLR.1, hLR.2, List.nil_append, List.mem_singleton] at hd
        exact hd ▸ t.two rfl

theorem lacking (t : Taken s s₁ Ds L a b R rm cnt A₁ p A₂ As size l D₁ xs ys D₂) :
    Lacking s₁ ((L ++ a :: R) :: Ds) A₁ p A₂ s.total As size l :=
  t.patched.lacking t.root_ok

/-- The children that are left had a sibling, the one that is gone. -/
theorem kids_half (t : Taken s s₁ Ds L a b R rm cnt A₁ p A₂ As size l D₁ xs ys D₂) :
    ∀ c ∈ s₁.kids p, B / 2 ≤ s₁.width c := by
  intro c hc
  rw [t.after.kids] at hc
  have hcp : c ∈ s.kids p := by
    rw [t.parent.kids]
    exact t.sublist.subset hc
  have hcV : c ∈ L ++ a :: R := by
    rw [← map_fst_counted s.total (L ++ a :: R), t.counted_eq, List.map_append, List.map_append]
    exact List.mem_append_right _ (List.mem_append_left _ hc)
  rw [width_congr (t.frame.body c (t.ne_upper (t.kids_mem hcp) t.upper))]
  exact t.before.occ _ rfl p t.upper t.wide c hcp hcV

/-- The nodes that are left are those of the rows but the emptied one. -/
theorem mem_rows (t : Taken s s₁ Ds L a b R rm cnt A₁ p A₂ As size l D₁ xs ys D₂) (x : Addr) :
    x ∈ rowNodes ((L ++ a :: R) :: Ds) (A₁ ++ p :: A₂) As
      ↔ x ∈ rowNodes Ds (L ++ a :: b :: R) ((A₁ ++ p :: A₂) :: As) ∧ x ≠ b := by
  rw [← (rowNodes_perm Ds (L ++ a :: R) (A₁ ++ p :: A₂) As).mem_iff]
  have hbV := t.not_mem
  have hbU : b ∈ L ++ a :: b :: R := by simp
  have hdisj := List.nodup_append.mp (t.before.nodup)
  have hdisjU := List.nodup_append.mp hdisj.2.1
  have hbD : b ∉ Ds.flatten := fun hb => hdisj.2.2 b hb b (List.mem_append_left _ hbU) rfl
  have hbAs : b ∉ ((A₁ ++ p :: A₂) :: As).flatten := fun hb => hdisjU.2.2 b hbU b hb rfl
  simp only [rowNodes, List.mem_append, List.mem_cons] at hbV hbD hbAs ⊢
  grind

theorem repaired (t : Taken s s₁ Ds L a b R rm cnt A₁ p A₂ As size l D₁ xs ys D₂)
    {s₂ : Store T P B} (hrest : B / 2 ≤ s₁.width p → s₂ = s₁) (hfr : Store.Freed s₂ s' b) :
    Repaired s s' (rowKind Ds) p := by
  obtain ⟨C, hrow⟩ := t.before.below.rowAt
  obtain ⟨E, nx, hE, _⟩ := hrow.nodeAt (mem_mid.mpr (Or.inl (rfl : a = a)))
  have hfew := t.few
  rw [hE.width] at hfew
  have hpb : p ≠ b := (t.ne_upper (by simp) t.upper).symm
  refine .took t.parent.1 t.count hE hfew t.emptied ?_ fun hlen => ?_
  · rw [Store.body, hfr.self]; rfl
  · -- with enough children `restore` does nothing
    have hw : s₁.width p = xs.length + 1 + ys.length := by
      rw [t.after.width, List.length_append, List.length_cons]
      omega
    obtain rfl := hrest (hw ▸ hlen)
    refine ⟨(hfr.body hpb).trans t.after.1, fun x hxp hxb =>
      (hfr.body hxb).trans (t.frame.body x hxp), fun x hx => ?_⟩
    rw [hfr.link, t.frame.link x hx]
    rintro rfl
    refine hx ?_
    rw [t.parent.kids]
    simp [kidsOf]

/-- The parent was restored, and the emptied node destroyed. -/
theorem turned (t : Taken s s₁ Ds L a b R rm cnt A₁ p A₂ As size l D₁ xs ys D₂)
    {s₂ : Store T P B} {m : Addr} {k : RemovalKind} {V : List Addr}
    (hn : ∃ i, s.link rm.node = some (some p, i))
    (hs : Shrinking s₂ ((L ++ a :: R) :: Ds) V (A₁ ++ p :: A₂) ⟨p, k⟩ s.total As size l)
    (hm : m ∈ A₁ ++ p :: A₂) (hbeside : Beside s₁ p m)
    (f : Frame s₁ s₂ {p, m} {x | x ∈ s₁.kids p ∨ x ∈ s₁.kids m})
    (hrest : B / 2 ≤ s₁.width p → s₂ = s₁) (hfr : Store.Freed s₂ s' b) :
    Turned s s' Ds (L ++ a :: R) (L ++ a :: b :: R) rm ((A₁ ++ p :: A₂) :: As) size l
      (.removal ⟨p, k⟩) := by
  have hrows := t.mem_rows
  have hbU : b ∈ L ++ a :: b :: R := by simp
  have hF : ∀ x, x ∈ L ++ a :: b :: R ∨ x ∈ A₁ ++ p :: A₂ →
      x ∈ rowNodes Ds (L ++ a :: b :: R) ((A₁ ++ p :: A₂) :: As) := by
    intro x hx
    rw [rowNodes, List.flatten_cons]
    refine List.mem_append_right _ (List.mem_append.mpr (hx.imp_right fun hx => ?_))
    exact List.mem_append_left _ hx
  have hkids : ∀ x, x ∈ s₁.kids p ∨ x ∈ s₁.kids m → x ∈ L ++ a :: R := by
    intro x hx
    rw [← t.lacking.below.1.kids, List.mem_flatMap]
    exact hx.elim (fun hx => ⟨p, t.upper, hx⟩) fun hx => ⟨m, hm, hx⟩
  obtain ⟨i, hl⟩ := hn
  have hclimbed : Climbed s s' rm.node p := by
    obtain ⟨G, nx, hG⟩ := t.before.nodeAt t.before.reported.node_mem
    refine .of_frames hl ⟨_, G, nx, hG, t.repaired hrest hfr⟩ t.frame ?_ ?_ hbeside f hfr ?_ t.wide
      t.emptied.width
    · intro hpk
      exact t.ne_upper (t.kids_mem hpk) t.upper rfl
    · rw [t.parent.kids, t.after.kids]
      exact t.sublist.subset
    · rw [t.parent.kids]
      simp [kidsOf]
  refine ⟨_, As, V, rfl, hs.congr (fun x hx => hfr.body ((hrows x).mp hx).2)
    (fun x hx => hfr.link ((hrows x).mp hx).2), ?_, hclimbed⟩
  refine ((Effect.of_frame t.frame ?_ ?_).trans (.of_frame f ?_ ?_)).trans
    (.of_freed hfr (hF b (Or.inl hbU)) (Set.ext hrows))
  · intro x hx
    exact hF x (Or.inr (Set.mem_singleton_iff.mp hx ▸ t.upper))
  · intro x hx
    exact hF x (Or.inl (t.kids_mem hx))
  · intro x hx
    refine hF x (Or.inr ?_)
    rcases hx with rfl | rfl
    · exact t.upper
    · exact hm
  · intro x hx
    exact hF x (Or.inl (t.before.reported.sublist.subset (hkids x hx)))

end Taken

/--
The emptied node `b` is taken out of its parent and destroyed, and the parent, which has
a child less, is restored.
-/
theorem Shrinking.take_out {A L R : List Addr} {j : Nat}
    (h : Shrinking s Ds (L ++ a :: R) (L ++ a :: b :: R) ⟨n, .merged (j + 1) j⟩ cnt (A :: As)
      size l)
    (hB : 3 ≤ B) (hn : n = a ∨ n = b) (ha : s.link a = some (some p, j))
    (hb : s.link b = some (some p, j + 1)) (hc : cnt a + cnt b = s.total a + 1)
    (ho : ∀ c ∈ L ++ R, cnt c = s.total c) (he : NodeAt s (rowKind Ds) b [] none)
    (hw : rowKind Ds = .internal → 2 ≤ s.width a) (hlt : s.width a < 2 * (B / 2)) :
    Returns (handleRemoval ⟨n, .merged (j + 1) j⟩) s (fun r s' =>
      Turned s s' Ds (L ++ a :: R) (L ++ a :: b :: R) ⟨n, .merged (j + 1) j⟩ (A :: As) size l
        r) := by
  have hndA : A.Nodup := by
    have hnd := h.nodup
    rw [rowNodes, List.flatten_cons] at hnd
    exact (List.nodup_append.mp (List.nodup_append.mp (List.nodup_append.mp hnd).2.1).2.1).1
  obtain ⟨A₁, A₂, D₁, xs, ys, D₂, rfl, hL, hR, h₁, hp, h₂, rfl⟩ := parent_pair h.above.1 hndA ha hb
  have hln : ∃ i, s.link n = some (some p, i) := by
    rcases hn with rfl | rfl
    · exact ⟨_, ha⟩
    · exact ⟨_, hb⟩
  have hln' := hln
  obtain ⟨i, hln'⟩ := hln'
  rw [handleRemoval, returns_bind]
  refine (repair_merged hln' hp.1 hc).mono ?_
  intro _ s₁ h₁'
  obtain ⟨rfl, hp₁, f₁⟩ := h₁'
  have hat₁ := hp.recount hp₁ (by simp) f₁
  have hat₁' : NodeAt s₁ .internal p (xs ++ [(a, s.total a)] ++ (b, 0) :: ys) none := by
    simpa using hat₁
  have hrm := Node.simpleRemove_spec (N := .internal) hat₁'
  rw [List.length_append, List.length_singleton] at hrm
  unfold removeOnce
  simp only [returns_bind]
  refine hrm.mono ?_
  intro _ s₂ h₂'
  obtain ⟨rfl, hat₂, hbl, f₂⟩ := h₂'
  rw [List.append_assoc, List.singleton_append] at hat₂
  have hf : Frame s s₂ {p} {x | x ∈ s.kids p} := by
    rw [hp.kids]
    refine (f₁.trans f₂).mono (by simp) fun x hx => ?_
    rcases hx with hx | hx
    · exact absurd hx (Set.notMem_empty x)
    · have hx' : x ∈ b :: ys.map Prod.fst := hx
      rw [Set.mem_ofPred_eq, kidsOf, List.map_append, List.map_cons]
      exact List.mem_append_right _ (List.mem_cons_of_mem _ hx')
  have t : Taken s s₂ Ds L a b R ⟨n, .merged (xs.length + 1) xs.length⟩ cnt A₁ p A₂ As size l D₁ xs
      ys D₂ := ⟨h, hL, hR, h₁, hp, h₂, hc, ho, he, hw, hlt, hat₂, hf⟩
  refine (t.lacking.restore_spec hB t.kids_half).mono ?_
  intro k s₃ h₃
  obtain ⟨⟨V, hs⟩, ⟨m, hm, hbeside, f₃⟩, hrest⟩ := h₃
  -- the emptied node is as it was, and has no parent any more
  have hbU : b ∈ L ++ a :: b :: R := by simp
  have hbm : ∀ m ∈ A₁ ++ p :: A₂, b ≠ m := fun m hm => t.ne_upper hbU hm
  have hbb : NodeAt s₃ (rowKind Ds) b [] none := by
    refine (he.frame hf (hbm p t.upper) (by simp)).frame f₃ ?_ (by simp)
    exact fun hmem => hmem.elim (hbm p t.upper) (hbm m hm)
  have hbl₃ : s₃.link b = some (none, 0) := by
    refine (f₃.link b fun hx => t.not_mem ?_).trans hbl
    rw [← t.lacking.below.1.kids, List.mem_flatMap]
    exact hx.elim (fun hx => ⟨p, t.upper, hx⟩) fun hx => ⟨m, hm, hx⟩
  simp only [returns_pure, returns_get]
  refine (NodeRef.destroyPrefix_spec hbb hbl₃ _).mono ?_
  intro _ s₄ hfr
  exact t.turned hln hs hm hbeside f₃ hrest hfr

theorem handleRemoval_spec (h : Shrinking s Ds V U rm cnt As size l) (hB : 3 ≤ B) :
    Returns (handleRemoval rm) s (fun r s' => Turned s s' Ds V U rm As size l r) := by
  have hrep := h.reported
  cases As with
  | nil =>
      -- the root has no sibling
      obtain ⟨r, hr, _, _⟩ := h.above
      cases hrep with
      | moved => exact absurd (congrArg List.length hr) (by simp; omega)
      | merged => exact absurd (congrArg List.length hr) (by simp; omega)
      | @absorbed L R n q i hl hn ho =>
          obtain ⟨rfl, rfl, hlink, _⟩ := Above.root h.above
          unfold handleRemoval
          simp only [repairSizes, returns_bind, returns_parent hlink, returns_pure]
          exact ⟨rfl, rfl, rfl, rfl, rfl, hlink⟩
  | cons A As =>
      have hnd := h.nodup
      rw [rowNodes, List.flatten_cons] at hnd
      have hA := (List.nodup_append.mp (List.nodup_append.mp (List.nodup_append.mp hnd).2.1).2.1).1
      cases hrep with
      | @absorbed L R n q i hl hn ho =>
          obtain ⟨A₁, p, A₂, D₁, xs, ys, D₂, rfl, hL, hR, h₁, hp, h₂⟩ := h.above.1.parent
          have hlp := (Adopted.append.mp hp.2).2.1
          rw [Nat.zero_add] at hlp
          obtain ⟨rfl, rfl⟩ : q = some p ∧ i = xs.length := by
            rw [hlp, Option.some.injEq, Prod.mk.injEq] at hl
            exact ⟨hl.1.symm, hl.2.symm⟩
          obtain ⟨hcL, hcR⟩ := counted_sides ho
          rw [hn] at hp
          rw [handleRemoval, returns_bind]
          refine (repair_absorbed hl hp.1).mono ?_
          intro _ s₁ h₁
          obtain ⟨rfl, hp₁, f₁⟩ := h₁
          refine h.climb (E := xs ++ (n, s.total n) :: ys) ?_ ?_ h₁ h₂ hp hp₁ (by simp) ?_ f₁ hlp
          · rw [counted_append, counted_cons, hL, hR, hn]; simp
          · rw [counted_append, counted_cons, hcL, hcR, hL, hR]; simp
          · simp only [List.map_append, List.map_cons, List.sum_append, List.sum_cons]; omega
      | @moved L R n a b p j src dest k hn ha hb hc ho =>
          obtain ⟨A₁, A₂, D₁, xs, ys, D₂, rfl, hL, hR, h₁, hp, h₂, rfl⟩ :=
            parent_pair h.above.1 hA ha hb
          obtain ⟨hcL, hcR⟩ := counted_sides ho
          have hln : ∃ i, s.link n = some (some p, i) := by
            rcases hn with rfl | rfl
            · exact ⟨_, ha⟩
            · exact ⟨_, hb⟩
          obtain ⟨i, hln⟩ := hln
          have hrepair : Returns (repairSizes ⟨n, .moved src dest k⟩) s (fun r s' =>
              r = some (p, none)
              ∧ s'.body p = some (.internal (xs ++ (a, s.total a) :: (b, s.total b) :: ys))
              ∧ Frame s s' {p} ∅) := by
            rcases hc with ⟨rfl, rfl, hca, hcb⟩ | ⟨rfl, rfl, hcb, hca⟩
            · exact repair_movedRight hln hp.1 hca hcb
            · exact repair_movedLeft hln hp.1 hcb hca
          have hsum : cnt a + cnt b = s.total a + s.total b + 1 := by
            rcases hc with ⟨_, _, hca, hcb⟩ | ⟨_, _, hcb, hca⟩
            · omega
            · omega
          rw [handleRemoval, returns_bind]
          refine hrepair.mono ?_
          intro _ s₁ h₁
          obtain ⟨rfl, hp₁, f₁⟩ := h₁
          refine h.climb (E := xs ++ (a, s.total a) :: (b, s.total b) :: ys) ?_ ?_ h₁ h₂ hp hp₁
            (by simp) ?_ f₁ hln
          · rw [counted_append, counted_cons, counted_cons, hL, hR]; simp
          · rw [counted_append, counted_cons, counted_cons, hcL, hcR, hL, hR]; simp
          · simp only [List.map_append, List.map_cons, List.sum_append, List.sum_cons]; omega
      | @merged L R n a b p j hn ha hb hc ho he hw hlt =>
          exact h.take_out hB hn ha hb hc ho he hw hlt

/-- A root with one child gives way to it. -/
theorem collapseRoot_spec {root : Addr} {D : List Addr} (h : Below s [root] (D :: Ds) l)
    (hl : s.link root = some (none, 0)) (hroot : RootOk s [root] (D :: Ds))
    (hnd : (rowNodes (D :: Ds) [root] []).Nodup) :
    Returns (collapseRoot root) s (fun r s' => (∃ Ds', Tree s' r Ds' l
      ∧ Effect s s' {x | x ∈ rowNodes (D :: Ds) [root] []} {x | x ∈ rowNodes Ds' [r] []})
      ∧ (∀ x, x ≠ root → Same s s' x) ∧ (s' = s ∨ s'.heap.read root = none)) := by
  obtain ⟨E, nx, hat, _⟩ := h.1.row.nodeAt List.mem_cons_self
  have hk : s.kids root = D := by
    have := h.1.kids
    rwa [List.flatMap_singleton] at this
  have hD : E.map Prod.fst = D := hat.kids.symm.trans hk
  unfold collapseRoot
  simp only [returns_bind, Node.length_spec hat]
  by_cases hlen : E.length = 1
  · obtain ⟨⟨c, m⟩, rfl⟩ := List.length_eq_one_iff.mp hlen
    obtain rfl : [c] = D := hD
    rw [if_pos hlen, returns_bind]
    -- the only child becomes the root, and the rows below it are the same
    have hrc : root ≠ c ∧ root ∉ Ds.flatten ∧ c ∉ Ds.flatten := by
      simp only [rowNodes, List.flatten_cons, List.flatten_nil, List.nodup_append, List.mem_append,
        List.mem_singleton] at hnd
      grind
    refine (Node.simpleRemove_spec (N := .internal)
      (show NodeAt s .internal root ([] ++ (c, m) :: []) nx from hat)).mono ?_
    intro _ s₁ h₁
    obtain ⟨rfl, hat₁, hlc, f₁⟩ := h₁
    have hroot₁ : s₁.link root = some (none, 0) := (f₁.link root fun hx =>
      hrc.1 (List.mem_singleton.mp hx)).trans hl
    simp only [returns_bind, returns_get, returns_pure]
    refine (NodeRef.destroy_spec hat₁ hroot₁ _).mono ?_
    intro _ s₂ hf
    have hne : ∀ x ∈ [c] ++ Ds.flatten, x ≠ root := by
      intro x hx hxr
      rcases List.mem_append.mp hx with hx | hx
      · exact hrc.1 (hxr.symm.trans (List.mem_singleton.mp hx))
      · exact hrc.2.1 (hxr ▸ hx)
    have hb : ∀ x ∈ [c] ++ Ds.flatten, s₂.body x = s.body x := fun x hx =>
      (hf.body (hne x hx)).trans (f₁.body x (hne x hx))
    refine ⟨⟨Ds, ⟨h.2.2.congr hb fun x hx => ?_, (hf.link hrc.1.symm).trans hlc, fun hDs => ?_, ?_⟩,
      (Effect.of_frame f₁ ?_ ?_).trans (.of_freed hf ?_ ?_)⟩, fun x hx => ?_, Or.inr hf.self⟩
    · refine (hf.link (hne x (List.mem_append_right _ hx))).trans (f₁.link x fun hxc => ?_)
      obtain rfl : x = c := List.mem_singleton.mp hxc
      exact hrc.2.2 hx
    · rw [width_congr (hb c (List.mem_append_left _ List.mem_cons_self))]
      rcases hroot with hw | hnil | hw
      · have := hw root List.mem_cons_self
        rw [hat.width, hlen] at this
        exact absurd this (by decide)
      · exact absurd hnil hDs
      · exact hw c List.mem_cons_self
    · have := (rowNodes_perm Ds [c] [root] []).nodup_iff.mpr hnd
      simp only [rowNodes, List.flatten_cons, List.flatten_nil, List.append_nil] at this ⊢
      exact this.sublist (List.Sublist.append_left (List.sublist_append_left _ _) _)
    · intro x hx
      obtain rfl : x = root := hx
      exact List.mem_append_right _ List.mem_cons_self
    · intro x hx
      exact List.mem_append_left _ (List.mem_append_left _ hx)
    · exact List.mem_append_right _ List.mem_cons_self
    · refine Set.ext fun x => ?_
      simp only [rowNodes, List.flatten_cons, List.flatten_nil, List.append_nil, Set.mem_ofPred_eq,
        Set.mem_sdiff, Set.mem_singleton_iff, List.mem_append, List.mem_cons, List.not_mem_nil,
        or_false]
      grind
    · exact (Same.of_frame f₁ hx).trans (.of_read (hf.other x hx))
  · -- the root stays, with at least two children: it is not empty
    rw [if_neg hlen, returns_pure]
    refine ⟨⟨D :: Ds, ⟨h, hl, fun _ => ?_, hnd⟩, .of_frame (Frame.refl s ∅ ∅) (Set.empty_subset _)
      (Set.empty_subset _)⟩, fun x _ => Same.refl s x, Or.inl rfl⟩
    have hne : E ≠ [] := by
      intro hnil
      refine h.1.inner root List.mem_cons_self ?_
      rw [hat.kids, hnil, kidsOf_nil]
    have := List.length_pos_iff.mpr hne
    rw [hat.width]
    omega

/-- There are fewer turns to come than nodes in the store. -/
theorem Shrinking.turns_le (h : Shrinking s Ds V U rm cnt As size l) :
    As.length ≤ s.heap.next := by
  have hnd := h.nodup
  have hU : U ≠ [] := by
    have := h.reported
    cases this <;> simp
  have hle := length_le_of_nodup (List.nodup_append.mp (List.nodup_append.mp hnd).2.1).2.1
    h.above.lt_next
  exact Nat.le_trans (h.above.length_le hU) hle

/-- Where the loop of `remove` is: between two turns, with `v` bounding those to come. -/
def Descending (G : Addr → List (List Addr) → Store T P B → Prop) (s₀ : Store T P B)
    (F : Set Addr) (l : List T)
    (v : Nat) (rm : Removal) (s : Store T P B) : Prop :=
  ∃ D Ds V U cnt As size, Shrinking s (D :: Ds) V U rm cnt As size l
    ∧ Effect s₀ s F {x | x ∈ rowNodes (D :: Ds) U As} ∧ As.length = v ∧ G rm.node As s

/-- What a turn of the loop leads to: the root, which may have one child, or another turn. -/
def Handled (G : Addr → List (List Addr) → Store T P B → Prop) (s₀ : Store T P B) (F : Set Addr)
    (l : List T) (v : Nat) (s : Store T P B) : RemovalResult → Prop
  | .removal rm => ∃ v', v' < v ∧ Descending G s₀ F l v' rm s
  | .done root => ∃ D Ds, Below s [root] (D :: Ds) l ∧ s.link root = some (none, 0)
      ∧ RootOk s [root] (D :: Ds) ∧ (rowNodes (D :: Ds) [root] []).Nodup
      ∧ Effect s₀ s F {x | x ∈ rowNodes (D :: Ds) [root] []} ∧ G root [] s

/-- `G` held when the root was reached, which may have given way to its only child since. -/
def Collapsed (G : Addr → List (List Addr) → Store T P B → Prop) (s' : Store T P B) : Prop :=
  ∃ root s, G root [] s ∧ s.link root = some (none, 0) ∧ (∀ x, x ≠ root → Same s s' x)
    ∧ (s' = s ∨ s'.heap.read root = none)

variable {G : Addr → List (List Addr) → Store T P B → Prop}

theorem Descending.step {s₀ : Store T P B} {F : Set Addr} {v : Nat}
    (h : Descending G s₀ F l v rm s) (hB : 3 ≤ B)
    (hG : ∀ {s s' n p A As}, G n (A :: As) s → Climbed s s' n p → G p As s') :
    Returns (handleRemoval rm) s (fun r s' => Handled G s₀ F l v s' r) := by
  obtain ⟨D, Ds, V, U, cnt, As, size, hs, he, rfl, hGs⟩ := h
  refine (handleRemoval_spec hs hB).mono ?_
  intro r s' ht
  cases r with
  | done root =>
      obtain ⟨rfl, rfl, rfl, rfl, rfl, hl⟩ := ht
      exact ⟨D, Ds, hs.below, hl, hs.root rfl, hs.nodup, he, hGs⟩
  | removal rm' =>
      obtain ⟨A, As', V', rfl, hs', he', hclimbed⟩ := ht
      exact ⟨As'.length, Nat.lt_succ_self _, _, _, _, _, _, _, _, hs', he.trans he', rfl,
        hG hGs hclimbed⟩

/-- The leaf that lost the item, before it is restored. -/
theorem Lacking.of_leaf {U V : List Addr} {xs ys l₁ l₂ : List T} {x : T}
    (hrow₁ : RowAt s .leaf U l₁ (some a)) (ha : NodeAt s .leaf a (xs ++ x :: ys) (V.head?.or none))
    (hrow₂ : RowAt s .leaf V l₂ none)
    (h : AtLeaves s (U ++ a :: V) As (l₁ ++ (xs ++ x :: ys ++ l₂)))
    (ha' : NodeAt s' .leaf a (xs ++ ys) (V.head?.or none)) (f : Frame s s' {a} ∅) :
    Lacking s' [] U a V s.total As (l₁ ++ (xs ++ x :: ys ++ l₂)).length
      (l₁ ++ (xs ++ ys ++ l₂)) := by
  have hnd := List.nodup_append.mp (show ((U ++ a :: V) ++ As.flatten).Nodup from h.nodup)
  have haU : a ∈ U ++ a :: V := mem_mid.mpr (Or.inl rfl)
  have hAs : ∀ x ∈ As.flatten, s'.body x = s.body x := by
    intro x hx
    refine f.body x fun hxa => ?_
    exact hnd.2.2 a haU x hx (Set.mem_singleton_iff.mp hxa).symm
  -- only the leaf itself is written
  have hside : ∀ c, c ∈ U ∨ c ∈ V → s'.body c = s.body c := by
    intro c hc
    refine f.body c fun hca => ?_
    obtain rfl := Set.mem_singleton_iff.mp hca
    have := hnd.1
    rw [List.nodup_middle, List.nodup_cons, List.mem_append] at this
    exact this.1 hc
  have hlink : ∀ x, s'.link x = s.link x := fun x => f.link x (Set.notMem_empty x)
  refine ⟨?_, h.above.congr hAs (fun x _ => hlink x) fun _ _ => rfl, ?_, fun c hc => ?_, ?_,
    fun _ => trivial, h.nodup⟩
  · exact RowAt.splice (M := []) (hrow₁.congr (fun y hy => hside y (Or.inl hy)) fun y _ => hlink y)
      ⟨_, [], (List.append_nil _).symm, ha', rfl⟩
      (hrow₂.congr (fun y hy => hside y (Or.inr hy)) fun y _ => hlink y)
  · rw [ha.total, ha'.total]
    simp only [List.map_append, List.map_cons, List.sum_append, List.sum_cons, Node.itemSize]
    omega
  · exact (total_congr (hside c (List.mem_append.mp hc))).symm
  · intro A hA p hp hwp c hc
    have hb := hAs p (List.mem_flatten.mpr ⟨A, List.mem_of_mem_head? hA, hp⟩)
    rw [kids_congr hb] at hc
    rw [width_congr hb] at hwp
    have hcU := Above.kids_mem h.above hA hp hc
    have hmin := h.occ A hA p hp hwp c hc hcU
    rcases mem_mid.mp hcU with rfl | hcs
    · refine ⟨?_, fun hcc => absurd rfl hcc⟩
      rw [ha.width, List.length_append, List.length_cons] at hmin
      rw [ha'.width, List.length_append]
      omega
    · rw [width_congr (hside c hcs)]
      exact ⟨Nat.le_succ_of_le hmin, fun _ => hmin⟩

/-- The turns of the loop that are left. -/
theorem Descending.loop {s₀ : Store T P B} {F : Set Addr} {v fuel : Nat}
    (h : Descending G s₀ F l v rm s) (hv : v < fuel) (hB : 3 ≤ B)
    (hG : ∀ {s s' n p A As}, G n (A :: As) s → Climbed s s' n p → G p As s') :
    Returns (loop .outOfFuel (fun removal => do
      match ← handleRemoval removal with
      | .removal removal => pure (.inl removal)
      | .done root => .inr <$> collapseRoot root) fuel rm) s (fun root s' =>
      (∃ Ds, Tree s' root Ds l ∧ Effect s₀ s' F {y | y ∈ rowNodes Ds [root] []})
        ∧ Collapsed G s') := by
  -- the variant is the number of rows above the removal
  refine returns_loop (Descending G s₀ F l) ?_ hv h
  intro v rm t hd
  rw [returns_bind]
  refine (hd.step hB hG).mono ?_
  intro r t₁ hr
  cases r with
  | removal rm => exact hr
  | done root =>
      obtain ⟨D, Ds, hbelow, hl, hroot, hnd, he₁, hGr⟩ := hr
      rw [returns_map]
      refine (collapseRoot_spec hbelow hl hroot hnd).mono ?_
      intro root t₂ h₂
      obtain ⟨⟨Ds', ht, he₂⟩, hsame⟩ := h₂
      exact ⟨⟨Ds', ht, he₁.trans he₂⟩, _, t₁, hGr, hl, hsame⟩

/-- What the first turn leads to, which is before the loop: a leaf that is the root, or the loop. -/
def Started (G : Addr → List (List Addr) → Store T P B → Prop) (s₀ : Store T P B) (F : Set Addr)
    (l : List T) (n : Nat) (s : Store T P B) : RemovalResult → Prop
  | .removal rm => ∃ v < n, v < s.heap.next + 2 ∧ Descending G s₀ F l v rm s
  | .done root => (∃ Ds, Tree s root Ds l ∧ Effect s₀ s F {y | y ∈ rowNodes Ds [root] []})
      ∧ Collapsed G s

/-- The item is taken out of the leaf, and the leaf is dealt with: this is all before the loop. -/
theorem start_spec {U V : List Addr} {xs ys l₁ l₂ : List T} {x : T}
    (hrow₁ : RowAt s .leaf U l₁ (some a)) (ha : NodeAt s .leaf a (xs ++ x :: ys) (V.head?.or none))
    (hrow₂ : RowAt s .leaf V l₂ none)
    (h : AtLeaves s (U ++ a :: V) As (l₁ ++ (xs ++ x :: ys ++ l₂))) (hB : 3 ≤ B)
    (hstart : ∀ {m s₁ V' k size l'}, m ∈ U ++ a :: V → Beside s a m → Frame s s₁ {a, m} ∅ →
      Shrinking s₁ [] V' (U ++ a :: V) ⟨a, k⟩ s.total As size l' → G a As s₁)
    (hG : ∀ {s s' n p A As}, G n (A :: As) s → Climbed s s' n p → G p As s') :
    Returns (removeOnce .leaf a xs.length) s (fun r s₁ => r.2 = x
      ∧ Returns (handleRemoval r.1) s₁ (fun r s₂ =>
        Started G s {y | y ∈ rowNodes [] (U ++ a :: V) As} (l₁ ++ (xs ++ ys ++ l₂)) As.length
          s₂ r)) := by
  have hrow : ∀ y ∈ U ++ a :: V, y ∈ rowNodes [] (U ++ a :: V) As := fun y hy =>
    List.mem_append_right _ (List.mem_append_left _ hy)
  simp only [removeOnce, returns_bind]
  refine (Node.simpleRemove_spec (N := .leaf) ha).mono ?_
  intro _ s₁ h₁
  obtain ⟨rfl, ha₁, -, f₁⟩ := h₁
  have f₁' : Frame s s₁ {a} ∅ := f₁.mono (Set.Subset.refl _) fun y hy => absurd hy List.not_mem_nil
  have hlack := Lacking.of_leaf hrow₁ ha hrow₂ h ha₁ f₁'
  -- leaves have no children, so no link is touched in this row
  have hkids : ∀ m ∈ U ++ a :: V, s₁.kids m = [] := by
    intro m hm
    obtain ⟨E, nx, hE, _⟩ := RowAt.nodeAt (show RowAt s₁ .leaf _ _ none from hlack.below) hm
    exact hE.kids
  have haU : a ∈ U ++ a :: V := mem_mid.mpr (Or.inl rfl)
  refine (hlack.restore_spec hB fun c hc => ?_).mono ?_
  · rw [hkids a haU] at hc
    exact absurd hc List.not_mem_nil
  intro k s₂ h₂
  obtain ⟨⟨V', hs⟩, ⟨m, hm, hbeside, f₂⟩, _⟩ := h₂
  have f₂' : Frame s₁ s₂ {a, m} ∅ := f₂.mono (Set.Subset.refl _) fun y hy => by
    rw [Set.mem_ofPred_eq, hkids a haU, hkids m hm] at hy
    exact hy.elim (fun hy => absurd hy List.not_mem_nil) fun hy => absurd hy List.not_mem_nil
  have he : Effect s s₂ {y | y ∈ rowNodes [] (U ++ a :: V) As}
      {y | y ∈ rowNodes [] (U ++ a :: V) As} := by
    refine (Effect.of_frame f₁' ?_ (Set.empty_subset _)).trans
      (.of_frame f₂' ?_ (Set.empty_subset _))
    · intro y hy
      exact hrow y (Set.mem_singleton_iff.mp hy ▸ haU)
    · intro y hy
      rcases hy with rfl | rfl
      · exact hrow y haU
      · exact hrow y hm
  have hGs : G a As s₂ := by
    refine hstart hm (hbeside.congr (f₁'.link a (Set.notMem_empty a)) fun x _ _ hx => f₁'.body x hx)
      ?_ hs
    refine (f₁'.trans f₂').mono ?_ (by simp)
    intro y hy
    exact hy.elim Or.inl id
  rw [returns_pure]
  refine ⟨rfl, (handleRemoval_spec hs hB).mono ?_⟩
  intro r s₃ ht
  cases r with
  | done root =>
      obtain ⟨rfl, rfl, rfl, rfl, hU, hl⟩ := ht
      refine ⟨⟨[], ⟨hs.below, hl, fun hne => absurd rfl hne, List.nodup_singleton _⟩, ?_⟩,
        _, s₃, hGs, hl, fun x _ => Same.refl s₃ x, Or.inl rfl⟩
      rw [hU] at he ⊢
      exact he
  | removal rm =>
      obtain ⟨A, As', V'', rfl, hs', he', hclimbed⟩ := ht
      exact ⟨As'.length, Nat.lt_succ_self _, Nat.lt_succ_of_le (Nat.le_succ_of_le hs'.turns_le),
        _, _, _, _, _, _, _, hs', he.trans he', rfl, hG hGs hclimbed⟩

/-- `remove` takes the item out of the leaf and repairs the tree up to the root. -/
theorem remove_spec {U V : List Addr} {xs ys l₁ l₂ : List T} {x : T}
    (hrow₁ : RowAt s .leaf U l₁ (some a)) (ha : NodeAt s .leaf a (xs ++ x :: ys) (V.head?.or none))
    (hrow₂ : RowAt s .leaf V l₂ none)
    (h : AtLeaves s (U ++ a :: V) As (l₁ ++ (xs ++ x :: ys ++ l₂))) (hB : 3 ≤ B)
    (hstart : ∀ {m s₁ V' k size l'}, m ∈ U ++ a :: V → Beside s a m → Frame s s₁ {a, m} ∅ →
      Shrinking s₁ [] V' (U ++ a :: V) ⟨a, k⟩ s.total As size l' → G a As s₁)
    (hG : ∀ {s s' n p A As}, G n (A :: As) s → Climbed s s' n p → G p As s') :
    Returns (remove a xs.length) s (fun r s' => r.2 = x
      ∧ (∃ Ds, Tree s' r.1 Ds (l₁ ++ (xs ++ ys ++ l₂))
        ∧ Effect s s' {y | y ∈ rowNodes [] (U ++ a :: V) As} {y | y ∈ rowNodes Ds [r.1] []})
      ∧ Collapsed G s') := by
  unfold remove
  simp only [returns_bind]
  refine (start_spec hrow₁ ha hrow₂ h hB hstart hG).mono ?_
  intro r s₁ hr
  obtain ⟨rm, y⟩ := r
  obtain ⟨rfl, hr⟩ := hr
  refine hr.mono ?_
  intro r s₂ hr
  cases r with
  | done root => exact ⟨rfl, hr⟩
  | removal rm =>
      obtain ⟨v, _, hv, hd⟩ := hr
      simp only [returns_bind, returns_get]
      exact (hd.loop hv hB hG).mono fun _ _ h => ⟨rfl, h⟩

end Turn

end Remove

end BTreeVec
