import BTreeVec.Proof.Rows

/-!
# Insertion climbs

`insert` goes from the leaf to the root. At each row, everything below is in order
already, the row itself holds the node that was edited and perhaps one split off it,
and the parent still has the old count and has not heard of the new node. `Growing`
says this, and one turn of the loop moves it up by one row.
-/

namespace BTreeVec

open Prog

variable {T P : Type} {B : Nat} [TaggedPtr P] {s s' : Store T P B} {N : NodeKind}
  {a b : Addr} {nx : Option Addr}

namespace Insert

/-! ## What an insertion into a node leaves, for both outcomes at once -/

namespace Inserted

variable {E : List (Child T N)} {r : Option Addr}

theorem row (h : Inserted s s' N a E nx r) : RowAt s' N (a :: r.toList) E nx := by
  cases h with
  | fits hat f => exact ⟨E, [], (List.append_nil E).symm, hat, rfl⟩
  | split hE hlen _ _ _ _ hc hat₁ hat₂ =>
      exact ⟨_, _, hE, hat₁, _, [], (List.append_nil _).symm, hat₂, rfl⟩

theorem frame (h : Inserted s s' N a E nx r) :
    Frame s s' {x | x ∈ a :: r.toList} {x | x ∈ r.toList ++ kidsOf N E} := by
  cases h with
  | fits hat f =>
      refine f.mono ?_ (Set.Subset.refl _)
      intro x hx
      exact List.mem_singleton.mpr hx
  | split hE hlen _ _ _ _ hc hat₁ hat₂ _ _ f =>
      refine f.mono ?_ ?_
      · intro x hx
        simpa using hx
      · intro x hx
        simpa using hx

theorem fresh (h : Inserted s s' N a E nx r) : ∀ c ∈ r, s.heap.next ≤ c := by
  cases h with
  | fits hat f => intro c hc; cases hc
  | split hE hlen _ _ _ _ hc => intro c hc'; cases hc'; exact hc

theorem new_link (h : Inserted s s' N a E nx r) :
    ∀ c ∈ r, s'.link c = some (none, 0) ∧ Sized s' N c := by
  cases h with
  | fits hat f => intro c hc; cases hc
  | split hE hlen _ _ _ _ hc hat₁ hat₂ hs hl => intro c hc'; cases hc'; exact ⟨hl, hs⟩

theorem half (h : Inserted s s' N a E nx r) :
    ∀ c ∈ r, B / 2 ≤ s'.width a ∧ B / 2 ≤ s'.width c := by
  cases h with
  | fits hat f => intro c hc; cases hc
  | split hE hlen h1 _ h2 _ hc hat₁ hat₂ =>
      intro c hc'
      cases hc'
      rw [hat₁.width, hat₂.width]
      exact ⟨h1, h2⟩

/-- The node itself does not end up below half, nor below what it had. -/
theorem width (h : Inserted s s' N a E nx r) : (r = none ∧ s'.width a = E.length)
    ∨ (r ≠ none ∧ E.length = B + 1 ∧ B / 2 ≤ s'.width a) := by
  cases h with
  | fits hat f => exact Or.inl ⟨rfl, hat.width⟩
  | split hE hlen h1 _ h2 _ hc hat₁ hat₂ =>
      exact Or.inr ⟨Option.some_ne_none _, hlen, by rw [hat₁.width]; exact h1⟩

theorem fits_of_lt (h : Inserted s s' N a E nx r) (hlt : E.length ≤ B) : r = none := by
  rcases h.width with hw | hw
  · exact hw.1
  · exact absurd hw.2.1 (by omega)

theorem inner {E : List (Child T .internal)} (h : Inserted s s' .internal a E nx r) (hE : E ≠ [])
    (hB : 3 ≤ B) : ∀ c ∈ a :: r.toList, s'.kids c ≠ [] := by
  have key : ∀ {c : Addr} {F : List (Child T .internal)} {nx : Option Addr},
      NodeAt s' .internal c F nx → F ≠ [] → s'.kids c ≠ [] := by
    intro c F nx hF hne hk
    rw [hF.kids] at hk
    exact hne (List.map_eq_nil_iff.mp hk)
  intro c hc
  cases h with
  | fits hat f =>
      rw [Option.toList_none, List.mem_singleton] at hc
      subst hc
      exact key hat hE
  | split hE' hlen h1 _ h2 _ hc' hat₁ hat₂ =>
      simp only [Option.toList_some, List.mem_cons, List.not_mem_nil, or_false] at hc
      rcases hc with rfl | rfl
      · exact key hat₁ (List.length_pos_iff.mp (by omega))
      · exact key hat₂ (List.length_pos_iff.mp (by omega))

/-- The node was written before. -/
theorem of_frame {s₁ : Store T P B} (f : Frame s s₁ {a} ∅) (h : Inserted s₁ s' N a E nx r) :
    Inserted s s' N a E nx r := by
  cases h with
  | fits hat f' => exact .fits hat ((f.trans f').mono (by simp) (by simp))
  | split hE hlen h1 h2 h3 h4 hc hat₁ hat₂ hs hl f' =>
      refine .split hE hlen h1 h2 h3 h4 (Nat.le_trans f.next_le hc) hat₁ hat₂ hs hl
        ((f.trans f').mono ?_ (by simp))
      intro x hx
      simp only [Set.mem_union, Set.mem_insert_iff, Set.mem_singleton_iff] at hx ⊢
      tauto

end Inserted

/-- The count for `n` was `m` and becomes `k`, and the new node goes to the slot after `n`. -/
theorem updateParent_spec {n p : Addr} {xs ys : List (Addr × Nat)} {m k : Nat}
    (new : Option (Addr × Nat)) (h : NodeAt s .internal p (xs ++ (n, m) :: ys) nx)
    (hnew : ∀ x ∈ new, s.link x.1 = some (none, 0))
    (hm : m + 1 = k + (new.toList.map Prod.snd).sum) (hB : 3 ≤ B) :
    Returns (updateParent p xs.length new) s (fun r s' => ∃ split, r = .insertion ⟨p, split⟩
      ∧ (new = none → split = none)
      ∧ Inserted s s' .internal p (xs ++ (n, k) :: (new.toList ++ ys)) nx split) := by
  unfold updateParent
  rw [returns_bind]
  refine (InternalNode.addSize_spec 1 h.1).mono ?_
  intro _ s₁ h₁
  obtain ⟨hb₁, f₁⟩ := h₁
  -- changing one count leaves the children in their slots
  have hat : ∀ {t : Store T P B} {j : Nat}, t.body p = some (.internal (xs ++ (n, j) :: ys)) →
      Frame s t {p} ∅ → NodeAt t .internal p (xs ++ (n, j) :: ys) nx := fun hb f =>
    h.recount hb (by simp) f
  cases new with
  | none =>
      rw [Option.toList_none, List.map_nil, List.sum_nil, Nat.add_zero] at hm
      rw [hm] at hb₁
      exact ⟨none, rfl, fun _ => rfl, .fits (hat hb₁ f₁) (f₁.mono (Set.Subset.refl _)
        (Set.empty_subset _))⟩
  | some x =>
      obtain ⟨x, size⟩ := x
      rw [Option.toList_some, List.map_singleton, List.sum_singleton] at hm
      simp only [returns_bind, returns_pure]
      -- the new node takes its items out of the count of the old one
      refine (InternalNode.subSize_spec (k := size) hb₁ (by omega)).mono ?_
      intro _ s₂ h₂
      obtain ⟨hb₂, f₂⟩ := h₂
      have f₁₂ : Frame s s₂ {p} ∅ := (f₁.trans f₂).mono (by simp) (by simp)
      rw [show m + 1 - size = k by omega] at hb₂
      have hx : Detached s₂ .internal (T := T) (x, size) := by
        rw [Detached, f₁₂.link x (Set.notMem_empty x)]
        exact hnew (x, size) rfl
      have hat₂ := hat hb₂ f₁₂
      rw [← List.singleton_append, ← List.append_assoc] at hat₂
      have hins := insertOnce_spec hat₂ (hx.insertable hat₂) hB
      rw [List.length_append, List.length_singleton] at hins
      refine hins.mono ?_
      intro split s₃ h₃
      refine ⟨split, rfl, ?_, ?_⟩
      · intro h
        cases h
      · rw [List.append_assoc] at h₃
        exact h₃.of_frame f₁₂

/-! ## One row after the other -/

/-- The row around the node that was edited, with the one that was split off. -/
def Insertion.row (ins : Insertion) (L R : List Addr) : List Addr :=
  L ++ ins.node :: (ins.new.toList ++ R)

/--
The state between two turns of the loop: the rows `Ds` are below the row of the
insertion, and the rows `As` above do not know of it yet.
-/
structure Growing (s : Store T P B) (Ds : List (List Addr)) (L : List Addr) (ins : Insertion)
    (R : List Addr) (cnt : Addr → Nat) (As : List (List Addr)) (size : Nat) (l : List T) :
    Prop where
  below : Below s (ins.row L R) Ds l
  above : Above s (L ++ ins.node :: R) cnt As size
  /-- The parent's count for the node is one short, the new node's items included. -/
  count : cnt ins.node + 1 = s.total ins.node + (ins.new.toList.map s.total).sum
  count_eq : ∀ c ∈ L ++ R, cnt c = s.total c
  occ : OccTop s As (ins.row L R)
  half : ∀ x ∈ ins.new, B / 2 ≤ s.width ins.node ∧ B / 2 ≤ s.width x
  new_link : ∀ x ∈ ins.new, s.link x = some (none, 0) ∧ Sized s (rowKind Ds) x
  /-- A root that stays the root has two children. -/
  wide : As = [] → ins.new = none → Ds ≠ [] → 2 ≤ s.width ins.node
  nodup : (rowNodes Ds (ins.row L R) As).Nodup

/-- A node of the new row is one of the halves, or it was there before. -/
theorem Insertion.mem_row {A₁ A₂ : List Addr} {p x : Addr} {split : Option Addr}
    (hx : x ∈ (⟨p, split⟩ : Insertion).row A₁ A₂) :
    x ∈ p :: split.toList ∨ x ∈ A₁ ∨ x ∈ A₂ := by
  rcases mem_mid.mp hx with rfl | hx | hx
  · exact Or.inl List.mem_cons_self
  · exact Or.inr (Or.inl hx)
  · rcases List.mem_append.mp hx with hx | hx
    · exact Or.inl (List.mem_cons_of_mem _ hx)
    · exact Or.inr (Or.inr hx)

/-- The rows keep their nodes, and a new one joins them. -/
theorem Inserted.locality {Ds As : List (List Addr)} {A₁ A₂ : List Addr} {p : Addr}
    {E : List (Child T N)} {split : Option Addr} (h : Inserted s s' N p E nx split)
    (hkids : ∀ x ∈ kidsOf _ E, x ∈ Ds.flatten) :
    Local s s' {x | x ∈ rowNodes Ds (A₁ ++ p :: A₂) As}
      {x | x ∈ rowNodes Ds ((⟨p, split⟩ : Insertion).row A₁ A₂) As} := by
  have hmem : ∀ x, x ∈ rowNodes Ds ((⟨p, split⟩ : Insertion).row A₁ A₂) As
      ↔ x ∈ rowNodes Ds (A₁ ++ p :: A₂) As ∨ x ∈ split := by
    intro x
    simp only [rowNodes, Insertion.row, List.mem_append, List.mem_cons, Option.mem_toList]
    tauto
  have hp : p ∈ rowNodes Ds (A₁ ++ p :: A₂) As := by simp [rowNodes]
  refine Local.of_frame h.frame ?_ ?_ ?_ ?_
  · intro x hx
    refine (hmem x).mpr ?_
    rcases List.mem_cons.mp hx with rfl | hx
    · exact Or.inl hp
    · exact Or.inr (Option.mem_toList.mp hx)
  · intro x hx
    refine (hmem x).mpr ?_
    rcases List.mem_append.mp hx with hx | hx
    · exact Or.inr (Option.mem_toList.mp hx)
    · exact Or.inl (List.mem_append_left _ (hkids x hx))
  · intro x hx
    exact (hmem x).mpr (Or.inl hx)
  · intro x hx
    rcases (hmem x).mp hx with hx | hx
    · exact Or.inl hx
    · exact Or.inr (h.fresh x hx)

/--
The node `p` of a row was inserted into. If the rows below are in order, the rows above
need nothing but the new count, and the new node if there is one.
-/
theorem Inserted.growing {Ds As : List (List Addr)} {A₁ A₂ : List Addr} {p : Addr}
    {E : List (Child T N)} {split : Option Addr} {size : Nat} {l : List T}
    (h : Inserted s s' N p E nx split) (hN : N = rowKind Ds)
    (hkids : ∀ x ∈ kidsOf N E, x ∈ Ds.flatten)
    (hlt : ∀ x ∈ rowNodes Ds (A₁ ++ p :: A₂) As, x < s.heap.next)
    (hnd : (rowNodes Ds (A₁ ++ p :: A₂) As).Nodup) (hwidth : s.width p ≤ E.length)
    (hcount : s.total p + 1 = (E.map (Node.itemSize N)).sum)
    (habove : Above s (A₁ ++ p :: A₂) s.total As size) (hocc : OccTop s As (A₁ ++ p :: A₂))
    (hwide : As = [] → Ds ≠ [] → 2 ≤ s.width p)
    (hbelow : Below s' ((⟨p, split⟩ : Insertion).row A₁ A₂) Ds l) :
    Growing s' Ds A₁ ⟨p, split⟩ A₂ s.total As size l
      ∧ Effect s s' {x | x ∈ rowNodes Ds (A₁ ++ p :: A₂) As}
          {x | x ∈ rowNodes Ds ((⟨p, split⟩ : Insertion).row A₁ A₂) As} := by
  subst hN
  have hfresh := h.fresh
  simp only [rowNodes, List.nodup_append, List.nodup_cons, List.mem_append, List.mem_cons]
    at hlt hnd
  -- the nodes beside and above are not written, and those above are not relinked either
  have hbody : ∀ x, x ∈ A₁ ∨ x ∈ A₂ ∨ x ∈ As.flatten → s'.body x = s.body x := by
    intro x hx
    refine h.frame.body x fun hmem => ?_
    rcases List.mem_cons.mp hmem with rfl | hmem
    · grind
    · have hle := hfresh x (Option.mem_toList.mp hmem)
      exact absurd (hlt x (by grind)) (Nat.not_lt.mpr hle)
  have hside : ∀ x, x ∈ A₁ ∨ x ∈ A₂ → s'.body x = s.body x := fun x hx =>
    hbody x (hx.imp_right Or.inl)
  have hlink : ∀ x, x ∈ (A₁ ++ p :: A₂) ++ As.flatten → s'.link x = s.link x := by
    intro x hx
    simp only [List.mem_append, List.mem_cons] at hx
    refine h.frame.link x fun hmem => ?_
    rcases List.mem_append.mp hmem with hmem | hmem
    · have hle := hfresh x (Option.mem_toList.mp hmem)
      exact absurd (hlt x (by grind)) (Nat.not_lt.mpr hle)
    · have := hkids x hmem
      grind
  have hgrow : s.width p ≤ s'.width p ∨ split ≠ none ∧ B / 2 ≤ s'.width p := by
    rcases h.width with ⟨_, hw⟩ | ⟨hs, _, hw⟩
    · exact Or.inl (by omega)
    · exact Or.inr ⟨hs, hw⟩
  refine ⟨⟨hbelow, ?_, ?_, ?_, ?_, h.half, h.new_link, ?_, ?_⟩,
    .of_local ?_ h.frame.destroyed h.frame.dropped⟩
  · exact habove.congr (fun x hx => hbody x (Or.inr (Or.inr hx))) hlink fun _ _ => rfl
  · have ht := h.row.total
    rw [List.map_cons, List.sum_cons] at ht
    show s.total p + 1 = s'.total p + (split.toList.map s'.total).sum
    omega
  · intro x hx
    exact (total_congr (hside x (List.mem_append.mp hx))).symm
  · intro A hA a ha hwa x hx hxV
    have hb := hbody a (Or.inr (Or.inr (List.mem_flatten.mpr
      ⟨A, List.mem_of_mem_head? hA, ha⟩)))
    rw [kids_congr hb] at hx
    rw [width_congr hb] at hwa
    have hold := hocc A hA a ha hwa x hx
    rcases Insertion.mem_row hxV with hxp | hxs
    · rcases List.mem_cons.mp hxp with rfl | hxn
      · rcases hgrow with hw | hw
        · exact Nat.le_trans (hold (List.mem_append_right _ List.mem_cons_self)) hw
        · exact hw.2
      · exact (h.half x (Option.mem_toList.mp hxn)).2
    · rw [width_congr (hside x hxs)]
      exact hold (mem_mid.mpr (Or.inr hxs))
  · intro hAs hs hDs
    rcases hgrow with hw | hw
    · exact Nat.le_trans (hwide hAs hDs) hw
    · exact absurd hs hw.1
  · cases split with
    | none =>
        simp only [rowNodes, Insertion.row, List.nodup_append, List.nodup_cons, List.mem_append,
          List.mem_cons, Option.toList_none, List.nil_append]
        grind
    | some q =>
        have hq := hfresh q rfl
        simp only [rowNodes, Insertion.row, List.nodup_append, List.nodup_cons, List.mem_append,
          List.mem_cons, Option.toList_some, List.cons_append, List.nil_append]
        grind
  · exact h.locality hkids

/--
One turn of the loop below the root: `p` is the parent, the rest of its row is `A₁` and
`A₂`, and their entries are `D₁`, those of `p` around the edited node, and `D₂`.
-/
structure Climb (s s' : Store T P B) (Ds : List (List Addr)) (L : List Addr) (ins : Insertion)
    (R : List Addr) (cnt : Addr → Nat) (A₁ : List Addr) (p : Addr) (A₂ : List Addr)
    (As : List (List Addr)) (D₁ xs ys D₂ : List (Addr × Nat)) (split : Option Addr)
    (size : Nat) (l : List T) : Prop where
  before : Growing s Ds L ins R cnt ((A₁ ++ p :: A₂) :: As) size l
  left : counted cnt L = D₁ ++ xs
  right : counted cnt R = ys ++ D₂
  row₁ : RowAt s .internal A₁ D₁ (some p)
  row₂ : RowAt s .internal A₂ D₂ none
  parent : NodeAt s .internal p (xs ++ (ins.node, cnt ins.node) :: ys) none
  inserted : Inserted s s' .internal p
    (xs ++ (counted s.total (ins.node :: ins.new.toList) ++ ys)) none split

namespace Climb

variable {Ds As : List (List Addr)} {L R A₁ A₂ : List Addr} {ins : Insertion} {cnt : Addr → Nat}
  {p : Addr} {D₁ xs ys D₂ : List (Addr × Nat)} {split : Option Addr} {size : Nat} {l : List T}

/-- The row of the insertion by parents: the children of `A₁`, of `p`, and of `A₂`. -/
theorem row_eq (c : Climb s s' Ds L ins R cnt A₁ p A₂ As D₁ xs ys D₂ split size l) :
    ins.row L R = D₁.map Prod.fst ++ (xs.map Prod.fst
      ++ (ins.node :: (ins.new.toList ++ ys.map Prod.fst)) ++ D₂.map Prod.fst) := by
  have hL : L = D₁.map Prod.fst ++ xs.map Prod.fst := by
    rw [← List.map_append, ← c.left, map_fst_counted]
  have hR : R = ys.map Prod.fst ++ D₂.map Prod.fst := by
    rw [← List.map_append, ← c.right, map_fst_counted]
  rw [Insertion.row, hL, hR]
  simp

theorem lt_next (c : Climb s s' Ds L ins R cnt A₁ p A₂ As D₁ xs ys D₂ split size l) {x : Addr}
    (hx : x ∈ rowNodes Ds (ins.row L R) ((A₁ ++ p :: A₂) :: As)) : x < s.heap.next := by
  rw [rowNodes, List.mem_append, List.mem_append] at hx
  rcases hx with hx | hx | hx
  · exact c.before.below.lt_next x (List.mem_append_right _ hx)
  · exact c.before.below.lt_next x (List.mem_append_left _ hx)
  · exact c.before.above.lt_next x hx

/-- No node in the rows is written but the parent. -/
theorem body_eq (c : Climb s s' Ds L ins R cnt A₁ p A₂ As D₁ xs ys D₂ split size l) {x : Addr}
    (hx : x ∈ rowNodes Ds (ins.row L R) ((A₁ ++ A₂) :: As)) : s'.body x = s.body x := by
  have hlt : x < s.heap.next := by
    refine c.lt_next ?_
    simp only [rowNodes, List.flatten_cons, List.mem_append, List.mem_cons] at hx ⊢
    tauto
  have hnd := c.before.nodup
  refine c.inserted.frame.body x fun hmem => ?_
  rcases List.mem_cons.mp hmem with rfl | hmem
  · simp only [rowNodes, List.flatten_cons, List.nodup_append, List.nodup_cons, List.mem_append,
      List.mem_cons] at hx hnd
    grind
  · exact absurd hlt (Nat.not_lt.mpr (c.inserted.fresh x (Option.mem_toList.mp hmem)))

/-- No node in the rows is relinked but the children of the parent. -/
theorem link_eq (c : Climb s s' Ds L ins R cnt A₁ p A₂ As D₁ xs ys D₂ split size l) {x : Addr}
    (hx : x ∈ rowNodes Ds (D₁.map Prod.fst ++ D₂.map Prod.fst) ((A₁ ++ p :: A₂) :: As)) :
    s'.link x = s.link x := by
  have hlt : x < s.heap.next := by
    refine c.lt_next ?_
    simp only [rowNodes, c.row_eq, List.flatten_cons, List.mem_append, List.mem_cons] at hx ⊢
    tauto
  have hnd := c.before.nodup
  refine c.inserted.frame.link x fun hmem => ?_
  rcases List.mem_append.mp hmem with hmem | hmem
  · exact absurd hlt (Nat.not_lt.mpr (c.inserted.fresh x (Option.mem_toList.mp hmem)))
  · rw [c.row_eq] at hnd
    simp only [kidsOf, List.map_append, map_fst_counted, List.mem_append, List.mem_cons] at hmem
    simp only [rowNodes, List.flatten_cons, List.nodup_append, List.nodup_cons, List.mem_append,
      List.mem_cons] at hx hnd
    grind

theorem mem_row (c : Climb s s' Ds L ins R cnt A₁ p A₂ As D₁ xs ys D₂ split size l) {x : Addr}
    (hx : x ∈ ins.row L R) : s'.body x = s.body x :=
  c.body_eq (List.mem_append_right _ (List.mem_append_left _ hx))

theorem mem_side (c : Climb s s' Ds L ins R cnt A₁ p A₂ As D₁ xs ys D₂ split size l) {x : Addr}
    (hx : x ∈ A₁ ∨ x ∈ A₂) : s'.body x = s.body x := by
  refine c.body_eq (List.mem_append_right _ (List.mem_append_right _ ?_))
  rw [List.flatten_cons, List.mem_append, List.mem_append]
  exact Or.inl hx

theorem edge (c : Climb s s' Ds L ins R cnt A₁ p A₂ As D₁ xs ys D₂ split size l) (hB : 3 ≤ B) :
    Edge s' ((⟨p, split⟩ : Insertion).row A₁ A₂) (ins.row L R) s'.total where
  row := by
    have hcount : counted s'.total (ins.row L R)
        = D₁ ++ (xs ++ (counted s.total (ins.node :: ins.new.toList) ++ ys) ++ D₂) := by
      have hL : counted s.total L = D₁ ++ xs := by
        rw [← c.left]
        exact counted_congr fun x hx => (c.before.count_eq x (List.mem_append_left _ hx)).symm
      have hR : counted s.total R = ys ++ D₂ := by
        rw [← c.right]
        exact counted_congr fun x hx => (c.before.count_eq x (List.mem_append_right _ hx)).symm
      rw [counted_congr fun x hx => total_congr (c.mem_row hx), Insertion.row, counted_append,
        counted_cons, counted_append, hL, hR]
      simp
    rw [hcount]
    refine RowAt.splice (c.row₁.congr (fun x hx => c.mem_side (Or.inl hx)) fun x hx => c.link_eq ?_)
      (c.inserted.row.internal_next _)
      (c.row₂.congr (fun x hx => c.mem_side (Or.inr hx)) fun x hx => c.link_eq ?_)
    · exact List.mem_append_right _ (List.mem_append_left _ (List.mem_append_left _ hx))
    · exact List.mem_append_right _ (List.mem_append_left _ (List.mem_append_right _ hx))
  inner a ha := by
    rcases Insertion.mem_row ha with ha | ha
    · exact c.inserted.inner (by simp) hB a ha
    · rw [kids_congr (c.mem_side ha)]
      exact c.before.above.1.inner a (mem_mid.mpr (Or.inr ha))

/-- The children of the two halves are at least half full, unless it is an only child. -/
theorem wide (c : Climb s s' Ds L ins R cnt A₁ p A₂ As D₁ xs ys D₂ split size l)
    (hlen : 2 ≤ (xs ++ (counted s.total (ins.node :: ins.new.toList) ++ ys)).length) {x : Addr}
    (hx : x ∈ xs.map Prod.fst ++ (ins.node :: (ins.new.toList ++ ys.map Prod.fst))) :
    B / 2 ≤ s.width x := by
  have hxV : x ∈ ins.row L R := by
    rw [c.row_eq]; exact List.mem_append_right _ (List.mem_append_left _ hx)
  have hpw := c.parent.width
  rw [List.length_append, List.length_cons] at hpw
  by_cases h2 : 2 ≤ s.width p
  · by_cases hxn : x ∈ ins.new
    · exact (c.before.half x hxn).2
    · refine c.before.occ _ rfl p (List.mem_append_right _ List.mem_cons_self) h2 x ?_ hxV
      rw [c.parent.kids]
      simp only [kidsOf, List.map_append, List.map_cons, List.mem_append, List.mem_cons,
        Option.mem_toList] at hx ⊢
      tauto
  · -- the node was an only child, so there is a new one beside it
    obtain rfl := List.length_eq_zero_iff.mp (show xs.length = 0 by omega)
    obtain rfl := List.length_eq_zero_iff.mp (show ys.length = 0 by omega)
    cases hnew : ins.new with
    | none =>
        rw [hnew] at hlen
        exact absurd hlen (by simp)
    | some y =>
        have hhalf := c.before.half y hnew
        rw [hnew] at hx
        simp only [List.map_nil, Option.toList_some, List.nil_append, List.append_nil,
          List.mem_cons, List.not_mem_nil, or_false] at hx
        rcases hx with rfl | rfl
        · exact hhalf.1
        · exact hhalf.2

theorem occ (c : Climb s s' Ds L ins R cnt A₁ p A₂ As D₁ xs ys D₂ split size l) :
    Occ s' ((⟨p, split⟩ : Insertion).row A₁ A₂) (ins.row L R) := by
  intro a ha hwa x hx hxV
  rw [width_congr (c.mem_row hxV)]
  rcases Insertion.mem_row ha with ha | ha
  · obtain ⟨E', nx', hE', hsub⟩ := c.inserted.row.nodeAt ha
    rw [hE'.kids] at hx
    have hx' := List.map_subset Prod.fst hsub hx
    rw [List.map_append, List.map_append, map_fst_counted, List.cons_append] at hx'
    refine c.wide ?_ hx'
    rcases c.inserted.width with ⟨hs, hw⟩ | ⟨_, hfull, _⟩
    · rw [hs, Option.toList_none, List.mem_singleton] at ha
      rw [ha, hw] at hwa
      exact hwa
    · have := hE'.length_le
      rw [hE'.width] at hwa
      omega
  · rw [kids_congr (c.mem_side ha)] at hx
    rw [width_congr (c.mem_side ha)] at hwa
    exact c.before.occ _ rfl a (mem_mid.mpr (Or.inr ha)) hwa x hx hxV

theorem count (c : Climb s s' Ds L ins R cnt A₁ p A₂ As D₁ xs ys D₂ split size l) :
    s.total p + 1 = ((xs ++ (counted s.total (ins.node :: ins.new.toList) ++ ys)).map
      (Node.itemSize (T := T) .internal)).sum := by
  have htp := c.parent.total
  have hcnt := c.before.count
  have hsum : ((counted s.total ins.new.toList).map (Node.itemSize (T := T) .internal)).sum
      = (ins.new.toList.map s.total).sum := congrArg List.sum (map_snd_counted s.total _)
  have hsize : ∀ k, Node.itemSize (T := T) .internal (ins.node, k) = k := fun _ => rfl
  simp only [counted_cons, List.map_append, List.map_cons, List.sum_append, List.sum_cons, hsum,
    hsize] at htp ⊢
  omega

/-- One turn of the loop. -/
theorem after (c : Climb s s' Ds L ins R cnt A₁ p A₂ As D₁ xs ys D₂ split size l) (hB : 3 ≤ B) :
    Growing s' (ins.row L R :: Ds) A₁ ⟨p, split⟩ A₂ s.total As size l
      ∧ Effect s s' {x | x ∈ rowNodes Ds (ins.row L R) ((A₁ ++ p :: A₂) :: As)}
          {x | x ∈ rowNodes (ins.row L R :: Ds) ((⟨p, split⟩ : Insertion).row A₁ A₂) As} := by
  have hperm := rowNodes_perm Ds (ins.row L R) (A₁ ++ p :: A₂) As
  have hF : {x | x ∈ rowNodes Ds (ins.row L R) ((A₁ ++ p :: A₂) :: As)}
      = {x | x ∈ rowNodes (ins.row L R :: Ds) (A₁ ++ p :: A₂) As} :=
    Set.ext fun x => hperm.mem_iff
  rw [hF]
  obtain ⟨_, hw, ho, ha⟩ := c.before.above
  -- the row below takes the new row of the parent as it is
  have hbelow : Below s' ((⟨p, split⟩ : Insertion).row A₁ A₂) (ins.row L R :: Ds) l := by
    refine ⟨c.edge hB, c.occ, c.before.below.congr (fun x hx => ?_) fun x hx => ?_⟩
    · rw [List.mem_append] at hx
      rcases hx with hx | hx
      · exact c.mem_row hx
      · exact c.body_eq (List.mem_append_left _ hx)
    · exact c.link_eq (List.mem_append_left _ hx)
  refine c.inserted.growing (show .internal = rowKind (ins.row L R :: Ds) from rfl) ?_
    (fun x hx => c.lt_next ?_) ?_ ?_ ?_ ha ho
    ?_ hbelow
  · intro x hx
    have hrow := c.row_eq
    simp only [kidsOf, List.map_append, map_fst_counted] at hx
    rw [List.flatten_cons, hrow]
    exact List.mem_append_left _ (List.mem_append_right _ (List.mem_append_left _ hx))
  · exact hperm.mem_iff.mpr hx
  · exact hperm.nodup_iff.mp c.before.nodup
  · rw [c.parent.width]
    simp only [counted, List.length_append, List.length_cons, List.length_map]
    omega
  · exact c.count
  · intro hAs _
    exact hw hAs p (List.mem_append_right _ List.mem_cons_self)

end Climb

/-! ## The new root -/

section Root

variable {Ds : List (List Addr)} {L R : List Addr} {ins : Insertion} {cnt : Addr → Nat}
  {p x : Addr} {size : Nat} {l : List T}

/-- The root was split into `a` and `x`, which are the children of the new root `p`. -/
structure Raised (s s' : Store T P B) (Ds : List (List Addr)) (a x p : Addr) (size : Nat)
    (l : List T) : Prop where
  below : Below s [a, x] Ds l
  half : B / 2 ≤ s.width a ∧ B / 2 ≤ s.width x
  count : size + 1 = s.total a + s.total x
  nodup : (rowNodes Ds [a, x] []).Nodup
  fresh : s.heap.next ≤ p
  root : s'.link p = some (none, 0)
  node : NodeAt s' .internal p [(a, s.total a), (x, s.total x)] none
  frame : Frame s s' {p} {p, a, x}

namespace Raised

theorem ne_root (h : Raised s s' Ds a x p size l) : ∀ y ∈ [a, x] ++ Ds.flatten, y ≠ p := by
  intro y hy he
  have hlt := h.below.lt_next y hy
  rw [he] at hlt
  exact absurd hlt (Nat.not_lt.mpr h.fresh)

theorem body_eq (h : Raised s s' Ds a x p size l) :
    ∀ y ∈ [a, x] ++ Ds.flatten, s'.body y = s.body y :=
  fun y hy => h.frame.body y (h.ne_root y hy)

/-- The links of the rows below the halves are kept. -/
theorem link_eq (h : Raised s s' Ds a x p size l) : ∀ y ∈ Ds.flatten, s'.link y = s.link y := by
  intro y hy
  refine h.frame.link y ?_
  have hyr := (List.nodup_append.mp h.nodup).2.2 y hy
  simp only [Set.mem_insert_iff, Set.mem_singleton_iff, not_or]
  exact ⟨h.ne_root y (List.mem_append_right _ hy), hyr _ (by simp), hyr _ (by simp)⟩

theorem counted_eq (h : Raised s s' Ds a x p size l) :
    counted s'.total [a, x] = [(a, s.total a), (x, s.total x)] := by
  have ha := total_congr (h.body_eq a (by simp))
  have hx := total_congr (h.body_eq x (by simp))
  rw [counted_cons, counted_cons, counted_nil, ha, hx]

theorem tree (h : Raised s s' Ds a x p size l) : Below s' [p] ([a, x] :: Ds) l := by
  refine ⟨⟨?_, ?_⟩, ?_, h.below.congr h.body_eq h.link_eq⟩
  · rw [h.counted_eq]
    exact ⟨_, [], (List.append_nil _).symm, h.node, rfl⟩
  · intro b hb
    obtain rfl := List.mem_singleton.mp hb
    rw [h.node.kids]
    exact List.cons_ne_nil _ _
  · intro b _ _ c hc hcV
    rw [width_congr (h.body_eq c (List.mem_append_left _ hcV))]
    rw [List.mem_cons, List.mem_singleton] at hcV
    rcases hcV with rfl | rfl
    · exact h.half.1
    · exact h.half.2

theorem total_eq (h : Raised s s' Ds a x p size l) : s'.total p = size + 1 := by
  rw [h.node.total, h.count]
  rfl

theorem growing (h : Raised s s' Ds a x p size l) :
    Growing s' ([a, x] :: Ds) [] ⟨p, none⟩ [] (fun _ => size) [] size l where
  below := h.tree
  above := ⟨p, rfl, h.root, rfl⟩
  count := h.total_eq.symm
  count_eq c hc := absurd hc List.not_mem_nil
  occ A hA := by cases hA
  half c hc := by cases hc
  new_link c hc := by cases hc
  wide _ _ _ := by
    show 2 ≤ s'.width p
    rw [h.node.width]
    exact Nat.le_refl 2
  nodup := by
    have hnd := h.nodup
    rw [rowNodes, List.flatten_nil, List.append_nil] at hnd
    refine List.nodup_append.mpr ⟨List.nodup_append_comm.mp hnd, List.nodup_singleton p, ?_⟩
    intro y hy z hz
    obtain rfl := List.mem_singleton.mp hz
    exact h.ne_root y hy

theorem local_rows (h : Raised s s' Ds a x p size l) :
    Local s s' {y | y ∈ rowNodes Ds [a, x] []} {y | y ∈ rowNodes ([a, x] :: Ds) [p] []} := by
  refine Local.of_frame h.frame ?_ ?_ ?_ ?_
  · intro y hy
    obtain rfl := Set.mem_singleton_iff.mp hy
    simp [rowNodes]
  · intro y hy
    simp only [Set.mem_insert_iff, Set.mem_singleton_iff] at hy
    simp only [Set.mem_ofPred_eq, rowNodes, List.flatten_cons, List.mem_append, List.mem_cons]
    tauto
  · intro y hy
    simp only [Set.mem_ofPred_eq, rowNodes, List.flatten_cons, List.mem_append,
      List.mem_cons] at hy ⊢
    tauto
  · intro y hy
    by_cases hyp : y = p
    · exact Or.inr (hyp ▸ h.fresh)
    · left
      simp only [Set.mem_ofPred_eq, rowNodes, List.flatten_cons, List.mem_append,
        List.mem_cons, List.flatten_nil] at hy ⊢
      tauto

end Raised

/-- The root was split, and the two halves are the children of a new one. -/
theorem Growing.newRoot (h : Growing s Ds L ins R cnt [] size l) (hx : ins.new = some x)
    (hp : s.heap.next ≤ p) (hlink : s'.link p = some (none, 0))
    (hat : NodeAt s' .internal p [(ins.node, s.total ins.node), (x, s.total x)] none)
    (f : Frame s s' {p} {p, ins.node, x}) :
    Growing s' (ins.row L R :: Ds) [] ⟨p, none⟩ [] (fun _ => size) [] size l
      ∧ Local s s' {x | x ∈ rowNodes Ds (ins.row L R) []}
          {x | x ∈ rowNodes (ins.row L R :: Ds) [p] []} := by
  obtain ⟨rfl, rfl, _, rfl⟩ := Above.root h.above
  have hrow : ins.row [] [] = [ins.node, x] := by rw [Insertion.row, hx]; rfl
  have hbelow := h.below
  have hnd := h.nodup
  have hcount := h.count
  rw [hx, Option.toList_some, List.map_singleton, List.sum_singleton] at hcount
  rw [hrow] at hbelow hnd ⊢
  have hr : Raised s s' Ds ins.node x p (cnt ins.node) l :=
    ⟨hbelow, h.half x hx, hcount, hnd, hp, hlink, hat, f⟩
  exact ⟨hr.growing, hr.local_rows⟩

end Root

/-! ## The loop -/

section Run

variable {Ds As : List (List Addr)} {L R : List Addr} {ins : Insertion} {cnt : Addr → Nat}
  {size : Nat} {l : List T}

/--
One turn of the loop: at the root it ends, below the root it climbs to the parent, and
above a root that was split there is a new one.
-/
inductive Turn (s s' : Store T P B) (Ds : List (List Addr)) (L : List Addr) (ins : Insertion)
    (R : List Addr) (cnt : Addr → Nat) (As : List (List Addr)) (size : Nat) (l : List T) :
    InsertionResult → Prop where
  | done (hnew : ins.new = none) (hAs : As = []) (hL : L = []) (hR : R = []) (hs : s' = s)
      (hl : s.link ins.node = some (none, 0)) : Turn s s' Ds L ins R cnt As size l (.done ins.node)
  | climb {A₁ A₂ : List Addr} {As' : List (List Addr)} {p : Addr} {D₁ xs ys D₂ : List (Addr × Nat)}
      {split : Option Addr} (hAs : As = (A₁ ++ p :: A₂) :: As')
      (c : Climb s s' Ds L ins R cnt A₁ p A₂ As' D₁ xs ys D₂ split size l)
      (hnone : ins.new = none → split = none) :
      Turn s s' Ds L ins R cnt As size l (.insertion ⟨p, split⟩)
  | newRoot {x q : Addr} (hnew : ins.new = some x) (hAs : As = []) (hL : L = []) (hR : R = [])
      (hl : s.link ins.node = some (none, 0)) (hq : s.heap.next ≤ q)
      (hlink : s'.link q = some (none, 0))
      (hat : NodeAt s' .internal q [(ins.node, s.total ins.node), (x, s.total x)] none)
      (f : Frame s s' {q} {q, ins.node, x}) :
      Turn s s' Ds L ins R cnt As size l (.insertion ⟨q, none⟩)

theorem Turn.next_le {r : InsertionResult} (h : Turn s s' Ds L ins R cnt As size l r) :
    s.heap.next ≤ s'.heap.next := by
  cases h with
  | done _ _ _ _ hs _ => rw [hs]
  | climb _ c _ => exact c.inserted.frame.next_le
  | newRoot _ _ _ _ _ _ _ _ f => exact f.next_le

/-- The root was split: a new root is made, and the two halves are put into it. -/
theorem newRoot_spec {x : Addr} (h : Growing s Ds [] ins [] cnt [] size l)
    (hx : ins.new = some x) (hl : s.link ins.node = some (none, 0)) (hB : 3 ≤ B) :
    Returns (do
      let parent ← InternalNode.alloc
      InternalNode.simpleInsert parent 0 (ins.node, size)
      updateParent parent 0 (some (x, s.total x))) s
      (fun r s' => Turn s s' Ds [] ins [] cnt [] size l r) := by
  obtain ⟨_, _, _, hrs⟩ := Above.root h.above
  have hxl := (h.new_link x hx).1
  have hcount := h.count
  rw [hx, Option.toList_some, List.map_singleton, List.sum_singleton] at hcount
  have hnx : x ≠ ins.node := by
    have hnd := h.nodup
    rw [rowNodes, Insertion.row, hx] at hnd
    have hrow := (List.nodup_append.mp (List.nodup_append.mp hnd).2.1).1
    intro he
    subst he
    exact (List.nodup_cons.mp hrow).1 List.mem_cons_self
  rw [returns_bind]
  refine (InternalNode.alloc_spec s).mono ?_
  intro _ s₁ h₁
  obtain ⟨rfl, hn₁, hb₁, hl₁, f₁, _⟩ := h₁
  -- the cell of the new root was not in use, so nothing else is relinked
  have hold : ∀ {y : Addr} {p : Option Addr × Nat}, s.link y = some p → s₁.link y = some p := by
    intro y p hy
    rw [f₁.link y fun he => Nat.ne_of_lt (Store.lt_next_of_link hy) he, hy]
  rw [returns_bind]
  have hb₁' : s₁.body s.heap.next = some (.internal ([] ++ [])) := hb₁
  have hinsert := InternalNode.simpleInsert_spec (m := size) hb₁' (by simp; omega) trivial (hold hl)
    List.not_mem_nil
  refine hinsert.mono ?_
  intro _ s₂ h₂
  obtain ⟨hb₂, had₂, _, f₂⟩ := h₂
  have hat₂ : NodeAt s₂ .internal s.heap.next [(ins.node, size)] none := ⟨hb₂, had₂⟩
  have hne : ∀ {y : Addr} {p : Option Addr × Nat}, s.link y = some p → y ≠ s.heap.next :=
    fun hy => Nat.ne_of_lt (Store.lt_next_of_link hy)
  have hxl₂ : s₂.link x = some (none, 0) := by
    rw [f₂.link x fun hy => hnx (List.mem_singleton.mp hy), hold hxl]
  have hpl₂ : s₂.link s.heap.next = some (none, 0) := by
    rw [f₂.link _ fun hy => hne hl (List.mem_singleton.mp hy).symm, hl₁]
  have hat₂' : NodeAt s₂ .internal s.heap.next ([] ++ (ins.node, size) :: []) none := hat₂
  refine (updateParent_spec (k := s.total ins.node) (some (x, s.total x)) hat₂'
    (fun y hy => by cases hy; exact hxl₂) (by
      rw [← hrs, hcount, Option.toList_some, List.map_singleton, List.sum_singleton]) hB).mono ?_
  intro _ s₃ h₃
  obtain ⟨split, rfl, _, hins⟩ := h₃
  -- two children fit, so the new root is not split in turn
  obtain rfl := hins.fits_of_lt (by simp; omega)
  cases hins with
  | fits hat f₃ =>
    have hsub : ({s.heap.next} ∪ {y | y ∈ [ins.node]} ∪ {y | y ∈ [ins.node, x]} : Set Addr)
        ⊆ {s.heap.next, ins.node, x} := by
      intro y hy
      rcases hy with (hy | hy) | hy
      · exact Or.inl hy
      · exact Or.inr (Or.inl (List.mem_singleton.mp hy))
      · exact Or.inr (by simpa using hy)
    have f : Frame s s₃ {s.heap.next} {s.heap.next, ins.node, x} :=
      ((f₁.trans f₂).trans f₃).mono (by simp) hsub
    have hp₃ : s₃.link s.heap.next = some (none, 0) := by
      rw [f₃.link _ fun hy => ?_, hpl₂]
      rcases List.mem_cons.mp hy with hy | hy
      · exact hne hl hy.symm
      · exact hne hxl (List.mem_singleton.mp hy).symm
    exact .newRoot hx rfl rfl rfl hl (Nat.le_refl _) hp₃ hat f

theorem handleInsertion_spec (h : Growing s Ds L ins R cnt As size l) (hB : 3 ≤ B) :
    Returns (handleInsertion (rowKind Ds) ins size) s (fun r s' =>
      Turn s s' Ds L ins R cnt As size l r) := by
  obtain ⟨C, hrow⟩ := h.below.rowAt
  obtain ⟨E, nx, hn, _⟩ := hrow.nodeAt (a := ins.node) (by simp [Insertion.row])
  have hsize : ∀ x ∈ ins.new, ∀ {Q : Nat → Store T P B → Prop},
      Returns (Node.size (rowKind Ds) x) s Q ↔ Q (s.total x) s := by
    intro x hx Q
    obtain ⟨E', nx', hx', _⟩ := hrow.nodeAt (a := x) (by
      simp only [Insertion.row, List.mem_append, List.mem_cons, Option.mem_toList]; tauto)
    exact Node.size_spec hx' (h.new_link x hx).2
  cases As with
  | nil =>
      obtain ⟨rfl, rfl, hrl, hrs⟩ := Above.root h.above
      cases hx : ins.new with
      | none =>
          unfold handleInsertion
          simp only [hx, returns_bind, returns_pure, Node.index_spec hn hrl,
            returns_parent hrl]
          exact .done hx rfl rfl rfl rfl hrl
      | some x =>
          have hu := newRoot_spec h hx hrl hB
          simpa only [handleInsertion, hx, returns_bind, returns_pure,
            Node.index_spec hn hrl, returns_parent hrl, hsize x hx] using hu
  | cons A As =>
      obtain ⟨A₁, p, A₂, D₁, xs, ys, D₂, rfl, hL, hR, h₁, hp, h₂⟩ := h.above.1.parent
      have hlink : s.link ins.node = some (some p, xs.length) := by
        have := (Adopted.append.mp hp.2).2.1
        rwa [Nat.zero_add] at this
      -- with a parent, whether or not there is a new node to hand to it
      have turn : ∀ new, new = ins.new.map (fun x => (x, s.total x)) →
          Returns (updateParent p xs.length new) s (fun r s' =>
            Turn s s' Ds L ins R cnt ((A₁ ++ p :: A₂) :: As) size l r) := by
        intro new he
        subst he
        have hup := updateParent_spec (k := s.total ins.node)
          (ins.new.map fun x => (x, s.total x)) hp ?_ ?_ hB
        · refine hup.mono ?_
          intro _ s' h'
          obtain ⟨split, rfl, hnone, hins⟩ := h'
          have c : Climb s s' Ds L ins R cnt A₁ p A₂ As D₁ xs ys D₂ split size l := by
            refine ⟨h, hL, hR, h₁, h₂, hp, ?_⟩
            have hE : counted s.total (ins.node :: ins.new.toList)
                = (ins.node, s.total ins.node) :: (ins.new.map fun x => (x, s.total x)).toList := by
              cases ins.new <;> rfl
            rw [hE]
            exact hins
          exact .climb rfl c fun hx => hnone (by rw [hx]; rfl)
        · intro x hx
          obtain ⟨y, hy, rfl⟩ := Option.map_eq_some_iff.mp hx
          exact (h.new_link y hy).1
        · have hcount := h.count
          cases hx : ins.new with
          | none => rw [hx] at hcount; exact hcount
          | some x => rw [hx] at hcount; exact hcount
      cases hx : ins.new with
      | none =>
          have hu := turn none (by rw [hx]; rfl)
          simpa only [handleInsertion, hx, returns_bind, returns_pure,
            Node.index_spec hn hlink, returns_parent hlink] using hu
      | some x =>
          have hu := turn (some (x, s.total x)) (by rw [hx]; rfl)
          simpa only [handleInsertion, hx, returns_bind, returns_pure,
            Node.index_spec hn hlink, returns_parent hlink, hsize x hx] using hu

/-- The root is reached, and the rows are a tree. -/
theorem Growing.tree (h : Growing s Ds [] ins [] cnt [] size l) (hnew : ins.new = none)
    (hl : s.link ins.node = some (none, 0)) : Tree s ins.node Ds l := by
  have hrow : ins.row [] [] = [ins.node] := by rw [Insertion.row, hnew]; rfl
  refine ⟨?_, hl, h.wide rfl hnew, ?_⟩
  · rw [← hrow]; exact h.below
  · rw [← hrow]; exact h.nodup

/-- There are fewer turns to come than nodes in the store. -/
theorem Growing.turns_le (h : Growing s Ds L ins R cnt As size l) :
    As.length + ins.new.toList.length + 1 ≤ s.heap.next := by
  have hnd := h.nodup
  have hAs := h.above.length_le (by simp)
  have hle := length_le_of_nodup hnd fun x hx => by
    rw [rowNodes, List.mem_append, List.mem_append] at hx
    rcases hx with hx | hx | hx
    · exact h.below.lt_next x (List.mem_append_right _ hx)
    · exact h.below.lt_next x (List.mem_append_left _ hx)
    · exact h.above.lt_next x hx
  simp only [rowNodes, Insertion.row, List.length_append, List.length_cons] at hle
  omega

/-- Each turn keeps `G`, which is about the rows and the store. -/
structure Carried (G : List (List Addr) → List Addr → Insertion → List Addr → List (List Addr) →
    Store T P B → Prop) : Prop where
  climb : ∀ {s s' : Store T P B} {Ds As : List (List Addr)} {L R A₁ A₂ : List Addr}
    {ins : Insertion} {cnt : Addr → Nat} {p : Addr} {D₁ xs ys D₂ : List (Addr × Nat)}
    {split : Option Addr} {size : Nat} {l : List T}, G Ds L ins R ((A₁ ++ p :: A₂) :: As) s →
    Climb s s' Ds L ins R cnt A₁ p A₂ As D₁ xs ys D₂ split size l →
    G (ins.row L R :: Ds) A₁ ⟨p, split⟩ A₂ As s'
  newRoot : ∀ {s s' : Store T P B} {Ds : List (List Addr)} {ins : Insertion} {x q : Addr},
    G Ds [] ins [] [] s → ins.new = some x → s.link ins.node = some (none, 0) →
    s.heap.next ≤ q → NodeAt s' .internal q [(ins.node, s.total ins.node), (x, s.total x)] none →
    Frame s s' {q} {q, ins.node, x} → G (ins.row [] [] :: Ds) [] ⟨q, none⟩ [] [] s'

theorem Carried.trivial : Carried (T := T) (P := P) (B := B) fun _ _ _ _ _ _ => True :=
  ⟨fun _ _ => True.intro, fun _ _ _ _ _ _ => True.intro⟩

variable {G : List (List Addr) → List Addr → Insertion → List Addr → List (List Addr) →
  Store T P B → Prop}

/-- Where the loop of `insert` is: done, or between two turns with `v` bounding those to come. -/
def Climbing (G : List (List Addr) → List Addr → Insertion → List Addr → List (List Addr) →
    Store T P B → Prop) (s₀ : Store T P B) (F : Set Addr) (size : Nat) (l : List T) (v : Nat)
    (r : InsertionResult) (s : Store T P B) : Prop :=
  match r with
  | .done root => ∃ Ds, Tree s root Ds l
      ∧ Effect s₀ s F {x | x ∈ rowNodes Ds [root] []} ∧ G Ds [] ⟨root, none⟩ [] [] s
  | .insertion ins => ∃ D Ds L R cnt As, Growing s (D :: Ds) L ins R cnt As size l
      ∧ Effect s₀ s F {x | x ∈ rowNodes (D :: Ds) (ins.row L R) As}
      ∧ As.length + ins.new.toList.length < v ∧ G (D :: Ds) L ins R As s

theorem Climbing.of_turn {s₀ : Store T P B} {F : Set Addr} {r : InsertionResult}
    (h : Growing s Ds L ins R cnt As size l)
    (he : Effect s₀ s F {x | x ∈ rowNodes Ds (ins.row L R) As}) (hG : G Ds L ins R As s)
    (hcar : Carried G) (hB : 3 ≤ B) (ht : Turn s s' Ds L ins R cnt As size l r) :
    Climbing G s₀ F size l (As.length + ins.new.toList.length) r s' := by
  cases ht with
  | done hnew hAs hL hR hs hl =>
      subst hAs hL hR hs
      refine ⟨Ds, h.tree hnew hl, ?_, ?_⟩
      · rwa [Insertion.row, hnew] at he
      · obtain ⟨node, new⟩ := ins
        obtain rfl : new = none := hnew
        exact hG
  | @climb A₁ A₂ As' p D₁ xs ys D₂ split hAs c hnone =>
      subst hAs
      obtain ⟨hgrow, heff⟩ := c.after hB
      refine ⟨_, Ds, A₁, A₂, _, As', hgrow, he.trans heff, ?_, hcar.climb hG c⟩
      cases hx : ins.new with
      | none =>
          rw [hnone hx]
          exact Nat.lt_succ_self _
      | some x =>
          -- a row less above, and one node at most split off: the variant falls
          have : split.toList.length ≤ 1 := by cases split <;> simp
          rw [List.length_cons, Option.toList_some, List.length_singleton]
          show As'.length + split.toList.length < _
          omega
  | @newRoot x q hnew hAs hL hR hl hq hlink hat f =>
      subst hAs hL hR
      obtain ⟨hgrow, hloc⟩ := h.newRoot hnew hq hlink hat f
      refine ⟨_, Ds, [], [], _, [], hgrow, he.trans (.of_local hloc f.destroyed f.dropped), ?_,
        hcar.newRoot hG hnew hl hq hat f⟩
      rw [hnew]
      exact Nat.lt_succ_self 0

/-- The turns of the loop that are left. -/
theorem Climbing.loop {s₀ : Store T P B} {F : Set Addr} {v fuel : Nat} {r : InsertionResult}
    (h : Climbing G s₀ F size l v r s) (hv : v < fuel) (hcar : Carried G) (hB : 3 ≤ B) :
    Returns (loop .outOfFuel (fun result => match result with
      | .done root => pure (.inr root)
      | .insertion ins => .inl <$> handleInsertion .internal ins size) fuel r) s (fun root s' =>
      ∃ Ds, Tree s' root Ds l ∧ Effect s₀ s' F {y | y ∈ rowNodes Ds [root] []}
        ∧ G Ds [] ⟨root, none⟩ [] [] s') := by
  -- the variant is the number of rows above, plus one while there is a new node
  refine returns_loop (Climbing G s₀ F size l) ?_ hv h
  intro v r t hr
  cases r with
  | done root => exact hr
  | insertion ins =>
      obtain ⟨D, Ds, L, R, cnt, As', hg', he', hlt, hG'⟩ := hr
      rw [returns_map]
      refine (handleInsertion_spec hg' hB).mono ?_
      intro r' t' ht'
      exact ⟨_, hlt, Climbing.of_turn hg' he' hG' hcar hB ht'⟩

/-- The item is put into the leaf, and the leaf is dealt with: this is all before the loop. -/
theorem start_spec {U V : List Addr} {xs ys l₁ l₂ : List T} {x : T}
    (hrow₁ : RowAt s .leaf U l₁ (some a)) (ha : NodeAt s .leaf a (xs ++ ys) (V.head?.or none))
    (hrow₂ : RowAt s .leaf V l₂ none)
    (h : AtLeaves s (U ++ a :: V) As (l₁ ++ (xs ++ ys ++ l₂))) (hB : 3 ≤ B) (hcar : Carried G)
    (hG : ∀ new s₁, Inserted s s₁ .leaf a (xs ++ x :: ys) (V.head?.or none) new →
      G [] U ⟨a, new⟩ V As s₁) (hsize : (l₁ ++ (xs ++ ys ++ l₂)).length = size) :
    Returns (insertOnce .leaf a xs.length x) s (fun new s₁ =>
      Returns (handleInsertion .leaf ⟨a, new⟩ size) s₁ (fun r s₂ =>
        ∃ v ≤ As.length + 1, v < s₂.heap.next + 2
          ∧ Climbing G s {y | y ∈ rowNodes [] (U ++ a :: V) As} size
            (l₁ ++ (xs ++ x :: ys ++ l₂)) v r s₂)) := by
  refine (insertOnce_spec (N := .leaf) ha trivial hB).mono ?_
  intro new s₁ hins
  -- the leaf that the insertion splits off is not in any row yet
  have hlt : ∀ y ∈ rowNodes [] (U ++ a :: V) As, y < s.heap.next := by
    intro y hy
    rcases List.mem_append.mp (show y ∈ (U ++ a :: V) ++ As.flatten from hy) with hy | hy
    · exact h.row.lt_next hy
    · exact h.above.lt_next y hy
  have hnew : ∀ y, y ∈ U ∨ y ∈ V → s₁.body y = s.body y := by
    intro y hy
    have hyr : y ∈ U ++ a :: V := mem_mid.mpr (Or.inr hy)
    refine hins.frame.body y fun hmem => ?_
    rcases List.mem_cons.mp hmem with rfl | hmem
    · have hnd := (List.nodup_append.mp (show ((U ++ y :: V) ++ As.flatten).Nodup from h.nodup)).1
      rw [List.nodup_middle, List.nodup_cons, List.mem_append] at hnd
      exact hnd.1 hy
    · exact absurd (h.row.lt_next hyr)
        (Nat.not_lt.mpr (hins.fresh y (Option.mem_toList.mp hmem)))
  have hrow : RowAt s₁ .leaf ((⟨a, new⟩ : Insertion).row U V) (l₁ ++ (xs ++ x :: ys ++ l₂)) none :=
    RowAt.splice
      (hrow₁.congr (fun y hy => hnew y (Or.inl hy)) fun y hy => absurd hy List.not_mem_nil)
      hins.row
      (hrow₂.congr (fun y hy => hnew y (Or.inr hy)) fun y hy => absurd hy List.not_mem_nil)
  have habove : Above s (U ++ a :: V) s.total As size := hsize ▸ h.above
  have hg := hins.growing (show .leaf = rowKind [] from rfl)
    (fun y hy => absurd hy List.not_mem_nil) hlt h.nodup ?_ ?_ habove h.occ
    (fun _ hD => absurd rfl hD) hrow
  refine (handleInsertion_spec hg.1 hB).mono ?_
  intro r s₂ ht
  refine ⟨_, ?_, ?_, Climbing.of_turn hg.1 hg.2 (hG new s₁ hins) hcar hB ht⟩
  · have : new.toList.length ≤ 1 := by cases new <;> simp
    exact Nat.add_le_add_left this _
  · have := hg.1.turns_le
    have := ht.next_le
    omega
  · rw [ha.width, List.length_append, List.length_append, List.length_cons]
    omega
  · rw [ha.total]
    show ((xs ++ ys).map fun _ => 1).sum + 1 = ((xs ++ x :: ys).map fun _ => 1).sum
    simp only [List.map_const', List.sum_replicate_nat, List.length_append, List.length_cons]
    omega

/-- `insert` puts the item into the leaf and repairs the tree up to the root. -/
theorem insert_spec {U V : List Addr} {xs ys l₁ l₂ : List T} {x : T}
    (hrow₁ : RowAt s .leaf U l₁ (some a)) (ha : NodeAt s .leaf a (xs ++ ys) (V.head?.or none))
    (hrow₂ : RowAt s .leaf V l₂ none)
    (h : AtLeaves s (U ++ a :: V) As (l₁ ++ (xs ++ ys ++ l₂))) (hB : 3 ≤ B) (hcar : Carried G)
    (hG : ∀ new s₁, Inserted s s₁ .leaf a (xs ++ x :: ys) (V.head?.or none) new →
      G [] U ⟨a, new⟩ V As s₁) :
    Returns (insert a xs.length x (l₁ ++ (xs ++ ys ++ l₂)).length) s (fun root s' =>
      ∃ Ds, Tree s' root Ds (l₁ ++ (xs ++ x :: ys ++ l₂))
        ∧ Effect s s' {y | y ∈ rowNodes [] (U ++ a :: V) As}
            {y | y ∈ rowNodes Ds [root] []} ∧ G Ds [] ⟨root, none⟩ [] [] s') := by
  generalize hsize : (l₁ ++ (xs ++ ys ++ l₂)).length = size
  unfold insert
  simp only [returns_bind, returns_get]
  refine (start_spec hrow₁ ha hrow₂ h hB hcar hG hsize).mono ?_
  intro new s₁ hstart
  refine hstart.mono ?_
  intro r s₂ hr
  obtain ⟨v, _, hv, hc⟩ := hr
  exact hc.loop hv hcar hB

end Run

end Insert

end BTreeVec
