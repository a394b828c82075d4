import BTreeVec.Lib.Prog

/-!
# Draining an iterator

An iterator is a state `γ` with a call `next` that gives an item or nothing and
the state after it, and with a hint of how many items are still to come. The rule
`returns_drain` asks for an invariant that says which items these are; the calls
then give exactly them, and nothing from then on.
-/

namespace Prog

variable {ε σ α γ η : Type}

/-- What `k` calls of `next` give, with the hint read before each. -/
def drain (hint : γ → η) (next : γ → EStateM ε σ (Option α × γ)) :
    Nat → γ → EStateM ε σ (List (η × Option α))
  | 0, _ => pure []
  | k + 1, c => do
      let r ← next c
      let rest ← drain hint next k r.2
      pure ((hint c, r.1) :: rest)

/-- What `k` calls give when the items `l` are to come and every hint is exact. -/
def traversal : Nat → List α → List ((Nat × Option Nat) × Option α)
  | 0, _ => []
  | k + 1, l => ((l.length, some l.length), l.head?) :: traversal k l.tail

/-- The rule for `drain`: `I l c` says that the items `l` are to come. -/
theorem returns_drain {hint : γ → Nat × Option Nat} {next : γ → EStateM ε σ (Option α × γ)}
    (I : List α → γ → σ → Prop) (hhint : ∀ l c s, I l c s → hint c = (l.length, some l.length))
    (hnext : ∀ l c s, I l c s →
      Returns (next c) s (fun r s' => r.1 = l.head? ∧ I l.tail r.2 s')) :
    ∀ {k : Nat} {l : List α} {c : γ} {s : σ}, I l c s →
      Returns (drain hint next k c) s (fun r _ => r = traversal k l) := by
  intro k
  induction k with
  | zero => intro l c s _; rfl
  | succ k ih =>
      intro l c s hi
      rw [drain, returns_bind]
      refine (hnext l c s hi).mono ?_
      intro r s' hr
      rw [returns_bind]
      refine (ih hr.2).mono ?_
      intro rest t ht
      rw [returns_pure, traversal, hhint l c s hi, hr.1, ht]

/-- The iterator can be called as often as one likes. -/
def Drains (hint : γ → η) (next : γ → EStateM ε σ (Option α × γ)) (c : γ) (s : σ) : Prop :=
  ∀ k, Returns (drain hint next k c) s (fun _ _ => True)

theorem Drains.next {hint : γ → η} {next : γ → EStateM ε σ (Option α × γ)} {c : γ} {s : σ}
    (h : Drains hint next c s) : Returns (next c) s (fun r s' => Drains hint next r.2 s') := by
  have hstep : ∀ k, Returns (next c) s (fun r s' =>
      Returns (drain hint next k r.2) s' (fun _ _ => True)) := by
    intro k
    have hk := h (k + 1)
    rw [drain, returns_bind] at hk
    refine hk.mono ?_
    intro r s' hr
    rw [returns_bind] at hr
    exact hr.mono fun _ _ _ => trivial
  obtain ⟨r, s', he, _⟩ := returns_iff.mp (hstep 0)
  refine .of_ok he fun k => ?_
  have hk := hstep k
  rw [Returns, he] at hk
  exact hk

/-! ## Skipping -/

/-- `k` calls of `next` whose items are discarded, and one more; an end on the way is the end. -/
def skipNext (discard : α → EStateM ε σ Unit) (next : γ → EStateM ε σ (Option α × γ)) :
    Nat → γ → EStateM ε σ (Option α × γ)
  | 0, c => next c
  | k + 1, c => do
      match ← next c with
      | (none, c) => pure (none, c)
      | (some a, c) => do
          discard a
          skipNext discard next k c

/--
The rule for `skipNext`: `I done l c s` says that the items `done` were discarded and `l`
are to come, and `Q done` what holds after a call that was not followed by a discard.
-/
theorem returns_skipNext {discard : α → EStateM ε σ Unit}
    {next : γ → EStateM ε σ (Option α × γ)} (I : List α → List α → γ → σ → Prop)
    {Q : List α → Option α × γ → σ → Prop}
    (hend : ∀ done c s, I done [] c s →
      Returns (next c) s (fun r s' => r.1 = none ∧ Q done r s'))
    (hnext : ∀ done a l c s, I done (a :: l) c s → Returns (next c) s (fun r s' => r.1 = some a
      ∧ Q done r s' ∧ Returns (discard a) s' (fun _ t => I (done ++ [a]) l r.2 t))) :
    ∀ {k : Nat} {done l : List α} {c : γ} {s : σ}, I done l c s →
      Returns (skipNext discard next k c) s
        (fun r s' => r.1 = l[k]? ∧ Q (done ++ l.take k) r s') := by
  intro k
  induction k with
  | zero =>
      intro done l c s hi
      rw [skipNext, List.take_zero, List.append_nil]
      cases l with
      | nil => exact hend done c s hi
      | cons a l => exact (hnext done a l c s hi).mono fun r s' hr => ⟨hr.1, hr.2.1⟩
  | succ k ih =>
      intro done l c s hi
      rw [skipNext, returns_bind]
      cases l with
      | nil =>
          refine (hend done c s hi).mono ?_
          rintro ⟨_, c'⟩ s' ⟨rfl, hq⟩
          exact ⟨rfl, by rw [List.take_nil, List.append_nil]; exact hq⟩
      | cons a l =>
          refine (hnext done a l c s hi).mono ?_
          rintro ⟨_, c'⟩ s' ⟨rfl, _, hd⟩
          rw [returns_bind]
          refine hd.mono fun _ t ht => (ih ht).mono fun r t' hr => ?_
          rw [List.append_assoc, List.singleton_append] at hr
          exact hr

/-! ## All items -/

/-- `for a in c { .. }`, which gathers the items. -/
def collect (e : ε) (next : γ → EStateM ε σ (Option α × γ)) :
    Nat → List α × γ → EStateM ε σ (List α) :=
  loop e fun (as, c) => do
    match ← next c with
    | (none, _) => return .inr as
    | (some a, c) => return .inl (as ++ [a], c)

/-- The rule for `collect`: the items `as` are to come, and no call writes. -/
theorem returns_collect {e : ε} {next : γ → EStateM ε σ (Option α × γ)} {s : σ}
    (I : List α → γ → Prop)
    (hnext : ∀ as c, I as c →
      Returns (next c) s (fun r s' => s' = s ∧ r.1 = as.head? ∧ I as.tail r.2))
    {fuel : Nat} {as : List α} {c : γ} (hfuel : as.length < fuel) (hI : I as c) :
    Returns (collect e next fuel ([], c)) s (fun r s' => s' = s ∧ r = as) := by
  refine returns_loop (fun v p s' => s' = s ∧ ∃ rest, v = rest.length ∧ I rest p.2
    ∧ p.1 ++ rest = as) ?_ hfuel ⟨rfl, as, rfl, hI, rfl⟩
  rintro _ ⟨done, c⟩ s' ⟨rfl, rest, rfl, hrest, rfl⟩
  rw [returns_bind]
  refine (hnext rest c hrest).mono ?_
  rintro ⟨_, c'⟩ _ ⟨rfl, rfl, htail⟩
  cases rest with
  | nil => exact ⟨rfl, (List.append_nil _).symm⟩
  | cons a rest =>
      refine ⟨rest.length, Nat.lt_succ_self _, rfl, rest, rfl, htail, ?_⟩
      rw [List.append_assoc]
      rfl

/-! ## Two iterators side by side -/

variable {β δ ρ : Type}

/--
Compares two iterators item by item until `f` breaks off with a result, or until one of
them ends: `Greater` if it is the second one, `Less` if only the first one, and else `Equal`.
-/
def iterCompare (e : ε) (f : α → β → Option ρ) (next : γ → EStateM ε σ (Option α × γ))
    (next' : δ → EStateM ε σ (Option β × δ)) :
    Nat → γ × δ → EStateM ε σ (ρ ⊕ Ordering) :=
  loop e fun (c, d) => do
    match ← next c with
    | (none, _) => do
        let (b, _) ← next' d
        return .inr (.inr (if b.isNone then .eq else .lt))
    | (some a, c) => do
        match ← next' d with
        | (none, _) => return .inr (.inr .gt)
        | (some b, d) =>
            match f a b with
            | some r => return .inr (.inl r)
            | none => return .inl (c, d)

/-- The same on lists. -/
def compareLists (f : α → β → Option ρ) : List α → List β → ρ ⊕ Ordering
  | [], [] => .inr .eq
  | [], _ :: _ => .inr .lt
  | _ :: _, [] => .inr .gt
  | a :: as, b :: bs =>
      match f a b with
      | some r => .inl r
      | none => compareLists f as bs

/-- The rule for `iterCompare`: the items `as` and `bs` are to come, and no call writes. -/
theorem returns_iterCompare {e : ε} {f : α → β → Option ρ}
    {next : γ → EStateM ε σ (Option α × γ)} {next' : δ → EStateM ε σ (Option β × δ)} {s : σ}
    (I : List α → γ → Prop) (J : List β → δ → Prop)
    (hnext : ∀ as c, I as c →
      Returns (next c) s (fun r s' => s' = s ∧ r.1 = as.head? ∧ I as.tail r.2))
    (hnext' : ∀ bs d, J bs d →
      Returns (next' d) s (fun r s' => s' = s ∧ r.1 = bs.head? ∧ J bs.tail r.2))
    {fuel : Nat} {as : List α} {bs : List β} {c : γ} {d : δ} (hfuel : as.length < fuel)
    (hI : I as c) (hJ : J bs d) :
    Returns (iterCompare e f next next' fuel (c, d)) s
      (fun r s' => s' = s ∧ r = compareLists f as bs) := by
  refine returns_loop (fun v p s' => s' = s ∧ ∃ as' bs', v = as'.length ∧ I as' p.1 ∧ J bs' p.2
    ∧ compareLists f as' bs' = compareLists f as bs) ?_ hfuel ⟨rfl, as, bs, rfl, hI, hJ, rfl⟩
  rintro _ ⟨c, d⟩ s' ⟨rfl, as', bs', rfl, hI, hJ, hcmp⟩
  rw [returns_bind]
  refine (hnext as' c hI).mono ?_
  rintro ⟨_, c'⟩ _ ⟨rfl, rfl, hI⟩
  cases as' with
  | nil =>
      simp only [List.head?_nil, returns_bind]
      refine (hnext' bs' d hJ).mono ?_
      rintro ⟨_, d'⟩ _ ⟨rfl, rfl, _⟩
      refine ⟨rfl, Eq.trans ?_ hcmp⟩
      cases bs' <;> rfl
  | cons a as' =>
      simp only [List.head?_cons, returns_bind]
      refine (hnext' bs' d hJ).mono ?_
      rintro ⟨_, d'⟩ _ ⟨rfl, rfl, hJ⟩
      cases bs' with
      | nil => exact ⟨rfl, hcmp⟩
      | cons b bs' =>
          rw [compareLists] at hcmp
          simp only [List.head?_cons]
          cases hf : f a b with
          | some r =>
              rw [hf] at hcmp
              exact ⟨rfl, hcmp⟩
          | none =>
              rw [hf] at hcmp
              exact ⟨as'.length, Nat.lt_succ_self _, rfl, as', bs', rfl, hI, hJ, hcmp⟩

end Prog
