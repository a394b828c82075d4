import Mathlib.Data.List.Basic

/-!
# Stateful runs that may fault

A program is an `EStateM` computation: it reads and writes a state `σ`, and it
either returns a value or stops with a fault `ε`, keeping the state it stopped
in. `Returns m s Q` says that `m`, started in `s`, does return, and that the
value and the final state satisfy `Q`. It is total correctness: a program that
faults satisfies no postcondition.

The rules below compute `Returns` through the structure of a program, so a body
is executed symbolically by rewriting with them. Loops are run with a bound on
their iterations; the loop rule asks for a variant below that bound, and a
program whose loop is covered by it never runs out.
-/

namespace Prog

variable {ε σ α β : Type}

/-- `m` started in `s` returns, and what it returns satisfies `Q`. -/
def Returns (m : EStateM ε σ α) (s : σ) (Q : α → σ → Prop) : Prop :=
  match m s with
  | .ok a s' => Q a s'
  | .error _ _ => False

theorem returns_iff {m : EStateM ε σ α} {s : σ} {Q : α → σ → Prop} :
    Returns m s Q ↔ ∃ a s', m s = .ok a s' ∧ Q a s' := by
  unfold Returns
  cases h : m s with
  | ok a s' =>
      constructor
      · intro hq; exact ⟨a, s', rfl, hq⟩
      · intro h
        obtain ⟨b, t, he, hq⟩ := h
        injection he with h1 h2
        subst h1; subst h2; exact hq
  | error e s' =>
      constructor
      · exact False.elim
      · rintro ⟨b, t, he, _⟩; injection he

theorem Returns.of_ok {m : EStateM ε σ α} {s s' : σ} {a : α} {Q : α → σ → Prop}
    (h : m s = .ok a s') (hq : Q a s') : Returns m s Q :=
  returns_iff.mpr ⟨a, s', h, hq⟩

/-- A run can be carried out, so what it returns can be checked. -/
instance {m : EStateM ε σ α} {s : σ} {Q : α → σ → Prop} [∀ a s', Decidable (Q a s')] :
    Decidable (Returns m s Q) :=
  match h : m s with
  | .ok a s' => decidable_of_iff (Q a s') (by simp [Returns, h])
  | .error _ _ => isFalse (by simp [Returns, h])

/-- Weakening the postcondition. -/
theorem Returns.mono {m : EStateM ε σ α} {s : σ} {Q R : α → σ → Prop}
    (h : Returns m s Q) (hqr : ∀ a s', Q a s' → R a s') : Returns m s R := by
  obtain ⟨a, s', he, hq⟩ := returns_iff.mp h
  exact .of_ok he (hqr a s' hq)

/-- Two facts about one run hold together, a run being deterministic. -/
theorem Returns.and {m : EStateM ε σ α} {s : σ} {Q R : α → σ → Prop}
    (hq : Returns m s Q) (hr : Returns m s R) : Returns m s (fun a s' => Q a s' ∧ R a s') := by
  obtain ⟨a, s', he, h1⟩ := returns_iff.mp hq
  obtain ⟨b, t, he', h2⟩ := returns_iff.mp hr
  rw [he] at he'
  injection he' with h3 h4
  subst h3; subst h4
  exact .of_ok he ⟨h1, h2⟩

/-- The run that a fact is about. -/
theorem Returns.run {m : EStateM ε σ α} {s : σ} {Q : α → σ → Prop} (h : Returns m s Q) :
    Returns m s (fun a s' => m s = .ok a s' ∧ Q a s') := by
  obtain ⟨a, s', he, hq⟩ := returns_iff.mp h
  exact .of_ok he ⟨he, hq⟩

/-- What follows a run can be exchanged for something that does the same after it. -/
theorem bind_congr {m m' : EStateM ε σ α} {f g : α → EStateM ε σ β} {s : σ} (hm : m s = m' s)
    (h : ∀ a s', m' s = .ok a s' → f a s' = g a s') : (m >>= f) s = (m' >>= g) s := by
  simp only [bind, EStateM.bind, hm]
  cases he : m' s with
  | ok a s' => exact h a s' he
  | error e s' => rfl

/-- A fault ends a computation. -/
theorem bind_error {m : EStateM ε σ α} {f : α → EStateM ε σ β} {e : ε} {s t : σ}
    (h : m s = .error e t) : (m >>= f) s = .error e t := by
  simp only [bind, EStateM.bind, h]

theorem Returns.bind_congr {m m' : EStateM ε σ α} {f g : α → EStateM ε σ β} {s : σ}
    (h : Returns m' s fun a s' => f a s' = g a s') (hm : m s = m' s) :
    (m >>= f) s = (m' >>= g) s := by
  refine Prog.bind_congr hm fun a s' he => ?_
  obtain ⟨b, t, hb, hfg⟩ := returns_iff.mp h
  rw [he] at hb
  cases hb
  exact hfg

/-! ## Symbolic execution -/

@[simp] theorem returns_pure {a : α} {s : σ} {Q : α → σ → Prop} :
    Returns (pure a : EStateM ε σ α) s Q ↔ Q a s := Iff.rfl

@[simp] theorem returns_bind {m : EStateM ε σ α} {f : α → EStateM ε σ β} {s : σ}
    {Q : β → σ → Prop} :
    Returns (m >>= f) s Q ↔ Returns m s (fun a s' => Returns (f a) s' Q) := by
  simp only [Returns, bind, EStateM.bind]
  cases m s with
  | ok a s' => rfl
  | error e s' => rfl

@[simp] theorem returns_map {m : EStateM ε σ α} {f : α → β} {s : σ} {Q : β → σ → Prop} :
    Returns (f <$> m) s Q ↔ Returns m s (fun a s' => Q (f a) s') := by
  simp only [Returns, Functor.map, EStateM.map]
  cases m s with
  | ok a s' => rfl
  | error e s' => rfl

@[simp] theorem returns_get {s : σ} {Q : σ → σ → Prop} :
    Returns (get : EStateM ε σ σ) s Q ↔ Q s s := Iff.rfl

@[simp] theorem returns_modify {f : σ → σ} {s : σ} {Q : PUnit → σ → Prop} :
    Returns (modify f : EStateM ε σ PUnit) s Q ↔ Q ⟨⟩ (f s) := Iff.rfl

@[simp] theorem returns_modifyGet {f : σ → α × σ} {s : σ} {Q : α → σ → Prop} :
    Returns (modifyGet f : EStateM ε σ α) s Q ↔ Q (f s).1 (f s).2 := Iff.rfl

@[simp] theorem returns_throw {e : ε} {s : σ} {Q : α → σ → Prop} :
    Returns (throw e : EStateM ε σ α) s Q ↔ False := Iff.rfl

theorem returns_ite {c : Prop} [Decidable c] {m m' : EStateM ε σ α} {s : σ}
    {Q : α → σ → Prop} :
    Returns (if c then m else m') s Q ↔ (c → Returns m s Q) ∧ (¬c → Returns m' s Q) := by
  by_cases h : c <;> simp [h]

/-! ## Checks -/

/-- Stop with fault `e` unless `c`. -/
def check (e : ε) (c : Prop) [Decidable c] : EStateM ε σ Unit :=
  if c then pure () else throw e

theorem check_eq_ok {e : ε} {c : Prop} [Decidable c] {s s' : σ} {u : Unit}
    (h : check e c s = .ok u s') : c ∧ s' = s := by
  unfold check at h
  split at h
  · next hc =>
      cases h
      exact ⟨hc, rfl⟩
  · cases h

theorem check_of_not {e : ε} {c : Prop} [Decidable c] {s : σ} (h : ¬ c) :
    check e c s = .error e s := by
  rw [check, if_neg h]
  rfl

/-- The value of an option, or fault `e`. -/
def orFault (e : ε) : Option α → EStateM ε σ α
  | some a => pure a
  | none => throw e

@[simp] theorem returns_check {e : ε} {c : Prop} [Decidable c] {s : σ} {Q : Unit → σ → Prop} :
    Returns (check e c) s Q ↔ c ∧ Q () s := by
  unfold check
  by_cases h : c <;> simp [h]

@[simp] theorem returns_orFault {e : ε} {o : Option α} {s : σ} {Q : α → σ → Prop} :
    Returns (orFault e o) s Q ↔ ∃ a, o = some a ∧ Q a s := by
  cases o <;> simp [orFault]

/-- `a - b` on unsigned integers, a fault when it would go below zero. -/
def sub (e : ε) (a b : Nat) : EStateM ε σ Nat :=
  if b ≤ a then pure (a - b) else throw e

@[simp] theorem returns_sub {e : ε} {a b : Nat} {s : σ} {Q : Nat → σ → Prop} :
    Returns (sub e a b) s Q ↔ b ≤ a ∧ Q (a - b) s := by
  unfold sub
  by_cases h : b ≤ a <;> simp [h]

/-! ## Runs that are cut short -/

/--
`m` does in `s` what `m'` does, unless a fault comes in between: then it stops with that fault,
in a state with `E`.
-/
def Follows (m m' : EStateM ε σ α) (s : σ) (E : σ → Prop) : Option ε → Prop
  | none => m s = m' s
  | some e => ∃ t, m s = .error e t ∧ E t

namespace Follows

variable {m m' : EStateM ε σ α} {f g : α → EStateM ε σ β} {s : σ} {E E' : σ → Prop}
  {fault fault' : Option ε}

theorem mono (h : Follows m m' s E fault) (hE : ∀ t, E t → E' t) : Follows m m' s E' fault := by
  cases fault with
  | none => exact h
  | some e =>
      obtain ⟨t, he, ht⟩ := h
      exact ⟨t, he, hE t ht⟩

/-- Both runs have come from `s` to `s'`. -/
theorem after {n n' : EStateM ε σ α} {s' : σ} (h : Follows m m' s' E fault) (hn : n s = m s')
    (hn' : n' s = m' s') : Follows n n' s E fault := by
  cases fault with
  | none => exact hn.trans (Eq.trans h hn'.symm)
  | some e =>
      obtain ⟨t, he, ht⟩ := h
      exact ⟨t, hn.trans he, ht⟩

/-- The first of the two faults ends the run. -/
theorem bind (hm : Follows m m' s E fault)
    (hf : Returns m' s fun a s' => Follows (f a) (g a) s' E fault') :
    Follows (m >>= f) (m' >>= g) s E (fault.or fault') := by
  cases fault with
  | some e =>
      obtain ⟨t, he, ht⟩ := hm
      refine ⟨t, ?_, ht⟩
      simp only [Bind.bind, EStateM.bind, he]
  | none =>
      obtain ⟨a, s', he', hf⟩ := returns_iff.mp hf
      have he : m s = .ok a s' := Eq.trans hm he'
      cases fault' with
      | none =>
          show (m >>= f) s = (m' >>= g) s
          simp only [Bind.bind, EStateM.bind, he, he']
          exact hf
      | some e =>
          obtain ⟨t, hft, ht⟩ := hf
          refine ⟨t, ?_, ht⟩
          simp only [Bind.bind, EStateM.bind, he]
          exact hft

/-- Both runs begin alike. -/
theorem seq (hf : Returns m s fun a s' => Follows (f a) (g a) s' E fault) :
    Follows (m >>= f) (m >>= g) s E fault :=
  bind (show Follows m m s E none from rfl) hf

/-- Both runs end alike. -/
theorem ended (h : Follows m m' s E fault) : Follows (m >>= f) (m' >>= f) s E fault := by
  cases fault with
  | none =>
      have he : m s = m' s := h
      show (m >>= f) s = (m' >>= f) s
      simp only [Bind.bind, EStateM.bind, he]
  | some e =>
      obtain ⟨t, he, ht⟩ := h
      refine ⟨t, ?_, ht⟩
      simp only [Bind.bind, EStateM.bind, he]

end Follows

/-! ## Loops -/

/-- `for x in l { f(x) }`. -/
def forEach : List α → (α → EStateM ε σ Unit) → EStateM ε σ Unit
  | [], _ => pure ()
  | x :: l, f => do
      f x
      forEach l f

/-- The rule for `forEach`: `I` holds of what has been visited. -/
theorem returns_forEach {f : α → EStateM ε σ Unit} {Q : Unit → σ → Prop}
    (I : List α → σ → Prop) {l : List α} {s : σ} (h0 : I [] s)
    (hstep : ∀ done x rest t, l = done ++ x :: rest → I done t →
      Returns (f x) t (fun _ t' => I (done ++ [x]) t'))
    (hend : ∀ t, I l t → Q () t) : Returns (forEach l f) s Q := by
  -- the visited part grows as the remaining part is consumed
  suffices key : ∀ (rest done : List α) (t : σ), l = done ++ rest → I done t →
      Returns (forEach rest f) t Q from key l [] s rfl h0
  intro rest
  induction rest with
  | nil =>
      intro done t hl hi
      rw [List.append_nil] at hl
      subst hl
      exact hend t hi
  | cons x rest ih =>
      intro done t hl hi
      rw [forEach, returns_bind]
      exact (hstep done x rest t hl hi).mono
        (fun _ t' hi' => ih (done ++ [x]) t' (by simp [hl]) hi')

/-- At most `fuel` iterations of `body`, which either goes on or breaks with a result. -/
def loop (e : ε) (body : α → EStateM ε σ (α ⊕ β)) : Nat → α → EStateM ε σ β
  | 0, _ => throw e
  | fuel + 1, a => do
      match ← body a with
      | .inl a' => loop e body fuel a'
      | .inr b => pure b

/-- A loop that ends does the same with more iterations allowed. -/
theorem loop_mono {e : ε} {body : α → EStateM ε σ (α ⊕ β)} {fuel fuel' : Nat} {a : α} {b : β}
    {s s' : σ} (h : loop e body fuel a s = .ok b s') (hle : fuel ≤ fuel') :
    loop e body fuel' a s = .ok b s' := by
  induction fuel generalizing fuel' a s with
  | zero => cases h
  | succ fuel ih =>
      obtain ⟨k, rfl⟩ := Nat.exists_eq_add_of_le hle
      rw [Nat.add_right_comm, loop]
      rw [loop] at h
      simp only [bind, EStateM.bind] at h ⊢
      cases hb : body a s with
      | error e' t =>
          rw [hb] at h
          cases h
      | ok r t =>
          rw [hb] at h
          cases r with
          | inl a' => exact ih h (Nat.le_add_right fuel k)
          | inr b' => exact h

/-- With any number of iterations that is enough, a loop does the same. -/
theorem loop_eq {e : ε} {body : α → EStateM ε σ (α ⊕ β)} {fuel fuel' : Nat} {a : α} {s : σ}
    {Q Q' : β → σ → Prop} (h : Returns (loop e body fuel a) s Q)
    (h' : Returns (loop e body fuel' a) s Q') : loop e body fuel a s = loop e body fuel' a s := by
  obtain ⟨b, t, hb, _⟩ := returns_iff.mp h
  obtain ⟨b', t', hb', _⟩ := returns_iff.mp h'
  have hboth := (loop_mono hb (Nat.le_max_left fuel fuel')).symm.trans
    (loop_mono hb' (Nat.le_max_right fuel fuel'))
  rw [hb, hb', hboth]

/-- The loop rule: the variant `v` bounds the iterations still to come. -/
theorem returns_loop {e : ε} {body : α → EStateM ε σ (α ⊕ β)} {Q : β → σ → Prop}
    (I : Nat → α → σ → Prop)
    (hstep : ∀ v a s, I v a s → Returns (body a) s (fun r s' =>
      match r with
      | .inl a' => ∃ v', v' < v ∧ I v' a' s'
      | .inr b => Q b s')) :
    ∀ {fuel v : Nat} {a : α} {s : σ}, v < fuel → I v a s → Returns (loop e body fuel a) s Q := by
  intro fuel
  induction fuel with
  | zero => intro v a s hv; exact absurd hv (Nat.not_lt_zero v)
  | succ fuel ih =>
      intro v a s hv hi
      rw [loop, returns_bind]
      refine (hstep v a s hi).mono ?_
      intro r s' hr
      cases r with
      | inl a' =>
          obtain ⟨v', hlt, hi'⟩ := hr
          exact ih (by omega) hi'
      | inr b => exact hr

end Prog
