import Mathlib.Algebra.Group.Defs
import Mathlib.Data.List.Basic

/-!
# Machines that answer

A machine takes an input and a state to an output and the next state. One machine
simulates another if a relation between their states is kept by every input, which
both answer alike; then they answer alike over whole runs.
-/

namespace Machine

variable {ι ο σ τ : Type}

/-- The outputs of a run, and the state after it. -/
def run (step : ι → σ → ο × σ) : List ι → σ → List ο × σ
  | [], s => ([], s)
  | i :: is, s =>
      let (o, s) := step i s
      let (os, s) := run step is s
      (o :: os, s)

theorem run_cons (step : ι → σ → ο × σ) (i : ι) (is : List ι) (s : σ) :
    run step (i :: is) s
      = ((step i s).1 :: (run step is (step i s).2).1, (run step is (step i s).2).2) := rfl

/-- What was noted down along a run; `f` notes what one step does. -/
def noted {γ : Type} (step : ι → σ → ο × σ) (f : ι → σ → γ → γ) : List ι → σ → γ → γ
  | [], _, g => g
  | i :: is, s, g => noted step f is (step i s).2 (f i s g)

/-- Two machines that a relation keeps together answer alike. The relation may look at notes. -/
theorem run_simulates_noting {γ : Type} {step : ι → σ → ο × σ} {step' : ι → τ → ο × τ}
    {f : ι → σ → γ → γ} {R : γ → σ → τ → Prop} {is : List ι}
    (hstep : ∀ i ∈ is, ∀ g s t, R g s t →
      (step i s).1 = (step' i t).1 ∧ R (f i s g) (step i s).2 (step' i t).2)
    {g : γ} {s : σ} {t : τ} (hs : R g s t) : (run step is s).1 = (run step' is t).1
      ∧ R (noted step f is s g) (run step is s).2 (run step' is t).2 := by
  induction is generalizing g s t with
  | nil => exact ⟨rfl, hs⟩
  | cons i is ih =>
      obtain ⟨ho, hr⟩ := hstep i List.mem_cons_self g s t hs
      obtain ⟨hos, hrs⟩ := ih (fun j hj => hstep j (List.mem_cons_of_mem _ hj)) hr
      rw [run_cons, run_cons, ho, hos]
      exact ⟨rfl, hrs⟩

theorem run_simulates {step : ι → σ → ο × σ} {step' : ι → τ → ο × τ} {R : σ → τ → Prop}
    {is : List ι} (hstep : ∀ i ∈ is, ∀ s t, R s t →
      (step i s).1 = (step' i t).1 ∧ R (step i s).2 (step' i t).2)
    {s : σ} {t : τ} (hs : R s t) :
    (run step is s).1 = (run step' is t).1 ∧ R (run step is s).2 (run step' is t).2 :=
  run_simulates_noting (f := fun _ _ g => g) (R := fun (_ : Unit) => R)
    (fun i hi _ s t h => hstep i hi s t h) (g := ()) hs

/-- An output of a run is that of a step in the state that the steps before it lead to. -/
theorem run_output (step : ι → σ → ο × σ) (is : List ι) (s : σ) (n : Nat) :
    (run step is s).1[n]? = is[n]?.map fun i => (step i (run step (is.take n) s).2).1 := by
  induction is generalizing s n with
  | nil => rfl
  | cons i is ih =>
      rw [run_cons]
      cases n with
      | zero => rfl
      | succ n =>
          rw [List.getElem?_cons_succ, List.getElem?_cons_succ, List.take_succ_cons, run_cons]
          exact ih _ n

/-- What the steps of a run count for, all together. -/
def tally {M : Type} [AddCommMonoid M] (step : ι → σ → ο × σ) (f : ι → σ → M) : List ι → σ → M
  | [], _ => 0
  | i :: is, s => f i s + tally step f is (step i s).2

/-- If no step makes or loses anything, no run does. -/
theorem run_conserves {M : Type} [AddCommMonoid M] {step : ι → σ → ο × σ} {I : σ → Prop}
    {total : σ → M} {given taken : ι → σ → M} {is : List ι}
    (hstep : ∀ i ∈ is, ∀ s, I s →
      I (step i s).2 ∧ total s + given i s = taken i s + total (step i s).2)
    {s : σ} (hs : I s) :
    total s + tally step given is s = tally step taken is s + total (run step is s).2 := by
  induction is generalizing s with
  | nil =>
      show total s + 0 = 0 + total s
      rw [add_zero, zero_add]
  | cons i is ih =>
      obtain ⟨hi, hone⟩ := hstep i List.mem_cons_self s hs
      have hrest := ih (fun j hj => hstep j (List.mem_cons_of_mem _ hj)) hi
      rw [run_cons, tally, tally]
      calc total s + (given i s + tally step given is (step i s).2)
          = taken i s + (total (step i s).2 + tally step given is (step i s).2) := by
            rw [← add_assoc, hone, add_assoc]
        _ = taken i s + tally step taken is (step i s).2
            + total (run step is (step i s).2).2 := by rw [hrest, add_assoc]

end Machine
