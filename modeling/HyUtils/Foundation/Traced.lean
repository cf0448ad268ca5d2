import Mathlib.Data.List.Basic

/-!
# Computations with a trace

A computation that may fail, together with what it has noted down until it ended or failed. What is
noted is not lost by a failure, so that the trace speaks about every step of every run.

## Main definitions

* `Traced ι ε α`: computations that note elements of `ι` and yield `α`, or fail with `ε`
* `Traced.note`, `Traced.lift`: to note an element, and to compute without noting any
* `Traced.Ensures m P Q`: all that is noted satisfies `P`, and what is yielded satisfies `Q`

## Main results

* `Traced.result_bind`: without its trace a sequence is the sequence of the computations
* `Traced.mem_trace_bind`: what a sequence notes
* `Traced.Ensures.bind`: the rule of sequences
-/

/-- A computation with what it has noted. -/
structure Traced (ι ε α : Type) where
  trace : List ι
  result : Except ε α

namespace Traced

variable {ι ε α β : Type}

instance : Monad (Traced ι ε) where
  pure a := ⟨[], .ok a⟩
  bind m f := match m.result with
    | .error e => ⟨m.trace, .error e⟩
    | .ok a => ⟨m.trace ++ (f a).trace, (f a).result⟩

/-- To note an element. -/
def note (i : ι) : Traced ι ε Unit := ⟨[i], .ok ()⟩

/-- A computation that notes nothing. -/
def lift (m : Except ε α) : Traced ι ε α := ⟨[], m⟩

variable {m : Traced ι ε α} {f : α → Traced ι ε β}

theorem bind_eq_of_ok {a : α} (h : m.result = .ok a) :
    m >>= f = ⟨m.trace ++ (f a).trace, (f a).result⟩ := by
  change (match m.result with | .error e => _ | .ok a => _ : Traced ι ε β) = _
  rw [h]

theorem bind_eq_of_error {e : ε} (h : m.result = .error e) :
    m >>= f = ⟨m.trace, .error e⟩ := by
  change (match m.result with | .error e => _ | .ok a => _ : Traced ι ε β) = _
  rw [h]

@[simp] theorem result_pure (a : α) : (pure a : Traced ι ε α).result = .ok a := rfl

@[simp] theorem trace_pure (a : α) : (pure a : Traced ι ε α).trace = [] := rfl

@[simp] theorem result_lift (m : Except ε α) : (lift m : Traced ι ε α).result = m := rfl

@[simp] theorem result_note (i : ι) : (note i : Traced ι ε Unit).result = .ok () := rfl

/-- **Without its trace** a sequence is the sequence of the computations. -/
@[simp] theorem result_bind (m : Traced ι ε α) (f : α → Traced ι ε β) :
    (m >>= f).result = m.result >>= fun a => (f a).result := by
  cases h : m.result with
  | error e => rw [bind_eq_of_error h]; rfl
  | ok a => rw [bind_eq_of_ok h]; rfl

/-- **What a sequence notes** is what the first computation notes, and then the second. -/
theorem mem_trace_bind {i : ι} :
    i ∈ (m >>= f).trace ↔ i ∈ m.trace ∨ ∃ a, m.result = .ok a ∧ i ∈ (f a).trace := by
  cases h : m.result with
  | error e =>
    rw [bind_eq_of_error h]
    simp
  | ok a =>
    rw [bind_eq_of_ok h]
    simp

theorem note_bind (i : ι) (f : Unit → Traced ι ε β) :
    note i >>= f = ⟨i :: (f ()).trace, (f ()).result⟩ := bind_eq_of_ok rfl

theorem lift_ok_bind (a : α) (f : α → Traced ι ε β) : lift (.ok a) >>= f = f a :=
  bind_eq_of_ok rfl

/-! ## What a computation ensures -/

/-- All that is noted satisfies `P`, and what is yielded satisfies `Q`. -/
structure Ensures (m : Traced ι ε α) (P : ι → Prop) (Q : α → Prop) : Prop where
  trace : ∀ i ∈ m.trace, P i
  result : ∀ a, m.result = .ok a → Q a

namespace Ensures

variable {P P' : ι → Prop} {Q Q' : α → Prop} {R : β → Prop}

theorem pure {a : α} (h : Q a) : (Pure.pure a : Traced ι ε α).Ensures P Q := by
  refine ⟨fun i hi => absurd hi List.not_mem_nil, fun a' ha' => ?_⟩
  cases ha'
  exact h

theorem note {i : ι} (h : P i) : (Traced.note i : Traced ι ε Unit).Ensures P fun _ => True := by
  refine ⟨fun i' hi' => ?_, fun _ _ => trivial⟩
  obtain rfl := List.mem_singleton.mp hi'
  exact h

theorem lift {m : Except ε α} (h : ∀ a, m = .ok a → Q a) : (Traced.lift m).Ensures P Q :=
  ⟨fun _ hi => absurd hi List.not_mem_nil, h⟩

/-- A computation that fails at once. -/
theorem lift_error {e : ε} : (Traced.lift (.error e) : Traced ι ε α).Ensures P Q :=
  lift fun a ha => by cases ha

theorem mono (h : m.Ensures P Q) (hP : ∀ i, P i → P' i) (hQ : ∀ a, Q a → Q' a) :
    m.Ensures P' Q' :=
  ⟨fun i hi => hP i (h.trace i hi), fun a ha => hQ a (h.result a ha)⟩

/-- **The rule of sequences**: what the first computation yields is what the second starts
from. -/
theorem bind (hm : m.Ensures P Q) (hf : ∀ a, Q a → (f a).Ensures P R) :
    (m >>= f).Ensures P R := by
  constructor
  · intro i hi
    rcases mem_trace_bind.mp hi with hi | ⟨a, ha, hi⟩
    · exact hm.trace i hi
    · exact (hf a (hm.result a ha)).trace i hi
  · intro b hb
    rw [result_bind] at hb
    cases ha : m.result with
    | error e =>
      rw [ha] at hb
      cases hb
    | ok a =>
      rw [ha] at hb
      exact (hf a (hm.result a ha)).result b hb

end Ensures

end Traced
