import Mathlib.Data.List.Basic
import Mathlib.Order.Filter.AtTopBot.Basic

/-!
# Runs of a component

A component is a partial step function: from a state and an operation it yields the next state
and an output, and nothing when the operation faults or does not return. A run performs a list of
operations in order and collects the outputs. Runs compose, carry invariants, and are compared by
forward simulation.

## Main definitions

* `run step s ops`: the final state and the outputs of `ops` from `s`
* `AllSteps step Q s ops`: each step of the run of `ops` from `s` completes, as `Q` says
* `logged log step`: the component with a log of what its outputs show
* `EachStep step C s ops`: each step of the run of `ops` from `s` is made under `C`

## Main results

* `run_append_eq_some`: runs compose
* `run_history`, `run_invariant`, `run_invariant_of_eachStep`, `run_shown`: what a step preserves
  holds along a run
* `run_completes`, `run_completes_of_eachStep`: runs of steps that complete
* `run_simulation`, `run_simulation_of_eachStep`, `run_simulation_eventually`: related components
  perform the same operations with the same outputs
* `flatMap_eq_of_allSteps`: what each step's output shows of its operation, a run's outputs show of
  its operations
* `allSteps_of_eachStep`: when the steps under `C` are good, so is a run of such steps
* `allSteps_iff_eachStep`: when exactly the steps under `C` are good, a run is good exactly when
  each of its steps is under `C`
* `eachStep_of_eachStep`: when the steps under `C` from an invariant are also under `D`, so are
  those of a run
* `foldlM_range'`, `mapM_eq_some_map`: a counted loop refines the loop of a total body
* `bind_eq_ok`, `bind_eq_error`: programs that may fail, taken apart
-/

namespace Runs

variable {σ τ α β : Type*} {step : σ → α → Option (σ × β)}

/-- The final state and the outputs of a list of operations performed in order. -/
def run (step : σ → α → Option (σ × β)) : σ → List α → Option (σ × List β)
  | s, [] => some (s, [])
  | s, a :: as =>
    match step s a with
    | none => none
    | some (s', b) => (run step s' as).map fun r => (r.1, b :: r.2)

@[simp] theorem run_nil (s : σ) : run step s [] = some (s, []) := rfl

theorem run_cons_eq_some {s t : σ} {a : α} {as : List α} {bs : List β} :
    run step s (a :: as) = some (t, bs) ↔
      ∃ s' b bs', step s a = some (s', b) ∧ run step s' as = some (t, bs') ∧ bs = b :: bs' := by
  simp only [run]
  cases hs : step s a with
  | none => simp
  | some r =>
    obtain ⟨s', b⟩ := r
    simp only [Option.map_eq_some_iff, Prod.mk.injEq, Prod.exists, Option.some.injEq]
    constructor
    · rintro ⟨t', bs', hr, rfl, rfl⟩
      exact ⟨s', b, bs', ⟨rfl, rfl⟩, hr, rfl⟩
    · rintro ⟨s'', b', bs', ⟨rfl, rfl⟩, hr, rfl⟩
      exact ⟨t, bs', hr, rfl, rfl⟩

theorem run_append_eq_some {s t : σ} {as as' : List α} {bs : List β} :
    run step s (as ++ as') = some (t, bs) ↔
      ∃ u bs₁ bs₂, run step s as = some (u, bs₁) ∧ run step u as' = some (t, bs₂) ∧
        bs = bs₁ ++ bs₂ := by
  induction as generalizing s bs with
  | nil => simp [eq_comm]
  | cons a as ih =>
    simp only [List.cons_append, run_cons_eq_some, ih]
    constructor
    · rintro ⟨s', b, _, hs, ⟨u, bs₁, bs₂, h₁, h₂, rfl⟩, rfl⟩
      exact ⟨u, b :: bs₁, bs₂, ⟨s', b, bs₁, hs, h₁, rfl⟩, h₂, rfl⟩
    · rintro ⟨u, _, bs₂, ⟨s', b, bs₁, hs, h₁, rfl⟩, h₂, rfl⟩
      exact ⟨s', b, bs₁ ++ bs₂, hs, ⟨u, bs₁, bs₂, h₁, h₂, rfl⟩, rfl⟩

/-- A relation of states to the outputs so far that each admitted step keeps is kept by a run of
admitted steps. -/
theorem run_history (H : List β → σ → Prop) {ok : α → Prop}
    (hstep : ∀ hist s a t b, H hist s → ok a → step s a = some (t, b) → H (hist ++ [b]) t) :
    ∀ {as hist s t bs}, H hist s → (∀ a ∈ as, ok a) → run step s as = some (t, bs) →
      H (hist ++ bs) t := by
  intro as
  induction as with
  | nil =>
    intro hist s t bs h _ hr
    obtain ⟨rfl, rfl⟩ : s = t ∧ bs = [] := by simpa [eq_comm] using hr
    rwa [List.append_nil]
  | cons a as ih =>
    intro hist s t bs h hok hr
    obtain ⟨s', b, bs', ha, hr', rfl⟩ := run_cons_eq_some.mp hr
    obtain ⟨hoka, hoks⟩ := List.forall_mem_cons.mp hok
    -- the outputs so far grow at their end, the operations left shrink at their front
    have hrest := ih (hstep hist s a s' b h hoka ha) hoks hr'
    rwa [List.append_assoc, List.singleton_append] at hrest

/-- What each admitted step preserves, a run of admitted steps preserves. -/
theorem run_invariant {P : σ → Prop} {ok : α → Prop}
    (hstep : ∀ s a t b, P s → ok a → step s a = some (t, b) → P t) {as : List α} {s t : σ}
    {bs : List β} (hs : P s) (hok : ∀ a ∈ as, ok a) (hr : run step s as = some (t, bs)) : P t :=
  @run_history _ _ _ step (fun _ => P) ok (fun _ s a t b h ha hst => hstep s a t b h ha hst)
    as [] s t bs hs hok hr

/-- A relation of states to what the outputs so far show that each step keeps is kept by a run. -/
theorem run_shown {γ : Type*} {log : β → List γ} (H : List γ → σ → Prop)
    (hstep : ∀ l s a t b, H l s → step s a = some (t, b) → H (l ++ log b) t) {as : List α}
    {l : List γ} {s t : σ} {bs : List β} (hs : H l s) (hr : run step s as = some (t, bs)) :
    H (l ++ bs.flatMap log) t := by
  induction as generalizing l s bs with
  | nil =>
    obtain ⟨rfl, rfl⟩ : s = t ∧ bs = [] := by simpa [eq_comm] using hr
    rwa [List.flatMap_nil, List.append_nil]
  | cons a as ih =>
    obtain ⟨s', b, bs', ha, hr', rfl⟩ := run_cons_eq_some.mp hr
    have hrest := ih (hstep l s a s' b hs ha) hr'
    rwa [List.append_assoc] at hrest

/-- When each admitted step completes and keeps an invariant, a run of admitted steps completes. -/
theorem run_completes {P : σ → Prop} {ok : α → Prop}
    (hstep : ∀ s a, P s → ok a → ∃ t b, step s a = some (t, b) ∧ P t) :
    ∀ {as s}, P s → (∀ a ∈ as, ok a) → ∃ t bs, run step s as = some (t, bs) := by
  intro as
  induction as with
  | nil => exact fun {s} _ _ => ⟨s, [], rfl⟩
  | cons a as ih =>
    intro s h hok
    obtain ⟨hoka, hoks⟩ := List.forall_mem_cons.mp hok
    obtain ⟨s', b, hs, h'⟩ := hstep s a h hoka
    obtain ⟨t, bs, hr⟩ := ih h' hoks
    exact ⟨t, b :: bs, run_cons_eq_some.mpr ⟨s', b, bs, hs, hr, rfl⟩⟩

/-- **Forward simulation**: related states perform each admitted operation with the same output
and stay related, so runs of admitted operations complete with the same outputs. -/
theorem run_simulation {step' : τ → α → Option (τ × β)} (R : σ → τ → Prop) (ok : α → Prop)
    (hstep : ∀ s t a, R s t → ok a →
      ∃ s' t' b, step s a = some (s', b) ∧ step' t a = some (t', b) ∧ R s' t') :
    ∀ {as s t}, R s t → (∀ a ∈ as, ok a) →
      ∃ s' t' bs, run step s as = some (s', bs) ∧ run step' t as = some (t', bs) ∧ R s' t' := by
  intro as
  induction as with
  | nil => exact fun {s t} h _ => ⟨s, t, [], rfl, rfl, h⟩
  | cons a as ih =>
    intro s t h hok
    obtain ⟨s', t', b, hs, ht, h'⟩ := hstep s t a h (hok a (by simp))
    obtain ⟨s'', t'', bs, hrs, hrt, h''⟩ := ih h' fun x hx => hok x (by simp [hx])
    exact ⟨s'', t'', b :: bs, run_cons_eq_some.mpr ⟨s', b, bs, hs, hrs, rfl⟩,
      run_cons_eq_some.mpr ⟨t', b, bs, ht, hrt, rfl⟩, h''⟩

/-- Each step of the run completes, as `Q` says of its two states, its operation and its
output. -/
def AllSteps (step : σ → α → Option (σ × β)) (Q : σ → α → σ → β → Prop) : σ → List α → Prop
  | _, [] => True
  | s, a :: as => ∃ s' b, step s a = some (s', b) ∧ Q s a s' b ∧ AllSteps step Q s' as

/-- Each step of the run is made under `C`, a condition on the state before it and its
operation. -/
def EachStep (step : σ → α → Option (σ × β)) (C : σ → α → Prop) : σ → List α → Prop
  | _, [] => True
  | s, a :: as => C s a ∧ ∀ s' b, step s a = some (s', b) → EachStep step C s' as

theorem eachStep_true {s : σ} {as : List α} : EachStep step (fun _ _ => True) s as := by
  induction as generalizing s with
  | nil => trivial
  | cons a as ih => exact ⟨trivial, fun _ _ _ => ih⟩

theorem eachStep_cons_of_eq_some {C : σ → α → Prop} {s s' : σ} {a : α} {b : β} {as : List α}
    (hs : step s a = some (s', b)) :
    EachStep step C s (a :: as) ↔ C s a ∧ EachStep step C s' as := by
  refine and_congr_right fun _ => ⟨fun h => h s' b hs, fun h t c ht => ?_⟩
  obtain ⟨rfl, rfl⟩ : s' = t ∧ b = c := by simpa [hs] using ht
  exact h

theorem eachStep_cons_of_eq_none {C : σ → α → Prop} {s : σ} {a : α} {as : List α}
    (hs : step s a = none) : EachStep step C s (a :: as) ↔ C s a :=
  and_iff_left fun _ _ ht => nomatch hs.symm.trans ht

/-- Conditions on the steps of a concrete run can be evaluated. -/
instance EachStep.decidable {C : σ → α → Prop} [∀ s a, Decidable (C s a)] :
    ∀ (s : σ) (as : List α), Decidable (EachStep step C s as)
  | _, [] => isTrue trivial
  | s, a :: as =>
    match hs : step s a with
    | none => decidable_of_iff _ (eachStep_cons_of_eq_none hs).symm
    | some (s', _) =>
      have : Decidable (EachStep step C s' as) := EachStep.decidable s' as
      decidable_of_iff _ (eachStep_cons_of_eq_some hs).symm

/-- Conditions that agree on the states of a run hold of the same runs. -/
theorem eachStep_congr (I : σ → Prop) {C C' : σ → α → Prop}
    (hinv : ∀ s a s' b, I s → step s a = some (s', b) → I s')
    (hiff : ∀ s a, I s → (C s a ↔ C' s a)) :
    ∀ {as s}, I s → (EachStep step C s as ↔ EachStep step C' s as) := by
  intro as
  induction as with
  | nil => exact fun _ => Iff.rfl
  | cons a as ih =>
    intro s hI
    refine and_congr (hiff s a hI) (forall₂_congr fun s' b => imp_congr_right fun hs => ?_)
    exact ih (hinv s a s' b hI hs)

/-- What each step under `C` preserves, a run of steps under `C` preserves. -/
theorem run_invariant_of_eachStep {P : σ → Prop} {C : σ → α → Prop}
    (hstep : ∀ s a t b, P s → C s a → step s a = some (t, b) → P t) {as : List α} {s t : σ}
    {bs : List β} (hs : P s) (hC : EachStep step C s as) (hr : run step s as = some (t, bs)) :
    P t := by
  induction as generalizing s bs with
  | nil =>
    cases hr
    exact hs
  | cons a as ih =>
    obtain ⟨s', b, bs', ha, hr', -⟩ := run_cons_eq_some.mp hr
    exact ih (hstep s a s' b hs hC.1 ha) (hC.2 s' b ha) hr'

/-- When each step under `C` completes and keeps an invariant, a run of steps under `C` completes and
keeps it. -/
theorem run_completes_of_eachStep {P : σ → Prop} {C : σ → α → Prop}
    (hstep : ∀ s a, P s → C s a → ∃ t b, step s a = some (t, b) ∧ P t) :
    ∀ {as s}, P s → EachStep step C s as → ∃ t bs, run step s as = some (t, bs) ∧ P t := by
  intro as
  induction as with
  | nil => exact fun {s} h _ => ⟨s, [], rfl, h⟩
  | cons a as ih =>
    rintro s h ⟨hC, hrest⟩
    obtain ⟨s', b, hs, h'⟩ := hstep s a h hC
    obtain ⟨t, bs, hr, ht⟩ := ih h' (hrest s' b hs)
    exact ⟨t, b :: bs, run_cons_eq_some.mpr ⟨s', b, bs, hs, hr, rfl⟩, ht⟩

/-- When the steps under `C` from an invariant are also under `D` and keep the invariant, a run of
steps under `C` is one of steps under `D`. -/
theorem eachStep_of_eachStep (I : σ → Prop) {C D : σ → α → Prop} (hD : ∀ s a, I s → C s a → D s a)
    (hinv : ∀ s a s' b, I s → C s a → step s a = some (s', b) → I s') :
    ∀ {as s}, I s → EachStep step C s as → EachStep step D s as := by
  intro as
  induction as with
  | nil => exact fun _ _ => trivial
  | cons a as ih =>
    rintro s hI ⟨hC, h⟩
    exact ⟨hD s a hI hC, fun s' b hs => ih (hinv s a s' b hI hC hs) (h s' b hs)⟩

/-- **Forward simulation of steps under a condition**: when related states perform each admitted
operation under `C` with the same output and stay related, runs whose steps are under `C` complete
with the same outputs. -/
theorem run_simulation_of_eachStep {step' : τ → α → Option (τ × β)} (R : σ → τ → Prop)
    {C : σ → α → Prop} {ok : α → Prop}
    (hstep : ∀ s t a, R s t → ok a → C s a →
      ∃ s' t' b, step s a = some (s', b) ∧ step' t a = some (t', b) ∧ R s' t') :
    ∀ {as s t}, R s t → (∀ a ∈ as, ok a) → EachStep step C s as →
      ∃ s' t' bs, run step s as = some (s', bs) ∧ run step' t as = some (t', bs) ∧ R s' t' := by
  intro as
  induction as with
  | nil => exact fun {s t} h _ _ => ⟨s, t, [], rfl, rfl, h⟩
  | cons a as ih =>
    intro s t h hok hC
    obtain ⟨hoka, hoks⟩ := List.forall_mem_cons.mp hok
    obtain ⟨s', t', b, hs, ht, h'⟩ := hstep s t a h hoka hC.1
    obtain ⟨s'', t'', bs, hrs, hrt, h''⟩ := ih h' hoks (hC.2 s' b hs)
    exact ⟨s'', t'', b :: bs, run_cons_eq_some.mpr ⟨s', b, bs, hs, hrs, rfl⟩,
      run_cons_eq_some.mpr ⟨t', b, bs, ht, hrt, rfl⟩, h''⟩

/-- **Forward simulation by loops with bounds**: when each step is done by a related one once the
bound on its loops is large enough, so is a run. -/
theorem run_simulation_eventually {step' : ℕ → τ → α → Option (τ × β)} (R : σ → τ → Prop)
    (hstep : ∀ s t a s' b, R s t → step s a = some (s', b) →
      ∃ t', (∀ᶠ n in Filter.atTop, step' n t a = some (t', b)) ∧ R s' t') :
    ∀ {as s t s' bs}, R s t → run step s as = some (s', bs) →
      ∃ t', (∀ᶠ n in Filter.atTop, run (step' n) t as = some (t', bs)) ∧ R s' t' := by
  intro as
  induction as with
  | nil =>
    intro s t s' bs h hrun
    cases hrun
    exact ⟨t, .of_forall fun _ => rfl, h⟩
  | cons a as ih =>
    intro s t s' bs h hrun
    obtain ⟨u, b, bs, hs, hrest, rfl⟩ := run_cons_eq_some.mp hrun
    obtain ⟨t₁, ht, h₁⟩ := hstep s t a u b h hs
    obtain ⟨t', hrun', h'⟩ := ih h₁ hrest
    refine ⟨t', ?_, h'⟩
    filter_upwards [ht, hrun'] with n hn hn'
    exact run_cons_eq_some.mpr ⟨t₁, b, bs, hn, hn', rfl⟩

theorem allSteps_true_iff {s : σ} {as : List α} :
    AllSteps step (fun _ _ _ _ => True) s as ↔ (run step s as).isSome := by
  induction as generalizing s with
  | nil => exact iff_of_true trivial rfl
  | cons a as ih =>
    rw [Option.isSome_iff_exists, Prod.exists]
    simp only [run_cons_eq_some, AllSteps, ih, true_and]
    constructor
    · rintro ⟨s', b, hs, h⟩
      obtain ⟨⟨t, bs⟩, hr⟩ := Option.isSome_iff_exists.mp h
      exact ⟨t, b :: bs, s', b, bs, hs, hr, rfl⟩
    · rintro ⟨t, _, s', b, bs, hs, hr, -⟩
      exact ⟨s', b, hs, Option.isSome_iff_exists.mpr ⟨_, hr⟩⟩

/-- What holds of every step holds of the steps of a run that completes. -/
theorem allSteps_of_run {Q : σ → α → σ → β → Prop}
    (hQ : ∀ s a t b, step s a = some (t, b) → Q s a t b) {as : List α} {s t : σ} {bs : List β}
    (hr : run step s as = some (t, bs)) : AllSteps step Q s as := by
  induction as generalizing s bs with
  | nil => trivial
  | cons a as ih =>
    obtain ⟨s', b, bs', ha, hr', -⟩ := run_cons_eq_some.mp hr
    exact ⟨s', b, ha, hQ s a s' b ha, ih hr'⟩

/-- What each step's output shows of its operation, a run's outputs show of its operations. -/
theorem flatMap_eq_of_allSteps {γ : Type*} {f : α → List γ} {g : β → List γ} {s t : σ}
    {as : List α} {bs : List β} (h : AllSteps step (fun _ a _ b => g b = f a) s as)
    (hr : run step s as = some (t, bs)) : bs.flatMap g = as.flatMap f := by
  induction as generalizing s bs with
  | nil =>
    obtain ⟨-, rfl⟩ : s = t ∧ bs = [] := by simpa [eq_comm] using hr
    rfl
  | cons a as ih =>
    obtain ⟨s', b, hs, hQ, h⟩ := h
    obtain ⟨s'', b', bs', hs', hr', rfl⟩ := run_cons_eq_some.mp hr
    obtain ⟨rfl, rfl⟩ : s' = s'' ∧ b = b' := by simpa [hs] using hs'
    rw [List.flatMap_cons, List.flatMap_cons, hQ, ih h hr']

/-- **Runs of good steps**: when each step under `C` completes as `Q` says and keeps an invariant, a
run of steps made under `C` consists of good steps. -/
theorem allSteps_of_eachStep (I : σ → Prop) {Q : σ → α → σ → β → Prop} {C : σ → α → Prop}
    (hstep : ∀ s a, I s → C s a → ∃ s' b, step s a = some (s', b) ∧ Q s a s' b ∧ I s') :
    ∀ {as s}, I s → EachStep step C s as → AllSteps step Q s as := by
  intro as
  induction as with
  | nil => exact fun _ _ => trivial
  | cons a as ih =>
    rintro s hI ⟨hC, h⟩
    obtain ⟨s', b, hs, hQ, hI'⟩ := hstep s a hI hC
    exact ⟨s', b, hs, hQ, ih hI' (h s' b hs)⟩

/-- **Runs of good steps**: when exactly the steps under `C` complete as `Q` says, a run consists of
such steps exactly when each of its steps is made under `C`. -/
theorem allSteps_iff_eachStep (I : σ → Prop) {Q : σ → α → σ → β → Prop} {C : σ → α → Prop}
    {ok : α → Prop} (hinv : ∀ s a s' b, I s → ok a → step s a = some (s', b) → Q s a s' b → I s')
    (hstep : ∀ s a, I s → ok a → ((∃ s' b, step s a = some (s', b) ∧ Q s a s' b) ↔ C s a)) :
    ∀ {as s}, I s → (∀ a ∈ as, ok a) → (AllSteps step Q s as ↔ EachStep step C s as) := by
  intro as
  induction as with
  | nil => exact fun _ _ => Iff.rfl
  | cons a as ih =>
    intro s hI hok
    obtain ⟨ha, hok'⟩ := List.forall_mem_cons.mp hok
    constructor
    · -- a good step is under `C`, and the run goes on from the only state it has
      rintro ⟨s', b, hs, hQ, h⟩
      refine ⟨(hstep s a hI ha).mp ⟨s', b, hs, hQ⟩, fun t c ht => ?_⟩
      obtain ⟨rfl, rfl⟩ : s' = t ∧ b = c := by simpa [hs] using ht
      exact (ih (hinv _ _ _ _ hI ha hs hQ) hok').mp h
    · -- a step under `C` completes, so the rest is a run from there
      rintro ⟨hC, h⟩
      obtain ⟨s', b, hs, hQ⟩ := (hstep s a hI ha).mpr hC
      exact ⟨s', b, hs, hQ, (ih (hinv _ _ _ _ hI ha hs hQ) hok').mpr (h s' b hs)⟩

/-! ## Logs -/

/-- A step with a log of what the outputs so far show, for conditions on the past of a run. -/
def logged {γ : Type*} (log : β → List γ) (step : σ → α → Option (σ × β)) (s : σ × List γ) (a : α) :
    Option ((σ × List γ) × β) :=
  (step s.1 a).map fun r => ((r.1, s.2 ++ log r.2), r.2)

theorem logged_eq_some {γ : Type*} {log : β → List γ} {s s' : σ × List γ} {a : α} {b : β} :
    logged log step s a = some (s', b) ↔ step s.1 a = some (s'.1, b) ∧ s'.2 = s.2 ++ log b := by
  obtain ⟨t, l⟩ := s'
  simp only [logged, Option.map_eq_some_iff, Prod.mk.injEq, Prod.exists]
  constructor
  · rintro ⟨t', b', hs, ⟨rfl, rfl⟩, rfl⟩
    exact ⟨hs, rfl⟩
  · rintro ⟨hs, rfl⟩
    exact ⟨t, b, hs, ⟨rfl, rfl⟩, rfl⟩

/-! ## Counted loops -/

/-- A loop whose body at each index refines a total one, under a view of its states that may depend
on the index, refines the loop of the total one. -/
theorem foldlM_range' {f : σ → ℕ → Option σ} {g : τ → ℕ → τ} {v : ℕ → τ → σ} :
    ∀ {n start : ℕ} {t : τ}, (∀ t i, start ≤ i → i < start + n →
      f (v i t) i = some (v (i + 1) (g t i))) →
        (List.range' start n).foldlM f (v start t) =
          some (v (start + n) ((List.range' start n).foldl g t)) := by
  intro n
  induction n with
  | zero => exact fun _ => rfl
  | succ n ih =>
    intro start t hstep
    -- the view moves on with the index
    have hrest := @ih (start + 1) (g t start) fun t i hlow hhigh =>
      hstep t i (by omega) (by omega)
    rw [List.range'_succ, List.foldlM_cons, hstep t start start.le_refl (by omega), List.foldl_cons,
      show start + (n + 1) = start + 1 + n by omega]
    exact hrest

theorem mapM_eq_some_map {f : α → Option β} {g : α → β} {as : List α}
    (h : ∀ a ∈ as, f a = some (g a)) : as.mapM f = some (as.map g) := by
  induction as with
  | nil => rfl
  | cons a as ih =>
    obtain ⟨ha, has⟩ := List.forall_mem_cons.mp h
    rw [List.mapM_cons, ha, ih has]
    rfl

/-! ## Programs that may fail -/

section Except

universe u

variable {ε : Type*} {γ δ : Type u} {x : Except ε γ} {f : γ → Except ε δ}

theorem bind_eq_ok {d : δ} : x >>= f = .ok d ↔ ∃ c, x = .ok c ∧ f c = .ok d := by
  cases x with
  | error e => exact ⟨(fun h => nomatch h), fun ⟨_, h, _⟩ => nomatch h⟩
  | ok c =>
    refine ⟨fun h => ⟨c, rfl, h⟩, ?_⟩
    rintro ⟨_, h, h'⟩
    cases h
    exact h'

theorem bind_eq_error {e : ε} :
    x >>= f = .error e ↔ x = .error e ∨ ∃ c, x = .ok c ∧ f c = .error e := by
  cases x with
  | error e' =>
    constructor
    · intro h
      cases h
      exact .inl rfl
    · rintro (h | ⟨_, h, -⟩)
      · cases h
        rfl
      · exact nomatch h
  | ok c =>
    refine ⟨fun h => .inr ⟨c, rfl, h⟩, ?_⟩
    rintro (h | ⟨_, h, h'⟩)
    · exact nomatch h
    · cases h
      exact h'

end Except

end Runs
