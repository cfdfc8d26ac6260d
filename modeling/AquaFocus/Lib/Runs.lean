/-
Runs of a machine whose steps are partial functions.

`run step s es` takes the events `es` from state `s`, and is `none` when one of
them is not enabled. Two things are said about runs: `Always P`, that `P` holds
in every state a run reaches, and `Meets G`, that every step it takes meets the
condition `G` on the state before it. Two machines are compared run by run with
`run_simulates`.

`always_iff_meets` joins the two: where one step keeps `P` exactly when it meets
`G`, a run keeps `P` throughout exactly when all its steps meet `G`. The
induction over the events is done here and nowhere else. `not_rests` is about
runs without end: a machine that can always take one more step has one.
-/
import Mathlib.Data.List.Basic
import Mathlib.Logic.Function.Iterate
import Mathlib.Tactic.Choose

set_option autoImplicit false

namespace Runs

variable {σ ε : Type*} (step : σ → ε → Option σ)

/-! ## Runs -/

/-- The state after the events `es`, `none` when one of them is not enabled. -/
def run : σ → List ε → Option σ
  | s, [] => some s
  | s, e :: es => (step s e).bind fun s' => run s' es

@[simp] theorem run_nil (s : σ) : run step s [] = some s := rfl

theorem run_cons (s : σ) (e : ε) (es : List ε) :
    run step s (e :: es) = (step s e).bind fun s' => run step s' es := rfl

theorem run_append (s : σ) (es fs : List ε) :
    run step s (es ++ fs) = (run step s es).bind fun s' => run step s' fs := by
  induction es generalizing s with
  | nil => rfl
  | cons e es ih =>
      rw [List.cons_append, run_cons, run_cons, Option.bind_assoc]
      exact congrArg _ (funext ih)

theorem run_concat (s : σ) (es : List ε) (e : ε) :
    run step s (es ++ [e]) = (run step s es).bind fun s' => step s' e := by
  rw [run_append]
  congr 1
  funext s'
  rw [run_cons]
  exact Option.bind_fun_some (step s' e)

theorem run_trans {s t u : σ} {es fs : List ε} (h₁ : run step s es = some t)
    (h₂ : run step t fs = some u) : run step s (es ++ fs) = some u := by
  rw [run_append, h₁]
  exact h₂

/-- What the steps of one kind of event preserve, a run of such events preserves. -/
theorem run_invariant_of_mem {Inv : σ → Prop} {E : ε → Prop}
    (hstep : ∀ s e s', Inv s → E e → step s e = some s' → Inv s') {s t : σ} (hs : Inv s)
    {es : List ε} (hes : ∀ e ∈ es, E e) (h : run step s es = some t) : Inv t := by
  induction es generalizing s with
  | nil =>
      rw [run_nil, Option.some.injEq] at h
      exact h ▸ hs
  | cons e es ih =>
      rw [run_cons, Option.bind_eq_some_iff] at h
      obtain ⟨s', hs', h⟩ := h
      exact ih (hstep s e s' hs (hes e List.mem_cons_self) hs')
        (fun f hf => hes f (List.mem_cons_of_mem e hf)) h

/-- What one step preserves, a run preserves. -/
theorem run_invariant {Inv : σ → Prop} (hstep : ∀ s e s', Inv s → step s e = some s' → Inv s')
    {s s' : σ} {es : List ε} (hs : Inv s) (h : run step s es = some s') : Inv s' :=
  run_invariant_of_mem step (E := fun _ => True) (fun s e t hs _ => hstep s e t hs) hs
    (fun _ _ => trivial) h

/-! ## Conditions on runs -/

/-- `P` holds in every state the run `es` from `s` reaches. -/
def Always (P : σ → Prop) (s : σ) (es : List ε) : Prop :=
  ∀ pre, pre <+: es → ∀ s', run step s pre = some s' → P s'

/-- Every step of the run `es` from `s` meets the condition `G`. -/
def Meets (G : σ → ε → Prop) (s : σ) (es : List ε) : Prop :=
  ∀ pre e, pre ++ [e] <+: es → ∀ s₁ s₂, run step s pre = some s₁ → step s₁ e = some s₂ → G s₁ e

variable {step}

theorem always_nil {P : σ → Prop} {s : σ} : Always step P s [] ↔ P s := by
  constructor
  · intro h
    exact h [] (List.prefix_refl []) s rfl
  · intro h pre hpre s' hs'
    obtain rfl := List.prefix_nil.mp hpre
    rw [run_nil, Option.some.injEq] at hs'
    exact hs' ▸ h

theorem always_cons {P : σ → Prop} {s : σ} {e : ε} {es : List ε} :
    Always step P s (e :: es) ↔ P s ∧ ∀ s', step s e = some s' → Always step P s' es := by
  constructor
  · intro h
    refine ⟨h [] List.nil_prefix s rfl, fun s' hs' pre hpre t ht => ?_⟩
    apply h (e :: pre) ((List.prefix_cons_inj e).mpr hpre) t
    rw [run_cons, hs']
    exact ht
  · rintro ⟨hs, hrest⟩ pre hpre t ht
    cases pre with
    | nil =>
        rw [run_nil, Option.some.injEq] at ht
        exact ht ▸ hs
    | cons f pre =>
        obtain ⟨rfl, htail⟩ := List.cons_prefix_cons.mp hpre
        rw [run_cons, Option.bind_eq_some_iff] at ht
        obtain ⟨s', hs', ht⟩ := ht
        exact hrest s' hs' pre htail t ht

theorem meets_nil {G : σ → ε → Prop} {s : σ} : Meets step G s [] := by
  intro pre e h
  simp at h

theorem meets_cons {G : σ → ε → Prop} {s : σ} {e : ε} {es : List ε} :
    Meets step G s (e :: es)
      ↔ ∀ s', step s e = some s' → G s e ∧ Meets step G s' es := by
  constructor
  · intro h s' hs'
    refine ⟨h [] e (by simp) s s' rfl hs', fun pre f hpre s₁ s₂ h₁ h₂ => ?_⟩
    refine h (e :: pre) f ((List.prefix_cons_inj e).mpr hpre) s₁ s₂ ?_ h₂
    rw [run_cons, hs']
    exact h₁
  · intro h pre f hpre s₁ s₂ h₁ h₂
    cases pre with
    | nil =>
        obtain ⟨rfl, -⟩ := List.cons_prefix_cons.mp hpre
        rw [run_nil, Option.some.injEq] at h₁
        subst h₁
        exact (h s₂ h₂).1
    | cons f' pre =>
        obtain ⟨rfl, htail⟩ := List.cons_prefix_cons.mp hpre
        rw [run_cons, Option.bind_eq_some_iff] at h₁
        obtain ⟨s', hs', h₁⟩ := h₁
        exact (h s' hs').2 pre f htail s₁ s₂ h₁ h₂

/-- What every step that meets `G` preserves holds throughout a run of such steps. -/
theorem always_of_meets {P : σ → Prop} {G : σ → ε → Prop}
    (hstep : ∀ s e s', P s → G s e → step s e = some s' → P s') {s : σ} (hs : P s) {es : List ε}
    (h : Meets step G s es) : Always step P s es := by
  induction es generalizing s with
  | nil => exact always_nil.mpr hs
  | cons e es ih =>
      refine always_cons.mpr ⟨hs, fun s' hs' => ?_⟩
      obtain ⟨hG, hrest⟩ := meets_cons.mp h s' hs'
      exact ih (hstep s e s' hs hG hs') hrest

/-- Where a step from a good state keeps `P` exactly when it meets `G`, a run
keeps `P` exactly when all its steps meet `G`. `Inv` is what else is known of
the good states. -/
theorem always_iff_meets {Inv P : σ → Prop} {G : σ → ε → Prop}
    (hinv : ∀ s e s', Inv s → P s → step s e = some s' → G s e → Inv s')
    (hiff : ∀ s e s', Inv s → P s → step s e = some s' → (P s' ↔ G s e))
    {s : σ} (hs : Inv s) (hP : P s) (es : List ε) :
    Always step P s es ↔ Meets step G s es := by
  induction es generalizing s with
  | nil => exact ⟨fun _ => meets_nil, fun _ => always_nil.mpr hP⟩
  | cons e es ih =>
      rw [always_cons, meets_cons]
      constructor
      · rintro ⟨-, h⟩ s' hs'
        -- the empty continuation already asks for `P` after the step
        have hP' : P s' := (h s' hs') [] List.nil_prefix s' rfl
        have hG : G s e := (hiff s e s' hs hP hs').mp hP'
        exact ⟨hG, (ih (hinv s e s' hs hP hs' hG) hP').mp (h s' hs')⟩
      · intro h
        refine ⟨hP, fun s' hs' => ?_⟩
        obtain ⟨hG, hrest⟩ := h s' hs'
        exact (ih (hinv s e s' hs hP hs' hG) ((hiff s e s' hs hP hs').mpr hG)).mpr hrest

/-! ## What is lost for good

Some properties, once lost, are not regained. A run from a state that has one
ends in such a state exactly when all its steps meet `G`. `E` is the kind of
event the run is made of. -/

theorem run_iff_meets {Inv P : σ → Prop} {G : σ → ε → Prop} {E : ε → Prop}
    (hinv : ∀ s e s', Inv s → E e → step s e = some s' → Inv s')
    (hiff : ∀ s e s', Inv s → P s → E e → step s e = some s' → (P s' ↔ G s e))
    (hlost : ∀ s e s', Inv s → ¬ P s → E e → step s e = some s' → ¬ P s') {s t : σ}
    (hs : Inv s) (hP : P s) {es : List ε} (hes : ∀ e ∈ es, E e) (h : run step s es = some t) :
    P t ↔ Meets step G s es := by
  induction es generalizing s with
  | nil =>
      rw [run_nil, Option.some.injEq] at h
      exact iff_of_true (h ▸ hP) meets_nil
  | cons e es ih =>
      rw [run_cons, Option.bind_eq_some_iff] at h
      obtain ⟨s', hs', h⟩ := h
      have he : E e := hes e List.mem_cons_self
      have hrest : ∀ f ∈ es, E f := fun f hf => hes f (List.mem_cons_of_mem e hf)
      have hInv : Inv s' := hinv s e s' hs he hs'
      rw [meets_cons]
      by_cases hP' : P s'
      · have hG : G s e := (hiff s e s' hs hP he hs').mp hP'
        rw [ih hInv hP' hrest h]
        constructor
        · intro hmeets u hu
          rw [hs', Option.some.injEq] at hu
          exact ⟨hG, hu ▸ hmeets⟩
        · intro hmeets
          exact (hmeets s' hs').2
      · -- lost at the first step, and so at the end
        have hkeep : ∀ s e s', (Inv s ∧ ¬ P s) → E e → step s e = some s' → Inv s' ∧ ¬ P s' :=
          fun s e s' hs he hstep => ⟨hinv s e s' hs.1 he hstep, hlost s e s' hs.1 hs.2 he hstep⟩
        refine iff_of_false (run_invariant_of_mem step hkeep ⟨hInv, hP'⟩ hrest h).2 fun hmeets => ?_
        exact hP' ((hiff s e s' hs hP he hs').mpr (hmeets s' hs').1)

/-! ## Two machines -/

/-- Where every step of one machine is a run of the other's, between states that
are related, so is every run; a step that is no event of the other is hidden. -/
theorem run_simulates_flatMap {τ ε' : Type*} {step' : τ → ε' → Option τ} {R : σ → τ → Prop}
    {E : ε → Prop} {seen : ε → List ε'}
    (hsim : ∀ s e s' t, R s t → E e → step s e = some s' →
      ∃ t', run step' t (seen e) = some t' ∧ R s' t')
    {s s' : σ} {t : τ} (hR : R s t) {es : List ε} (hes : ∀ e ∈ es, E e)
    (h : run step s es = some s') : ∃ t', run step' t (es.flatMap seen) = some t' ∧ R s' t' := by
  induction es generalizing s t with
  | nil =>
      rw [run_nil, Option.some.injEq] at h
      exact ⟨t, rfl, h ▸ hR⟩
  | cons e es ih =>
      rw [run_cons, Option.bind_eq_some_iff] at h
      obtain ⟨s₁, hs₁, h⟩ := h
      obtain ⟨t₁, ht₁, hR₁⟩ := hsim s e s₁ t hR (hes e List.mem_cons_self) hs₁
      obtain ⟨t', ht', hR'⟩ := ih hR₁ (fun f hf => hes f (List.mem_cons_of_mem e hf)) h
      refine ⟨t', ?_, hR'⟩
      rw [List.flatMap_cons]
      exact run_trans step' ht₁ ht'

/-- Where every step of one machine is one of the other's, between states that
are related, so is every run. -/
theorem run_simulates {τ : Type*} {step' : τ → ε → Option τ} {R : σ → τ → Prop} {E : ε → Prop}
    (hsim : ∀ s e s' t, R s t → E e → step s e = some s' → ∃ t', step' t e = some t' ∧ R s' t')
    {s s' : σ} {t : τ} (hR : R s t) {es : List ε} (hes : ∀ e ∈ es, E e)
    (h : run step s es = some s') : ∃ t', run step' t es = some t' ∧ R s' t' := by
  have hseen : es.flatMap (fun e => [e]) = es := List.flatMap_singleton' es
  rw [← hseen]
  refine run_simulates_flatMap (fun s e s' t hR he hs' => ?_) hR hes h
  obtain ⟨t', ht', hR'⟩ := hsim s e s' t hR he hs'
  refine ⟨t', ?_, hR'⟩
  rw [run_cons, ht']
  rfl

/-! ## Runs without end -/

variable (step) in
/-- The events `es 0`, `es 1`, ... are of one kind and can be taken one after the
other from `s`, for ever. -/
def Endless (E : ε → Prop) (s : σ) (es : ℕ → ε) : Prop :=
  ∀ n, E (es n) ∧ (run step s ((List.range n).map es)).isSome

variable (step) in
/-- Events of one kind come to an end from `s` on. -/
def Rests (E : ε → Prop) (s : σ) : Prop := ¬ ∃ es, Endless step E s es

/-- A machine that can always take one more step never rests. -/
theorem not_rests {Inv : σ → Prop} {E : ε → Prop}
    (hnext : ∀ s, Inv s → ∃ e s', E e ∧ step s e = some s' ∧ Inv s') {s : σ} (hs : Inv s) :
    ¬ Rests step E s := by
  obtain ⟨e, -⟩ := hnext s hs
  have : Nonempty ε := ⟨e⟩
  choose! event target hE hstep hInv using hnext
  -- the states on the way
  have hreach : ∀ n, Inv (target^[n] s)
      ∧ run step s ((List.range n).map fun i => event (target^[i] s)) = some (target^[n] s) := by
    intro n
    induction n with
    | zero => exact ⟨hs, rfl⟩
    | succ n ih =>
        rw [Function.iterate_succ_apply', List.range_succ, List.map_append, List.map_singleton,
          run_concat, ih.2]
        exact ⟨hInv _ ih.1, hstep _ ih.1⟩
  refine fun hrests => hrests ⟨fun i => event (target^[i] s), fun n => ⟨hE _ (hreach n).1, ?_⟩⟩
  rw [(hreach n).2]
  rfl

end Runs
