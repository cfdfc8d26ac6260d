/-
Clients that share a store, one atomic step at a time.

A configuration is the shared store and the list of clients; an event names a
client and the step it takes next. Whatever order the events come in is a
schedule, so a statement about `Runs.run` of `step` is a statement about every
interleaving. Clients that have not begun are in the list from the start, so
any number of them may begin at any time.
-/
import AquaFocus.Lib.Runs
import Mathlib.Algebra.Order.BigOperators.Group.List
import Mathlib.Algebra.Order.Ring.Int

set_option autoImplicit false

namespace Interleave

variable {σ π α : Type*}

/-- The shared store and the clients. -/
structure Config (σ π : Type*) where
  shared : σ
  clients : List π
deriving DecidableEq

/-- Client `e.1` takes the step `e.2`, when there is such a client and the step
is enabled for it. -/
def step (act : σ → π → α → Option (σ × π)) (c : Config σ π) (e : ℕ × α) :
    Option (Config σ π) :=
  c.clients[e.1]?.bind fun p =>
    (act c.shared p e.2).map fun r => ⟨r.1, c.clients.set e.1 r.2⟩

variable {act : σ → π → α → Option (σ × π)}

/-- Everything a step can do: one client moves, the others stay. -/
theorem step_cases {c c' : Config σ π} {e : ℕ × α} (h : step act c e = some c') :
    ∃ p s p', c.clients[e.1]? = some p ∧ act c.shared p e.2 = some (s, p')
      ∧ c' = ⟨s, c.clients.set e.1 p'⟩ := by
  rw [step, Option.bind_eq_some_iff] at h
  obtain ⟨p, hp, h⟩ := h
  rw [Option.map_eq_some_iff] at h
  obtain ⟨⟨s, p'⟩, hact, rfl⟩ := h
  exact ⟨p, s, p', hp, hact, rfl⟩

theorem step_of_act {c : Config σ π} {i : ℕ} {a : α} {p p' : π} {s : σ}
    (hp : c.clients[i]? = some p) (hact : act c.shared p a = some (s, p')) :
    step act c (i, a) = some ⟨s, c.clients.set i p'⟩ := by
  rw [step, hp, Option.bind_some, hact, Option.map_some]

/-- No client comes or goes. -/
theorem length_clients_of_run {c c' : Config σ π} {es : List (ℕ × α)}
    (h : Runs.run (step act) c es = some c') : c'.clients.length = c.clients.length := by
  have hstep : ∀ s e s', s.clients.length = c.clients.length → step act s e = some s' →
      s'.clients.length = c.clients.length := by
    intro s e s' hs hstep
    obtain ⟨p, t, p', -, -, rfl⟩ := step_cases hstep
    exact List.length_set.trans hs
  exact Runs.run_invariant _ hstep rfl h

/-- A property of all clients survives the step of one that keeps it. -/
theorem forall_mem_set {P : π → Prop} {l : List π} {p : π} (i : ℕ) (hl : ∀ q ∈ l, P q)
    (hp : P p) : ∀ q ∈ l.set i p, P q := by
  intro q hq
  rcases List.mem_or_eq_of_mem_set hq with hq | rfl
  · exact hl q hq
  · exact hp

/-- After a step, all clients have a property when the one that moved has it and
the others do. -/
theorem forall_mem_set_iff {P : π → Prop} {l : List π} {i : ℕ} {p : π} (p' : π)
    (hp : l[i]? = some p) :
    (∀ q ∈ l.set i p', P q) ↔ P p' ∧ ∀ j q, j ≠ i → l[j]? = some q → P q := by
  have hi := (List.getElem?_eq_some_iff.mp hp).1
  constructor
  · intro h
    refine ⟨h p' (List.mem_of_getElem? (List.getElem?_set_self hi)), fun j q hj hq => ?_⟩
    apply h q (List.mem_of_getElem? (i := j) _)
    rw [List.getElem?_set_ne (Ne.symm hj), hq]
  · rintro ⟨hp', hother⟩ q hq
    obtain ⟨j, hj⟩ := List.mem_iff_getElem?.mp hq
    by_cases hji : j = i
    · rw [hji, List.getElem?_set_self hi, Option.some.injEq] at hj
      exact hj ▸ hp'
    · rw [List.getElem?_set_ne (Ne.symm hji)] at hj
      exact hother j q hji hj

theorem forall_mem_iff {P : π → Prop} {l : List π} {i : ℕ} {p : π} (hp : l[i]? = some p) :
    (∀ q ∈ l, P q) ↔ P p ∧ ∀ j q, j ≠ i → l[j]? = some q → P q := by
  rw [← forall_mem_set_iff p hp]
  obtain ⟨hi, rfl⟩ := List.getElem?_eq_some_iff.mp hp
  rw [List.set_getElem_self]

/-- A sum over the clients changes by what the moving client changes. -/
theorem sum_map_set (f : π → ℤ) (p' : π) : ∀ (l : List π) (i : ℕ) (p : π), l[i]? = some p →
    ((l.set i p').map f).sum = (l.map f).sum - f p + f p'
  | [], i, p, h => by simp at h
  | q :: l, 0, p, h => by
      rw [List.getElem?_cons_zero, Option.some.injEq] at h
      simp only [List.set_cons_zero, List.map_cons, List.sum_cons, h]
      omega
  | q :: l, i + 1, p, h => by
      rw [List.getElem?_cons_succ] at h
      simp only [List.set_cons_succ, List.map_cons, List.sum_cons, sum_map_set f p' l i p h]
      omega

/-- What the moving client keeps, the clients keep. -/
theorem map_set_of_eq {β : Type*} {f : π → β} {p p' : π} {l : List π} {i : ℕ}
    (hp : l[i]? = some p) (hf : f p' = f p) : (l.set i p').map f = l.map f := by
  have hi : (l.map f)[i]? = some (f p) := by rw [List.getElem?_map, hp, Option.map_some]
  obtain ⟨hlt, hget⟩ := List.getElem?_eq_some_iff.mp hi
  rw [List.map_set, hf, ← hget, List.set_getElem_self]

theorem sum_map_nonneg {f : π → ℤ} {l : List π} (h : ∀ p ∈ l, 0 ≤ f p) : 0 ≤ (l.map f).sum :=
  List.sum_nonneg fun x hx => by
    obtain ⟨p, hp, rfl⟩ := List.mem_map.mp hx
    exact h p hp

/-! ## Runs to order

A run that shows a failure lets one client after another take some steps of its
own. `run_solo` embeds a client's own steps in the configuration, and `run_pass`
goes through all the clients so. -/

/-- One client's own step. -/
def solo (act : σ → π → α → Option (σ × π)) (x : σ × π) (a : α) : Option (σ × π) := act x.1 x.2 a

theorem run_solo {s s' : σ} {l : List π} {i : ℕ} {p p' : π} {as : List α} (hp : l[i]? = some p)
    (h : Runs.run (solo act) (s, p) as = some (s', p')) :
    Runs.run (step act) ⟨s, l⟩ (as.map (i, ·)) = some ⟨s', l.set i p'⟩ := by
  obtain ⟨hi, hpi⟩ := List.getElem?_eq_some_iff.mp hp
  induction as generalizing s l p with
  | nil =>
      rw [Runs.run_nil, Option.some.injEq, Prod.mk.injEq] at h
      obtain ⟨rfl, rfl⟩ := h
      rw [← hpi, List.set_getElem_self]
      rfl
  | cons a as ih =>
      rw [Runs.run_cons, Option.bind_eq_some_iff] at h
      obtain ⟨⟨t, q⟩, hact, hrest⟩ := h
      have hq : (l.set i q)[i]? = some q := List.getElem?_set_self hi
      -- the rest of the steps find the client where the first step put it
      have hlast := ih hq hrest (by rwa [List.length_set]) (List.getElem_set_self _)
      rw [List.set_set] at hlast
      rw [List.map_cons, Runs.run_cons, step_of_act hp hact, Option.bind_some]
      exact hlast

/-- Each client in turn takes its `steps`, which leave the store at `next` and
the client at `moved`. -/
theorem run_pass {Inv : σ → Prop} {steps : π → List α} {next : σ → π → σ} {moved : π → π}
    {l : List π} (pre : List π) {s : σ}
    (h : ∀ p ∈ l, ∀ s, Inv s →
      Runs.run (solo act) (s, p) (steps p) = some (next s p, moved p) ∧ Inv (next s p))
    (hs : Inv s) :
    ∃ es, Runs.run (step act) ⟨s, pre ++ l⟩ es = some ⟨l.foldl next s, pre ++ l.map moved⟩ := by
  induction l generalizing pre s with
  | nil => exact ⟨[], rfl⟩
  | cons p l ih =>
      obtain ⟨hown, hnext⟩ := h p List.mem_cons_self s hs
      -- the first client is at `pre.length`, and moves in place
      have hfirst := run_solo (l := pre ++ p :: l) (i := pre.length) (by simp) hown
      rw [List.set_append_right _ _ (le_refl _), Nat.sub_self, List.set_cons_zero] at hfirst
      obtain ⟨es, hes⟩ := ih (pre ++ [moved p])
        (fun q hq => h q (List.mem_cons_of_mem p hq)) hnext
      rw [List.append_assoc, List.append_assoc] at hes
      exact ⟨_, Runs.run_trans _ hfirst hes⟩

/-- Where every client that has not ended can take a step towards its end, every
configuration has a run to the end of all of them. `μ` is what a client has left. -/
theorem exists_run_to_end {μ : π → ℕ}
    (h : ∀ s p, μ p ≠ 0 → ∃ a s' p', act s p a = some (s', p') ∧ μ p' < μ p)
    (c : Config σ π) :
    ∃ es c', Runs.run (step act) c es = some c' ∧ ∀ p ∈ c'.clients, μ p = 0 := by
  -- one client, by itself
  have hsolo : ∀ n s p, μ p ≤ n →
      ∃ as s' p', Runs.run (solo act) (s, p) as = some (s', p') ∧ μ p' = 0 := by
    intro n
    induction n with
    | zero => exact fun s p hp => ⟨[], s, p, rfl, Nat.le_zero.mp hp⟩
    | succ n ih =>
        intro s p hp
        by_cases hend : μ p = 0
        · exact ⟨[], s, p, rfl, hend⟩
        · obtain ⟨a, s', p', hact, hlt⟩ := h s p hend
          obtain ⟨as, s'', p'', hrun, hzero⟩ := ih s' p' (by omega)
          refine ⟨a :: as, s'', p'', ?_, hzero⟩
          have hone : solo act (s, p) a = some (s', p') := hact
          rw [Runs.run_cons, hone, Option.bind_some, hrun]
  -- and then one client after another
  have hall : ∀ (l pre : List π) (s : σ), ∃ es s' l',
      Runs.run (step act) ⟨s, pre ++ l⟩ es = some ⟨s', pre ++ l'⟩ ∧ ∀ p ∈ l', μ p = 0 := by
    intro l
    induction l with
    | nil => exact fun pre s => ⟨[], s, [], rfl, fun p hp => absurd hp List.not_mem_nil⟩
    | cons p l ih =>
        intro pre s
        obtain ⟨as, s', p', hown, hzero⟩ := hsolo (μ p) s p (le_refl _)
        have hfirst := run_solo (l := pre ++ p :: l) (i := pre.length) (by simp) hown
        rw [List.set_append_right _ _ (le_refl _), Nat.sub_self, List.set_cons_zero] at hfirst
        obtain ⟨es, t, l', hes, hl'⟩ := ih (pre ++ [p']) s'
        rw [List.append_assoc, List.append_assoc] at hes
        refine ⟨_, t, p' :: l', Runs.run_trans _ hfirst hes, ?_⟩
        intro q hq
        rcases List.mem_cons.mp hq with rfl | hq
        · exact hzero
        · exact hl' q hq
  obtain ⟨es, s', l', hrun, hzero⟩ := hall c.clients [] c.shared
  exact ⟨es, ⟨s', l'⟩, hrun, hzero⟩

/-- Two clients take turns: one begins, the other begins, and then they go on. -/
theorem run_overlap {s₀ s₁ s₂ s₃ s₄ : σ} {l : List π} {i j : ℕ} {p p₁ p₂ q q₁ q₂ : π}
    {as as' bs bs' : List α} (hij : i ≠ j) (hp : l[i]? = some p) (hq : l[j]? = some q)
    (h₁ : Runs.run (solo act) (s₀, p) as = some (s₁, p₁))
    (h₂ : Runs.run (solo act) (s₁, q) bs = some (s₂, q₁))
    (h₃ : Runs.run (solo act) (s₂, p₁) as' = some (s₃, p₂))
    (h₄ : Runs.run (solo act) (s₃, q₁) bs' = some (s₄, q₂)) :
    ∃ es, Runs.run (step act) ⟨s₀, l⟩ es = some ⟨s₄, (l.set i p₂).set j q₂⟩ := by
  have hi := (List.getElem?_eq_some_iff.mp hp).1
  have hj := (List.getElem?_eq_some_iff.mp hq).1
  have hrun₁ := run_solo hp h₁
  have hq' : (l.set i p₁)[j]? = some q := by rw [List.getElem?_set_ne hij, hq]
  have hrun₂ := run_solo hq' h₂
  -- the first client is where it stopped, whatever the second has done
  have hp' : ((l.set i p₁).set j q₁)[i]? = some p₁ := by
    rw [List.getElem?_set_ne (Ne.symm hij), List.getElem?_set_self hi]
  have hrun₃ := run_solo hp' h₃
  have hset : ((l.set i p₁).set j q₁).set i p₂ = (l.set i p₂).set j q₁ := by
    rw [List.set_comm _ _ hij, List.set_set, List.set_comm _ _ (Ne.symm hij)]
  rw [hset] at hrun₃
  have hq'' : ((l.set i p₂).set j q₁)[j]? = some q₁ :=
    List.getElem?_set_self (by rwa [List.length_set])
  have hrun₄ := run_solo hq'' h₄
  rw [List.set_set] at hrun₄
  exact ⟨_, Runs.run_trans _ hrun₁ (Runs.run_trans _ hrun₂ (Runs.run_trans _ hrun₃ hrun₄))⟩

theorem sum_map_set_set (f : π → ℤ) {l : List π} {i j : ℕ} {p q : π} (p' q' : π) (hij : i ≠ j)
    (hp : l[i]? = some p) (hq : l[j]? = some q) :
    (((l.set i p').set j q').map f).sum = (l.map f).sum - f p + f p' - f q + f q' := by
  have hq' : (l.set i p')[j]? = some q := by rw [List.getElem?_set_ne hij, hq]
  rw [sum_map_set f q' _ j q hq', sum_map_set f p' l i p hp]

/-! ## A client by itself

Where a client sees nothing of the others' steps, what it does in an
interleaving it could have done alone. `R` relates the store and the client to
the store and the client there would be without the others. -/

theorem run_alone {Inv : Config σ π → Prop} {R : σ × π → σ × π → Prop}
    (hinv : ∀ c e c', Inv c → step act c e = some c' → Inv c')
    (hown : ∀ (c : Config σ π) (i : ℕ) p a s' p' x, Inv c → c.clients[i]? = some p →
      R (c.shared, p) x → act c.shared p a = some (s', p') →
        ∃ x', solo act x a = some x' ∧ R (s', p') x')
    (hother : ∀ (c : Config σ π) (i j : ℕ) p q a s' p' x, Inv c → i ≠ j → c.clients[i]? = some p →
      c.clients[j]? = some q → R (c.shared, q) x → act c.shared p a = some (s', p') → R (s', q) x)
    {c c' : Config σ π} (hc : Inv c) {i : ℕ} {p : π} {x : σ × π} (hp : c.clients[i]? = some p)
    (hR : R (c.shared, p) x) {es : List (ℕ × α)} (h : Runs.run (step act) c es = some c') :
    ∃ p' as x', c'.clients[i]? = some p' ∧ Runs.run (solo act) x as = some x'
      ∧ R (c'.shared, p') x' := by
  induction es generalizing c p x with
  | nil =>
      rw [Runs.run_nil, Option.some.injEq] at h
      exact ⟨p, [], x, h ▸ hp, rfl, h ▸ hR⟩
  | cons e es ih =>
      rw [Runs.run_cons, Option.bind_eq_some_iff] at h
      obtain ⟨d, hd, hrest⟩ := h
      have hInv := hinv c e d hc hd
      obtain ⟨q, s', q', hq, hact, rfl⟩ := step_cases hd
      by_cases hei : e.1 = i
      · -- its own step, which it also takes alone
        rw [hei, hp, Option.some.injEq] at hq
        subst hq
        obtain ⟨y, hy, hRy⟩ := hown c i p e.2 s' q' x hc hp hR hact
        have hset : (c.clients.set e.1 q')[i]? = some q' := by
          rw [hei]
          exact List.getElem?_set_self (List.getElem?_eq_some_iff.mp hp).1
        obtain ⟨p', as, x', hp', hrun, hR'⟩ := ih hInv hset hRy hrest
        refine ⟨p', e.2 :: as, x', hp', ?_, hR'⟩
        rw [Runs.run_cons, hy]
        exact hrun
      · -- a step of another client
        have hset : (c.clients.set e.1 q')[i]? = some p := by
          rw [List.getElem?_set_ne hei, hp]
        exact ih hInv hset (hother c e.1 i q p e.2 s' q' x hc hei hq hp hR hact) hrest

end Interleave
