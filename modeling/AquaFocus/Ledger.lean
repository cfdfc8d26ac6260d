/-
The account's document under everything that writes to it.

Purchases (`Purchase.lean`) share the balance with the credits of tasks and of
focus sessions, from any number of screens and phones. Only a purchase writes
the list of creatures, and it writes back what it has read, so the lists that
are still in hand count as much as the one that is stored: `Conserved` says what
holds of both, and `always_conserved` that it holds under any schedule.
-/
import AquaFocus.Purchase

set_option autoImplicit false

open Runs Interleave

namespace AquaFocus.Ledger

/-! ## Clients -/

/-- A purchase, or the credit of a task's or of a focus session's coins. -/
inductive Client
  | purchase (p : Shop.Purchase)
  | credit (moneyEarned : ℤ) (applied : Bool)

/-- A purchase takes its own steps; a credit is one increment. -/
def act : UserDoc → Client → Shop.Action → Option (UserDoc × Client)
  | doc, .purchase p, a => (Shop.act doc p a).map fun r => (r.1, .purchase r.2)
  | doc, .credit moneyEarned false, .addMoney =>
      some (doc.addMoney moneyEarned, .credit moneyEarned true)
  | _, _, _ => none

/-- The document, and the purchases and credits that are going to be made. -/
def start (doc : UserDoc) (ps : List MarineCreatures) (credits : List ℤ) :
    Config UserDoc Client :=
  ⟨doc, ps.map (fun m => .purchase ⟨m, .toStart⟩) ++ credits.map (.credit · false)⟩

theorem act_cases {doc doc' : UserDoc} {p p' : Client} {a : Shop.Action}
    (h : act doc p a = some (doc', p')) :
    (∃ q q', p = .purchase q ∧ p' = .purchase q' ∧ Shop.act doc q a = some (doc', q'))
      ∨ ∃ moneyEarned, p = .credit moneyEarned false ∧ p' = .credit moneyEarned true
          ∧ doc' = doc.addMoney moneyEarned := by
  unfold act at h
  split at h
  · next q =>
    obtain ⟨⟨doc'', q'⟩, hq, heq⟩ := Option.map_eq_some_iff.mp h
    cases heq
    exact .inl ⟨q, q', rfl, rfl, hq⟩
  · next moneyEarned =>
    cases h
    exact .inr ⟨moneyEarned, rfl, rfl, rfl⟩
  · cases h

/-! ## The ledger -/

/-- What a client has added to the balance so far. -/
def credited : Client → ℤ
  | .credit moneyEarned true => moneyEarned
  | _ => 0

/-- What it has deducted. -/
def deducted : Client → ℤ
  | .purchase p => Shop.paid p
  | _ => 0

/-- An id that was in the list at first, or is that of a purchase that has begun. -/
def Known (doc : UserDoc) (c : Config UserDoc Client) (id : ℤ) : Prop :=
  id ∈ doc.getMarLivesList
    ∨ ∃ p, .purchase p ∈ c.clients ∧ p.stage ≠ .toStart ∧ p.marLife.id = id

/-- The balance is what it was, with all credits and without all deductions, and
the list is a set of known ids. -/
structure Conserved (doc : UserDoc) (c : Config UserDoc Client) : Prop where
  money : c.shared.money
    = doc.money + (c.clients.map credited).sum - (c.clients.map deducted).sum
  nodup : c.shared.getMarLivesList.Nodup
  known : ∀ id ∈ c.shared.getMarLivesList, Known doc c id

/-- The same of the lists in hand. -/
structure Sound (doc : UserDoc) (c : Config UserDoc Client) : Prop extends Conserved doc c where
  nodup_read : ∀ p ∈ c.clients, ∀ m d l, p = .purchase ⟨m, .approved d (.read l)⟩ → l.Nodup
  known_read : ∀ p ∈ c.clients, ∀ m d l, p = .purchase ⟨m, .approved d (.read l)⟩ →
    ∀ id ∈ l, Known doc c id

variable {doc : UserDoc} {c c' : Config UserDoc Client} {e : ℕ × Shop.Action}

theorem nodup_withMarLife {marId : ℤ} {marList : List ℤ} (h : marList.Nodup) :
    (UserDoc.withMarLife marId marList).Nodup := by
  unfold UserDoc.withMarLife
  by_cases hmem : marList.contains marId = true
  · rw [if_pos hmem]
    exact h
  · rw [if_neg hmem]
    rw [List.nodup_append]
    refine ⟨h, List.pairwise_singleton _ marId, fun x hx y hy => ?_⟩
    rw [List.mem_singleton.mp hy]
    rintro rfl
    exact hmem (List.contains_iff_mem.mpr hx)

/-- A purchase that takes a step has begun then. -/
theorem stage_of_act {doc doc' : UserDoc} {p p' : Shop.Purchase} {a : Shop.Action}
    (h : Shop.act doc p a = some (doc', p')) : p'.stage ≠ .toStart := by
  obtain ⟨m, ⟨rfl, -, -, rfl⟩ | ⟨lives, rfl, -, -, rfl⟩ | ⟨d, rfl, -, -, rfl⟩
    | ⟨d, l, rfl, -, -, rfl⟩⟩ := Shop.act_cases h
  · unfold Shop.checked
    split <;> simp
  · simp
  · simp
  · simp

/-- A known id stays known: a purchase that has begun is not forgotten. -/
theorem Known.step (hstep : Interleave.step act c e = some c') {id : ℤ} (h : Known doc c id) :
    Known doc c' id := by
  obtain ⟨p, s, p', hp, hact, rfl⟩ := step_cases hstep
  rcases h with hin | ⟨q, hq, hbegun, hid⟩
  · exact .inl hin
  · obtain ⟨j, hj⟩ := List.mem_iff_getElem?.mp hq
    right
    by_cases hji : j = e.1
    · -- the client that moves is the purchase, and its creature stays
      rw [hji, hp, Option.some.injEq] at hj
      subst hj
      rcases act_cases hact with ⟨r, r', hr, rfl, hown⟩ | ⟨amt, hr, -, -⟩
      · cases hr
        refine ⟨r', List.mem_of_getElem? (i := e.1) ?_, stage_of_act hown, ?_⟩
        · exact List.getElem?_set_self (List.getElem?_eq_some_iff.mp hp).1
        · rw [Shop.act_marLife hown, hid]
      · cases hr
    · refine ⟨q, List.mem_of_getElem? (i := j) ?_, hbegun, hid⟩
      rw [List.getElem?_set_ne (Ne.symm hji), hj]

/-- What one step of a client does to the balance. -/
theorem act_money {doc doc' : UserDoc} {p p' : Client} {a : Shop.Action}
    (h : act doc p a = some (doc', p')) :
    doc'.money = doc.money + (credited p' - credited p) - (deducted p' - deducted p) := by
  rcases act_cases h with ⟨q, q', rfl, rfl, hown⟩ | ⟨amt, rfl, rfl, rfl⟩
  · obtain ⟨m, ⟨rfl, -, rfl, rfl⟩ | ⟨lives, rfl, -, rfl, rfl⟩ | ⟨d, rfl, -, rfl, rfl⟩
      | ⟨d, l, rfl, -, rfl, rfl⟩⟩ := Shop.act_cases hown
    · simp only [credited, deducted, Shop.paid_checked]
      simp [Shop.paid]
    · simp only [credited, deducted, Shop.paid, UserDoc.addMoney_money]
      omega
    · cases d <;> simp [credited, deducted, Shop.paid]
    · cases d <;> simp [credited, deducted, Shop.paid]
  · simp only [credited, deducted, UserDoc.addMoney_money]
    omega

/-- What it does to the list: nothing, or it writes back what it has in hand. -/
theorem act_marLives {doc doc' : UserDoc} {p p' : Client} {a : Shop.Action}
    (h : act doc p a = some (doc', p')) :
    doc'.getMarLivesList = doc.getMarLivesList
      ∨ ∃ m d l, p = .purchase ⟨m, .approved d (.read l)⟩
          ∧ p' = .purchase ⟨m, .approved d .written⟩
          ∧ doc'.getMarLivesList = UserDoc.withMarLife m.id l := by
  rcases act_cases h with ⟨q, q', rfl, rfl, hown⟩ | ⟨amt, rfl, rfl, rfl⟩
  · obtain ⟨m, ⟨rfl, -, rfl, rfl⟩ | ⟨lives, rfl, -, rfl, rfl⟩ | ⟨d, rfl, -, rfl, rfl⟩
      | ⟨d, l, rfl, -, rfl, rfl⟩⟩ := Shop.act_cases hown
    · exact .inl rfl
    · exact .inl rfl
    · exact .inl rfl
    · exact .inr ⟨m, d, l, rfl, rfl, rfl⟩
  · exact .inl rfl

/-- A list in hand after a step was in hand before it, or is the stored one. -/
theorem act_read {doc doc' : UserDoc} {p p' : Client} {a : Shop.Action}
    (h : act doc p a = some (doc', p')) {m : MarineCreatures} {d : Bool} {l : List ℤ}
    (hp' : p' = .purchase ⟨m, .approved d (.read l)⟩) :
    l = doc.getMarLivesList ∨ ∃ d', p = .purchase ⟨m, .approved d' (.read l)⟩ := by
  subst hp'
  rcases act_cases h with ⟨q, q', rfl, hq', hown⟩ | ⟨amt, -, hamt, -⟩
  · cases hq'
    obtain ⟨m', ⟨rfl, -, rfl, heq⟩ | ⟨lives, rfl, -, rfl, heq⟩ | ⟨d', rfl, -, rfl, heq⟩
      | ⟨d', l', rfl, -, rfl, heq⟩⟩ := Shop.act_cases hown
    · have hstage := congrArg Shop.Purchase.stage heq
      exact absurd (Shop.checked_approved hstage.symm).2.2 (by simp)
    · cases heq
      exact .inr ⟨false, rfl⟩
    · cases heq
      exact .inl rfl
    · cases heq
  · cases hamt

theorem Sound.step (h : Sound doc c) (hstep : Interleave.step act c e = some c') :
    Sound doc c' := by
  have hknown : ∀ id, Known doc c id → Known doc c' id := fun id hid => hid.step hstep
  obtain ⟨p, s, p', hp, hact, rfl⟩ := step_cases hstep
  have hmem : p ∈ c.clients := List.mem_of_getElem? hp
  refine ⟨⟨?_, ?_, ?_⟩, ?_, ?_⟩
  · have hcredited := sum_map_set credited p' c.clients e.1 p hp
    have hdeducted := sum_map_set deducted p' c.clients e.1 p hp
    have hmoney := h.money
    rw [act_money hact, hcredited, hdeducted]
    omega
  · rcases act_marLives hact with hsame | ⟨m, d, l, hread, -, hwritten⟩
    · rw [hsame]
      exact h.nodup
    · rw [hwritten]
      exact nodup_withMarLife (h.nodup_read p hmem m d l hread)
  · intro id hid
    rcases act_marLives hact with hsame | ⟨m, d, l, hread, hp', hwritten⟩
    · rw [hsame] at hid
      exact hknown id (h.known id hid)
    · rw [hwritten, UserDoc.mem_withMarLife] at hid
      rcases hid with hid | rfl
      · exact hknown id (h.known_read p hmem m d l hread id hid)
      · -- the purchase that writes its creature has begun
        apply hknown
        exact .inr ⟨_, hread ▸ hmem, by simp, rfl⟩
  · apply forall_mem_set e.1 h.nodup_read
    intro m d l hp'
    rcases act_read hact hp' with rfl | ⟨d', hread⟩
    · exact h.nodup
    · exact h.nodup_read p hmem m d' l hread
  · have hother : ∀ q ∈ c.clients, ∀ m d l, q = .purchase ⟨m, .approved d (.read l)⟩ →
        ∀ id ∈ l, Known doc ⟨s, c.clients.set e.1 p'⟩ id :=
      fun q hq m d l hread id hid => hknown id (h.known_read q hq m d l hread id hid)
    apply forall_mem_set e.1 hother
    intro m d l hp' id hid
    rcases act_read hact hp' with rfl | ⟨d', hread⟩
    · exact hknown id (h.known id hid)
    · exact hknown id (h.known_read p hmem m d' l hread id hid)

theorem sound_start {ps : List MarineCreatures} {credits : List ℤ}
    (hdoc : doc.getMarLivesList.Nodup) : Sound doc (start doc ps credits) where
  money := by
    have hcredited : ((start doc ps credits).clients.map credited).sum = 0 := by
      simp [start, credited, Function.comp_def]
    have hdeducted : ((start doc ps credits).clients.map deducted).sum = 0 := by
      simp [start, deducted, Shop.paid, Function.comp_def]
    rw [hcredited, hdeducted, add_zero, sub_zero]
    rfl
  nodup := hdoc
  known _ hid := .inl hid
  nodup_read := by
    intro p hp m d l hread
    simp [start, hread] at hp
  known_read := by
    intro p hp m d l hread
    simp [start, hread] at hp

/-- **Money is conserved, and the list stays a set**, under any schedule of any
number of purchases and credits. -/
theorem always_conserved (doc : UserDoc) (hdoc : doc.getMarLivesList.Nodup)
    (ps : List MarineCreatures) (credits : List ℤ) (es : List (ℕ × Shop.Action)) :
    Always (step act) (Conserved doc) (start doc ps credits) es := by
  intro pre hpre c hrun
  have hstep : ∀ c e c', Sound doc c → step act c e = some c' → Sound doc c' :=
    fun c e c' h hstep => h.step hstep
  exact (run_invariant _ hstep (sound_start hdoc) hrun).toConserved

/-- The turtle is bought on two phones, while two tasks and a session are paid. -/
theorem always_conserved_turtles :
    Always (step act) (Conserved ⟨500, some [0]⟩)
      (start ⟨500, some [0]⟩ [⟨2, 300⟩, ⟨2, 300⟩] [5, 4, 600])
      [(0, .hasEnoughMoney), (2, .addMoney), (1, .hasEnoughMoney), (0, .getMarLivesList),
        (1, .getMarLivesList), (0, .addMoney), (4, .addMoney), (1, .addMoney),
        (1, .updateMarLives), (0, .updateMarLives), (3, .addMoney)] :=
  always_conserved ⟨500, some [0]⟩ (by decide) _ _ _

end AquaFocus.Ledger
