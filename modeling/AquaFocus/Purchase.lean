/-
`DetailsBody._purchase` (`screens/UserPages/Shop/details_screen.dart`), as the
store sees it.

A purchase reads the balance; if it is enough, it starts the deduction and
`addMarLives` and awaits neither. So the deduction, and the read and the write
back of the list, are store steps of their own, and the steps of any number of
purchases interleave. The balance is checked in one step and deducted in
another, and the list is written back as it was read: `money_nonneg_iff` and
`kept_iff` say when that is safe all the same.
-/
import AquaFocus.Database
import AquaFocus.Lib.Interleave

set_option autoImplicit false

open Runs Interleave

namespace AquaFocus.Shop

/-! ## Purchases -/

/-- Where `addMarLives` is. -/
inductive Lives
  | toRead
  | read (marList : List ℤ)
  | written
deriving DecidableEq

/-- Where a purchase is: not begun, refused, or approved, and then whether the
price was deducted and where `addMarLives` is. -/
inductive Stage
  | toStart
  | refused
  | approved (deducted : Bool) (lives : Lives)
deriving DecidableEq

structure Purchase where
  marLife : MarineCreatures
  stage : Stage
deriving DecidableEq

/-- The steps the store takes for a purchase. -/
inductive Action
  | hasEnoughMoney
  | addMoney
  | getMarLivesList
  | updateMarLives
deriving DecidableEq

/-- The stage after the check of the balance. -/
def checked (doc : UserDoc) (marLife : MarineCreatures) : Stage :=
  if doc.hasEnoughMoney marLife.price then .approved false .toRead else .refused

def act : UserDoc → Purchase → Action → Option (UserDoc × Purchase)
  | doc, ⟨marLife, .toStart⟩, .hasEnoughMoney => some (doc, ⟨marLife, checked doc marLife⟩)
  | doc, ⟨marLife, .approved false lives⟩, .addMoney =>
      some (doc.addMoney (-marLife.price), ⟨marLife, .approved true lives⟩)
  | doc, ⟨marLife, .approved deducted .toRead⟩, .getMarLivesList =>
      some (doc, ⟨marLife, .approved deducted (.read doc.getMarLivesList)⟩)
  | doc, ⟨marLife, .approved deducted (.read marList)⟩, .updateMarLives =>
      some (doc.writeMarLives marLife.id marList, ⟨marLife, .approved deducted .written⟩)
  | _, _, _ => none

/-- The store, and the purchases that are going to be tried. -/
def start (doc : UserDoc) (ps : List MarineCreatures) : Config UserDoc Purchase :=
  ⟨doc, ps.map (⟨·, .toStart⟩)⟩

/-- Everything a purchase can do in one step. -/
theorem act_cases {doc doc' : UserDoc} {p p' : Purchase} {a : Action}
    (h : act doc p a = some (doc', p')) : ∃ m,
      (p = ⟨m, .toStart⟩ ∧ a = .hasEnoughMoney ∧ doc' = doc ∧ p' = ⟨m, checked doc m⟩)
      ∨ (∃ lives, p = ⟨m, .approved false lives⟩ ∧ a = .addMoney
          ∧ doc' = doc.addMoney (-m.price) ∧ p' = ⟨m, .approved true lives⟩)
      ∨ (∃ d, p = ⟨m, .approved d .toRead⟩ ∧ a = .getMarLivesList
          ∧ doc' = doc ∧ p' = ⟨m, .approved d (.read doc.getMarLivesList)⟩)
      ∨ ∃ d l, p = ⟨m, .approved d (.read l)⟩ ∧ a = .updateMarLives
          ∧ doc' = doc.writeMarLives m.id l ∧ p' = ⟨m, .approved d .written⟩ := by
  obtain ⟨m, stage⟩ := p
  refine ⟨m, ?_⟩
  unfold act at h
  split at h
  · next heq =>
    cases heq
    cases h
    exact .inl ⟨rfl, rfl, rfl, rfl⟩
  · next lives heq =>
    cases heq
    cases h
    exact .inr (.inl ⟨lives, rfl, rfl, rfl, rfl⟩)
  · next d heq =>
    cases heq
    cases h
    exact .inr (.inr (.inl ⟨d, rfl, rfl, rfl, rfl⟩))
  · next d l heq =>
    cases heq
    cases h
    exact .inr (.inr (.inr ⟨d, l, rfl, rfl, rfl, rfl⟩))
  · cases h

theorem act_marLife {doc doc' : UserDoc} {p p' : Purchase} {a : Action}
    (h : act doc p a = some (doc', p')) : p'.marLife = p.marLife := by
  obtain ⟨m, ⟨rfl, -, -, rfl⟩ | ⟨lives, rfl, -, -, rfl⟩ | ⟨d, rfl, -, -, rfl⟩
    | ⟨d, l, rfl, -, -, rfl⟩⟩ := act_cases h <;> rfl

/-! ## The balance -/

/-- What a purchase has taken from the balance. -/
def paid (p : Purchase) : ℤ :=
  match p.stage with
  | .approved true _ => p.marLife.price
  | _ => 0

/-- What an approved purchase has still to take. -/
def owed (p : Purchase) : ℤ :=
  match p.stage with
  | .approved false _ => p.marLife.price
  | _ => 0

/-- What the purchases cost that the balance of `doc` is enough for, each by itself. -/
def affordable (doc : UserDoc) (ps : List MarineCreatures) : ℤ :=
  (ps.map fun m => if doc.hasEnoughMoney m.price then m.price else 0).sum

/-- A purchase is approved only while the balance also covers what is owed. -/
def Covered (c : Config UserDoc Purchase) (e : ℕ × Action) : Prop :=
  e.2 = .hasEnoughMoney → ∀ p, c.clients[e.1]? = some p →
    c.shared.hasEnoughMoney p.marLife.price = true →
      p.marLife.price + (c.clients.map owed).sum ≤ c.shared.money

/-- What is known of every state of a run from `start doc ps`. -/
structure Reached (doc : UserDoc) (ps : List MarineCreatures) (c : Config UserDoc Purchase) :
    Prop where
  marLives : c.clients.map (·.marLife) = ps
  balance : c.shared.money = doc.money - (c.clients.map paid).sum
  approved : ∀ p ∈ c.clients, ∀ d lives, p.stage = .approved d lives →
    doc.hasEnoughMoney p.marLife.price = true

variable {doc : UserDoc} {ps : List MarineCreatures} {c c' : Config UserDoc Purchase}
  {e : ℕ × Action}

theorem paid_nonneg {p : Purchase} (h : 0 ≤ p.marLife.price) : 0 ≤ paid p := by
  unfold paid
  split
  · exact h
  · exact le_refl 0

theorem owed_nonneg {p : Purchase} (h : 0 ≤ p.marLife.price) : 0 ≤ owed p := by
  unfold owed
  split
  · exact h
  · exact le_refl 0

/-- The check moves no money, and owes the price if it approves. -/
theorem paid_checked (doc : UserDoc) (m : MarineCreatures) : paid ⟨m, checked doc m⟩ = 0 := by
  unfold checked
  split <;> rfl

theorem owed_checked (doc : UserDoc) (m : MarineCreatures) :
    owed ⟨m, checked doc m⟩ = if doc.hasEnoughMoney m.price then m.price else 0 := by
  unfold checked
  split <;> rfl

theorem checked_approved {m : MarineCreatures} {d : Bool} {lives : Lives}
    (h : checked doc m = .approved d lives) :
    doc.hasEnoughMoney m.price = true ∧ d = false ∧ lives = .toRead := by
  unfold checked at h
  split at h
  · next henough =>
    cases h
    exact ⟨henough, rfl, rfl⟩
  · cases h

theorem reached_start : Reached doc ps (start doc ps) where
  marLives := by simp [start, Function.comp_def]
  balance := by
    have hpaid : ((start doc ps).clients.map paid).sum = 0 := by
      simp [start, paid, Function.comp_def]
    rw [hpaid, sub_zero]
    rfl
  approved := by
    intro p hp d lives hstage
    obtain ⟨m, -, rfl⟩ := List.mem_map.mp hp
    cases hstage

namespace Reached

variable (h : Reached doc ps c) (hps : ∀ m ∈ ps, 0 ≤ m.price)

include h hps

theorem price_nonneg : ∀ p ∈ c.clients, 0 ≤ p.marLife.price := by
  intro p hp
  apply hps
  rw [← h.marLives]
  exact List.mem_map_of_mem hp

/-- Purchases only take from the balance. -/
theorem money_le : c.shared.money ≤ doc.money := by
  have hpaid : 0 ≤ (c.clients.map paid).sum :=
    sum_map_nonneg fun p hp => paid_nonneg (h.price_nonneg hps p hp)
  rw [h.balance]
  omega

theorem step (hstep : step act c e = some c') : Reached doc ps c' := by
  obtain ⟨p, s, p', hp, hact, rfl⟩ := step_cases hstep
  have hmem : p ∈ c.clients := List.mem_of_getElem? hp
  have happroved : ∀ d lives, p.stage = .approved d lives →
      doc.hasEnoughMoney p.marLife.price = true := h.approved p hmem
  have hmarLives := (map_set_of_eq hp (act_marLife hact)).trans h.marLives
  have hsum := sum_map_set paid p' c.clients e.1 p hp
  have hbalance := h.balance
  obtain ⟨m, ⟨rfl, -, rfl, rfl⟩ | ⟨lives, rfl, -, rfl, rfl⟩ | ⟨d, rfl, -, rfl, rfl⟩
    | ⟨d, l, rfl, -, rfl, rfl⟩⟩ := act_cases hact
  · refine ⟨hmarLives, ?_, forall_mem_set e.1 h.approved ?_⟩
    · rw [hsum, paid_checked]
      exact hbalance.trans (by simp [paid])
    · intro d lives hstage
      -- the balance is at most the one at the start
      have henough := UserDoc.hasEnoughMoney_iff.mp (checked_approved hstage).1
      exact UserDoc.hasEnoughMoney_iff.mpr (henough.trans (h.money_le hps))
  · refine ⟨hmarLives, ?_, forall_mem_set e.1 h.approved ?_⟩
    · rw [hsum, UserDoc.addMoney_money, hbalance]
      simp only [paid]
      omega
    · exact fun _ _ _ => happroved _ _ rfl
  · refine ⟨hmarLives, ?_, forall_mem_set e.1 h.approved ?_⟩
    · rw [hsum]
      cases d <;> exact hbalance.trans (by simp [paid])
    · exact fun _ _ _ => happroved _ _ rfl
  · refine ⟨hmarLives, ?_, forall_mem_set e.1 h.approved ?_⟩
    · rw [hsum, UserDoc.writeMarLives_money]
      cases d <;> exact hbalance.trans (by simp [paid])
    · exact fun _ _ _ => happroved _ _ rfl

end Reached

/-- The balance covers what approved purchases have still to take. -/
def Solvent (c : Config UserDoc Purchase) : Prop := (c.clients.map owed).sum ≤ c.shared.money

/-- Only an approval can upset that, and does when it is not covered. -/
theorem solvent_step_iff (hs : Solvent c) (hstep : step act c e = some c') :
    Solvent c' ↔ Covered c e := by
  obtain ⟨p, s, p', hp, hact, rfl⟩ := step_cases hstep
  have hsum := sum_map_set owed p' c.clients e.1 p hp
  unfold Solvent at hs ⊢
  unfold Covered
  rw [hp, hsum]
  obtain ⟨m, ⟨rfl, ha, rfl, rfl⟩ | ⟨lives, rfl, ha, rfl, rfl⟩ | ⟨d, rfl, ha, rfl, rfl⟩
    | ⟨d, l, rfl, ha, rfl, rfl⟩⟩ := act_cases hact
  · -- the check: owing more is what `Covered` is about
    rw [owed_checked]
    simp only [ha, owed, Option.some.injEq, forall_eq', true_imp_iff]
    by_cases henough : c.shared.hasEnoughMoney m.price = true
    · rw [if_pos henough]
      exact ⟨fun h _ => by omega, fun h => by have := h henough; omega⟩
    · rw [if_neg henough]
      exact iff_of_true (by omega) fun h => absurd h henough
  · refine iff_of_true ?_ (by simp [ha])
    simp only [owed, UserDoc.addMoney_money]
    omega
  · refine iff_of_true ?_ (by simp [ha])
    cases d <;> simpa [owed] using hs
  · refine iff_of_true ?_ (by simp [ha])
    cases d <;> simpa [owed] using hs

theorem solvent_iff_covered (hdoc : 0 ≤ doc.money) (es : List (ℕ × Action)) :
    Always (step act) Solvent (start doc ps) es ↔ Meets (step act) Covered (start doc ps) es := by
  have hstart : Solvent (start doc ps) := by
    have howed : ((start doc ps).clients.map owed).sum = 0 := by
      simp [start, owed, Function.comp_def]
    unfold Solvent
    rw [howed]
    exact hdoc
  have hstep : ∀ c e c', True → Solvent c → step act c e = some c' → (Solvent c' ↔ Covered c e) :=
    fun _ _ _ _ hs hstep => solvent_step_iff hs hstep
  exact always_iff_meets (fun _ _ _ _ _ _ _ => trivial) hstep trivial hstart es

section

variable (hps : ∀ m ∈ ps, 0 ≤ m.price)

include hps

theorem reached_run {es : List (ℕ × Action)} (hrun : run (step act) (start doc ps) es = some c) :
    Reached doc ps c := by
  have hstep : ∀ c e c', Reached doc ps c → step act c e = some c' → Reached doc ps c' :=
    fun _ _ _ h hstep => h.step hps hstep
  exact run_invariant _ hstep reached_start hrun

theorem Reached.nonneg_of_solvent (h : Reached doc ps c) (hs : Solvent c) : 0 ≤ c.shared.money :=
  (sum_map_nonneg fun p hp => owed_nonneg (h.price_nonneg hps p hp)).trans hs

/-- What has been paid is at most what the purchases that could be approved cost. -/
theorem Reached.paid_le (h : Reached doc ps c) : (c.clients.map paid).sum ≤ affordable doc ps := by
  have hsum : affordable doc ps
      = (c.clients.map fun p =>
          if doc.hasEnoughMoney p.marLife.price then p.marLife.price else 0).sum := by
    unfold affordable
    rw [← h.marLives, List.map_map]
    rfl
  rw [hsum]
  apply List.sum_le_sum
  intro p hp
  have hprice := h.price_nonneg hps p hp
  have happroved := h.approved p hp
  unfold paid
  split
  · next lives hstage =>
    rw [if_pos (happroved true lives hstage)]
  · split
    · exact hprice
    · exact le_refl 0

end

/-! A run that checks every balance first, and deducts every price then. -/

/-- Every purchase checks the balance before any deducts its price. -/
theorem run_checks (doc : UserDoc) (ps : List MarineCreatures) :
    ∃ es, run (step act) (start doc ps) es
      = some ⟨doc, ps.map fun m => ⟨m, checked doc m⟩⟩ := by
  have hpass : ∀ p ∈ ps.map (⟨·, .toStart⟩ : MarineCreatures → Purchase), ∀ s, s = doc →
      run (solo act) (s, p) [.hasEnoughMoney] = some (s, ⟨p.marLife, checked doc p.marLife⟩)
        ∧ s = doc := by
    rintro p hp s rfl
    obtain ⟨m, -, rfl⟩ := List.mem_map.mp hp
    exact ⟨rfl, rfl⟩
  obtain ⟨es, hes⟩ := run_pass [] hpass rfl
  refine ⟨es, hes.trans ?_⟩
  simp [Function.comp_def]

/-- The deduction a purchase has still to make. -/
def deduct (p : Purchase) : Purchase :=
  match p.stage with
  | .approved false lives => ⟨p.marLife, .approved true lives⟩
  | _ => p

theorem foldl_deduct (l : List Purchase) (doc : UserDoc) :
    (l.foldl (fun s p => s.addMoney (-owed p)) doc).money = doc.money - (l.map owed).sum := by
  induction l generalizing doc with
  | nil => simp
  | cons p l ih =>
      rw [List.foldl_cons, ih, UserDoc.addMoney_money, List.map_cons, List.sum_cons]
      omega

/-- Then each approved purchase deducts its price. -/
theorem run_deductions (doc : UserDoc) (l : List Purchase) :
    ∃ es c, run (step act) ⟨doc, l⟩ es = some c
      ∧ c.shared.money = doc.money - (l.map owed).sum := by
  have hpass : ∀ p ∈ l, ∀ s, True →
      run (solo act) (s, p) (if deduct p = p then [] else [.addMoney])
        = some (s.addMoney (-owed p), deduct p) ∧ True := by
    rintro ⟨m, stage⟩ - s -
    refine ⟨?_, trivial⟩
    cases stage with
    | toStart => simp [deduct, owed, UserDoc.addMoney]
    | refused => simp [deduct, owed, UserDoc.addMoney]
    | approved d lives =>
        cases d with
        | true => simp [deduct, owed, UserDoc.addMoney]
        | false => simp [deduct, owed, run_cons, solo, act]
  obtain ⟨es, hes⟩ := run_pass [] hpass trivial
  exact ⟨es, _, hes, foldl_deduct l doc⟩

/-- So every purchase that the balance at the start is enough for is paid. -/
theorem run_overdraws (doc : UserDoc) (ps : List MarineCreatures) :
    ∃ es c, run (step act) (start doc ps) es = some c
      ∧ c.shared.money = doc.money - affordable doc ps := by
  -- first every check, and then every deduction
  obtain ⟨es, hes⟩ := run_checks doc ps
  obtain ⟨fs, c, hfs, hmoney⟩ := run_deductions doc (ps.map fun m => ⟨m, checked doc m⟩)
  refine ⟨es ++ fs, c, run_trans _ hes hfs, ?_⟩
  rw [hmoney, List.map_map]
  unfold affordable
  congr 3
  funext m
  exact owed_checked doc m

/-- **The balance stays non-negative**, in a run where every approval is covered
by the balance less what is owed; and in every run exactly when the balance is
enough for all the purchases together that it is enough for one by one. -/
theorem money_nonneg_iff (doc : UserDoc) (ps : List MarineCreatures) (hdoc : 0 ≤ doc.money)
    (hps : ∀ m ∈ ps, 0 ≤ m.price) :
    (∀ es, Meets (step act) Covered (start doc ps) es →
        Always (step act) (fun c => 0 ≤ c.shared.money) (start doc ps) es)
      ∧ ((∀ es, Always (step act) (fun c => 0 ≤ c.shared.money) (start doc ps) es)
        ↔ affordable doc ps ≤ doc.money) := by
  refine ⟨fun es hmeets pre hpre c hrun => ?_, fun h => ?_, fun h es pre hpre c hrun => ?_⟩
  · have hsolvent := (solvent_iff_covered hdoc es).mpr hmeets pre hpre c hrun
    exact (reached_run hps hrun).nonneg_of_solvent hps hsolvent
  · obtain ⟨es, c, hrun, hmoney⟩ := run_overdraws doc ps
    have hend : 0 ≤ c.shared.money := h es es (List.prefix_refl es) c hrun
    omega
  · have hreached := reached_run hps hrun
    have hpaid := hreached.paid_le hps
    have hbalance := hreached.balance
    omega

/-- Two phones buy the turtle with the money for one. -/
theorem not_always_nonneg :
    ¬ Always (step act) (fun c => 0 ≤ c.shared.money) (start ⟨300, some []⟩ [⟨2, 300⟩, ⟨2, 300⟩])
      [(0, .hasEnoughMoney), (1, .hasEnoughMoney), (0, .addMoney), (1, .addMoney)] := by
  intro h
  have hend : (0 : ℤ) ≤ -300 := h _ (List.prefix_refl _) _ rfl
  omega

theorem money_nonneg_iff_twoPhones :
    (∀ es, Meets (step act) Covered (start ⟨300, some []⟩ [⟨2, 300⟩, ⟨2, 300⟩]) es →
        Always (step act) (fun c => 0 ≤ c.shared.money)
          (start ⟨300, some []⟩ [⟨2, 300⟩, ⟨2, 300⟩]) es)
      ∧ ((∀ es, Always (step act) (fun c => 0 ≤ c.shared.money)
          (start ⟨300, some []⟩ [⟨2, 300⟩, ⟨2, 300⟩]) es)
        ↔ affordable ⟨300, some []⟩ [⟨2, 300⟩, ⟨2, 300⟩] ≤ 300) :=
  money_nonneg_iff ⟨300, some []⟩ [⟨2, 300⟩, ⟨2, 300⟩] (by decide) (by decide)

/-! ## The creatures -/

/-- The purchases under way have finished. -/
def Settled (c : Config UserDoc Purchase) : Prop :=
  ∀ p ∈ c.clients, p.stage = .toStart ∨ p.stage = .refused ∨ p.stage = .approved true .written

/-- Once the purchases under way have finished, the list has what it had at the
start and every creature whose price was deducted. -/
def Kept (doc : UserDoc) (c : Config UserDoc Purchase) : Prop :=
  Settled c →
    (∀ id ∈ doc.getMarLivesList, id ∈ c.shared.getMarLivesList)
      ∧ ∀ p ∈ c.clients, ∀ lives, p.stage = .approved true lives →
          p.marLife.id ∈ c.shared.getMarLivesList

/-- The list is written back only while it has nothing that the list read lacks,
but the creature to be added. -/
def Fresh (c : Config UserDoc Purchase) (e : ℕ × Action) : Prop :=
  e.2 = .updateMarLives → ∀ m d l, c.clients[e.1]? = some ⟨m, .approved d (.read l)⟩ →
    ∀ id ∈ c.shared.getMarLivesList, id ∈ l ∨ id = m.id

/-- Of two purchases that the balance is enough for, each one's creature is the
other's, or is in the list already. -/
def NoRace (doc : UserDoc) (ps : List MarineCreatures) : Prop :=
  ∀ (i j : ℕ) (m m' : MarineCreatures), i ≠ j → ps[i]? = some m → ps[j]? = some m' →
    doc.hasEnoughMoney m.price = true → doc.hasEnoughMoney m'.price = true →
      m'.id ∈ doc.getMarLivesList ∨ m'.id = m.id

/-- The list has what it had at the start, and what was written to it. -/
structure Secure (doc : UserDoc) (c : Config UserDoc Purchase) : Prop where
  kept : ∀ id ∈ doc.getMarLivesList, id ∈ c.shared.getMarLivesList
  written : ∀ (i : ℕ) (m : MarineCreatures) (d : Bool),
    c.clients[i]? = some ⟨m, .approved d .written⟩ → m.id ∈ c.shared.getMarLivesList

theorem Secure.kept_of_settled (h : Secure doc c) : Kept doc c := by
  intro hsettled
  refine ⟨h.kept, fun p hp lives hstage => ?_⟩
  obtain ⟨i, hi⟩ := List.mem_iff_getElem?.mp hp
  obtain ⟨m, stage⟩ := p
  obtain rfl : stage = .approved true lives := hstage
  rcases hsettled _ hp with hs | hs | hs
  · cases hs
  · cases hs
  · cases hs
    exact h.written i m true hi

theorem secure_start : Secure doc (start doc ps) where
  kept _ hid := hid
  written := by
    intro i m d hi
    obtain ⟨m', -, hm'⟩ := List.mem_map.mp (List.mem_of_getElem? hi)
    cases hm'

/-- A step keeps the list secure, if the list it writes back has all that the
list is to have. -/
theorem Secure.step (h : Secure doc c)
    (hwrite : ∀ m d l, e.2 = .updateMarLives → c.clients[e.1]? = some ⟨m, .approved d (.read l)⟩ →
      (∀ id ∈ doc.getMarLivesList, id ∈ l ∨ id = m.id)
        ∧ ∀ (j : ℕ) (m' : MarineCreatures) (d' : Bool), j ≠ e.1 →
          c.clients[j]? = some ⟨m', .approved d' .written⟩ → m'.id ∈ l ∨ m'.id = m.id)
    (hstep : Interleave.step act c e = some c') : Secure doc c' := by
  obtain ⟨p, s, p', hp, hact, rfl⟩ := step_cases hstep
  -- the other purchases stay where they are
  have hother : ∀ j q, j ≠ e.1 → (c.clients.set e.1 p')[j]? = some q → c.clients[j]? = some q := by
    intro j q hj hq
    rwa [List.getElem?_set_ne (Ne.symm hj)] at hq
  have hself : ∀ q, (c.clients.set e.1 p')[e.1]? = some q → q = p' := by
    intro q hq
    rw [List.getElem?_set_self (List.getElem?_eq_some_iff.mp hp).1, Option.some.injEq] at hq
    exact hq.symm
  -- a step that leaves the list as it is has nothing to show but for its own client
  have hleave : s.getMarLivesList = c.shared.getMarLivesList →
      (∀ m d, p' = ⟨m, .approved d .written⟩ → m.id ∈ c.shared.getMarLivesList) →
      Secure doc ⟨s, c.clients.set e.1 p'⟩ := by
    intro hlist hown
    refine ⟨fun id hid => hlist ▸ h.kept id hid, fun j m' d' hj => hlist ▸ ?_⟩
    by_cases hji : j = e.1
    · subst hji
      exact hown m' d' (hself _ hj).symm
    · exact h.written j m' d' (hother j _ hji hj)
  obtain ⟨m, ⟨rfl, ha, rfl, rfl⟩ | ⟨lives, rfl, ha, rfl, rfl⟩ | ⟨d, rfl, ha, rfl, rfl⟩
    | ⟨d, l, rfl, ha, rfl, rfl⟩⟩ := act_cases hact
  · refine hleave rfl fun m' d' heq => ?_
    exact absurd (checked_approved (congrArg Purchase.stage heq)).2.2 (by simp)
  · refine hleave rfl fun m' d' heq => ?_
    cases heq
    exact h.written e.1 m false hp
  · refine hleave rfl fun m' d' heq => ?_
    cases heq
  · -- the write: what it puts back is all that matters
    obtain ⟨hstart, hwritten⟩ := hwrite m d l ha hp
    refine ⟨fun id hid => ?_, fun j m' d' hj => ?_⟩
    · rw [UserDoc.writeMarLives_marLives, UserDoc.mem_withMarLife]
      exact hstart id hid
    · rw [UserDoc.writeMarLives_marLives, UserDoc.mem_withMarLife]
      by_cases hji : j = e.1
      · subst hji
        cases hself _ hj
        exact .inr rfl
      · exact hwritten j m' d' hji (hother j _ hji hj)

/-- A run that writes only fresh lists keeps the list secure. -/
theorem secure_of_fresh {es : List (ℕ × Action)}
    (h : Meets (step act) Fresh (start doc ps) es) :
    Always (step act) (Secure doc) (start doc ps) es := by
  refine always_of_meets (fun c e c' hsecure hfresh hstep => ?_) secure_start h
  refine hsecure.step (fun m d l ha hp => ?_) hstep
  -- a fresh list has all that is stored
  have hlist : ∀ id ∈ c.shared.getMarLivesList, id ∈ l ∨ id = m.id := hfresh ha m d l hp
  exact ⟨fun id hid => hlist id (hsecure.kept id hid),
    fun j m' d' _ hj => hlist m'.id (hsecure.written j m' d' hj)⟩

/-- Without a race, what holds of every state: the lists that were read have all
that was there at the start. -/
structure Calm (doc : UserDoc) (ps : List MarineCreatures) (c : Config UserDoc Purchase) : Prop
    extends Reached doc ps c, Secure doc c where
  reads : ∀ p ∈ c.clients, ∀ d l, p.stage = .approved d (.read l) →
    ∀ id ∈ doc.getMarLivesList, id ∈ l

theorem calm_start : Calm doc ps (start doc ps) where
  toReached := reached_start
  toSecure := secure_start
  reads := by
    intro p hp d l hstage
    obtain ⟨m, -, rfl⟩ := List.mem_map.mp hp
    cases hstage

theorem Calm.step (h : Calm doc ps c) (hps : ∀ m ∈ ps, 0 ≤ m.price) (hrace : NoRace doc ps)
    (hstep : Interleave.step act c e = some c') : Calm doc ps c' := by
  have hlife : ∀ (i : ℕ) (m : MarineCreatures) (stage : Stage),
      c.clients[i]? = some ⟨m, stage⟩ → ps[i]? = some m := by
    intro i m stage hi
    rw [← h.marLives, List.getElem?_map, hi]
    rfl
  have hsecure : Secure doc c' := by
    refine h.toSecure.step (fun m d l ha hp => ⟨fun id hid => ?_, fun j m' d' hj hj' => ?_⟩) hstep
    · exact .inl (h.reads _ (List.mem_of_getElem? hp) d l rfl id hid)
    · -- the other purchase has written, so both were approved
      have hm := h.approved _ (List.mem_of_getElem? hp) d _ rfl
      have hm' := h.approved _ (List.mem_of_getElem? hj') d' _ rfl
      rcases hrace e.1 j m m' (Ne.symm hj) (hlife _ _ _ hp) (hlife _ _ _ hj') hm hm' with hin | heq
      · exact .inl (h.reads _ (List.mem_of_getElem? hp) d l rfl _ hin)
      · exact .inr heq
  refine ⟨h.toReached.step hps hstep, hsecure, ?_⟩
  obtain ⟨p, s, p', hp, hact, rfl⟩ := step_cases hstep
  have hreads := h.reads p (List.mem_of_getElem? hp)
  apply forall_mem_set e.1 h.reads
  obtain ⟨m, ⟨rfl, ha, rfl, rfl⟩ | ⟨lives, rfl, ha, rfl, rfl⟩ | ⟨d, rfl, ha, rfl, rfl⟩
    | ⟨d, l, rfl, ha, rfl, rfl⟩⟩ := act_cases hact
  · intro d l hstage
    exact absurd (checked_approved hstage).2.2 (by simp)
  · intro d l hstage
    cases hstage
    exact hreads false l rfl
  · intro d' l hstage
    cases hstage
    exact h.kept
  · intro d' l' hstage
    cases hstage

/-- One purchase reads the list, another is made in full, and then the first
writes back what it read. -/
theorem run_race {i j : ℕ} {m m' : MarineCreatures} (hij : i ≠ j) (hi : ps[i]? = some m)
    (hj : ps[j]? = some m') (hm : doc.hasEnoughMoney m.price = true)
    (hm' : doc.hasEnoughMoney m'.price = true) :
    ∃ es c, run (step act) (start doc ps) es = some c ∧ Settled c
      ∧ ⟨m', .approved true .written⟩ ∈ c.clients
      ∧ c.shared.getMarLivesList = UserDoc.withMarLife m.id doc.getMarLivesList := by
  have hclient : ∀ (k : ℕ) (n : MarineCreatures), ps[k]? = some n →
      (start doc ps).clients[k]? = some ⟨n, .toStart⟩ := by
    intro k n hk
    rw [start, List.getElem?_map, hk]
    rfl
  -- the first purchase stops with the list in hand, and the second runs to its end
  have hfirst : run (solo act) (doc, ⟨m, .toStart⟩) [.hasEnoughMoney, .getMarLivesList]
      = some (doc, ⟨m, .approved false (.read doc.getMarLivesList)⟩) := by
    simp [run_cons, solo, act, checked, hm]
  have hsecond : run (solo act) (doc, ⟨m', .toStart⟩)
      [.hasEnoughMoney, .addMoney, .getMarLivesList, .updateMarLives]
      = some ((doc.addMoney (-m'.price)).writeMarLives m'.id doc.getMarLivesList,
          ⟨m', .approved true .written⟩) := by
    simp [run_cons, solo, act, checked, hm']
  have hthird : ∀ s : UserDoc, run (solo act) (s, ⟨m, .approved false (.read doc.getMarLivesList)⟩)
      [.addMoney, .updateMarLives]
      = some ((s.addMoney (-m.price)).writeMarLives m.id doc.getMarLivesList,
          ⟨m, .approved true .written⟩) :=
    fun s => rfl
  obtain ⟨es, hrun⟩ := run_overlap hij (hclient i m hi) (hclient j m' hj) hfirst hsecond
    (hthird _) (run_nil _ _)
  refine ⟨es, _, hrun, ?_, ?_, rfl⟩
  · -- the two are done, and the others never began
    have hothers : ∀ p ∈ (start doc ps).clients,
        p.stage = .toStart ∨ p.stage = .refused ∨ p.stage = .approved true .written := by
      intro p hp
      obtain ⟨n, -, rfl⟩ := List.mem_map.mp hp
      exact .inl rfl
    exact forall_mem_set j (forall_mem_set i hothers (.inr (.inr rfl))) (.inr (.inr rfl))
  · apply List.mem_of_getElem? (i := j)
    apply List.getElem?_set_self
    rw [List.length_set]
    exact (List.getElem?_eq_some_iff.mp (hclient j m' hj)).1

/-- **No paid creature is lost** in a run where every list written back is
fresh; and in every run exactly when no two purchases that the balance is enough
for can race. -/
theorem kept_iff (doc : UserDoc) (ps : List MarineCreatures) (hps : ∀ m ∈ ps, 0 ≤ m.price) :
    (∀ es, Meets (step act) Fresh (start doc ps) es →
        Always (step act) (Kept doc) (start doc ps) es)
      ∧ ((∀ es, Always (step act) (Kept doc) (start doc ps) es) ↔ NoRace doc ps) := by
  refine ⟨fun es hmeets pre hpre c hrun => ?_, fun h i j m m' hij hi hj hm hm' => ?_,
    fun hrace es pre hpre c hrun => ?_⟩
  · exact (secure_of_fresh hmeets pre hpre c hrun).kept_of_settled
  · obtain ⟨es, c, hrun, hsettled, hpaid, hlist⟩ := run_race hij hi hj hm hm'
    have hkept : Kept doc c := h es es (List.prefix_refl es) c hrun
    have hmem := (hkept hsettled).2 _ hpaid .written rfl
    rw [hlist, UserDoc.mem_withMarLife] at hmem
    exact hmem
  · have hstep : ∀ c e c', Calm doc ps c → step act c e = some c' → Calm doc ps c' :=
      fun c e c' hcalm hstep => hcalm.step hps hrace hstep
    exact (run_invariant _ hstep calm_start hrun).toSecure.kept_of_settled

/-- The jellyfish and the turtle are bought at once, with money for both. -/
def atOnce : List (ℕ × Action) :=
  [(0, .hasEnoughMoney), (1, .hasEnoughMoney), (0, .addMoney), (1, .addMoney),
    (0, .getMarLivesList), (1, .getMarLivesList), (0, .updateMarLives), (1, .updateMarLives)]

/-- The jellyfish is paid for, and is not in the list. -/
theorem not_always_kept :
    ¬ Always (step act) (Kept ⟨1000, some []⟩)
      (start ⟨1000, some []⟩ [⟨1, 180⟩, ⟨2, 300⟩]) atOnce := by
  intro h
  have hkept : Kept ⟨1000, some []⟩
      ⟨⟨520, some [2]⟩,
        [⟨⟨1, 180⟩, .approved true .written⟩, ⟨⟨2, 300⟩, .approved true .written⟩]⟩ :=
    h atOnce (List.prefix_refl _) _ rfl
  have hjellyfish : (1 : ℤ) ∈ [2] :=
    (hkept (by simp [Settled])).2 ⟨⟨1, 180⟩, .approved true .written⟩ List.mem_cons_self
      .written rfl
  exact absurd hjellyfish (by decide)

theorem kept_iff_twoPhones :
    (∀ es, Meets (step act) Fresh (start ⟨1000, some []⟩ [⟨1, 180⟩, ⟨2, 300⟩]) es →
        Always (step act) (Kept ⟨1000, some []⟩)
          (start ⟨1000, some []⟩ [⟨1, 180⟩, ⟨2, 300⟩]) es)
      ∧ ((∀ es, Always (step act) (Kept ⟨1000, some []⟩)
          (start ⟨1000, some []⟩ [⟨1, 180⟩, ⟨2, 300⟩]) es)
        ↔ NoRace ⟨1000, some []⟩ [⟨1, 180⟩, ⟨2, 300⟩]) :=
  kept_iff ⟨1000, some []⟩ [⟨1, 180⟩, ⟨2, 300⟩] (by decide)

end AquaFocus.Shop
