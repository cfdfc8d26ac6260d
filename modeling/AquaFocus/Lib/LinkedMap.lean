/-
Maps in insertion order, whose keys are told apart by a test of the caller's.

A map is its list of entries, and every operation takes the test `same`. A hash
map compares hash codes before it asks `equals` (`hashed`), which is the same as
asking `equals` when equal keys have equal hash codes (`hashed_eq`). Where `same`
is an equivalence, reading after writing is what it is for a function
(`get_set`), and no two entries have the same key (`Distinct.set`).
-/
import Mathlib.Data.List.Basic
import Mathlib.Data.Int.Notation

set_option autoImplicit false

namespace LinkedMap

variable {κ ν : Type*}

/-! ## Operations -/

/-- How a hash map tells keys apart. -/
def hashed (equals : κ → κ → Bool) (hashCode : κ → ℤ) (k k' : κ) : Bool :=
  decide (hashCode k = hashCode k') && equals k k'

/-- `map[key]`. -/
def get (same : κ → κ → Bool) (key : κ) (m : List (κ × ν)) : Option ν :=
  (m.find? fun e => same e.1 key).map (·.2)

/-- `map[key] = value`, which keeps the place of a key that is there. -/
def set (same : κ → κ → Bool) (key : κ) (value : ν) : List (κ × ν) → List (κ × ν)
  | [] => [(key, value)]
  | e :: m => if same e.1 key then (e.1, value) :: m else e :: set same key value m

/-- `addAll`. -/
def addAll (same : κ → κ → Bool) (m other : List (κ × ν)) : List (κ × ν) :=
  other.foldl (fun m e => set same e.1 e.2 m) m

/-- No two entries have the same key. -/
def Distinct (same : κ → κ → Bool) (m : List (κ × ν)) : Prop :=
  m.Pairwise fun e e' => same e.1 e'.1 = false

/-! ## Their rules -/

theorem hashed_eq {equals : κ → κ → Bool} {hashCode : κ → ℤ}
    (h : ∀ k k', equals k k' = true → hashCode k = hashCode k') :
    hashed equals hashCode = equals := by
  funext k k'
  unfold hashed
  cases he : equals k k' with
  | true => simp [h k k' he]
  | false => simp

variable {same : κ → κ → Bool} {m : List (κ × ν)}

theorem get_nil (key : κ) : get same key ([] : List (κ × ν)) = none := rfl

theorem get_cons (e : κ × ν) (key : κ) :
    get same key (e :: m) = if same e.1 key then some e.2 else get same key m := by
  unfold get
  rw [List.find?_cons]
  cases same e.1 key <;> rfl

/-- Two tests that agree on the keys of a map find the same value. -/
theorem get_congr {same' : κ → κ → Bool} {key key' : κ}
    (h : ∀ e ∈ m, same e.1 key = same' e.1 key') : get same key m = get same' key' m := by
  induction m with
  | nil => rfl
  | cons e m ih =>
      rw [get_cons, get_cons, h e List.mem_cons_self,
        ih fun e' he' => h e' (List.mem_cons_of_mem e he')]

/-- A value that was set is read back under every key that is the same. -/
theorem get_set (hsame : Equivalence fun k k' => same k k' = true) (key : κ) (value : ν)
    (key' : κ) :
    get same key' (set same key value m)
      = if same key key' then some value else get same key' m := by
  induction m with
  | nil => rw [set, get_cons, get_nil]
  | cons e m ih =>
      rw [set]
      by_cases he : same e.1 key = true
      · -- the entry that is replaced is found under the same keys as `key`
        have hiff : same e.1 key' = true ↔ same key key' = true :=
          ⟨hsame.trans (hsame.symm he), hsame.trans he⟩
        rw [if_pos he, get_cons, get_cons]
        simp only [hiff]
        split <;> rfl
      · rw [if_neg he, get_cons, get_cons, ih]
        by_cases he' : same e.1 key' = true
        · have hne : ¬ same key key' = true := fun hk =>
            he (hsame.trans he' (hsame.symm hk))
          rw [if_pos he', if_neg hne, if_pos he']
        · rw [if_neg he', if_neg he']

theorem mem_set {key : κ} {value : ν} {e : κ × ν} (h : e ∈ set same key value m) :
    e.1 = key ∨ ∃ e' ∈ m, e'.1 = e.1 := by
  induction m with
  | nil => exact .inl (by rw [List.mem_singleton.mp h])
  | cons e₀ m ih =>
      rw [set] at h
      split at h
      · rcases List.mem_cons.mp h with rfl | hm
        · exact .inr ⟨e₀, List.mem_cons_self, rfl⟩
        · exact .inr ⟨e, List.mem_cons_of_mem e₀ hm, rfl⟩
      · rcases List.mem_cons.mp h with rfl | hm
        · exact .inr ⟨e, List.mem_cons_self, rfl⟩
        · rcases ih hm with hkey | ⟨e', he', heq⟩
          · exact .inl hkey
          · exact .inr ⟨e', List.mem_cons_of_mem e₀ he', heq⟩

theorem Distinct.set (h : Distinct same m) (key : κ) (value : ν) :
    Distinct same (set same key value m) := by
  induction m with
  | nil => exact List.pairwise_singleton _ _
  | cons e m ih =>
      obtain ⟨hhead, htail⟩ := List.pairwise_cons.mp h
      rw [LinkedMap.set]
      by_cases he : same e.1 key = true
      · rw [if_pos he]
        exact List.pairwise_cons.mpr ⟨hhead, htail⟩
      · rw [if_neg he]
        refine List.pairwise_cons.mpr ⟨fun e' he' => ?_, ih htail⟩
        rcases mem_set he' with hkey | ⟨e'', he'', heq⟩
        · rw [hkey]
          simpa using he
        · rw [← heq]
          exact hhead e'' he''

theorem set_of_not_mem {key : κ} (value : ν) (h : ∀ e ∈ m, same e.1 key = false) :
    set same key value m = m ++ [(key, value)] := by
  induction m with
  | nil => rfl
  | cons e m ih =>
      have he : ¬ same e.1 key = true := by simp [h e List.mem_cons_self]
      rw [set, if_neg he, ih fun e' he' => h e' (List.mem_cons_of_mem e he'), List.cons_append]

/-- Entries whose keys are not there yet are appended. -/
theorem addAll_of_distinct {other : List (κ × ν)} (h : Distinct same (m ++ other)) :
    addAll same m other = m ++ other := by
  induction other generalizing m with
  | nil => rw [List.append_nil]; rfl
  | cons e other ih =>
      have hsplit : m ++ e :: other = m ++ [e] ++ other := by rw [List.append_cons]
      have hnew : ∀ e' ∈ m, same e'.1 e.1 = false := fun e' he' =>
        (List.pairwise_append.mp h).2.2 e' he' e List.mem_cons_self
      rw [hsplit] at h ⊢
      rw [addAll, List.foldl_cons, set_of_not_mem e.2 hnew]
      exact ih h

end LinkedMap
