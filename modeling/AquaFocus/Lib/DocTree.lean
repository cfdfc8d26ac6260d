/-
A store of documents under paths, in which a document may have others below it.

A path is the list of its segments, and a document lies in the collection its
path is without the last of them. Deleting a document deletes that one and no
other, so a collection is deleted by a loop over its documents (`deleteAll`). What
is read after an operation is said path by path.
-/
import Mathlib.Data.List.Basic

set_option autoImplicit false

namespace DocTree

variable {σ δ : Type*} [DecidableEq σ]

/-! ## Operations -/

def get (path : List σ) (s : List (List σ × δ)) : Option δ :=
  (s.find? fun e => decide (e.1 = path)).map (·.2)

def delete (path : List σ) (s : List (List σ × δ)) : List (List σ × δ) :=
  s.filter fun e => decide (e.1 ≠ path)

/-- A document of a collection. -/
def IsIn (collection path : List σ) : Prop := path ≠ [] ∧ path.dropLast = collection

instance (collection path : List σ) : Decidable (IsIn collection path) := by
  unfold IsIn
  infer_instance

/-- What a query of a collection finds. -/
def docs (collection : List σ) (s : List (List σ × δ)) : List (List σ) :=
  (s.map (·.1)).filter fun path => decide (IsIn collection path)

/-- Each document of a collection is deleted. -/
def deleteAll (collection : List σ) (s : List (List σ × δ)) : List (List σ × δ) :=
  (docs collection s).foldl (fun s path => delete path s) s

/-- A document that is there is changed. -/
def update (path : List σ) (f : δ → δ) (s : List (List σ × δ)) : List (List σ × δ) :=
  s.map fun e => if e.1 = path then (e.1, f e.2) else e

/-! ## What is read after one -/

variable {s : List (List σ × δ)} {path : List σ}

theorem get_cons (e : List σ × δ) :
    get path (e :: s) = if e.1 = path then some e.2 else get path s := by
  unfold get
  rw [List.find?_cons]
  by_cases h : e.1 = path
  · simp [h]
  · simp [h]

theorem get_eq_none_iff : get path s = none ↔ path ∉ s.map (·.1) := by
  induction s with
  | nil => exact iff_of_true rfl List.not_mem_nil
  | cons e s ih =>
      rw [get_cons, List.map_cons, List.mem_cons, not_or, ← ih]
      by_cases h : e.1 = path
      · simp [h]
      · simp [h, Ne.symm h]

theorem get_delete (deleted : List σ) :
    get path (delete deleted s) = if path = deleted then none else get path s := by
  induction s with
  | nil =>
      split <;> rfl
  | cons e s ih =>
      unfold delete at ih ⊢
      rw [List.filter_cons, get_cons]
      by_cases he : e.1 = deleted
      · rw [if_neg (by simpa using he), ih]
        by_cases hp : path = deleted
        · rw [if_pos hp, if_pos hp]
        · rw [if_neg hp, if_neg hp, if_neg fun h => hp (h.symm.trans he)]
      · rw [if_pos (by simpa using he), get_cons, ih]
        by_cases hp : e.1 = path
        · rw [if_pos hp, if_pos hp, if_neg fun h => he (hp.trans h)]
        · rw [if_neg hp, if_neg hp]

theorem get_foldl_delete (paths : List (List σ)) :
    get path (paths.foldl (fun s p => delete p s) s)
      = if path ∈ paths then none else get path s := by
  induction paths generalizing s with
  | nil => rw [List.foldl_nil, if_neg List.not_mem_nil]
  | cons p paths ih =>
      rw [List.foldl_cons, ih, get_delete]
      by_cases hp : path = p
      · have hmem : path ∈ p :: paths := List.mem_cons.mpr (.inl hp)
        rw [if_pos hp, if_pos hmem]
        split <;> rfl
      · simp only [List.mem_cons, hp, if_false, false_or]

/-- The documents of the collection are gone, and no others. -/
theorem get_deleteAll (collection : List σ) :
    get path (deleteAll collection s) = if IsIn collection path then none else get path s := by
  unfold deleteAll docs
  rw [get_foldl_delete]
  by_cases hin : IsIn collection path
  · rw [if_pos hin]
    split
    · rfl
    · next hnot =>
      -- a path the query does not find has no document
      rw [List.mem_filter, not_and] at hnot
      exact get_eq_none_iff.mpr fun hmem => hnot hmem (decide_eq_true hin)
  · have hnot : path ∉ (s.map (·.1)).filter fun path => decide (IsIn collection path) :=
      fun hmem => hin (of_decide_eq_true (List.mem_filter.mp hmem).2)
    rw [if_neg hin, if_neg hnot]

theorem get_update (updated : List σ) (f : δ → δ) :
    get path (update updated f s) = if path = updated then (get path s).map f else get path s := by
  induction s with
  | nil =>
      split <;> rfl
  | cons e s ih =>
      unfold update at ih ⊢
      rw [List.map_cons, get_cons, get_cons, ih]
      by_cases he : e.1 = path
      · by_cases hp : path = updated
        · simp [he, hp]
        · simp [he, hp]
      · -- another document, whether it is the one that is changed or not
        have hother : ¬ (if e.1 = updated then (e.1, f e.2) else e).1 = path := by
          split <;> exact he
        rw [if_neg hother, if_neg he]

end DocTree
