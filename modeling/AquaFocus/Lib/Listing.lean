/-
Lists that show documents.

A collection holds documents under ids, and a list shows some of them: a row for
each document that meets a condition, and no other row, in the order of a rank.
`Lists` says this of a list. `lists_query` gets it for the sorted answer of a
query, and the rest of the file is about what may be done to a list without
reading the collection again: taking some of its rows, and taking off the row of
a document that is deleted.
-/
import Mathlib.Data.List.Nodup
import Mathlib.Logic.Function.Basic
import Mathlib.Order.Lattice

set_option autoImplicit false

namespace Listing

variable {ι δ α κ : Type*} [LinearOrder κ]

/-- `l` has a row for each of the documents that meet `P`, in the order of `rank`. -/
structure Lists (read : ι → δ → α) (rank : α → κ) (docs : ι → Option δ) (P : δ → Prop)
    (l : List α) : Prop where
  nodup : l.Nodup
  mem : ∀ a, a ∈ l ↔ ∃ id d, docs id = some d ∧ P d ∧ read id d = a
  inOrder : l.Pairwise fun a b => rank a ≤ rank b

variable {read : ι → δ → α} {rank : α → κ} {docs docs' : ι → Option δ} {P Q : δ → Prop}
  {l : List α}

namespace Lists

theorem mem_of (h : Lists read rank docs P l) {id : ι} {d : δ} (hd : docs id = some d)
    (hP : P d) : read id d ∈ l := (h.mem _).mpr ⟨id, d, hd, hP, rfl⟩

/-- What is listed depends on the documents that are there. -/
theorem congr (h : Lists read rank docs P l)
    (hPQ : ∀ id d, docs id = some d → (P d ↔ Q d)) : Lists read rank docs Q l := by
  refine ⟨h.nodup, fun a => ?_, h.inOrder⟩
  rw [h.mem]
  constructor
  · rintro ⟨id, d, hd, hP, rfl⟩
    exact ⟨id, d, hd, (hPQ id d hd).mp hP, rfl⟩
  · rintro ⟨id, d, hd, hQ, rfl⟩
    exact ⟨id, d, hd, (hPQ id d hd).mpr hQ, rfl⟩

/-- Some of the rows. -/
theorem filter (h : Lists read rank docs P l) {p : α → Bool}
    (hp : ∀ id d, docs id = some d → P d → (p (read id d) = true ↔ Q d)) :
    Lists read rank docs (fun d => P d ∧ Q d) (l.filter p) := by
  refine ⟨h.nodup.filter p, fun a => ?_, h.inOrder.filter p⟩
  rw [List.mem_filter, h.mem]
  constructor
  · rintro ⟨⟨id, d, hd, hP, rfl⟩, hrow⟩
    exact ⟨id, d, hd, ⟨hP, (hp id d hd hP).mp hrow⟩, rfl⟩
  · rintro ⟨id, d, hd, ⟨hP, hQ⟩, rfl⟩
    exact ⟨⟨id, d, hd, hP, rfl⟩, (hp id d hd hP).mpr hQ⟩

/-- The row of a deleted document is taken off, and the rest need not be read again. -/
theorem eraseP [DecidableEq ι] (h : Lists read rank docs P l) {id : ι} {p : α → Bool}
    (hp : ∀ id' d, docs id' = some d → (p (read id' d) = true ↔ id' = id))
    (hdocs : docs' = Function.update docs id none) :
    Lists read rank docs' P (l.eraseP p) := by
  have hsub : (l.eraseP p).Sublist l := List.eraseP_sublist
  -- a row that matches is the only one, and is gone
  have hgone : ∀ a ∈ l.eraseP p, p a = false := by
    intro a ha
    by_contra hmatch
    rw [Bool.not_eq_false] at hmatch
    obtain ⟨b, l₁, l₂, -, hb, rfl, herase⟩ := List.exists_of_eraseP (hsub.subset ha) hmatch
    obtain ⟨i, d, hd, -, rfl⟩ := (h.mem a).mp (hsub.subset ha)
    obtain ⟨j, e, he, -, rfl⟩ := (h.mem b).mp (by simp)
    obtain rfl := (hp i d hd).mp hmatch
    obtain rfl := (hp j e he).mp hb
    rw [hd, Option.some.injEq] at he
    subst he
    rw [herase] at ha
    exact (List.nodup_middle.mp h.nodup).notMem ha
  refine ⟨hsub.nodup h.nodup, fun a => ?_, h.inOrder.sublist hsub⟩
  constructor
  · intro ha
    obtain ⟨i, d, hd, hP, rfl⟩ := (h.mem a).mp (hsub.subset ha)
    have hi : i ≠ id := by
      intro hi
      have hkept := hgone _ ha
      rw [(hp i d hd).mpr hi] at hkept
      exact absurd hkept (by simp)
    exact ⟨i, d, by rw [hdocs, Function.update_of_ne hi, hd], hP, rfl⟩
  · rintro ⟨i, d, hd, hP, rfl⟩
    by_cases hi : i = id
    · rw [hdocs, hi, Function.update_self] at hd
      exact absurd hd (by simp)
    · rw [hdocs, Function.update_of_ne hi] at hd
      rw [List.mem_eraseP_of_neg fun hmatch => hi ((hp i d hd).mp hmatch)]
      exact h.mem_of hd hP

end Lists

/-! ## Queries -/

/-- The answer of a query, sorted: a row for each document that is found. -/
theorem lists_query {ids : List ι} {row : ι → δ → Option α} (hids : ids.Nodup)
    (hfound : ∀ id d, docs id = some d → id ∈ ids)
    (hread : ∀ i d j e, read i d = read j e → i = j)
    (hrow : ∀ id d a, docs id = some d → (row id d = some a ↔ P d ∧ read id d = a))
    (hperm : l.Perm (ids.filterMap fun id => (docs id).bind (row id)))
    (horder : l.Pairwise fun a b => rank a ≤ rank b) : Lists read rank docs P l := by
  have hmem : ∀ id a, a ∈ (docs id).bind (row id)
      ↔ ∃ d, docs id = some d ∧ P d ∧ read id d = a := by
    intro id a
    rw [Option.mem_def, Option.bind_eq_some_iff]
    exact exists_congr fun d => and_congr_right fun hd => hrow id d a hd
  refine ⟨hperm.nodup_iff.mpr (hids.filterMap fun i j a hi hj => ?_), fun a => ?_, horder⟩
  · obtain ⟨d, -, -, rfl⟩ := (hmem i a).mp hi
    obtain ⟨e, -, -, heq⟩ := (hmem j _).mp hj
    exact (hread j e i d heq).symm
  · rw [hperm.mem_iff, List.mem_filterMap]
    constructor
    · rintro ⟨id, -, ha⟩
      exact ⟨id, (hmem id a).mp ha⟩
    · rintro ⟨id, d, hd, hrest⟩
      exact ⟨id, hfound id d hd, (hmem id a).mpr ⟨d, hd, hrest⟩⟩

end Listing
