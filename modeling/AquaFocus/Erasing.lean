/-
`lib/services/firebase_services.dart`: `clearRecord` and `deleteAccount`.

The data of a user is the document `users/<uid>` and, below it, the collections
of tasks, tags and focus times. `clearRecord` deletes the documents of the three
collections one by one. `deleteAccount` deletes the one document above them, which
leaves those below it, and so it erases an account that has none
(`erases_iff`).

The deletes that are started are taken to have been made. The collections are
queried by the paths that `lib/services/database_services.dart` writes to.
-/
import AquaFocus.UserFields
import AquaFocus.Lib.DocTree
import AquaFocus.Lib.Loop

set_option autoImplicit false

open DocTree Loop

namespace AquaFocus.Erasing

/-! ## The two routines -/

/-- Documents under their paths, of all users. -/
abbrev Store : Type := List (List String × UserFields.Document)

def userDoc (uid : String) : List String := ["users", uid]
def taskCollection (uid : String) : List String := ["users", uid, "tasks"]
def tagsCollection (uid : String) : List String := ["users", uid, "Tags"]
def focusTimeCollection (uid : String) : List String := ["users", uid, "FocusTime"]

/-- The collections below a user's document. -/
def subcollections (uid : String) : List (List String) :=
  [taskCollection uid, tagsCollection uid, focusTimeCollection uid]

/-- The `update` of `clearRecord`. -/
def resetSettings (doc : UserFields.Document) : UserFields.Document :=
  (doc.update "allowNotif" (.bool true)).update "isCheckList" (.bool true)

/-- `clearRecord`, and what it threw. -/
def clearRecord (uid : String) (s : Store) : Store × Option Fault :=
  let s := deleteAll (taskCollection uid) s
  let s := deleteAll (tagsCollection uid) s
  -- an update of a document that is not there throws
  if (get (userDoc uid) s).isNone then (s, some .notFound)
  else
    let s := update (userDoc uid) resetSettings s
    (deleteAll (focusTimeCollection uid) s, none)

/-- What `deleteAccount` works on, and its variables. -/
structure Session where
  store : Store
  signedIn : Bool
  signInScreen : Bool
  step1 : Bool
  step2 : Bool
  step3 : Bool
  step4 : Bool

/-- One round of the loop of `deleteAccount`. -/
def deleteRound (uid : String) (s : Session) : Session :=
  let s := if s.step1 then
    { s with store := delete (userDoc uid) s.store, step1 := false, step2 := true } else s
  -- `currentUser!.delete()`
  let s := if s.step2 then { s with signedIn := false, step2 := false, step3 := true } else s
  -- `signOut()`
  let s := if s.step3 then { s with signedIn := false, step3 := false, step4 := true } else s
  if s.step4 then { s with signInScreen := true, step4 := false } else s

/-- `deleteAccount`, of the account that is signed in. Every round ends a step. -/
def deleteAccount (uid : String) (store : Store) : Option Session :=
  whileLoop (fun s => s.step1 || s.step2 || s.step3 || s.step4) (deleteRound uid) 4 {
    store := store
    signedIn := true
    signInScreen := false
    step1 := true
    step2 := false
    step3 := false
    step4 := false }

/-! ## What they leave -/

/-- `clearRecord` ends, and leaves no task, tag or focus time, and the user's own
data as they were. -/
structure ClearsRecord (uid : String) (s : Store) : Prop where
  ends : (clearRecord uid s).2 = none
  gone : ∀ collection ∈ subcollections uid, ∀ id,
    get (collection ++ [id]) (clearRecord uid s).1 = none
  kept : ∀ field ∈ ["money", "marlives", "username", "email"],
    (get (userDoc uid) (clearRecord uid s).1).map (· field)
      = (get (userDoc uid) s).map (· field)

/-- `deleteAccount` ends, and leaves nothing at or below the user's document and all
the rest. -/
def DeletesAccount (uid : String) (s : Store) : Prop :=
  ∃ t, deleteAccount uid s = some t
    ∧ (∀ path, userDoc uid <+: path → get path t.store = none)
    ∧ ∀ path, ¬ userDoc uid <+: path → get path t.store = get path s

variable {uid : String} {s : Store}

/-- A user's document lies in none of the collections. -/
theorem not_isIn_userDoc {collection : List String} (h : collection ∈ subcollections uid) :
    ¬ IsIn collection (userDoc uid) := by
  simp only [subcollections, List.mem_cons, List.not_mem_nil, or_false] at h
  rcases h with rfl | rfl | rfl <;> simp [IsIn, userDoc, taskCollection, tagsCollection,
    focusTimeCollection]

theorem resetSettings_of_ne {doc : UserFields.Document} {field : String}
    (hnotif : field ≠ "allowNotif") (hcheck : field ≠ "isCheckList") :
    resetSettings doc field = doc field := by
  rw [resetSettings, UserFields.Document.update_of_ne hcheck,
    UserFields.Document.update_of_ne hnotif]

/-- What is read once `clearRecord` is done. -/
theorem clearRecord_spec {doc : UserFields.Document} (h : get (userDoc uid) s = some doc) :
    (clearRecord uid s).2 = none
      ∧ get (userDoc uid) (clearRecord uid s).1 = some (resetSettings doc)
      ∧ ∀ path, path ≠ userDoc uid → get path (clearRecord uid s).1
        = if ∃ collection ∈ subcollections uid, IsIn collection path then none
          else get path s := by
  have htasks : ¬ IsIn (taskCollection uid) (userDoc uid) :=
    not_isIn_userDoc (by simp [subcollections])
  have htags : ¬ IsIn (tagsCollection uid) (userDoc uid) :=
    not_isIn_userDoc (by simp [subcollections])
  have hfocus : ¬ IsIn (focusTimeCollection uid) (userDoc uid) :=
    not_isIn_userDoc (by simp [subcollections])
  have hthere : get (userDoc uid) (deleteAll (tagsCollection uid)
      (deleteAll (taskCollection uid) s)) = some doc := by
    rw [get_deleteAll, if_neg htags, get_deleteAll, if_neg htasks, h]
  have hsome : ¬ (get (userDoc uid) (deleteAll (tagsCollection uid)
      (deleteAll (taskCollection uid) s))).isNone = true := by simp [hthere]
  simp only [clearRecord]
  rw [if_neg hsome]
  refine ⟨rfl, ?_, fun path hpath => ?_⟩
  · rw [get_deleteAll, if_neg hfocus, get_update, if_pos rfl, hthere, Option.map_some]
  · rw [get_deleteAll, get_update, if_neg hpath, get_deleteAll, get_deleteAll]
    simp only [subcollections, List.mem_cons, List.not_mem_nil, or_false, exists_eq_or_imp,
      exists_eq_left]
    by_cases hf : IsIn (focusTimeCollection uid) path
    · simp [hf]
    · by_cases ht : IsIn (tagsCollection uid) path
      · simp [ht]
      · simp [hf, ht]

theorem clearsRecord {doc : UserFields.Document} (h : get (userDoc uid) s = some doc) :
    ClearsRecord uid s := by
  obtain ⟨hends, huser, hget⟩ := clearRecord_spec h
  refine ⟨hends, fun collection hc id => ?_, fun field hfield => ?_⟩
  · have hin : IsIn collection (collection ++ [id]) := by simp [IsIn]
    have hne : collection ++ [id] ≠ userDoc uid := fun heq => not_isIn_userDoc hc (heq ▸ hin)
    rw [hget _ hne, if_pos ⟨collection, hc, hin⟩]
  · rw [huser, h, Option.map_some, Option.map_some, resetSettings_of_ne]
    · rintro rfl
      simp at hfield
    · rintro rfl
      simp at hfield

/-- `deleteAccount` takes one round, and deletes one document. -/
theorem deleteAccount_eq (uid : String) (s : Store) :
    ∃ t, deleteAccount uid s = some t ∧ t.store = delete (userDoc uid) s :=
  ⟨_, rfl, rfl⟩

/-- **What erasing leaves**: `clearRecord` clears the record of every account, and
`deleteAccount` deletes those whose document has none below it. -/
theorem erases_iff {doc : UserFields.Document} (h : get (userDoc uid) s = some doc) :
    ClearsRecord uid s
      ∧ (DeletesAccount uid s
        ↔ ∀ path, userDoc uid <+: path → path ≠ userDoc uid → get path s = none) := by
  refine ⟨clearsRecord h, ?_⟩
  obtain ⟨t, ht, hstore⟩ := deleteAccount_eq uid s
  constructor
  · rintro ⟨t', ht', hgone, -⟩ path hpath hne
    rw [ht, Option.some.injEq] at ht'
    have hget := hgone path hpath
    rwa [← ht', hstore, get_delete, if_neg hne] at hget
  · intro hnone
    refine ⟨t, ht, fun path hpath => ?_, fun path hpath => ?_⟩
    · rw [hstore, get_delete]
      split
      · rfl
      · next hne => exact hnone path hpath hne
    · have hne : path ≠ userDoc uid := fun heq => hpath (heq ▸ List.prefix_refl _)
      rw [hstore, get_delete, if_neg hne]

/-- An account with one task. -/
def oneTaskStore : Store :=
  [(userDoc "uid", UserFields.addUser "uid" "email" "username"),
    (taskCollection "uid" ++ ["doc"], fun _ => none)]

/-- Once the account is deleted the task is still there. -/
theorem not_deletesAccount : ¬ DeletesAccount "uid" oneTaskStore
    ∧ ∃ t, deleteAccount "uid" oneTaskStore = some t
      ∧ (get ["users", "uid", "tasks", "doc"] t.store).isSome := by
  refine ⟨?_, _, rfl, rfl⟩
  rintro ⟨t, ht, hgone, -⟩
  have htask : get (taskCollection "uid" ++ ["doc"]) t.store = none :=
    hgone _ ⟨["tasks", "doc"], rfl⟩
  cases ht
  cases htask

theorem erases_iff_oneTaskStore :
    ClearsRecord "uid" oneTaskStore
      ∧ (DeletesAccount "uid" oneTaskStore
        ↔ ∀ path, userDoc "uid" <+: path → path ≠ userDoc "uid" →
            get path oneTaskStore = none) :=
  erases_iff rfl

end AquaFocus.Erasing
