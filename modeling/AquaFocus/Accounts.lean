/-
Accounts, from `signup_screen.dart` and `signin_screen.dart` to the documents
`services/database_services.dart` reads.

Who is signed in is known in two places: the authentication service knows it at
once, and the variable `user` of `main.dart` once the listener of `userChanges()`
has been called. Making an account takes two steps, the call of the service and
then `addUser`. The second goes through `user`: the constructor of
`DatabaseServices` needs `user!`, and after a sign-in with Google or Facebook it
is `user!.uid` under which the new document is stored. Which of the two comes
first, that step or the listener, is open; and a registration reads its texts
again for the second step. Deleting an account takes its document at once, and
the account when the service answers, which may also refuse it.

Whatever comes first, every document there is can be read (`always_readable`);
`complete_iff_prompt` says when every account gets the document that is its own.
One handler runs at a time.
-/
import AquaFocus.Erasing
import AquaFocus.Lib.Runs

set_option autoImplicit false

open Runs

namespace AquaFocus.Accounts

open UserFields (Value Document Operation)

/-! ## The forms -/

/-- Dart's `length` of a string, in UTF-16 code units. -/
def length (text : String) : ℕ := (text.toList.map fun c => if c.val < 0x10000 then 1 else 2).sum

/-- `_userErrorText` of the sign-up form and `_newUsernameErrorText`, which are the
same. -/
def userErrorText (text : String) : Option String :=
  if text.isEmpty then some "Can't be empty"
  else if length text < 4 then some "Too short, username must be at least 4 characters"
  else if length text > 10 then some "Too long, username must be less than 10 characters"
  else none

def emailErrorText (text : String) : Option String :=
  if text.isEmpty then some "Can't be empty" else none

def passwordErrorText (text : String) : Option String :=
  if text.isEmpty then some "Can't be empty"
  else if length text < 6 then some "Too short, password must be at least 6 characters"
  else none

structure SignUpForm where
  userName : String
  email : String
  password : String
  passwordAgain : String

/-- The button goes on to `_register`. -/
def SignUpForm.Accepted (form : SignUpForm) : Prop :=
  (emailErrorText form.email = none ∧ passwordErrorText form.password = none
    ∧ userErrorText form.userName = none) ∧ form.passwordAgain = form.password

instance (form : SignUpForm) : Decidable form.Accepted := by
  unfold SignUpForm.Accepted
  infer_instance

/-! ## Getters -/

/-- `getUserName`. -/
def getUserName : Option Document → Except Fault String
  | none => .ok "null"
  | some doc =>
      match doc "username" with
      | none => .error .notFound
      | some (.string s) => .ok s
      | some _ => .error .typeError

/-- `getMoney`. -/
def getMoney : Option Document → Except Fault ℤ
  | none => .ok 0
  | some doc =>
      match doc "money" with
      | none => .error .notFound
      | some (.int n) => .ok n
      | some _ => .error .typeError

/-! ## The app and the service -/

/-- A handler that waits for the service. -/
inductive Handler
  | register (uid email : String)
  | google (uid email : String)
  | facebook (uid : String) (email : Option String) (isNewUser : Bool)
  /-- `deleteAccount`, which waits for its document -/
  | delete (uid : String)
deriving DecidableEq

structure App where
  /-- the texts of the sign-up form -/
  form : SignUpForm
  /-- the accounts of the service, with their addresses -/
  accounts : String → Option (Option String)
  /-- `FirebaseAuth.instance.currentUser` -/
  currentUser : Option String
  /-- what `userChanges()` has still to deliver -/
  userChanges : List (Option String)
  /-- `user` of `main.dart` -/
  user : Option String
  /-- the collection `users` -/
  docs : String → Option Document
  handler : Option Handler
  /-- the accounts the service was asked to delete; nothing waits for its answer -/
  deletions : List String

def App.start : App where
  form := ⟨"", "", "", ""⟩
  accounts := fun _ => none
  currentUser := none
  userChanges := []
  user := none
  docs := fun _ => none
  handler := none
  deletions := []

/-- What the service accepts is left open, but for this: a new account has an id
that no account has. -/
inductive Event
  | typed (form : SignUpForm)
  | signUp (uid : String)
  | signIn (uid : String)
  | google (uid email : String)
  | facebook (uid : String) (email : Option String)
  /-- the handler goes on -/
  | goOn
  /-- the listener is called -/
  | userChange
  | signOut
  | deleteAccount
  /-- the service deletes an account -/
  | deleted (uid : String)
  /-- or refuses to -/
  | refused (uid : String)
  | clearRecord
  | changeUsername (text : String)
  | update (op : Operation)

namespace App

/-- The service signs an account in, and makes it if it is new. -/
def signedIn (uid : String) (email : Option String) (s : App) : App :=
  { s with
    accounts := Function.update s.accounts uid (some email)
    currentUser := some uid
    userChanges := s.userChanges ++ [some uid] }

/-- `DatabaseServices().addUser`, under `uid` or, where none is given, `user!.uid`. -/
def addUser (uid : Option String) (email userName : String) (s : App) : App :=
  match s.user with
  | none => s
  | some current =>
      let uid := uid.getD current
      { s with
        docs := Function.update s.docs uid (some (UserFields.addUser uid email userName)) }

/-- An `update` of a document that is not there throws, and nothing waits for it. -/
def modify (uid : String) (f : Document → Document) (s : App) : App :=
  { s with docs := Function.update s.docs uid ((s.docs uid).map f) }

/-- The service has deleted an account, which is signed out. -/
def delete (uid : String) (s : App) : App :=
  let s :=
    { s with
      accounts := Function.update s.accounts uid none
      deletions := s.deletions.filter (· ≠ uid) }
  if s.currentUser = some uid then
    { s with currentUser := none, userChanges := s.userChanges ++ [none] }
  else s

/-- What the handler does once it is answered. -/
def resume (s : App) : Handler → App
  | .register uid _ => s.addUser (some uid) s.form.email s.form.userName
  | .google _ email => s.addUser none email "default"
  | .facebook uid email isNewUser =>
      if isNewUser then
        -- neither an address that is null nor a `user` that is comes to the second sign-in
        match email, s.user with
        | some email, some _ =>
            let s := s.addUser none email "default"
            { s with userChanges := s.userChanges ++ [some uid] }
        | _, _ => s
      else { s with userChanges := s.userChanges ++ [some uid] }
  | .delete _ =>
      match s.currentUser with
      | none => s
      | some uid =>
          { s with
            deletions := uid :: s.deletions
            currentUser := none
            userChanges := s.userChanges ++ [none] }

def step (s : App) : Event → Option App
  | .goOn => s.handler.map fun h => { s with handler := none }.resume h
  | .userChange =>
      match s.userChanges with
      | [] => none
      | event :: events => some { s with user := event, userChanges := events }
  | .typed form => some { s with form := form }
  | .signUp uid =>
      if s.handler = none ∧ s.form.Accepted ∧ s.accounts uid = none then
        some { s.signedIn uid (some s.form.email) with
          handler := some (.register uid s.form.email) }
      else none
  | .signIn uid =>
      match s.handler, s.accounts uid with
      | none, some email => some (s.signedIn uid email)
      | _, _ => none
  | .google uid email =>
      match s.handler, s.accounts uid with
      -- `isNewUser` is false, and the handler is done
      | none, some known => some (s.signedIn uid known)
      | none, none => some { s.signedIn uid (some email) with handler := some (.google uid email) }
      | some _, _ => none
  | .facebook uid email =>
      match s.handler, s.accounts uid with
      -- it signs in a second time, whether or not the account is new
      | none, some known =>
          some { s.signedIn uid known with handler := some (.facebook uid email false) }
      | none, none =>
          some { s.signedIn uid email with handler := some (.facebook uid email true) }
      | some _, _ => none
  | .signOut =>
      if s.handler = none then
        some { s with currentUser := none, userChanges := s.userChanges ++ [none] }
      else none
  | .deleteAccount =>
      match s.handler, s.currentUser with
      | none, some uid => some
          { s with docs := Function.update s.docs uid none, handler := some (.delete uid) }
      | _, _ => none
  | .deleted uid =>
      if uid ∈ s.deletions then some (s.delete uid) else none
  | .refused uid =>
      if uid ∈ s.deletions then some { s with deletions := s.deletions.erase uid } else none
  | .clearRecord =>
      match s.handler, s.currentUser with
      | none, some uid => some (s.modify uid Erasing.resetSettings)
      | _, _ => none
  | .changeUsername text =>
      match s.handler, s.currentUser with
      | none, some uid =>
          if userErrorText text = none then
            some (s.modify uid fun doc => doc.update "username" (.string text))
          else none
      | _, _ => none
  | .update op =>
      match s.handler, s.user with
      | none, some uid => some (s.modify uid op.apply)
      | _, _ => none

end App

section

variable (s : App) (uid : Option String) (email userName : String)

@[simp] theorem App.addUser_handler : (s.addUser uid email userName).handler = s.handler := by
  unfold App.addUser
  split <;> rfl

@[simp] theorem App.addUser_accounts : (s.addUser uid email userName).accounts = s.accounts := by
  unfold App.addUser
  split <;> rfl

@[simp] theorem App.addUser_deletions :
    (s.addUser uid email userName).deletions = s.deletions := by
  unfold App.addUser
  split <;> rfl

@[simp] theorem App.addUser_currentUser :
    (s.addUser uid email userName).currentUser = s.currentUser := by
  unfold App.addUser
  split <;> rfl

@[simp] theorem App.delete_docs (uid : String) : (s.delete uid).docs = s.docs := by
  simp only [App.delete]
  split <;> rfl

@[simp] theorem App.delete_handler (uid : String) : (s.delete uid).handler = s.handler := by
  simp only [App.delete]
  split <;> rfl

@[simp] theorem App.delete_accounts (uid : String) :
    (s.delete uid).accounts = Function.update s.accounts uid none := by
  simp only [App.delete]
  split <;> rfl

@[simp] theorem App.delete_deletions (uid : String) :
    (s.delete uid).deletions = s.deletions.filter (· ≠ uid) := by
  simp only [App.delete]
  split <;> rfl

@[simp] theorem App.delete_currentUser (uid : String) : (s.delete uid).currentUser
    = if s.currentUser = some uid then none else s.currentUser := by
  simp only [App.delete]
  split <;> rfl

end

/-! ## What a document holds -/

/-- The fields of a user's document, and what may stand in them. -/
def schema (uid : String) : List (String × (Value → Prop)) :=
  [("uid", fun value => value = .string uid), ("email", fun value => ∃ s, value = .string s),
    ("username", fun value => ∃ s, value = .string s),
    ("marlives", fun value => ∃ l, value = .list l), ("money", fun value => ∃ n, value = .int n),
    ("isCheckList", fun value => ∃ b, value = .bool b),
    ("allowNotif", fun value => ∃ b, value = .bool b),
    ("showCompleted", fun value => ∃ b, value = .bool b)]

def WellTyped (uid : String) (doc : Document) : Prop :=
  ∀ p ∈ schema uid, ∃ value, doc p.1 = some value ∧ p.2 value

/-- Every reader of a document finds what it expects. -/
structure Readable (uid : String) (doc : Document) : Prop where
  uid_eq : doc "uid" = some (.string uid)
  email : ∃ email, doc "email" = some (.string email)
  marlives : ∃ l, doc "marlives" = some (.list l)
  getUserName : ∃ name, getUserName (some doc) = .ok name
  getMoney : ∃ n, getMoney (some doc) = .ok n
  getisCheckList : ∃ b, UserFields.getisCheckList (some doc) = .ok b
  getShowCompl : ∃ b, UserFields.getShowCompl (some doc) = .ok b
  getAllowNotif : ∃ b, UserFields.getAllowNotif (some doc) = .ok b

theorem userErrorText_eq_none {text : String} :
    userErrorText text = none ↔ 4 ≤ length text ∧ length text ≤ 10 := by
  unfold userErrorText
  by_cases hempty : text.isEmpty = true
  · have hzero : length text = 0 := by
      rw [String.isEmpty_iff.mp hempty]
      rfl
    simp [hempty, hzero]
  · by_cases hshort : length text < 4
    · simp [hempty, hshort]
    · by_cases hlong : length text > 10
      · simp [hempty, hshort, hlong]
      · simp [hempty, hshort, hlong]
        omega

section

variable {uid : String} {doc : Document}

theorem WellTyped.update (h : WellTyped uid doc) {field : String} {value : Value}
    (hvalue : ∀ p ∈ schema uid, p.1 = field → p.2 value) :
    WellTyped uid (doc.update field value) := by
  intro p hp
  by_cases hfield : p.1 = field
  · exact ⟨value, by rw [hfield, Document.update_self], hvalue p hp hfield⟩
  · rw [Document.update_of_ne hfield]
    exact h p hp

theorem wellTyped_addUser (uid email userName : String) :
    WellTyped uid (UserFields.addUser uid email userName) := by
  intro p hp
  simp only [schema, List.mem_cons, List.not_mem_nil, or_false] at hp
  rcases hp with rfl | rfl | rfl | rfl | rfl | rfl | rfl | rfl
  · exact ⟨_, rfl, rfl⟩
  all_goals exact ⟨_, rfl, _, rfl⟩

/-- What an operation writes is of the field's kind. -/
theorem WellTyped.apply (h : WellTyped uid doc) (op : Operation) :
    WellTyped uid (op.apply doc) := by
  cases op with
  | updateCheckList b => exact h.update (by simp [schema])
  | updateShowCompl b => exact h.update (by simp [schema])
  | updateNotif b => exact h.update (by simp [schema])
  | addMoney amt =>
      apply h.update
      unfold UserFields.increment
      split <;> simp [schema]
  | addMarLives marId => exact h.update (by simp [schema])

theorem WellTyped.resetSettings (h : WellTyped uid doc) :
    WellTyped uid (Erasing.resetSettings doc) :=
  (h.update (by simp [schema])).update (by simp [schema])

theorem WellTyped.changeUsername (h : WellTyped uid doc) (text : String) :
    WellTyped uid (doc.update "username" (.string text)) := h.update (by simp [schema])

theorem WellTyped.readable (h : WellTyped uid doc) : Readable uid doc := by
  have hget : ∀ (i : ℕ) (hi : i < (schema uid).length),
      ∃ value, doc (schema uid)[i].1 = some value ∧ (schema uid)[i].2 value :=
    fun i hi => h _ (List.getElem_mem hi)
  obtain ⟨-, huid, rfl⟩ := hget 0 (by simp [schema])
  obtain ⟨-, hemail, email, rfl⟩ := hget 1 (by simp [schema])
  obtain ⟨-, hname, name, rfl⟩ := hget 2 (by simp [schema])
  obtain ⟨-, hlives, l, rfl⟩ := hget 3 (by simp [schema])
  obtain ⟨-, hmoney, n, rfl⟩ := hget 4 (by simp [schema])
  obtain ⟨-, hcheck, b, rfl⟩ := hget 5 (by simp [schema])
  obtain ⟨-, hallow, b', rfl⟩ := hget 6 (by simp [schema])
  obtain ⟨-, hshow, b'', rfl⟩ := hget 7 (by simp [schema])
  have hname : doc "username" = some (.string name) := hname
  have hmoney : doc "money" = some (.int n) := hmoney
  exact
    { uid_eq := huid
      email := ⟨email, hemail⟩
      marlives := ⟨l, hlives⟩
      getUserName := ⟨name, by simp only [Accounts.getUserName, hname]⟩
      getMoney := ⟨n, by simp only [Accounts.getMoney, hmoney]⟩
      getisCheckList := ⟨b, UserFields.getFlag_eq_ok_iff.mpr hcheck⟩
      getShowCompl := ⟨b'', UserFields.getFlag_eq_ok_iff.mpr hshow⟩
      getAllowNotif := ⟨b', UserFields.getFlag_eq_ok_iff.mpr hallow⟩ }

end

/-! ## Every document can be read -/

/-- What holds of the document a user gets, and is kept by what changes it, but for
the texts of a registration. -/
structure Kept (P : String → Document → Prop) : Prop where
  default : ∀ uid email, P uid (UserFields.addUser uid email "default")
  resetSettings : ∀ uid doc, P uid doc → P uid (Erasing.resetSettings doc)
  changeUsername : ∀ uid doc text, userErrorText text = none → P uid doc →
    P uid (doc.update "username" (.string text))
  apply : ∀ (uid : String) (doc : Document) (op : Operation), P uid doc → P uid (op.apply doc)

/-- It holds of every document. -/
def OfDocs (P : String → Document → Prop) (s : App) : Prop :=
  ∀ uid doc, s.docs uid = some doc → P uid doc

section

variable {P : String → Document → Prop} {s s' : App}

/-- A change of one document. -/
theorem OfDocs.modify (h : OfDocs P s) (uid : String) {f : Document → Document}
    (hf : ∀ doc, P uid doc → P uid (f doc)) : OfDocs P (s.modify uid f) := by
  intro other doc hdoc
  simp only [App.modify] at hdoc
  by_cases hother : other = uid
  · -- an update that found the document
    rw [hother, Function.update_self, Option.map_eq_some_iff] at hdoc
    obtain ⟨old, hold, rfl⟩ := hdoc
    exact hother ▸ hf old (h uid old hold)
  · rw [Function.update_of_ne hother] at hdoc
    exact h other doc hdoc

theorem OfDocs.addUser (h : OfDocs P s) (uid : Option String) {email userName : String}
    (hnew : ∀ current, s.user = some current →
      P (uid.getD current) (UserFields.addUser (uid.getD current) email userName)) :
    OfDocs P (s.addUser uid email userName) := by
  unfold App.addUser
  cases huser : s.user with
  | none => exact h
  | some current =>
      -- the document may replace one of the same id
      intro other doc hdoc
      by_cases hother : other = uid.getD current
      · simp only [hother, Function.update_self, Option.some.injEq] at hdoc
        rw [← hdoc, hother]
        exact hnew current huser
      · simp only [Function.update_of_ne hother] at hdoc
        exact h other doc hdoc

theorem OfDocs.of_docs (h : OfDocs P s) (hdocs : s'.docs = s.docs) : OfDocs P s' :=
  fun uid doc hdoc => h uid doc (hdocs ▸ hdoc)

theorem OfDocs.removed (h : OfDocs P s) (uid : String)
    (hdocs : s'.docs = Function.update s.docs uid none) : OfDocs P s' := by
  intro other doc hdoc
  rw [hdocs] at hdoc
  by_cases hother : other = uid
  · rw [hother, Function.update_self] at hdoc
    cases hdoc
  · rw [Function.update_of_ne hother] at hdoc
    exact h other doc hdoc

theorem OfDocs.resume (hP : Kept P) (h : OfDocs P s) {handler : Handler}
    (hnew : ∀ uid email, handler = .register uid email → s.user ≠ none →
      P uid (UserFields.addUser uid s.form.email s.form.userName)) :
    OfDocs P (s.resume handler) := by
  cases handler with
  | register uid email =>
      exact h.addUser (some uid) fun current hcurrent => hnew uid email rfl (by simp [hcurrent])
  | google uid email => exact h.addUser none fun current _ => hP.default current email
  | facebook uid email isNewUser =>
      simp only [App.resume]
      split
      · split
        · exact (h.addUser none fun current _ => hP.default current _).of_docs rfl
        · exact h
      · exact h.of_docs rfl
  | delete uid =>
      simp only [App.resume]
      split
      · exact h
      · exact h.of_docs rfl

/-- One step, of which a registration writes what its form holds then. -/
theorem OfDocs.step (hP : Kept P) (h : OfDocs P s) {e : Event}
    (hnew : e = .goOn → ∀ uid email, s.handler = some (.register uid email) → s.user ≠ none →
      P uid (UserFields.addUser uid s.form.email s.form.userName))
    (hstep : s.step e = some s') : OfDocs P s' := by
  cases e with
  | goOn =>
      obtain ⟨handler, hhandler, rfl⟩ := Option.map_eq_some_iff.mp hstep
      have hidle : OfDocs P { s with handler := none } := h.of_docs rfl
      exact hidle.resume hP fun uid email heq huser => hnew rfl uid email (heq ▸ hhandler) huser
  | userChange =>
      simp only [App.step] at hstep
      split at hstep
      · cases hstep
      · cases hstep
        exact h.of_docs rfl
  | typed form =>
      cases hstep
      exact h.of_docs rfl
  | signUp uid =>
      obtain ⟨-, heq⟩ := Option.ite_none_right_eq_some.mp hstep
      cases heq
      exact h.of_docs rfl
  | signIn uid =>
      simp only [App.step] at hstep
      split at hstep
      · cases hstep
        exact h.of_docs rfl
      · cases hstep
  | google uid email =>
      simp only [App.step] at hstep
      split at hstep
      · cases hstep
        exact h.of_docs rfl
      · cases hstep
        exact h.of_docs rfl
      · cases hstep
  | facebook uid email =>
      simp only [App.step] at hstep
      split at hstep
      · cases hstep
        exact h.of_docs rfl
      · cases hstep
        exact h.of_docs rfl
      · cases hstep
  | signOut =>
      obtain ⟨-, heq⟩ := Option.ite_none_right_eq_some.mp hstep
      cases heq
      exact h.of_docs rfl
  | deleteAccount =>
      simp only [App.step] at hstep
      split at hstep
      · next uid _ _ =>
        cases hstep
        exact h.removed uid rfl
      · cases hstep
  | deleted uid =>
      obtain ⟨-, heq⟩ := Option.ite_none_right_eq_some.mp hstep
      cases heq
      exact h.of_docs (App.delete_docs _ uid)
  | refused uid =>
      obtain ⟨-, heq⟩ := Option.ite_none_right_eq_some.mp hstep
      cases heq
      exact h.of_docs rfl
  | clearRecord =>
      simp only [App.step] at hstep
      split at hstep
      · cases hstep
        exact h.modify _ (hP.resetSettings _)
      · cases hstep
  | changeUsername text =>
      simp only [App.step] at hstep
      split at hstep
      · obtain ⟨htext, heq⟩ := Option.ite_none_right_eq_some.mp hstep
        cases heq
        exact h.modify _ fun doc => hP.changeUsername _ doc text htext
      · cases hstep
  | update op =>
      simp only [App.step] at hstep
      split at hstep
      · cases hstep
        exact h.modify _ fun doc => hP.apply _ doc op
      · cases hstep

theorem kept_wellTyped : Kept WellTyped where
  default uid email := wellTyped_addUser uid email _
  resetSettings _ _ h := h.resetSettings
  changeUsername _ _ text _ h := h.changeUsername text
  apply _ _ op h := h.apply op

end

/-- A name the forms let through, or `"default"`. -/
def Named (doc : Document) : Prop :=
  ∃ name, getUserName (some doc) = .ok name ∧ 4 ≤ length name ∧ length name ≤ 10

theorem named_addUser_iff (uid email userName : String) :
    Named (UserFields.addUser uid email userName) ↔ userErrorText userName = none := by
  have hget : getUserName (some (UserFields.addUser uid email userName)) = .ok userName := rfl
  unfold Named
  rw [hget, userErrorText_eq_none]
  constructor
  · rintro ⟨name, heq, hname⟩
    rwa [Except.ok.inj heq]
  · exact fun hname => ⟨userName, rfl, hname⟩

theorem Named.of_username {doc doc' : Document} (h : Named doc)
    (hname : doc' "username" = doc "username") : Named doc' := by
  simp only [Named, getUserName, hname] at *
  exact h

theorem kept_named : Kept fun _ doc => Named doc where
  default uid email := (named_addUser_iff uid email _).mpr (by decide)
  resetSettings _ _ h := h.of_username (Erasing.resetSettings_of_ne (by decide) (by decide))
  changeUsername _ doc text htext _ := by
    refine ⟨text, ?_, userErrorText_eq_none.mp htext⟩
    simp only [getUserName, Document.update_self]
  apply _ _ op h := h.of_username (UserFields.apply_of_ne (by cases op <;> simp [Operation.field]))

/-- A registration that goes on finds a name in its form that the form lets through. -/
def NameKept (s : App) : Event → Prop
  | .goOn => ∀ uid email, s.handler = some (.register uid email) → s.user ≠ none →
      userErrorText s.form.userName = none
  | _ => True

/-- The step that writes a name. -/
theorem named_step_iff {s s' : App} {e : Event} (h : OfDocs (fun _ => Named) s)
    (hstep : s.step e = some s') : OfDocs (fun _ => Named) s' ↔ NameKept s e := by
  constructor
  · intro h'
    cases e with
    | goOn =>
        intro uid email hhandler huser
        obtain ⟨current, hcurrent⟩ := Option.ne_none_iff_exists'.mp huser
        obtain ⟨handler, hsome, rfl⟩ := Option.map_eq_some_iff.mp hstep
        rw [hhandler, Option.some.injEq] at hsome
        subst hsome
        rw [← named_addUser_iff uid s.form.email]
        apply h' uid
        simp only [App.resume, App.addUser, hcurrent, Option.getD_some, Function.update_self]
    | _ => trivial
  · intro hkept
    refine OfDocs.step kept_named h (fun he uid email hhandler huser => ?_) hstep
    subst he
    exact (named_addUser_iff ..).mpr (hkept uid email hhandler huser)

/-- **Every document can be read**, in every run: whoever signs up, in or out, and
whenever the listener is called, no getter finds a field that is missing or of
another type. And every name has between four and ten characters exactly in the runs
in which the form of a registration under way keeps such a name. -/
theorem always_readable (es : List Event) :
    Always App.step (OfDocs Readable) .start es
      ∧ (Always App.step (OfDocs fun _ => Named) .start es ↔ Meets App.step NameKept .start es) := by
  constructor
  · intro pre hpre s hrun uid doc hdoc
    have hstep : ∀ s e s', OfDocs WellTyped s → App.step s e = some s' → OfDocs WellTyped s' :=
      fun s e s' h hstep =>
        OfDocs.step kept_wellTyped h (fun _ uid _ _ _ => wellTyped_addUser uid _ _) hstep
    have hstart : OfDocs WellTyped .start := fun _ _ h => by cases h
    exact (run_invariant _ hstep hstart hrun uid doc hdoc).readable
  · have hstart : OfDocs (fun _ => Named) .start := fun _ _ h => by cases h
    exact always_iff_meets (fun _ _ _ _ _ _ _ => trivial)
      (fun _ _ _ _ h hstep => named_step_iff h hstep) trivial hstart es

/-! ## Every account has its document -/

/-- The account whose document a handler has still to write. -/
def Handler.creates : Handler → Option (String × Option String)
  | .register uid email => some (uid, some email)
  | .google uid email => some (uid, some email)
  | .facebook uid email isNewUser => if isNewUser then some (uid, email) else none
  | .delete _ => none

def App.creates (s : App) : Option (String × Option String) := s.handler.bind Handler.creates

/-- An account whose document is gone, and that is going to be deleted. -/
def App.Deletes (s : App) (uid : String) : Prop :=
  s.handler = some (.delete uid) ∨ uid ∈ s.deletions

/-- A document of the account's own, with its address. -/
def HasDocument (s : App) (uid : String) (email : Option String) : Prop :=
  ∃ doc address, s.docs uid = some doc ∧ email = some address
    ∧ doc "email" = some (.string address)

/-- Every account has its document, unless it is being made or deleted. -/
def Complete (s : App) : Prop :=
  ∀ uid email, s.accounts uid = some email →
    s.creates = some (uid, email) ∨ s.Deletes uid ∨ HasDocument s uid email

/-- The listener has been called: before a registration goes on for any account, and
after a sign-in for this one. The form still has the address of the registration, and
Facebook has told one. -/
def Handler.Ready (s : App) : Handler → Prop
  | .register _ email => s.user ≠ none ∧ s.form.email = email
  | .google uid _ => s.user = some uid
  | .facebook uid email isNewUser => isNewUser = true → email ≠ none ∧ s.user = some uid
  | .delete _ => True

/-- Handlers that go on are ready, and no account is kept that was to be deleted. -/
def Prompt (s : App) : Event → Prop
  | .goOn => ∀ handler, s.handler = some handler → handler.Ready s
  | .refused uid => s.handler = some (.delete uid) ∨ uid ∈ s.deletions.erase uid
  | _ => True

/-- No account, no document; and none yet, or none any more, for one that is being made
or deleted. -/
structure Fresh (s : App) : Prop where
  unknown : ∀ uid, s.accounts uid = none → s.docs uid = none
  creating : ∀ uid email, s.creates = some (uid, email) →
    s.accounts uid = some email ∧ s.docs uid = none
  deleting : ∀ uid, s.Deletes uid → s.docs uid = none ∧ ∀ email, s.creates ≠ some (uid, email)
  known : ∀ uid ∈ s.deletions, s.accounts uid ≠ none
  held : ∀ uid, s.handler = some (.delete uid) →
    s.currentUser = some uid ∨ s.currentUser = none ∧ s.accounts uid = none
  signedIn : ∀ uid, s.currentUser = some uid → s.accounts uid ≠ none

section

variable {s s' : App} {uid : String} {email : Option String}

theorem creates_of_handler (h : s.handler = none) : s.creates = none := by
  rw [App.creates, h]
  rfl

/-- What counts of a state. -/
theorem Complete.congr (h : Complete s) (haccounts : s'.accounts = s.accounts)
    (hdocs : s'.docs = s.docs) (hcreates : s'.creates = s.creates)
    (hdeletes : ∀ uid, s.Deletes uid → s'.Deletes uid) : Complete s' := by
  intro uid email hemail
  rw [haccounts] at hemail
  rw [hcreates, HasDocument, hdocs]
  exact (h uid email hemail).imp_right (Or.imp_left (hdeletes uid))

theorem Fresh.congr (h : Fresh s) (haccounts : s'.accounts = s.accounts)
    (hdocs : s'.docs = s.docs) (hcreates : s'.creates = s.creates)
    (hdeletions : ∀ uid ∈ s'.deletions, uid ∈ s.deletions)
    (hhandler : ∀ uid, s'.handler = some (.delete uid) →
      s.handler = some (.delete uid) ∧ s'.currentUser = s.currentUser)
    (hcurrent : ∀ uid, s'.currentUser = some uid → s.accounts uid ≠ none) : Fresh s' := by
  constructor
  · rw [haccounts, hdocs]
    exact h.unknown
  · rw [haccounts, hdocs, hcreates]
    exact h.creating
  · intro uid hdeletes
    rw [hdocs, hcreates]
    exact h.deleting uid (hdeletes.imp (fun hh => (hhandler uid hh).1) (hdeletions uid))
  · intro uid hmem
    rw [haccounts]
    exact h.known uid (hdeletions uid hmem)
  · intro uid hh
    obtain ⟨hold, hsame⟩ := hhandler uid hh
    rw [hsame, haccounts]
    exact h.held uid hold
  · rw [haccounts]
    exact hcurrent

/-- A sign-in with an account there is. -/
theorem signedIn_known (h : s.accounts uid = some email) :
    (s.signedIn uid email).accounts = s.accounts := by
  rw [App.signedIn, ← h, Function.update_eq_self]

/-- A new account, whose document is going to be written. -/
theorem Complete.made (h : Complete s) (hidle : s.handler = none)
    (haccounts : s'.accounts = Function.update s.accounts uid (some email))
    (hdocs : s'.docs = s.docs) (hcreates : s'.creates = some (uid, email))
    (hdeletions : s'.deletions = s.deletions) : Complete s' := by
  intro other known hknown
  rw [hcreates, HasDocument, hdocs]
  by_cases hother : other = uid
  · -- the new account itself, which is being made
    rw [haccounts, hother, Function.update_self, Option.some.injEq] at hknown
    rw [hother, hknown]
    exact .inl rfl
  · rw [haccounts, Function.update_of_ne hother] at hknown
    rcases h other known hknown with hcreating | hdeletes | hdoc
    · rw [creates_of_handler hidle] at hcreating
      cases hcreating
    · rw [App.Deletes, hidle] at hdeletes
      rw [App.Deletes, hdeletions]
      exact .inr (.inl (.inr (hdeletes.resolve_left (by simp))))
    · exact .inr (.inr hdoc)

theorem Fresh.made (h : Fresh s) (hnew : s.accounts uid = none)
    (haccounts : s'.accounts = Function.update s.accounts uid (some email))
    (hdocs : s'.docs = s.docs) (hcreates : s'.creates = some (uid, email))
    (hdeletions : s'.deletions = s.deletions) (hcurrent : s'.currentUser = some uid) :
    Fresh s' := by
  -- a handler that makes an account deletes none
  have hhandler : ∀ other, s'.handler ≠ some (.delete other) := by
    intro other hh
    rw [App.creates, hh] at hcreates
    cases hcreates
  have hmem : ∀ other ∈ s.deletions, other ≠ uid := by
    rintro other hother rfl
    exact h.known other hother hnew
  constructor
  · intro other hother
    rw [hdocs]
    by_cases heq : other = uid
    · rw [haccounts, heq, Function.update_self] at hother
      cases hother
    · rw [haccounts, Function.update_of_ne heq] at hother
      exact h.unknown other hother
  · intro other known hknown
    rw [hcreates, Option.some.injEq, Prod.mk.injEq] at hknown
    rw [haccounts, hdocs, ← hknown.1, ← hknown.2, Function.update_self]
    exact ⟨rfl, h.unknown uid hnew⟩
  · rintro other (hh | hother)
    · exact absurd hh (hhandler other)
    · rw [hdeletions] at hother
      refine ⟨hdocs ▸ (h.deleting other (.inr hother)).1, fun known hknown => ?_⟩
      rw [hcreates, Option.some.injEq, Prod.mk.injEq] at hknown
      exact hmem other hother hknown.1.symm
  · intro other hother
    rw [hdeletions] at hother
    rw [haccounts, Function.update_of_ne (hmem other hother)]
    exact h.known other hother
  · exact fun other hh => absurd hh (hhandler other)
  · intro other hother
    rw [← Option.some.inj (hcurrent.symm.trans hother), haccounts, Function.update_self]
    simp

/-- A change of one document that keeps its address. -/
theorem Complete.modify (h : Complete s) (uid : String) {f : Document → Document}
    (hf : ∀ doc, f doc "email" = doc "email") : Complete (s.modify uid f) := by
  intro other email hemail
  rcases h other email hemail with hcreating | hdeletes | ⟨doc, address, hdoc, hemail, haddress⟩
  · exact .inl hcreating
  · exact .inr (.inl hdeletes)
  · right
    right
    simp only [HasDocument, App.modify]
    by_cases hother : other = uid
    · rw [hother, Function.update_self, ← hother, hdoc]
      exact ⟨f doc, address, rfl, hemail, (hf doc).trans haddress⟩
    · rw [Function.update_of_ne hother]
      exact ⟨doc, address, hdoc, hemail, haddress⟩

theorem Fresh.modify (h : Fresh s) (uid : String) (f : Document → Document) :
    Fresh (s.modify uid f) := by
  have hnone : ∀ other, s.docs other = none → (s.modify uid f).docs other = none := by
    intro other hother
    simp only [App.modify]
    by_cases heq : other = uid
    · rw [heq, Function.update_self, ← heq, hother]
      rfl
    · rw [Function.update_of_ne heq, hother]
  exact
    { unknown := fun other hother => hnone other (h.unknown other hother)
      creating := fun other email hcreating => ⟨(h.creating other email hcreating).1,
        hnone other (h.creating other email hcreating).2⟩
      deleting := fun other hdeletes =>
        ⟨hnone other (h.deleting other hdeletes).1, (h.deleting other hdeletes).2⟩
      known := h.known
      held := h.held
      signedIn := h.signedIn }

/-- The document of an account is deleted, and the account is to be. -/
theorem Complete.unwritten (h : Complete s) (uid : String) (hidle : s.handler = none) :
    Complete { s with docs := Function.update s.docs uid none, handler := some (.delete uid) } := by
  intro other email hemail
  right
  by_cases hother : other = uid
  · exact .inl (.inl (by rw [hother]))
  · rcases h other email hemail with hcreating | hdeletes | hdoc
    · rw [creates_of_handler hidle] at hcreating
      cases hcreating
    · rw [App.Deletes, hidle] at hdeletes
      exact .inl (.inr (hdeletes.resolve_left (by simp)))
    · right
      simp only [HasDocument, Function.update_of_ne hother]
      exact hdoc

theorem Fresh.unwritten (h : Fresh s) {uid : String} (hcurrent : s.currentUser = some uid) :
    Fresh { s with docs := Function.update s.docs uid none, handler := some (.delete uid) } := by
  have hnone : ∀ other, s.docs other = none → Function.update s.docs uid none other = none := by
    intro other hother
    by_cases heq : other = uid
    · rw [heq, Function.update_self]
    · rw [Function.update_of_ne heq, hother]
  refine ⟨fun other hother => hnone other (h.unknown other hother), fun other email hcreating => ?_,
    fun other hdeletes => ⟨?_, fun email hcreating => ?_⟩, h.known, fun other hheld => ?_,
    h.signedIn⟩
  · cases hcreating
  · rcases hdeletes with hheld | hmem
    · cases hheld
      exact Function.update_self ..
    · exact hnone other (h.deleting other (.inr hmem)).1
  · cases hcreating
  · cases hheld
    exact .inl hcurrent

/-- An account is deleted. -/
theorem Complete.delete (h : Complete s) (uid : String) : Complete (s.delete uid) := by
  intro other email hemail
  rw [App.delete_accounts] at hemail
  have hother : other ≠ uid := by
    rintro rfl
    rw [Function.update_self] at hemail
    cases hemail
  rw [Function.update_of_ne hother] at hemail
  rw [App.creates, App.Deletes, HasDocument, App.delete_handler, App.delete_deletions,
    App.delete_docs]
  refine (h other email hemail).imp_right (Or.imp_left (Or.imp_right fun hmem => ?_))
  exact List.mem_filter.mpr ⟨hmem, by simpa using hother⟩

theorem Fresh.delete (h : Fresh s) (hmem : uid ∈ s.deletions) : Fresh (s.delete uid) := by
  have hdeleted := h.deleting uid (.inr hmem)
  constructor
  · intro other hother
    rw [App.delete_accounts] at hother
    rw [App.delete_docs]
    by_cases heq : other = uid
    · rw [heq]
      exact hdeleted.1
    · rw [Function.update_of_ne heq] at hother
      exact h.unknown other hother
  · intro other known hcreating
    rw [App.creates, App.delete_handler] at hcreating
    have hne : other ≠ uid := by
      rintro rfl
      exact hdeleted.2 known hcreating
    rw [App.delete_accounts, App.delete_docs, Function.update_of_ne hne]
    exact h.creating other known hcreating
  · intro other hdeletes
    rw [App.Deletes, App.delete_handler, App.delete_deletions] at hdeletes
    rw [App.delete_docs, App.creates, App.delete_handler]
    exact h.deleting other (hdeletes.imp_right fun hfilter => (List.mem_filter.mp hfilter).1)
  · intro other hother
    rw [App.delete_deletions] at hother
    obtain ⟨hold, hne⟩ := List.mem_filter.mp hother
    rw [App.delete_accounts, Function.update_of_ne (by simpa using hne)]
    exact h.known other hold
  · intro other hheld
    rw [App.delete_handler] at hheld
    rw [App.delete_accounts, App.delete_currentUser]
    by_cases heq : other = uid
    · -- the account that is signed in may be the one that is gone
      subst heq
      rw [Function.update_self]
      rcases h.held other hheld with hcurrent | ⟨hcurrent, -⟩
      · exact .inr ⟨if_pos hcurrent, rfl⟩
      · exact .inr ⟨by rw [hcurrent, if_neg (by simp)], rfl⟩
    · rw [Function.update_of_ne heq]
      rcases h.held other hheld with hcurrent | ⟨hcurrent, hnone⟩
      · left
        rw [hcurrent, if_neg fun hsame => heq (Option.some.inj hsame)]
      · exact .inr ⟨by rw [hcurrent, if_neg (by simp)], hnone⟩
  · intro other hother
    rw [App.delete_currentUser] at hother
    split at hother
    · cases hother
    · next hne =>
      rw [App.delete_accounts, Function.update_of_ne]
      · exact h.signedIn other hother
      · rintro rfl
        exact hne hother

/-- A deletion is refused. -/
theorem refused_iff (hfresh : Fresh s) (h : Complete s) (hmem : uid ∈ s.deletions) :
    Fresh { s with deletions := s.deletions.erase uid }
      ∧ (Complete { s with deletions := s.deletions.erase uid }
        ↔ s.handler = some (.delete uid) ∨ uid ∈ s.deletions.erase uid) := by
  refine ⟨hfresh.congr rfl rfl rfl (fun _ => List.mem_of_mem_erase) (fun _ hh => ⟨hh, rfl⟩)
    hfresh.signedIn, fun hcomplete => ?_, fun hstill => h.congr rfl rfl rfl fun other hdeletes => ?_⟩
  · -- an account that is kept has no document
    obtain ⟨hnone, hcreates⟩ := hfresh.deleting uid (.inr hmem)
    obtain ⟨email, hemail⟩ := Option.ne_none_iff_exists'.mp (hfresh.known uid hmem)
    rcases hcomplete uid email hemail with hcreating | hdeletes | ⟨doc, -, hdoc, -⟩
    · exact absurd hcreating (hcreates email)
    · exact hdeletes
    · exact absurd (hnone.symm.trans hdoc) (by simp)
  · by_cases hother : other = uid
    · rw [hother]
      exact hstill
    · exact hdeletes.imp_right (List.mem_erase_of_ne hother).mpr

/-! ## The second step -/

theorem addUser_of_none (h : s.user = none) (uid : Option String) (email userName : String) :
    s.addUser uid email userName = s := by
  rw [App.addUser, h]

theorem addUser_docs {current : String} (h : s.user = some current) (uid : Option String)
    (email userName : String) : (s.addUser uid email userName).docs
      = Function.update s.docs (uid.getD current)
        (some (UserFields.addUser (uid.getD current) email userName)) := by
  rw [App.addUser, h]

/-- `addUser` under `user!.uid` makes the document of `uid` exactly for that user. -/
theorem addUser_self (s : App) (uid email userName : String) :
    (s.user = some uid → (s.addUser none email userName).docs
        = Function.update s.docs uid (some (UserFields.addUser uid email userName)))
      ∧ (s.user ≠ some uid → (s.addUser none email userName).docs uid = s.docs uid) := by
  refine ⟨fun h => addUser_docs h none email userName, fun h => ?_⟩
  cases hu : s.user with
  | none => rw [addUser_of_none hu]
  | some current =>
      have hne : uid ≠ current := fun heq => h (by rw [hu, heq])
      rw [addUser_docs hu, Option.getD_none, Function.update_of_ne hne]

/-- Facebook's handler, with an address, is Google's, whether or not it gets as far as
the second sign-in. -/
theorem resume_facebook (s : App) (uid email : String) :
    (s.resume (.facebook uid (some email) true)).docs = (s.addUser none email "default").docs
      ∧ (s.resume (.facebook uid (some email) true)).accounts = s.accounts
      ∧ (s.resume (.facebook uid (some email) true)).handler = s.handler
      ∧ (s.resume (.facebook uid (some email) true)).deletions = s.deletions
      ∧ (s.resume (.facebook uid (some email) true)).currentUser = s.currentUser := by
  cases hu : s.user with
  | none =>
      have hsame : s.resume (.facebook uid (some email) true) = s := by
        simp only [App.resume, hu, if_true]
      rw [hsame, addUser_of_none hu]
      exact ⟨rfl, rfl, rfl, rfl, rfl⟩
  | some current =>
      have hadded : s.resume (.facebook uid (some email) true)
          = { s.addUser none email "default" with
              userChanges := (s.addUser none email "default").userChanges ++ [some uid] } := by
        simp only [App.resume, hu, if_true]
      rw [hadded]
      exact ⟨rfl, App.addUser_accounts .., App.addUser_handler .., App.addUser_deletions ..,
        App.addUser_currentUser ..⟩

/-- What a handler does when it goes on: it writes the document it is to make where
it is ready, and none with the account's address where it is not. -/
theorem resume_spec (s : App) {handler : Handler} (hwrites : ∀ uid, handler ≠ .delete uid) :
    (s.resume handler).accounts = s.accounts
      ∧ (s.resume handler).handler = s.handler
      ∧ (s.resume handler).deletions = s.deletions
      ∧ (s.resume handler).currentUser = s.currentUser
      ∧ (handler.creates = none → (s.resume handler).docs = s.docs)
      ∧ ∀ uid email, handler.creates = some (uid, email) →
        (handler.Ready s → ∃ address userName, email = some address
          ∧ (s.resume handler).docs
            = Function.update s.docs uid (some (UserFields.addUser uid address userName)))
        ∧ (s.docs uid = none → ¬ handler.Ready s → ¬ HasDocument (s.resume handler) uid email) := by
  -- where nothing is written there is nothing to find
  have hnothing : ∀ {uid email} {t : App}, s.docs uid = none → t.docs uid = s.docs uid →
      ¬ HasDocument t uid email := by
    rintro uid email t hnone hsame ⟨doc, -, hdoc, -⟩
    rw [hsame, hnone] at hdoc
    cases hdoc
  cases handler with
  | register uid email =>
      refine ⟨App.addUser_accounts .., App.addUser_handler .., App.addUser_deletions ..,
        App.addUser_currentUser .., (by simp [Handler.creates]), ?_⟩
      intro other known hcreates
      cases hcreates
      constructor
      · rintro ⟨huser, rfl⟩
        obtain ⟨current, hcurrent⟩ := Option.ne_none_iff_exists'.mp huser
        exact ⟨_, _, rfl, addUser_docs hcurrent (some uid) _ _⟩
      · intro hnone hready
        cases hu : s.user with
        | none =>
            refine hnothing hnone ?_
            rw [App.resume, addUser_of_none hu]
        | some current =>
            -- the document has the address that is in the form by now
            rintro ⟨doc, address, hdoc, heq, haddress⟩
            rw [App.resume, addUser_docs hu, Option.getD_some, Function.update_self,
              Option.some.injEq] at hdoc
            have hemail : UserFields.addUser uid s.form.email s.form.userName "email"
                = some (.string s.form.email) := rfl
            rw [← hdoc, hemail, Option.some.injEq, Value.string.injEq] at haddress
            exact hready ⟨by simp [hu], haddress.trans (Option.some.inj heq).symm⟩
  | google uid email =>
      refine ⟨App.addUser_accounts .., App.addUser_handler .., App.addUser_deletions ..,
        App.addUser_currentUser .., (by simp [Handler.creates]), ?_⟩
      intro other known hcreates
      cases hcreates
      obtain ⟨hsame, hother⟩ := addUser_self s uid email "default"
      exact ⟨fun hready => ⟨email, "default", rfl, hsame hready⟩,
        fun hnone hready => hnothing hnone (hother hready)⟩
  | facebook uid email isNewUser =>
      cases isNewUser with
      | false =>
          exact ⟨rfl, rfl, rfl, rfl, fun _ => rfl, fun other known hcreates => by cases hcreates⟩
      | true =>
          cases email with
          | none =>
              -- `email!` throws
              refine ⟨rfl, rfl, rfl, rfl, (by simp [Handler.creates]),
                fun other known hcreates => ?_⟩
              cases hcreates
              exact ⟨fun hready => absurd rfl (hready rfl).1,
                fun hnone _ => hnothing hnone rfl⟩
          | some email =>
              obtain ⟨hdocs, haccounts, hhandler, hdeletions, hcurrent⟩ :=
                resume_facebook s uid email
              refine ⟨haccounts, hhandler, hdeletions, hcurrent, (by simp [Handler.creates]), ?_⟩
              intro other known hcreates
              cases hcreates
              obtain ⟨hsame, hother⟩ := addUser_self s uid email "default"
              have hready : (Handler.facebook uid (some email) true).Ready s
                  ↔ s.user = some uid := by simp [Handler.Ready]
              rw [hready]
              refine ⟨fun heq => ⟨email, "default", rfl, hdocs.trans (hsame heq)⟩,
                fun hnone hne => hnothing hnone ?_⟩
              rw [hdocs, hother hne]
  | delete uid => exact absurd rfl (hwrites uid)

/-- The second step completes the account exactly when it is ready. -/
theorem complete_resume_iff (hfresh : Fresh s) (h : Complete s) {handler : Handler}
    (hs : s.handler = some handler) (hwrites : ∀ uid, handler ≠ .delete uid) :
    (handler.Ready s → Fresh ({ s with handler := none }.resume handler))
      ∧ (Complete ({ s with handler := none }.resume handler) ↔ handler.Ready s) := by
  obtain ⟨haccounts, hhandler, hdeletions, hcurrent, hknown, hnew⟩ :=
    resume_spec { s with handler := none } hwrites
  have hidle := creates_of_handler hhandler
  have hcreating : s.creates = handler.creates := by rw [App.creates, hs]; rfl
  have hdeletes : ∀ uid, s.Deletes uid
      ↔ ({ s with handler := none }.resume handler).Deletes uid := by
    intro uid
    rw [App.Deletes, App.Deletes, hhandler, hdeletions, hs]
    simp [hwrites uid]
  cases hmade : handler.creates with
  | none =>
      -- an account that was there before; nothing changes
      have hready : handler.Ready s := by
        cases handler with
        | register uid email => cases hmade
        | google uid email => cases hmade
        | facebook uid email isNewUser =>
            intro hisNew
            simp [Handler.creates, hisNew] at hmade
        | delete uid => trivial
      have hcreates : ({ s with handler := none }.resume handler).creates = s.creates := by
        rw [hidle, hcreating, hmade]
      refine ⟨fun _ => hfresh.congr haccounts (hknown hmade) hcreates
          (fun uid hmem => hdeletions ▸ hmem) (fun uid hh => ?_)
          fun uid hsome => hfresh.signedIn uid (hcurrent.symm.trans hsome),
        iff_of_true (h.congr haccounts (hknown hmade) hcreates fun uid => (hdeletes uid).mp)
          hready⟩
      rw [hhandler] at hh
      cases hh
  | some account =>
      obtain ⟨uid, email⟩ := account
      obtain ⟨hyes, hno⟩ := hnew uid email hmade
      obtain ⟨haccount, hnone⟩ := hfresh.creating uid email (hcreating.trans hmade)
      have hkept : ¬ s.Deletes uid := fun hdel =>
        (hfresh.deleting uid hdel).2 email (hcreating.trans hmade)
      refine ⟨fun hready => ?_, fun hcomplete => ?_, fun hready => ?_⟩
      · obtain ⟨address, userName, -, hdocs⟩ := hyes hready
        refine ⟨fun other hother => ?_, fun other known hcreates => ?_, fun other hdel => ?_,
          fun other hother => ?_, fun other hh => ?_, fun other hsome => ?_⟩
        · have hne : other ≠ uid := by
            rintro rfl
            rw [haccounts, haccount] at hother
            cases hother
          rw [haccounts] at hother
          rw [hdocs, Function.update_of_ne hne]
          exact hfresh.unknown other hother
        · rw [hidle] at hcreates
          cases hcreates
        · have hdel' := (hdeletes other).mpr hdel
          have hne : other ≠ uid := by
            rintro rfl
            exact hkept hdel'
          rw [hdocs, Function.update_of_ne hne, hidle]
          exact ⟨(hfresh.deleting other hdel').1, by simp⟩
        · rw [hdeletions] at hother
          rw [haccounts]
          exact hfresh.known other hother
        · rw [hhandler] at hh
          cases hh
        · rw [haccounts]
          exact hfresh.signedIn other (hcurrent.symm.trans hsome)
      · -- without its document the account would stay without one
        by_contra hready
        have hlost := hcomplete uid email (by rw [haccounts]; exact haccount)
        rw [hidle, ← hdeletes] at hlost
        rcases hlost with hcreates | hdel | hdoc
        · cases hcreates
        · exact hkept hdel
        · exact hno hnone hready hdoc
      · obtain ⟨address, userName, rfl, hdocs⟩ := hyes hready
        intro other known hother
        right
        rw [HasDocument, hdocs, ← hdeletes]
        rw [haccounts] at hother
        by_cases heq : other = uid
        · rw [heq, haccount, Option.some.injEq] at hother
          rw [heq, Function.update_self, ← hother]
          exact .inr ⟨_, address, rfl, rfl, rfl⟩
        · rw [Function.update_of_ne heq]
          refine (h other known hother).resolve_left fun hcreates => heq ?_
          rw [hcreating, hmade, Option.some.injEq, Prod.mk.injEq] at hcreates
          exact hcreates.1.symm

/-- The second step of a deletion. -/
theorem delete_resume (hfresh : Fresh s) (h : Complete s) (hs : s.handler = some (.delete uid)) :
    Fresh ({ s with handler := none }.resume (.delete uid))
      ∧ Complete ({ s with handler := none }.resume (.delete uid)) := by
  have hidle : s.creates = none := by
    rw [App.creates, hs]
    rfl
  have hdocs := (hfresh.deleting uid (.inl hs)).1
  rcases hfresh.held uid hs with hcurrent | ⟨hcurrent, hgone⟩
  · -- the account waits for the service
    have hresume : { s with handler := none }.resume (.delete uid)
        = { s with
            handler := none
            deletions := uid :: s.deletions
            currentUser := none
            userChanges := s.userChanges ++ [none] } := by
      simp only [App.resume, hcurrent]
    rw [hresume]
    refine ⟨⟨hfresh.unknown, (fun _ _ hc => nomatch hc), fun other hdel => ?_,
      fun other hmem => ?_, (fun _ hh => nomatch hh), (fun _ hh => nomatch hh)⟩,
      h.congr rfl rfl hidle.symm ?_⟩
    · rcases hdel with hh | hmem
      · cases hh
      · rcases List.mem_cons.mp hmem with rfl | hmem
        · exact ⟨hdocs, (fun _ hc => nomatch hc)⟩
        · exact ⟨(hfresh.deleting other (.inr hmem)).1, (fun _ hc => nomatch hc)⟩
    · rcases List.mem_cons.mp hmem with rfl | hmem
      · exact hfresh.signedIn other hcurrent
      · exact hfresh.known other hmem
    · rintro other (hh | hmem)
      · rw [hs, Option.some.injEq, Handler.delete.injEq] at hh
        exact .inr (hh ▸ List.mem_cons_self)
      · exact .inr (List.mem_cons_of_mem uid hmem)
  · -- the account is gone already, and `currentUser!` throws
    have hresume : { s with handler := none }.resume (.delete uid)
        = { s with handler := none } := by
      simp only [App.resume, hcurrent]
    rw [hresume]
    refine ⟨hfresh.congr rfl rfl hidle.symm (fun _ hmem => hmem) (fun other hh => nomatch hh)
      hfresh.signedIn, fun other email hemail => ?_⟩
    rcases h other email hemail with hcreates | (hh | hmem) | hdoc
    · rw [hidle] at hcreates
      cases hcreates
    · rw [hs, Option.some.injEq, Handler.delete.injEq] at hh
      rw [← hh, hgone] at hemail
      cases hemail
    · exact .inr (.inl (.inr hmem))
    · exact .inr (.inr hdoc)

/-! ## Runs -/

theorem fresh_start : Fresh .start where
  unknown _ _ := rfl
  creating _ _ h := by cases h
  deleting _ h := by rcases h with h | h <;> cases h
  known _ h := by cases h
  held _ h := by cases h
  signedIn _ h := by cases h

theorem complete_start : Complete .start := fun _ _ h => by cases h

/-- A step other than the second one of a handler, and the refusal of a deletion. -/
theorem step_keeps (hfresh : Fresh s) (h : Complete s) {e : Event} (he : e ≠ .goOn)
    (he' : ∀ uid, e ≠ .refused uid) (hstep : s.step e = some s') : Fresh s' ∧ Complete s' := by
  -- what a step leaves that writes no document and leaves the accounts as they are
  have hsame : ∀ {t : App}, t.accounts = s.accounts → t.docs = s.docs → t.creates = s.creates →
      t.deletions = s.deletions → (∀ uid, s.handler = some (.delete uid) →
        t.handler = some (.delete uid)) →
      (∀ uid, t.handler = some (.delete uid) →
        s.handler = some (.delete uid) ∧ t.currentUser = s.currentUser) →
      (∀ uid, t.currentUser = some uid → s.accounts uid ≠ none) → Fresh t ∧ Complete t := by
    intro t haccounts hdocs hcreates hdeletions hold hnew hcurrent
    refine ⟨hfresh.congr haccounts hdocs hcreates (fun uid hmem => hdeletions ▸ hmem) hnew hcurrent,
      h.congr haccounts hdocs hcreates fun uid hdel => ?_⟩
    exact hdel.imp (hold uid) fun hmem => hdeletions ▸ hmem
  have hsignedIn : ∀ {uid : String} {email : Option String}, s.accounts uid = some email →
      ∀ other, (s.signedIn uid email).currentUser = some other → s.accounts other ≠ none := by
    intro uid email hknown other hother
    rw [← Option.some.inj hother, hknown]
    simp
  cases e with
  | goOn => exact absurd rfl he
  | refused uid => exact absurd rfl (he' uid)
  | userChange =>
      simp only [App.step] at hstep
      split at hstep
      · cases hstep
      · cases hstep
        exact hsame rfl rfl rfl rfl (fun _ hh => hh) (fun _ hh => ⟨hh, rfl⟩) hfresh.signedIn
  | typed form =>
      cases hstep
      exact hsame rfl rfl rfl rfl (fun _ hh => hh) (fun _ hh => ⟨hh, rfl⟩) hfresh.signedIn
  | signUp uid =>
      obtain ⟨⟨hs, -, hnew⟩, heq⟩ := Option.ite_none_right_eq_some.mp hstep
      cases heq
      exact ⟨hfresh.made hnew rfl rfl rfl rfl rfl, h.made hs rfl rfl rfl rfl⟩
  | signIn uid =>
      simp only [App.step] at hstep
      split at hstep
      · next email hs hknown =>
        cases hstep
        refine hsame (signedIn_known hknown) rfl rfl rfl (fun _ hh => hh) (fun _ hh => ?_)
          (hsignedIn hknown)
        exact absurd (hs.symm.trans hh) (by simp)
      · cases hstep
  | google uid email =>
      simp only [App.step] at hstep
      split at hstep
      · next known hs hknown =>
        cases hstep
        refine hsame (signedIn_known hknown) rfl rfl rfl (fun _ hh => hh) (fun _ hh => ?_)
          (hsignedIn hknown)
        exact absurd (hs.symm.trans hh) (by simp)
      · next hs hnew =>
        cases hstep
        exact ⟨hfresh.made hnew rfl rfl rfl rfl rfl, h.made hs rfl rfl rfl rfl⟩
      · cases hstep
  | facebook uid email =>
      simp only [App.step] at hstep
      split at hstep
      · next known hs hknown =>
        cases hstep
        refine hsame (signedIn_known hknown) rfl (creates_of_handler hs).symm rfl
          (fun _ hh => ?_) (fun _ hh => nomatch hh) (hsignedIn hknown)
        exact absurd (hs.symm.trans hh) (by simp)
      · next hs hnew =>
        cases hstep
        exact ⟨hfresh.made hnew rfl rfl rfl rfl rfl, h.made hs rfl rfl rfl rfl⟩
      · cases hstep
  | signOut =>
      obtain ⟨hs, heq⟩ := Option.ite_none_right_eq_some.mp hstep
      cases heq
      refine hsame rfl rfl rfl rfl (fun _ hh => hh) (fun _ hh => ?_) fun _ hh => nomatch hh
      exact absurd (hs.symm.trans hh) (by simp)
  | deleteAccount =>
      simp only [App.step] at hstep
      split at hstep
      · next uid hs hcurrent =>
        cases hstep
        exact ⟨hfresh.unwritten hcurrent, h.unwritten uid hs⟩
      · cases hstep
  | deleted uid =>
      obtain ⟨hmem, heq⟩ := Option.ite_none_right_eq_some.mp hstep
      cases heq
      exact ⟨hfresh.delete hmem, h.delete uid⟩
  | clearRecord =>
      simp only [App.step] at hstep
      split at hstep
      · cases hstep
        exact ⟨hfresh.modify _ _, h.modify _ fun doc =>
          Erasing.resetSettings_of_ne (by decide) (by decide)⟩
      · cases hstep
  | changeUsername text =>
      simp only [App.step] at hstep
      split at hstep
      · obtain ⟨-, heq⟩ := Option.ite_none_right_eq_some.mp hstep
        cases heq
        exact ⟨hfresh.modify _ _, h.modify _ fun doc => doc.update_of_ne (by decide) _⟩
      · cases hstep
  | update op =>
      simp only [App.step] at hstep
      split at hstep
      · cases hstep
        refine ⟨hfresh.modify _ _, h.modify _ fun doc => UserFields.apply_of_ne ?_⟩
        cases op <;> simp [Operation.field]
      · cases hstep

/-- One step keeps every account with its document exactly when it is prompt. -/
theorem complete_step_iff (hfresh : Fresh s) (h : Complete s) {e : Event}
    (hstep : s.step e = some s') : (Prompt s e → Fresh s') ∧ (Complete s' ↔ Prompt s e) := by
  by_cases he : e = .goOn
  · subst he
    obtain ⟨handler, hhandler, rfl⟩ := Option.map_eq_some_iff.mp hstep
    have hprompt : Prompt s .goOn ↔ handler.Ready s := by
      simp only [Prompt, hhandler, Option.some.injEq, forall_eq']
    rw [hprompt]
    by_cases hdelete : ∃ uid, handler = .delete uid
    · obtain ⟨uid, rfl⟩ := hdelete
      obtain ⟨hfresh', h'⟩ := delete_resume hfresh h hhandler
      exact ⟨fun _ => hfresh', iff_of_true h' trivial⟩
    · exact complete_resume_iff hfresh h hhandler fun uid heq => hdelete ⟨uid, heq⟩
  · by_cases he' : ∃ uid, e = .refused uid
    · obtain ⟨uid, rfl⟩ := he'
      obtain ⟨hmem, heq⟩ := Option.ite_none_right_eq_some.mp hstep
      cases heq
      obtain ⟨hfresh', hiff⟩ := refused_iff hfresh h hmem
      exact ⟨fun _ => hfresh', hiff⟩
    · have hprompt : Prompt s e := by
        cases e with
        | goOn => exact absurd rfl he
        | refused uid => exact absurd ⟨uid, rfl⟩ he'
        | _ => trivial
      obtain ⟨hfresh', h'⟩ := step_keeps hfresh h he (fun uid heq => he' ⟨uid, heq⟩) hstep
      exact ⟨fun _ => hfresh', iff_of_true h' hprompt⟩

end

/-- A first registration that goes on before the listener is called: the account
has no document. -/
example :
    (run App.step .start [.typed ⟨"nemo", "nemo@sea", "bubbles", "bubbles"⟩, .signUp "uid",
      .goOn]).map (fun s => (s.docs "uid").isNone) = some true := by decide

end AquaFocus.Accounts
