/-
The account's document as the store keeps it: fields under string keys.

Three updaters of `lib/services/database_services.dart` write a setting, and
three getters read one, each by a key spelled out in its body. A pair belongs
together when its keys are the same. `updateNotif` spells the key of
`updateCheckList`, so nothing writes what `getAllowNotif` reads;
`independent_iff` says which sequences of writes do not notice.
-/
import AquaFocus.Settings
import AquaFocus.Database
import Mathlib.Data.List.Induction

set_option autoImplicit false

namespace AquaFocus.UserFields

/-! ## Documents -/

inductive Value
  | bool (b : Bool)
  | int (n : ℤ)
  | string (s : String)
  | list (l : List ℤ)
deriving DecidableEq

/-- The fields of a document. -/
abbrev Document : Type := String → Option Value

/-- `update({field: value})`, of a document that is there. -/
def Document.update (doc : Document) (field : String) (value : Value) : Document :=
  Function.update doc field (some value)

@[simp] theorem Document.update_self (doc : Document) (field : String) (value : Value) :
    doc.update field value field = some value := Function.update_self ..

theorem Document.update_of_ne {field other : String} (h : other ≠ field) (doc : Document)
    (value : Value) : doc.update field value other = doc other := Function.update_of_ne h ..

/-- `addUser`, for an `AppUser` that was just made: it has neither coins nor
creatures. -/
def addUser (uid email userName : String) : Document := fun field =>
  [("uid", Value.string uid), ("email", .string email), ("username", .string userName),
    ("marlives", .list []), ("money", .int 0), ("isCheckList", .bool true),
    ("allowNotif", .bool true), ("showCompleted", .bool false)].lookup field

/-! ## Settings -/

/-- What the three getters do with their field. A snapshot without a document
leaves the variable at `true`; a field that is not there throws, and so does one
that is not a `bool`. -/
def getFlag (field : String) (snapshot : Option Document) : Except Fault Bool :=
  match snapshot with
  | none => .ok true
  | some doc =>
      match doc field with
      | none => .error .notFound
      | some (.bool b) => .ok b
      | some _ => .error .typeError

def getisCheckList : Option Document → Except Fault Bool := getFlag "isCheckList"
def getShowCompl : Option Document → Except Fault Bool := getFlag "showCompleted"
def getAllowNotif : Option Document → Except Fault Bool := getFlag "allowNotif"

def updateCheckList (newCheckList : Bool) (doc : Document) : Document :=
  doc.update "isCheckList" (.bool newCheckList)

def updateShowCompl (newShow : Bool) (doc : Document) : Document :=
  doc.update "showCompleted" (.bool newShow)

def updateNotif (newNotif : Bool) (doc : Document) : Document :=
  doc.update "isCheckList" (.bool newNotif)

/-! ## Money and creatures -/

/-- `FieldValue.increment`, which replaces what is not a number. -/
def increment (amt : ℤ) : Option Value → Value
  | some (.int n) => .int (n + amt)
  | _ => .int amt

def addMoney (amt : ℤ) (doc : Document) : Document :=
  doc.update "money" (increment amt (doc "money"))

/-- `getMarLivesList`: whatever goes wrong in reading is caught, and leaves the
list empty. -/
def getMarLivesList (doc : Document) : List ℤ :=
  match doc "marlives" with
  | some (.list l) => l
  | _ => []

def addMarLives (marId : ℤ) (doc : Document) : Document :=
  doc.update "marlives" (.list (UserDoc.withMarLife marId (getMarLivesList doc)))

/-! ## Sequences of operations -/

inductive Operation
  | updateCheckList (newCheckList : Bool)
  | updateShowCompl (newShow : Bool)
  | updateNotif (newNotif : Bool)
  | addMoney (amt : ℤ)
  | addMarLives (marId : ℤ)

namespace Operation

def apply : Operation → Document → Document
  | .updateCheckList newCheckList => UserFields.updateCheckList newCheckList
  | .updateShowCompl newShow => UserFields.updateShowCompl newShow
  | .updateNotif newNotif => UserFields.updateNotif newNotif
  | .addMoney amt => UserFields.addMoney amt
  | .addMarLives marId => UserFields.addMarLives marId

/-- The setting an updater is for: the field its getter reads, and the value. -/
def setting : Operation → Option (String × Bool)
  | .updateCheckList b => some ("isCheckList", b)
  | .updateShowCompl b => some ("showCompleted", b)
  | .updateNotif b => some ("allowNotif", b)
  | .addMoney _ => none
  | .addMarLives _ => none

/-- What an operation writes to a setting, when it is that setting's updater. -/
def writes (field : String) (op : Operation) : Option Bool :=
  op.setting.bind fun s => if s.1 = field then some s.2 else none

end Operation

/-- The document after the operations, each finished before the next. -/
def after (doc : Document) (ops : List Operation) : Document :=
  ops.foldl (fun doc op => op.apply doc) doc

/-- What a setting was last set to. -/
def lastWritten (field : String) (ops : List Operation) : Option Bool :=
  (ops.filterMap (Operation.writes field)).getLast?

/-- The getter of a setting answers with what the setting was last set to, or as it
did in the beginning. -/
def Reads (getter : Option Document → Except Fault Bool) (doc : Document) (ops : List Operation)
    (field : String) : Prop :=
  getter (some (after doc ops)) = match lastWritten field ops with
    | some b => .ok b
    | none => getter (some doc)

/-- A settings update changes its own field only. -/
def Frames (doc : Document) (op : Operation) : Prop :=
  ∀ field b, op.setting = some (field, b) → ∀ other, other ≠ field →
    op.apply doc other = doc other

/-- After every operation of a sequence the three getters are right, and no
settings update has touched another field. -/
structure Independent (doc : Document) (ops : List Operation) : Prop where
  checkList : ∀ pre, pre <+: ops → Reads getisCheckList doc pre "isCheckList"
  showCompl : ∀ pre, pre <+: ops → Reads getShowCompl doc pre "showCompleted"
  allowNotif : ∀ pre, pre <+: ops → Reads getAllowNotif doc pre "allowNotif"
  frames : ∀ pre op, pre ++ [op] <+: ops → Frames (after doc pre) op

/-! ## One operation -/

variable {doc : Document} {ops : List Operation}

theorem after_append (ops : List Operation) (op : Operation) :
    after doc (ops ++ [op]) = op.apply (after doc ops) := by
  rw [after, after, List.foldl_append, List.foldl_cons, List.foldl_nil]

theorem lastWritten_append (field : String) (ops : List Operation) (op : Operation) :
    lastWritten field (ops ++ [op]) = (op.writes field).or (lastWritten field ops) := by
  unfold lastWritten
  rw [List.filterMap_append]
  cases hop : op.writes field with
  | none => simp [hop]
  | some b => simp [hop]

/-- The field an operation writes. -/
def Operation.field : Operation → String
  | .updateCheckList _ => "isCheckList"
  | .updateShowCompl _ => "showCompleted"
  | .updateNotif _ => "isCheckList"
  | .addMoney _ => "money"
  | .addMarLives _ => "marlives"

/-- An operation leaves the fields it does not write. -/
theorem apply_of_ne {op : Operation} {field : String} (h : field ≠ op.field) :
    op.apply doc field = doc field := by
  cases op <;> exact doc.update_of_ne h _

/-- No operation writes what `getAllowNotif` reads. -/
theorem after_allowNotif (doc : Document) (ops : List Operation) :
    after doc ops "allowNotif" = doc "allowNotif" := by
  induction ops using List.reverseRecOn with
  | nil => rfl
  | append_singleton ops op ih =>
      have hne : "allowNotif" ≠ op.field := by cases op <;> simp [Operation.field]
      rw [after_append, apply_of_ne hne, ih]

theorem getFlag_eq_ok_iff {field : String} {b : Bool} :
    getFlag field (some doc) = .ok b ↔ doc field = some (.bool b) := by
  simp only [getFlag]
  cases doc field with
  | none => simp
  | some value => cases value <;> simp

/-- A getter sees its field only. -/
theorem getFlag_congr {doc' : Document} {field : String} (h : doc field = doc' field) :
    getFlag field (some doc) = getFlag field (some doc') := by
  simp only [getFlag, h]

/-- An operation does to a field what that field's reader counts on: it sets it
where it is its updater, and leaves it otherwise. -/
def Serves (field : String) (doc : Document) (op : Operation) : Prop :=
  op.apply doc field = match op.writes field with
    | some b => some (.bool b)
    | none => doc field

/-- Where every operation serves a field, its getter is right after each of them. -/
theorem reads_of_serves {field : String}
    (h : ∀ pre op, pre ++ [op] <+: ops → Serves field (after doc pre) op) :
    Reads (getFlag field) doc ops field := by
  have hfield : after doc ops field = match lastWritten field ops with
      | some b => some (.bool b)
      | none => doc field := by
    induction ops using List.reverseRecOn with
    | nil => rfl
    | append_singleton ops op ih =>
        have hprev := ih fun pre op' hpre => h pre op' (hpre.trans (List.prefix_append ops [op]))
        have hop := h ops op (List.prefix_refl _)
        rw [after_append, lastWritten_append, hop]
        cases op.writes field with
        | some b => rfl
        | none => exact hprev
  unfold Reads
  cases hlast : lastWritten field ops with
  | some b =>
      rw [hlast] at hfield
      exact getFlag_eq_ok_iff.mpr hfield
  | none =>
      rw [hlast] at hfield
      exact getFlag_congr hfield

/-- An updater of notifications that changes nothing: both settings have the
value it is called with. -/
def Unnoticed (doc : Document) (b : Bool) : Prop :=
  doc "isCheckList" = some (.bool b) ∧ doc "allowNotif" = some (.bool b)

theorem serves_of_ne {op : Operation} {field : String} (hwrites : op.writes field = none)
    (hne : field ≠ op.field) : Serves field doc op := by
  unfold Serves
  rw [hwrites]
  exact apply_of_ne hne

theorem serves_of_update {op : Operation} {field : String} {b : Bool}
    (hwrites : op.writes field = some b) (hupdate : op.apply doc = doc.update field (.bool b)) :
    Serves field doc op := by
  unfold Serves
  rw [hwrites, hupdate, Document.update_self]

/-- An updater that writes the field it is for changes no other. -/
theorem frames_of_update {op : Operation} {field : String} {b : Bool}
    (hset : op.setting = some (field, b)) (hfield : op.field = field) : Frames doc op := by
  intro field' b' hset' other hne
  rw [hset, Option.some.injEq, Prod.mk.injEq] at hset'
  exact apply_of_ne (by rwa [hfield, hset'.1])

theorem frames_of_none {op : Operation} (hset : op.setting = none) : Frames doc op := by
  intro field b hset'
  rw [hset] at hset'
  cases hset'

/-- An operation that is not a noticed `updateNotif` serves all three settings. -/
theorem serves_of_unnoticed {op : Operation} (h : ∀ b, op = .updateNotif b → Unnoticed doc b) :
    Serves "isCheckList" doc op ∧ Serves "showCompleted" doc op ∧ Serves "allowNotif" doc op
      ∧ Frames doc op := by
  cases op with
  | updateNotif b =>
      obtain ⟨hcheck, hallow⟩ := h b rfl
      -- it writes what is there already
      have hsame : (Operation.updateNotif b).apply doc = doc := by
        have hupdate := Function.update_eq_self "isCheckList" doc
        rwa [hcheck] at hupdate
      refine ⟨congrFun hsame _, congrFun hsame _, (congrFun hsame _).trans hallow, ?_⟩
      intro field b' hset other hne
      rw [hsame]
  | updateCheckList b =>
      refine ⟨serves_of_update rfl rfl, serves_of_ne rfl ?_, serves_of_ne rfl ?_,
        frames_of_update rfl rfl⟩
        <;> simp [Operation.field]
  | updateShowCompl b =>
      refine ⟨serves_of_ne rfl ?_, serves_of_update rfl rfl, serves_of_ne rfl ?_,
        frames_of_update rfl rfl⟩
        <;> simp [Operation.field]
  | addMoney amt =>
      refine ⟨serves_of_ne rfl ?_, serves_of_ne rfl ?_, serves_of_ne rfl ?_, frames_of_none rfl⟩
        <;> simp [Operation.field]
  | addMarLives marId =>
      refine ⟨serves_of_ne rfl ?_, serves_of_ne rfl ?_, serves_of_ne rfl ?_, frames_of_none rfl⟩
        <;> simp [Operation.field]

/-- An `updateNotif` that frames, and after which its getter is right, goes unnoticed. -/
theorem unnoticed_of_frames {pre : List Operation} {b : Bool}
    (hframes : Frames (after doc pre) (.updateNotif b))
    (hreads : Reads getAllowNotif doc (pre ++ [.updateNotif b]) "allowNotif") :
    Unnoticed (after doc pre) b := by
  constructor
  · have hcheck := hframes "allowNotif" b rfl "isCheckList" (by decide)
    have hwrite : (Operation.updateNotif b).apply (after doc pre)
        = (after doc pre).update "isCheckList" (.bool b) := rfl
    rw [← hcheck, hwrite, Document.update_self]
  · unfold Reads at hreads
    rw [lastWritten_append] at hreads
    have hallow := getFlag_eq_ok_iff.mp hreads
    rwa [after_allowNotif, ← after_allowNotif doc pre] at hallow

/-! ## Sequences -/

/-- **The settings are independent** in exactly the sequences whose calls of
`updateNotif` change nothing: each finds its value in both settings. -/
theorem independent_iff (doc : Document) (ops : List Operation) :
    Independent doc ops
      ↔ ∀ pre b, pre ++ [.updateNotif b] <+: ops → Unnoticed (after doc pre) b := by
  constructor
  · intro h pre b hpre
    exact unnoticed_of_frames (h.frames pre _ hpre) (h.allowNotif _ hpre)
  · intro h
    have hserves : ∀ pre op, pre ++ [op] <+: ops →
        Serves "isCheckList" (after doc pre) op ∧ Serves "showCompleted" (after doc pre) op
          ∧ Serves "allowNotif" (after doc pre) op ∧ Frames (after doc pre) op :=
      fun pre op hpre => serves_of_unnoticed fun b hop => h pre b (hop ▸ hpre)
    exact
      { checkList := fun pre hpre =>
          reads_of_serves fun pre' op hop => (hserves pre' op (hop.trans hpre)).1
        showCompl := fun pre hpre =>
          reads_of_serves fun pre' op hop => (hserves pre' op (hop.trans hpre)).2.1
        allowNotif := fun pre hpre =>
          reads_of_serves fun pre' op hop => (hserves pre' op (hop.trans hpre)).2.2.1
        frames := fun pre op hpre => (hserves pre op hpre).2.2.2 }

/-- A new account turns notifications off: they stay allowed, and the to-do list
is no longer the default page. -/
theorem not_always_independent :
    ¬ Independent (addUser "uid" "email" "username") [.updateNotif false]
      ∧ getAllowNotif (some (after (addUser "uid" "email" "username") [.updateNotif false]))
        = .ok true
      ∧ getisCheckList (some (after (addUser "uid" "email" "username") [.updateNotif false]))
        = .ok false := by
  refine ⟨fun h => ?_, rfl, rfl⟩
  have hframe := h.frames [] _ (List.prefix_refl _) "allowNotif" false rfl "isCheckList" (by decide)
  exact absurd hframe (by decide)

/-! ## The records of the other modules -/

/-- A document with these settings. -/
def Shows (doc : Document) (stored : Settings.Stored) : Prop :=
  doc "allowNotif" = some (.bool stored.allowNotif)
    ∧ doc "isCheckList" = some (.bool stored.isCheckList)

/-- A document with these coins and creatures. -/
def Holds (doc : Document) (user : UserDoc) : Prop :=
  doc "money" = some (.int user.money) ∧ doc "marlives" = user.marlives.map .list

/-- The settings screen's record and the shop's do what the document does. -/
theorem updates_refine {stored : Settings.Stored} {user : UserDoc} (hs : Shows doc stored)
    (hu : Holds doc user) :
    (∀ b, Shows (updateNotif b doc) (Settings.updateNotif b stored))
      ∧ (∀ amt, Holds (addMoney amt doc) (user.addMoney amt))
      ∧ ∀ marId, Holds (addMarLives marId doc) (user.addMarLives marId) := by
  obtain ⟨hmoney, hlives⟩ := hu
  refine ⟨fun b => ⟨?_, ?_⟩, fun amt => ⟨?_, ?_⟩, fun marId => ⟨?_, ?_⟩⟩
  · rw [updateNotif, Document.update_of_ne (by decide)]
    exact hs.1
  · exact Document.update_self ..
  · unfold addMoney
    rw [hmoney]
    exact Document.update_self ..
  · rw [addMoney, Document.update_of_ne (by decide)]
    exact hlives
  · rw [addMarLives, Document.update_of_ne (by decide)]
    exact hmoney
  · have hlist : getMarLivesList doc = user.getMarLivesList := by
      unfold getMarLivesList UserDoc.getMarLivesList
      rw [hlives]
      cases user.marlives <;> rfl
    unfold addMarLives
    rw [hlist]
    exact Document.update_self ..

end AquaFocus.UserFields
