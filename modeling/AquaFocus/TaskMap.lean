/-
`lib/model/app_task.dart`: tasks as maps of dynamic values, and as JSON.

`toMap` writes a task out and `fromMap` and `fromDS` read one back, each by string
keys. `date` and `time` are written as milliseconds and read as such.
`prevCompletionTime` is written as the `DateTime` it is and read as milliseconds,
so what `toMap` writes is read by neither reader and encoded by no JSON encoder
(`never_roundTrips`). The other fields come back as they were
(`fromMap_of_millis`).

The rest of the development reads documents as records (`TaskDoc`). A document's
map is read to the same task (`fromDS_toDynamic`).
-/
import AquaFocus.AppTask

set_option autoImplicit false

open Dart

namespace AquaFocus.TaskMap

/-! ## Dynamic values -/

inductive Value
  | null
  | bool (b : Bool)
  | int (n : ℤ)
  | string (s : String)
  | dateTime (t : DateTime)
deriving DecidableEq

/-- A `TypeError`, or the error of `json.encode`. -/
inductive Failure
  | typeError | unsupportedObject
deriving DecidableEq

/-- `Map<String, dynamic>`, in the order of its literal. -/
abbrev DynamicMap : Type := List (String × Value)

/-- `map[key]`. -/
def get (map : DynamicMap) (key : String) : Value := (map.lookup key).getD .null

namespace Value

/-- A string, or `null`. -/
def ofString? : Option String → Value
  | none => .null
  | some s => .string s

/-- An integer, or `null`. -/
def ofInt? : Option ℤ → Value
  | none => .null
  | some n => .int n

/-! A dynamic value where a value of some type is expected. -/

def asString : Value → Except Failure String
  | .string s => .ok s
  | _ => .error .typeError

def asString? : Value → Except Failure (Option String)
  | .null => .ok none
  | .string s => .ok (some s)
  | _ => .error .typeError

def asBool : Value → Except Failure Bool
  | .bool b => .ok b
  | _ => .error .typeError

def asInt : Value → Except Failure ℤ
  | .int n => .ok n
  | _ => .error .typeError

/-- `DateTime.fromMillisecondsSinceEpoch(value)`. -/
def asDate (value : Value) : Except Failure DateTime := value.asInt.map .ofMillis

/-- `value != null ? DateTime.fromMillisecondsSinceEpoch(value) : null`. -/
def asDate? : Value → Except Failure (Option DateTime)
  | .null => .ok none
  | value => value.asDate.map some

@[simp] theorem asString?_ofString? (s : Option String) : (ofString? s).asString? = .ok s := by
  cases s <;> rfl

@[simp] theorem asDate?_ofInt? (n : Option ℤ) : (ofInt? n).asDate? = .ok (n.map .ofMillis) := by
  cases n <;> rfl

end Value

/-! ## Tasks -/

/-- An `AppTask` with the texts it holds. -/
structure RawTask where
  title : String
  id : String
  description : Option String
  date : DateTime
  userId : Option String
  isCompleted : Bool
  hasTime : Bool
  time : Option DateTime
  repeats : String
  reminder : Option String
  tag : Option String
  streak : ℤ
  prevCompletionTime : DateTime
deriving DecidableEq

/-- `toMap`. -/
def toMap (task : RawTask) : DynamicMap :=
  [("title", .string task.title),
    ("id", .string task.id),
    ("description", .ofString? task.description),
    ("date", .int task.date.millisecondsSinceEpoch),
    ("userId", .ofString? task.userId),
    ("isCompleted", .bool task.isCompleted),
    ("hasTime", .bool task.hasTime),
    ("time", .ofInt? (task.time.map (·.millisecondsSinceEpoch))),
    ("repeat", .string task.repeats),
    ("reminder", .ofString? task.reminder),
    ("tag", .ofString? task.tag),
    ("streak", .int task.streak),
    ("prevCompletionTime", .dateTime task.prevCompletionTime)]

/-- What both readers do, once the id is known. -/
def read (id : String) (map : DynamicMap) : Except Failure RawTask := do
  let title ← (get map "title").asString
  let description ← (get map "description").asString?
  let date ← (get map "date").asDate
  let userId ← (get map "userId").asString?
  let isCompleted ← (get map "isCompleted").asBool
  let hasTime ← (get map "hasTime").asBool
  let time ← (get map "time").asDate?
  let repeats ← (get map "repeat").asString
  let reminder ← (get map "reminder").asString?
  let tag ← (get map "tag").asString?
  let streak ← (get map "streak").asInt
  let prevCompletionTime ← (get map "prevCompletionTime").asDate
  return {
    title := title
    id := id
    description := description
    date := date
    userId := userId
    isCompleted := isCompleted
    hasTime := hasTime
    time := time
    repeats := repeats
    reminder := reminder
    tag := tag
    streak := streak
    prevCompletionTime := prevCompletionTime }

/-- `fromMap`: the id is the map's own. -/
def fromMap (map : DynamicMap) : Except Failure RawTask := do
  let id ← (get map "id").asString
  read id map

/-- `fromDS`: the id is the document's. -/
def fromDS (id : String) (data : DynamicMap) : Except Failure RawTask := read id data

/-! ## JSON -/

/-- Whether JSON has a form for a value. -/
def Value.isJson : Value → Bool
  | .dateTime _ => false
  | _ => true

/-- What a JSON text says. -/
structure Json where
  object : DynamicMap
  isJson : ∀ e ∈ object, e.2.isJson = true

/-- `json.encode`. -/
def encode (map : DynamicMap) : Except Failure Json :=
  if h : ∀ e ∈ map, e.2.isJson = true then .ok ⟨map, h⟩ else .error .unsupportedObject

/-- `json.decode`. -/
def decode (source : Json) : DynamicMap := source.object

/-- `toJson`. -/
def toJson (task : RawTask) : Except Failure Json := encode (toMap task)

/-- `fromJson`. -/
def fromJson (source : Json) : Except Failure RawTask := fromMap (decode source)

/-! ## Writing and reading back -/

/-- A task comes back, whichever way it went. -/
structure RoundTrips (task : RawTask) : Prop where
  fromMap : TaskMap.fromMap (toMap task) = .ok task
  fromDS : TaskMap.fromDS task.id (toMap task) = .ok task
  fromJson : (toJson task).bind TaskMap.fromJson = .ok task

/-- The map of a task, with `completion` in its last field. -/
def fields (task : RawTask) (completion : Value) : DynamicMap :=
  (toMap task).dropLast ++ [("prevCompletionTime", completion)]

/-- The last field decides whether a map is read; the others come back, the dates
cut to milliseconds. -/
theorem read_fields (id : String) (task : RawTask) (completion : Value) :
    read id (fields task completion) = completion.asDate.map fun prevCompletionTime =>
      { task with
        id := id
        date := .ofMillis task.date.millisecondsSinceEpoch
        time := task.time.map fun t => .ofMillis t.millisecondsSinceEpoch
        prevCompletionTime := prevCompletionTime } := by
  -- the five fields that may be null
  have hdescription : (get (fields task completion) "description").asString?
      = .ok task.description := Value.asString?_ofString? task.description
  have huserId : (get (fields task completion) "userId").asString? = .ok task.userId :=
    Value.asString?_ofString? task.userId
  have hreminder : (get (fields task completion) "reminder").asString? = .ok task.reminder :=
    Value.asString?_ofString? task.reminder
  have htag : (get (fields task completion) "tag").asString? = .ok task.tag :=
    Value.asString?_ofString? task.tag
  have htime : (get (fields task completion) "time").asDate?
      = .ok (task.time.map fun t => .ofMillis t.millisecondsSinceEpoch) := by
    have hvalue : get (fields task completion) "time"
        = .ofInt? (task.time.map (·.millisecondsSinceEpoch)) := rfl
    rw [hvalue, Value.asDate?_ofInt?, Option.map_map]
    rfl
  unfold TaskMap.read
  rw [hdescription, huserId, hreminder, htag, htime]
  cases completion <;> rfl

/-- A map whose date of completion is a `DateTime` is not read. -/
theorem read_toMap (id : String) (task : RawTask) :
    read id (toMap task) = .error .typeError :=
  read_fields id task (.dateTime task.prevCompletionTime)

/-- Nor is it encoded. -/
theorem toJson_eq (task : RawTask) : toJson task = .error .unsupportedObject := by
  unfold toJson encode
  rw [dif_neg]
  intro h
  have hlast := h ("prevCompletionTime", .dateTime task.prevCompletionTime) (by simp [toMap])
  exact absurd hlast (by simp [Value.isJson])

/-- **No task round-trips**: both readers throw on what `toMap` writes, and the
encoder does. -/
theorem never_roundTrips (task : RawTask) :
    ¬ RoundTrips task ∧ fromMap (toMap task) = .error .typeError
      ∧ fromDS task.id (toMap task) = .error .typeError
      ∧ toJson task = .error .unsupportedObject := by
  have hmap : fromMap (toMap task) = .error .typeError := read_toMap task.id task
  refine ⟨fun h => ?_, hmap, read_toMap task.id task, toJson_eq task⟩
  have hread := h.fromMap
  rw [hmap] at hread
  cases hread

/-- `AppTask()`, where the local time is UTC. -/
def emptyTask : RawTask where
  title := ""
  id := ""
  description := none
  date := .ofMillis 0
  userId := none
  isCompleted := false
  hasTime := false
  time := none
  repeats := "never"
  reminder := none
  tag := none
  streak := 0
  prevCompletionTime := .ofMillis 0

/-- It is written out, and not read back. -/
theorem not_roundTrips : ¬ RoundTrips emptyTask := by
  intro h
  have hread := h.fromDS
  cases hread

/-- With the date of completion in milliseconds, as the other dates are, a task of
local dates of whole milliseconds comes back. -/
theorem fromMap_of_millis (task : RawTask)
    (hdate : .ofMillis task.date.millisecondsSinceEpoch = task.date)
    (htime : ∀ t, task.time = some t → .ofMillis t.millisecondsSinceEpoch = t)
    (hcompletion : .ofMillis task.prevCompletionTime.millisecondsSinceEpoch
      = task.prevCompletionTime) :
    fromMap (fields task (.int task.prevCompletionTime.millisecondsSinceEpoch)) = .ok task := by
  have htime' : (task.time.map fun t => DateTime.ofMillis t.millisecondsSinceEpoch)
      = task.time := by
    cases ht : task.time with
    | none => rfl
    | some t => exact congrArg some (htime t ht)
  refine (read_fields task.id task _).trans ?_
  simp only [Value.asDate, Value.asInt, Except.map, hdate, htime', hcompletion]

/-! ## Documents as records

A `TaskDoc` stands for a map with these values. -/

/-- What the map holds of a repeat setting. -/
def repeatValue : Repeat → String
  | .never => "never"
  | .daily => "daily"
  | .weekdays => "weekdays"
  | .weekends => "weekends"
  | .weekly => "weekly"
  | .monthly => "monthly"

/-- What the map holds of a reminder setting. -/
def reminderValue : Reminder → String
  | .never => "never"
  | .ontime => "ontime"
  | .m5 => "5min"
  | .m10 => "10min"
  | .m15 => "15min"

/-- A task, with the texts of its settings. -/
def raw (task : AppTask) : RawTask where
  title := task.title
  id := task.id
  description := task.description
  date := task.date
  userId := task.userId
  isCompleted := task.isCompleted
  hasTime := task.hasTime
  time := task.time
  repeats := repeatValue task.repeats
  reminder := task.reminder.map reminderValue
  tag := task.tag
  streak := task.streak
  prevCompletionTime := task.prevCompletionTime

/-- The map a document holds. -/
def toDynamic (d : TaskDoc) : DynamicMap :=
  [("title", .string d.title),
    ("id", .string d.id),
    ("description", .ofString? d.description),
    ("date", .int d.date),
    ("userId", .ofString? d.userId),
    ("isCompleted", .bool d.isCompleted),
    ("hasTime", .bool d.hasTime),
    ("time", .ofInt? d.time),
    ("repeat", .string (repeatValue d.repeats)),
    ("reminder", .ofString? (d.reminder.map reminderValue)),
    ("tag", .ofString? d.tag),
    ("streak", .int d.streak),
    ("prevCompletionTime", .int d.prevCompletionTime)]

/-- Reading the map gives the task that is read from the record. -/
theorem fromDS_toDynamic (id : String) (d : TaskDoc) :
    fromDS id (toDynamic d) = .ok (raw (.fromDS id d)) := by
  have hfields : toDynamic d = fields (raw (.fromMap d)) (.int d.prevCompletionTime) := by
    simp only [fields, toMap, raw, AppTask.fromMap, AppTask.read, Option.map_map,
      DateTime.millisecondsSinceEpoch_ofMillis, Function.comp_def, Option.map_id']
    rfl
  rw [hfields]
  refine (read_fields id (raw (.fromMap d)) _).trans ?_
  simp only [Value.asDate, Value.asInt, Except.map, raw, AppTask.fromMap, AppTask.fromDS,
    AppTask.read, DateTime.millisecondsSinceEpoch_ofMillis, Option.map_map, Function.comp_def]

theorem fromMap_toDynamic (d : TaskDoc) : fromMap (toDynamic d) = .ok (raw (.fromMap d)) :=
  fromDS_toDynamic d.id d

end AquaFocus.TaskMap
