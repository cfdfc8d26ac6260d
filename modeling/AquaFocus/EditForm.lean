/-
The form of `lib/screens/Tasks/add_task.dart`, from the page that opens to the
document its Save leaves.

The same page makes a task and edits one: `initState` and the initial values of
the fields read the task it is given, and Save (`AddTask.lean`) turns the fields
back into a map. The time and its reminder are two fields that are on the page
while the switch is on. What they hold when they come back is up to the form
package, so `switchTime` takes it as an argument, and so is what its `required`
asks of a text that is there.

A task that is stored reads the way the form that was saved did
(`save_reopen`): its fields hold what the form held, to the millisecond the store
keeps, and show the same days and minutes, unless the date came as a UTC midnight
of the calendar (`Calendar.lean`). A form that is saved holding what it was opened
with stores the task that was there, so that in any run such visits leave no
trace in the account (`visits_invisible`).
-/
import AquaFocus.Balance
import AquaFocus.NullChecks
import AquaFocus.PendingReminders
import AquaFocus.TagFrame

set_option autoImplicit false

open Dart Calls Runs

namespace AquaFocus.EditForm

/-! ## The page -/

/-- The fields of the form, the state of the page, and the tags it has loaded. -/
structure Form where
  title : Option String
  description : Option String
  date : Option DateTime
  hasTime : Bool
  isTimeSetted : Bool
  time : Option DateTime
  reminder : Reminder
  repeats : Repeat
  tag : Option String
  tags : List Tags

/-- `initState`, and the initial values `build` gives the fields. -/
def initState (selectedDate : Option DateTime) (task : Option AppTask) (tags : List Tags)
    (now : DateTime) : Form where
  title := task.map (·.title)
  description := task.bind (·.description)
  -- the lists pass the task's own date, and a new task that of the list
  date := some (selectedDate.getD now)
  hasTime := (task.map (·.hasTime)).getD false
  isTimeSetted := (task.map (·.hasTime)).getD false
  -- for a task without a time these two are not on the page yet
  time := some ((task.bind (·.time)).getD now)
  reminder := (task.bind (·.reminder)).getD .never
  repeats := (task.map (·.repeats)).getD .never
  tag := task.bind (·.tag)
  tags := tags

inductive Edit
  | title (value : Option String)
  | description (value : Option String)
  | date (value : Option DateTime)
  /-- the switch; the two fields come back with a time and a reminder -/
  | switchTime (time : Option DateTime) (reminder : Reminder)
  | time (value : Option DateTime)
  | reminder (value : Reminder)
  | repeats (value : Repeat)
  | tag (choice : Option String)
  /-- Done, in the dialog of a new tag -/
  | newTag (tag : Tags)

/-- One edit. The fields of a time can be touched while they are on the page, and
a chip while it is offered. -/
def Form.step (form : Form) : Edit → Option Form
  | .title value => some { form with title := value }
  | .description value => some { form with description := value }
  | .date value => some { form with date := value }
  | .switchTime time reminder =>
      some { form with
        hasTime := !form.hasTime
        isTimeSetted := !form.isTimeSetted
        time := time
        reminder := reminder }
  | .time value => if form.isTimeSetted then some { form with time := value } else none
  | .reminder value => if form.isTimeSetted then some { form with reminder := value } else none
  | .repeats value => some { form with repeats := value }
  | .tag choice => if Tags.offers form.tags choice then some { form with tag := choice } else none
  | .newTag tag =>
      match TagFrame.validator form.tags (some tag.title) with
      | some _ => none
      | none => some { form with tags := form.tags ++ [tag], tag := some tag.title }

/-- What the form hands to Save, once `validate` has let it through. -/
def Form.value (required : String → Bool) (form : Form) : Option TaskForm :=
  match form.title, form.date with
  | some title, some date =>
      if required title then
        some {
          title := title
          description := form.description
          date := date
          hasTime := form.hasTime
          time := form.time
          repeats := form.repeats
          reminder := form.reminder
          tag := form.tag }
      else none
  | _, _ => none

/-- The Save button. -/
def Form.save (required : String → Bool) (z : Zone) (c : Clock) (uid uuid docId : String)
    (task : Option AppTask) (form : Form) : List Call :=
  match form.value required with
  | none => []
  | some value => AquaFocus.save z c uid uuid docId task value

/-- What the fields on the page hold, to the millisecond the store keeps. -/
structure Values where
  title : Option String
  description : Option String
  date : Option ℤ
  hasTime : Bool
  time : Option (Option ℤ × Reminder)
  repeats : Repeat
  tag : Option String
deriving DecidableEq

def Form.values (form : Form) : Values where
  title := form.title
  description := form.description
  date := form.date.map (·.millisecondsSinceEpoch)
  hasTime := form.hasTime
  time :=
    if form.isTimeSetted then some (form.time.map (·.millisecondsSinceEpoch), form.reminder)
    else none
  repeats := form.repeats
  tag := form.tag

/-- What the page shows: of the date the calendar day, and of the time the hour
and the minute. -/
structure View where
  title : Option String
  description : Option String
  date : Option ℤ
  hasTime : Bool
  time : Option (Option (ℤ × ℤ) × Reminder)
  repeats : Repeat
  tag : Option String
deriving DecidableEq

def Form.view (z : Zone) (form : Form) : View where
  title := form.title
  description := form.description
  date := form.date.map (·.epochDay z)
  hasTime := form.hasTime
  time :=
    if form.isTimeSetted then
      some (form.time.map fun time => (time.hour z, time.minute z), form.reminder)
    else none
  repeats := form.repeats
  tag := form.tag

/-- The date, and a time that is on the page, show the same when they are cut to
milliseconds. -/
structure Form.Lasting (form : Form) : Prop where
  date : ∀ date, form.date = some date → date.Lasting
  time : form.isTimeSetted = true → ∀ time, form.time = some time → time.Lasting

/-- What values show when they are read back. -/
def Values.view (z : Zone) (values : Values) : View where
  title := values.title
  description := values.description
  date := values.date.map fun ms => (DateTime.ofMillis ms).epochDay z
  hasTime := values.hasTime
  time := values.time.map fun (time, reminder) =>
    (time.map fun ms => ((DateTime.ofMillis ms).hour z, (DateTime.ofMillis ms).minute z), reminder)
  repeats := values.repeats
  tag := values.tag

/-- The time is switched on, and cleared. -/
def Form.Cleared (form : Form) : Prop := form.hasTime = true ∧ form.time = none

/-! ## Edits -/

/-- What the edits keep: the switch says whether the fields of a time are there,
and the tag is the one the task came with, or a chip. -/
structure Form.Inv (own : Option String) (form : Form) : Prop where
  isTimeSetted : form.isTimeSetted = form.hasTime
  tag : form.tag = own ∨ Tags.offers form.tags form.tag = true

theorem inv_initState (selectedDate : Option DateTime) (task : Option AppTask) (tags : List Tags)
    (now : DateTime) : (initState selectedDate task tags now).Inv (task.bind (·.tag)) where
  isTimeSetted := rfl
  tag := .inl rfl

variable {own : Option String} {form form' : Form}

theorem Form.Inv.step {e : Edit} (h : form.Inv own) (hstep : form.step e = some form') :
    form'.Inv own := by
  cases e with
  | switchTime time reminder =>
      rw [← Option.some.inj hstep]
      exact ⟨congrArg not h.isTimeSetted, h.tag⟩
  | time value =>
      obtain ⟨-, hform⟩ := Option.ite_none_right_eq_some.mp hstep
      rw [← Option.some.inj hform]
      exact ⟨h.isTimeSetted, h.tag⟩
  | reminder value =>
      obtain ⟨-, hform⟩ := Option.ite_none_right_eq_some.mp hstep
      rw [← Option.some.inj hform]
      exact ⟨h.isTimeSetted, h.tag⟩
  | tag choice =>
      obtain ⟨hoffered, hform⟩ := Option.ite_none_right_eq_some.mp hstep
      rw [← Option.some.inj hform]
      exact ⟨h.isTimeSetted, .inr hoffered⟩
  | newTag tag =>
      simp only [Form.step] at hstep
      split at hstep
      · exact absurd hstep (by simp)
      · rw [← Option.some.inj hstep]
        refine ⟨h.isTimeSetted, .inr (Tags.offers_iff.mpr fun title htitle => ?_)⟩
        rw [← Option.some.inj htitle]
        exact Tags.dupTags_iff.mpr ⟨tag, List.mem_append_right _ (List.mem_singleton.mpr rfl), rfl⟩
  | title | description | date | repeats =>
      rw [← Option.some.inj hstep]
      exact ⟨h.isTimeSetted, h.tag⟩

/-- The edits of a page, one after the other. -/
theorem inv_of_edits {selectedDate : Option DateTime} {task : Option AppTask} {tags : List Tags}
    {now : DateTime} {edits : List Edit}
    (h : run Form.step (initState selectedDate task tags now) edits = some form) :
    form.Inv (task.bind (·.tag)) :=
  run_invariant _ (fun _ _ _ hform hstep => hform.step hstep) (inv_initState ..) h

/-! ## Save

A document and the map Save builds hold the values of a page as well: `docValues`
and `dataValues`. -/

def docValues (d : TaskDoc) : Values where
  title := some d.title
  description := d.description
  date := some d.date
  hasTime := d.hasTime
  time := if d.hasTime then some (d.time, d.reminder.getD .never) else none
  repeats := d.repeats
  tag := d.tag

def dataValues (data : FormData) : Values where
  title := some data.title
  description := data.description
  date := some data.date
  hasTime := data.hasTime
  time := if data.hasTime then some (data.time, data.reminder) else none
  repeats := data.repeats
  tag := data.tag

theorem docValues_newTask (z : Zone) (uid uuid : String) (data : FormData) :
    docValues (newTask z uid uuid data) = dataValues data := rfl

theorem docValues_form (data : FormData) (d : TaskDoc) :
    docValues ((TaskUpdate.form data).apply d) = dataValues data := rfl

/-- A task with a time shows its own, and not the present. -/
theorem initState_values {id : String} {d : TaskDoc} (hd : d.WellFormed) (tags : List Tags)
    (now : DateTime) :
    (initState (some (.ofMillis d.date)) (some (.fromDS id d)) tags now).values = docValues d := by
  have hdate : (DateTime.ofMillis d.date).millisecondsSinceEpoch = d.date :=
    DateTime.millisecondsSinceEpoch_ofMillis d.date
  unfold Form.values docValues initState
  -- with the switch on there is a time to show
  by_cases ht : d.hasTime = true
  · obtain ⟨time, htime⟩ := Option.isSome_iff_exists.mp (hd.time_isSome ht)
    have hms : (DateTime.ofMillis time).millisecondsSinceEpoch = time :=
      DateTime.millisecondsSinceEpoch_ofMillis time
    simp [ht, htime, hdate, hms, AppTask.fromDS, AppTask.read]
  · simp [ht, hdate, AppTask.fromDS, AppTask.read]

/-- What lasts is shown as it is held. -/
theorem Form.Lasting.view_eq {z : Zone} (h : form.Lasting) (hz : z.ByMillis) :
    form.view z = form.values.view z := by
  have hdate : form.date.map (·.epochDay z)
      = (form.date.map (·.millisecondsSinceEpoch)).map fun ms =>
          (DateTime.ofMillis ms).epochDay z := by
    rw [Option.map_map]
    exact Option.map_congr fun date hd => ((h.date date hd).epochDay hz).symm
  have htime : form.isTimeSetted = true →
      (form.time.map fun time => (time.hour z, time.minute z))
        = (form.time.map (·.millisecondsSinceEpoch)).map fun ms =>
          ((DateTime.ofMillis ms).hour z, (DateTime.ofMillis ms).minute z) := by
    intro hset
    rw [Option.map_map]
    refine Option.map_congr fun time ht => ?_
    have hlast := h.time hset time ht
    exact (Prod.ext (hlast.hour hz) (hlast.minute hz)).symm
  unfold Form.view Values.view Form.values
  rw [hdate]
  by_cases hset : form.isTimeSetted = true
  · simp only [if_pos hset, htime hset, Option.map_some]
  · simp only [if_neg hset, Option.map_none]

/-- The store knows whole milliseconds only. -/
theorem lasting_reopened {id : String} {d : TaskDoc} (hd : d.WellFormed) (tags : List Tags)
    (now : DateTime) :
    (initState (some (.ofMillis d.date)) (some (.fromDS id d)) tags now).Lasting where
  date date hdate := by
    rw [← Option.some.inj hdate]
    exact DateTime.lasting_ofMillis d.date
  time hset time htime := by
    obtain ⟨ms, hms⟩ := Option.isSome_iff_exists.mp (hd.time_isSome hset)
    have hread : (AppTask.fromDS id d).time = some (.ofMillis ms) := by
      rw [AppTask.fromDS, AppTask.read, hms, Option.map_some]
    have hstored : (AppTask.fromDS id d).time.getD now = time := Option.some.inj htime
    rw [← hstored, hread]
    exact DateTime.lasting_ofMillis ms

/-- A page that holds what a form held shows what it showed. -/
theorem view_reopened {z : Zone} (hz : z.ByMillis) {id : String} {d : TaskDoc}
    (hd : d.WellFormed) (hform : form.Lasting) {tags : List Tags} {now : DateTime}
    (h : (initState (some (.ofMillis d.date)) (some (.fromDS id d)) tags now).values
      = form.values) :
    (initState (some (.ofMillis d.date)) (some (.fromDS id d)) tags now).view z = form.view z := by
  rw [(lasting_reopened hd tags now).view_eq hz, h, hform.view_eq hz]

theorem dataValues_toData {value : TaskForm} {data : FormData} (h : value.toData = .ok data) :
    dataValues data = {
      title := some value.title
      description := value.description
      date := some value.date.millisecondsSinceEpoch
      hasTime := value.hasTime
      time :=
        if value.hasTime then
          some (value.time.map (·.millisecondsSinceEpoch), value.reminder)
        else none
      repeats := value.repeats
      tag := value.tag } := by
  unfold TaskForm.toData at h
  by_cases ht : value.hasTime = true
  · rw [if_pos ht] at h
    cases htime : value.time with
    | none =>
        rw [htime] at h
        exact absurd h (by simp)
    | some time =>
        rw [htime] at h
        rw [← Except.ok.inj h]
        simp [dataValues, ht]
  · rw [if_neg ht] at h
    rw [← Except.ok.inj h]
    simp [dataValues, ht]

theorem toData_eq_error_iff {value : TaskForm} :
    value.toData = .error .typeError ↔ value.hasTime = true ∧ value.time = none := by
  unfold TaskForm.toData
  by_cases ht : value.hasTime = true
  · rw [if_pos ht]
    cases htime : value.time <;> simp [ht]
  · rw [if_neg ht]
    simp [ht]

theorem toData_error {value : TaskForm} {fault : Fault} (h : value.toData = .error fault) :
    fault = .typeError := by
  unfold TaskForm.toData at h
  split at h
  · split at h
    · exact (Except.error.inj h).symm
    · exact absurd h (by simp)
  · exact absurd h (by simp)

/-- The fields of a valid form, one by one. -/
theorem of_value {required : String → Bool} {value : TaskForm}
    (h : form.value required = some value) :
    form.title = some value.title ∧ form.date = some value.date
      ∧ value = {
        title := value.title
        description := form.description
        date := value.date
        hasTime := form.hasTime
        time := form.time
        repeats := form.repeats
        reminder := form.reminder
        tag := form.tag } := by
  unfold Form.value at h
  split at h
  · next title date htitle hdate =>
    obtain ⟨-, hvalue⟩ := Option.ite_none_right_eq_some.mp h
    rw [← Option.some.inj hvalue]
    exact ⟨htitle, hdate, rfl⟩
  · exact absurd h (by simp)

variable {required : String → Bool} {z : Zone} {c : Clock} {uid uuid docId : String}
  {task : Option AppTask}

/-- The calls a form that is saved makes. -/
def saved (z : Zone) (c : Clock) (uid uuid docId : String) (task : Option AppTask)
    (data : FormData) : List Call :=
  match task with
  | none => createTask z c docId (newTask z uid uuid data)
  | some task => editTask z c task data

/-- **What Save does**: nothing with a form that is not valid, it throws on a time
that is cleared, and otherwise stores what the page holds. -/
theorem save_cases (required : String → Bool) (z : Zone) (c : Clock) (uid uuid docId : String)
    (task : Option AppTask) (h : form.isTimeSetted = form.hasTime) :
    (form.value required = none ∧ form.save required z c uid uuid docId task = [])
      ∨ ((form.value required).isSome = true ∧ form.Cleared
        ∧ form.save required z c uid uuid docId task = [.throws .typeError])
      ∨ ((form.value required).isSome = true ∧ ¬ form.Cleared ∧ ∃ data,
        dataValues data = form.values
          ∧ form.save required z c uid uuid docId task = saved z c uid uuid docId task data) := by
  unfold Form.save
  cases hvalue : form.value required with
  | none => exact .inl ⟨rfl, rfl⟩
  | some value =>
      obtain ⟨htitle, hdate, hfields⟩ := of_value hvalue
      have hcleared : form.Cleared ↔ value.toData = .error .typeError := by
        rw [toData_eq_error_iff, hfields, Form.Cleared]
      simp only [AquaFocus.save]
      cases hdata : value.toData with
      | error fault =>
          obtain rfl := toData_error hdata
          exact .inr (.inl ⟨rfl, hcleared.mpr hdata, rfl⟩)
      | ok data =>
          have hnot : ¬ form.Cleared := fun hc => by
            rw [hcleared, hdata] at hc
            exact absurd hc (by simp)
          refine .inr (.inr ⟨rfl, hnot, data, ?_, rfl⟩)
          rw [dataValues_toData hdata, Form.values, h, htitle, hdate, hfields]
          rfl

section Reopened

variable {κ : Type} [DecidableEq κ] {w : World κ}

/-- The task a page is opened for: the one stored under this id, if there is one. -/
def stored (w : World κ) (docId : String) : Option AppTask :=
  (w.tasks docId).map (.fromDS docId)

/-- A stored form, and what it keeps of the task that was there. -/
structure Stores (z : Zone) (before after : World κ) (docId : String) (form : Form)
    (d : TaskDoc) : Prop where
  tasks : after.tasks = Function.update before.tasks docId (some d)
  money : after.money = before.money
  /-- the page of the task holds what the form held -/
  values : ∀ (tags : List Tags) (now : DateTime),
    (initState (some (.ofMillis d.date)) (some (.fromDS docId d)) tags now).values = form.values
  /-- and shows what it showed, if that lasts -/
  reopened : z.ByMillis → form.Lasting → ∀ (tags : List Tags) (now : DateTime),
    (initState (some (.ofMillis d.date)) (some (.fromDS docId d)) tags now).view z = form.view z
  tag : Tags.offers form.tags d.tag = true ∨ ∃ d', before.tasks docId = some d' ∧ d.tag = d'.tag
  kept : ∀ d', before.tasks docId = some d' →
    d.id = d'.id ∧ d.userId = d'.userId ∧ d.isCompleted = d'.isCompleted
      ∧ d.streak = d'.streak ∧ d.prevCompletionTime = d'.prevCompletionTime
  /-- a new task is open, and its streak is zero -/
  fresh : before.tasks docId = none → d.isCompleted = false ∧ d.streak = 0

omit [DecidableEq κ] in
/-- The tag a form shows is the tag of the map. -/
theorem Form.Inv.tag_of_data {data : FormData} (h : form.Inv ((stored w docId).bind (·.tag)))
    (hvalues : dataValues data = form.values) :
    Tags.offers form.tags data.tag = true
      ∨ ∃ d, w.tasks docId = some d ∧ data.tag = d.tag := by
  have htag : data.tag = form.tag := congrArg Values.tag hvalues
  rw [htag]
  rcases h.tag with hown | hoffered
  · cases hd : w.tasks docId with
    | none =>
        refine .inl (Tags.offers_iff.mpr fun title htitle => ?_)
        rw [hown, stored, hd] at htitle
        exact absurd htitle (by simp)
    | some d =>
        refine .inr ⟨d, rfl, ?_⟩
        rw [hown, stored, hd]
        rfl
  · exact .inl hoffered

theorem stores_createTask (key : AppTask → κ) (uid uuid : String) (hd : w.tasks docId = none)
    {data : FormData} (hinv : form.Inv ((stored w docId).bind (·.tag)))
    (hvalues : dataValues data = form.values) :
    ∃ w', perform (exec key z c) (createTask z c docId (newTask z uid uuid data)) w = (w', none)
      ∧ Stores z w w' docId form (newTask z uid uuid data) := by
  have hwf : (newTask z uid uuid data).WellFormed := newTask_wellFormed z uid uuid data
  have hreads : ∀ tags now, (initState (some (.ofMillis (newTask z uid uuid data).date))
      (some (.fromDS docId (newTask z uid uuid data))) tags now).values = form.values := by
    intro tags now
    rw [initState_values hwf, docValues_newTask, hvalues]
  refine ⟨_, createTask_spec key docId hwf, rfl, rfl, hreads, ?_, ?_, ?_, ?_⟩
  · exact fun hz hlast tags now => view_reopened hz hwf hlast (hreads tags now)
  · exact hinv.tag_of_data hvalues
  · intro d' hd'
    rw [hd] at hd'
    exact absurd hd' (by simp)
  · exact fun _ => ⟨rfl, rfl⟩

theorem stores_editTask (key : AppTask → κ) {d : TaskDoc} (hd : w.tasks docId = some d)
    (hwf : d.WellFormed) {data : FormData} (hinv : form.Inv ((stored w docId).bind (·.tag)))
    (hvalues : dataValues data = form.values) :
    ∃ w', perform (exec key z c) (editTask z c (.fromDS docId d) data) w = (w', none)
      ∧ Stores z w w' docId form ((TaskUpdate.form data).apply d) := by
  obtain ⟨w', hp, htasks, hmoney, -⟩ :=
    editTask_spec (z := z) (c := c) key (show w.tasks (AppTask.fromDS docId d).id = some d from hd)
      hwf (hwf.read docId) data
  have hreads : ∀ tags now, (initState (some (.ofMillis ((TaskUpdate.form data).apply d).date))
      (some (.fromDS docId ((TaskUpdate.form data).apply d))) tags now).values = form.values := by
    intro tags now
    rw [initState_values (hwf.form data), docValues_form, hvalues]
  refine ⟨w', hp, htasks, hmoney, hreads, ?_, ?_, ?_, ?_⟩
  · exact fun hz hlast tags now => view_reopened hz (hwf.form data) hlast (hreads tags now)
  · exact hinv.tag_of_data hvalues
  · intro d' hd'
    rw [hd, Option.some.injEq] at hd'
    rw [← hd']
    exact ⟨rfl, rfl, rfl, rfl, rfl⟩
  · intro hnone
    rw [hd] at hnone
    exact absurd hnone (by simp)

/-- **A stored task reads as its form did.** After any edits of the page of a new
task or of a stored one, Save does nothing with a form that is not valid, throws
before it writes when the time is on and cleared, and otherwise stores a task
whose page holds what the form held, and shows what it showed if that lasts. -/
theorem save_reopen (required : String → Bool) (key : AppTask → κ) (z : Zone) (c : Clock)
    (uid uuid docId : String) (hw : w.WellFormed) {selectedDate : Option DateTime}
    {tags : List Tags} {now : DateTime} {edits : List Edit}
    (h : run Form.step (initState selectedDate (stored w docId) tags now) edits = some form) :
    let result := perform (exec key z c)
      (form.save required z c uid uuid docId (stored w docId)) w
    (form.value required = none → result = (w, none))
      ∧ ((form.value required).isSome → form.Cleared → result = (w, some .typeError))
      ∧ ((form.value required).isSome → ¬ form.Cleared →
        ∃ w' d, result = (w', none) ∧ Stores z w w' docId form d) := by
  intro result
  have hinv : form.Inv ((stored w docId).bind (·.tag)) := inv_of_edits h
  rcases save_cases required z c uid uuid docId (stored w docId) hinv.isTimeSetted with
    ⟨hnone, hcalls⟩ | ⟨hsome, hcleared, hcalls⟩ | ⟨hsome, hkept, data, hvalues, hcalls⟩
  · have hresult : result = (w, none) := by simp only [result, hcalls, perform]
    refine ⟨fun _ => hresult, fun hsome => ?_, fun hsome => ?_⟩
    · rw [hnone] at hsome
      exact absurd hsome (by simp)
    · rw [hnone] at hsome
      exact absurd hsome (by simp)
  · have hresult : result = (w, some .typeError) := by simp only [result, hcalls, perform, exec]
    refine ⟨fun hnone => ?_, fun _ _ => hresult, fun _ hnot => absurd hcleared hnot⟩
    rw [hnone] at hsome
    exact absurd hsome (by simp)
  · refine ⟨fun hnone => ?_, fun _ hcleared => absurd hcleared hkept, fun _ _ => ?_⟩
    · rw [hnone] at hsome
      exact absurd hsome (by simp)
    · simp only [result, hcalls]
      cases hd : w.tasks docId with
      | none =>
          obtain ⟨w', hp, hstores⟩ := stores_createTask (z := z) (c := c) key uid uuid hd
            hinv hvalues
          refine ⟨w', _, ?_, hstores⟩
          rw [stored, hd]
          exact hp
      | some d =>
          obtain ⟨w', hp, hstores⟩ :=
            stores_editTask (z := z) (c := c) key hd (hw docId d hd) hinv hvalues
          refine ⟨w', _, ?_, hstores⟩
          rw [stored, hd]
          exact hp

end Reopened

/-- A new page, given a title and a time with a reminder. -/
def swimForm : Form where
  title := some "Swim"
  description := none
  date := some (.ofMillis 1654041600000)
  hasTime := true
  isTimeSetted := true
  time := some (.ofMillis 1654092000000)
  reminder := .ontime
  repeats := .never
  tag := none
  tags := []

theorem save_reopen_swim : ∃ w' d,
    perform (exec AppTask.id utc (noonOfJune 1))
        (swimForm.save (· ≠ "") utc (noonOfJune 1) "uid" "uuid" "doc" none)
        (World.empty (κ := String)) = (w', none)
      ∧ Stores utc (World.empty (κ := String)) w' "doc" swimForm d := by
  have hempty : (World.empty (κ := String)).WellFormed :=
    fun _ _ h => absurd h (by simp [World.empty])
  have hrun : run Form.step (initState (some (.ofMillis 1654041600000))
      (stored (World.empty (κ := String)) "doc") [] (.ofMillis 1654041600000))
      [.title (some "Swim"), .switchTime (some (.ofMillis 1654092000000)) .never,
        .reminder .ontime] = some swimForm := rfl
  exact (save_reopen (fun title => title ≠ "") AppTask.id utc (noonOfJune 1) "uid" "uuid" "doc"
    hempty hrun).2.2 rfl (fun h => absurd h.2 (by simp [swimForm]))

/-- A day of the calendar is a UTC midnight, which is read back as the evening
before where clocks are behind. -/
example :
    let form := { swimForm with date := some (.utcDay 19158) }
    ((form.view (.fixed ⟨-18000, by decide, by decide⟩)).date,
        (form.values.view (.fixed ⟨-18000, by decide, by decide⟩)).date)
      = (some 19158, some 19157) := by decide

/-! ## Visits

A page that is opened and saved with what its fields held at first, whatever was
done to it in between. A day that is picked again comes as its midnight, so the
date then holds something else, although it shows the same. -/

/-- What the store knows of a task whose page holds it as it is. -/
structure Settled (d : TaskDoc) : Prop where
  wellFormed : d.WellFormed
  timed : NullChecks.Timed d
  reminder : d.reminder.isSome = true

theorem settled_newTask (z : Zone) (uid uuid : String) (data : FormData) :
    Settled (newTask z uid uuid data) where
  wellFormed := newTask_wellFormed z uid uuid data
  timed := NullChecks.newTask_timed z uid uuid data
  reminder := rfl

theorem Settled.doc {id : String} {d d' : TaskDoc} {next : Option DateTime} {op : TaskOp}
    (h : Settled d) (hdoc : op.doc z c (.fromDS id d) d next = some d') : Settled d' where
  wellFormed := op.doc_wellFormed z c (h.wellFormed.read id) h.wellFormed hdoc
  timed := h.timed.doc hdoc
  reminder := by
    cases op with
    | edit data =>
        rw [← Option.some.inj hdoc]
        rfl
    | complete =>
        rw [← Option.some.inj hdoc, docAfter_reminder]
        exact h.reminder
    | delete => exact absurd hdoc (by simp [TaskOp.doc])
    | deleteFromDetails =>
        rw [← Option.some.inj hdoc]
        exact h.reminder

/-- The map of what a task holds changes nothing of it. -/
theorem Settled.form_eq {d : TaskDoc} (h : Settled d) {data : FormData}
    (hvalues : dataValues data = docValues d) : (TaskUpdate.form data).apply d = d := by
  obtain ⟨r, hr⟩ := Option.isSome_iff_exists.mp h.reminder
  have htitle : data.title = d.title := Option.some.inj (congrArg Values.title hvalues)
  have hdescription : data.description = d.description := congrArg Values.description hvalues
  have hdate : data.date = d.date := Option.some.inj (congrArg Values.date hvalues)
  have hhasTime : data.hasTime = d.hasTime := congrArg Values.hasTime hvalues
  have hrepeats : data.repeats = d.repeats := congrArg Values.repeats hvalues
  have htag : data.tag = d.tag := congrArg Values.tag hvalues
  have hpair := congrArg Values.time hvalues
  -- with a time the page holds it and its reminder, without one there are none
  have htime : data.time = d.time ∧ some data.reminder = d.reminder := by
    simp only [dataValues, docValues, hhasTime] at hpair
    by_cases ht : d.hasTime = true
    · rw [if_pos ht, if_pos ht, Option.some.injEq, Prod.mk.injEq] at hpair
      refine ⟨hpair.1, ?_⟩
      rw [hpair.2, hr]
      rfl
    · have hdata : data.hasTime = false := by rw [hhasTime]; simpa using ht
      have hnone : data.time = none := by
        rw [← Option.not_isSome_iff_eq_none, data.time_isSome, hdata]
        simp
      have hdnone : d.time = none := by
        rw [← Option.not_isSome_iff_eq_none, ← h.timed.hasTime_iff]
        exact ht
      refine ⟨hnone.trans hdnone.symm, ?_⟩
      rw [data.reminder_never hdata, h.timed.reminder_never hdnone]
  obtain ⟨title, id, description, date, userId, isCompleted, hasTime, time, repeats, reminder, tag,
    streak, prevCompletionTime⟩ := d
  simp only [TaskUpdate.apply, htitle, hdescription, hdate, hhasTime, hrepeats, htag, htime.1,
    htime.2]

/-- A page that holds its task has a time where the switch is on. -/
theorem not_cleared {d : TaskDoc} (hd : d.WellFormed) (hset : form.isTimeSetted = form.hasTime)
    (hvalues : form.values = docValues d) : ¬ form.Cleared := by
  rintro ⟨ht, hnone⟩
  have hpair := congrArg Values.time hvalues
  have hhasTime : d.hasTime = true := (congrArg Values.hasTime hvalues).symm.trans ht
  obtain ⟨time, htime⟩ := Option.isSome_iff_exists.mp (hd.time_isSome hhasTime)
  simp [Form.values, docValues, hset, ht, hnone, hhasTime, htime] at hpair

open Reminders (Phone)

inductive Visit
  | act (e : PendingReminders.Event)
  /-- the page of a stored task: opened, edited, and saved as it was opened -/
  | visit (docId uid uuid : String) (tags : List Tags) (now : DateTime) (edits : List Edit)

/-- One step of the phone, or one visit, which the form package and the user may
shape as they like. -/
def step (required : String → Bool) (z : Zone) (s : Phone) : Visit → Option Phone
  | .act e => PendingReminders.step z s e
  | .visit docId uid uuid tags now edits =>
      (s.world.tasks docId).bind fun d =>
        let opened := initState (some (.ofMillis d.date)) (some (.fromDS docId d)) tags now
        (run Form.step opened edits).bind fun form =>
          if form.values = opened.values then
            let calls :=
              form.save required z (s.clock z) uid uuid docId (some (.fromDS docId d))
            some { s with world := (perform (exec AppTask.id z (s.clock z)) calls s.world.fresh).1 }
          else none

/-- The steps that are not visits. -/
def Visit.acts : Visit → List PendingReminders.Event
  | .act e => [e]
  | .visit .. => []

/-- Every stored document is settled. -/
def AllSettled (s : Phone) : Prop := ∀ id d, s.world.tasks id = some d → Settled d

/-- The same documents and the same balance, at the same moment. -/
structure Same (s t : Phone) : Prop where
  tasks : t.world.tasks = s.world.tasks
  money : t.world.money = s.world.money
  now : t.now = s.now

variable {s s' t : Phone}

theorem AllSettled.wellFormed (h : AllSettled s) : s.world.WellFormed :=
  fun id d hd => (h id d hd).wellFormed

theorem AllSettled.update (h : AllSettled s) {id : String} {o : Option TaskDoc}
    (htasks : s'.world.tasks = Function.update s.world.tasks id o)
    (ho : ∀ d, o = some d → Settled d) : AllSettled s' := by
  intro x d hd
  rw [htasks] at hd
  by_cases hx : x = id
  · rw [hx, Function.update_self] at hd
    exact ho d hd
  · rw [Function.update_of_ne hx] at hd
    exact h x d hd

theorem AllSettled.act {e : PendingReminders.Event} (h : AllSettled s)
    (hstep : PendingReminders.step z s e = some s') : AllSettled s' := by
  cases e with
  | create docId uuid uid data =>
      obtain ⟨-, -, htasks, -⟩ := PendingReminders.step_create hstep
      apply h.update htasks
      intro d hd
      rw [← Option.some.inj hd]
      exact settled_newTask z uid uuid data
  | operate docId op =>
      obtain ⟨d, next, hd, -, htasks, -⟩ := Reminders.step_operate h.wellFormed hstep
      exact h.update htasks fun d' hd' => (h docId d hd).doc hd'
  | clearRecord =>
      rw [← Option.some.inj hstep]
      exact fun id d hd => absurd hd (by simp [Reminders.clearRecord, perform, exec])
  | tick elapsed =>
      rw [← Option.some.inj hstep]
      exact h

/-- A visit leaves the documents and the balance. -/
theorem same_of_visit {docId uid uuid : String} {tags : List Tags} {now : DateTime}
    {edits : List Edit} (h : AllSettled s)
    (hstep : step required z s (.visit docId uid uuid tags now edits) = some s') : Same s s' := by
  simp only [step, Option.bind_eq_some_iff] at hstep
  obtain ⟨d, hd, form, hrun, hstep⟩ := hstep
  obtain ⟨hvalues, hs'⟩ := Option.ite_none_right_eq_some.mp hstep
  have hsettled : Settled d := h docId d hd
  rw [initState_values hsettled.wellFormed] at hvalues
  have hset : form.isTimeSetted = form.hasTime := (inv_of_edits hrun).isTimeSetted
  rw [← Option.some.inj hs']
  rcases save_cases required z (s.clock z) uid uuid docId (some (.fromDS docId d)) hset with
    ⟨-, hcalls⟩ | ⟨-, hcleared, -⟩ | ⟨-, -, data, hdata, hcalls⟩
  · -- the title is not valid: nothing happens
    rw [hcalls]
    exact ⟨rfl, rfl, rfl⟩
  · exact absurd hcleared (not_cleared hsettled.wellFormed hset hvalues)
  · have hfresh : s.world.fresh.tasks (AppTask.fromDS docId d).id = some d := hd
    obtain ⟨w', hp, htasks, hmoney, -⟩ := editTask_spec (z := z) (c := s.clock z) AppTask.id hfresh
      hsettled.wellFormed (hsettled.wellFormed.read docId) data
    -- the document is written with what it holds
    rw [hsettled.form_eq (hdata.trans hvalues),
      Function.update_eq_self_iff.mpr hfresh.symm] at htasks
    rw [hcalls, saved, hp]
    exact ⟨htasks, hmoney, rfl⟩

/-- The steps of the phone see the documents, the balance and the clock only. -/
theorem Same.act {e : PendingReminders.Event} (h : AllSettled s) (hsame : Same s t)
    (hstep : PendingReminders.step z s e = some s') :
    ∃ t', PendingReminders.step z t e = some t' ∧ Same s' t' := by
  obtain ⟨htasks, hmoney, hnow⟩ := hsame
  have hclock : t.clock z = s.clock z := by rw [Phone.clock, Phone.clock, hnow]
  cases e with
  | create docId uuid uid data =>
      have hwf : (newTask z uid uuid data).WellFormed := newTask_wellFormed z uid uuid data
      simp only [PendingReminders.step] at hstep ⊢
      rw [htasks]
      split at hstep
      · exact absurd hstep (by simp)
      · next hfree =>
        rw [if_neg hfree]
        refine ⟨_, rfl, ?_⟩
        rw [← Option.some.inj hstep, createTask_spec AppTask.id docId hwf,
          createTask_spec AppTask.id docId hwf]
        exact ⟨by rw [htasks], hmoney, hnow⟩
  | operate docId op =>
      simp only [PendingReminders.step, Reminders.step, Option.bind_eq_some_iff] at hstep
      obtain ⟨d, hd, hstep⟩ := hstep
      obtain ⟨hoffered, hs'⟩ := Option.ite_none_right_eq_some.mp hstep
      have hd' : t.world.tasks docId = some d := by rw [htasks, hd]
      have hwf : d.WellFormed := (h docId d hd).wellFormed
      refine ⟨{ t with world := performOp AppTask.id z docId (t.clock z, op) t.world }, ?_, ?_⟩
      · rw [PendingReminders.step, Reminders.step, hd', Option.bind_some, if_pos hoffered]
      · rw [← Option.some.inj hs', hclock]
        obtain ⟨next, hnext, hs₁, -⟩ := performOp_spec AppTask.id z (s.clock z, op) hd hwf
        obtain ⟨next', hnext', ht₁, -⟩ := performOp_spec AppTask.id z (s.clock z, op) hd' hwf
        -- the next date is the same, for it depends on the task and the clock
        obtain rfl : next = next' := Except.ok.inj (hnext.symm.trans hnext')
        refine ⟨?_, ?_, hnow⟩
        · rw [ht₁, hs₁, htasks]
        · rw [Balance.performOp_money AppTask.id hd' hwf op,
            Balance.performOp_money AppTask.id hd hwf op, hmoney]
  | clearRecord =>
      refine ⟨_, rfl, ?_⟩
      rw [← Option.some.inj hstep]
      exact ⟨rfl, hmoney, hnow⟩
  | tick elapsed =>
      refine ⟨_, rfl, ?_⟩
      rw [← Option.some.inj hstep]
      exact ⟨htasks, hmoney, congrArg (· + (elapsed : ℤ)) hnow⟩

/-- **Visits leave no trace**: whatever pages are opened and saved as they were
along a run, the account ends up as without them. -/
theorem visits_invisible (required : String → Bool) (z : Zone) {s s' : Phone} (h : AllSettled s)
    {vs : List Visit} (hrun : run (step required z) s vs = some s') :
    ∃ t', run (PendingReminders.step z) s (vs.flatMap Visit.acts) = some t' ∧ Same s' t' := by
  have hsim : ∀ (s : Phone) (v : Visit) (s' t : Phone), AllSettled s ∧ Same s t → True →
      step required z s v = some s' →
      ∃ t', run (PendingReminders.step z) t v.acts = some t' ∧ AllSettled s' ∧ Same s' t' := by
    rintro s v s' t ⟨hs, hsame⟩ - hstep
    cases v with
    | act e =>
        obtain ⟨t', ht', hsame'⟩ := hsame.act hs hstep
        refine ⟨t', ?_, hs.act hstep, hsame'⟩
        rw [Visit.acts, run_cons, ht']
        rfl
    | visit docId uid uuid tags now edits =>
        have hkept : Same s s' := same_of_visit hs hstep
        refine ⟨t, rfl, ?_, ?_⟩
        · intro id d hd
          rw [hkept.tasks] at hd
          exact hs id d hd
        · exact ⟨hsame.tasks.trans hkept.tasks.symm, hsame.money.trans hkept.money.symm,
            hsame.now.trans hkept.now.symm⟩
  obtain ⟨t', ht', -, hsame⟩ :=
    run_simulates_flatMap hsim ⟨h, rfl, rfl, rfl⟩ (fun _ _ => trivial) hrun
  exact ⟨t', ht', hsame⟩

/-- A task is made, its page is saved after its time was taken off and put back,
and the task is completed. -/
def visitedRun : List Visit :=
  [.act (.create "doc" "uuid" "uid" (.timed 1654041600000 1654092000000 .daily .ontime)),
    .visit "doc" "uid" "uuid" [] (.ofMillis 1654084800000)
      [.switchTime none .never, .switchTime (some (.ofMillis 1654092000000)) .ontime],
    .act (.operate "doc" .complete)]

theorem visits_invisible_swim : ∃ s' t',
    run (step (· ≠ "") utc) Reminders.newPhone visitedRun = some s'
      ∧ run (PendingReminders.step utc) Reminders.newPhone
        [.create "doc" "uuid" "uid" (.timed 1654041600000 1654092000000 .daily .ontime),
          .operate "doc" .complete] = some t'
      ∧ Same s' t' := by
  have hsettled : AllSettled Reminders.newPhone :=
    fun _ _ h => absurd h (by simp [Reminders.newPhone, World.empty])
  have hrun : ∃ s', run (step (· ≠ "") utc) Reminders.newPhone visitedRun = some s' := ⟨_, rfl⟩
  obtain ⟨s', hs'⟩ := hrun
  obtain ⟨t', ht', hsame⟩ := visits_invisible (fun title => title ≠ "") utc hsettled hs'
  exact ⟨s', t', hs', ht', hsame⟩

end AquaFocus.EditForm
