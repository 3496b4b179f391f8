import PlotJugglerCore.Lib.JsonBytes

/-!
# The events of a dialog

What happens in a dialog reaches the plugin as a JSON text: `WidgetEventBuilder` of the host spells an
event, `DialogHandle::sendEvent` passes the text over the C interface, and `WidgetEvent` and
`DialogPluginTyped::onWidgetEvent` of the plugin find out again which of the typed handlers is to be
called, by looking for one field after the other.

Every event arrives at its own handler, with its own data. Three things are lost on the way. The text
that goes with the index of a combo box has no handler. A negative caret arrives as `-1`. And a value
or a view that is not finite arrives nowhere, because JSON has no text for it.
-/

namespace PlotJuggler

/-! ## The host's side -/

namespace WidgetEventBuilder

/-! Each function with the document it dumps. -/

def textChanged (text : String) : JsonTree := .ofMembers [("text", .string text)]

def indexChanged (index : Int32) : JsonTree := .ofMembers [("current_index", .int index)]

/-- The overload with the current text. -/
def indexTextChanged (index : Int32) (currentText : String) : JsonTree :=
  .ofMembers [("current_index", .int index), ("current_text", .string currentText)]

def toggled (checked : Bool) : JsonTree := .ofMembers [("checked", .bool checked)]

def intValueChanged (value : Int32) : JsonTree := .ofMembers [("value", .int value)]

def doubleValueChanged (value : Binary64) : JsonTree := .ofMembers [("value", .float value)]

def selectionChanged (selected : List String) : JsonTree :=
  .ofMembers [("selected_items", .strings selected)]

def clicked : JsonTree := .ofMembers [("clicked", .bool true)]

def fileSelected (path : String) : JsonTree := .ofMembers [("file_selected", .string path)]

def folderSelected (path : String) : JsonTree := .ofMembers [("folder_selected", .string path)]

def tabChanged (index : Int32) : JsonTree := .ofMembers [("tab_index", .int index)]

def itemDoubleClicked (index : Int32) : JsonTree :=
  .ofMembers [("item_double_clicked_index", .int index)]

def headerClicked (sectionIndex : Int32) : JsonTree :=
  .ofMembers [("header_section", .int sectionIndex)]

def codeChanged (code : String) (cursor : Int32) : JsonTree :=
  .ofMembers (("code_changed", .string code) ::
    if 0 ≤ cursor then [("code_cursor", .int cursor)] else [])

def itemsDropped (labels : List String) : JsonTree :=
  .ofMembers [("items_dropped", .strings labels)]

def dateRangeChanged (fromIso toIso : String) : JsonTree :=
  .ofMembers [("date_from_iso", .string fromIso), ("date_to_iso", .string toIso)]

def rangeChanged (lower upper : Int32) : JsonTree :=
  .ofMembers [("range_lower", .int lower), ("range_upper", .int upper)]

def chartViewChanged (xMin xMax yMin yMax : Binary64) : JsonTree :=
  .ofMembers [("chart_x_min", .float xMin), ("chart_x_max", .float xMax),
    ("chart_y_min", .float yMin), ("chart_y_max", .float yMax)]

end WidgetEventBuilder

/-! ## The plugin's side -/

/-- The document an event is read from. -/
structure WidgetEvent where
  data : JsonTree

namespace WidgetEvent

/-- A text that cannot be parsed is an event without fields. -/
def ofJson (J : JsonText) (eventJson : J.Text) : WidgetEvent where
  data := (J.parse eventJson).getD (.object [])

variable (e : WidgetEvent)

def getString (key : String) : Option String := (e.data.find key).bind JsonTree.string?

def getInt (key : String) : Option Int32 := (e.data.find key).bind JsonTree.int?

def getBool (key : String) : Option Bool := (e.data.find key).bind JsonTree.bool?

def getDouble (key : String) : Option Binary64 := (e.data.find key).bind JsonTree.double?

/-- The texts of an array. What is not a text is passed over. -/
def getStrings (key : String) : Option (List String) :=
  ((e.data.find key).bind JsonTree.array?).map (List.filterMap JsonTree.string?)

def text : Option String := e.getString "text"
def currentIndex : Option Int32 := e.getInt "current_index"
def currentText : Option String := e.getString "current_text"
def checked : Option Bool := e.getBool "checked"
def valueInt : Option Int32 := e.getInt "value"
def valueDouble : Option Binary64 := e.getDouble "value"
def selectedItems : Option (List String) := e.getStrings "selected_items"
def clicked : Bool := (e.getBool "clicked").getD false
def fileSelected : Option String := e.getString "file_selected"
def folderSelected : Option String := e.getString "folder_selected"
def tabIndex : Option Int32 := e.getInt "tab_index"
def itemDoubleClickedIndex : Option Int32 := e.getInt "item_double_clicked_index"
def headerSection : Option Int32 := e.getInt "header_section"
def codeChanged : Option String := e.getString "code_changed"
def codeCursor : Option Int32 := e.getInt "code_cursor"
def itemsDropped : Option (List String) := e.getStrings "items_dropped"

def dateRangeChanged : Option (String × String) := do
  let fromIso ← e.getString "date_from_iso"
  let toIso ← e.getString "date_to_iso"
  return (fromIso, toIso)

def rangeChanged : Option (Int32 × Int32) := do
  let lower ← e.getInt "range_lower"
  let upper ← e.getInt "range_upper"
  return (lower, upper)

def chartViewChanged : Option (Binary64 × Binary64 × Binary64 × Binary64) := do
  let xMin ← e.getDouble "chart_x_min"
  let xMax ← e.getDouble "chart_x_max"
  let yMin ← e.getDouble "chart_y_min"
  let yMax ← e.getDouble "chart_y_max"
  return (xMin, xMax, yMin, yMax)

end WidgetEvent

/-- The typed handlers of `DialogPluginTyped`, with what they are given beside the widget's name. -/
inductive HandlerCall
  | onTextChanged (text : String)
  | onIndexChanged (index : Int32)
  | onToggled (checked : Bool)
  | onIntValueChanged (value : Int32)
  | onDoubleValueChanged (value : Binary64)
  | onSelectionChanged (selected : List String)
  | onClicked
  | onFileSelected (path : String)
  | onFolderSelected (path : String)
  | onTabChanged (index : Int32)
  | onItemDoubleClicked (index : Int32)
  | onHeaderClicked (sectionIndex : Int32)
  | onCodeChangedWithCursor (code : String) (cursor : Int32)
  | onItemsDropped (items : List String)
  | onChartViewChanged (xMin xMax yMin yMax : Binary64)
  | onRangeChanged (lower upper : Int32)
  | onDateRangeChanged (fromIso toIso : String)

/-- Which handler `DialogPluginTyped::onWidgetEvent` calls, if any. -/
def WidgetEvent.handler (e : WidgetEvent) : Option HandlerCall :=
  if let some (xMin, xMax, yMin, yMax) := e.chartViewChanged then
    some (.onChartViewChanged xMin xMax yMin yMax)
  else if let some (lower, upper) := e.rangeChanged then some (.onRangeChanged lower upper)
  else if let some (fromIso, toIso) := e.dateRangeChanged then some (.onDateRangeChanged fromIso toIso)
  else if let some items := e.itemsDropped then some (.onItemsDropped items)
  else if let some code := e.codeChanged then
    some (.onCodeChangedWithCursor code (e.codeCursor.getD (-1)))
  else if let some text := e.text then some (.onTextChanged text)
  else if let some index := e.currentIndex then some (.onIndexChanged index)
  else if let some checked := e.checked then some (.onToggled checked)
  else if let some path := e.fileSelected then some (.onFileSelected path)
  else if let some path := e.folderSelected then some (.onFolderSelected path)
  else if e.clicked then some .onClicked
  else if let some selected := e.selectedItems then some (.onSelectionChanged selected)
  else if let some index := e.tabIndex then some (.onTabChanged index)
  else if let some index := e.itemDoubleClickedIndex then some (.onItemDoubleClicked index)
  else if let some sectionIndex := e.headerSection then some (.onHeaderClicked sectionIndex)
  else if let some value := e.valueInt then some (.onIntValueChanged value)
  else if let some value := e.valueDouble then some (.onDoubleValueChanged value)
  else none

/-- A plugin with a state of its own. A handler returns whether the dialog is to be shown anew, and
`none` when it throws. -/
structure DialogPluginTyped (σ : Type) where
  handle : String → HandlerCall → σ → Option Bool × σ

namespace DialogPluginTyped

variable {σ : Type} (P : DialogPluginTyped σ) (J : JsonText)

def onWidgetEvent (widgetName : String) (eventJson : J.Text) (s : σ) : Option Bool × σ :=
  match (WidgetEvent.ofJson J eventJson).handler with
  | some call => P.handle widgetName call s
  | none => (some false, s)

/-- An exception does not cross the interface. -/
def trampolineOnWidgetEvent (widgetName : String) (eventJson : J.Text) (s : σ) : Bool × σ :=
  (P.onWidgetEvent J widgetName eventJson s).map (·.getD false) id

/-- What a zero-terminated string carries of a name. -/
def cString (name : String) : String := String.ofList (name.toList.takeWhile (· ≠ Char.ofNat 0))

/-- `DialogHandle::sendEvent`. -/
def sendEvent (widgetName : String) (eventJson : J.Text) (s : σ) : Bool × σ :=
  P.trampolineOnWidgetEvent J (cString widgetName) (J.cString eventJson) s

end DialogPluginTyped

/-! ## Events on their way -/

/-- The calls of the host's builder. -/
inductive HostEvent
  | textChanged (text : String)
  | indexChanged (index : Int32)
  | indexTextChanged (index : Int32) (currentText : String)
  | toggled (checked : Bool)
  | intValueChanged (value : Int32)
  | doubleValueChanged (value : Binary64)
  | selectionChanged (selected : List String)
  | clicked
  | fileSelected (path : String)
  | folderSelected (path : String)
  | tabChanged (index : Int32)
  | itemDoubleClicked (index : Int32)
  | headerClicked (sectionIndex : Int32)
  | codeChanged (code : String) (cursor : Int32)
  | itemsDropped (labels : List String)
  | dateRangeChanged (fromIso toIso : String)
  | rangeChanged (lower upper : Int32)
  | chartViewChanged (xMin xMax yMin yMax : Binary64)

namespace HostEvent

def document : HostEvent → JsonTree
  | .textChanged text => WidgetEventBuilder.textChanged text
  | .indexChanged index => WidgetEventBuilder.indexChanged index
  | .indexTextChanged index currentText => WidgetEventBuilder.indexTextChanged index currentText
  | .toggled checked => WidgetEventBuilder.toggled checked
  | .intValueChanged value => WidgetEventBuilder.intValueChanged value
  | .doubleValueChanged value => WidgetEventBuilder.doubleValueChanged value
  | .selectionChanged selected => WidgetEventBuilder.selectionChanged selected
  | .clicked => WidgetEventBuilder.clicked
  | .fileSelected path => WidgetEventBuilder.fileSelected path
  | .folderSelected path => WidgetEventBuilder.folderSelected path
  | .tabChanged index => WidgetEventBuilder.tabChanged index
  | .itemDoubleClicked index => WidgetEventBuilder.itemDoubleClicked index
  | .headerClicked sectionIndex => WidgetEventBuilder.headerClicked sectionIndex
  | .codeChanged code cursor => WidgetEventBuilder.codeChanged code cursor
  | .itemsDropped labels => WidgetEventBuilder.itemsDropped labels
  | .dateRangeChanged fromIso toIso => WidgetEventBuilder.dateRangeChanged fromIso toIso
  | .rangeChanged lower upper => WidgetEventBuilder.rangeChanged lower upper
  | .chartViewChanged xMin xMax yMin yMax =>
    WidgetEventBuilder.chartViewChanged xMin xMax yMin yMax

/-- What the builder returns. -/
def toJson (J : JsonText) (event : HostEvent) : J.Text := J.dump event.document

/-- The handler that an event is meant for, with the data that arrive. -/
def call : HostEvent → Option HandlerCall
  | .textChanged text => some (.onTextChanged text)
  | .indexChanged index => some (.onIndexChanged index)
  | .indexTextChanged index _ => some (.onIndexChanged index)
  | .toggled checked => some (.onToggled checked)
  | .intValueChanged value => some (.onIntValueChanged value)
  | .doubleValueChanged value =>
    if Binary64.isFinite value then some (.onDoubleValueChanged value) else none
  | .selectionChanged selected => some (.onSelectionChanged selected)
  | .clicked => some .onClicked
  | .fileSelected path => some (.onFileSelected path)
  | .folderSelected path => some (.onFolderSelected path)
  | .tabChanged index => some (.onTabChanged index)
  | .itemDoubleClicked index => some (.onItemDoubleClicked index)
  | .headerClicked sectionIndex => some (.onHeaderClicked sectionIndex)
  | .codeChanged code cursor => some (.onCodeChangedWithCursor code (if 0 ≤ cursor then cursor else -1))
  | .itemsDropped labels => some (.onItemsDropped labels)
  | .dateRangeChanged fromIso toIso => some (.onDateRangeChanged fromIso toIso)
  | .rangeChanged lower upper => some (.onRangeChanged lower upper)
  | .chartViewChanged xMin xMax yMin yMax =>
    if [xMin, xMax, yMin, yMax].all Binary64.isFinite then
      some (.onChartViewChanged xMin xMax yMin yMax)
    else none

end HostEvent

namespace WidgetEvent

open JsonTree

section Getters

variable (d : JsonTree) (key : String)

@[simp] theorem getString_written : getString ⟨d.written⟩ key = (d.find key).bind string? := by
  rw [getString, find_written, Option.bind_map]
  exact congrArg _ (funext string?_written)

@[simp] theorem getInt_written : getInt ⟨d.written⟩ key = (d.find key).bind int? := by
  rw [getInt, find_written, Option.bind_map]
  exact congrArg _ (funext int?_written)

@[simp] theorem getBool_written : getBool ⟨d.written⟩ key = (d.find key).bind bool? := by
  rw [getBool, find_written, Option.bind_map]
  exact congrArg _ (funext bool?_written)

@[simp] theorem getDouble_written :
    getDouble ⟨d.written⟩ key = (d.find key).bind fun v ↦ v.written.double? := by
  rw [getDouble, find_written, Option.bind_map]
  rfl

@[simp] theorem getStrings_written :
    getStrings ⟨d.written⟩ key = ((d.find key).bind array?).map (List.filterMap string?) := by
  rw [getStrings, find_written, Option.bind_map]
  rcases d.find key with _ | v
  · rfl
  · simp only [Option.bind_some, Function.comp_apply, array?_written, Option.map_map]
    refine congrArg (Option.map · _) (funext fun items ↦ ?_)
    rw [Function.comp_apply, List.filterMap_map]
    exact congrArg (List.filterMap · items) (funext string?_written)

end Getters

end WidgetEvent

namespace HostEvent

open JsonTree

theorem wellFormed_document (event : HostEvent) : event.document.WellFormed := by
  rcases event with _ | _ | _ | _ | _ | _ | _ | _ | _ | _ | _ | _ | _ | ⟨code, cursor⟩ | _ | _ | _ | _
  case codeChanged =>
    refine wellFormed_ofMembers (List.forall_mem_cons.mpr ⟨.string code, ?_⟩)
    split_ifs <;> simp
  all_goals exact wellFormed_ofMembers (by simp)

/-- A view with an end that is not finite is no view any more. -/
theorem chartViewChanged_written (xMin xMax yMin yMax : Binary64) :
    WidgetEvent.chartViewChanged ⟨(WidgetEventBuilder.chartViewChanged xMin xMax yMin yMax).written⟩ =
      if [xMin, xMax, yMin, yMax].all Binary64.isFinite then some (xMin, xMax, yMin, yMax)
      else none := by
  rw [WidgetEvent.chartViewChanged, WidgetEventBuilder.chartViewChanged]
  simp only [WidgetEvent.getDouble_written, find_ofMembers]
  simp [SortedMap.lookup_cons, double?_written_float]
  split_ifs <;> simp_all

/-- No event is taken for another one: what the plugin looks for before the fields of an event is not
in its document. -/
theorem handler_document (event : HostEvent) :
    WidgetEvent.handler ⟨event.document.written⟩ = event.call := by
  -- a getter becomes a lookup among the fields of the document
  rw [WidgetEvent.handler, WidgetEvent.rangeChanged, WidgetEvent.dateRangeChanged,
    WidgetEvent.itemsDropped, WidgetEvent.codeChanged, WidgetEvent.codeCursor, WidgetEvent.text,
    WidgetEvent.currentIndex, WidgetEvent.checked, WidgetEvent.fileSelected,
    WidgetEvent.folderSelected, WidgetEvent.clicked, WidgetEvent.selectedItems,
    WidgetEvent.tabIndex, WidgetEvent.itemDoubleClickedIndex, WidgetEvent.headerSection,
    WidgetEvent.valueInt, WidgetEvent.valueDouble]
  rcases event with _ | _ | _ | _ | _ | value | _ | _ | _ | _ | _ | _ | _ | ⟨code, cursor⟩ | _ | _ | _ |
    ⟨xMin, xMax, yMin, yMax⟩
  case chartViewChanged =>
    rw [document, chartViewChanged_written, call]
    by_cases hview : [xMin, xMax, yMin, yMax].all Binary64.isFinite
    · rw [if_pos hview, if_pos hview]
    · rw [if_neg hview, if_neg hview]
      simp [WidgetEventBuilder.chartViewChanged, find_ofMembers, SortedMap.lookup_cons]
  all_goals rw [WidgetEvent.chartViewChanged]
  case doubleValueChanged =>
    by_cases hvalue : Binary64.isFinite value
    all_goals simp [document, WidgetEventBuilder.doubleValueChanged, call, find_ofMembers,
      SortedMap.lookup_cons, double?_written_float, int?, hvalue]
  case codeChanged =>
    by_cases hcursor : 0 ≤ cursor
    all_goals simp [document, WidgetEventBuilder.codeChanged, call, find_ofMembers,
      SortedMap.lookup_cons, string?, hcursor]
  all_goals simp [document, WidgetEventBuilder.textChanged, WidgetEventBuilder.indexChanged,
    WidgetEventBuilder.indexTextChanged, WidgetEventBuilder.toggled,
    WidgetEventBuilder.intValueChanged, WidgetEventBuilder.selectionChanged,
    WidgetEventBuilder.clicked, WidgetEventBuilder.fileSelected, WidgetEventBuilder.folderSelected,
    WidgetEventBuilder.tabChanged, WidgetEventBuilder.itemDoubleClicked,
    WidgetEventBuilder.headerClicked, WidgetEventBuilder.itemsDropped,
    WidgetEventBuilder.dateRangeChanged, WidgetEventBuilder.rangeChanged, call, find_ofMembers,
    SortedMap.lookup_cons, string?, bool?, filterMap_strings]

end HostEvent

/-! ## A session -/

namespace DialogPluginTyped

variable {σ : Type} (P : DialogPluginTyped σ) (J : JsonText)

/-- The events of a session, each with the widget it is from, sent one after the other: what the
plugin answers to them, and its state in the end. -/
def sendAll : List (String × HostEvent) → σ → List Bool × σ
  | [], s => ([], s)
  | (widgetName, event) :: events, s =>
    let sent := P.sendEvent J widgetName (event.toJson J) s
    let rest := sendAll events sent.2
    (sent.1 :: rest.1, rest.2)

/-- The call of the handler an event is meant for. One that throws changes the state as far as it got,
and answers no. -/
def deliver (widgetName : String) (event : HostEvent) (s : σ) : Bool × σ :=
  match event.call with
  | some call => (P.handle (cString widgetName) call s).map (·.getD false) id
  | none => (false, s)

/-- A session without the texts in between. -/
def deliverAll : List (String × HostEvent) → σ → List Bool × σ
  | [], s => ([], s)
  | (widgetName, event) :: events, s =>
    let delivered := P.deliver widgetName event s
    let rest := deliverAll events delivered.2
    (delivered.1 :: rest.1, rest.2)

variable {P J}

theorem sendEvent_toJson (hJ : J.Documented) (widgetName : String) (event : HostEvent) (s : σ) :
    P.sendEvent J widgetName (event.toJson J) s = P.deliver widgetName event s := by
  have hread : WidgetEvent.ofJson J (event.toJson J) = ⟨event.document.written⟩ := by
    rw [WidgetEvent.ofJson, HostEvent.toJson, hJ.parse_dump _ event.wellFormed_document]
    rfl
  rw [sendEvent, trampolineOnWidgetEvent, onWidgetEvent, HostEvent.toJson, hJ.cString_dump,
    ← HostEvent.toJson, hread, HostEvent.handler_document, deliver]
  rcases event.call with _ | call
  · rfl
  · rfl

/-- What happens in a dialog is what its handlers are called with, in the same order. -/
theorem sendAll_eq_deliverAll (hJ : J.Documented) (P : DialogPluginTyped σ)
    (events : List (String × HostEvent)) (s : σ) : P.sendAll J events s = P.deliverAll events s := by
  induction events generalizing s with
  | nil => rfl
  | cons e events ih =>
    rw [sendAll, deliverAll, sendEvent_toJson hJ, ih]

/-- A plugin that keeps its calls. -/
def recorder : DialogPluginTyped (List (String × HandlerCall)) where
  handle widgetName call s := (some true, s ++ [(widgetName, call)])

/-- A caret that is not known, a limit that is not a number, and a list. -/
theorem sendAll_eq_deliverAll_recorder :
    recorder.sendAll JsonText.bytes [("script", .codeChanged "x = 1" (-7)),
        ("limit", .doubleValueChanged Binary64.quietNaN), ("curves", .itemsDropped ["a", "b"])] [] =
      ([true, false, true], [("script", .onCodeChangedWithCursor "x = 1" (-1)),
        ("curves", .onItemsDropped ["a", "b"])]) :=
  (sendAll_eq_deliverAll JsonText.bytes_documented recorder _ _).trans rfl

end DialogPluginTyped

end PlotJuggler
