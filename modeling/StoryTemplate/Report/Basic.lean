import StoryTemplate.Rendered

/-! # Reports — results as structured data

    A report is what a rendering or a header section looks like as data, before
    a notation is chosen for it. -/

namespace StoryTemplate

/-- A result as structured data; the fields of a record keep their order. -/
inductive Report
  | text (content : Text)
  | number (value : Nat)
  | list (items : List Report)
  | record (fields : List (Text × Report))
  deriving Inhabited

/-- A dictionary of texts as a record in the order of its names. -/
def Dict.report (dict : Dict Text) : Report :=
  .record (dict.entries.map fun (name, value) => (name, .text value))

/-- An anchored object as a record. -/
def AnchoredObject.report (object : AnchoredObject) : Report :=
  .record [("text".toList, .text object.text), ("position".toList, .number object.position),
    ("params".toList, object.params.report)]

/-- A meta object as a record that begins with its type. -/
def MetaObject.report : MetaObject → Report
  | .map value => .record [("type".toList, .text "map".toList), ("id".toList, .text value.id),
      ("data".toList, value.data.report)]
  | .list value => .record [("type".toList, .text "list".toList), ("id".toList, .text value.id),
      ("data".toList, .list (value.data.map .text))]

/-- A rendering as a record. -/
def Rendered.report (rendered : Rendered) : Report :=
  .record [("text".toList, .text rendered.text),
    ("anchored_objects".toList, .list (rendered.anchoredObjects.map AnchoredObject.report)),
    ("meta_objects".toList, .list (rendered.metaObjects.map MetaObject.report))]

/-- A row of spaces. -/
def spaces (count : Nat) : Text := List.replicate count ' '

end StoryTemplate
