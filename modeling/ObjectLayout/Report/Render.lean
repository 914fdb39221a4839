import ObjectLayout.JsonText
import ObjectLayout.Options
import ObjectLayout.Report.ByteMap

/-!
# Written reports

A report is written as text, with the member table and the byte map of its layout, or as JSON. A
byte map that memory has no room for stops the program.
-/
namespace ObjectLayout.Report

def yesNo (value : Bool) : String := if value then "yes" else "no"

/-- The lines about a layout. -/
def layoutLines (report : Report) (layout : Layout) : List String :=
  let shown := memberRows report.bases report.pointerSize layout
  [s!"  size {layout.size}  align {layout.align}  data {layout.dataSize}",
    "  offset  size     member"]
    ++ (memberTable layout.size shown).map TableLine.text
    ++ ["  bytes:"]
    ++ (byteMap layout.size shown).map fun line => "    " ++ line

def verdictLine (verdict : Verdict) : String :=
  let trivial := yesNo verdict.trivial
  let standardLayout := yesNo verdict.standardLayout
  s!"  trivial: {trivial}  standard layout: {standardLayout}  pod: {yesNo verdict.isPod}"

def textLines (report : Report) : List String :=
  [s!"{report.name}  [{report.topic.name}]  {report.note}"]
    ++ (match report.layout with
      | .ok layout => report.layoutLines layout
      | .error rejection => ["  error: " ++ rejection.message])
    ++ [verdictLine report.verdict]
    ++ report.trivialReasons.map (fun reason => "    not trivial: " ++ reason)
    ++ report.standardLayoutReasons.map fun reason => "    not standard layout: " ++ reason

def text (report : Report) : String := Text.lines report.textLines

def kindName : Sharing → String
  | .owned => "Owned"
  | .shared => "Shared"

def fieldJson (field : PlacedField) : JsonValue :=
  .object [("name", .string field.name), ("offset", .number field.offset),
    ("size", .number field.size),
    ("bits", .ofOption (fun bits =>
      .object [("bit_offset", .number bits.offset), ("bit_width", .number bits.width)])
      field.bits)]

def placedBaseJson (base : PlacedBase) : JsonValue :=
  .object [("ty", .number base.type.index), ("offset", .number base.offset),
    ("size", .number base.size), ("kind", .string (kindName base.sharing))]

def layoutJson (layout : Layout) : JsonValue :=
  .object [("size", .number layout.size), ("align", .number layout.align),
    ("data_size", .number layout.dataSize),
    ("dispatch_offset", .ofOption .number layout.dispatch),
    ("fields", .list (layout.fields.map fieldJson)),
    ("bases", .list (layout.bases.map placedBaseJson))]

def namedBaseJson (base : NamedBase) : JsonValue :=
  .object [("name", .string base.name), ("offset", .number base.offset),
    ("size", .number base.size), ("kind", .string (kindName base.sharing))]

/-- A rejected type has a null layout and an error; a placed one has no error at all. -/
def outcomeJson : Except Rejection Layout → List (String × JsonValue)
  | .ok layout => [("layout", layoutJson layout)]
  | .error rejection => [("layout", .null), ("error", .string rejection.message)]

def json (report : Report) : JsonValue :=
  .object <|
    [("name", .string report.name), ("topic", .string report.topic.name),
      ("note", .string report.note)]
    ++ outcomeJson report.layout
    ++ [("bases", .list (report.bases.map namedBaseJson)),
      ("classification", .object [("is_trivial", .bool report.verdict.trivial),
        ("is_standard_layout", .bool report.verdict.standardLayout)]),
      ("trivial_violations", .list (report.trivialReasons.map .string)),
      ("standard_layout_violations", .list (report.standardLayoutReasons.map .string))]

/-- Reports in a format. Text reports are divided by empty lines. -/
def render (format : ReportFormat) (reports : List Report) : String :=
  match format with
  | .text => "\n".intercalate (reports.map text)
  | .json => (JsonValue.list (reports.map json)).text ++ "\n"

/-- Does memory have room for the report? Only a text shows the bytes of its layout. -/
def fits (report : Report) : ReportFormat → Bool
  | .json => true
  | .text => match report.layout with
    | .ok layout => layout.size ≤ mapCapacity
    | .error _ => true

/-- Reports in a format, or the panic over a byte map without room. -/
def write (format : ReportFormat) (reports : List Report) : Except String String :=
  if reports.all fun report => report.fits format then .ok (render format reports)
  else .error "capacity overflow"

/-- The lines of a list of entries: under each topic that has entries, a line for each. The
names share a column as wide as the longest of them in bytes. -/
def listLines (entries : List CatalogueEntry) : List String :=
  let width := (entries.map fun entry => entry.name.utf8ByteSize).foldl max 0
  Topic.all.flatMap fun topic =>
    match entries.filter fun entry => entry.topic = topic with
    | [] => []
    | members => (topic.name ++ ":") :: members.map fun entry =>
      s!"  {Text.alignLeft width entry.name}  {entry.note}"

def listing (entries : List CatalogueEntry) : String := Text.lines (listLines entries)

end ObjectLayout.Report
