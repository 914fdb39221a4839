import ObjectLayout.Report.Basic
import ObjectLayout.Text

/-!
# The member table

A row for every base, for the dispatch slot unless a base holds it, and for every field, sorted
by offset. Rows without size stay in the table, and rows at one offset keep that order. Bytes
that no row reaches are told as padding.

The ends of bases and rows are sums of words that nobody checks: an end beyond the last word begins
again at zero. A base that hands its tail padding on may reach that far.
-/
namespace ObjectLayout.Report

/-- Where `size` bytes at `offset` end, as a word of 64 bits. -/
def endOf (offset size : Nat) : Nat := (offset + size) % UInt64.size

theorem endOf_le (offset size : Nat) : endOf offset size ≤ offset + size := Nat.mod_le _ _

theorem endOf_of_lt {offset size : Nat} (h : offset + size < UInt64.size) :
    endOf offset size = offset + size := Nat.mod_eq_of_lt h

/-- A labelled range of bytes. -/
structure Row where
  offset : Nat
  size : Nat
  label : Char
  text : String
  deriving DecidableEq

def Row.stop (row : Row) : Nat := endOf row.offset row.size

/-- The bytes of a row. -/
def Row.covers (row : Row) (position : Nat) : Bool :=
  row.offset ≤ position && position < row.stop

/-- Labels run through the alphabet and begin again behind it. -/
def labelFrom (first : Char) (index : Nat) : Char := Char.ofNat (first.toNat + index % 26)

/-- The mark of bytes that belong to no member. -/
def paddingMark : Char := '.'

def dispatchMark : Char := '*'

def baseRow (index : Nat) (base : NamedBase) : Row :=
  let kind := match base.sharing with
    | .owned => "base "
    | .shared => "shared base "
  ⟨base.offset, base.size, labelFrom 'A' index, kind ++ base.name⟩

def fieldRow (index : Nat) (field : PlacedField) : Row :=
  let name := if field.name.isEmpty then "(unnamed)" else field.name
  let text := match field.bits with
    | some bits => s!"{name} : {bits.width} bits at bit {bits.offset}"
    | none => name
  ⟨field.offset, field.size, labelFrom 'a' index, text⟩

/-- A slot inside the bytes of a base is inherited and has no row of its own. -/
def dispatchRows (bases : List NamedBase) (pointerSize : Nat) : Option Nat → List Row
  | none => []
  | some slot =>
    if bases.any fun base => base.offset ≤ slot && slot < endOf base.offset base.size then []
    else [⟨slot, pointerSize, dispatchMark, "dispatch slot"⟩]

def memberRows (bases : List NamedBase) (pointerSize : Nat) (layout : Layout) : List Row :=
  (bases.mapIdx baseRow ++ dispatchRows bases pointerSize layout.dispatch
    ++ layout.fields.mapIdx fieldRow).mergeSort fun first second => first.offset ≤ second.offset

inductive TableLine where
  | member (row : Row)
  | padding (offset size : Nat)
  | tailPadding (offset size : Nat)
  deriving DecidableEq

namespace TableLine

def columns (offset size : Nat) (mark : Char) (text : String) : String :=
  s!"  {Text.alignRight 6 (toString offset)}  {Text.alignRight 4 (toString size)}  {mark}  {text}"

def text : TableLine → String
  | .member row => columns row.offset row.size row.label row.text
  | .padding offset size => columns offset size paddingMark "(padding)"
  | .tailPadding offset size => columns offset size paddingMark "(tail padding)"

end TableLine

/-- The lines of the table when all rows before end at `reached` or earlier. -/
def tableFrom (size : Nat) : Nat → List Row → List TableLine
  | reached, [] => if reached < size then [.tailPadding reached (size - reached)] else []
  | reached, row :: rest =>
    (if reached < row.offset then [.padding reached (row.offset - reached)] else [])
      ++ .member row :: tableFrom size (max reached row.stop) rest

/-- The lines of the table of an object of `size` bytes. -/
def memberTable (size : Nat) (rows : List Row) : List TableLine := tableFrom size 0 rows

end ObjectLayout.Report
