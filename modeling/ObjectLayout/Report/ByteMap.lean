import ObjectLayout.Report.MemberTable

/-!
# The byte map

One character a byte, sixteen bytes a line, with a blank between groups of four. Where rows
overlap, the later row shows.
-/
namespace ObjectLayout.Report

/-- The character of a byte: the label of the last row that covers it. -/
def cell (rows : List Row) (position : Nat) : Char :=
  rows.foldl (fun shown row => if row.covers position then row.label else shown) paddingMark

/-- The characters of all bytes of an object. -/
def cells (size : Nat) (rows : List Row) : List Char := (List.range size).map (cell rows)

/-- Put a blank before every fourth character but the first. -/
def grouped (line : List Char) : List Char :=
  (line.mapIdx fun index c => if index ≠ 0 ∧ index % 4 = 0 then [' ', c] else [c]).flatten

/-- The line that begins at `offset`. -/
def mapLine (offset : Nat) (line : List Char) : String :=
  Text.alignRight 4 (toString offset) ++ "  " ++ String.ofList (grouped line)

/-- How many characters memory has room for: each takes four bytes, and no allocation is larger than
the positive half of the words. -/
def mapCapacity : Nat := 9223372036854775807 / 4

/-- The lines of the byte map of an object of `size` bytes. -/
def byteMap (size : Nat) (rows : List Row) : List String :=
  let shown := cells size rows
  (List.range ((size + 15) / 16)).map fun index =>
    mapLine (16 * index) ((shown.drop (16 * index)).take 16)

end ObjectLayout.Report
