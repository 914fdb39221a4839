/-!
# Text in columns

Columns are counted in characters. A text that is wider than its column is left as it is.
-/
namespace ObjectLayout.Text

def blanks (number : Nat) : String := String.ofList (List.replicate number ' ')

/-- Fill up on the left. -/
def alignRight (width : Nat) (text : String) : String := blanks (width - text.length) ++ text

/-- Fill up on the right. -/
def alignLeft (width : Nat) (text : String) : String := text ++ blanks (width - text.length)

/-- What follows a given beginning, if the text begins so. -/
def after? (beginning text : String) : Option String :=
  (List.isPrefixOf? beginning.toList text.toList).map String.ofList

/-- Close every line. -/
def lines (texts : List String) : String := String.join (texts.map fun text => text ++ "\n")

end ObjectLayout.Text
