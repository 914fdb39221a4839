import ObjectLayout.Field
import ObjectLayout.FirstSeen

/-!
# Composite types

A composite is described by its bases and fields, each in declaration order, and by the
directives that bear on its placement. An owned base is embedded once per path that reaches it;
a shared base is placed once in the complete object, however many paths reach it.
-/
namespace ObjectLayout

inductive Sharing where
  | owned
  | shared
  deriving DecidableEq

def Sharing.text : Sharing → String
  | .owned => "owned"
  | .shared => "shared"

structure Base where
  type : TypeId
  sharing : Sharing := .owned
  access : Access := .pub
  deriving DecidableEq

def Base.isShared (base : Base) : Bool := base.sharing == .shared

/-- The special members that a type provides itself. -/
structure SpecialMembers where
  construct : Bool := false
  copy : Bool := false
  move : Bool := false
  destroy : Bool := false
  deriving DecidableEq

namespace SpecialMembers

/-- The names of the members provided, in the fixed order of the categories. -/
def names (members : SpecialMembers) : List String :=
  (if members.construct then ["CONSTRUCT"] else []) ++ (if members.copy then ["COPY"] else [])
    ++ (if members.move then ["MOVE"] else []) ++ (if members.destroy then ["DESTROY"] else [])

def isEmpty (members : SpecialMembers) : Bool := members.names.isEmpty

/-- The members joined by bars, or a hexadecimal zero for none. -/
def text (members : SpecialMembers) : String :=
  let inside := if members.isEmpty then "0x0" else " | ".intercalate members.names
  s!"SpecialMembers({inside})"

end SpecialMembers

structure Composite where
  name : String
  bases : List Base := []
  fields : List Field := []
  /-- The type declares dynamically dispatched methods. -/
  introducesDispatch : Bool := false
  /-- A type-level alignment. It excludes a packing clamp. -/
  forcedAlign : Option Nat := none
  /-- A bound on the alignment of every part of the type. -/
  packing : Option Nat := none
  userProvided : SpecialMembers := {}
  deriving DecidableEq

namespace Composite

def ownedBases (c : Composite) : List Base := c.bases.filter fun base => !base.isShared

def sharedBases (c : Composite) : List Base := c.bases.filter Base.isShared

/-- The fields that hold data: all but the markers. -/
def members (c : Composite) : List Field := c.fields.filter fun field => !field.isMarker

/-- The distinct accesses among the fields that hold data, in first-seen order. -/
def accessGroups (c : Composite) : List Access :=
  FirstSeen.noteAll [] (c.members.map Field.access)

def declaresData (c : Composite) : Bool := !c.members.isEmpty

end Composite

end ObjectLayout
