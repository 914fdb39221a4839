import ObjectLayout.TypeTable

/-!
# Catalogues

A catalogue is a table of types of which some are worth showing. Entries are grouped by topic,
and a query names a topic, an entry, or the last segment of the name of some entries.
-/
namespace ObjectLayout

inductive Topic where
  | alignment
  | bitfields
  | inheritance
  | polymorphism
  | ebo
  | pod
  | diamond
  deriving DecidableEq

namespace Topic

/-- All topics, in the order in which they are listed. -/
def all : List Topic :=
  [.alignment, .bitfields, .inheritance, .polymorphism, .ebo, .pod, .diamond]

def name : Topic → String
  | .alignment => "alignment"
  | .bitfields => "bitfields"
  | .inheritance => "inheritance"
  | .polymorphism => "polymorphism"
  | .ebo => "ebo"
  | .pod => "pod"
  | .diamond => "diamond"

def ofName? (name : String) : Option Topic := all.find? fun topic => topic.name == name

end Topic

structure CatalogueEntry where
  type : TypeId
  name : String
  topic : Topic
  note : String
  deriving DecidableEq

namespace CatalogueEntry

/-- The characters before the first pair of colons. -/
def untilColons : List Char → List Char
  | [] => []
  | [c] => [c]
  | a :: b :: rest => if a = ':' ∧ b = ':' then [] else a :: untilColons (b :: rest)

/-- The last segment of the name, where segments are divided by pairs of colons. -/
def lastSegment (entry : CatalogueEntry) : String :=
  String.ofList (untilColons entry.name.toList.reverse).reverse

end CatalogueEntry

structure Catalogue where
  table : TypeTable := .empty
  entries : List CatalogueEntry := []

namespace Catalogue

/-- Add a type and an entry that shows it. -/
def exhibit (topic : Topic) (note : String) (c : Composite) : StateM Catalogue TypeId :=
  fun catalogue =>
    let (id, table) := catalogue.table.add c
    (id, { table := table, entries := catalogue.entries ++ [⟨id, c.name, topic, note⟩] })

/-- The entries that a query names: all of a topic, or else the entry of that name, or else
those whose name ends in that segment. -/
def lookup (catalogue : Catalogue) (query : String) : List CatalogueEntry :=
  match Topic.ofName? query with
  | some topic => catalogue.entries.filter fun entry => entry.topic = topic
  | none =>
    match catalogue.entries.find? fun entry => entry.name == query with
    | some entry => [entry]
    | none => catalogue.entries.filter fun entry => entry.lastSegment == query

end Catalogue

end ObjectLayout
