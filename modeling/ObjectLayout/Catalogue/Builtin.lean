import ObjectLayout.Catalogue.Basic

/-!
# The built-in catalogue

Examples of field order and padding, forced alignment, packing, bit-fields, inheritance with and
without dispatch, empty bases, the traits of a type, and diamond hierarchies.
-/
namespace ObjectLayout.Catalogue

def char (name : String) : Field := { name := name, type := .char }

def int (name : String) : Field := { name := name, type := .int }

def double (name : String) : Field := { name := name, type := .double }

/-- A bit-field in units of an unsigned scalar of `bytes` bytes. -/
def bits (name : String) (bytes width : Nat) : Field :=
  { name := name, type := .scalar bytes bytes, bitWidth := some width }

def nested (name : String) (type : TypeId) : Field := { name := name, type := .composite type }

def prot (field : Field) : Field := { field with access := .prot }

def priv (field : Field) : Field := { field with access := .priv }

def alignmentExamples : StateM Catalogue Unit := do
  let exhibit := exhibit .alignment
  let _ ← exhibit "chars between ints: every int starts a new 4-byte block" {
    name := "alignment::Interleaved"
    fields := [char "c1", int "number1", char "c2", char "c3", int "number2"] }
  let _ ← exhibit "chars grouped before the ints" {
    name := "alignment::CharsFirst"
    fields := [char "c1", char "c2", char "c3", int "number1", int "number2"] }
  let _ ← exhibit "ints first, chars in the tail padding" {
    name := "alignment::IntsFirst"
    fields := [int "number1", int "number2", char "c1", char "c2", char "c3"] }
  let _ ← exhibit "four chars fill the first block exactly" {
    name := "alignment::FourChars"
    fields := [char "c1", char "c2", char "c3", char "c4", int "number1", int "number2"] }
  let _ ← exhibit "a byte buffer aligned like the widest of int and char" {
    name := "alignment::Buffer"
    fields := [{ name := "buffer", type := .scalar 4 1 }]
    forcedAlign := some 4 }
  let _ ← exhibit "a double raises the block size to 8" {
    name := "alignment::WithDouble"
    fields := [char "c1", double "flag", char "c2", char "c3", int "number"] }
  let _ ← exhibit "alignas(16) on the type" {
    name := "alignment::Aligned16"
    fields := [int "number1", char "c1", char "c2", char "c3", int "number2", int "number3"]
    forcedAlign := some 16 }
  let _ ← exhibit "#pragma pack(1): no padding at all" {
    name := "alignment::Packed"
    fields := [char "c1", double "flag", char "c2", char "c3", int "number"]
    packing := some 1 }

def bitfieldExamples : StateM Catalogue Unit := do
  let exhibit := exhibit .bitfields
  let _ ← exhibit "mixed storage units split into three regions" {
    name := "bitfields::Mixed"
    fields := [bits "number1" 2 10, bits "c1" 1 4, bits "c2" 1 4, bits "c3" 1 4,
      bits "number2" 2 10] }
  let _ ← exhibit "one 32-bit unit holds all 32 bits" {
    name := "bitfields::Uniform"
    fields := [bits "number1" 4 10, bits "c1" 4 4, bits "c2" 4 4, bits "c3" 4 4,
      bits "number2" 4 10] }
  let _ ← exhibit "an unnamed zero-width field starts a new unit" {
    name := "bitfields::Flushed"
    fields := [bits "low" 4 3, bits "" 4 0, bits "high" 4 3] }

def inheritanceExamples : StateM Catalogue Unit := do
  let exhibit := exhibit .inheritance
  let base ← exhibit "int then char: three bytes of tail padding" {
    name := "inheritance::Base"
    fields := [int "number", char "c"] }
  let _ ← exhibit "derived field starts after the base's padding" {
    name := "inheritance::Derived"
    bases := [{ type := base }]
    fields := [char "c"] }
  let _ ← exhibit "the base as a member lays out the same" {
    name := "inheritance::Example"
    fields := [nested "base" base, char "c"] }

def polymorphismExamples : StateM Catalogue Unit := do
  let exhibit := exhibit .polymorphism
  let base ← exhibit "dispatch slot first, then the int" {
    name := "polymorphism::Base"
    fields := [int "number"]
    introducesDispatch := true }
  let derived (name : String) := exhibit
    "overrides reuse the base's slot; try --reuse-tail-padding" {
      name := name
      bases := [{ type := base }]
      fields := [char "c"]
      introducesDispatch := true }
  let _ ← derived "polymorphism::Derived1"
  let _ ← derived "polymorphism::Derived2"
  let interface ← exhibit "no fields: just the dispatch slot" {
    name := "polymorphism::Interface"
    introducesDispatch := true }
  let _ ← exhibit "an override adds no second slot" {
    name := "polymorphism::Impl"
    bases := [{ type := interface }]
    introducesDispatch := true }

def emptyBaseExamples : StateM Catalogue Unit := do
  let exhibit := exhibit .ebo
  let base ← exhibit "an empty type still occupies one byte" { name := "ebo::Base" }
  let _ ← exhibit "an empty base adds nothing" {
    name := "ebo::Derived"
    bases := [{ type := base }] }
  let _ ← exhibit "an empty base shares its address with the first field" {
    name := "ebo::WithData"
    bases := [{ type := base }]
    fields := [int "number"] }
  let _ ← exhibit "an empty member is not optimised away" {
    name := "ebo::Member"
    fields := [nested "empty" base, int "number"] }

def traitExamples : StateM Catalogue Unit := do
  let exhibit := exhibit .pod
  let _ ← exhibit "empty" { name := "pod::T1" }
  let _ ← exhibit "mixed access: trivial, not standard layout" {
    name := "pod::T2"
    fields := [int "i", prot (int "j"), priv (int "z")] }
  let _ ← exhibit "every special member defaulted" { name := "pod::T3" }
  let _ ← exhibit "a converting constructor does not count" {
    name := "pod::T4"
    fields := [prot (int "_number")] }
  let _ ← exhibit "default member initializer" {
    name := "pod::T6"
    fields := [priv { int "a" with hasInitializer := true }] }
  let _ ← exhibit "user-provided default constructor" {
    name := "pod::T7"
    fields := [prot (int "a")]
    userProvided := { construct := true } }
  let _ ← exhibit "virtual destructor" {
    name := "pod::T8"
    introducesDispatch := true }
  let s1 ← exhibit "empty" { name := "pod::S1" }
  let s2 ← exhibit "one private field" {
    name := "pod::S2"
    fields := [priv (int "z")] }
  let s3 ← exhibit "every special member defaulted" { name := "pod::S3" }
  let _ ← exhibit "user-provided constructor, single access group" {
    name := "pod::S6"
    fields := [prot (int "a")]
    userProvided := { construct := true } }
  let _ ← exhibit "three access groups" {
    name := "pod::S8"
    fields := [int "i", prot (int "j"), priv (int "z")] }
  let _ ← exhibit "empty base, no fields" {
    name := "pod::Derived1"
    bases := [{ type := s1 }] }
  let _ ← exhibit "fields only in the most-derived layer" {
    name := "pod::Derived2"
    bases := [{ type := s1 }]
    fields := [nested "s2" s2, nested "s3" s3] }
  let _ ← exhibit "fields only in one base" {
    name := "pod::Derived3"
    bases := [{ type := s1 }, { type := s2 }] }
  let _ ← exhibit "first field has a base's type" {
    name := "pod::Derived4"
    bases := [{ type := s1, access := .priv }]
    fields := [priv (nested "s1" s1)] }
  let _ ← exhibit "fields in two layers" {
    name := "pod::Derived5"
    bases := [{ type := s1, access := .priv }, { type := s2, access := .priv }]
    fields := [priv (int "number")] }
  let a ← exhibit "empty root" { name := "pod::A" }
  let left ← exhibit "owns A" { name := "pod::B", bases := [{ type := a }] }
  let right ← exhibit "owns A" { name := "pod::C", bases := [{ type := a }] }
  let _ ← exhibit "A reached twice" {
    name := "pod::D"
    bases := [{ type := left }, { type := right }] }

/-- A diamond with data in every type, whose arms own or share the root. -/
def dataDiamond (path : String) (sharing : Sharing) (note : String) : StateM Catalogue Unit := do
  let exhibit := exhibit .diamond
  let root ← exhibit "root with data" { name := path ++ "::A", fields := [int "a"] }
  let arm := [{ type := root, sharing := sharing : Base }]
  let left ← exhibit "left arm" { name := path ++ "::B", bases := arm, fields := [int "b"] }
  let right ← exhibit "right arm" { name := path ++ "::C", bases := arm, fields := [int "c"] }
  let _ ← exhibit note {
    name := path ++ "::D"
    bases := [{ type := left }, { type := right }]
    fields := [int "d"] }

def diamondExamples : StateM Catalogue Unit := do
  let exhibit := exhibit .diamond
  let lifecycle : SpecialMembers := { construct := true, destroy := true }
  let root ← exhibit "root with its own constructor and destructor" {
    name := "diamond::A"
    userProvided := lifecycle }
  let arm := [{ type := root, sharing := .shared : Base }]
  let left ← exhibit "virtual A" {
    name := "diamond::B"
    bases := arm
    userProvided := lifecycle }
  let right ← exhibit "virtual A" {
    name := "diamond::C"
    bases := arm
    userProvided := lifecycle }
  let _ ← exhibit "one A subobject, constructed once" {
    name := "diamond::D"
    bases := [{ type := left }, { type := right }]
    userProvided := lifecycle }
  dataDiamond "diamond::shared" .shared "A placed once, after D's own part"
  dataDiamond "diamond::owned" .owned "A placed once per arm"

def examples : StateM Catalogue Unit := do
  alignmentExamples
  bitfieldExamples
  inheritanceExamples
  polymorphismExamples
  emptyBaseExamples
  traitExamples
  diamondExamples

def builtin : Catalogue := (examples.run {}).2

end ObjectLayout.Catalogue
