import Mathlib.Data.List.Nodup
import Mathlib.Data.List.Perm.Subperm
import Mathlib.Logic.Relation
import ObjectLayout.TypeTable

/-!
# The graph of references

A type refers to the types of its bases and of its composite fields. Nothing keeps these
references inside the table or free of cycles. A walk over the graph carries the trail of types
that it is inside of: the trail repeats no type and holds defined types only, so it is never
longer than the table.
-/
namespace ObjectLayout

namespace Composite

/-- The types that a composite refers to: those of its bases, then those of its fields. -/
def references (c : Composite) : List TypeId :=
  c.bases.map Base.type ++ c.fields.filterMap fun field => field.type.composite?

lemma mem_references_of_base {c : Composite} {base : Base} (h : base ∈ c.bases) :
    base.type ∈ c.references :=
  List.mem_append_left _ (List.mem_map_of_mem h)

lemma mem_references_of_ownedBase {c : Composite} {base : Base} (h : base ∈ c.ownedBases) :
    base.type ∈ c.references :=
  mem_references_of_base (List.mem_of_mem_filter h)

lemma mem_references_of_field {c : Composite} {field : Field} {id : TypeId}
    (h : field ∈ c.fields) (hid : field.type = .composite id) : id ∈ c.references :=
  List.mem_append_right _ (List.mem_filterMap.mpr ⟨field, h, by rw [hid]; rfl⟩)

/-- The references of a composite are the types of its bases and of its composite fields. -/
lemma mem_references_iff {c : Composite} {id : TypeId} : id ∈ c.references ↔
    (∃ base ∈ c.bases, base.type = id) ∨ ∃ field ∈ c.fields, field.type = .composite id := by
  have hcomposite : ∀ field : Field, field.type.composite? = some id ↔
      field.type = .composite id := by
    intro field
    cases field.type <;> simp [FieldType.composite?]
  simp only [references, List.mem_append, List.mem_map, List.mem_filterMap, hcomposite]

end Composite

namespace TypeTable

/-- The types that a type refers to; none for a type without a description. -/
def references (table : TypeTable) (id : TypeId) : List TypeId :=
  ((table.get? id).map Composite.references).getD []

/-- `part` is the type of a base or of a field of `whole`. -/
def Refers (table : TypeTable) (whole part : TypeId) : Prop := part ∈ table.references whole

/-- `part` is `whole` itself or a type below it. -/
def Reaches (table : TypeTable) : TypeId → TypeId → Prop := Relation.ReflTransGen table.Refers

/-- `part` is reached from `whole` in one step or more. -/
def Below (table : TypeTable) : TypeId → TypeId → Prop := Relation.TransGen table.Refers

/-- No endless chain of references leaves the type. -/
def Acyclic (table : TypeTable) (id : TypeId) : Prop :=
  Acc (fun part whole => table.Refers whole part) id

variable {table : TypeTable} {id part : TypeId} {c : Composite}

lemma references_of_get? (h : table.get? id = some c) : table.references id = c.references := by
  rw [references, h]; rfl

lemma refers_iff (h : table.get? id = some c) : table.Refers id part ↔ part ∈ c.references := by
  rw [Refers, references_of_get? h]

lemma Reaches.refl (table : TypeTable) (id : TypeId) : table.Reaches id id :=
  Relation.ReflTransGen.refl

lemma Below.reaches (h : table.Below id part) : table.Reaches id part :=
  Relation.TransGen.to_reflTransGen h

lemma Refers.below (h : table.Refers id part) : table.Below id part :=
  Relation.TransGen.single h

lemma Below.of_refers_reaches {next : TypeId} (h : table.Refers id next)
    (h' : table.Reaches next part) : table.Below id part :=
  Relation.TransGen.head' h h'

lemma Below.trans {next : TypeId} (h : table.Below id next) (h' : table.Below next part) :
    table.Below id part :=
  Relation.TransGen.trans h h'

/-- What lies below a type is reached from one of the types that it refers to. -/
lemma below_iff : table.Below id part ↔ ∃ next, table.Refers id next ∧ table.Reaches next part :=
  Relation.TransGen.head'_iff

/-- What is reached from a closed set of types lies within the set. -/
lemma Reaches.mem_of_closed {ids : List TypeId}
    (hclosed : ∀ whole ∈ ids, ∀ other ∈ table.references whole, other ∈ ids)
    (h : table.Reaches id part) (hid : id ∈ ids) : part ∈ ids := by
  induction h with
  | refl => exact hid
  | tail _ hrefers ih => exact hclosed _ ih _ hrefers

/-- A type on no endless chain is not below itself. -/
lemma Acyclic.not_below (h : table.Acyclic id) : ¬ table.Below id id := by
  intro hid
  induction Acc.transGen h with
  | intro x _ ih => exact ih x (Relation.transGen_swap.mpr hid) h hid

lemma Acyclic.refers (h : table.Acyclic id) (hp : table.Refers id part) : table.Acyclic part :=
  Acc.inv h hp

/-- An entry with a description is the entry that `get?` reads. -/
lemma get?_of_described {name : String} (h : table.entry? id = some ⟨name, some c⟩) :
    table.get? id = some c := by
  rw [get?, h]; rfl

lemma lt_size_of_get? (h : table.get? id = some c) : id.index < table.size := by
  by_contra hge
  have hnone : table.entry? id = none := Array.getElem?_eq_none (Nat.le_of_not_lt hge)
  rw [get?, hnone] at h
  cases h

/-- The types that a walk is inside of when it comes to `id`. -/
structure Trail (table : TypeTable) (path : List TypeId) (id : TypeId) : Prop where
  nodup : path.Nodup
  defined : ∀ p ∈ path, (table.get? p).isSome
  above : ∀ p ∈ path, table.Below p id

namespace Trail

lemma nil (table : TypeTable) (id : TypeId) : table.Trail [] id :=
  ⟨List.nodup_nil, by simp, by simp⟩

/-- A step from a type that is not on the trail yet. -/
lemma step {path : List TypeId} (h : table.Trail path id) (hid : id ∉ path)
    (hc : table.get? id = some c) (hp : part ∈ c.references) : table.Trail (id :: path) part := by
  have hrefers : table.Refers id part := (refers_iff hc).mpr hp
  refine ⟨List.nodup_cons.mpr ⟨hid, h.nodup⟩, ?_, ?_⟩
  · rintro p (_ | ⟨_, hmem⟩)
    · rw [hc]; rfl
    · exact h.defined p hmem
  · rintro p (_ | ⟨_, hmem⟩)
    · exact hrefers.below
    · exact (h.above p hmem).trans hrefers.below

/-- A trail is never longer than the table. -/
lemma length_le {path : List TypeId} (h : table.Trail path id) : path.length ≤ table.size := by
  have hnodup : (path.map TypeId.index).Nodup :=
    h.nodup.map fun _ _ => TypeId.ext_index
  have hsub : path.map TypeId.index ⊆ List.range table.size := by
    intro i hi
    obtain ⟨p, hp, rfl⟩ := List.mem_map.mp hi
    obtain ⟨c, hc⟩ := Option.isSome_iff_exists.mp (h.defined p hp)
    exact List.mem_range.mpr (lt_size_of_get? hc)
  have hle := (hnodup.subperm hsub).length_le
  simpa using hle

lemma not_mem {path : List TypeId} (h : table.Trail path id) (hid : table.Acyclic id) :
    id ∉ path :=
  fun hmem => hid.not_below (h.above id hmem)

end Trail

end TypeTable

end ObjectLayout
