import ObjectLayout.Proofs.PlacementView

/-!
# What classification sees

Classification looks at a description through a view of its own, which hides how large and how
aligned things are: the sizes and alignments of scalars, whether a field is a scalar or a pointer,
the widths of bit-fields that hold data, the accesses of bases, and the alignment directives. Tables
with the same view are judged alike, with the same reasons and in whatever order the questions come,
also where descriptions are missing or lead back to themselves.
-/
namespace ObjectLayout

/-- A field type without what is only of use for placement. -/
def FieldType.traitView : FieldType → FieldType
  | .composite id => .composite id
  | .scalar _ _ | .pointer => .pointer

/-- A field without its size, its alignment and its width; that it is a marker is still seen. -/
def Field.traitView (field : Field) : Field :=
  { field with
    type := field.type.traitView
    bitWidth := if field.isMarker then some 0 else none
    forcedAlign := none }

/-- A description without sizes, alignments, widths and the accesses of bases. -/
def Composite.traitView (c : Composite) : Composite :=
  { c with
    bases := c.bases.map Base.hideAccess
    fields := c.fields.map Field.traitView
    forcedAlign := none
    packing := none }

lemma Field.isMarker_traitView (field : Field) : field.traitView.isMarker = field.isMarker := by
  rw [isMarker, traitView]
  cases field.isMarker <;> rfl

namespace Composite

variable {c : Composite} {ancestry : Ancestry} {bases : List (Base × Verdict)}
  {fields : List (Field × Verdict)}

lemma members_traitView : c.traitView.members = c.members.map Field.traitView := by
  rw [members, members, traitView, List.filter_map]
  exact congrArg (List.map _) (List.filter_congr fun field _ => by
    rw [Function.comp_apply, Field.isMarker_traitView])

lemma trivialViolations_traitView :
    c.traitView.trivialViolations (bases.map (Prod.map Base.hideAccess id))
        (fields.map (Prod.map Field.traitView id)) =
      c.trivialViolations bases fields := by
  simp only [trivialViolations, List.flatMap_map]
  rfl

lemma firstFieldViolations_traitView :
    c.traitView.firstFieldViolations ancestry = c.firstFieldViolations ancestry := by
  unfold firstFieldViolations
  rw [members_traitView, List.head?_map]
  cases c.members.head? with
  | none => rfl
  | some field =>
    obtain ⟨name, type, bitWidth, forcedAlign, access, hasInitializer⟩ := field
    cases type <;> rfl

lemma standardLayoutViolations_traitView :
    c.traitView.standardLayoutViolations ancestry (bases.map (Prod.map Base.hideAccess id))
        (fields.map (Prod.map Field.traitView id)) =
      c.standardLayoutViolations ancestry bases fields := by
  have hgroups : c.traitView.accessGroups = c.accessGroups := by
    rw [accessGroups, accessGroups, members_traitView, List.map_map]
    rfl
  simp only [standardLayoutViolations, List.flatMap_map, firstFieldViolations_traitView, hgroups]
  rfl

/-- The reasons against a description are those against its view. -/
theorem assessment_traitView :
    c.traitView.assessment ancestry (bases.map (Prod.map Base.hideAccess id))
        (fields.map (Prod.map Field.traitView id)) =
      c.assessment ancestry bases fields := by
  rw [assessment, trivialViolations_traitView, standardLayoutViolations_traitView]
  rfl

end Composite

/-- Looking up what a map leaves in place is looking up the list that is mapped. -/
lemma Classified.lookUp_map {σ α β : Type} (look : α → StateM σ β) (f : α → α)
    (hlook : ∀ x, look (f x) = look x) (l : List α) (s : σ) :
    lookUp look (l.map f) s =
      ((lookUp look l s).1.map (Prod.map f id), (lookUp look l s).2) := by
  have hrepeats : Repeats (List.map (Prod.map f id)) Eq (lookUp look l s)
      (lookUp look (l.map f) s) := by
    refine lookUp_repeats look (fun x _ s s' hs => ?_) rfl
    rw [hlook, hs]
    exact ⟨rfl, rfl⟩
  exact Prod.ext hrepeats.1 hrepeats.2.symm

lemma Classified.fieldVerdict_traitView (assess : TypeId → Classified Assessment)
    (type : FieldType) : fieldVerdict assess type.traitView = fieldVerdict assess type := by
  cases type <;> rfl

namespace TypeTable

variable {P Q table : TypeTable} {id : TypeId}

lemma ancestryWithin_traitView (room : Nat) :
    (table.view Composite.traitView).ancestryWithin room = table.ancestryWithin room := by
  induction room with
  | zero => rfl
  | succ room ih =>
    funext path id
    funext memo
    rw [ancestryWithin_succ, ancestryWithin_succ, get?_view]
    cases table.get? id with
    | none => rfl
    | some c =>
      have hroot : Ancestry.root id c.traitView = Ancestry.root id c := by
        rw [Ancestry.root, Ancestry.root, Composite.declaresData, Composite.declaresData,
          Composite.members_traitView, List.isEmpty_map]
      have hgather (start : Ancestry) :
          (table.view Composite.traitView).gatherWithin room (id :: path) start c.traitView.bases =
            table.gatherWithin room (id :: path) start c.bases := by
        rw [gatherWithin, gatherWithin, ih, Composite.traitView, List.foldlM_map]
        rfl
      simp only [Option.map_some, hroot, hgather]

/-- Classification goes through the view and through the description in the same way. -/
theorem explainWithin_traitView (room : Nat) :
    (table.view Composite.traitView).explainWithin room = table.explainWithin room := by
  induction room with
  | zero => rfl
  | succ room ih =>
    funext path id
    funext memory
    have hancestry : Classified.ancestry (table.view Composite.traitView) id =
        Classified.ancestry table id := by
      funext memory
      rw [Classified.ancestry, Classified.ancestry, ancestry, ancestry, ancestryWithin_traitView,
        size_view]
    rw [explainWithin_succ, explainWithin_succ, get?_view, hancestry, ih]
    cases table.get? id with
    | none => rfl
    | some c =>
      simp only [Option.map_some]
      by_cases hid : id ∈ path
      · simp only [hid, if_true]
      simp only [hid, if_false]
      cases Classified.ancestry table id memory with
      | mk found next =>
        cases found with
        | error reason => rfl
        | ok ancestry =>
          dsimp only
          generalize table.explainWithin room (id :: path) = assess
          have hbases : c.traitView.bases = c.bases.map Base.hideAccess := rfl
          have hfields : c.traitView.fields = c.fields.map Field.traitView := rfl
          rw [hbases, hfields, Classified.lookUp_map _ Base.hideAccess fun _ => rfl,
            Classified.lookUp_map _ Field.traitView fun field =>
              Classified.fieldVerdict_traitView assess field.type,
            Composite.assessment_traitView]

/-- Neither of the two questions sees what only the other one is about. Tables that differ only in
accesses, initializers and special members have the same layouts; where tail padding is reused they
do so if the same types are plain old data in both. Tables that differ only in the sizes, the
alignments and the widths of fields, in accesses of bases and in directives are judged alike,
whatever has been asked before. -/
theorem answers_of_equal_views :
    (∀ (P Q : TypeTable) (target : Target),
        P.view Composite.placementView = Q.view Composite.placementView →
        (target.tailPadding = .reuse → ∀ id, P.isPod id = Q.isPod id) →
        ∀ id, P.layout target id = Q.layout target id) ∧
      ∀ P Q : TypeTable, P.view Composite.traitView = Q.view Composite.traitView →
        ∀ id memory, (P.explain id).run memory = (Q.explain id).run memory := by
  refine ⟨fun P Q target hview hpod id => layout_of_view hview hpod, fun P Q hview id memory => ?_⟩
  have hseen (table : TypeTable) :
      (table.view Composite.traitView).explain id = table.explain id := by
    rw [explain, explain, explainWithin_traitView, size_view]
  rw [← hseen P, hview, hseen Q]

lemma isPod_of_undefined (hundefined : table.get? id = none) : table.isPod id = false := by
  have hassess : table.explain id {} = (.both (.unresolved id), {}) := by
    rw [explain, explainWithin_succ, hundefined]
  rw [isPod, classify]
  show (Classified.verdictOf table.explain id {}).1.isPod = false
  rw [Classified.verdictOf_apply, hassess]
  rfl

/-- A base with a private field below a type of its own. -/
def privateCount : TypeTable :=
  { entries := #[
      ⟨"Count", some
        { name := "Count"
          fields := [{ name := "count", type := .int, access := .priv },
            { name := "kind", type := .char }] }⟩,
      ⟨"Owner", some
        { name := "Owner", bases := [{ type := ⟨0⟩, access := .priv }]
          fields := [{ name := "mark", type := .char }] }⟩] }

/-- The same types with public fields, one of them initialized. -/
def initializedCount : TypeTable :=
  { entries := #[
      ⟨"Count", some
        { name := "Count", userProvided := { destroy := true }
          fields := [{ name := "count", type := .int, hasInitializer := true },
            { name := "kind", type := .char }] }⟩,
      ⟨"Owner", some
        { name := "Owner", bases := [{ type := ⟨0⟩ }]
          fields := [{ name := "mark", type := .char }] }⟩] }

/-- Two types that lead to one another, and one of them to an undefined type. -/
def alignedLoop : TypeTable :=
  { entries := #[
      ⟨"Whole", some
        { name := "Whole", forcedAlign := some 16, bases := [{ type := ⟨1⟩ }]
          fields := [{ name := "size", type := .int }] }⟩,
      ⟨"Part", some
        { name := "Part"
          fields := [{ name := "flags", type := .int, bitWidth := some 3 },
            { name := "whole", type := .composite ⟨0⟩ },
            { name := "lost", type := .composite ⟨2⟩ }] }⟩,
      ⟨"Lost", none⟩] }

/-- The same types with other sizes, widths, accesses and directives. -/
def packedLoop : TypeTable :=
  { entries := #[
      ⟨"Whole", some
        { name := "Whole", packing := some 2
          bases := [{ type := ⟨1⟩, access := .prot }]
          fields := [{ name := "size", type := .pointer }] }⟩,
      ⟨"Part", some
        { name := "Part"
          fields := [{ name := "flags", type := .short, bitWidth := some 9 },
            { name := "whole", type := .composite ⟨0⟩ },
            { name := "lost", type := .composite ⟨2⟩ }] }⟩,
      ⟨"Lost", none⟩] }

/-- The base is plain old data in neither table, and the field of its owner lies in its tail padding
in both; the loop is judged alike. -/
theorem answers_of_equal_views_counts :
    let target : Target := { Target.lp64 with tailPadding := .reuse }
    (∀ id, privateCount.isPod id = initializedCount.isPod id) ∧
      privateCount.layout target ⟨1⟩ = .ok
        { size := 8, align := 4, dataSize := 6, dispatch := none
          fields := [⟨"mark", 5, 1, none⟩], bases := [⟨⟨0⟩, 0, 8, .owned⟩] } ∧
      privateCount.layout target ⟨1⟩ = initializedCount.layout target ⟨1⟩ ∧
      ((alignedLoop.explain ⟨0⟩).run {}).1.trivial = [.nonTrivialBase ⟨1⟩] ∧
      (alignedLoop.explain ⟨0⟩).run {} = (packedLoop.explain ⟨0⟩).run {} := by
  intro target
  obtain ⟨hlayout, hexplain⟩ := answers_of_equal_views
  have hpods : ∀ id, privateCount.isPod id = initializedCount.isPod id := by
    intro id
    by_cases hid : id.index < 2
    · exact (by decide +kernel : ∀ i < 2,
        privateCount.isPod ⟨i⟩ = initializedCount.isPod ⟨i⟩) id.index hid
    · have hnone (table : TypeTable) (hsize : table.size = 2) : table.get? id = none := by
        have hentry : table.entries[id.index]? = none :=
          Array.getElem?_eq_none (by rw [← size, hsize]; omega)
        rw [get?, entry?, hentry]
        rfl
      rw [isPod_of_undefined (hnone privateCount rfl),
        isPod_of_undefined (hnone initializedCount rfl)]
  exact ⟨hpods, by decide +kernel,
    hlayout privateCount initializedCount target (by decide +kernel) (fun _ => hpods) ⟨1⟩,
    by decide +kernel, hexplain alignedLoop packedLoop (by decide +kernel) ⟨0⟩ {}⟩

end TypeTable

end ObjectLayout
