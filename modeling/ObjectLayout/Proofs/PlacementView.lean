import ObjectLayout.Proofs.RenamedPlacement

/-!
# What placement sees

Placement looks at a description through a view that hides the accesses of bases and fields, the
initializers and the special members. A description and its view ask for the same alignments and
are placed alike, so tables with the same view have the same layouts. One channel is left: where
tail padding is reused, placement asks whether a base is plain old data, and that answer may depend
on what the view hides.
-/
namespace ObjectLayout

/-- The table with every description seen through a view. -/
def TypeTable.view (sees : Composite → Composite) (table : TypeTable) : TypeTable :=
  ⟨table.entries.map fun entry => { entry with composite := entry.composite.map sees }⟩

namespace TypeTable

variable {sees : Composite → Composite} {table : TypeTable} {id : TypeId}

@[simp] lemma size_view : (table.view sees).size = table.size := Array.size_map

lemma entry?_view : entry? (table.view sees) id =
    (table.entry? id).map fun entry => { entry with composite := entry.composite.map sees } :=
  Array.getElem?_map

lemma get?_view : (table.view sees).get? id = (table.get? id).map sees := by
  rw [get?, get?, entry?_view]
  cases table.entry? id <;> rfl

lemma name?_view : (table.view sees).name? id = table.name? id := by
  rw [name?, name?, entry?_view]
  cases table.entry? id <;> rfl

end TypeTable

/-- A field without its access and its initializer. -/
def Field.placementView (field : Field) : Field :=
  { field with access := .pub, hasInitializer := false }

/-- A base without its access. -/
def Base.hideAccess (base : Base) : Base := { base with access := .pub }

/-- A description without accesses, initializers and special members. -/
def Composite.placementView (c : Composite) : Composite :=
  { c with
    bases := c.bases.map Base.hideAccess
    fields := c.fields.map Field.placementView
    userProvided := {} }

namespace FieldGroup

variable {site : Site} {extent : FieldType → Except Rejection (Nat × Nat)}

lemma place_placementView (group : FieldGroup) (frontier : Frontier) :
    (group.map Field.placementView).place site extent frontier =
      group.place site extent frontier := by
  cases group with
  | run unit fields =>
    rw [map, place, place, List.map_map]
    rfl
  | _ => rfl

lemma placeAll_placementView (groups : List FieldGroup) (frontier : Frontier) :
    placeAll site extent frontier (groups.map (map Field.placementView)) =
      placeAll site extent frontier groups := by
  induction groups generalizing frontier with
  | nil => rfl
  | cons group groups ih =>
    rw [List.map_cons, placeAll, placeAll, place_placementView]
    apply bind_congr_ok
    rintro ⟨next, placed⟩ -
    dsimp only
    rw [ih]

end FieldGroup

namespace Composite

variable {target : Target} {isPod : TypeId → Bool} {part : TypeId → Except Rejection Placed}
  {c d : Composite}

lemma ownedBases_placementView :
    c.placementView.ownedBases = c.ownedBases.map Base.hideAccess := List.filter_map

lemma references_placementView : c.placementView.references = c.references := by
  rw [references, references, placementView, List.map_map, List.filterMap_map]
  rfl

lemma fieldDemands_placementView (owner : String) (seen : List String) (fields : List Field) :
    fieldDemands target owner seen (fields.map Field.placementView) =
      fieldDemands target owner seen fields := by
  induction fields generalizing seen with
  | nil => rfl
  | cons field fields ih =>
    rw [List.map_cons, fieldDemands, fieldDemands]
    exact congrArg _ (ih (field.name :: seen))

lemma demands_placementView : c.placementView.demands target = c.demands target := by
  unfold demands
  dsimp only [placementView]
  rw [fieldDemands_placementView, List.map_map]
  rfl

/-- A description is placed as its view is. -/
theorem place_placementView :
    c.placementView.place target isPod part = c.place target isPod part := by
  have hcores : c.placementView.ownedCores part = c.ownedCores part := by
    rw [ownedCores, ownedBases_placementView, List.mapM_map]
    rfl
  have hgroups : FieldGroup.ofFields c.placementView.fields =
      (FieldGroup.ofFields c.fields).map (FieldGroup.map Field.placementView) :=
    FieldGroup.ofFields_map Field.placementView (fun _ => rfl) (fun _ => rfl) c.fields
  have hown : c.placementView.placeOwn target isPod part = c.placeOwn target isPod part := by
    rw [placeOwn, placeOwn, hcores, hgroups]
    refine bind_congr_ok fun owned _ => bind_congr_ok fun opened _ => ?_
    refine bind_congr_ok fun based _ => ?_
    exact congrArg (· >>= _) (FieldGroup.placeAll_placementView _ based.frontier)
  have hshared : c.placementView.hoisted part = c.hoisted part := by
    rw [hoisted, hoisted, placementView, List.foldlM_map]
    rfl
  rw [place, place, hown, hshared]
  rfl

end Composite

namespace TypeTable

variable {P Q table : TypeTable} {target : Target} {id : TypeId}
  {answer : Except Rejection Placed}

lemma acceptWithin_placementView (room : Nat) :
    (table.view Composite.placementView).acceptWithin target room =
      table.acceptWithin target room := by
  induction room with
  | zero =>
    funext path id
    rw [acceptWithin, acceptWithin, name?_view]
  | succ room ih =>
    funext path id
    funext memo
    rw [acceptWithin_succ, acceptWithin_succ, entry?_view, ih]
    cases table.entry? id with
    | none => rfl
    | some entry =>
      obtain ⟨name, _ | c⟩ := entry
      · rfl
      · simp only [Option.map_some, Composite.demands_placementView]
        rfl

/-- Acceptance sees no more than placement does. -/
lemma accept_placementView :
    (table.view Composite.placementView).accept target id = table.accept target id := by
  rw [accept, accept, acceptWithin_placementView, size_view]

section

variable (hview : P.view Composite.placementView = Q.view Composite.placementView)

include hview

lemma exists_get?_of_view {c : Composite} (hc : P.get? id = some c) :
    ∃ d, Q.get? id = some d ∧ c.placementView = d.placementView := by
  have hseen : (P.view Composite.placementView).get? id =
      (Q.view Composite.placementView).get? id := by rw [hview]
  rw [get?_view, get?_view, hc, Option.map_some] at hseen
  obtain ⟨d, hd, hsame⟩ := Option.map_eq_some_iff.mp hseen.symm
  exact ⟨d, hd, hsame.symm⟩

lemma references_of_view : P.references id = Q.references id := by
  have hrefs (table : TypeTable) :
      (table.view Composite.placementView).references id = table.references id := by
    rw [references, references, get?_view]
    cases table.get? id with
    | none => rfl
    | some c => exact Composite.references_placementView
  rw [← hrefs P, ← hrefs Q, hview]

lemma below_of_view : P.Below id = Q.Below id := by
  have hrefers : P.Refers = Q.Refers := by
    funext id other
    rw [Refers, Refers, references_of_view hview]
  rw [Below, Below, hrefers]

/-- A placement depends on the view, and on what is asked about plain old data. -/
theorem PlacedAs.of_view (hpod : target.tailPadding = .reuse → ∀ id, P.isPod id = Q.isPod id)
    (h : P.PlacedAs target id answer) : Q.PlacedAs target id answer := by
  induction h with
  | @intro id c part defined parts ih =>
    obtain ⟨d, hd, hsame⟩ := exists_get?_of_view hview defined
    have hplace : c.place target P.isPod part = d.place target Q.isPod part := by
      rw [← Composite.place_placementView, hsame, Composite.place_placementView]
      exact Composite.place_congr (fun _ _ => rfl) (fun _ _ _ _ _ _ => rfl)
        fun hpolicy id _ => hpod hpolicy id
    rw [hplace]
    refine .intro part hd fun other hbelow => ih other ?_
    rwa [below_of_view hview]

/-- Tables with the same view have the same layouts, if they agree about plain old data wherever
placement asks for it. -/
theorem layout_of_view (hpod : target.tailPadding = .reuse → ∀ id, P.isPod id = Q.isPod id) :
    P.layout target id = Q.layout target id := by
  have hanswers := P.layout_answers target id
  have hanswers' := Q.layout_answers target id
  rw [← accept_placementView, hview, accept_placementView] at hanswers
  cases hresult : TypeTable.answer ((Q.accept target id).run {}) with
  | error rejection =>
    rw [hresult] at hanswers hanswers'
    exact Eq.trans hanswers hanswers'.symm
  | ok align =>
    rw [hresult] at hanswers hanswers'
    obtain ⟨-, placed, hplaced, hlayout⟩ := hanswers
    obtain ⟨-, placed', hplaced', hlayout'⟩ := hanswers'
    rw [hlayout, hlayout', (hplaced.of_view hview hpod).unique hplaced']

end

end TypeTable

end ObjectLayout
