import ObjectLayout.Proofs.InheritedSlots
import ObjectLayout.Proofs.MarkedRuns
import ObjectLayout.Proofs.ComparedPlacement
import ObjectLayout.Proofs.Variants

/-!
# Appended fields

Fields that are appended to a type leave alone what comes before them. Groups stay as they are, but
for the last run, which may go on; packing gives bits one by one, so the members that were there
keep theirs. Behind the fields lie the shared bases only, and these begin at a frontier that is no
earlier.
-/
namespace ObjectLayout

namespace FieldGroup

/-- The groups of more fields: the same ones, but the last run may go on, and others may follow. -/
inductive Extends : List FieldGroup → List FieldGroup → Prop
  | nil {more : List FieldGroup} : Extends [] more
  | run {unit : Nat} {fields others : List Field} {more : List FieldGroup} :
      Extends [.run unit fields] (.run unit (fields ++ others) :: more)
  | cons {group : FieldGroup} {groups more : List FieldGroup} (rest : Extends groups more) :
      Extends (group :: groups) (group :: more)

lemma Extends.joinRun (field : Field) {groups more : List FieldGroup} (h : Extends groups more) :
    Extends (joinRun field groups) (joinRun field more) := by
  cases h with
  | nil =>
    -- The field is a run of its own, or begins the run that comes first among the others.
    change Extends [.run field.storageUnit [field]] _
    unfold FieldGroup.joinRun
    split
    · next unit fields rest =>
      split
      · next hsame =>
        have hgoes : Extends [.run unit [field]] (.run unit ([field] ++ fields) :: rest) := .run
        rw [hsame]
        exact hgoes
      · exact .cons .nil
    · exact .cons .nil
  | @run unit fields others more =>
    rw [FieldGroup.joinRun, FieldGroup.joinRun]
    split
    · have hgoes : Extends [.run unit (field :: fields)]
          (.run unit ((field :: fields) ++ others) :: more) := .run
      exact hgoes
    · exact .cons .run
  | @cons group groups more rest =>
    cases group with
    | run unit fields =>
      rw [FieldGroup.joinRun, FieldGroup.joinRun]
      split
      · exact .cons rest
      · exact .cons (.cons rest)
    | _ => exact .cons (.cons rest)

lemma extends_ofFields (fields others : List Field) :
    Extends (ofFields fields) (ofFields (fields ++ others)) := by
  induction fields with
  | nil => exact .nil
  | cons field rest ih =>
    rw [List.cons_append, ofFields, ofFields]
    split
    · exact .cons ih
    · exact .cons ih
    · exact ih.joinRun field

section

variable {target : Target} {site : Site} {extent : FieldType → Except Rejection (Nat × Nat)}
  {frontier next last last' : Frontier} {placed placed' : List PlacedField}

/-- A run that goes on takes no less room, and its first members keep their bits. -/
lemma place_run_append {unit : Nat} {fields others : List Field} (hunit : 0 < unit)
    (h : (FieldGroup.run unit fields).place site extent frontier = .ok (last, placed))
    (h' : (FieldGroup.run unit (fields ++ others)).place site extent frontier =
      .ok (last', placed')) : last.Grows target last' ∧ placed <+: placed' := by
  obtain ⟨start, hstart, rfl, rfl⟩ := place_run_eq_ok h
  obtain ⟨start', hstart', rfl, rfl⟩ := place_run_eq_ok h'
  rw [← hstart] at hstart'
  subst hstart'
  rw [bitItems_append, PackedRun.ofMembers, PackedRun.ofMembers]
  dsimp only
  refine ⟨⟨?_, le_refl _, fun _ => id⟩, ?_⟩
  · rw [BitPacking.finish_append]
    refine Nat.add_le_add_left (Nat.div_le_div_right (nextMultiple_mono ?_ _)) _
    exact BitPacking.le_finish (Nat.mul_pos hunit (by decide))
  · rw [BitPacking.assign_append, List.map_append]
    exact List.prefix_append _ _

/-- What more fields are placed behind, they leave in its place. -/
lemma placeAll_extends {groups more : List FieldGroup} (hextends : Extends groups more)
    (hvalid : ∀ group ∈ more, group.Valid target)
    (hregular : target.pointerSize.isPowerOfTwo → ∀ group ∈ more, group.Regular extent)
    (hsite : ∀ clamp ∈ site.packing, clamp.isPowerOfTwo)
    (h : placeAll site extent frontier groups = .ok (last, placed))
    (h' : placeAll site extent frontier more = .ok (last', placed')) :
    last.Grows target last' ∧ placed <+: placed' := by
  induction hextends generalizing frontier placed placed' with
  | nil =>
    cases h
    exact ⟨placeAll_grows hvalid hregular hsite h', List.nil_prefix⟩
  | @run unit fields others more =>
    obtain ⟨next, first, rest, hgroup, hrest, rfl⟩ := placeAll_cons_eq_ok h
    obtain ⟨next', first', rest', hgroup', hrest', rfl⟩ := placeAll_cons_eq_ok h'
    obtain ⟨hhead, htail⟩ := List.forall_mem_cons.mp hvalid
    cases hrest
    obtain ⟨hgrows, hprefix⟩ := place_run_append hhead.1 hgroup hgroup'
    rw [List.append_nil]
    have hrest := placeAll_grows htail (fun hpointer group hmem => hregular hpointer group
      (List.mem_cons_of_mem _ hmem)) hsite hrest'
    exact ⟨hgrows.trans hrest, hprefix.trans (List.prefix_append _ _)⟩
  | @cons group groups more _ ih =>
    obtain ⟨next, first, rest, hgroup, hrest, rfl⟩ := placeAll_cons_eq_ok h
    obtain ⟨next', first', rest', hgroup', hrest', rfl⟩ := placeAll_cons_eq_ok h'
    obtain ⟨rfl, rfl⟩ := Prod.mk.inj (Except.ok.inj (hgroup.symm.trans hgroup'))
    obtain ⟨hgrows, hprefix⟩ :=
      ih (List.forall_mem_cons.mp hvalid).2 (fun hpointer group hmem =>
        hregular hpointer group (List.mem_cons_of_mem _ hmem)) hrest hrest'
    exact ⟨hgrows, (List.prefix_append_right_inj _).mpr hprefix⟩

end

end FieldGroup

/-- The same base, there or later. -/
structure PlacedBase.Later (base base' : PlacedBase) : Prop where
  same : base' = { base with offset := base'.offset }
  offset : base.offset ≤ base'.offset

/-- The same bases, there or later, and the slot with them. -/
structure Draft.Later (draft draft' : Draft) : Prop where
  frontier : draft.frontier.offset ≤ draft'.frontier.offset
  align : draft.frontier.align ≤ draft'.frontier.align
  dispatch : Option.Rel (· ≤ ·) draft.dispatch draft'.dispatch
  bases : List.Forall₂ PlacedBase.Later draft.bases draft'.bases

namespace Draft

variable {site : Site} {draft draft' next next' last last' : Draft} {type : TypeId}
  {sharing : Sharing} {core : Core} {size start start' : Nat} {bytes : TypeId × Core → Nat}
  {cores : List (TypeId × Core)}

lemma Later.refl (draft : Draft) : draft.Later draft :=
  ⟨le_refl _, le_refl _, slot_refl _, List.forall₂_same.mpr fun _ _ => ⟨rfl, le_refl _⟩⟩

lemma Embeds.later (h : Embeds site type sharing core size draft next start)
    (h' : Embeds site type sharing core size draft' next' start')
    (hpower : (site.granted core.align).isPowerOfTwo) (hlater : draft.Later draft') :
    next.Later next' := by
  have halign : next.frontier.align ≤ next'.frontier.align := by
    rw [h.align, h'.align]
    exact max_le_max_right _ hlater.align
  have hmoves : start ≤ start' ∧ next.frontier.offset ≤ next'.frontier.offset := by
    have hfrontier := hlater.frontier
    rcases Nat.eq_zero_or_pos core.dataSize with hempty | hfilled
    · obtain ⟨hstart, hoffset⟩ := h.empty hempty
      obtain ⟨hstart', hoffset'⟩ := h'.empty hempty
      omega
    · obtain ⟨hstart, hoffset⟩ := h.filled hfilled
      obtain ⟨hstart', hoffset'⟩ := h'.filled hfilled
      have hround := roundUp_mono hpower hfrontier
      omega
  refine ⟨hmoves.2, halign, ?_, ?_⟩
  · rw [h.dispatch, h'.dispatch]
    exact slot_within hlater.dispatch (slot_refl _) hmoves.1
  · rw [h.bases, h'.bases]
    exact List.rel_append hlater.bases (.cons ⟨rfl, hmoves.1⟩ .nil)

/-- From a frontier that is no earlier the same cores come to lie no earlier. -/
lemma embedAll_later (h : draft.embedAll site sharing bytes cores = .ok last)
    (h' : draft'.embedAll site sharing bytes cores = .ok last')
    (hcores : ∀ core ∈ cores, (site.granted core.2.align).isPowerOfTwo)
    (hlater : draft.Later draft') : last.Later last' := by
  induction cores generalizing draft draft' with
  | nil =>
    cases h
    cases h'
    exact hlater
  | cons core cores ih =>
    obtain ⟨next, hnext, h⟩ := foldlM_cons_eq_ok.mp h
    obtain ⟨next', hnext', h'⟩ := foldlM_cons_eq_ok.mp h'
    obtain ⟨start, hembeds⟩ := embed_eq_ok hnext
    obtain ⟨start', hembeds'⟩ := embed_eq_ok hnext'
    obtain ⟨hhead, htail⟩ := List.forall_mem_cons.mp hcores
    exact ih h h' htail (hembeds.later hembeds' hhead hlater)

end Draft

namespace Composite

variable {target : Target} {isPod : TypeId → Bool} {part : TypeId → Except Rejection Placed}
  {c : Composite} {placed placed' : Placed} {others : List Field}

/-- The type with more fields behind its own. -/
def appended (c : Composite) (others : List Field) : Composite :=
  { c with fields := c.fields ++ others }

/-- With more fields the steps up to the fields are the same, and those behind begin no earlier
where the alignments that they round to are powers of two. -/
theorem Construction.appended (steps : Construction target isPod part c placed)
    (steps' : Construction target isPod part (c.appended others) placed')
    (hwell : (c.appended others).WellFormed target) (hregular : steps'.PartsRegular) :
    steps'.based = steps.based ∧ placed.layout.fields <+: placed'.layout.fields ∧
      (target.pointerSize.isPowerOfTwo → steps.complete.Later steps'.complete) := by
  obtain ⟨howned, -, hhoisted⟩ := steps.cores_eq steps' rfl
  have hopened : steps'.opened = steps.opened := by
    have hslot := steps'.slot
    rw [howned] at hslot
    exact Except.ok.inj (hslot.symm.trans steps.slot)
  have hbased : steps'.based = steps.based := by
    have hbases := steps'.bases
    rw [howned, hopened] at hbases
    exact Except.ok.inj (hbases.symm.trans steps.bases)
  have hfields := steps'.fields
  rw [hbased] at hfields
  obtain ⟨hgrows, hprefix⟩ := FieldGroup.placeAll_extends
    (FieldGroup.extends_ofFields c.fields others) (FieldGroup.ofFields_valid hwell.fields)
    (hregular.groups hwell) hwell.packing steps.fields hfields
  have hforced : (c.forceAlign steps.frontier).align ≤
      ((c.appended others).forceAlign steps'.frontier).align := by
    refine forceAlign_align_le_iff.mpr ?_
    obtain ⟨halign, hforced⟩ :=
      forceAlign_align_le_iff.mp (le_refl ((c.appended others).forceAlign steps'.frontier).align)
    exact ⟨hgrows.align.trans halign, hforced⟩
  have hshared := steps'.shared
  rw [hhoisted, hbased] at hshared
  refine ⟨hbased, hprefix, fun hpointer => ?_⟩
  have hcores : ∀ core ∈ steps.hoisted, ((c.site target).granted core.2.align).isPowerOfTwo := by
    intro core hmem
    exact Site.granted_isPowerOfTwo hwell.packing
      ((hregular.hoisted core (hhoisted ▸ hmem)).align hpointer)
  refine Draft.embedAll_later steps.shared hshared hcores ⟨?_, hforced, ?_, ?_⟩
  · rw [forceAlign_offset, forceAlign_offset]
    exact hgrows.offset
  · exact slot_refl _
  · exact (Draft.Later.refl steps.based).bases

end Composite

/-- The second layout goes on where the first one ends: what is of the type itself stays where it
is, and nothing lies earlier or is smaller. -/
structure Layout.Continues (layout layout' : Layout) : Prop where
  fields : layout.fields <+: layout'.fields
  ownedBases : layout'.ownedBases = layout.ownedBases
  sharedBases : List.Forall₂ PlacedBase.Later layout.sharedBases layout'.sharedBases
  dispatch : Option.Rel (· ≤ ·) layout.dispatch layout'.dispatch
  align : layout.align ≤ layout'.align
  dataSize : layout.dataSize ≤ layout'.dataSize
  size : layout.size ≤ layout'.size

/-- A placement continues another where its last step is later and all before the fields is the
same. -/
lemma Composite.Construction.continues {target : Target} {isPod : TypeId → Bool}
    {part : TypeId → Except Rejection Placed} {c c' : Composite} {placed placed' : Placed}
    (steps : Construction target isPod part c placed)
    (steps' : Construction target isPod part c' placed') (hbased : steps'.based = steps.based)
    (hfields : placed.layout.fields <+: placed'.layout.fields)
    (hlater : steps.complete.Later steps'.complete) (hregular : placed.Regular target)
    (hregular' : placed'.Regular target) (hpointer : target.pointerSize.isPowerOfTwo) :
    placed.layout.Continues placed'.layout := by
  obtain ⟨howned, hbases, -, -⟩ := steps.bases_split
  obtain ⟨howned', hbases', -, -⟩ := steps'.bases_split
  have hdata : placed.layout.dataSize ≤ placed'.layout.dataSize := by
    rw [steps.dataSize_eq, steps'.dataSize_eq]
    exact hlater.frontier
  have halign : placed.layout.align ≤ placed'.layout.align := by
    rw [steps.align_eq, steps'.align_eq]
    exact hlater.align
  refine ⟨hfields, by rw [howned', hbased, howned], ?_, ?_, halign, hdata, ?_⟩
  · have hall := hlater.bases
    rw [hbases, hbases', hbased] at hall
    have hdrop := List.forall₂_drop_append _ _ _ hall
    rwa [List.drop_left] at hdrop
  · rw [steps.dispatch_eq, steps'.dispatch_eq]
    exact hlater.dispatch
  · rw [hregular.size, hregular'.size]
    exact roundUp_le_roundUp (max_le_max_right 1 hdata) (hregular.align hpointer)
      (hregular'.align hpointer) halign

namespace TypeTable

/-- A record that ends with a bit-field. -/
def sheet : Composite :=
  { name := "Sheet", introducesDispatch := true
    bases := [{ type := ⟨0⟩ }, { type := ⟨1⟩, sharing := .shared }]
    fields := [{ name := "kind", type := .char },
      { name := "low", type := .int, bitWidth := some 20 }] }

/-- Bit-fields that go on in the unit of the last one and in another, a marker, and a field. -/
def sheetNotes : List Field :=
  [{ name := "high", type := .int, bitWidth := some 10 },
    { name := "over", type := .int, bitWidth := some 5 },
    { name := "", type := .longLong, bitWidth := some 0 }, { name := "note", type := .double }]

def sheets : TypeTable :=
  { entries := #[
      ⟨"Counted", some
        { name := "Counted"
          fields := [{ name := "count", type := .int }, { name := "flag", type := .char }] }⟩,
      ⟨"Titled", some { name := "Titled", fields := [{ name := "title", type := .short }] }⟩,
      ⟨"Sheet", some sheet⟩] }

end TypeTable

end ObjectLayout
