import ObjectLayout.Proofs.Composition
import ObjectLayout.Proofs.ForcedAlignment
import ObjectLayout.Proofs.HollowTypes

/-!
# Empty bases

A base without data takes no room: wherever it stands among the owned bases, the frontier stays
where it is, and of all that is placed behind it only the list of bases and the alignment counted
tell that it is there. So a type with one more hollow base has the layout that it had, with an entry
for this base and its alignment counted. Nothing new can go wrong but that the coarser alignment
takes the size out of bounds.
-/
namespace ObjectLayout

lemma Frontier.raise_zero (frontier : Frontier) : frontier.raise 0 = frontier := by
  rw [raise, Nat.max_zero]

namespace FieldGroup

variable {site : Site} {extent : FieldType → Except Rejection (Nat × Nat)} {forced : Nat}

lemma place_raise (group : FieldGroup) (frontier : Frontier) :
    group.place site extent (frontier.raise forced) =
      (group.place site extent frontier).map (Prod.map (Frontier.raise forced) id) := by
  cases group with
  | plain field =>
    rw [place, place]
    cases extent field.type with
    | error rejection => rfl
    | ok found =>
      obtain ⟨size, natural⟩ := found
      dsimp only [bind, Except.bind]
      rw [Frontier.alignFor_raise]
      refine bind_comm fun start => ?_
      rw [Frontier.advance_raise]
      exact bind_comm fun _ => rfl
  | marker field =>
    rw [place, place, Frontier.roundTo_raise]
    exact bind_comm fun _ => rfl
  | run unit fields =>
    rw [place, place, Frontier.alignFor_raise]
    refine bind_comm fun start => ?_
    rw [Frontier.advance_raise]
    exact bind_comm fun _ => rfl

/-- No field looks at the alignment counted so far. -/
lemma placeAll_raise (groups : List FieldGroup) (frontier : Frontier) :
    placeAll site extent (frontier.raise forced) groups =
      (placeAll site extent frontier groups).map (Prod.map (Frontier.raise forced) id) := by
  induction groups generalizing frontier with
  | nil => rfl
  | cons group groups ih =>
    rw [placeAll, placeAll, place_raise]
    refine bind_comm ?_
    rintro ⟨next, first⟩
    dsimp only [Prod.map]
    rw [ih]
    exact bind_comm fun _ => rfl

end FieldGroup

namespace Draft

variable {site : Site} {sharing : Sharing} {bytes : TypeId × Core → Nat} {draft last' : Draft}

lemma embedAll_under {others : List PlacedBase} {forced : Nat} (draft : Draft)
    (cores : List (TypeId × Core)) :
    (draft.under others forced).embedAll site sharing bytes cores =
      (draft.embedAll site sharing bytes cores).map (under others forced) :=
  foldlM_comm (fun draft _ => draft.embed_under) cores draft

/-- Without a core that has neither data nor slot the others are embedded in the same way. What has
been embedded before it is `first`; what is embedded behind it is the same run from there. -/
lemma embedAll_insert {core : TypeId × Core} {before after : List (TypeId × Core)}
    (hempty : core.2.dataSize = 0) (hslot : core.2.dispatch = none)
    (h : draft.embedAll site sharing bytes (before ++ core :: after) = .ok last') :
    ∃ (first : List PlacedBase) (offset : Nat) (last : Draft),
      first.length = draft.bases.length + before.length ∧
      draft.embedAll site sharing bytes (before ++ after) = .ok (last.under first 0) ∧
      last' = last.under (first ++ [⟨core.1, offset, 0, sharing⟩]) (site.granted core.2.align) := by
  rw [embedAll, List.foldlM_append] at h
  obtain ⟨middle, hbefore, h⟩ := bind_eq_ok.mp h
  obtain ⟨next, hnext, hafter⟩ := foldlM_cons_eq_ok.mp h
  have hbrings : core.2.brings sharing = none := by simp [Core.brings, hslot]
  rw [embed, if_pos hempty, hbrings, Option.map_none, Option.or_none] at hnext
  cases hnext
  let rest : Draft := ⟨middle.frontier, middle.dispatch, []⟩
  let entry : PlacedBase := ⟨core.1, middle.frontier.offset, 0, sharing⟩
  have hbehind : (rest.under (middle.bases ++ [entry]) (site.granted core.2.align)).embedAll site
      sharing bytes after = .ok last' := by
    rw [under, List.append_nil]
    exact hafter
  rw [embedAll_under] at hbehind
  obtain ⟨last, hlast, hlast'⟩ := map_eq_ok.mp hbehind
  obtain ⟨bases, hbases, htypes, -⟩ := embedAll_bases hbefore
  refine ⟨middle.bases, middle.frontier.offset, last, ?_, ?_, hlast'.symm⟩
  · have hlength := congrArg List.length htypes
    rw [List.length_map, List.length_map] at hlength
    rw [hbases, List.length_append, hlength]
  · have hsame : rest.under middle.bases 0 = middle := by
      rw [under, Frontier.raise_zero, List.append_nil]
    have hagain : (rest.under middle.bases 0).embedAll site sharing bytes after =
        .ok (last.under middle.bases 0) :=
      (embedAll_under rest after).trans (congrArg (Except.map (under middle.bases 0)) hlast)
    rw [hsame] at hagain
    rw [embedAll, List.foldlM_append]
    exact bind_eq_ok.mpr ⟨middle, hbefore, hagain⟩

end Draft

/-- A placed type that gives nothing but its alignment to a type that it is an owned base of. -/
structure Placed.Vacant (placed : Placed) : Prop where
  dataSize : placed.core.dataSize = 0
  dispatch : placed.core.dispatch = none
  shared : placed.shared = []

/-- The second layout is the first one with an owned base without size, which stands at `position`
among the bases and counts with `align`. -/
structure Layout.GainsEmptyBase (type : TypeId) (position align : Nat) (layout layout' : Layout) :
    Prop where
  fields : layout'.fields = layout.fields
  dispatch : layout'.dispatch = layout.dispatch
  dataSize : layout'.dataSize = layout.dataSize
  align : layout'.align = max layout.align align
  size : layout'.size = roundUp (max layout.dataSize 1) layout'.align
  bases : ∃ first rest offset, layout.bases = first ++ rest ∧ first.length = position ∧
    layout'.bases = first ++ ⟨type, offset, 0, .owned⟩ :: rest

namespace Composite

variable {target : Target} {isPod : TypeId → Bool} {part : TypeId → Except Rejection Placed}
  {c : Composite} {base : Base} {before after : List Base} {p placed placed' : Placed}

/-- The type with a base between two lists of bases. -/
def withBase (c : Composite) (before : List Base) (base : Base) (after : List Base) : Composite :=
  { c with bases := before ++ base :: after }

/-- The owned ones among some bases. -/
def ownedOf (bases : List Base) : List Base := bases.filter fun base => !base.isShared

/-- Placing owned bases and fields keeps the alignment a power of two. -/
lemma placeOwn_align {own : Draft} {fields : List PlacedField} (hwell : c.WellFormed target)
    (hpointer : target.pointerSize.isPowerOfTwo)
    (hregular : ∀ id ∈ c.references, ∀ p, part id = .ok p → p.Regular target)
    (h : c.placeOwn target isPod part = .ok (own, fields)) : own.frontier.align.isPowerOfTwo := by
  obtain ⟨owned, howned, h⟩ := bind_eq_ok.mp h
  obtain ⟨opened, hopened, h⟩ := bind_eq_ok.mp h
  obtain ⟨based, hbased, h⟩ := bind_eq_ok.mp h
  obtain ⟨⟨frontier, _⟩, hfields, h⟩ := bind_eq_ok.mp h
  cases h
  have hcores : ∀ core ∈ owned, core.2.Regular target :=
    forall_of_lends (lends_of_mapM howned) fun base hmem p hp =>
      (hregular base.type (mem_references_of_ownedBase hmem) p hp).core
  have hgroups := groups_regular hwell hpointer hregular
  have hbases := Draft.embedAll_grows hbased hwell.packing hcores
  have hplaced := FieldGroup.placeAll_align_isPowerOfTwo hgroups hwell.packing hfields
    (hbases.power hpointer ((openSlot_regular hwell hopened).2.1 hpointer))
  exact (forceAlign_grows hwell frontier).power hpointer hplaced

lemma placeShared_grows {draft last : Draft} {shared : List TypeId} (hwell : c.WellFormed target)
    (hregular : ∀ id ∈ shared, ∀ p, part id = .ok p → p.Regular target)
    (h : c.placeShared target part draft shared = .ok last) :
    draft.frontier.Grows target last.frontier := by
  obtain ⟨cores, hlent, hlast⟩ := placeShared_eq_ok h
  exact Draft.embedAll_grows hlast hwell.packing
    (forall_of_lends hlent fun id hmem p hp => (hregular id hmem p hp).core)

/-- Once the parts are placed, the size of the whole is all that can be out of bounds: the core is
rounded to no more. -/
lemma place_of_holds {own complete : Draft} {fields : List PlacedField} {shared : List TypeId}
    (hpointer : target.pointerSize.isPowerOfTwo)
    (hown : c.placeOwn target isPod part = .ok (own, fields))
    (hshared : c.hoisted part = .ok shared)
    (hcomplete : c.placeShared target part own shared = .ok complete)
    (hpower : own.frontier.align.isPowerOfTwo)
    (hgrows : own.frontier.Grows target complete.frontier)
    (hholds : target.holds
      (roundUp (max complete.frontier.offset 1) complete.frontier.align) = true) :
    ∃ core, c.place target isPod part = .ok ⟨⟨roundUp (max complete.frontier.offset 1)
      complete.frontier.align, complete.frontier.align, complete.frontier.offset,
      complete.dispatch, fields, complete.bases⟩, core, shared⟩ := by
  have hsize : (c.site target).require (target.roundUp? (max complete.frontier.offset 1)
      complete.frontier.align) = .ok _ :=
    Site.require_offset_eq_ok.mpr ⟨hholds, rfl⟩
  have hround := roundUp_le_roundUp (hgrows.offset.trans (le_max_left _ 1)) hpower
    (hgrows.power hpointer hpower) hgrows.align
  rcases close_or_beyond (c.site target) own.dispatch hround with ⟨core, hcore⟩ | ⟨-, herror⟩
  · exact ⟨core, bind_eq_ok.mpr ⟨_, hown, bind_eq_ok.mpr ⟨core, hcore, bind_eq_ok.mpr
      ⟨shared, hshared, bind_eq_ok.mpr ⟨_, hcomplete, bind_eq_ok.mpr ⟨_, hsize, rfl⟩⟩⟩⟩⟩⟩
  · cases hsize.symm.trans herror

/-- The type with one more base refers to the type of the base besides. -/
lemma mem_references_withBase (hbases : c.bases = before ++ after) {id : TypeId} :
    id ∈ (c.withBase before base after).references ↔ id = base.type ∨ id ∈ c.references := by
  simp only [references, withBase, hbases, List.map_append, List.map_cons, List.mem_append,
    List.mem_cons]
  tauto

section

variable (hbases : c.bases = before ++ after) (howned : base.isShared = false)
  (hp : part base.type = .ok p)
include hbases howned hp

lemma ownedCores_withBase {owned' : List (TypeId × Core)}
    (h : (c.withBase before base after).ownedCores part = .ok owned') :
    ∃ first rest, owned' = first ++ (base.type, p.core) :: rest ∧
      first.length = (ownedOf before).length ∧ c.ownedCores part = .ok (first ++ rest) := by
  have hsplit : (c.withBase before base after).ownedBases =
      ownedOf before ++ base :: ownedOf after := by
    simp [ownedBases, withBase, ownedOf, howned]
  rw [ownedCores, hsplit, List.mapM_append] at h
  obtain ⟨first, hfirst, h⟩ := bind_eq_ok.mp h
  obtain ⟨behind, hbehind, h⟩ := bind_eq_ok.mp h
  cases h
  rw [List.mapM_cons] at hbehind
  obtain ⟨core, hcore, hbehind⟩ := bind_eq_ok.mp hbehind
  obtain ⟨rest, hrest, hbehind⟩ := bind_eq_ok.mp hbehind
  rw [hp] at hcore
  cases hcore
  cases hbehind
  refine ⟨first, rest, rfl, (forall₂_of_mapM hfirst).length_eq.symm, ?_⟩
  rw [ownedCores, ownedBases, hbases, List.filter_append, List.mapM_append]
  exact bind_eq_ok.mpr ⟨first, hfirst, bind_eq_ok.mpr ⟨rest, hrest, rfl⟩⟩

lemma hoisted_withBase (hvacant : p.Vacant) :
    (c.withBase before base after).hoisted part = c.hoisted part := by
  rw [hoisted, hoisted, hbases, withBase, List.foldlM_append, List.foldlM_append]
  refine bind_congr_ok fun seen _ => ?_
  rw [List.foldlM_cons, hp]
  simp [howned, hvacant.shared, FirstSeen.noteAll, bind, Except.bind, pure, Except.pure]

variable (hfree : c.forcedAlign = none) (hvacant : p.Vacant)
include hfree hvacant

/-- Own slot, owned bases and fields come to lie in the same places. -/
lemma placeOwn_withBase {own' : Draft} {fields : List PlacedField}
    (h : (c.withBase before base after).placeOwn target isPod part = .ok (own', fields)) :
    ∃ (first : List PlacedBase) (offset : Nat) (own : Draft),
      first.length = (ownedOf before).length ∧
      c.placeOwn target isPod part = .ok (own.under first 0, fields) ∧
      own' = own.under (first ++ [⟨base.type, offset, 0, .owned⟩])
        ((c.site target).granted p.core.align) := by
  obtain ⟨owned', howned', h⟩ := bind_eq_ok.mp h
  obtain ⟨opened, hopened, h⟩ := bind_eq_ok.mp h
  obtain ⟨based', hbased', h⟩ := bind_eq_ok.mp h
  obtain ⟨⟨frontier', _⟩, hfields', h⟩ := bind_eq_ok.mp h
  cases h
  obtain ⟨first, rest, rfl, hlength, hcores⟩ := ownedCores_withBase hbases howned hp howned'
  have hopens : c.openSlot target (first ++ rest) = .ok opened := by
    rw [← hopened]
    simp only [openSlot, withBase, List.any_append, List.any_cons, hvacant.dispatch,
      Option.isSome_none, Bool.false_or]
    rfl
  obtain ⟨placed, offset, based, hplaced, hbased, rfl⟩ :=
    Draft.embedAll_insert hvacant.dataSize hvacant.dispatch hbased'
  obtain ⟨⟨frontier, _⟩, hfields, hfrontier⟩ :=
    map_eq_ok.mp ((FieldGroup.placeAll_raise _ based.frontier).symm.trans hfields')
  cases hfrontier
  refine ⟨placed, offset, { based with frontier := frontier }, ?_, ?_, ?_⟩
  · rw [hplaced, openSlot_bases hopens, hlength, List.length_nil, Nat.zero_add]
  · have hfields₀ := (FieldGroup.placeAll_raise _ based.frontier).trans
      (congrArg (Except.map (Prod.map (Frontier.raise 0) id)) hfields)
    refine bind_eq_ok.mpr ⟨_, hcores, bind_eq_ok.mpr ⟨opened, hopens, bind_eq_ok.mpr
      ⟨_, hbased, bind_eq_ok.mpr ⟨_, hfields₀, ?_⟩⟩⟩⟩
    simp [forceAlign, hfree, Draft.under, Prod.map, pure, Except.pure]
  · simp only [forceAlign, withBase, hfree]
    rfl

/-- A type with one more vacant base is placed where the parts of the type itself are: what stands
before the base is `first`, and all else is as without it. -/
lemma parts_withBase (h : (c.withBase before base after).place target isPod part = .ok placed') :
    ∃ (first : List PlacedBase) (offset : Nat) (own complete : Draft) (fields : List PlacedField),
      first.length = (ownedOf before).length ∧
      c.placeOwn target isPod part = .ok (own.under first 0, fields) ∧
      c.hoisted part = .ok placed'.shared ∧
      c.placeShared target part (own.under first 0) placed'.shared =
        .ok (complete.under first 0) ∧
      target.holds placed'.layout.size = true ∧
      placed'.layout = (complete.under (first ++ [⟨base.type, offset, 0, .owned⟩])
        ((c.site target).granted p.core.align)).closed fields := by
  obtain ⟨⟨own', fields⟩, hown', h⟩ := bind_eq_ok.mp h
  obtain ⟨core', -, h⟩ := bind_eq_ok.mp h
  obtain ⟨shared, hshared, h⟩ := bind_eq_ok.mp h
  obtain ⟨complete', hcomplete', h⟩ := bind_eq_ok.mp h
  obtain ⟨size', hsize', h⟩ := bind_eq_ok.mp h
  cases h
  rw [hoisted_withBase hbases howned hp hvacant] at hshared
  obtain ⟨first, offset, own, hlength, hown, rfl⟩ :=
    placeOwn_withBase hbases howned hp hfree hvacant hown'
  obtain ⟨complete, hcomplete, rfl⟩ :=
    map_eq_ok.mp ((placeShared_under own shared).symm.trans hcomplete')
  obtain ⟨hholds, rfl⟩ := Site.require_offset_eq_ok.mp hsize'
  exact ⟨first, offset, own, complete, fields, hlength, hown, hshared,
    (placeShared_under own shared).trans (congrArg (Except.map (Draft.under first 0)) hcomplete),
    hholds, rfl⟩

/-- Where both types are placed, only the entry of the base, the alignment and the size tell them
apart. -/
theorem place_withBase
    (h : (c.withBase before base after).place target isPod part = .ok placed')
    (hplace : c.place target isPod part = .ok placed) :
    placed.layout.GainsEmptyBase base.type (ownedOf before).length
      ((c.site target).granted p.core.align) placed'.layout := by
  obtain ⟨first, offset, own, complete, fields, hlength, hown, hshared, hcomplete, -, hlayout⟩ :=
    parts_withBase hbases howned hp hfree hvacant h
  have hsame := layout_of_parts hown hshared hcomplete hplace
  rw [hsame, hlayout]
  refine ⟨rfl, rfl, rfl, ?_, rfl, first, complete.bases, offset, rfl, hlength, ?_⟩
  · exact congrArg (max · _) (Nat.max_zero _).symm
  · exact List.append_assoc first [_] complete.bases

/-- Where all alignments are powers of two, the size without the base is no larger, so the type
itself is placed as well. -/
theorem exists_place_of_withBase (hwell : c.WellFormed target)
    (hpointer : target.pointerSize.isPowerOfTwo)
    (h : (c.withBase before base after).place target isPod part = .ok placed')
    (hregular : ∀ id p, id ∈ (c.withBase before base after).references ∨ id ∈ placed'.shared →
      part id = .ok p → p.Regular target) :
    ∃ placed, c.place target isPod part = .ok placed := by
  obtain ⟨first, offset, own, complete, fields, -, hown, hshared, hcomplete, hholds, hlayout⟩ :=
    parts_withBase hbases howned hp hfree hvacant h
  have hreferences : ∀ id, id ∈ (c.withBase before base after).references ↔
      id = base.type ∨ id ∈ c.references := fun _ => mem_references_withBase hbases
  have hpower : (own.under first 0).frontier.align.isPowerOfTwo :=
    placeOwn_align hwell hpointer
      (fun id hmem p => hregular id p (Or.inl ((hreferences id).mpr (Or.inr hmem)))) hown
  have hgrows : (own.under first 0).frontier.Grows target (complete.under first 0).frontier :=
    placeShared_grows hwell (fun id hmem p => hregular id p (Or.inr hmem)) hcomplete
  have hgranted : ((c.site target).granted p.core.align).isPowerOfTwo :=
    Site.granted_isPowerOfTwo hwell.packing
      ((hregular base.type p (Or.inl ((hreferences _).mpr (Or.inl rfl))) hp).core.align hpointer)
  have hfinal := hgrows.power hpointer hpower
  have hround := roundUp_le_roundUp (le_refl (max complete.frontier.offset 1))
    hfinal (isPowerOfTwo_max hfinal hgranted) (le_max_left _ _)
  have hsize : placed'.layout.size = roundUp (max complete.frontier.offset 1)
      (max (complete.under first 0).frontier.align ((c.site target).granted p.core.align)) := by
    rw [hlayout, show (complete.under first 0).frontier.align = complete.frontier.align from
      Nat.max_zero _]
    rfl
  obtain ⟨core, hplace⟩ := place_of_holds hpointer hown hshared hcomplete hpower hgrows
    (Target.holds_of_le hholds (hsize ▸ hround))
  exact ⟨_, hplace⟩

end

end Composite

namespace TypeTable

variable {table : TypeTable} {target : Target} {id : TypeId} {c : Composite} {base : Base}
  {before after : List Base} {align baseAlign : Nat} {layout' : Layout}

/-- A type is hollow if it and its owned bases are. -/
lemma Hollow.of_bases (hc : table.get? id = some c) (hdata : c.declaresData = false)
    (hdispatch : c.introducesDispatch = false)
    (h : ∀ base ∈ c.ownedBases, table.Hollow base.type) : table.Hollow id := by
  rintro part d (rfl | ⟨path, hpath⟩) hd
  · obtain rfl : c = d := Option.some.inj (hc.symm.trans hd)
    exact ⟨hdata, hdispatch⟩
  · obtain ⟨base, hmem, howns⟩ := hpath.exists_ownedBase hc
    exact h base hmem part d howns hd

/-- A hollow type without shared bases is vacant wherever it is placed, and has the alignment of
its core. -/
lemma PlacedAs.vacant {placed : Placed} (h : table.PlacedAs target id (.ok placed))
    (haccepted : table.Accepted target id align) (hhollow : table.Hollow id)
    (hunshared : table.Unshared id) :
    placed.Vacant ∧ placed.core.align = placed.layout.align := by
  have hshared := (h.shared_eq_nil_iff haccepted).mpr hunshared
  obtain ⟨c, part, -, -, ⟨steps⟩⟩ := h.construction
  exact ⟨⟨h.core_empty hhollow, h.core_slotless hhollow, hshared⟩,
    (steps.core_of_unshared hshared).2.1⟩

section

variable (hc : table.get? id = some c) (hbases : c.bases = before ++ after)
  (hfree : c.forcedAlign = none) (haccepted : table.Accepted target id align)
  (hbase : table.Accepted target base.type baseAlign) (hapart : ¬ table.Reaches base.type id)
include hc hbases hfree haccepted hbase hapart

/-- With one more accepted base a type that is not forced is accepted. -/
lemma Accepted.withBase :
    ∃ align', (table.redefine id (c.withBase before base after)).Accepted target id align' := by
  have hwell := haccepted.wellFormed hc
  have hvariant : (c.withBase before base after).WellFormed target :=
    ⟨hwell.exclusive, hwell.forced, hwell.packing, hwell.names, hwell.fields⟩
  have hparts : ∀ part ∈ (c.withBase before base after).references, ∃ align',
      (table.redefine id (c.withBase before base after)).Accepted target part align' := by
    intro part hmem
    rcases (Composite.mem_references_withBase hbases).mp hmem with rfl | hmem
    · exact ⟨baseAlign, (unchanged_of_apart hapart _).accepted hbase⟩
    · have hrefers := (refers_iff hc).mpr hmem
      obtain ⟨partAlign, hpart⟩ := haccepted.refers hrefers
      exact ⟨partAlign, (haccepted.acyclic.unchanged_below hrefers.below _).accepted hpart⟩
  choose! parts hparts using hparts
  refine ⟨_, .intro parts (get?_redefine_self hc) hvariant hparts fun forced hforced => ?_⟩
  rw [Option.mem_def, Composite.withBase, hfree] at hforced
  cases hforced

/-- If the type with one more base that is owned and hollow has a layout, so has the type of the
base, and the base has gained the type no more than an entry and an alignment. Where the pointer
size is a power of two, the type has a layout then, too. -/
theorem layout_withBase (howned : base.isShared = false) (hhollow : table.Hollow base.type)
    (hunshared : table.Unshared base.type)
    (h : (table.redefine id (c.withBase before base after)).layout target id = .ok layout') :
    ∃ baseLayout, table.layout target base.type = .ok baseLayout ∧
      (∀ layout, table.layout target id = .ok layout →
        layout.GainsEmptyBase base.type (Composite.ownedOf before).length
          ((c.site target).granted baseLayout.align) layout') ∧
      (target.pointerSize.isPowerOfTwo → ∃ layout, table.layout target id = .ok layout) := by
  obtain ⟨align', placed', haccepted', hplaced', rfl⟩ := layout_eq_ok h
  have hc' : (table.redefine id (c.withBase before base after)).get? id = some _ :=
    get?_redefine_self hc
  have hreferences : c.references ⊆ (c.withBase before base after).references :=
    fun part hmem => (Composite.mem_references_withBase hbases).mpr (Or.inr hmem)
  have hnamed : base.type ∈ (c.withBase before base after).references :=
    (Composite.mem_references_withBase hbases).mpr (Or.inl rfl)
  obtain ⟨part, parts, hvariant, hback⟩ :=
    hplaced'.redefine haccepted'.acyclic hc' hreferences
  have hplaced := (unchanged_redefine_back hc _ id).placedAs hback
  obtain ⟨steps⟩ := Composite.exists_construction hvariant.symm
  obtain ⟨p, hp⟩ := steps.references_ok (haccepted'.wellFormed hc') base.type hnamed
  have hpart : table.PlacedAs target base.type (.ok p) :=
    (unchanged_of_apart hapart _).symm.placedAs
      (hp ▸ parts base.type ((refers_iff hc').mpr hnamed).below)
  obtain ⟨hvacant, halign⟩ := hpart.vacant hbase hhollow hunshared
  refine ⟨p.layout, layout_of_placedAs hbase hpart, fun layout hlayout => ?_, fun hpointer => ?_⟩
  · obtain ⟨-, placed, -, hfound, rfl⟩ := layout_eq_ok hlayout
    rw [← halign]
    exact Composite.place_withBase hbases howned hp hfree hvacant hvariant.symm
      (hplaced.unique hfound)
  · obtain ⟨placed, hplace⟩ := Composite.exists_place_of_withBase hbases howned hp hfree hvacant
      (haccepted.wellFormed hc) hpointer hvariant.symm
      (hplaced'.partsRegular haccepted' hc' parts steps)
    exact ⟨placed.layout, layout_of_placedAs haccepted (hplace ▸ hplaced)⟩

end

/-- Where pointers take room, the bases without size are those of the types that are hollow: such a
type, and everything that it owns, has neither data nor a dispatch slot of its own. Whatever the
pointer size, an accepted type that is not forced may own one more base like this at any place among
its bases, if the base is accepted, does not reach the type and has no shared edge in its hierarchy.
Fields, other bases, slot and data stay where they are, and the alignment of the base counts as far
as the clamp of the type lets it; only the size may be too large then. Where the pointer size is a
power of two, it was not too large before if it is not then. -/
theorem hollow_bases_take_no_room (table : TypeTable) (target : Target) :
    (0 < target.pointerSize → ∀ id layout, table.layout target id = .ok layout →
      ∀ base ∈ layout.bases, base.size = 0 ↔ table.Hollow base.type) ∧
    ∀ (id : TypeId) (c : Composite) (base : Base) (before after : List Base)
      (align baseAlign : Nat), table.get? id = some c → c.bases = before ++ after →
      c.forcedAlign = none → answer ((table.accept target id).run {}) = .ok align →
      base.isShared = false → answer ((table.accept target base.type).run {}) = .ok baseAlign →
      table.Hollow base.type → table.Unshared base.type → ¬ table.Reaches base.type id →
      (∃ name, (table.redefine id (c.withBase before base after)).layout target id =
        .error (.sizeOverflow name)) ∨
      ∃ baseLayout layout', table.layout target base.type = .ok baseLayout ∧
        (table.redefine id (c.withBase before base after)).layout target id = .ok layout' ∧
        (∀ layout, table.layout target id = .ok layout →
          layout.GainsEmptyBase base.type (Composite.ownedOf before).length
            ((c.site target).granted baseLayout.align) layout') ∧
        (target.pointerSize.isPowerOfTwo → ∃ layout, table.layout target id = .ok layout) := by
  refine ⟨fun hpointer id layout h base hmem => base_size_eq_zero_iff hpointer h hmem, ?_⟩
  intro id c base before after align baseAlign hc hbases hfree haccepted howned hbase hhollow
    hunshared hapart
  rw [accept_eq_ok_iff] at haccepted hbase
  obtain ⟨align', haccepted'⟩ := haccepted.withBase hc hbases hfree hbase hapart
  obtain ⟨answer', hplaced', hlayout'⟩ := haccepted'.exists_placedAs
  cases answer' with
  | error rejection =>
    obtain ⟨-, part, d, -, -, rfl⟩ := hplaced'.failsOnly rejection rfl
    exact Or.inl ⟨d.name, hlayout'⟩
  | ok placed' =>
    obtain ⟨baseLayout, hbaseLayout, hgains, hexists⟩ := layout_withBase hc hbases hfree
      haccepted hbase hapart howned hhollow hunshared hlayout'
    exact Or.inr ⟨baseLayout, placed'.layout, hbaseLayout, hlayout', hgains, hexists⟩

/-- A record with an owned and a shared base, packed more loosely than its parts ask for. -/
def crate : Composite :=
  { name := "Crate", packing := some 8
    bases := [{ type := ⟨2⟩ }, { type := ⟨3⟩, sharing := .shared }]
    fields := [{ name := "number", type := .int }, { name := "mark", type := .char },
      { name := "note", type := .short }] }

/-- The first two types are hollow: one is forced to an alignment, the other owns it and holds a
marker. -/
def crates : TypeTable :=
  { entries := #[
      ⟨"Aligned", some { name := "Aligned", forcedAlign := some 16 }⟩,
      ⟨"Tagged", some
        { name := "Tagged", bases := [{ type := ⟨0⟩ }]
          fields := [{ name := "", type := .int, bitWidth := some 0 }] }⟩,
      ⟨"Counted", some
        { name := "Counted"
          fields := [{ name := "count", type := .int }, { name := "flag", type := .char }] }⟩,
      ⟨"Titled", some { name := "Titled", fields := [{ name := "title", type := .short }] }⟩,
      ⟨"Crate", some crate⟩] }

/-- One more base between the two of the record brings the alignment up to the clamp and the size
with it. -/
theorem hollow_bases_take_no_room_crate :
    let layout : Layout :=
      { size := 20, align := 4, dataSize := 18, dispatch := none
        fields := [⟨"number", 8, 4, none⟩, ⟨"mark", 12, 1, none⟩, ⟨"note", 14, 2, none⟩]
        bases := [⟨⟨2⟩, 0, 8, .owned⟩, ⟨⟨3⟩, 16, 2, .shared⟩] }
    let layout' : Layout :=
      { layout with
        size := 24, align := 8
        bases := [⟨⟨2⟩, 0, 8, .owned⟩, ⟨⟨1⟩, 8, 0, .owned⟩, ⟨⟨3⟩, 16, 2, .shared⟩] }
    let tagged := crates.redefine ⟨4⟩
      (crate.withBase [{ type := ⟨2⟩ }] { type := ⟨1⟩ } [{ type := ⟨3⟩, sharing := .shared }])
    crates.layout .lp64 ⟨4⟩ = .ok layout ∧ tagged.layout .lp64 ⟨4⟩ = .ok layout' ∧
      layout.GainsEmptyBase ⟨1⟩ 1 8 layout' ∧
      ∀ base ∈ layout'.bases, base.size = 0 ↔ tagged.Hollow base.type := by
  intro layout layout' tagged
  have hlayout : crates.layout .lp64 ⟨4⟩ = .ok layout := by decide +kernel
  have hlayout' : tagged.layout .lp64 ⟨4⟩ = .ok layout' := by decide +kernel
  have hbase : (crates.layout .lp64 ⟨1⟩).map Layout.align = .ok 16 := by decide +kernel
  have haccepted : answer ((crates.accept .lp64 ⟨4⟩).run {}) = .ok 4 := by decide +kernel
  have hbaseAccepted : answer ((crates.accept .lp64 ⟨1⟩).run {}) = .ok 16 := by decide +kernel
  have haligned : crates.Hollow ⟨0⟩ ∧ crates.Unshared ⟨0⟩ :=
    ⟨.of_bases rfl rfl rfl (by simp [Composite.ownedBases]), .of_bases rfl (by simp)⟩
  have htagged : crates.Hollow ⟨1⟩ ∧ crates.Unshared ⟨1⟩ := by
    refine ⟨.of_bases rfl rfl rfl ?_, .of_bases rfl ?_⟩
    · simpa [Composite.ownedBases, Base.isShared] using haligned.1
    · simpa [Base.isShared] using haligned.2
  have hapart : ¬ crates.Reaches ⟨1⟩ ⟨4⟩ := by
    intro hreach
    have hclosed : ∀ whole ∈ [(⟨0⟩ : TypeId), ⟨1⟩], ∀ other ∈ crates.references whole,
        other ∈ [(⟨0⟩ : TypeId), ⟨1⟩] := by decide
    exact absurd (hreach.mem_of_closed hclosed (by decide)) (by decide)
  refine ⟨hlayout, hlayout', ?_,
    (hollow_bases_take_no_room tagged .lp64).1 (by decide) ⟨4⟩ layout' hlayout'⟩
  obtain ⟨name, herror⟩ | ⟨baseLayout, found', hbaseLayout, hfound', hgains, -⟩ :=
    (hollow_bases_take_no_room crates .lp64).2 ⟨4⟩ crate { type := ⟨1⟩ } [{ type := ⟨2⟩ }]
      [{ type := ⟨3⟩, sharing := .shared }] 4 16 rfl rfl rfl haccepted rfl hbaseAccepted
      htagged.1 htagged.2 hapart
  · cases hlayout'.symm.trans herror
  · obtain rfl : layout' = found' := Except.ok.inj (hlayout'.symm.trans hfound')
    have hgains := hgains layout hlayout
    rw [hbaseLayout] at hbase
    rwa [show baseLayout.align = 16 from Except.ok.inj hbase] at hgains

/-- A base that declares a pointer. -/
def linkedBase : TypeTable :=
  { entries := #[
      ⟨"Link", some .bareLink⟩,
      ⟨"Whole", some { name := "Whole", bases := [{ type := ⟨0⟩ }] }⟩] }

/-- Where pointers have no size, a base may declare one and take no room. -/
theorem base_without_size_declares :
    let target : Target := { Target.lp64 with pointerSize := 0 }
    let base : PlacedBase := ⟨⟨0⟩, 0, 0, .owned⟩
    linkedBase.layout target ⟨1⟩ = .ok
        { size := 1, align := 1, dataSize := 0, dispatch := none, fields := [], bases := [base] } ∧
      base.size = 0 ∧ ¬ linkedBase.Hollow base.type := by
  refine ⟨by decide +kernel, rfl, fun h => ?_⟩
  cases (h ⟨0⟩ _ (Or.inl rfl) rfl).1

end TypeTable

end ObjectLayout
