import ObjectLayout.Placement
import ObjectLayout.Proofs.LocalRules
import ObjectLayout.Proofs.Moves

/-!
# The construction of a placed type

A placement that succeeds is taken apart once into the steps that made it: the slot, the owned
bases, the fields, the core, the shared bases, the size. Everything later proved about placed
types starts from these steps. The placement depends on the placements of other types only at the
types referred to and at their shared bases.
-/
namespace ObjectLayout

namespace Layout

def ownedBases (layout : Layout) : List PlacedBase :=
  layout.bases.filter fun base => base.sharing = .owned

def sharedBases (layout : Layout) : List PlacedBase :=
  layout.bases.filter fun base => base.sharing = .shared

end Layout

namespace Composite

variable {target : Target} {isPod isPod' : TypeId → Bool}
  {part part' : TypeId → Except Rejection Placed} {c : Composite} {placed : Placed}

/-- The type needs a dispatch slot and no owned base brings one. -/
def opensSlot (c : Composite) (owned : List (TypeId × Core)) : Bool :=
  c.introducesDispatch && !owned.any fun base => base.2.dispatch.isSome

lemma openSlot_eq_ok {owned : List (TypeId × Core)} {opened : Draft}
    (h : c.openSlot target owned = .ok opened) :
    opened = if c.opensSlot owned then
        { frontier := ⟨roundUp 0 ((c.site target).granted target.pointerSize) + target.pointerSize,
            max 1 ((c.site target).granted target.pointerSize)⟩
          dispatch := some (roundUp 0 ((c.site target).granted target.pointerSize)) }
      else {} := by
  unfold openSlot at h
  rw [← opensSlot] at h
  by_cases hopens : c.opensSlot owned = true
  · rw [if_pos hopens] at h ⊢
    obtain ⟨start, hstart, h⟩ := bind_eq_ok.mp h
    obtain ⟨next, hnext, h⟩ := bind_eq_ok.mp h
    cases h
    obtain rfl := Frontier.alignFor_eq_ok hstart
    obtain ⟨-, rfl⟩ := Frontier.advance_eq_ok.mp hnext
    rfl
  · rw [if_neg hopens] at h ⊢
    exact (Except.ok.inj h).symm

lemma openSlot_bases {owned : List (TypeId × Core)} {opened : Draft}
    (h : c.openSlot target owned = .ok opened) : opened.bases = [] := by
  rw [openSlot_eq_ok h]
  split <;> rfl

lemma close_eq_ok {site : Site} {frontier : Frontier} {dispatch : Option Nat} {core : Core}
    (h : Core.close site frontier dispatch = .ok core) :
    core = ⟨frontier.offset,
      if frontier.offset = 0 then 0 else roundUp frontier.offset frontier.align,
      frontier.align, dispatch⟩ := by
  unfold Core.close at h
  by_cases hempty : frontier.offset = 0
  · rw [if_pos hempty] at h ⊢
    cases h
    rfl
  · rw [if_neg hempty] at h ⊢
    obtain ⟨size, hsize, h⟩ := bind_eq_ok.mp h
    cases h
    rw [(Site.require_offset_eq_ok.mp hsize).2]

/-- The base is placed and lends its core. -/
def Lends (part : TypeId → Except Rejection Placed) (id : TypeId) (core : TypeId × Core) : Prop :=
  ∃ p, part id = .ok p ∧ core = (id, p.core)

lemma lends_of_mapM {α : Type} {type : α → TypeId} {l : List α} {cores : List (TypeId × Core)}
    (h : l.mapM (fun x => do
      let placed ← part (type x)
      return (type x, placed.core)) = .ok cores) :
    List.Forall₂ (fun x core => Lends part (type x) core) l cores := by
  refine (forall₂_of_mapM h).imp fun x core hcore => ?_
  obtain ⟨p, hp, hcore⟩ := bind_eq_ok.mp hcore
  cases hcore
  exact ⟨p, hp, rfl⟩

lemma mapM_of_lends {α : Type} {type : α → TypeId} {l : List α} {cores : List (TypeId × Core)}
    (h : List.Forall₂ (fun x core => Lends part (type x) core) l cores) :
    l.mapM (fun x => do
      let placed ← part (type x)
      return (type x, placed.core)) = .ok cores := by
  induction h with
  | nil => rfl
  | cons hlends _ ih =>
    obtain ⟨p, hp, rfl⟩ := hlends
    rw [List.mapM_cons, ih, hp]
    rfl

/-- What holds of the core of every part holds of the cores that the parts lend. -/
lemma forall_of_lends {α : Type} {type : α → TypeId} {l : List α} {cores : List (TypeId × Core)}
    {P : TypeId × Core → Prop}
    (hlent : List.Forall₂ (fun x core => Lends part (type x) core) l cores)
    (h : ∀ x ∈ l, ∀ p, part (type x) = .ok p → P (type x, p.core)) :
    ∀ core ∈ cores, P core := by
  intro core hmem
  obtain ⟨x, hx, p, hp, rfl⟩ := exists_of_mem_right hlent hmem
  exact h x hx p hp

/-- The shared bases are embedded from the cores that they lend. -/
lemma placeShared_of_lends {shared : List TypeId} {cores : List (TypeId × Core)}
    (h : List.Forall₂ (Lends part) shared cores) (draft : Draft) :
    c.placeShared target part draft shared =
      draft.embedAll (c.site target) .shared (fun base => base.2.size) cores := by
  rw [placeShared, Draft.embedAll]
  induction h generalizing draft with
  | nil => rfl
  | cons hlends _ ih =>
    obtain ⟨p, hp, rfl⟩ := hlends
    rw [List.foldlM_cons, List.foldlM_cons, hp]
    exact congrArg _ (funext ih)

/-- Shared bases that can be placed lend their cores to be embedded. -/
lemma placeShared_eq_ok {draft last : Draft} {shared : List TypeId}
    (h : c.placeShared target part draft shared = .ok last) :
    ∃ cores, List.Forall₂ (Lends part) shared cores ∧
      draft.embedAll (c.site target) .shared (fun base => base.2.size) cores = .ok last := by
  unfold placeShared at h
  induction shared generalizing draft with
  | nil => exact ⟨[], .nil, h⟩
  | cons id shared ih =>
    obtain ⟨next, hnext, h⟩ := foldlM_cons_eq_ok.mp h
    obtain ⟨p, hp, hnext⟩ := bind_eq_ok.mp hnext
    obtain ⟨cores, hcores, hlast⟩ := ih h
    exact ⟨(id, p.core) :: cores, .cons ⟨p, hp, rfl⟩ hcores,
      foldlM_cons_eq_ok.mpr ⟨next, hnext, hlast⟩⟩

/-- The steps of a placement that succeeds. -/
structure Construction (target : Target) (isPod : TypeId → Bool)
    (part : TypeId → Except Rejection Placed) (c : Composite) (placed : Placed) where
  /-- The cores of the owned and of the shared bases. -/
  (owned hoisted : List (TypeId × Core))
  /-- After the dispatch slot, after the owned bases, and after the shared bases. -/
  (opened based complete : Draft)
  /-- After the fields. -/
  frontier : Frontier
  ownedLent : List.Forall₂ (fun base core => Lends part base.type core) c.ownedBases owned
  slot : c.openSlot target owned = .ok opened
  bases : opened.embedAll (c.site target) .owned (ownedBytes target isPod) owned = .ok based
  fields : FieldGroup.placeAll (c.site target) (extent target part) based.frontier
    (FieldGroup.ofFields c.fields) = .ok (frontier, placed.layout.fields)
  closed : Core.close (c.site target) (c.forceAlign frontier) based.dispatch = .ok placed.core
  collected : c.hoisted part = .ok placed.shared
  hoistedLent : List.Forall₂ (Lends part) placed.shared hoisted
  shared : Draft.embedAll (c.site target) .shared (fun base => base.2.size)
    { based with frontier := c.forceAlign frontier } hoisted = .ok complete
  sized : (c.site target).require (target.roundUp? (max complete.frontier.offset 1)
    complete.frontier.align) = .ok placed.layout.size
  layout : placed.layout = ⟨placed.layout.size, complete.frontier.align, complete.frontier.offset,
    complete.dispatch, placed.layout.fields, complete.bases⟩

@[simp] lemma forceAlign_offset (c : Composite) (frontier : Frontier) :
    (c.forceAlign frontier).offset = frontier.offset := by
  unfold forceAlign
  cases c.forcedAlign <;> rfl

lemma forceAlign_align_le_iff {frontier : Frontier} {n : Nat} :
    (c.forceAlign frontier).align ≤ n ↔
      frontier.align ≤ n ∧ ∀ forced ∈ c.forcedAlign, forced ≤ n := by
  unfold forceAlign
  cases c.forcedAlign <;> simp

theorem exists_construction (h : c.place target isPod part = .ok placed) :
    Nonempty (Construction target isPod part c placed) := by
  unfold place placeOwn ownedCores at h
  obtain ⟨⟨own, fields⟩, hown, h⟩ := bind_eq_ok.mp h
  obtain ⟨owned, howned, hown⟩ := bind_eq_ok.mp hown
  obtain ⟨opened, hopened, hown⟩ := bind_eq_ok.mp hown
  obtain ⟨based, hbased, hown⟩ := bind_eq_ok.mp hown
  obtain ⟨⟨frontier, fields'⟩, hfields, hown⟩ := bind_eq_ok.mp hown
  cases hown
  obtain ⟨core, hcore, h⟩ := bind_eq_ok.mp h
  obtain ⟨shared, hshared, h⟩ := bind_eq_ok.mp h
  obtain ⟨complete, hcomplete, h⟩ := bind_eq_ok.mp h
  obtain ⟨size, hsize, h⟩ := bind_eq_ok.mp h
  cases h
  obtain ⟨hoisted, hlent, hcomplete⟩ := placeShared_eq_ok hcomplete
  exact ⟨⟨owned, hoisted, opened, based, complete, frontier, lends_of_mapM howned, hopened, hbased,
    hfields, hcore, hshared, hlent, hcomplete, hsize, rfl⟩⟩

namespace Construction

lemma core (steps : Construction target isPod part c placed) :
    placed.core = ⟨steps.frontier.offset,
      if steps.frontier.offset = 0 then 0
        else roundUp steps.frontier.offset (c.forceAlign steps.frontier).align,
      (c.forceAlign steps.frontier).align, steps.based.dispatch⟩ := by
  simpa only [forceAlign_offset] using close_eq_ok steps.closed

lemma dataSize_eq (steps : Construction target isPod part c placed) :
    placed.layout.dataSize = steps.complete.frontier.offset := by rw [steps.layout]

lemma align_eq (steps : Construction target isPod part c placed) :
    placed.layout.align = steps.complete.frontier.align := by rw [steps.layout]

lemma size_eq (steps : Construction target isPod part c placed) :
    placed.layout.size =
      roundUp (max steps.complete.frontier.offset 1) steps.complete.frontier.align :=
  (Site.require_offset_eq_ok.mp steps.sized).2.symm

lemma dispatch_eq (steps : Construction target isPod part c placed) :
    placed.layout.dispatch = steps.complete.dispatch := by rw [steps.layout]

lemma bases_eq (steps : Construction target isPod part c placed) :
    placed.layout.bases = steps.complete.bases := by rw [steps.layout]

lemma opened_bases (steps : Construction target isPod part c placed) : steps.opened.bases = [] :=
  openSlot_bases steps.slot

lemma forall_owned (steps : Construction target isPod part c placed)
    {P : TypeId × Core → Prop}
    (h : ∀ base ∈ c.ownedBases, ∀ p, part base.type = .ok p → P (base.type, p.core)) :
    ∀ core ∈ steps.owned, P core :=
  forall_of_lends steps.ownedLent h

lemma forall_hoisted (steps : Construction target isPod part c placed)
    {P : TypeId × Core → Prop}
    (h : ∀ id ∈ placed.shared, ∀ p, part id = .ok p → P (id, p.core)) :
    ∀ core ∈ steps.hoisted, P core :=
  forall_of_lends steps.hoistedLent h

/-- The layout lists the owned bases first and the shared ones behind them. -/
lemma bases_split (steps : Construction target isPod part c placed) :
    placed.layout.ownedBases = steps.based.bases ∧
      steps.complete.bases = steps.based.bases ++ placed.layout.sharedBases ∧
      placed.layout.ownedBases.map PlacedBase.type = c.ownedBases.map Base.type ∧
      placed.layout.sharedBases.map PlacedBase.type = placed.shared := by
  obtain ⟨owned, howned, hownedTypes, hownedAll⟩ := Draft.embedAll_bases steps.bases
  obtain ⟨shared, hshared, hsharedTypes, hsharedAll⟩ := Draft.embedAll_bases steps.shared
  rw [steps.opened_bases, List.nil_append] at howned
  have hbases : placed.layout.bases = owned ++ shared := by
    rw [steps.bases_eq, hshared, howned]
  have hlendsOwned : c.ownedBases.map Base.type = steps.owned.map Prod.fst := by
    refine map_eq_map_of_forall₂ steps.ownedLent ?_
    rintro base core ⟨p, -, rfl⟩
    rfl
  have hlendsShared : placed.shared.map id = steps.hoisted.map Prod.fst := by
    refine map_eq_map_of_forall₂ steps.hoistedLent ?_
    rintro id core ⟨p, -, rfl⟩
    rfl
  have hfilterOwned : placed.layout.ownedBases = owned := by
    rw [Layout.ownedBases, hbases, List.filter_append,
      List.filter_eq_self.mpr fun base hmem => by simp [hownedAll base hmem],
      List.filter_eq_nil_iff.mpr fun base hmem => by simp [hsharedAll base hmem],
      List.append_nil]
  have hfilterShared : placed.layout.sharedBases = shared := by
    rw [Layout.sharedBases, hbases, List.filter_append,
      List.filter_eq_nil_iff.mpr fun base hmem => by simp [hownedAll base hmem],
      List.filter_eq_self.mpr fun base hmem => by simp [hsharedAll base hmem], List.nil_append]
  rw [hfilterOwned, hfilterShared, hlendsOwned, ← List.map_id placed.shared, hlendsShared]
  exact ⟨howned.symm, hshared, hownedTypes, hsharedTypes⟩

/-- The bases of a layout are owned bases of the type or shared bases of the hierarchy. -/
lemma mem_bases (steps : Construction target isPod part c placed) {base : PlacedBase}
    (h : base ∈ placed.layout.bases) :
    (∃ owned ∈ c.ownedBases, owned.type = base.type) ∨ base.type ∈ placed.shared := by
  obtain ⟨howned, hcomplete, htypes, hshared⟩ := steps.bases_split
  rw [steps.bases_eq, hcomplete, ← howned, List.mem_append] at h
  rcases h with h | h
  · refine Or.inl (List.mem_map.mp ?_)
    rw [← htypes]
    exact List.mem_map_of_mem h
  · refine Or.inr ?_
    rw [← hshared]
    exact List.mem_map_of_mem h

end Construction

/-- Collecting shared bases asks for the placement of every base and notes the direct ones and
those of the bases. -/
lemma foldlM_hoisted {bases : List Base} {seen last : List TypeId}
    (h : bases.foldlM (fun seen base => do
      let placed ← part base.type
      let met := if base.isShared then FirstSeen.note seen base.type else seen
      return FirstSeen.noteAll met placed.shared) seen = .ok last) :
    (∀ base ∈ bases, ∃ p, part base.type = .ok p) ∧
      ∀ id, id ∈ last ↔ id ∈ seen ∨ ∃ base ∈ bases, ∃ p, part base.type = .ok p ∧
        (base.isShared ∧ base.type = id ∨ id ∈ p.shared) := by
  induction bases generalizing seen with
  | nil =>
    cases h
    simp
  | cons base bases ih =>
    obtain ⟨next, hnext, h⟩ := foldlM_cons_eq_ok.mp h
    obtain ⟨p, hp, hnext⟩ := bind_eq_ok.mp hnext
    cases hnext
    obtain ⟨hall, hmem⟩ := ih h
    refine ⟨List.forall_mem_cons.mpr ⟨⟨p, hp⟩, hall⟩, fun id => ?_⟩
    rw [hmem]
    simp only [FirstSeen.mem_noteAll, List.exists_mem_cons_iff, hp, Except.ok.injEq,
      exists_eq_left']
    by_cases hshared : base.isShared = true
    · simp only [hshared, if_true, FirstSeen.mem_note, true_and, or_assoc, eq_comm]
    · simp only [hshared, Bool.false_eq_true, if_false, false_and, false_or, or_assoc]

lemma mem_hoisted {shared : List TypeId} (h : c.hoisted part = .ok shared) {id : TypeId} :
    id ∈ shared ↔ ∃ base ∈ c.bases, ∃ p, part base.type = .ok p ∧
      (base.isShared ∧ base.type = id ∨ id ∈ p.shared) := by
  simpa using (foldlM_hoisted h).2 id

end Composite

namespace Field

variable {target : Target} {field : Field}

/-- A sound bit-field is a scalar, and its storage unit is not empty. -/
lemma WellFormed.storageUnit (h : field.WellFormed target) (hbits : field.bitWidth.isSome) :
    (∃ align, field.type = .scalar field.storageUnit align) ∧ 0 < field.storageUnit := by
  obtain ⟨width, hwidth⟩ := Option.isSome_iff_exists.mp hbits
  obtain ⟨-, size, align, htype, -⟩ := h.bits width hwidth
  have hunit : field.storageUnit = size := by rw [Field.storageUnit, htype]
  rw [hunit]
  exact ⟨⟨align, htype⟩, h.size_pos size align htype⟩

end Field

namespace FieldGroup

lemma plain_mem_joinRun {field joined : Field} {groups : List FieldGroup} :
    .plain field ∈ joinRun joined groups ↔ .plain field ∈ groups := by
  unfold joinRun
  split
  · split <;> simp
  · simp

/-- The plain groups are the fields that are no bit-fields. -/
lemma plain_mem_ofFields {all : List Field} {field : Field} :
    .plain field ∈ ofFields all ↔ field ∈ all ∧ field.bitWidth = none := by
  induction all with
  | nil => simp [ofFields]
  | cons first rest ih =>
    rw [List.mem_cons, or_and_right, ← ih, ofFields]
    split
    · next hbits =>
      rw [List.mem_cons, FieldGroup.plain.injEq]
      exact or_congr_left (iff_self_and.mpr fun heq => heq ▸ hbits)
    · next hbits =>
      have hfirst : ¬ (field = first ∧ field.bitWidth = none) := by
        rintro ⟨rfl, hnone⟩
        simp [hbits] at hnone
      simp [hfirst]
    · next hbits =>
      have hfirst : ¬ (field = first ∧ field.bitWidth = none) := by
        rintro ⟨rfl, hnone⟩
        simp [hbits] at hnone
      simp [hfirst, plain_mem_joinRun]

/-- The fields of a group are of the kind that the group says. -/
def Valid (target : Target) : FieldGroup → Prop
  | .plain field => field.bitWidth = none ∧ field.WellFormed target
  | .marker field => field.bitWidth = some 0 ∧ field.WellFormed target
  | .run unit fields => 0 < unit ∧ fields ≠ [] ∧ ∀ field ∈ fields, field.storageUnit = unit ∧
      (∃ width, field.bitWidth = some (width + 1)) ∧ field.WellFormed target

lemma joinRun_valid {target : Target} {field : Field} {groups : List FieldGroup} {width : Nat}
    (hbits : field.bitWidth = some (width + 1)) (hfield : field.WellFormed target)
    (hgroups : ∀ group ∈ groups, group.Valid target) :
    ∀ group ∈ joinRun field groups, group.Valid target := by
  have hunit := (hfield.storageUnit (by rw [hbits]; rfl)).2
  have halone : (FieldGroup.run field.storageUnit [field]).Valid target :=
    ⟨hunit, List.cons_ne_nil _ _, by simpa using ⟨⟨width, hbits⟩, hfield⟩⟩
  unfold joinRun
  split
  · next unit fields rest =>
    obtain ⟨hrun, hrest⟩ := List.forall_mem_cons.mp hgroups
    split
    · next hsame =>
      refine List.forall_mem_cons.mpr ⟨⟨hrun.1, List.cons_ne_nil _ _, ?_⟩, hrest⟩
      exact List.forall_mem_cons.mpr ⟨⟨hsame, ⟨width, hbits⟩, hfield⟩, hrun.2.2⟩
    · exact List.forall_mem_cons.mpr ⟨halone, hgroups⟩
  · exact List.forall_mem_cons.mpr ⟨halone, hgroups⟩

lemma ofFields_valid {target : Target} {fields : List Field}
    (h : ∀ field ∈ fields, field.WellFormed target) :
    ∀ group ∈ ofFields fields, group.Valid target := by
  induction fields with
  | nil => simp [ofFields]
  | cons field rest ih =>
    obtain ⟨hfield, hrest⟩ := List.forall_mem_cons.mp h
    rw [ofFields]
    split
    · next hbits => exact List.forall_mem_cons.mpr ⟨⟨hbits, hfield⟩, ih hrest⟩
    · next hbits => exact List.forall_mem_cons.mpr ⟨⟨hbits, hfield⟩, ih hrest⟩
    · next width hbits => exact joinRun_valid hbits hfield (ih hrest)

/-- The members of a run hold bits, and no more than a storage unit does. -/
lemma Valid.bitItems_width {target : Target} {unit : Nat} {members : List Field}
    (h : (FieldGroup.run unit members).Valid target) :
    ∀ item ∈ bitItems members, 0 < item.width ∧ item.width ≤ unit * 8 := by
  intro item hitem
  obtain ⟨field, hmem, rfl⟩ := List.mem_map.mp hitem
  obtain ⟨hsame, ⟨width, hbits⟩, hfield⟩ := h.2.2 field hmem
  obtain ⟨-, size, align, htype, hwidth⟩ := hfield.bits (width + 1) hbits
  rw [Field.storageUnit, htype] at hsame
  dsimp only at hsame ⊢
  rw [hbits, Option.getD_some]
  omega

end FieldGroup

namespace Composite

variable {target : Target} {isPod isPod' : TypeId → Bool}
  {part part' : TypeId → Except Rejection Placed} {c : Composite}

lemma extent_congr {type : FieldType}
    (h : ∀ id, type = .composite id → part id = part' id) :
    extent target part type = extent target part' type := by
  cases type with
  | composite id => rw [extent, extent, h id rfl]
  | _ => rfl

lemma ownedBytes_congr {base : TypeId × Core}
    (h : target.tailPadding = .reuse → isPod base.1 = isPod' base.1) :
    ownedBytes target isPod base = ownedBytes target isPod' base := by
  unfold ownedBytes
  cases hpolicy : target.tailPadding with
  | keep => rfl
  | reuse =>
    dsimp only
    rw [h hpolicy]

/-- Other placements matter only at the types referred to and at the shared bases of these. -/
theorem place_congr (hpart : ∀ id ∈ c.references, part id = part' id)
    (hshared : ∀ id ∈ c.references, ∀ p, part id = .ok p → ∀ s ∈ p.shared, part s = part' s)
    (hpod : target.tailPadding = .reuse → ∀ id ∈ c.references, isPod id = isPod' id) :
    c.place target isPod part = c.place target isPod' part' := by
  have hbase : ∀ base ∈ c.bases, part base.type = part' base.type :=
    fun base hmem => hpart _ (mem_references_of_base hmem)
  have howned : c.ownedCores part = c.ownedCores part' := by
    refine mapM_congr fun base hmem => ?_
    rw [hbase base (List.mem_of_mem_filter hmem)]
  have hhoisted : c.hoisted part = c.hoisted part' := by
    refine foldlM_congr (fun base hmem seen => ?_) []
    rw [hbase base hmem]
  have hown : c.placeOwn target isPod part = c.placeOwn target isPod' part' := by
    rw [placeOwn, placeOwn, ← howned]
    refine bind_congr_ok fun owned hcores => bind_congr_ok fun opened _ => ?_
    have hbased : owned.foldlM (fun draft base => draft.embed (c.site target) base.1 .owned base.2
          (ownedBytes target isPod base)) opened =
        owned.foldlM (fun draft base => draft.embed (c.site target) base.1 .owned base.2
          (ownedBytes target isPod' base)) opened := by
      refine foldlM_congr (fun core hmem draft => ?_) opened
      obtain ⟨base, hbase, p, -, rfl⟩ := exists_of_mem_right (lends_of_mapM hcores) hmem
      have href := mem_references_of_ownedBase hbase
      rw [ownedBytes_congr fun hpolicy => hpod hpolicy base.type href]
    rw [hbased]
    refine bind_congr_ok fun based _ => ?_
    rw [FieldGroup.placeAll_congr fun field hmem => extent_congr fun id hid => hpart id
      (mem_references_of_field (FieldGroup.plain_mem_ofFields.mp hmem).1 hid)]
  rw [place, place, ← hown, ← hhoisted]
  refine bind_congr_ok fun own _ => bind_congr_ok fun core _ => bind_congr_ok fun shared hs => ?_
  have hplace : c.placeShared target part own.1 shared =
      c.placeShared target part' own.1 shared := by
    refine foldlM_congr (fun id hmem draft => ?_) _
    obtain ⟨base, hin, p, hp, hcase⟩ := (mem_hoisted hs).mp hmem
    rcases hcase with ⟨-, rfl⟩ | hid
    · rw [hbase base hin]
    · rw [hshared _ (mem_references_of_base hin) p hp id hid]
  rw [hplace]

/-- A placement that succeeds has found everything that it refers to. -/
theorem Construction.references_ok {placed : Placed}
    (steps : Construction target isPod part c placed)
    (hwell : c.WellFormed target) : ∀ id ∈ c.references, ∃ p, part id = .ok p := by
  intro id hmem
  rcases List.mem_append.mp hmem with hmem | hmem
  · obtain ⟨base, hbase, rfl⟩ := List.mem_map.mp hmem
    exact (foldlM_hoisted steps.collected).1 base hbase
  · obtain ⟨field, hfield, hid⟩ := List.mem_filterMap.mp hmem
    have htype : field.type = .composite id := by
      cases htype : field.type <;> simp [htype, FieldType.composite?] at hid
      rw [hid]
    have hplain : field.bitWidth = none := by
      cases hbits : field.bitWidth with
      | none => rfl
      | some width =>
        obtain ⟨⟨align, hscalar⟩, -⟩ := (hwell.fields field hfield).storageUnit (by rw [hbits]; rfl)
        rw [htype] at hscalar
        cases hscalar
    have hgroup := FieldGroup.plain_mem_ofFields.mpr ⟨hfield, hplain⟩
    obtain ⟨result, hextent⟩ := FieldGroup.extent_of_placeAll steps.fields hgroup
    rw [htype] at hextent
    obtain ⟨p, hp, -⟩ := bind_eq_ok.mp hextent
    exact ⟨p, hp⟩

end Composite

end ObjectLayout
