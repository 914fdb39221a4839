import ObjectLayout.Proofs.RegularPlacement

/-!
# Cautious placement

A placement that looks before each step: whether an alignment is a power of two before it rounds to
it, whether a unit has a byte and a width fits into the unit before it packs, whether a bit-field is
a scalar before it reads the storage unit off it, and whether an owned base was placed before it
collects what the base shares. Where the parts of a type are regular it finds no breach and gives
what the plain placement gives, one equation for each step.
-/
namespace ObjectLayout

/-- What the placement of accepted types relies on and never finds broken. -/
inductive Breach where
  | alignment (align : Nat)
  | packing (error : PackingError)
  | width (unit width : Nat)
  | storageUnit (field : String)
  | missingBase (id : TypeId)
  | undefinedType (id : TypeId)
  /-- Placements that ask for one another went deeper than there are types. -/
  | endless (id : TypeId)
  deriving DecidableEq

inductive Failure where
  | rejected (rejection : Rejection)
  | breach (breach : Breach)
  deriving DecidableEq

/-- A run that may also fail for a breach. -/
abbrev Cautious (α : Type) := Except Failure α

namespace Cautious

variable {α β : Type}

/-- A plain run, which knows of no breach. -/
def lift (run : Except Rejection α) : Cautious α := run.mapError .rejected

def ensure (holds : Bool) (breach : Breach) : Cautious Unit :=
  if holds then .ok () else .error (.breach breach)

/-- A run that agrees with a plain one goes on to agree where both go on in agreement. -/
lemma bind_eq_lift {run : Cautious α} {plain : Except Rejection α} {next : α → Cautious β}
    {next' : α → Except Rejection β} (h : run = lift plain)
    (hnext : ∀ a, plain = .ok a → next a = lift (next' a)) :
    (run >>= next) = lift (plain >>= next') := by
  cases plain with
  | error rejection => rw [h]; rfl
  | ok a =>
    rw [h]
    exact hnext a rfl

lemma mapM_eq_lift {step : α → Cautious β} {step' : α → Except Rejection β} {l : List α}
    (h : ∀ x ∈ l, step x = lift (step' x)) : l.mapM step = lift (l.mapM step') := by
  induction l with
  | nil => rfl
  | cons x l ih =>
    rw [List.mapM_cons, List.mapM_cons]
    refine bind_eq_lift (h x List.mem_cons_self) fun y _ => ?_
    exact bind_eq_lift (ih fun z hz => h z (List.mem_cons_of_mem _ hz)) fun _ _ => rfl

lemma foldlM_eq_lift {step : β → α → Cautious β} {step' : β → α → Except Rejection β} {l : List α}
    (h : ∀ x ∈ l, ∀ b, step b x = lift (step' b x)) (b : β) :
    l.foldlM step b = lift (l.foldlM step' b) := by
  induction l generalizing b with
  | nil => rfl
  | cons x l ih =>
    rw [List.foldlM_cons, List.foldlM_cons]
    exact bind_eq_lift (h x List.mem_cons_self b) fun next _ =>
      ih (fun y hy => h y (List.mem_cons_of_mem _ hy)) next

lemma forM_eq_ok {step : α → Cautious Unit} {l : List α} (h : ∀ x ∈ l, step x = .ok ()) :
    l.forM step = .ok () := by
  induction l with
  | nil => rfl
  | cons x l ih =>
    have hcons : (x :: l).forM step = (step x >>= fun _ => l.forM step) := rfl
    rw [hcons, h x List.mem_cons_self]
    exact ih fun y hy => h y (List.mem_cons_of_mem _ hy)

/-- Round to a power of two. All roundings of a cautious placement are made here. -/
def round (site : Site) (value align : Nat) : Cautious Nat := do
  ensure (isPowerOfTwo align) (.alignment align)
  lift (site.require (site.target.roundUp? value align))

def roundTo (site : Site) (frontier : Frontier) (align : Nat) : Cautious Frontier := do
  let offset ← round site frontier.offset (site.granted align)
  return { frontier with offset := offset }

def alignFor (site : Site) (frontier : Frontier) (align : Nat) : Cautious Frontier :=
  roundTo site (frontier.regard site align) align

def close (site : Site) (frontier : Frontier) (dispatch : Option Nat) : Cautious Core := do
  let size ← if frontier.offset = 0 then pure 0 else round site frontier.offset frontier.align
  return ⟨frontier.offset, size, frontier.align, dispatch⟩

def embed (site : Site) (draft : Draft) (type : TypeId) (sharing : Sharing) (core : Core)
    (bytes : Nat) : Cautious Draft :=
  if core.dataSize = 0 then
    .ok {
      frontier := draft.frontier.regard site core.align
      dispatch := draft.dispatch.or ((core.brings sharing).map (draft.frontier.offset + ·))
      bases := draft.bases ++ [⟨type, draft.frontier.offset, 0, sharing⟩] }
  else do
    let start ← alignFor site draft.frontier core.align
    let next ← lift (start.advance site bytes)
    return {
      frontier := next
      dispatch := draft.dispatch.or ((core.brings sharing).map (start.offset + ·))
      bases := draft.bases ++ [⟨type, start.offset, core.size, sharing⟩] }

/-- Pack members into units that hold each of them. -/
def pack (unit : Nat) (members : List BitItem) : Cautious PackedRun := do
  members.forM fun member =>
    ensure (0 < member.width && member.width ≤ 8 * unit) (.width unit member.width)
  (PackedRun.pack unit members).mapError fun error => .breach (.packing error)

/-- The storage unit is read off every bit-field, also where a run ends. -/
def checkUnit (field : Field) : Cautious Unit :=
  match field.bitWidth, field.type with
  | none, _ => .ok ()
  | some _, .scalar _ _ => .ok ()
  | some _, _ => .error (.breach (.storageUnit field.name))

def placeGroup (site : Site) (extent : FieldType → Cautious (Nat × Nat)) (frontier : Frontier) :
    FieldGroup → Cautious (Frontier × List PlacedField)
  | .plain field => do
    let (size, natural) ← extent field.type
    let start ← alignFor site frontier (max natural (field.forcedAlign.getD 1))
    let next ← lift (start.advance site size)
    return (next, [⟨field.name, start.offset, size, none⟩])
  | .marker field => do
    let next ← roundTo site frontier field.storageUnit
    return (next, [⟨field.name, next.offset, 0, some ⟨0, 0⟩⟩])
  | .run unit fields => do
    let packed ← pack unit (FieldGroup.bitItems fields)
    let start ← alignFor site frontier packed.align
    let next ← lift (start.advance site packed.size)
    return (next, packed.bits.map (FieldGroup.placeBit start.offset unit))

def placeGroups (site : Site) (extent : FieldType → Cautious (Nat × Nat)) :
    Frontier → List FieldGroup → Cautious (Frontier × List PlacedField)
  | frontier, [] => .ok (frontier, [])
  | frontier, group :: rest => do
    let (next, placed) ← placeGroup site extent frontier group
    let (last, others) ← placeGroups site extent next rest
    return (last, placed ++ others)

def extent (target : Target) (part : TypeId → Cautious Placed) :
    FieldType → Cautious (Nat × Nat)
  | .scalar size align => .ok (size, align)
  | .pointer => .ok (target.pointerSize, target.pointerSize)
  | .composite id => do
    let placed ← part id
    return (placed.layout.size, placed.layout.align)

def openSlot (target : Target) (c : Composite) (owned : List (TypeId × Core)) : Cautious Draft :=
  if c.introducesDispatch && !owned.any (fun base => base.2.dispatch.isSome) then do
    let site := c.site target
    let start ← alignFor site {} target.pointerSize
    let next ← lift (start.advance site target.pointerSize)
    return { frontier := next, dispatch := some start.offset }
  else .ok {}

/-- The placements of the owned bases, in declaration order. -/
def ownedParts (part : TypeId → Cautious Placed) (c : Composite) :
    Cautious (List (TypeId × Placed)) :=
  c.ownedBases.mapM fun base => do
    let placed ← part base.type
    return (base.type, placed)

/-- Collect shared bases, taking the placements of owned bases from those at hand. -/
def collect (part : TypeId → Cautious Placed) :
    List Base → List (TypeId × Placed) → List TypeId → Cautious (List TypeId)
  | [], _, seen => .ok seen
  | base :: bases, owned, seen =>
    if base.isShared then do
      let placed ← part base.type
      collect part bases owned
        (FirstSeen.noteAll (FirstSeen.note seen base.type) placed.shared)
    else
      match owned with
      | [] => .error (.breach (.missingBase base.type))
      | (_, placed) :: owned => collect part bases owned (FirstSeen.noteAll seen placed.shared)

/-- Place a type cautiously, given the placements of all types it refers to. -/
def place (target : Target) (isPod : TypeId → Bool) (part : TypeId → Cautious Placed)
    (c : Composite) : Cautious Placed := do
  let site := c.site target
  let owned ← ownedParts part c
  let cores := owned.map fun base => (base.1, base.2.core)
  let opened ← openSlot target c cores
  let based ← cores.foldlM (fun draft base =>
    embed site draft base.1 .owned base.2 (Composite.ownedBytes target isPod base)) opened
  c.fields.forM checkUnit
  let (frontier, fields) ←
    placeGroups site (extent target part) based.frontier (FieldGroup.ofFields c.fields)
  let own := { based with frontier := c.forceAlign frontier }
  let core ← close site own.frontier own.dispatch
  let shared ← collect part c.bases owned []
  let complete ← shared.foldlM (fun draft type => do
    let placed ← part type
    embed site draft type .shared placed.core placed.core.size) own
  let size ← round site (max complete.frontier.offset 1) complete.frontier.align
  return {
    layout := {
      size := size
      align := complete.frontier.align
      dataSize := complete.frontier.offset
      dispatch := complete.dispatch
      fields := fields
      bases := complete.bases }
    core := core
    shared := shared }

section

variable {site : Site} {frontier : Frontier} {align : Nat}

lemma ensure_eq_ok {holds : Bool} {breach : Breach} (h : holds = true) :
    ensure holds breach = .ok () := by
  rw [ensure, if_pos h]

lemma round_eq (h : align.isPowerOfTwo) (value : Nat) :
    round site value align = lift (site.require (site.target.roundUp? value align)) := by
  rw [round, ensure_eq_ok (isPowerOfTwo_iff.mpr h)]
  rfl

lemma roundTo_eq (h : (site.granted align).isPowerOfTwo) :
    roundTo site frontier align = lift (frontier.roundTo site align) :=
  bind_eq_lift (round_eq h _) fun _ _ => rfl

lemma alignFor_eq (h : (site.granted align).isPowerOfTwo) :
    alignFor site frontier align = lift (frontier.alignFor site align) :=
  roundTo_eq h

lemma close_eq (h : frontier.align.isPowerOfTwo) (dispatch : Option Nat) :
    close site frontier dispatch = lift (Core.close site frontier dispatch) := by
  unfold close Core.close
  split
  · rfl
  · exact bind_eq_lift (round_eq h _) fun _ _ => rfl

lemma embed_eq {core : Core} (h : (site.granted core.align).isPowerOfTwo) (draft : Draft)
    (type : TypeId) (sharing : Sharing) (bytes : Nat) :
    embed site draft type sharing core bytes =
      lift (draft.embed site type sharing core bytes) := by
  unfold embed Draft.embed
  split
  · rfl
  · exact bind_eq_lift (alignFor_eq h) fun _ _ => bind_eq_lift rfl fun _ _ => rfl

lemma pack_eq {unit : Nat} {members : List BitItem} (hunit : 0 < unit)
    (hwidths : ∀ member ∈ members, 0 < member.width ∧ member.width ≤ 8 * unit) :
    pack unit members = .ok (PackedRun.ofMembers unit members) := by
  rw [pack, forM_eq_ok fun member hmem => ensure_eq_ok (by simpa using hwidths member hmem),
    PackedRun.pack, if_neg (Nat.ne_of_gt hunit)]
  rfl

lemma checkUnit_eq {target : Target} {field : Field} (h : field.WellFormed target) :
    checkUnit field = .ok () := by
  unfold checkUnit
  cases hbits : field.bitWidth with
  | none => rfl
  | some width =>
    obtain ⟨-, size, align, htype, -⟩ := h.bits width hbits
    rw [htype]

end

section

variable {target : Target} {site : Site} {extent : FieldType → Cautious (Nat × Nat)}
  {extent' : FieldType → Except Rejection (Nat × Nat)} {group : FieldGroup}
  {groups : List FieldGroup}

lemma run_pack_eq {unit : Nat} {members : List Field}
    (h : (FieldGroup.run unit members).Valid target) :
    pack unit (FieldGroup.bitItems members) =
      .ok (PackedRun.ofMembers unit (FieldGroup.bitItems members)) := by
  obtain ⟨hunit, -, hmembers⟩ := h
  refine pack_eq hunit fun item hitem => ?_
  obtain ⟨field, hmem, rfl⟩ := List.mem_map.mp hitem
  obtain ⟨hsame, ⟨width, hbits⟩, hfield⟩ := hmembers field hmem
  obtain ⟨-, size, align, htype, hwidth⟩ := hfield.bits (width + 1) hbits
  rw [Field.storageUnit, htype] at hsame
  dsimp only at hsame ⊢
  rw [hbits, Option.getD_some]
  omega

lemma placeGroup_eq (hvalid : group.Valid target) (hregular : group.Regular extent')
    (hsite : ∀ clamp ∈ site.packing, clamp.isPowerOfTwo)
    (hextent : ∀ field ∈ group.fields, extent field.type = lift (extent' field.type))
    (frontier : Frontier) :
    placeGroup site extent frontier group = lift (group.place site extent' frontier) := by
  cases group with
  | plain field =>
    have hfield := hextent field (List.mem_singleton_self field)
    refine bind_eq_lift hfield fun ⟨size, natural⟩ hsize => ?_
    have hgranted := Site.granted_isPowerOfTwo hsite (hregular size natural hsize)
    exact bind_eq_lift (alignFor_eq hgranted) fun _ _ => bind_eq_lift rfl fun _ _ => rfl
  | marker field =>
    exact bind_eq_lift (roundTo_eq (Site.granted_isPowerOfTwo hsite hregular)) fun _ _ => rfl
  | run unit members =>
    rw [placeGroup, run_pack_eq hvalid]
    exact bind_eq_lift (alignFor_eq (Site.granted_isPowerOfTwo hsite hregular)) fun _ _ =>
      bind_eq_lift rfl fun _ _ => rfl

lemma placeGroups_eq (hvalid : ∀ group ∈ groups, group.Valid target)
    (hregular : ∀ group ∈ groups, group.Regular extent')
    (hsite : ∀ clamp ∈ site.packing, clamp.isPowerOfTwo)
    (hextent : ∀ field ∈ groups.flatMap FieldGroup.fields,
      extent field.type = lift (extent' field.type)) (frontier : Frontier) :
    placeGroups site extent frontier groups =
      lift (FieldGroup.placeAll site extent' frontier groups) := by
  induction groups generalizing frontier with
  | nil => rfl
  | cons group groups ih =>
    obtain ⟨hvalidHead, hvalidTail⟩ := List.forall_mem_cons.mp hvalid
    obtain ⟨hhead, htail⟩ := List.forall_mem_cons.mp hregular
    rw [List.flatMap_cons] at hextent
    refine bind_eq_lift (placeGroup_eq hvalidHead hhead hsite
      (fun field hmem => hextent field (List.mem_append_left _ hmem)) frontier) fun _ _ => ?_
    exact bind_eq_lift (ih hvalidTail htail
      (fun field hmem => hextent field (List.mem_append_right _ hmem)) _) fun _ _ => rfl

end

section

variable {target : Target} {isPod : TypeId → Bool} {part : TypeId → Cautious Placed}
  {part' : TypeId → Except Rejection Placed} {c : Composite}

lemma extent_eq {type : FieldType} (h : ∀ id, type = .composite id → part id = lift (part' id)) :
    extent target part type = lift (Composite.extent target part' type) := by
  cases type with
  | composite id => exact bind_eq_lift (h id rfl) fun _ _ => rfl
  | _ => rfl

lemma openSlot_eq (h : c.WellFormed target) (hpointer : target.pointerSize.isPowerOfTwo)
    (owned : List (TypeId × Core)) :
    openSlot target c owned = lift (c.openSlot target owned) := by
  unfold openSlot Composite.openSlot
  split
  · exact bind_eq_lift (alignFor_eq (Site.granted_isPowerOfTwo h.packing hpointer)) fun _ _ =>
      bind_eq_lift rfl fun _ _ => rfl
  · rfl

/-- The placements of owned bases, by the plain rules. -/
def plainOwned (part : TypeId → Except Rejection Placed) (bases : List Base) :
    Except Rejection (List (TypeId × Placed)) :=
  bases.mapM fun base => do
    let placed ← part base.type
    return (base.type, placed)

lemma ownedCores_eq (part : TypeId → Except Rejection Placed) (c : Composite) :
    c.ownedCores part = plainOwned part c.ownedBases >>= fun owned =>
      pure (owned.map fun base => (base.1, base.2.core)) := by
  unfold Composite.ownedCores plainOwned
  induction c.ownedBases with
  | nil => rfl
  | cons base bases ih =>
    rw [List.mapM_cons, List.mapM_cons, ih]
    cases part base.type with
    | error rejection => rfl
    | ok placed =>
      cases bases.mapM fun base => (do
        let placed ← part base.type
        return (base.type, placed)) with
      | error rejection => rfl
      | ok owned => rfl

/-- There is a placement for every owned base, so collecting never misses one. -/
lemma collect_eq {bases : List Base} {owned : List (TypeId × Placed)}
    (h : ∀ base ∈ bases, part base.type = lift (part' base.type))
    (howned : plainOwned part' (bases.filter fun base => !base.isShared) = .ok owned)
    (seen : List TypeId) : collect part bases owned seen = lift (bases.foldlM (fun seen base => do
      let placed ← part' base.type
      let met := if base.isShared then FirstSeen.note seen base.type else seen
      return FirstSeen.noteAll met placed.shared) seen) := by
  induction bases generalizing owned seen with
  | nil => rfl
  | cons base bases ih =>
    obtain ⟨hhead, htail⟩ := List.forall_mem_cons.mp h
    rw [List.foldlM_cons]
    unfold collect
    by_cases hshared : base.isShared = true
    · rw [List.filter_cons_of_neg (by simp [hshared])] at howned
      simp only [hshared, if_true, bind_assoc, pure_bind]
      exact bind_eq_lift hhead fun placed _ => ih htail howned _
    · rw [List.filter_cons_of_pos (by simp [hshared]), plainOwned, List.mapM_cons] at howned
      obtain ⟨⟨type, placed⟩, hplaced, howned⟩ := bind_eq_ok.mp howned
      obtain ⟨rest, hrest, howned⟩ := bind_eq_ok.mp howned
      obtain ⟨placed', hpart, hplaced⟩ := bind_eq_ok.mp hplaced
      cases howned
      cases hplaced
      simp only [hshared, Bool.false_eq_true, if_false, hpart]
      exact ih htail hrest _

lemma plainOwned_lends {bases : List Base} {owned : List (TypeId × Placed)}
    (h : plainOwned part' bases = .ok owned) :
    List.Forall₂ (fun base core => Composite.Lends part' base.type core) bases
      (owned.map fun base => (base.1, base.2.core)) := by
  rw [List.forall₂_map_right_iff]
  refine (forall₂_of_mapM h).imp fun base placed hplaced => ?_
  obtain ⟨p, hp, hplaced⟩ := bind_eq_ok.mp hplaced
  cases hplaced
  exact ⟨p, hp, rfl⟩

variable {known : TypeId → Prop} (hwell : c.WellFormed target)
  (hpointer : target.pointerSize.isPowerOfTwo)
  (hpart : ∀ id, known id → part id = lift (part' id))
  (hregular : ∀ id p, known id → part' id = .ok p → p.Regular target)
  (hreferences : ∀ id ∈ c.references, known id)
  (hshared : ∀ id p, known id → part' id = .ok p → ∀ shared ∈ p.shared, known shared)

include hregular hreferences in
lemma owned_regular {owned : List (TypeId × Placed)}
    (h : plainOwned part' c.ownedBases = .ok owned) :
    ∀ core ∈ owned.map fun base => (base.1, base.2.core), core.2.Regular target := by
  refine Composite.forall_of_lends (plainOwned_lends h) fun base hmem p hp => ?_
  exact (hregular base.type p (hreferences _ (Composite.mem_references_of_ownedBase hmem)) hp).core

include hreferences hshared in
/-- Everything hoisted is known. -/
lemma known_of_mem_hoisted {shared : List TypeId} (h : c.hoisted part' = .ok shared) :
    ∀ id ∈ shared, known id := by
  intro id hmem
  obtain ⟨base, hbase, p, hp, hcase⟩ := (Composite.mem_hoisted h).mp hmem
  have hknown := hreferences _ (Composite.mem_references_of_base hbase)
  rcases hcase with ⟨-, rfl⟩ | hid
  · exact hknown
  · exact hshared base.type p hknown hp id hid

include hwell hpointer hpart hregular in
lemma placeShared_eq {shared : List TypeId} (hknown : ∀ id ∈ shared, known id) (draft : Draft) :
    shared.foldlM (fun draft type => do
      let placed ← part type
      embed (c.site target) draft type .shared placed.core placed.core.size) draft =
        lift (c.placeShared target part' draft shared) := by
  refine foldlM_eq_lift (fun id hmem draft => ?_) draft
  refine bind_eq_lift (hpart id (hknown id hmem)) fun p hp => ?_
  exact embed_eq (Site.granted_isPowerOfTwo hwell.packing
    ((hregular id p (hknown id hmem) hp).core.align hpointer)) _ _ _ _

include hwell hregular in
lemma placeShared_grows {shared : List TypeId} {draft last : Draft}
    (h : c.placeShared target part' draft shared = .ok last)
    (hknown : ∀ id ∈ shared, known id) : draft.frontier.Grows target last.frontier := by
  obtain ⟨cores, hlent, hlast⟩ := Composite.placeShared_eq_ok h
  have hcores : ∀ core ∈ cores, core.2.Regular target :=
    Composite.forall_of_lends hlent fun id hmem p hp => (hregular id p (hknown id hmem) hp).core
  exact Draft.embedAll_grows hlast hwell.packing hcores

include hwell hpointer hpart hregular hreferences hshared

/-- Where the parts are regular, a type is placed cautiously as it is placed plainly. -/
theorem place_eq : place target isPod part c = lift (c.place target isPod part') := by
  have hbases : ∀ base ∈ c.bases, part base.type = lift (part' base.type) := fun base hmem =>
    hpart _ (hreferences _ (Composite.mem_references_of_base hmem))
  have hgroups := Composite.groups_regular hwell hpointer fun id href p =>
    hregular id p (hreferences id href)
  unfold place Composite.place Composite.placeOwn
  rw [ownedCores_eq]
  simp only [bind_assoc, pure_bind]
  refine bind_eq_lift (mapM_eq_lift fun base hmem => ?_) fun owned howned => ?_
  · exact bind_eq_lift (hbases base (List.mem_of_mem_filter hmem)) fun _ _ => rfl
  have hcores := owned_regular hregular hreferences howned
  refine bind_eq_lift (openSlot_eq hwell hpointer _) fun opened hopened => ?_
  refine bind_eq_lift (foldlM_eq_lift (fun core hcore draft => embed_eq
    (Site.granted_isPowerOfTwo hwell.packing ((hcores core hcore).align hpointer)) _ _ _ _) _)
    fun based hbased => ?_
  rw [forM_eq_ok fun field hmem => checkUnit_eq (hwell.fields field hmem)]
  refine bind_eq_lift (placeGroups_eq (FieldGroup.ofFields_valid hwell.fields) hgroups
    hwell.packing (fun field hmem => ?_) _) fun ⟨frontier, fields⟩ hfields => ?_
  · rw [FieldGroup.flatMap_fields_ofFields] at hmem
    exact extent_eq fun id htype =>
      hpart id (hreferences id (Composite.mem_references_of_field hmem htype))
  -- The alignments that are rounded to from here on are those of the frontier.
  have hbasedGrows := Draft.embedAll_grows hbased hwell.packing hcores
  have hpower : (c.forceAlign frontier).align.isPowerOfTwo :=
    (Composite.forceAlign_grows hwell frontier).power hpointer
      (FieldGroup.placeAll_align_isPowerOfTwo hgroups hwell.packing hfields
        (hbasedGrows.power hpointer ((Composite.openSlot_regular hwell hopened).2.1 hpointer)))
  refine bind_eq_lift (close_eq hpower _) fun core _ => ?_
  refine bind_eq_lift (collect_eq hbases howned []) fun shared hhoisted => ?_
  have hknown := known_of_mem_hoisted hreferences hshared hhoisted
  refine bind_eq_lift (placeShared_eq hwell hpointer hpart hregular hknown _)
    fun complete hcomplete => ?_
  have hcompleteGrows := placeShared_grows hwell hregular hcomplete hknown
  exact bind_eq_lift (round_eq (hcompleteGrows.power hpointer hpower) _) fun _ _ => rfl

end

end Cautious

end ObjectLayout
