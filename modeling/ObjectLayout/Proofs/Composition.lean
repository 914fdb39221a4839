import ObjectLayout.Proofs.BaseWalk
import ObjectLayout.Proofs.Variants

/-!
# Inheritance laid out as composition

A type with owned bases is set beside one that stores the types of these bases as its first members.
A base is embedded by its core and a member is placed as a complete object; if no base shares
anything, the core of a base is the whole of it. Cores that hold data then move the frontier as
members do, and both types ask the types below for the same alignments. So the two are accepted
together, and laid out together and alike.
-/
namespace ObjectLayout

/-- The runs succeed together, with results in the relation, or fail together. -/
def Alike {α β : Type} (S : α → β → Prop) : Except Rejection α → Except Rejection β → Prop
  | .ok a, .ok b => S a b
  | .error _, .error _ => True
  | .ok _, .error _ | .error _, .ok _ => False

namespace Alike

variable {α β γ δ : Type} {S : α → β → Prop} {T : γ → δ → Prop} {run : Except Rejection α}
  {run' : Except Rejection β}

/-- A run is like itself. -/
lemma same (run : Except Rejection α) : Alike (fun a b => a = b ∧ run = .ok a) run run := by
  cases run with
  | error rejection => trivial
  | ok a => exact ⟨rfl, rfl⟩

lemma bind {next : α → Except Rejection γ} {next' : β → Except Rejection δ}
    (h : Alike S run run') (hnext : ∀ a b, S a b → Alike T (next a) (next' b)) :
    Alike T (run >>= next) (run' >>= next') := by
  cases run <;> cases run'
  · trivial
  · exact h.elim
  · exact h.elim
  · exact hnext _ _ h

lemma map {f : α → γ} {g : β → δ} (h : Alike S run run') (hS : ∀ a b, S a b → T (f a) (g b)) :
    Alike T (run.map f) (run'.map g) := by
  cases run <;> cases run'
  · trivial
  · exact h
  · exact h
  · exact hS _ _ h

/-- Runs that cannot succeed fail together. -/
lemma of_fails (h : ∀ a, run ≠ .ok a) (h' : ∀ b, run' ≠ .ok b) : Alike S run run' := by
  cases run with
  | ok a => exact absurd rfl (h a)
  | error rejection =>
    cases run' with
    | ok b => exact absurd rfl (h' b)
    | error rejection' => trivial

/-- Runs that succeed in the same cases with the same result are alike. -/
lemma of_iff {run' : Except Rejection α} (h : ∀ a, run = .ok a ↔ run' = .ok a) :
    Alike Eq run run' := by
  cases run with
  | ok a =>
    rw [(h a).mp rfl]
    exact rfl
  | error rejection =>
    cases run' with
    | ok b => cases (h b).mpr rfl
    | error rejection' => trivial

end Alike

/-- The second of the spans is that of the member, and the first one that of a base of its type, in
the same place. -/
structure Field.StandsFor (member : Field) (spans : PlacedBase × PlacedField) : Prop where
  type : member.type = .composite spans.1.type
  name : spans.2.name = member.name
  offset : spans.2.offset = spans.1.offset
  size : spans.2.size = spans.1.size
  bits : spans.2.bits = none

/-- A member stores the type of a base, and nothing else is said of it. -/
structure Base.StoredAs (base : Base) (member : Field) : Prop where
  type : member.type = .composite base.type
  bitWidth : member.bitWidth = none
  forcedAlign : member.forcedAlign = none

namespace Base.StoredAs

variable {target : Target} {base : Base} {member : Field}

lemma wellFormed (h : base.StoredAs member) : member.WellFormed target := by
  refine ⟨?_, ?_, ?_, ?_⟩
  · simp [h.type]
  · simp [Field.scalarAlign?, h.type]
  · simp [h.bitWidth]
  · simp [h.forcedAlign]

lemma requiredAlign_eq (h : base.StoredAs member) (align : TypeId → Nat) :
    member.requiredAlign target align = max 1 (align base.type) := by
  rw [Field.requiredAlign, h.forcedAlign, h.type]
  rfl

lemma references_eq {bases : List Base} {members : List Field}
    (h : List.Forall₂ StoredAs bases members) :
    members.filterMap (fun field => field.type.composite?) = bases.map Base.type := by
  induction h with
  | nil => rfl
  | cons hhead _ ih =>
    rw [List.filterMap_cons, hhead.type, List.map_cons, ← ih]
    rfl

end Base.StoredAs

namespace FieldGroup

variable {site : Site} {extent : FieldType → Except Rejection (Nat × Nat)} {frontier : Frontier}

lemma ofFields_plain_append {members : List Field} (h : ∀ member ∈ members, member.bitWidth = none)
    (fields : List Field) :
    ofFields (members ++ fields) = members.map .plain ++ ofFields fields := by
  induction members with
  | nil => rfl
  | cons member members ih =>
    obtain ⟨hhead, htail⟩ := List.forall_mem_cons.mp h
    rw [List.cons_append, ofFields, ih htail]
    split
    · rfl
    all_goals simp_all

lemma placeAll_append (groups more : List FieldGroup) (frontier : Frontier) :
    placeAll site extent frontier (groups ++ more) = (do
      let (next, first) ← placeAll site extent frontier groups
      let (last, others) ← placeAll site extent next more
      return (last, first ++ others)) := by
  induction groups generalizing frontier with
  | nil => exact (bind_pure (placeAll site extent frontier more)).symm
  | cons group groups ih => simp [placeAll, ih]

end FieldGroup

/-- The core of a base is embedded as a member with its size and alignment is placed. -/
structure Lodges (extent : FieldType → Except Rejection (Nat × Nat)) (bytes : TypeId × Core → Nat)
    (core : TypeId × Core) (member : Field) : Prop where
  filled : 0 < core.2.dataSize
  pos : 0 < core.2.align
  bytes : bytes core = core.2.size
  type : member.type = .composite core.1
  extent : extent member.type = .ok (core.2.size, core.2.align)
  forcedAlign : member.forcedAlign = none

namespace Draft

variable {site : Site} {extent : FieldType → Except Rejection (Nat × Nat)}
  {bytes : TypeId × Core → Nat}

lemma embed_alike {core : TypeId × Core} {member : Field} (h : Lodges extent bytes core member)
    (draft : Draft) :
    Alike (fun next result => result.1 = next.frontier ∧ ∃ spans,
        next.bases = draft.bases ++ [spans.1] ∧ result.2 = [spans.2] ∧ member.StandsFor spans)
      (draft.embed site core.1 .owned core.2 (bytes core))
      ((FieldGroup.plain member).place site extent draft.frontier) := by
  have halign : max core.2.align (member.forcedAlign.getD 1) = core.2.align := by
    rw [h.forcedAlign]
    exact max_eq_left h.pos
  rw [embed, if_neg h.filled.ne', h.bytes, FieldGroup.place, h.extent]
  change Alike _ _
    (draft.frontier.alignFor site (max core.2.align (member.forcedAlign.getD 1)) >>= _)
  rw [halign]
  refine (Alike.same _).bind ?_
  rintro start _ ⟨rfl, -⟩
  refine (Alike.same _).bind ?_
  rintro next _ ⟨rfl, -⟩
  exact ⟨rfl, (_, _), rfl, rfl, h.type, rfl, rfl, rfl, rfl⟩

/-- Bases are embedded as members of their sizes and alignments are placed. -/
lemma embedAll_alike {cores : List (TypeId × Core)} {members : List Field}
    (h : List.Forall₂ (Lodges extent bytes) cores members) (draft : Draft) :
    Alike (fun last result => result.1 = last.frontier ∧ ∃ spans,
        last.bases = draft.bases ++ spans.map Prod.fst ∧ result.2 = spans.map Prod.snd ∧
          List.Forall₂ Field.StandsFor members spans)
      (draft.embedAll site .owned bytes cores)
      (FieldGroup.placeAll site extent draft.frontier (members.map .plain)) := by
  induction h generalizing draft with
  | nil => exact ⟨rfl, [], (List.append_nil _).symm, rfl, .nil⟩
  | @cons core member cores members hhead _ ih =>
    rw [embedAll, List.foldlM_cons, List.map_cons, FieldGroup.placeAll]
    refine (embed_alike hhead draft).bind ?_
    rintro next ⟨_, _⟩ ⟨rfl, span, hbases, rfl, hspan⟩
    rw [← embedAll, ← bind_pure (next.embedAll site .owned bytes cores)]
    refine (ih next).bind ?_
    rintro last ⟨_, _⟩ ⟨rfl, spans, hlast, rfl, hspans⟩
    refine ⟨rfl, span :: spans, ?_, rfl, .cons hspan hspans⟩
    rw [hlast, hbases, List.append_assoc, List.singleton_append, List.map_cons]

end Draft

/-- The base lends the whole of its type, which holds data and keeps its tail padding. -/
structure Placed.LendsWhole (target : Target) (isPod : TypeId → Bool) (base : Base) (p : Placed) :
    Prop where
  shared : p.shared = []
  filled : 0 < p.core.dataSize
  size : p.layout.size = p.core.size
  align : p.layout.align = p.core.align
  pos : 0 < p.core.align
  bytes : Composite.ownedBytes target isPod (base.type, p.core) = p.core.size

/-- The second layout has the members in the places of the bases of the first one. -/
structure Layout.Composes (members : List Field) (layout layout' : Layout) : Prop where
  size : layout'.size = layout.size
  align : layout'.align = layout.align
  dataSize : layout'.dataSize = layout.dataSize
  parts : ∃ spans, List.Forall₂ Field.StandsFor members spans ∧
    layout.bases = spans.map Prod.fst ∧ layout'.fields = spans.map Prod.snd ++ layout.fields

namespace Composite

/-- The type with members in place of its bases, before its fields. -/
def composed (c : Composite) (members : List Field) : Composite :=
  { c with bases := [], fields := members ++ c.fields }

variable {target : Target} {isPod isPod' : TypeId → Bool}
  {part : TypeId → Except Rejection Placed} {c : Composite} {members : List Field}

/-- What the bases of a type, all of them owned, lend to it. -/
structure Composable (target : Target) (isPod : TypeId → Bool)
    (part : TypeId → Except Rejection Placed) (c : Composite) : Prop where
  owned : ∀ base ∈ c.bases, base.isShared = false
  lends : ∀ base ∈ c.bases, ∃ p, part base.type = .ok p ∧ p.LendsWhole target isPod base
  slotless : c.introducesDispatch = true →
    ∀ base ∈ c.bases, ∀ p, part base.type = .ok p → p.core.dispatch = none

namespace Composable

lemma ownedBases_eq (h : Composable target isPod part c) : c.ownedBases = c.bases :=
  List.filter_eq_self.mpr fun base hmem => by rw [h.owned base hmem, Bool.not_false]

lemma hoisted_eq_nil (h : Composable target isPod part c) : c.hoisted part = .ok [] := by
  have hall : ∀ bases ⊆ c.bases, bases.foldlM (fun seen base => do
      let placed ← part base.type
      let met := if base.isShared then FirstSeen.note seen base.type else seen
      return FirstSeen.noteAll met placed.shared) [] = Except.ok [] := by
    intro bases hsub
    induction bases with
    | nil => rfl
    | cons base bases ih =>
      obtain ⟨hmem, hrest⟩ := List.cons_subset.mp hsub
      obtain ⟨p, hp, hwhole⟩ := h.lends base hmem
      refine foldlM_cons_eq_ok.mpr ⟨[], ?_, ih hrest⟩
      rw [hp, h.owned base hmem]
      exact congrArg (fun shared => Except.ok (FirstSeen.noteAll [] shared)) hwhole.shared
  exact hall c.bases (List.Subset.refl _)

/-- The cores that the bases lend are embedded as the members that store their types are placed. -/
lemma exists_cores (h : Composable target isPod part c)
    (hstored : List.Forall₂ Base.StoredAs c.bases members) :
    ∃ cores, c.ownedCores part = .ok cores ∧
      List.Forall₂ (Lodges (extent target part) (ownedBytes target isPod)) cores members ∧
      (c.introducesDispatch = true → ∀ core ∈ cores, core.2.dispatch = none) := by
  rw [ownedCores, h.ownedBases_eq]
  obtain ⟨-, hlends, hslot⟩ := h
  generalize c.bases = bases at hstored hlends hslot
  induction hstored with
  | nil => exact ⟨[], rfl, .nil, by simp⟩
  | @cons base member bases members hhead _ ih =>
    obtain ⟨⟨p, hp, hwhole⟩, hrest⟩ := List.forall_mem_cons.mp hlends
    obtain ⟨cores, hcores, hlodges, hslots⟩ := ih hrest fun hdispatch base hmem =>
      hslot hdispatch base (List.mem_cons_of_mem _ hmem)
    refine ⟨(base.type, p.core) :: cores, ?_, .cons ?_ hlodges, fun hdispatch => ?_⟩
    · rw [List.mapM_cons, hcores, hp]
      rfl
    · refine ⟨hwhole.filled, hwhole.pos, hwhole.bytes, hhead.type, ?_, hhead.forcedAlign⟩
      rw [hhead.type, extent, hp, ← hwhole.size, ← hwhole.align]
      rfl
    · exact List.forall_mem_cons.mpr
        ⟨hslot hdispatch base List.mem_cons_self p hp, hslots hdispatch⟩

end Composable

/-- Without bases the members are placed first, behind the slot. -/
lemma placeOwn_composed (hplain : ∀ member ∈ members, member.bitWidth = none) :
    (c.composed members).placeOwn target isPod part = (do
      let opened ← (c.composed members).openSlot target []
      let (next, first) ← FieldGroup.placeAll (c.site target) (extent target part) opened.frontier
        (members.map .plain)
      let (last, others) ← FieldGroup.placeAll (c.site target) (extent target part) next
        (FieldGroup.ofFields c.fields)
      return ({ opened with frontier := c.forceAlign last }, first ++ others)) := by
  have hgroups : FieldGroup.ofFields (c.composed members).fields =
      members.map .plain ++ FieldGroup.ofFields c.fields :=
    FieldGroup.ofFields_plain_append hplain c.fields
  have howned : (c.composed members).ownedCores part = pure [] := rfl
  rw [placeOwn, howned, hgroups]
  simp only [FieldGroup.placeAll_append, List.foldlM_nil, pure_bind, bind_assoc]
  rfl

lemma openSlot_composed {cores : List (TypeId × Core)}
    (h : c.introducesDispatch = true → ∀ core ∈ cores, core.2.dispatch = none) :
    (c.composed members).openSlot target [] = c.openSlot target cores := by
  have hsame : (c.composed members).introducesDispatch = c.introducesDispatch := rfl
  unfold openSlot
  rw [hsame]
  cases hdispatch : c.introducesDispatch with
  | false => rfl
  | true =>
    have hnone : (cores.any fun base => base.2.dispatch.isSome) = false :=
      List.any_eq_false.mpr fun core hmem => by simp [h hdispatch core hmem]
    rw [hnone]
    rfl

lemma placeOwn_alike (h : Composable target isPod part c)
    (hstored : List.Forall₂ Base.StoredAs c.bases members) :
    Alike (fun own own' => own'.1.frontier = own.1.frontier ∧
        ∃ spans, List.Forall₂ Field.StandsFor members spans ∧
          own.1.bases = spans.map Prod.fst ∧ own'.2 = spans.map Prod.snd ++ own.2)
      (c.placeOwn target isPod part) ((c.composed members).placeOwn target isPod' part) := by
  obtain ⟨cores, hcores, hlodges, hslots⟩ := h.exists_cores hstored
  have hplain : ∀ member ∈ members, member.bitWidth = none := by
    intro member hmem
    obtain ⟨base, -, hbase⟩ := exists_of_mem_right hstored hmem
    exact hbase.bitWidth
  rw [placeOwn_composed hplain, openSlot_composed hslots, placeOwn, hcores]
  refine (Alike.same (c.openSlot target cores)).bind ?_
  rintro opened _ ⟨rfl, hopened⟩
  have hnone : opened.bases = [] := by
    rw [openSlot_eq_ok hopened]
    split <;> rfl
  refine (Draft.embedAll_alike hlodges opened).bind ?_
  rintro based ⟨_, _⟩ ⟨rfl, spans, hbases, rfl, hspans⟩
  refine (Alike.same _).bind ?_
  rintro ⟨last, others⟩ _ ⟨rfl, -⟩
  rw [hnone, List.nil_append] at hbases
  exact ⟨rfl, spans, hspans, hbases, rfl⟩

/-- A type is placed as the type that stores its bases as members. -/
theorem place_alike (h : Composable target isPod part c)
    (hstored : List.Forall₂ Base.StoredAs c.bases members) :
    Alike (fun placed placed' => placed.layout.Composes members placed'.layout)
      (c.place target isPod part) ((c.composed members).place target isPod' part) := by
  have hnone : c.hoisted part = pure [] := h.hoisted_eq_nil
  have hnone' : (c.composed members).hoisted part = pure [] := rfl
  have hsite : (c.composed members).site target = c.site target := rfl
  rw [place, place]
  refine (placeOwn_alike h hstored).bind ?_
  rintro ⟨own, fields⟩ ⟨own', _⟩ ⟨hfrontier, hspans⟩
  dsimp only at hfrontier hspans ⊢
  -- The cores may differ in the slot, which a base can bring and a member cannot. They do not count
  -- for the layouts, so it is enough that both exist.
  have hclose : Alike (fun _ _ => True) (Core.close (c.site target) own.frontier own.dispatch)
      (Core.close (c.site target) own.frontier own'.dispatch) := by
    rw [Core.close, Core.close]
    split
    · exact True.intro
    · refine (Alike.same _).bind fun size size' _ => ?_
      exact True.intro
  rw [hnone, hnone', hsite, hfrontier]
  refine hclose.bind fun core core' _ => ?_
  simp only [placeShared, List.foldlM_nil, pure_bind, hfrontier]
  refine (Alike.same _).bind ?_
  rintro size _ ⟨rfl, -⟩
  exact ⟨rfl, rfl, rfl, hspans⟩

/-- The members store the types of the bases, in order, under names of their own. -/
structure Embodies (members : List Field) (c : Composite) : Prop where
  stored : List.Forall₂ Base.StoredAs c.bases members
  distinct : members.Pairwise fun earlier later => earlier.name ≠ later.name
  fresh : ∀ member ∈ members, ∀ field ∈ c.fields, member.name ≠ field.name

namespace Embodies

lemma members_eq (h : Embodies members c) :
    (c.composed members).members = members ++ c.members := by
  have hdata : ∀ member ∈ members, (!member.isMarker) = true := by
    intro member hmem
    obtain ⟨base, -, hbase⟩ := exists_of_mem_right h.stored hmem
    simp [Field.isMarker, hbase.bitWidth]
  rw [Composite.members, composed, List.filter_append, List.filter_eq_self.mpr hdata]
  rfl

lemma requiredAlign_eq (h : Embodies members c) (target : Target) (align : TypeId → Nat) :
    (c.composed members).requiredAlign target align = c.requiredAlign target align := by
  -- Each is the least bound of what the parts demand; the bases demand what the members do.
  refine eq_of_forall_ge_iff fun n => ?_
  rw [requiredAlign_le_iff, requiredAlign_le_iff, h.members_eq, List.forall_mem_append]
  refine and_congr_right fun hn => and_congr_right fun _ => ?_
  have hmembers : (∀ member ∈ members, member.requiredAlign target align ≤ n) ↔
      ∀ base ∈ c.bases, align base.type ≤ n := by
    constructor
    · intro hall base hmem
      obtain ⟨member, hmember, hbase⟩ := exists_of_mem_left h.stored hmem
      have hle := hall member hmember
      rw [hbase.requiredAlign_eq] at hle
      exact (le_max_right _ _).trans hle
    · intro hall member hmember
      obtain ⟨base, hmem, hbase⟩ := exists_of_mem_right h.stored hmember
      rw [hbase.requiredAlign_eq]
      exact max_le hn (hall base hmem)
  rw [hmembers]
  simp [composed]

/-- With members in place of its bases a type demands the same. -/
lemma demandsAlike (h : Embodies members c) (target : Target) :
    DemandsAlike target c (c.composed members) where
  references := by
    rw [references, references, composed, List.filterMap_append,
      Base.StoredAs.references_eq h.stored]
    rfl
  wellFormed := by
    have hstored : ∀ member ∈ members, member.WellFormed target := by
      intro member hmem
      obtain ⟨base, -, hbase⟩ := exists_of_mem_right h.stored hmem
      exact hbase.wellFormed
    constructor
    · intro hwell
      obtain ⟨-, hnames, -⟩ := List.pairwise_append.mp hwell.names
      exact ⟨hwell.exclusive, hwell.forced, hwell.packing, hnames,
        (List.forall_mem_append.mp hwell.fields).2⟩
    · intro hwell
      refine ⟨hwell.exclusive, hwell.forced, hwell.packing, ?_,
        List.forall_mem_append.mpr ⟨hstored, hwell.fields⟩⟩
      refine List.pairwise_append.mpr ⟨?_, hwell.names, ?_⟩
      · exact h.distinct.imp fun hne hsame => absurd hsame hne
      · exact fun member hmem field hfield hsame => absurd hsame (h.fresh member hmem field hfield)
  requiredAlign := h.requiredAlign_eq target
  forcedAlign := rfl
  packing := rfl

end Embodies

end Composite

/-- Without shared bases the core is all that there is of a complete object. -/
lemma Composite.Construction.core_of_unshared {target : Target} {isPod : TypeId → Bool}
    {part : TypeId → Except Rejection Placed} {c : Composite} {placed : Placed}
    (steps : Construction target isPod part c placed) (h : placed.shared = []) :
    placed.core.dataSize = placed.layout.dataSize ∧ placed.core.align = placed.layout.align ∧
      placed.core.dispatch = placed.layout.dispatch := by
  have hlent := steps.hoistedLent
  rw [h, List.forall₂_nil_left_iff] at hlent
  have hcomplete := steps.shared
  rw [hlent] at hcomplete
  have hnone := Except.ok.inj hcomplete
  rw [steps.core, steps.dataSize_eq, steps.align_eq, steps.dispatch_eq, ← hnone]
  exact ⟨(forceAlign_offset c _).symm, rfl, rfl⟩

namespace TypeTable

variable {table : TypeTable} {target : Target} {id : TypeId} {c : Composite} {placed : Placed}
  {members : List Field} {align : Nat}

/-- No shared edge lies in the base graph of the type. -/
def Unshared (table : TypeTable) (id : TypeId) : Prop :=
  ∀ part, part = id ∨ table.Inherits id part → ∀ shared, ¬ table.SharesBase part shared

lemma Unshared.of_bases (hc : table.get? id = some c)
    (h : ∀ base ∈ c.bases, base.isShared = false ∧ table.Unshared base.type) :
    table.Unshared id := by
  rintro part (rfl | hinherits) shared hshares
  · obtain ⟨c', hc', base, hbase, -⟩ := hshares
    obtain rfl : c = c' := Option.some.inj (hc.symm.trans hc')
    obtain ⟨hmem, hshared⟩ := List.mem_filter.mp hbase
    exact Bool.noConfusion ((h base hmem).1.symm.trans hshared)
  · obtain ⟨base, hmem, hpart⟩ := (inherits_iff hc).mp hinherits
    exact (h base hmem).2 part hpart shared hshares

/-- A placement lists no shared bases exactly when the base graph has no shared edge. -/
lemma PlacedAs.shared_eq_nil_iff (h : table.PlacedAs target id (.ok placed))
    (haccepted : table.Accepted target id align) : placed.shared = [] ↔ table.Unshared id := by
  rw [List.eq_nil_iff_forall_not_mem]
  constructor
  · exact fun hnone part hpart shared hshares =>
      hnone shared ((h.mem_shared_iff haccepted).mpr ⟨part, hpart, hshares⟩)
  · intro hunshared shared hmem
    obtain ⟨part, hpart, hshares⟩ := (h.mem_shared_iff haccepted).mp hmem
    exact hunshared part hpart shared hshares

/-- The bases of the type can as well be members: all are owned, hold data, share nothing, bring no
slot where one would be opened, and keep their tail padding. -/
structure Composable (table : TypeTable) (target : Target) (c : Composite) : Prop where
  owned : ∀ base ∈ c.bases, base.isShared = false
  unshared : ∀ base ∈ c.bases, table.Unshared base.type
  filled : ∀ base ∈ c.bases, ∀ layout, table.layout target base.type = .ok layout →
    0 < layout.dataSize
  slotless : c.introducesDispatch = true → ∀ base ∈ c.bases, ∀ layout,
    table.layout target base.type = .ok layout → layout.dispatch = none
  padded : target.tailPadding = .keep ∨ ∀ base ∈ c.bases, table.isPod base.type = true

lemma Composable.lendsWhole (h : table.Composable target c) {base : Base} (hmem : base ∈ c.bases)
    (hplaced : table.PlacedAs target base.type (.ok placed))
    (haccepted : table.Accepted target base.type align) :
    placed.LendsWhole target table.isPod base ∧
      (c.introducesDispatch = true → placed.core.dispatch = none) := by
  have hlayout := layout_of_placedAs haccepted hplaced
  have hregular := hplaced.regular haccepted
  have hshared := (hplaced.shared_eq_nil_iff haccepted).mpr (h.unshared base hmem)
  obtain ⟨_, part, -, -, ⟨steps⟩⟩ := hplaced.construction
  obtain ⟨hdata, halign, hdispatch⟩ := steps.core_of_unshared hshared
  have hfilled := h.filled base hmem placed.layout hlayout
  rw [hdispatch]
  refine ⟨⟨hshared, hdata ▸ hfilled, ?_, halign.symm, hregular.core.pos, ?_⟩,
    fun hintroduces => h.slotless hintroduces base hmem placed.layout hlayout⟩
  · rw [hregular.size, hregular.core.size, hdata, halign, if_neg hfilled.ne',
      max_eq_left hfilled]
  · rcases h.padded with hkeep | hpod
    · rw [Composite.ownedBytes, hkeep]
    · rw [Composite.ownedBytes, hpod base hmem]
      cases target.tailPadding <;> rfl

/-- The type and the one that stores its bases as members are placed together, from the same
parts. -/
lemma PlacedAs.composed {answer answer' : Except Rejection Placed}
    (h : table.PlacedAs target id answer)
    (h' : (table.redefine id (c.composed members)).PlacedAs target id answer')
    (haccepted : table.Accepted target id align) (hc : table.get? id = some c)
    (hcomposable : table.Composable target c) (hembodies : Composite.Embodies members c) :
    Alike (fun placed placed' => placed.layout.Composes members placed'.layout)
      answer answer' := by
  have hdemands := hembodies.demandsAlike target
  have hwell := haccepted.wellFormed hc
  have hreferences : (c.composed members).references ⊆ c.references := fun other hmem =>
    hdemands.references ▸ hmem
  obtain ⟨part, parts, rfl, hvariant⟩ := h.redefine haccepted.acyclic hc hreferences
  obtain rfl := hvariant.unique h'
  by_cases hparts : ∀ base ∈ c.bases, ∃ p, part base.type = .ok p
  · have hlends : ∀ base ∈ c.bases, ∀ p, part base.type = .ok p →
        p.LendsWhole target table.isPod base ∧
          (c.introducesDispatch = true → p.core.dispatch = none) := by
      intro base hmem p hp
      have hbelow := ((refers_iff hc).mpr (Composite.mem_references_of_base hmem)).below
      obtain ⟨align', haccepted'⟩ := haccepted.reaches hbelow.reaches
      exact hcomposable.lendsWhole hmem (hp ▸ parts base.type hbelow) haccepted'
    refine Composite.place_alike ⟨hcomposable.owned, fun base hmem => ?_, ?_⟩ hembodies.stored
    · obtain ⟨p, hp⟩ := hparts base hmem
      exact ⟨p, hp, (hlends base hmem p hp).1⟩
    · exact fun hdispatch base hmem p hp => (hlends base hmem p hp).2 hdispatch
  · -- Where a base cannot be placed, neither can the type nor the one that has it as a member.
    push Not at hparts
    obtain ⟨base, hmem, hfails⟩ := hparts
    have hrefers := Composite.mem_references_of_base hmem
    refine .of_fails (fun placed hplaced => ?_) (fun placed' hplaced' => ?_)
    · obtain ⟨steps⟩ := Composite.exists_construction hplaced
      obtain ⟨p, hp⟩ := steps.references_ok hwell base.type hrefers
      exact hfails p hp
    · obtain ⟨steps⟩ := Composite.exists_construction hplaced'
      obtain ⟨p, hp⟩ := steps.references_ok (hdemands.wellFormed.mpr hwell) base.type
        (hdemands.references ▸ hrefers)
      exact hfails p hp

/-- A type and the one that stores its bases as members are accepted together, with the same
alignment, and laid out together: with the same size, alignment and data size, every base as the
member for it, and the fields in the same places. -/
theorem layout_composed (table : TypeTable) (target : Target) (id : TypeId) (c : Composite)
    (members : List Field) (hc : table.get? id = some c) (hcomposable : table.Composable target c)
    (hembodies : Composite.Embodies members c) :
    Alike Eq (answer ((table.accept target id).run {}))
        (answer (((table.redefine id (c.composed members)).accept target id).run {})) ∧
      Alike (Layout.Composes members) (table.layout target id)
        ((table.redefine id (c.composed members)).layout target id) := by
  have haccepts : Alike Eq (answer ((table.accept target id).run {}))
      (answer (((table.redefine id (c.composed members)).accept target id).run {})) :=
    .of_iff fun align => by
      rw [accept_eq_ok_iff, accept_eq_ok_iff,
        accepted_redefine_iff (hembodies.demandsAlike target) hc]
  refine ⟨haccepts, ?_⟩
  have hanswers := table.layout_answers target id
  have hanswers' := (table.redefine id (c.composed members)).layout_answers target id
  generalize answer ((table.accept target id).run {}) = accepts at *
  generalize answer (((table.redefine id (c.composed members)).accept target id).run {}) =
    accepts' at *
  cases accepts with
  | error rejection =>
    cases accepts' with
    | ok align => exact haccepts.elim
    | error rejection' =>
      rw [hanswers, hanswers']
      trivial
  | ok align =>
    cases accepts' with
    | error rejection => exact haccepts.elim
    | ok align' =>
      obtain ⟨haccepted, answer, hplaced, hlayout⟩ := hanswers
      obtain ⟨-, answer', hplaced', hlayout'⟩ := hanswers'
      rw [hlayout, hlayout']
      exact (hplaced.composed hplaced' haccepted hc hcomposable hembodies).map
        fun _ _ hcomposes => hcomposes

/-- A record with a slot of its own and with owned bases that are plain old data. -/
def envelope : Composite :=
  { name := "Envelope", introducesDispatch := true, packing := some 4
    bases := [{ type := ⟨0⟩ }, { type := ⟨1⟩ }]
    fields := [{ name := "weight", type := .char },
      { name := "zone", type := .int, bitWidth := some 5 }, { name := "sent", type := .longLong }] }

def envelopeMembers : List Field :=
  [{ name := "stamp", type := .composite ⟨0⟩ }, { name := "address", type := .composite ⟨1⟩ }]

def envelopes : TypeTable :=
  { entries := #[
      ⟨"Stamp", some
        { name := "Stamp"
          fields := [{ name := "price", type := .int }, { name := "sort", type := .char }] }⟩,
      ⟨"Address", some
        { name := "Address"
          fields := [{ name := "house", type := .short }, { name := "door", type := .char }] }⟩,
      ⟨"Envelope", some envelope⟩] }

/-- The bases keep the padding behind their data, as members do. -/
theorem layout_composed_envelope :
    let target : Target := { Target.lp64 with tailPadding := .reuse }
    let layout : Layout :=
      { size := 36, align := 4, dataSize := 36, dispatch := some 0
        fields := [⟨"weight", 20, 1, none⟩, ⟨"zone", 24, 4, some ⟨0, 5⟩⟩, ⟨"sent", 28, 8, none⟩]
        bases := [⟨⟨0⟩, 8, 8, .owned⟩, ⟨⟨1⟩, 16, 4, .owned⟩] }
    let layout' : Layout :=
      { size := 36, align := 4, dataSize := 36, dispatch := some 0
        fields := [⟨"stamp", 8, 8, none⟩, ⟨"address", 16, 4, none⟩, ⟨"weight", 20, 1, none⟩,
          ⟨"zone", 24, 4, some ⟨0, 5⟩⟩, ⟨"sent", 28, 8, none⟩]
        bases := [] }
    let composed := envelopes.redefine ⟨2⟩ (envelope.composed envelopeMembers)
    envelopes.Composable target envelope ∧ Composite.Embodies envelopeMembers envelope ∧
      envelopes.layout target ⟨2⟩ = .ok layout ∧ composed.layout target ⟨2⟩ = .ok layout' ∧
      layout.Composes envelopeMembers layout' := by
  intro target layout layout' composed
  have hstamp : envelopes.layout target ⟨0⟩ = .ok
      { size := 8, align := 4, dataSize := 5, dispatch := none
        fields := [⟨"price", 0, 4, none⟩, ⟨"sort", 4, 1, none⟩], bases := [] } := by
    decide +kernel
  have haddress : envelopes.layout target ⟨1⟩ = .ok
      { size := 4, align := 2, dataSize := 3, dispatch := none
        fields := [⟨"house", 0, 2, none⟩, ⟨"door", 2, 1, none⟩], bases := [] } := by
    decide +kernel
  have hlayout : envelopes.layout target ⟨2⟩ = .ok layout := by decide +kernel
  have hlayout' : composed.layout target ⟨2⟩ = .ok layout' := by decide +kernel
  have hcomposable : envelopes.Composable target envelope := by
    refine ⟨by decide, ?_, ?_, ?_, Or.inr (by decide +kernel)⟩
    · simp only [envelope, List.forall_mem_cons]
      exact ⟨.of_bases rfl (by simp), .of_bases rfl (by simp), by simp⟩
    · simp [envelope, hstamp, haddress]
    · simp [envelope, hstamp, haddress]
  have hembodies : Composite.Embodies envelopeMembers envelope := by
    refine ⟨?_, by decide, by decide⟩
    exact .cons ⟨rfl, rfl, rfl⟩ (.cons ⟨rfl, rfl, rfl⟩ .nil)
  have hcomposes := (layout_composed envelopes target ⟨2⟩ envelope envelopeMembers rfl
    hcomposable hembodies).2
  rw [hlayout, hlayout'] at hcomposes
  exact ⟨hcomposable, hembodies, hlayout, hlayout', hcomposes⟩

end TypeTable

end ObjectLayout
