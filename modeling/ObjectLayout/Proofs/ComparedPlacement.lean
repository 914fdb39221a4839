import ObjectLayout.Proofs.PlacementWalk
import ObjectLayout.Proofs.RegularPlacement

/-!
# Two placements side by side

Two runs of placement are compared: of a type for two targets, or of two types that have the same
parts. If what the runs are given compares, then wherever the second run succeeds the first one
does, with nothing later and nothing larger. Rounding needs more than an order of the offsets: the
frontiers must leave the start together, since a core without data is embedded in its own way. How
the alignments of the runs compare is left open; `AlignRelation` says what the moves need of it.
-/
namespace ObjectLayout

/-- `n'` is at most `n`, and neither of them is zero alone. -/
def AtMost (n' n : Nat) : Prop := n' ≤ n ∧ (n' = 0 ↔ n = 0)

namespace AtMost

variable {m' m n' n align : Nat}

lemma refl (n : Nat) : AtMost n n := ⟨le_refl n, Iff.rfl⟩

lemma trans (h : AtMost m' m) (h' : AtMost m n) : AtMost m' n :=
  ⟨h.1.trans h'.1, h.2.trans h'.2⟩

lemma add (hm : AtMost m' m) (hn : AtMost n' n) : AtMost (m' + n') (m + n) := by
  obtain ⟨hle, hzero⟩ := hm
  obtain ⟨hle', hzero'⟩ := hn
  constructor <;> omega

/-- Positive numbers are never zero alone. -/
lemma max_one (h : AtMost n' n) : AtMost (max n' 1) (max n 1) := by
  have := h.1
  constructor <;> omega

lemma roundUp_self (n align : Nat) : AtMost n (roundUp n align) := by
  have hle := le_roundUp n align
  refine ⟨hle, fun hzero => ?_, fun hzero => by omega⟩
  rw [hzero, roundUp_zero]

/-- Rounding leaves the start with what is rounded. -/
lemma roundUp {align' : Nat} (h : AtMost n' n)
    (hle : ObjectLayout.roundUp n' align' ≤ ObjectLayout.roundUp n align) :
    AtMost (ObjectLayout.roundUp n' align') (ObjectLayout.roundUp n align) :=
  ⟨hle, (roundUp_self n' align').2.symm.trans (h.2.trans (roundUp_self n align).2)⟩

end AtMost

/-- What the moves of a placement need of the way in which alignments compare. -/
structure AlignRelation (R : Nat → Nat → Prop) : Prop where
  one : R 1 1
  max : ∀ {a' a b' b}, R a' a → R b' b → R (max a' b') (max a b)
  roundUp : ∀ {n' n a' a}, AtMost n' n → R a' a → AtMost (roundUp n' a') (roundUp n a)

/-- The same alignment, a power of two. -/
structure SamePower (align' align : Nat) : Prop where
  eq : align' = align
  power : align.isPowerOfTwo

namespace SamePower

lemma refl {align : Nat} (h : align.isPowerOfTwo) : SamePower align align := ⟨rfl, h⟩

/-- Equal alignments round in the same way. -/
lemma alignRelation : AlignRelation SamePower where
  one := refl Nat.isPowerOfTwo_one
  max := by
    rintro a' a b' b ⟨rfl, ha⟩ ⟨rfl, hb⟩
    exact refl (isPowerOfTwo_max ha hb)
  roundUp := by
    rintro n' n _ align h ⟨rfl, hpower⟩
    exact h.roundUp (roundUp_mono hpower h.1)

end SamePower

/-- Wherever `run` succeeds, `run'` succeeds with a result in the relation. -/
def Carries {α' α : Type} (S : α' → α → Prop) (run' : Except Rejection α')
    (run : Except Rejection α) : Prop :=
  ∀ a, run = .ok a → ∃ a', run' = .ok a' ∧ S a' a

namespace Carries

variable {α' α β' β : Type} {S : α' → α → Prop} {T : β' → β → Prop}
  {run' : Except Rejection α'} {run : Except Rejection α}

lemma refl (run : Except Rejection α) : Carries Eq run run :=
  fun a ha => ⟨a, ha, rfl⟩

lemma ok {a' : α'} {a : α} (h : S a' a) : Carries S (.ok a') (.ok a) := by
  intro b hb
  cases hb
  exact ⟨a', rfl, h⟩

lemma bind {next' : α' → Except Rejection β'} {next : α → Except Rejection β}
    (h : Carries S run' run) (hnext : ∀ a' a, S a' a → Carries T (next' a') (next a)) :
    Carries T (run' >>= next') (run >>= next) := by
  intro b hb
  obtain ⟨a, ha, hb⟩ := bind_eq_ok.mp hb
  obtain ⟨a', rfl, hS⟩ := h a ha
  exact hnext a' a hS b hb

/-- What is known of the second result may be used beside the relation. -/
lemma and_eq_ok (h : Carries S run' run) : Carries (fun a' a => S a' a ∧ run = .ok a) run' run := by
  intro a ha
  obtain ⟨a', ha', hS⟩ := h a ha
  exact ⟨a', ha', hS, ha⟩

lemma mapM {step' : α' → Except Rejection β'} {step : α → Except Rejection β} {l' : List α'}
    {l : List α} (hl : List.Forall₂ (fun x' x => Carries T (step' x') (step x)) l' l) :
    Carries (List.Forall₂ T) (l'.mapM step') (l.mapM step) := by
  induction hl with
  | nil => exact ok .nil
  | cons hhead _ ih =>
    rw [List.mapM_cons, List.mapM_cons]
    exact hhead.bind fun _ _ hfirst => ih.bind fun _ _ hrest => ok (.cons hfirst hrest)

lemma foldlM {step' : β' → α' → Except Rejection β'} {step : β → α → Except Rejection β}
    {l' : List α'} {l : List α} {b' : β'} {b : β} (hb : T b' b)
    (hl : List.Forall₂ (fun x' x => ∀ b' b, T b' b → Carries T (step' b' x') (step b x)) l' l) :
    Carries T (l'.foldlM step' b') (l.foldlM step b) := by
  induction hl generalizing b' b with
  | nil => exact ok hb
  | cons hhead _ ih =>
    rw [List.foldlM_cons, List.foldlM_cons]
    exact (hhead _ _ hb).bind fun _ _ hnext => ih hnext

end Carries

/-- The same entry, not later and not larger. -/
structure PlacedField.Within (field' field : PlacedField) : Prop where
  name : field'.name = field.name
  bits : field'.bits = field.bits
  offset : field'.offset ≤ field.offset
  size : field'.size ≤ field.size

/-- The same entry, not later and not larger. -/
structure PlacedBase.Within (base' base : PlacedBase) : Prop where
  type : base'.type = base.type
  sharing : base'.sharing = base.sharing
  offset : base'.offset ≤ base.offset
  size : base'.size ≤ base.size

/-- The same entries and a slot in the same case, nothing later and nothing larger. The alignments
are not compared. -/
structure Layout.Within (layout' layout : Layout) : Prop where
  size : layout'.size ≤ layout.size
  dataSize : layout'.dataSize ≤ layout.dataSize
  dispatch : Option.Rel (· ≤ ·) layout'.dispatch layout.dispatch
  fields : List.Forall₂ PlacedField.Within layout'.fields layout.fields
  bases : List.Forall₂ PlacedBase.Within layout'.bases layout.bases

section

variable {R : Nat → Nat → Prop}

/-- What fits into the second site fits into the first, and grants of alignment compare. -/
structure Site.Admits (R : Nat → Nat → Prop) (site' site : Site) : Prop where
  holds : ∀ {n' n}, n' ≤ n → site.target.holds n = true → site'.target.holds n' = true
  granted : ∀ {a' a}, R a' a → R (site'.granted a') (site.granted a)

/-- The frontiers left the start together, and the first is not ahead. -/
structure Frontier.Within (R : Nat → Nat → Prop) (frontier' frontier : Frontier) : Prop where
  offset : AtMost frontier'.offset frontier.offset
  align : R frontier'.align frontier.align

/-- What the cores ask for compares, and the data of the first fits into the second. -/
structure Core.Within (R : Nat → Nat → Prop) (core' core : Core) : Prop where
  dataSize : AtMost core'.dataSize core.dataSize
  size : AtMost core'.size core.size
  room : AtMost core.dataSize core.size
  align : R core'.align core.align
  dispatch : Option.Rel (· ≤ ·) core'.dispatch core.dispatch

structure Draft.Within (R : Nat → Nat → Prop) (draft' draft : Draft) : Prop where
  frontier : Frontier.Within R draft'.frontier draft.frontier
  dispatch : Option.Rel (· ≤ ·) draft'.dispatch draft.dispatch
  bases : List.Forall₂ PlacedBase.Within draft'.bases draft.bases

structure Placed.Within (R : Nat → Nat → Prop) (placed' placed : Placed) : Prop where
  layout : placed'.layout.Within placed.layout
  size : AtMost placed'.layout.size placed.layout.size
  align : R placed'.layout.align placed.layout.align
  core : Core.Within R placed'.core placed.core
  shared : placed'.shared = placed.shared

variable {site' site : Site} {frontier' frontier : Frontier} {align' align bytes' bytes : Nat}

lemma Site.Admits.require (hsite : Site.Admits R site' site) {n' n : Nat} (h : AtMost n' n) :
    Carries AtMost (site'.require (site'.target.offset? n'))
      (site.require (site.target.offset? n)) := by
  intro m hm
  obtain ⟨hholds, rfl⟩ := Site.require_offset_eq_ok.mp hm
  exact ⟨n', Site.require_offset_eq_ok.mpr ⟨hsite.holds h.1 hholds, rfl⟩, h⟩

namespace Frontier.Within

variable (hR : AlignRelation R) (hsite : Site.Admits R site' site)

lemma start (hR : AlignRelation R) : Frontier.Within R {} {} :=
  ⟨.refl 0, hR.one⟩

lemma raise (h : Frontier.Within R frontier' frontier) (hR : AlignRelation R)
    (ha : R align' align) :
    Frontier.Within R { frontier' with align := max frontier'.align align' }
      { frontier with align := max frontier.align align } :=
  ⟨h.offset, hR.max h.align ha⟩

include hR hsite

lemma roundTo (h : Frontier.Within R frontier' frontier) (ha : R align' align) :
    Carries (Frontier.Within R) (frontier'.roundTo site' align') (frontier.roundTo site align) :=
  (hsite.require (hR.roundUp h.offset (hsite.granted ha))).bind fun _ _ hoffset =>
    .ok ⟨hoffset, h.align⟩

lemma alignFor (h : Frontier.Within R frontier' frontier) (ha : R align' align) :
    Carries (Frontier.Within R) (frontier'.alignFor site' align') (frontier.alignFor site align) :=
  (h.raise hR (hsite.granted ha)).roundTo hR hsite ha

omit hR in
lemma advance (h : Frontier.Within R frontier' frontier) (hbytes : AtMost bytes' bytes) :
    Carries (Frontier.Within R) (frontier'.advance site' bytes') (frontier.advance site bytes) :=
  (hsite.require (h.offset.add hbytes)).bind fun _ _ hoffset => .ok ⟨hoffset, h.align⟩

end Frontier.Within

lemma isSome_eq_of_rel {slot' slot : Option Nat} (h : Option.Rel (· ≤ ·) slot' slot) :
    slot'.isSome = slot.isSome := by
  cases h <;> rfl

lemma slot_refl (slot : Option Nat) : Option.Rel (· ≤ ·) slot slot := by
  cases slot with
  | none => exact .none
  | some offset => exact .some (le_refl offset)

/-- A slot keeps its order when another start is added, or an older slot is preferred. -/
lemma slot_within {slot' slot own' own : Option Nat} {start' start : Nat}
    (hslot : Option.Rel (· ≤ ·) slot' slot) (hown : Option.Rel (· ≤ ·) own' own)
    (hstart : start' ≤ start) :
    Option.Rel (· ≤ ·) (slot'.or (own'.map (start' + ·))) (slot.or (own.map (start + ·))) := by
  cases hslot with
  | some hle => exact .some hle
  | none =>
    cases hown with
    | none => exact .none
    | some hle => exact .some (Nat.add_le_add hstart hle)

/-- Cores that leave the start together bring their slots together. -/
lemma Core.Within.brings {core' core : Core} (h : Core.Within R core' core) (sharing : Sharing) :
    Option.Rel (· ≤ ·) (core'.brings sharing) (core.brings sharing) := by
  unfold Core.brings
  simp only [h.dataSize.2]
  split
  · exact .none
  · exact h.dispatch

namespace Draft.Within

variable {draft' draft : Draft} {core' core : Core}

lemma embed (hR : AlignRelation R) (hsite : Site.Admits R site' site)
    (h : Draft.Within R draft' draft) (type : TypeId) (sharing : Sharing)
    (hcore : Core.Within R core' core) (hbytes : AtMost bytes' bytes) :
    Carries (Draft.Within R) (draft'.embed site' type sharing core' bytes')
      (draft.embed site type sharing core bytes) := by
  unfold Draft.embed
  by_cases hempty : core.dataSize = 0
  · rw [if_pos hempty, if_pos (hcore.dataSize.2.mpr hempty)]
    have hbase : PlacedBase.Within ⟨type, draft'.frontier.offset, 0, sharing⟩
        ⟨type, draft.frontier.offset, 0, sharing⟩ := ⟨rfl, rfl, h.frontier.offset.1, le_refl 0⟩
    exact .ok ⟨h.frontier.raise hR (hsite.granted hcore.align),
      slot_within h.dispatch (hcore.brings sharing) h.frontier.offset.1,
      List.rel_append h.bases (.cons hbase .nil)⟩
  · rw [if_neg hempty, if_neg (mt hcore.dataSize.2.mp hempty)]
    refine (h.frontier.alignFor hR hsite hcore.align).bind fun start' start hstart => ?_
    refine (hstart.advance hsite hbytes).bind fun next' next hnext => .ok ⟨hnext, ?_, ?_⟩
    · exact slot_within h.dispatch (hcore.brings sharing) hstart.offset.1
    · have hbase : PlacedBase.Within ⟨type, start'.offset, core'.size, sharing⟩
          ⟨type, start.offset, core.size, sharing⟩ := ⟨rfl, rfl, hstart.offset.1, hcore.size.1⟩
      exact List.rel_append h.bases (.cons hbase .nil)

end Draft.Within

namespace FieldGroup

variable {extent' extent : FieldType → Except Rejection (Nat × Nat)}

/-- The alignments that a group states itself compare with themselves. -/
def Steady (R : Nat → Nat → Prop) : FieldGroup → Prop
  | .plain field => R (field.forcedAlign.getD 1) (field.forcedAlign.getD 1) ∧
      ∀ size align, field.type = .scalar size align → R align align
  | .marker field => R field.storageUnit field.storageUnit
  | .run unit _ => R unit unit

/-- The alignments that a sound group states are powers of two. -/
lemma Valid.steady {target : Target} {group : FieldGroup} {R : Nat → Nat → Prop}
    (h : group.Valid target) (hR : ∀ align : Nat, align.isPowerOfTwo → R align align) :
    group.Steady R := by
  cases group with
  | plain field =>
    obtain ⟨hbits, hfield⟩ := h
    refine ⟨hR _ (forcedAlign_isPowerOfTwo hfield), fun size align htype => ?_⟩
    refine hR align (hfield.natural align ?_).1
    simp [Field.scalarAlign?, htype, Field.isBitField, hbits]
  | marker field => exact hR _ (storageUnit_isPowerOfTwo h.2 (by rw [h.1]; rfl))
  | run unit fields =>
    obtain ⟨-, hne, hfields⟩ := h
    obtain ⟨field, hmem⟩ := List.exists_mem_of_ne_nil _ hne
    obtain ⟨rfl, ⟨width, hwidth⟩, hfield⟩ := hfields field hmem
    exact hR _ (storageUnit_isPowerOfTwo hfield (by rw [hwidth]; rfl))

/-- Sizes and natural alignments of fields compare. -/
def ExtentWithin (R : Nat → Nat → Prop) (extent' extent : Nat × Nat) : Prop :=
  AtMost extent'.1 extent.1 ∧ R extent'.2 extent.2

/-- A frontier with what has been placed before it. -/
def Reached (R : Nat → Nat → Prop) (result' result : Frontier × List PlacedField) : Prop :=
  Frontier.Within R result'.1 result.1 ∧ List.Forall₂ PlacedField.Within result'.2 result.2

lemma place_within (hR : AlignRelation R) (hsite : Site.Admits R site' site) {group : FieldGroup}
    (hsteady : group.Steady R)
    (hextent : ∀ field, group = .plain field →
      Carries (ExtentWithin R) (extent' field.type) (extent field.type))
    (h : Frontier.Within R frontier' frontier) :
    Carries (Reached R) (group.place site' extent' frontier')
      (group.place site extent frontier) := by
  cases group with
  | plain field =>
    refine (hextent field rfl).bind ?_
    rintro ⟨size', natural'⟩ ⟨size, natural⟩ ⟨hsize, hnatural⟩
    refine (h.alignFor hR hsite (hR.max hnatural hsteady.1)).bind fun start' start hstart => ?_
    refine (hstart.advance hsite hsize).bind fun next' next hnext => .ok ⟨hnext, ?_⟩
    exact .cons ⟨rfl, rfl, hstart.offset.1, hsize.1⟩ .nil
  | marker field =>
    refine (h.roundTo hR hsite hsteady).bind fun next' next hnext => .ok ⟨hnext, ?_⟩
    exact .cons ⟨rfl, rfl, hnext.offset.1, le_refl 0⟩ .nil
  | run unit fields =>
    refine (h.alignFor hR hsite hsteady).bind fun start' start hstart => ?_
    refine (hstart.advance hsite (.refl _)).bind fun next' next hnext => .ok ⟨hnext, ?_⟩
    refine List.forall₂_map_left_iff.mpr (List.forall₂_map_right_iff.mpr ?_)
    refine List.forall₂_same.mpr fun bit _ => ⟨rfl, rfl, ?_, le_refl unit⟩
    exact Nat.add_le_add_right hstart.offset.1 _

lemma placeAll_within (hR : AlignRelation R) (hsite : Site.Admits R site' site)
    {groups : List FieldGroup} (hsteady : ∀ group ∈ groups, group.Steady R)
    (hextent : ∀ field, .plain field ∈ groups →
      Carries (ExtentWithin R) (extent' field.type) (extent field.type))
    (h : Frontier.Within R frontier' frontier) :
    Carries (Reached R) (placeAll site' extent' frontier' groups)
      (placeAll site extent frontier groups) := by
  induction groups generalizing frontier' frontier with
  | nil => exact .ok ⟨h, .nil⟩
  | cons group groups ih =>
    obtain ⟨hhead, htail⟩ := List.forall_mem_cons.mp hsteady
    have hfirst : ∀ field, group = .plain field →
        Carries (ExtentWithin R) (extent' field.type) (extent field.type) := by
      rintro field rfl
      exact hextent field List.mem_cons_self
    refine (place_within hR hsite hhead hfirst h).bind ?_
    rintro ⟨next', placed'⟩ ⟨next, placed⟩ ⟨hnext, hplaced⟩
    refine (ih htail (fun field hmem => hextent field (List.mem_cons_of_mem _ hmem)) hnext).bind ?_
    rintro ⟨last', others'⟩ ⟨last, others⟩ ⟨hlast, hothers⟩
    exact .ok ⟨hlast, List.rel_append hplaced hothers⟩

end FieldGroup

namespace Composite

/-- The types have the same parts, and what they and their targets say of alignments compares. -/
structure Compares (R : Nat → Nat → Prop) (target' target : Target) (c' c : Composite) : Prop where
  bases : c'.bases = c.bases
  fields : c'.fields = c.fields
  introducesDispatch : c'.introducesDispatch = c.introducesDispatch
  forcedAlign : c'.forcedAlign = c.forcedAlign
  site : Site.Admits R (c'.site target') (c.site target)
  pointerSize : AtMost target'.pointerSize target.pointerSize
  pointerAlign : R target'.pointerSize target.pointerSize
  forced : ∀ forced ∈ c.forcedAlign, R forced forced
  groups : ∀ group ∈ FieldGroup.ofFields c.fields, group.Steady R

/-- The same owned base of the type, with cores that compare. -/
structure LentWithin (R : Nat → Nat → Prop) (c : Composite) (base' base : TypeId × Core) :
    Prop where
  type : base'.1 = base.1
  core : Core.Within R base'.2 base.2
  owned : ∃ owned ∈ c.ownedBases, owned.type = base.1

variable {target' target : Target} {isPod' isPod : TypeId → Bool}
  {part' part : TypeId → Except Rejection Placed} {c' c : Composite}
  {owned' owned : List (TypeId × Core)}

lemma any_dispatch_eq (h : List.Forall₂ (LentWithin R c) owned' owned) :
    (owned'.any fun base => base.2.dispatch.isSome) =
      owned.any fun base => base.2.dispatch.isSome := by
  induction h with
  | nil => rfl
  | cons hhead _ ih =>
    rw [List.any_cons, List.any_cons, ih, isSome_eq_of_rel hhead.core.dispatch]

lemma close_within (hR : AlignRelation R) (hsite : Site.Admits R site' site)
    {slot' slot : Option Nat} (h : Frontier.Within R frontier' frontier)
    (hslot : Option.Rel (· ≤ ·) slot' slot) :
    Carries (Core.Within R) (Core.close site' frontier' slot') (Core.close site frontier slot) := by
  unfold Core.close
  by_cases hempty : frontier.offset = 0
  · rw [if_pos hempty, if_pos (h.offset.2.mpr hempty)]
    refine .ok ⟨h.offset, .refl 0, ?_, h.align, hslot⟩
    rw [hempty]
    exact .refl 0
  · rw [if_neg hempty, if_neg (mt h.offset.2.mp hempty)]
    refine (hsite.require (hR.roundUp h.offset h.align)).and_eq_ok.bind ?_
    rintro size' size ⟨hsize, hrun⟩
    obtain ⟨-, rfl⟩ := Site.require_offset_eq_ok.mp hrun
    exact .ok ⟨h.offset, hsize, .roundUp_self _ _, h.align, hslot⟩

section

variable (hR : AlignRelation R) (hc : Compares R target' target c' c)

include hc in
lemma extent_within {field : Field} (hmem : field ∈ c.fields) (hplain : field.bitWidth = none)
    (hpart : ∀ id ∈ c.references, Carries (Placed.Within R) (part' id) (part id)) :
    Carries (FieldGroup.ExtentWithin R) (extent target' part' field.type)
      (extent target part field.type) := by
  have hsteady := hc.groups _ (FieldGroup.plain_mem_ofFields.mpr ⟨hmem, hplain⟩)
  cases htype : field.type with
  | scalar size align => exact .ok ⟨.refl size, hsteady.2 size align htype⟩
  | pointer => exact .ok ⟨hc.pointerSize, hc.pointerAlign⟩
  | composite id =>
    exact (hpart id (mem_references_of_field hmem htype)).bind fun _ _ hplaced =>
      .ok ⟨hplaced.size, hplaced.align⟩

include hc in
lemma ownedCores_within
    (hpart : ∀ id ∈ c.references, Carries (Placed.Within R) (part' id) (part id)) :
    Carries (List.Forall₂ (LentWithin R c)) (c'.ownedCores part') (c.ownedCores part) := by
  have hbases : c'.ownedBases = c.ownedBases := by rw [ownedBases, hc.bases, ← ownedBases]
  rw [ownedCores, ownedCores, hbases]
  refine Carries.mapM (List.forall₂_same.mpr fun base hmem => ?_)
  exact (hpart base.type (mem_references_of_ownedBase hmem)).bind fun _ _ hplaced =>
    .ok ⟨rfl, hplaced.core, base, hmem, rfl⟩

include hc in
lemma hoisted_within
    (hpart : ∀ id ∈ c.references, Carries (Placed.Within R) (part' id) (part id)) :
    Carries Eq (c'.hoisted part') (c.hoisted part) := by
  rw [hoisted, hoisted, hc.bases]
  refine Carries.foldlM rfl (List.forall₂_same.mpr fun base hmem => ?_)
  rintro seen - rfl
  refine (hpart base.type (mem_references_of_base hmem)).bind fun placed' placed hplaced => ?_
  rw [hplaced.shared]
  exact .ok rfl

include hR hc

lemma openSlot_within (howned : List.Forall₂ (LentWithin R c) owned' owned) :
    Carries (Draft.Within R) (c'.openSlot target' owned') (c.openSlot target owned) := by
  unfold openSlot
  rw [hc.introducesDispatch, any_dispatch_eq howned]
  split
  · refine ((Frontier.Within.start hR).alignFor hR hc.site hc.pointerAlign).bind
      fun start' start hstart => ?_
    refine (hstart.advance hc.site hc.pointerSize).bind fun next' next hnext => ?_
    exact .ok ⟨hnext, .some hstart.offset.1, .nil⟩
  · exact .ok ⟨.start hR, .none, .nil⟩

lemma forceAlign_within (h : Frontier.Within R frontier' frontier) :
    Frontier.Within R (c'.forceAlign frontier') (c.forceAlign frontier) := by
  unfold forceAlign
  rw [hc.forcedAlign]
  cases hforced : c.forcedAlign with
  | none => exact h
  | some forced => exact h.raise hR (hc.forced forced hforced)

/-- The frontier and the slot of the core, and the fields. -/
lemma placeOwn_within
    (hpart : ∀ id ∈ c.references, Carries (Placed.Within R) (part' id) (part id))
    (hbytes : ∀ base ∈ c.ownedBases, ∀ core' core, Core.Within R core' core →
      AtMost (ownedBytes target' isPod' (base.type, core'))
        (ownedBytes target isPod (base.type, core))) :
    Carries (fun own' own => Draft.Within R own'.1 own.1 ∧
        List.Forall₂ PlacedField.Within own'.2 own.2)
      (c'.placeOwn target' isPod' part') (c.placeOwn target isPod part) := by
  refine (ownedCores_within hc hpart).bind fun owned' owned howned => ?_
  refine (openSlot_within hR hc howned).bind fun opened' opened hopened => ?_
  have hembed : List.Forall₂ (fun base' base => ∀ draft' draft, Draft.Within R draft' draft →
      Carries (Draft.Within R)
        (draft'.embed (c'.site target') base'.1 .owned base'.2 (ownedBytes target' isPod' base'))
        (draft.embed (c.site target) base.1 .owned base.2 (ownedBytes target isPod base)))
      owned' owned := by
    refine howned.imp ?_
    rintro ⟨-, core'⟩ ⟨-, core⟩ ⟨rfl, hcore, base, hmem, rfl⟩ draft' draft hdraft
    exact hdraft.embed hR hc.site base.type .owned hcore (hbytes base hmem core' core hcore)
  refine (Carries.foldlM hopened hembed).bind fun based' based hbased => ?_
  have hfields := FieldGroup.placeAll_within hR hc.site hc.groups (fun field hmem =>
    extent_within hc (FieldGroup.plain_mem_ofFields.mp hmem).1
      (FieldGroup.plain_mem_ofFields.mp hmem).2 hpart) hbased.frontier
  rw [hc.fields]
  refine hfields.bind ?_
  rintro ⟨last', fields'⟩ ⟨last, fields⟩ ⟨hlast, hplaced⟩
  exact .ok ⟨⟨forceAlign_within hR hc hlast, hbased.dispatch, hbased.bases⟩, hplaced⟩

/-- If the placements of the parts compare and the first type takes no more bytes for an owned base,
the placements of the types compare. -/
theorem place_within
    (hpart : ∀ id ∈ c.references, Carries (Placed.Within R) (part' id) (part id))
    (hshared : ∀ id ∈ c.references, ∀ p, part id = .ok p →
      ∀ s ∈ p.shared, Carries (Placed.Within R) (part' s) (part s))
    (hbytes : ∀ base ∈ c.ownedBases, ∀ core' core, Core.Within R core' core →
      AtMost (ownedBytes target' isPod' (base.type, core'))
        (ownedBytes target isPod (base.type, core))) :
    Carries (Placed.Within R) (c'.place target' isPod' part') (c.place target isPod part) := by
  refine (placeOwn_within hR hc hpart hbytes).bind ?_
  rintro ⟨own', fields'⟩ ⟨own, fields⟩ ⟨hown, hfields⟩
  refine (close_within hR hc.site hown.frontier hown.dispatch).bind fun core' core hcore => ?_
  refine (hoisted_within hc hpart).and_eq_ok.bind ?_
  rintro shared' shared ⟨rfl, hlist⟩
  have hembed : Carries (Draft.Within R) (c'.placeShared target' part' own' shared')
      (c.placeShared target part own shared') := by
    refine Carries.foldlM hown (List.forall₂_same.mpr fun id hmem draft' draft hdraft => ?_)
    -- A shared base that is no base of the type itself is one of a base placed in the second run.
    have hplaced : Carries (Placed.Within R) (part' id) (part id) := by
      obtain ⟨base, hbase, p, hp, ⟨-, rfl⟩ | hid⟩ := (mem_hoisted hlist).mp hmem
      · exact hpart base.type (mem_references_of_base hbase)
      · exact hshared base.type (mem_references_of_base hbase) p hp id hid
    exact hplaced.bind fun p' p hp =>
      hdraft.embed hR hc.site id .shared hp.core hp.core.size
  refine hembed.bind fun complete' complete hcomplete => ?_
  refine (hc.site.require
    (hR.roundUp hcomplete.frontier.offset.max_one hcomplete.frontier.align)).bind
      fun size' size hsize => ?_
  exact .ok {
    layout := ⟨hsize.1, hcomplete.frontier.offset.1, hcomplete.dispatch, hfields, hcomplete.bases⟩
    size := hsize
    align := hcomplete.frontier.align
    core := hcore
    shared := rfl }

end

end Composite

end

end ObjectLayout
