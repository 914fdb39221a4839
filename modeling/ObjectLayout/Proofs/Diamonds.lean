import ObjectLayout.Proofs.BareTypes
import ObjectLayout.Proofs.EmptyBases

/-!
# Diamonds

Two bases of a type have a base of their own in common. Where they own it, it is there twice; where
they share it, it is placed once, behind everything else. So with shared edges all that the diamond
itself declares moves up by the room of one copy or of both, as far as rounding lets it: only whole
multiples of the alignments are gained for certain. What is gained may be less than what the copy
behind costs, if the common base is small.
-/
namespace ObjectLayout

/-- Two leads are more than what is put behind, if that has whole units only, or two at least. -/
lemma roundUp_lt_two_leads {size unit : Nat} (hunit : unit.isPowerOfTwo) (hsize : 0 < size)
    (h : unit ∣ size ∨ 2 * unit ≤ size) : roundUp size unit < 2 * (unit * (size / unit)) := by
  have hpos := Nat.pos_of_isPowerOfTwo hunit
  rcases h with hdvd | hlarge
  · rw [roundUp_of_dvd hunit hdvd, Nat.mul_div_cancel' hdvd]
    omega
  · have htwo : unit * 2 ≤ unit * (size / unit) :=
      Nat.mul_le_mul_left unit ((Nat.le_div_iff_mul_le hpos).mpr hlarge)
    have hround := roundUp_lt hpos size
    have hmod := Nat.mod_lt size hpos
    have hdiv := Nat.div_add_mod size unit
    omega

/-- What the types of a diamond declare: two sides have the top as their only base, and the whole
owns both sides. -/
structure Diamond where
  top : TypeId
  leftFields : List Field
  rightFields : List Field
  wholeFields : List Field

namespace Diamond

def fields (d : Diamond) : List Field := d.leftFields ++ d.rightFields ++ d.wholeFields

/-- The top and the types of the fields. -/
def parts (d : Diamond) : List TypeId :=
  d.top :: fieldTypes d.fields

/-- No marker of the diamond rounds to more than the unit. -/
def MarksWithin (d : Diamond) (unit : Nat) : Prop :=
  ∀ field ∈ d.fields, field.isMarker = true → field.storageUnit ≤ unit

instance (d : Diamond) (unit : Nat) : Decidable (d.MarksWithin unit) :=
  inferInstanceAs (Decidable (∀ field ∈ d.fields, field.isMarker = true →
    field.storageUnit ≤ unit))

end Diamond

namespace TypeTable

/-- Three types of the table make up the diamond, with both edges to the top alike. -/
structure Draws (table : TypeTable) (d : Diamond) (sharing : Sharing) (left right whole : TypeId) :
    Prop where
  atLeft : ∃ c, table.get? left = some c ∧ c.Bare [(d.top, sharing)] d.leftFields
  atRight : ∃ c, table.get? right = some c ∧ c.Bare [(d.top, sharing)] d.rightFields
  atWhole : ∃ c, table.get? whole = some c ∧
    c.Bare [(left, .owned), (right, .owned)] d.wholeFields

/-- The steps that placed a type, with the placements of the table for the parts. -/
structure Assembly (table : TypeTable) (target : Target) (c : Composite) (placed : Placed) where
  part : TypeId → Except Rejection Placed
  steps : Composite.Construction target table.isPod part c placed
  wellFormed : c.WellFormed target
  regular : steps.PartsRegular
  parts : ∀ other, other ∈ c.references ∨ other ∈ placed.shared →
    ∀ answer, table.PlacedAs target other answer ↔ part other = answer

variable {table table' : TypeTable} {target : Target} {id top : TypeId} {c c' : Composite}
  {placed placed' t : Placed} {align align' unit lead : Nat} {fields : List Field}

/-- A bare type is accepted if its parts are. -/
lemma Accepted.bare {bases : List (TypeId × Sharing)} (hc : table.get? id = some c)
    (hbare : c.Bare bases fields) (hwell : c.WellFormed target)
    (hparts : ∀ part ∈ bases.map Prod.fst ++ fieldTypes fields,
      ∃ align, table.Accepted target part align) :
    ∃ align, table.Accepted target id align := by
  rw [← hbare.references_eq] at hparts
  choose! parts hparts using hparts
  refine ⟨_, .intro parts hc hwell hparts fun forced hforced => ?_⟩
  rw [hbare.forcedAlign] at hforced
  cases hforced

lemma PlacedAs.assembly (h : table.PlacedAs target id (.ok placed))
    (haccepted : table.Accepted target id align) (hc : table.get? id = some c) :
    Nonempty (table.Assembly target c placed) := by
  obtain ⟨c', part, defined, parts, ⟨steps⟩⟩ := h.construction
  obtain rfl : c = c' := Option.some.inj (hc.symm.trans defined)
  refine ⟨part, steps, haccepted.wellFormed hc, h.partsRegular haccepted hc parts steps,
    fun other hother answer => ?_⟩
  have hpart := parts other (h.below_of_part hc hother)
  exact ⟨hpart.unique, fun heq => heq ▸ hpart⟩

/-- The placement of the top, which holds data and has no shared edge in its hierarchy. -/
structure Tops (table : TypeTable) (target : Target) (top : TypeId) (t : Placed) : Prop where
  placed : table.PlacedAs target top (.ok t)
  regular : t.Regular target
  filled : 0 < t.core.dataSize
  unshared : t.shared = []
  size : t.layout.size = t.core.size

lemma PlacedAs.tops (h : table.PlacedAs target top (.ok t))
    (haccepted : table.Accepted target top align) (hpointer : 0 < target.pointerSize)
    (hfilled : ¬ table.Hollow top) (hunshared : table.Unshared top) :
    table.Tops target top t := by
  have hregular := h.regular haccepted
  have hdata := (h.core_empty_iff haccepted hpointer).not.mpr hfilled
  have hnone := (h.shared_eq_nil_iff haccepted).mpr hunshared
  obtain ⟨_, _, -, -, ⟨steps⟩⟩ := h.construction
  obtain ⟨hdataSize, halign, -⟩ := steps.core_of_unshared hnone
  refine ⟨h, hregular, Nat.pos_of_ne_zero hdata, hnone, ?_⟩
  rw [hregular.size, hregular.core.size, if_neg hdata, ← hdataSize, ← halign,
    max_eq_left (Nat.one_le_iff_ne_zero.mpr hdata)]

namespace Assembly

lemma part_eq (a : table.Assembly target c placed) {p : Placed}
    (hother : id ∈ c.references ∨ id ∈ placed.shared)
    (h : table.PlacedAs target id (.ok p)) : a.part id = .ok p :=
  (a.parts id hother _).mp h

/-- Types that both tables describe alike give fields of the same sizes and alignments. -/
lemma extent_eq (a : table.Assembly target c placed) (a' : table'.Assembly target c' placed')
    (hfields : c.fields = fields) (hfields' : c'.fields = fields)
    (hparts : ∀ part ∈ fieldTypes fields, table.Unchanged table' part) :
    ∀ field ∈ fields, Composite.extent target a.part field.type =
      Composite.extent target a'.part field.type := by
  intro field hmem
  refine Composite.extent_congr fun part htype => ?_
  have hpart : part ∈ fieldTypes fields :=
    List.mem_filterMap.mpr ⟨field, hmem, by rw [htype]; rfl⟩
  have href : part ∈ c.references := Composite.mem_references_of_field (hfields ▸ hmem) htype
  have href' : part ∈ c'.references := Composite.mem_references_of_field (hfields' ▸ hmem) htype
  have hplaced' := (a'.parts part (Or.inl href') _).mpr rfl
  exact (a.parts part (Or.inl href) _).mp ((hparts part hpart).symm.placedAs hplaced')

/-- A side that owns the top has no shared base to hand on. -/
lemma shared_of_owned (a : table.Assembly target c placed) (h : c.Bare [(top, .owned)] fields)
    (htop : table.Tops target top t) : placed.shared = [] := by
  have hpart := a.part_eq (Or.inl (by simp [h.references_eq])) htop.placed
  refine h.shared_eq a.steps [] ?_
  simp [hpart, htop.unshared]

/-- A side that shares the top hands it on. -/
lemma shared_of_shared (a : table.Assembly target c placed) (h : c.Bare [(top, .shared)] fields)
    (htop : table.Tops target top t) : placed.shared = [top] := by
  have hpart := a.part_eq (Or.inl (by simp [h.references_eq])) htop.placed
  refine h.shared_eq a.steps [] ?_
  simp [hpart, htop.unshared]

/-- The whole has of the shared bases those that both sides have. -/
lemma shared_of_sides {left right : TypeId} {l r : Placed} {inner : List TypeId}
    (a : table.Assembly target c placed) (h : c.Bare [(left, .owned), (right, .owned)] fields)
    (hl : a.part left = .ok l) (hr : a.part right = .ok r) (hinner : l.shared = inner)
    (hinner' : r.shared = inner) : placed.shared = FirstSeen.noteAll [] (inner ++ inner) := by
  have hshared := h.shared_eq a.steps inner (by simp [hl, hr, hinner, hinner'])
  simpa using hshared

/-- A side that owns the top holds data and has at least the alignment of the top. -/
lemma core_of_owned (a : table.Assembly target c placed) (h : c.Bare [(top, .owned)] fields)
    (hkeep : target.tailPadding = .keep) (htop : table.Tops target top t) :
    0 < placed.core.dataSize ∧ t.core.align ≤ placed.core.align :=
  h.core_of_owned hkeep htop.filled a.steps
    (a.part_eq (Or.inl (by simp [h.references_eq])) htop.placed)
    (a.regular.ordered a.wellFormed) htop.regular.core

/-- A side that shares the top trails one that owns it. -/
lemma side_trails (a : table.Assembly target c placed) (a' : table'.Assembly target c' placed')
    (h : c.Bare [(top, .shared)] fields) (h' : c'.Bare [(top, .owned)] fields)
    (hpointer : target.pointerSize.isPowerOfTwo) (hkeep : target.tailPadding = .keep)
    (htop : table'.Tops target top t)
    (hparts : ∀ part ∈ fieldTypes fields, table.Unchanged table' part)
    (hunit : unit.isPowerOfTwo) (halign : placed'.core.align ≤ unit)
    (hmarkers : ∀ field ∈ fields, field.isMarker = true → field.storageUnit ≤ unit)
    (hlead : unit ∣ lead) (hle : lead ≤ t.core.size) :
    placed.core.frontier.Trails lead placed'.core.frontier :=
  h.side_trails hpointer hkeep a.steps a'.steps a'.wellFormed a'.regular
    (a.extent_eq a' h.fields h'.fields hparts) hunit halign hmarkers hlead h'
    (a'.part_eq (Or.inl (by simp [h'.references_eq])) htop.placed) htop.filled hle

end Assembly

lemma Tops.unchanged (h : table.Tops target top t) (hsame : table.Unchanged table' top) :
    table'.Tops target top t :=
  ⟨hsame.placedAs h.placed, h.regular, h.filled, h.unshared, h.size⟩

/-- A diamond with the placements of its sides and of its whole. -/
structure Drawn (table : TypeTable) (target : Target) (d : Diamond) (sharing : Sharing)
    (left right whole : TypeId) (l r p : Placed) where
  (leftType rightType wholeType : Composite)
  leftBare : leftType.Bare [(d.top, sharing)] d.leftFields
  rightBare : rightType.Bare [(d.top, sharing)] d.rightFields
  wholeBare : wholeType.Bare [(left, .owned), (right, .owned)] d.wholeFields
  leftSide : table.Assembly target leftType l
  rightSide : table.Assembly target rightType r
  complete : table.Assembly target wholeType p
  leftPart : complete.part left = .ok l
  rightPart : complete.part right = .ok r

variable {d : Diamond} {sharing : Sharing} {left right whole left' right' whole' : TypeId}
  {l r p l' r' p' : Placed}

lemma Draws.drawn (h : table.Draws d sharing left right whole)
    (haccepted : table.Accepted target whole align)
    (hplaced : table.PlacedAs target whole (.ok p)) :
    ∃ l r, Nonempty (table.Drawn target d sharing left right whole l r p) := by
  obtain ⟨⟨b, hb, hleft⟩, ⟨c, hc, hright⟩, ⟨w, hw, hwhole⟩⟩ := h
  obtain ⟨complete⟩ := hplaced.assembly haccepted hw
  have hreferences := complete.steps.references_ok complete.wellFormed
  have hside {side : TypeId} {c : Composite} (hc : table.get? side = some c)
      (hmem : side ∈ w.references) :
      ∃ q, complete.part side = .ok q ∧ Nonempty (table.Assembly target c q) := by
    obtain ⟨q, hq⟩ := hreferences side hmem
    obtain ⟨align', haccepted'⟩ := haccepted.refers ((refers_iff hw).mpr hmem)
    have hplaced' := (complete.parts side (Or.inl hmem) _).mpr hq
    exact ⟨q, hq, hplaced'.assembly haccepted' hc⟩
  obtain ⟨l, hl, ⟨leftSide⟩⟩ := hside hb (by simp [hwhole.references_eq])
  obtain ⟨r, hr, ⟨rightSide⟩⟩ := hside hc (by simp [hwhole.references_eq])
  exact ⟨l, r, ⟨⟨b, c, w, hleft, hright, hwhole, leftSide, rightSide, complete, hl, hr⟩⟩⟩

namespace Drawn

/-- Where the sides own the top nothing is shared. -/
lemma shared_of_owned (o : table.Drawn target d .owned left right whole l r p)
    (htop : table.Tops target d.top t) : p.shared = [] := by
  rw [o.complete.shared_of_sides o.wholeBare o.leftPart o.rightPart
    (o.leftSide.shared_of_owned o.leftBare htop) (o.rightSide.shared_of_owned o.rightBare htop)]
  rfl

/-- Where the sides share the top it is met twice and listed once. -/
lemma shared_of_shared (s : table.Drawn target d .shared left right whole l r p)
    (htop : table.Tops target d.top t) : p.shared = [d.top] := by
  rw [s.complete.shared_of_sides s.wholeBare s.leftPart s.rightPart
    (s.leftSide.shared_of_shared s.leftBare htop)
    (s.rightSide.shared_of_shared s.rightBare htop)]
  simp [FirstSeen.noteAll, FirstSeen.note]

/-- The core of a side does not reach beyond that of the whole. -/
lemma sides_within (w : table.Drawn target d sharing left right whole l r p) :
    l.core.frontier.Trails 0 p.core.frontier ∧ r.core.frontier.Trails 0 p.core.frontier :=
  ⟨w.wholeBare.core_within w.complete.steps w.complete.wellFormed w.complete.regular (by simp)
      w.leftPart,
    w.wholeBare.core_within w.complete.steps w.complete.wellFormed w.complete.regular (by simp)
      w.rightPart⟩

section

variable (s : table.Drawn target d .shared left right whole l r p)
  (o : table'.Drawn target d .owned left' right' whole' l' r' p')
  (hpointer : target.pointerSize.isPowerOfTwo) (hkeep : target.tailPadding = .keep)
  (hparts : ∀ part ∈ d.parts, table.Unchanged table' part)
  (htop : table.Tops target d.top t) (hunit : unit.isPowerOfTwo)
  (halign : p'.layout.align ≤ unit)
  (hmarkers : d.MarksWithin unit)
  (hlead : unit ∣ lead) (hle : lead ≤ t.core.size)
include s o hpointer hkeep hparts htop hunit halign hmarkers hlead hle

/-- Up to its own end the whole that shares the top trails by what it takes at both places. -/
theorem core_trails : p.core.frontier.Trails (lead + lead) p'.core.frontier := by
  have htop' := htop.unchanged (hparts d.top List.mem_cons_self)
  have hextents : ∀ part ∈ fieldTypes d.fields,
      table.Unchanged table' part := fun part hmem => hparts part (List.mem_cons_of_mem _ hmem)
  rw [Diamond.fields, fieldTypes_append, fieldTypes_append, List.forall_mem_append,
    List.forall_mem_append] at hextents
  rw [Diamond.MarksWithin, Diamond.fields, List.forall_mem_append, List.forall_mem_append]
    at hmarkers
  obtain ⟨⟨hleft, hright⟩, hwhole⟩ := hextents
  obtain ⟨⟨hmarksLeft, hmarksRight⟩, hmarksWhole⟩ := hmarkers
  have hcore : p'.core.align ≤ unit :=
    (o.complete.steps.core_of_unshared (o.shared_of_owned htop')).2.1.trans_le halign
  obtain ⟨hwithin, hwithin'⟩ := o.sides_within
  have htrails := s.leftSide.side_trails o.leftSide s.leftBare o.leftBare hpointer hkeep htop'
    hleft hunit (hwithin.align.trans hcore) hmarksLeft hlead hle
  have htrails' := s.rightSide.side_trails o.rightSide s.rightBare o.rightBare hpointer hkeep htop'
    hright hunit (hwithin'.align.trans hcore) hmarksRight hlead hle
  exact s.wholeBare.whole_trails hpointer hkeep s.complete.steps o.complete.steps
    o.complete.wellFormed o.complete.regular
    (s.complete.extent_eq o.complete s.wholeBare.fields o.wholeBare.fields hwhole) hunit
    hcore hmarksWhole hlead o.wholeBare s.leftPart s.rightPart o.leftPart o.rightPart
    s.complete.regular htrails htrails'
    (o.leftSide.core_of_owned o.leftBare hkeep htop').1
    (o.rightSide.core_of_owned o.rightBare hkeep htop').1

/-- The top behind everything costs its size once, rounded up. -/
theorem size_le : p.layout.size + (lead + lead) ≤ p'.layout.size + roundUp t.core.size unit := by
  have htop' := htop.unchanged (hparts d.top List.mem_cons_self)
  have htrails := s.core_trails o hpointer hkeep hparts htop hunit halign hmarkers hlead hle
  have htopAlign : t.core.align ≤ p'.core.align :=
    (o.leftSide.core_of_owned o.leftBare hkeep htop').2.trans
      (o.sides_within).1.align
  obtain ⟨hdataSize', halign', -⟩ :=
    o.complete.steps.core_of_unshared (o.shared_of_owned htop')
  have hshared := s.shared_of_shared htop
  obtain ⟨hdataSize, hsharedAlign, -⟩ :=
    s.wholeBare.complete_of_shared s.complete.steps hshared
      (s.complete.part_eq (Or.inr (by simp [hshared])) htop.placed) htop.filled
  have hregular := s.complete.regular.regular s.complete.wellFormed
  have hregular' := o.complete.regular.regular o.complete.wellFormed
  have hcoarser : p.layout.align ≤ p'.layout.align := by
    rw [hsharedAlign, ← halign']
    exact max_le htrails.align htopAlign
  have hahead : p.core.dataSize + (lead + lead) ≤ p'.layout.dataSize :=
    hdataSize' ▸ htrails.offset
  have hbehind : roundUp (roundUp p.core.dataSize t.core.align + t.core.size) p.layout.align +
      (lead + lead) ≤ roundUp p'.layout.dataSize p'.layout.align + roundUp t.core.size unit :=
    roundUp_behind_le (htop.regular.core.align hpointer) (hregular.align hpointer)
      (hregular'.align hpointer) hunit
      (hsharedAlign ▸ le_max_right _ _) hcoarser halign (Nat.dvd_add hlead hlead) hahead
  have hnonempty : 1 ≤ p.layout.dataSize := by
    have hfits := htop.regular.core.dataSize_le_size
    have hfilled := htop.filled
    omega
  rw [hregular.size, hregular'.size, max_eq_left hnonempty, hdataSize]
  exact hbehind.trans (Nat.add_le_add_right (roundUp_mono (hregular'.align hpointer)
    (le_max_left _ _)) _)

end

/-- The whole lists the top once, behind everything else. -/
lemma filter_bases_top (s : table.Drawn target d .shared left right whole l r p)
    (htop : table.Tops target d.top t) (hleft : left ≠ d.top) (hright : right ≠ d.top) :
    ∃ offset, p.layout.bases.filter (fun base => base.type = d.top) =
      [⟨d.top, offset, t.layout.size, .shared⟩] := by
  have hshared := s.shared_of_shared htop
  obtain ⟨-, -, offset, hbases⟩ := s.wholeBare.complete_of_shared s.complete.steps hshared
    (s.complete.part_eq (Or.inr (by simp [hshared])) htop.placed) htop.filled
  obtain ⟨howned, -, htypes, -⟩ := s.complete.steps.bases_split
  rw [howned, s.wholeBare.ownedTypes] at htypes
  have hothers : s.complete.steps.based.bases.filter (fun base => base.type = d.top) = [] := by
    refine List.filter_eq_nil_iff.mpr fun base hmem => ?_
    have hside := List.mem_map_of_mem (f := PlacedBase.type) hmem
    rw [htypes] at hside
    have hsides : base.type = left ∨ base.type = right := by simpa using hside
    rcases hsides with heq | heq <;> simp [heq, hleft, hright]
  refine ⟨offset, ?_⟩
  rw [hbases, List.filter_append, hothers, htop.size]
  simp

/-- A side is no larger than the whole, since both have the top behind. -/
lemma side_size_le {side : Placed} (s : table.Drawn target d .shared left right whole l r p)
    (a : table.Assembly target c side) (h : c.Bare [(d.top, .shared)] fields)
    (hpointer : target.pointerSize.isPowerOfTwo) (htop : table.Tops target d.top t)
    (hwithin : side.core.frontier.Trails 0 p.core.frontier) :
    side.layout.size ≤ p.layout.size := by
  have hshared := a.shared_of_shared h htop
  have hshared' := s.shared_of_shared htop
  obtain ⟨hdata, halign, -⟩ := h.complete_of_shared a.steps hshared
    (a.part_eq (Or.inr (by simp [hshared])) htop.placed) htop.filled
  obtain ⟨hdata', halign', -⟩ := s.wholeBare.complete_of_shared s.complete.steps hshared'
    (s.complete.part_eq (Or.inr (by simp [hshared'])) htop.placed) htop.filled
  have hregular := a.regular.regular a.wellFormed
  have hregular' := s.complete.regular.regular s.complete.wellFormed
  have hoffset : side.core.dataSize ≤ p.core.dataSize := hwithin.offset
  have hle : side.layout.dataSize ≤ p.layout.dataSize := by
    rw [hdata, hdata']
    exact Nat.add_le_add_right (roundUp_mono (htop.regular.core.align hpointer) hoffset) _
  rw [hregular.size, hregular'.size]
  refine roundUp_le_roundUp (max_le_max_right 1 hle) (hregular.align hpointer)
    (hregular'.align hpointer) ?_
  rw [halign, halign']
  exact max_le_max_right _ hwithin.align

end Drawn

/-- A placement is the exact one. -/
lemma PlacedAs.exact (h : table.PlacedAs target id (.ok placed))
    (haccepted : table.Accepted target id align) (hpointer : target.pointerSize.isPowerOfTwo) :
    table.PlacedAs target.unbounded id (.ok placed) := by
  obtain ⟨exact, hexact, -⟩ := haccepted.exists_exact
  obtain rfl : placed = exact := (hexact.follows h haccepted hpointer).eq_of_ok
  exact hexact

lemma Tops.exact (h : table.Tops target top t) (haccepted : table.Accepted target id align)
    (hreach : table.Reaches id top) (hpointer : target.pointerSize.isPowerOfTwo) :
    table.Tops target.unbounded top t := by
  obtain ⟨align', haccepted'⟩ := haccepted.reaches hreach
  have hexact := h.placed.exact haccepted' hpointer
  exact ⟨hexact, hexact.regular haccepted'.unbounded, h.filled, h.unshared, h.size⟩

/-- An accepted type is placed if the target can address everything that the type reaches. -/
lemma Accepted.placed_of_holds (h : table.Accepted target id align)
    (hpointer : target.pointerSize.isPowerOfTwo)
    (hholds : ∀ part exact, table.Reaches id part →
      table.PlacedAs target.unbounded part (.ok exact) → target.holds exact.layout.size = true) :
    ∃ placed, table.PlacedAs target id (.ok placed) := by
  obtain ⟨exact, hexact, -⟩ := h.exists_exact
  obtain ⟨answer, hanswer, -⟩ := h.exists_placedAs
  rcases hexact.follows hanswer h hpointer with
    rfl | ⟨rejection, rfl, part, _, large, hreach, -, hplaced, hlarge, -⟩
  · exact ⟨exact, hanswer⟩
  · exact absurd (hholds part large hreach hplaced) (by rw [hlarge]; exact Bool.false_ne_true)

namespace Draws

lemma references_left (h : table.Draws d sharing left right whole) :
    table.references left = d.top :: fieldTypes d.leftFields := by
  obtain ⟨c, hc, hbare⟩ := h.atLeft
  exact (references_of_get? hc).trans hbare.references_eq

lemma references_right (h : table.Draws d sharing left right whole) :
    table.references right = d.top :: fieldTypes d.rightFields := by
  obtain ⟨c, hc, hbare⟩ := h.atRight
  exact (references_of_get? hc).trans hbare.references_eq

lemma references_whole (h : table.Draws d sharing left right whole) :
    table.references whole = left :: right :: fieldTypes d.wholeFields := by
  obtain ⟨c, hc, hbare⟩ := h.atWhole
  exact (references_of_get? hc).trans hbare.references_eq

lemma mem_parts : id ∈ d.parts ↔ id = d.top ∨ id ∈ fieldTypes d.leftFields ∨
    id ∈ fieldTypes d.rightFields ∨ id ∈ fieldTypes d.wholeFields := by
  simp [Diamond.parts, Diamond.fields, fieldTypes_append]

lemma refers_whole (h : table.Draws d sharing left right whole) :
    table.Refers whole left ∧ table.Refers whole right := by
  rw [Refers, Refers, h.references_whole]
  exact ⟨List.mem_cons_self, List.mem_cons_of_mem _ List.mem_cons_self⟩

/-- The whole reaches what it is made of. -/
lemma reaches_parts (h : table.Draws d sharing left right whole) :
    ∀ part ∈ d.parts, table.Reaches whole part := by
  obtain ⟨hleft, hright⟩ := h.refers_whole
  intro part hpart
  rcases mem_parts.mp hpart with rfl | hpart | hpart | hpart
  · refine hleft.below.reaches.tail ?_
    rw [Refers, h.references_left]
    exact List.mem_cons_self
  · refine hleft.below.reaches.tail ?_
    rw [Refers, h.references_left]
    exact List.mem_cons_of_mem _ hpart
  · refine hright.below.reaches.tail ?_
    rw [Refers, h.references_right]
    exact List.mem_cons_of_mem _ hpart
  · refine (Reaches.refl table whole).tail ?_
    rw [Refers, h.references_whole]
    exact List.mem_cons_of_mem _ (List.mem_cons_of_mem _ hpart)

/-- Beside its sides the whole reaches only what its parts reach. -/
lemma reaches_cases (h : table.Draws d sharing left right whole)
    (hreach : table.Reaches whole id) : id = whole ∨ id = left ∨ id = right ∨
      ∃ part ∈ d.parts, table.Reaches part id := by
  induction hreach with
  | refl => exact Or.inl rfl
  | @tail other next _ hrefers ih =>
    have hpart (hmem : next ∈ d.parts) : ∃ part ∈ d.parts, table.Reaches part next :=
      ⟨next, hmem, .refl table next⟩
    rcases ih with rfl | rfl | rfl | ⟨part, hmem, hreach⟩
    · rw [Refers, h.references_whole] at hrefers
      rcases List.mem_cons.mp hrefers with rfl | hrefers
      · exact Or.inr (Or.inl rfl)
      rcases List.mem_cons.mp hrefers with rfl | hrefers
      · exact Or.inr (Or.inr (Or.inl rfl))
      exact Or.inr (Or.inr (Or.inr (hpart (mem_parts.mpr (by simp [hrefers])))))
    · rw [Refers, h.references_left, List.mem_cons] at hrefers
      refine Or.inr (Or.inr (Or.inr (hpart (mem_parts.mpr ?_))))
      exact hrefers.imp_right Or.inl
    · rw [Refers, h.references_right, List.mem_cons] at hrefers
      refine Or.inr (Or.inr (Or.inr (hpart (mem_parts.mpr ?_))))
      exact hrefers.imp_right fun hfield => Or.inr (Or.inl hfield)
    · exact Or.inr (Or.inr (Or.inr ⟨part, hmem, hreach.tail hrefers⟩))

/-- Neither side is the top. -/
lemma sides_ne_top (h : table.Draws d sharing left right whole)
    (haccepted : table.Accepted target whole align) : left ≠ d.top ∧ right ≠ d.top := by
  obtain ⟨hleft, hright⟩ := h.refers_whole
  have hside {side : TypeId} {others : List TypeId} (hrefers : table.Refers whole side)
      (hreferences : table.references side = d.top :: others) : side ≠ d.top := by
    rintro rfl
    refine (haccepted.acyclic.refers hrefers).not_below (Refers.below ?_)
    rw [Refers, hreferences]
    exact List.mem_cons_self
  exact ⟨hside hleft h.references_left, hside hright h.references_right⟩

/-- With other edges to the top a diamond is accepted as well. -/
theorem accepted {sharing' : Sharing} (h : table.Draws d sharing left right whole)
    (h' : table'.Draws d sharing' left' right' whole')
    (hparts : ∀ part ∈ d.parts, table.Unchanged table' part)
    (haccepted : table.Accepted target whole align) :
    ∃ align', table'.Accepted target whole' align' := by
  have hpart : ∀ part ∈ d.parts, ∃ align', table'.Accepted target part align' := by
    intro part hmem
    obtain ⟨align', hother⟩ := haccepted.reaches (h.reaches_parts part hmem)
    exact ⟨align', (hparts part hmem).accepted hother⟩
  obtain ⟨⟨b, hb, hleft⟩, ⟨c, hc, hright⟩, ⟨w, hw, hwhole⟩⟩ := h
  obtain ⟨⟨b', hb', hleft'⟩, ⟨c', hc', hright'⟩, ⟨w', hw', hwhole'⟩⟩ := h'
  have hrefers (side : TypeId) (hmem : side ∈ w.references) := haccepted.refers
    ((refers_iff hw).mpr hmem)
  obtain ⟨_, hacceptedLeft⟩ := hrefers left (by simp [hwhole.references_eq])
  obtain ⟨_, hacceptedRight⟩ := hrefers right (by simp [hwhole.references_eq])
  have hsideLeft := Accepted.bare hb' hleft'
    (hleft.wellFormed hleft' (hacceptedLeft.wellFormed hb)) fun part hmem =>
      hpart part (mem_parts.mpr ((List.mem_append.mp hmem).imp List.mem_singleton.mp Or.inl))
  have hsideRight := Accepted.bare hc' hright'
    (hright.wellFormed hright' (hacceptedRight.wellFormed hc)) fun part hmem =>
      hpart part (mem_parts.mpr ((List.mem_append.mp hmem).imp List.mem_singleton.mp
        fun hfield => Or.inr (Or.inl hfield)))
  refine Accepted.bare hw' hwhole' (hwhole.wellFormed hwhole' (haccepted.wellFormed hw))
    fun part hmem => ?_
  rcases List.mem_append.mp hmem with hmem | hmem
  · have hside : part = left' ∨ part = right' := by simpa using hmem
    rcases hside with rfl | rfl
    · exact hsideLeft
    · exact hsideRight
  · exact hpart part (mem_parts.mpr (Or.inr (Or.inr (Or.inr hmem))))

section

variable (hpointer : target.pointerSize.isPowerOfTwo)
  (hdraws : table.Draws d .shared left right whole)
  (hdraws' : table'.Draws d .owned left' right' whole')
  (hparts : ∀ part ∈ d.parts, table.Unchanged table' part)
  (haccepted : table.Accepted target whole align)
  (haccepted' : table'.Accepted target whole' align')
  (hplaced' : table'.PlacedAs target whole' (.ok p')) (htop : table.Tops target d.top t)
include hpointer hdraws hdraws' hparts haccepted haccepted' hplaced' htop

/-- If the exact size of the whole that shares the top is no larger than that of the one that owns
it, and this one is placed, then so is the other. -/
theorem placed_of_le
    (hle : ∀ exact, table.PlacedAs target.unbounded whole (.ok exact) →
      exact.layout.size ≤ p'.layout.size) :
    ∃ p, table.PlacedAs target whole (.ok p) := by
  refine haccepted.placed_of_holds hpointer fun part exact hreach hexact => ?_
  obtain ⟨p, hp, -⟩ := haccepted.exists_exact
  have hwhole := Target.holds_of_le hplaced'.holds_size (hle p hp)
  have htopExact := htop.exact haccepted (hdraws.reaches_parts d.top List.mem_cons_self) hpointer
  obtain ⟨l, r, ⟨s⟩⟩ := hdraws.drawn haccepted.unbounded hp
  obtain ⟨hwithin, hwithin'⟩ := s.sides_within
  -- What the whole reaches is one of the three types of the diamond, none larger than the whole, or
  -- is reached from the other whole as well, and so is placed.
  rcases hdraws.reaches_cases hreach with rfl | rfl | rfl | ⟨first, hfirst, hreach⟩
  · obtain rfl : p = exact := Except.ok.inj (hp.unique hexact)
    exact hwhole
  · have hl := (s.complete.parts part (Or.inl (by simp [s.wholeBare.references_eq])) _).mpr
      s.leftPart
    obtain rfl : l = exact := Except.ok.inj (hl.unique hexact)
    exact Target.holds_of_le hwhole
      (s.side_size_le s.leftSide s.leftBare hpointer htopExact hwithin)
  · have hr := (s.complete.parts part (Or.inl (by simp [s.wholeBare.references_eq])) _).mpr
      s.rightPart
    obtain rfl : r = exact := Except.ok.inj (hr.unique hexact)
    exact Target.holds_of_le hwhole
      (s.side_size_le s.rightSide s.rightBare hpointer htopExact hwithin')
  · have hsame := hparts first hfirst
    have hreach' := (hdraws'.reaches_parts first hfirst).trans (hsame.reaches_iff.mpr hreach)
    obtain ⟨q, hq⟩ := hplaced'.reaches haccepted' hreach'
    obtain ⟨align', hother⟩ := haccepted'.reaches hreach'
    have hexact' := (hsame.reaches hreach).placedAs hexact
    obtain rfl : q = exact := Except.ok.inj ((hq.exact hother hpointer).unique hexact')
    exact hq.holds_size

/-- The sizes of the two wholes, for any unit that all alignments and markers keep to. -/
theorem size_le_of_unit (hkeep : target.tailPadding = .keep)
    (hplaced : table.PlacedAs target whole (.ok p)) (hunit : unit.isPowerOfTwo)
    (halign : p'.layout.align ≤ unit) (hmarkers : d.MarksWithin unit) :
    p.layout.size + 2 * (unit * (t.layout.size / unit)) ≤
      p'.layout.size + roundUp t.layout.size unit := by
  obtain ⟨l, r, ⟨s⟩⟩ := hdraws.drawn haccepted hplaced
  obtain ⟨l', r', ⟨o⟩⟩ := hdraws'.drawn haccepted' hplaced'
  rw [htop.size, Nat.two_mul]
  exact s.size_le o hpointer hkeep hparts htop hunit halign hmarkers (Nat.dvd_mul_right _ _)
    (Nat.mul_div_le _ _)

/-- With a large or an even top sharing pays off: the whole that shares it is placed if the other
is, and is smaller. -/
theorem placed_smaller (hkeep : target.tailPadding = .keep) (hunit : unit.isPowerOfTwo)
    (halign : p'.layout.align ≤ unit) (hmarkers : d.MarksWithin unit)
    (hpays : unit ∣ t.layout.size ∨ 2 * unit ≤ t.layout.size) :
    ∃ p, table.PlacedAs target whole (.ok p) ∧ p.layout.size < p'.layout.size := by
  have hfilled : 0 < t.layout.size := by
    have hfits := htop.regular.core.dataSize_le_size
    have hfilled := htop.filled
    have hsize := htop.size
    omega
  have hleads := roundUp_lt_two_leads hunit hfilled hpays
  have htopReach := hdraws.reaches_parts d.top List.mem_cons_self
  have hexact' := hplaced'.exact haccepted' hpointer
  have hpointer' : target.unbounded.pointerSize.isPowerOfTwo := hpointer
  have hsmaller : ∀ exact, table.PlacedAs target.unbounded whole (.ok exact) →
      exact.layout.size < p'.layout.size := by
    intro exact hexact
    have hsize := size_le_of_unit hpointer' hdraws hdraws' hparts haccepted.unbounded
      haccepted'.unbounded hexact' (htop.exact haccepted htopReach hpointer) hkeep hexact hunit
      halign hmarkers
    omega
  obtain ⟨p, hplaced⟩ := placed_of_le hpointer hdraws hdraws' hparts haccepted haccepted' hplaced'
    htop fun exact hexact => (hsmaller exact hexact).le
  exact ⟨p, hplaced, hsmaller p (hplaced.exact haccepted hpointer)⟩

end

end Draws

/-- In one of two accepted diamonds with the same top and the same fields the sides share the top,
in the other they own it; it holds data and has no shared edge in its hierarchy, and tail padding is
kept. The whole that shares the top lists it once, with its own size. For every unit that the
alignments and the markers keep to, it moves up by two copies of the top in whole units and pays for
one copy behind. So if the size of the top is a multiple of the unit, or two units or more, the
whole that shares it has a layout wherever the other one has, and a smaller one. -/
theorem shared_diamond_size (table table' : TypeTable) (target : Target) (d : Diamond)
    (left right whole left' right' whole' : TypeId) (align : Nat)
    (hpointer : target.pointerSize.isPowerOfTwo) (hkeep : target.tailPadding = .keep)
    (hdraws : table.Draws d .shared left right whole)
    (hdraws' : table'.Draws d .owned left' right' whole')
    (hparts : ∀ part ∈ d.parts, table.Unchanged table' part)
    (hfilled : ¬ table.Hollow d.top) (hunshared : table.Unshared d.top)
    (haccepted : answer ((table.accept target whole).run {}) = .ok align) :
    ((∃ name, table.layout target whole = .error (.sizeOverflow name)) ∨
      ∃ layout top offset, table.layout target whole = .ok layout ∧
        table.layout target d.top = .ok top ∧
        layout.bases.filter (fun base => base.type = d.top) =
          [⟨d.top, offset, top.size, .shared⟩]) ∧
    ((∃ name, table'.layout target whole' = .error (.sizeOverflow name)) ∨
      ∃ layout' top, table'.layout target whole' = .ok layout' ∧
        table.layout target d.top = .ok top ∧
        ∀ unit : Nat, unit.isPowerOfTwo → layout'.align ≤ unit → d.MarksWithin unit →
          (∀ layout, table.layout target whole = .ok layout →
            layout.size + 2 * (unit * (top.size / unit)) ≤
              layout'.size + roundUp top.size unit) ∧
          (unit ∣ top.size ∨ 2 * unit ≤ top.size →
            ∃ layout, table.layout target whole = .ok layout ∧ layout.size < layout'.size)) := by
  rw [accept_eq_ok_iff] at haccepted
  obtain ⟨align', haccepted'⟩ := hdraws.accepted hdraws' hparts haccepted
  have htopReach := hdraws.reaches_parts d.top List.mem_cons_self
  have htopReach' := hdraws'.reaches_parts d.top List.mem_cons_self
  have hsame := hparts d.top List.mem_cons_self
  obtain ⟨topAlign, htopAccepted⟩ := haccepted.reaches htopReach
  have htops {t : Placed} (ht : table.PlacedAs target d.top (.ok t)) :
      table.Tops target d.top t ∧ table.layout target d.top = .ok t.layout :=
    ⟨ht.tops htopAccepted (Nat.pos_of_isPowerOfTwo hpointer) hfilled hunshared,
      layout_of_placedAs htopAccepted ht⟩
  constructor
  · obtain ⟨answer, hplaced, hlayout⟩ := haccepted.exists_placedAs
    cases answer with
    | error rejection =>
      obtain ⟨-, part, c, -, -, rfl⟩ := hplaced.failsOnly rejection rfl
      exact Or.inl ⟨c.name, hlayout⟩
    | ok p =>
      obtain ⟨t, ht⟩ := hplaced.reaches haccepted htopReach
      obtain ⟨htop, htopLayout⟩ := htops ht
      obtain ⟨l, r, ⟨s⟩⟩ := hdraws.drawn haccepted hplaced
      obtain ⟨hleft, hright⟩ := hdraws.sides_ne_top haccepted
      obtain ⟨offset, hbases⟩ := s.filter_bases_top htop hleft hright
      exact Or.inr ⟨p.layout, t.layout, offset, hlayout, htopLayout, hbases⟩
  · obtain ⟨answer, hplaced', hlayout'⟩ := haccepted'.exists_placedAs
    cases answer with
    | error rejection =>
      obtain ⟨-, part, c, -, -, rfl⟩ := hplaced'.failsOnly rejection rfl
      exact Or.inl ⟨c.name, hlayout'⟩
    | ok p' =>
      obtain ⟨t, ht⟩ := hplaced'.reaches haccepted' htopReach'
      obtain ⟨htop, htopLayout⟩ := htops (hsame.symm.placedAs ht)
      refine Or.inr ⟨p'.layout, t.layout, hlayout', htopLayout,
        fun unit hunit halign hmarkers => ⟨fun layout hlayout => ?_, fun hpays => ?_⟩⟩
      · obtain ⟨_, p, -, hplaced, rfl⟩ := layout_eq_ok hlayout
        exact Draws.size_le_of_unit hpointer hdraws hdraws' hparts haccepted haccepted' hplaced'
          htop hkeep hplaced hunit halign hmarkers
      · obtain ⟨p, hplaced, hsmaller⟩ := Draws.placed_smaller hpointer hdraws hdraws' hparts
          haccepted haccepted' hplaced' htop hkeep hunit halign hmarkers hpays
        exact ⟨p.layout, layout_of_placedAs haccepted hplaced, hsmaller⟩

/-- A stream with a slot at the top, and what is read from it and written to it at the sides. -/
def files : Diamond :=
  { top := ⟨0⟩
    leftFields := [{ name := "mode", type := .char }, { name := "flags", type := .int }]
    rightFields := [{ name := "limit", type := .short },
      { name := "", type := .int, bitWidth := some 0 }, { name := "end", type := .char }]
    wholeFields := [{ name := "open", type := .char }] }

def fileTypes (sharing : Sharing) : TypeTable :=
  { entries := #[
      ⟨"Stream", some
        { name := "Stream", introducesDispatch := true
          fields := [{ name := "position", type := .int }] }⟩,
      ⟨"Reader", some
        { name := "Reader", bases := [{ type := ⟨0⟩, sharing := sharing }]
          fields := files.leftFields }⟩,
      ⟨"Writer", some
        { name := "Writer", bases := [{ type := ⟨0⟩, sharing := sharing }]
          fields := files.rightFields }⟩,
      ⟨"File", some
        { name := "File", bases := [{ type := ⟨1⟩ }, { type := ⟨2⟩ }]
          fields := files.wholeFields }⟩] }

/-- The stream takes two whole units of eight bytes, so the file that has it once is smaller. -/
theorem shared_diamond_size_files :
    let layout : Layout :=
      { size := 32, align := 8, dataSize := 32, dispatch := some 16
        fields := [⟨"open", 14, 1, none⟩]
        bases := [⟨⟨1⟩, 0, 8, .owned⟩, ⟨⟨2⟩, 8, 6, .owned⟩, ⟨⟨0⟩, 16, 16, .shared⟩] }
    let layout' : Layout :=
      { size := 56, align := 8, dataSize := 49, dispatch := some 0
        fields := [⟨"open", 48, 1, none⟩]
        bases := [⟨⟨1⟩, 0, 24, .owned⟩, ⟨⟨2⟩, 24, 24, .owned⟩] }
    (fileTypes .shared).layout .lp64 ⟨3⟩ = .ok layout ∧
      (fileTypes .owned).layout .lp64 ⟨3⟩ = .ok layout' ∧
      (∃ offset, layout.bases.filter (fun base => base.type = files.top) =
        [⟨files.top, offset, 16, .shared⟩]) ∧ layout.size + 32 ≤ layout'.size + 16 := by
  intro layout layout'
  have hlayout : (fileTypes .shared).layout .lp64 ⟨3⟩ = .ok layout := by decide +kernel
  have hlayout' : (fileTypes .owned).layout .lp64 ⟨3⟩ = .ok layout' := by decide +kernel
  have hsize : ((fileTypes .shared).layout .lp64 files.top).map Layout.size = .ok 16 := by
    decide +kernel
  have haccepted : answer (((fileTypes .shared).accept .lp64 ⟨3⟩).run {}) = .ok 8 := by
    decide +kernel
  have hdraws (sharing : Sharing) : (fileTypes sharing).Draws files sharing ⟨1⟩ ⟨2⟩ ⟨3⟩ :=
    ⟨⟨_, rfl, rfl, rfl, rfl, rfl, rfl⟩, ⟨_, rfl, rfl, rfl, rfl, rfl, rfl⟩,
      ⟨_, rfl, rfl, rfl, rfl, rfl, rfl⟩⟩
  have hparts : ∀ part ∈ files.parts, (fileTypes .shared).Unchanged (fileTypes .owned) part := by
    intro part hpart other hreach
    obtain rfl : part = ⟨0⟩ := List.mem_singleton.mp hpart
    have hclosed : ∀ whole ∈ [(⟨0⟩ : TypeId)], ∀ next ∈ (fileTypes .shared).references whole,
        next ∈ [(⟨0⟩ : TypeId)] := by decide
    obtain rfl : other = ⟨0⟩ :=
      List.mem_singleton.mp (hreach.mem_of_closed hclosed (List.mem_singleton_self _))
    rfl
  have hfilled : ¬ (fileTypes .shared).Hollow ⟨0⟩ := fun hhollow =>
    Bool.noConfusion (hhollow ⟨0⟩ _ (Or.inl rfl) rfl).2
  have hunshared : (fileTypes .shared).Unshared ⟨0⟩ := .of_bases rfl (by simp)
  obtain ⟨⟨name, herror⟩ | ⟨found, top, offset, hfound, htop, hbases⟩,
    ⟨name', herror'⟩ | ⟨found', top', hfound', htop', hunits⟩⟩ :=
    shared_diamond_size (fileTypes .shared) (fileTypes .owned) .lp64 files ⟨1⟩ ⟨2⟩ ⟨3⟩ ⟨1⟩ ⟨2⟩ ⟨3⟩ 8
      ⟨3, rfl⟩ rfl (hdraws .shared) (hdraws .owned) hparts hfilled hunshared haccepted
  · cases hlayout.symm.trans herror
  · cases hlayout.symm.trans herror
  · cases hlayout'.symm.trans herror'
  · obtain rfl : layout = found := Except.ok.inj (hlayout.symm.trans hfound)
    obtain rfl : layout' = found' := Except.ok.inj (hlayout'.symm.trans hfound')
    rw [htop] at hsize
    obtain rfl : top = top' := Except.ok.inj (htop.symm.trans htop')
    have hsize : top.size = 16 := Except.ok.inj hsize
    have hunit := (hunits 8 ⟨3, rfl⟩ (by decide) (by decide)).1 layout hlayout
    rw [hsize] at hbases hunit
    exact ⟨hlayout, hlayout', ⟨offset, hbases⟩, hunit⟩

/-- A mark of one byte at the top, and counts beside it that are kept to four bytes. -/
def marks : Diamond :=
  { top := ⟨0⟩
    leftFields := [{ name := "kind", type := .char }, { name := "count", type := .int }]
    rightFields := [{ name := "state", type := .char }, { name := "total", type := .int }]
    wholeFields := [] }

/-- The diamond twice, with shared edges and with owned ones. -/
def markTypes : TypeTable :=
  { entries := #[
      ⟨"Mark", some { name := "Mark", fields := [{ name := "mark", type := .char }] }⟩,
      ⟨"Left", some
        { name := "Left", bases := [{ type := ⟨0⟩, sharing := .shared }]
          fields := marks.leftFields }⟩,
      ⟨"Right", some
        { name := "Right", bases := [{ type := ⟨0⟩, sharing := .shared }]
          fields := marks.rightFields }⟩,
      ⟨"Whole", some { name := "Whole", bases := [{ type := ⟨1⟩ }, { type := ⟨2⟩ }] }⟩,
      ⟨"OwnLeft", some
        { name := "OwnLeft", bases := [{ type := ⟨0⟩ }], fields := marks.leftFields }⟩,
      ⟨"OwnRight", some
        { name := "OwnRight", bases := [{ type := ⟨0⟩ }], fields := marks.rightFields }⟩,
      ⟨"OwnWhole", some { name := "OwnWhole", bases := [{ type := ⟨4⟩ }, { type := ⟨5⟩ }] }⟩] }

/-- Where the sides own the mark it lies in what would be padding. Shared, it costs a unit of its
own behind them, and the whole is larger. -/
theorem shared_diamond_larger :
    markTypes.Draws marks .shared ⟨1⟩ ⟨2⟩ ⟨3⟩ ∧ markTypes.Draws marks .owned ⟨4⟩ ⟨5⟩ ⟨6⟩ ∧
      ¬ markTypes.Hollow marks.top ∧ markTypes.Unshared marks.top ∧
      answer ((markTypes.accept .lp64 ⟨3⟩).run {}) = .ok 4 ∧
      answer ((markTypes.accept .lp64 ⟨6⟩).run {}) = .ok 4 ∧
      ∃ layout layout', markTypes.layout .lp64 ⟨3⟩ = .ok layout ∧
        markTypes.layout .lp64 ⟨6⟩ = .ok layout' ∧ layout.size = 20 ∧ layout'.size = 16 := by
  refine ⟨⟨⟨_, rfl, rfl, rfl, rfl, rfl, rfl⟩, ⟨_, rfl, rfl, rfl, rfl, rfl, rfl⟩,
      ⟨_, rfl, rfl, rfl, rfl, rfl, rfl⟩⟩,
    ⟨⟨_, rfl, rfl, rfl, rfl, rfl, rfl⟩, ⟨_, rfl, rfl, rfl, rfl, rfl, rfl⟩,
      ⟨_, rfl, rfl, rfl, rfl, rfl, rfl⟩⟩,
    fun hhollow => ?_, .of_bases rfl (by simp), by decide +kernel, by decide +kernel,
    { size := 20, align := 4, dataSize := 17, dispatch := none, fields := []
      bases := [⟨⟨1⟩, 0, 8, .owned⟩, ⟨⟨2⟩, 8, 8, .owned⟩, ⟨⟨0⟩, 16, 1, .shared⟩] },
    { size := 16, align := 4, dataSize := 16, dispatch := none, fields := []
      bases := [⟨⟨4⟩, 0, 8, .owned⟩, ⟨⟨5⟩, 8, 8, .owned⟩] },
    by decide +kernel, by decide +kernel, rfl, rfl⟩
  exact Bool.noConfusion (hhollow ⟨0⟩ _ (Or.inl rfl) rfl).1

end TypeTable

end ObjectLayout
