import ObjectLayout.Proofs.ReportedSpans

/-!
# Markers within runs

A bit-field of width zero can be treated in two ways. Placement ends a run at it, rounds the
frontier, and begins a region of its own behind it. Packing can also take it as a member, which
closes the unit, and go on in the same region. In bit-fields of one storage unit size both come to
the same: a region is a whole number of units, so behind it the frontier lies where packing stands,
at the boundary of a unit, and a run that begins there is the same run with all bits moved by whole
units.
-/
namespace ObjectLayout

lemma nextMultiple_add {unit base : Nat} (h : 0 < unit) (hdvd : unit ∣ base) (value : Nat) :
    nextMultiple (base + value) unit = base + nextMultiple value unit := by
  obtain ⟨k, rfl⟩ := hdvd
  rw [nextMultiple, Nat.add_assoc, Nat.mul_add_div h, Nat.add_mul, Nat.mul_comm k unit,
    nextMultiple]

lemma Site.granted_dvd {site : Site} {align : Nat}
    (hsite : ∀ clamp ∈ site.packing, clamp.isPowerOfTwo) (h : align.isPowerOfTwo) :
    site.granted align ∣ align :=
  dvd_of_isPowerOfTwo (granted_isPowerOfTwo hsite h) h (site.granted_le align)

namespace BitPlace

/-- The same member with its first bit counted from `bits` bits before. -/
def shift (bits : Nat) (place : BitPlace) : BitPlace :=
  { place with bitOffset := bits + place.bitOffset }

lemma shift_shift (a b : Nat) (place : BitPlace) :
    (place.shift b).shift a = place.shift (a + b) := by
  simp [shift, Nat.add_assoc]

end BitPlace

namespace BitPacking

variable {unitBits base : Nat}

lemma start_add (hunit : 0 < unitBits) (hdvd : unitBits ∣ base) (position width : Nat) :
    start unitBits (base + position) width = base + start unitBits position width := by
  have hmod : (base + position) % unitBits = position % unitBits := by
    rw [Nat.add_mod, Nat.mod_eq_zero_of_dvd hdvd, Nat.zero_add, Nat.mod_mod]
  rw [start, start, hmod, nextMultiple_add hunit hdvd]
  split <;> rfl

/-- From a later unit on, the same members take the same bits of it. -/
lemma assign_add (hunit : 0 < unitBits) (hdvd : unitBits ∣ base) (position : Nat)
    (items : List BitItem) : assign unitBits (base + position) items =
      (assign unitBits position items).map (BitPlace.shift base) := by
  induction items generalizing position with
  | nil => rfl
  | cons item items ih =>
    simp only [assign, List.map_cons, start_add hunit hdvd, Nat.add_assoc, ih, BitPlace.shift]

lemma finish_add (hunit : 0 < unitBits) (hdvd : unitBits ∣ base) (position : Nat)
    (items : List BitItem) :
    finish unitBits (base + position) items = base + finish unitBits position items := by
  induction items generalizing position with
  | nil => rfl
  | cons item items ih => simp only [finish, start_add hunit hdvd, Nat.add_assoc, ih]

lemma assign_append (position : Nat) (items others : List BitItem) :
    assign unitBits position (items ++ others) = assign unitBits position items ++
      assign unitBits (finish unitBits position items) others := by
  induction items generalizing position with
  | nil => rfl
  | cons item items ih => rw [List.cons_append, assign, ih, assign, finish, List.cons_append]

lemma finish_append (position : Nat) (items others : List BitItem) :
    finish unitBits position (items ++ others) =
      finish unitBits (finish unitBits position items) others := by
  induction items generalizing position with
  | nil => rfl
  | cons item items ih => rw [List.cons_append, finish, ih, finish]

end BitPacking

/-- Where a bit-field lies, its first bit counted from the start of the object. -/
def PlacedField.bitPlace (field : PlacedField) : BitPlace :=
  let span := field.bits.getD ⟨0, 0⟩
  ⟨field.name, 8 * field.offset + span.offset, span.width⟩

namespace FieldGroup

variable {site : Site} {extent : FieldType → Except Rejection (Nat × Nat)} {unit : Nat}
  {frontier : Frontier} {fields : List Field} {groups : List FieldGroup}

/-- Place bit-fields as one packed region, markers among them, with the bits that they take. -/
def placeTogether (site : Site) (frontier : Frontier) (unit : Nat) (fields : List Field) :
    Except Rejection (Frontier × List BitPlace) := do
  let packed := PackedRun.ofMembers unit (bitItems fields)
  let start ← frontier.alignFor site packed.align
  let next ← start.advance site packed.size
  return (next, packed.bits.map (BitPlace.shift (8 * start.offset)))

/-- The bits that placed bit-fields take. -/
def bitPlaces (result : Frontier × List PlacedField) : Frontier × List BitPlace :=
  (result.1, result.2.map PlacedField.bitPlace)

lemma bitPlace_placeBit (start unit : Nat) (bit : BitPlace) :
    (placeBit start unit bit).bitPlace = bit.shift (8 * start) := by
  simp only [PlacedField.bitPlace, placeBit, Option.getD_some, BitPlace.shift, bit_of_unit]

def isRun : FieldGroup → Bool
  | .run _ _ => true
  | .plain _ | .marker _ => false

/-- Bit-fields of one unit, in runs between which there are markers. -/
inductive Marked (unit : Nat) : List FieldGroup → Prop
  | nil : Marked unit []
  | marker {field : Field} {groups : List FieldGroup} (width : field.bitWidth = some 0)
      (same : field.storageUnit = unit) (rest : Marked unit groups) :
      Marked unit (.marker field :: groups)
  | run {fields : List Field} {groups : List FieldGroup} (rest : Marked unit groups)
      (ends : ∀ group ∈ groups.head?, group.isRun = false) :
      Marked unit (.run unit fields :: groups)

lemma marked_ofFields
    (h : ∀ field ∈ fields, field.bitWidth.isSome ∧ field.storageUnit = unit) :
    Marked unit (ofFields fields) := by
  induction fields with
  | nil => exact .nil
  | cons field rest ih =>
    obtain ⟨⟨hbits, rfl⟩, hrest⟩ := List.forall_mem_cons.mp h
    rw [ofFields]
    split
    · next hnone =>
      rw [hnone] at hbits
      cases hbits
    · next hzero => exact .marker hzero rfl (ih hrest)
    · have hothers := ih hrest
      cases hgroups : ofFields rest with
      | nil => exact .run .nil (by simp)
      | cons group groups =>
        rw [hgroups] at hothers
        cases hothers with
        | marker hzero hsame hothers => exact .run (.marker hzero hsame hothers) (by simp [isRun])
        | run hothers ends =>
          rw [joinRun, if_pos rfl]
          exact .run hothers ends

lemma Marked.any_isRun (h : Marked unit groups) {field : Field}
    (hmem : field ∈ groups.flatMap FieldGroup.fields) (hwidth : field.bitWidth ≠ some 0) :
    groups.any isRun = true := by
  induction h with
  | nil => simp at hmem
  | marker hzero _ _ ih =>
    rw [List.flatMap_cons, List.mem_append] at hmem
    rcases hmem with hmem | hmem
    · rw [List.mem_singleton.mp hmem] at hwidth
      exact absurd hzero hwidth
    · simpa [isRun] using ih hmem
  | run _ _ _ => rfl

lemma bitItems_append (fields others : List Field) :
    bitItems (fields ++ others) = bitItems fields ++ bitItems others :=
  List.map_append

lemma placeAll_cons_bitPlaces {group : FieldGroup} {next : Frontier} {first : List PlacedField}
    (h : group.place site extent frontier = .ok (next, first)) :
    (placeAll site extent frontier (group :: groups)).map bitPlaces =
      ((placeAll site extent next groups).map bitPlaces).map fun result =>
        (result.1, first.map PlacedField.bitPlace ++ result.2) := by
  rw [placeAll, h]
  cases hrest : placeAll site extent next groups with
  | error e => simp [hrest, bind, Except.bind, Except.map]
  | ok result => simp [hrest, bind, Except.bind, Except.map, bitPlaces, pure, Except.pure]

end FieldGroup

namespace Frontier

variable {site : Site} {frontier next : Frontier} {align bytes : Nat}

lemma advance_of_not_holds (h : site.target.holds (frontier.offset + bytes) = false) :
    frontier.advance site bytes = .error (.sizeOverflow site.owner) := by
  simp [advance, Target.offset?, h, Site.require, bind, Except.bind]

/-- To count for the alignment and to round the frontier do not touch each other. -/
lemma alignFor_eq_map (frontier : Frontier) :
    frontier.alignFor site align = (frontier.roundTo site align).map fun start =>
      start.regard site align := by
  rw [alignFor, roundTo, roundTo, regard]
  cases site.require (site.target.roundUp? frontier.offset (site.granted align)) <;> rfl

lemma roundTo_of_dvd (halign : (site.granted align).isPowerOfTwo)
    (hdvd : site.granted align ∣ frontier.offset)
    (hholds : site.target.holds frontier.offset = true) :
    frontier.roundTo site align = .ok frontier := by
  rw [roundTo_eq_ok, roundUp_of_dvd halign hdvd]
  exact ⟨hholds, rfl⟩

/-- What has been rounded once stays where it is. -/
lemma roundTo_self (halign : (site.granted align).isPowerOfTwo)
    (h : frontier.roundTo site align = .ok next) :
    next.roundTo site align = .ok next := by
  obtain ⟨hholds, rfl⟩ := roundTo_eq_ok.mp h
  exact roundTo_of_dvd halign (dvd_roundUp halign _) hholds

end Frontier

namespace FieldGroup

open BitPacking

variable {site : Site} {extent : FieldType → Except Rejection (Nat × Nat)} {unit : Nat}
  {frontier : Frontier} {fields : List Field} {groups : List FieldGroup}

/-- All groups round to the same unit, so it can as well be done before the first of them. -/
lemma placeAll_roundTo (halign : (site.granted unit).isPowerOfTwo) (h : Marked unit groups)
    (hne : groups ≠ []) : placeAll site extent frontier groups =
      frontier.roundTo site unit >>= fun start => placeAll site extent start groups := by
  cases hround : frontier.roundTo site unit with
  | error e =>
    cases h with
    | nil => exact absurd rfl hne
    | marker _ hsame _ => rw [placeAll, place, hsame, hround]; rfl
    | run _ _ =>
      rw [placeAll, place]
      dsimp only [PackedRun.ofMembers]
      rw [Frontier.alignFor_eq_map, hround]
      rfl
  | ok start =>
    have hagain := Frontier.roundTo_self halign hround
    cases h with
    | nil => exact absurd rfl hne
    | marker _ hsame _ =>
      change _ = placeAll site extent start _
      rw [placeAll, placeAll, place, place, hsame, hround, hagain]
    | run _ _ =>
      change _ = placeAll site extent start _
      rw [placeAll, placeAll, place, place]
      dsimp only [PackedRun.ofMembers]
      rw [Frontier.alignFor_eq_map, Frontier.alignFor_eq_map, hround, hagain]

/-- A marker leaves the frontier where it is if that is on its boundary. -/
lemma place_marker_of_dvd {field : Field} (halign : (site.granted unit).isPowerOfTwo)
    (hsame : field.storageUnit = unit) (hdvd : site.granted unit ∣ frontier.offset)
    (hholds : site.target.holds frontier.offset = true) :
    (FieldGroup.marker field).place site extent frontier =
      .ok (frontier, [⟨field.name, frontier.offset, 0, some ⟨0, 0⟩⟩]) := by
  rw [place, hsame, Frontier.roundTo_of_dvd halign hdvd hholds]
  rfl

/-- A run begins at the frontier if that is on its boundary. -/
lemma place_run_of_dvd (halign : (site.granted unit).isPowerOfTwo)
    (hdvd : site.granted unit ∣ frontier.offset)
    (hholds : site.target.holds frontier.offset = true) :
    (FieldGroup.run unit fields).place site extent frontier =
      ((frontier.regard site unit).advance site
        (PackedRun.ofMembers unit (bitItems fields)).size).map fun next =>
        (next, (PackedRun.ofMembers unit (bitItems fields)).bits.map
          (placeBit frontier.offset unit)) := by
  rw [place]
  dsimp only [PackedRun.ofMembers]
  rw [Frontier.alignFor_eq_map, Frontier.roundTo_of_dvd halign hdvd hholds]
  rfl

/-- Take members into a region that begins at the frontier and has bits taken up to `position`. -/
def packOn (site : Site) (frontier : Frontier) (unit position : Nat) (items : List BitItem) :
    Except Rejection (Frontier × List BitPlace) := do
  let next ← frontier.advance site
    (nextMultiple (finish (unit * 8) position items) (unit * 8) / 8)
  return (next, (assign (unit * 8) position items).map (BitPlace.shift (8 * frontier.offset)))

lemma packOn_append (position : Nat) (items others : List BitItem) :
    packOn site frontier unit position (items ++ others) =
      (packOn site frontier unit (finish (unit * 8) position items) others).map fun result =>
        (result.1, (assign (unit * 8) position items).map
          (BitPlace.shift (8 * frontier.offset)) ++ result.2) := by
  rw [packOn, packOn, finish_append, assign_append]
  generalize Frontier.advance site frontier _ = last
  cases last with
  | error e => rfl
  | ok last => simp [bind, Except.bind, Except.map, pure, Except.pure]

/-- A member of width zero moves packing on to the end of the unit. -/
lemma packOn_marker (position : Nat) (name : String) (others : List BitItem) :
    packOn site frontier unit position (⟨name, 0⟩ :: others) =
      (packOn site frontier unit (nextMultiple position (unit * 8)) others).map fun result =>
        (result.1, BitPlace.shift (8 * frontier.offset)
          ⟨name, nextMultiple position (unit * 8), 0⟩ :: result.2) := by
  have hfinish : finish (unit * 8) position [⟨name, 0⟩] = nextMultiple position (unit * 8) := by
    simp [finish, BitPacking.start]
  have hassign : assign (unit * 8) position [⟨name, 0⟩] =
      [⟨name, nextMultiple position (unit * 8), 0⟩] := by
    simp [assign, BitPacking.start]
  rw [← List.singleton_append, packOn_append, hfinish, hassign]
  rfl

/-- Once a part of the members is too much for the target, so are all. -/
lemma packOn_of_not_holds (hunit : 0 < unit) {position : Nat} {items : List BitItem}
    (h : site.target.holds (frontier.offset +
      nextMultiple (finish (unit * 8) position items) (unit * 8) / 8) = false)
    (others : List BitItem) : packOn site frontier unit position (items ++ others) =
      .error (.sizeOverflow site.owner) := by
  have hlast : site.target.holds (frontier.offset +
      nextMultiple (finish (unit * 8) position (items ++ others)) (unit * 8) / 8) = false := by
    refine Bool.eq_false_iff.mpr fun hlast => absurd ?_ (Bool.eq_false_iff.mp h)
    refine Target.holds_of_le hlast (Nat.add_le_add_left (Nat.div_le_div_right ?_) _)
    rw [finish_append]
    exact nextMultiple_mono (le_finish (Nat.mul_pos hunit (by decide))) _
  rw [packOn, Frontier.advance_of_not_holds hlast]
  rfl

lemma bitPlace_marker (name : String) (start unit position : Nat) :
    PlacedField.bitPlace ⟨name, start + nextMultiple position (unit * 8) / 8, 0, some ⟨0, 0⟩⟩ =
      BitPlace.shift (8 * start) ⟨name, nextMultiple position (unit * 8), 0⟩ := by
  simp [PlacedField.bitPlace, BitPlace.shift, Nat.mul_add, PackedRun.eight_mul_bytes]

/-- A run whose region begins where whole units are taken has the bits that packing on gives. -/
lemma bitPlaces_run (hunit : 0 < unit) {first start position : Nat} (hdvd : unit * 8 ∣ position)
    (hfirst : 8 * first = 8 * start + position) (items : List BitItem) :
    ((PackedRun.ofMembers unit items).bits.map (placeBit first unit)).map PlacedField.bitPlace =
      (assign (unit * 8) position items).map (BitPlace.shift (8 * start)) := by
  have hassign : assign (unit * 8) position items =
      (assign (unit * 8) 0 items).map (BitPlace.shift position) :=
    assign_add (Nat.mul_pos hunit (by decide)) hdvd 0 items
  rw [hassign, PackedRun.ofMembers, List.map_map, List.map_map]
  refine List.map_congr_left fun bit _ => ?_
  rw [Function.comp_apply, Function.comp_apply, bitPlace_placeBit, BitPlace.shift_shift, hfirst]

/-- The region of such a run ends where packing stands, rounded up to whole units. -/
lemma run_stop (hunit : 0 < unit) {first start position : Nat} (hdvd : unit * 8 ∣ position)
    (hfirst : 8 * first = 8 * start + position) (items : List BitItem) :
    first + (PackedRun.ofMembers unit items).size =
      start + nextMultiple (finish (unit * 8) position items) (unit * 8) / 8 := by
  have hbits : 0 < unit * 8 := Nat.mul_pos hunit (by decide)
  have hfinish : finish (unit * 8) position items = position + finish (unit * 8) 0 items :=
    finish_add hbits hdvd 0 items
  have hround := nextMultiple_add hbits hdvd (finish (unit * 8) 0 items)
  have := PackedRun.eight_mul_bytes unit (finish (unit * 8) 0 items)
  have := PackedRun.eight_mul_bytes unit (position + finish (unit * 8) 0 items)
  rw [hfinish, PackedRun.ofMembers]
  dsimp only
  omega

/-- Placing the groups goes on as packing their members does: from a frontier at the end of the
units that packing has taken up to `position` to the end of all units, with the same bits. -/
theorem placeAll_marked (hunit : 0 < unit) (halign : (site.granted unit).isPowerOfTwo)
    (hdvd : site.granted unit ∣ unit) (h : Marked unit groups) {start position align : Nat}
    (hstart : site.granted unit ∣ start)
    (hposition : unit * 8 ∣ position ∨ ∀ group ∈ groups.head?, group.isRun = false)
    (hholds : site.target.holds (start + nextMultiple position (unit * 8) / 8) = true) :
    (placeAll site extent ⟨start + nextMultiple position (unit * 8) / 8, align⟩ groups).map
        bitPlaces =
      packOn site ⟨start, if groups.any isRun then max align (site.granted unit) else align⟩ unit
        position (bitItems (groups.flatMap FieldGroup.fields)) := by
  have hbits : 0 < unit * 8 := Nat.mul_pos hunit (by decide)
  have haligned (position : Nat) :
      site.granted unit ∣ start + nextMultiple position (unit * 8) / 8 :=
    Nat.dvd_add hstart (Nat.dvd_trans hdvd (PackedRun.unit_dvd_bytes unit position))
  induction h generalizing position align with
  | nil =>
    rw [packOn, Frontier.advance_eq_ok.mpr ⟨hholds, rfl⟩]
    rfl
  | @marker field groups hzero hsame rest ih =>
    have hplace : (FieldGroup.marker field).place site extent
        ⟨start + nextMultiple position (unit * 8) / 8, align⟩ = .ok (_, _) :=
      place_marker_of_dvd halign hsame (haligned position) hholds
    have hround := nextMultiple_of_dvd hbits (dvd_nextMultiple position (unit * 8))
    have hrest := @ih (nextMultiple position (unit * 8)) align (Or.inl (dvd_nextMultiple _ _))
      (by rwa [hround])
    have hitem : bitItems (FieldGroup.marker field).fields = [⟨field.name, 0⟩] := by
      simp [FieldGroup.fields, bitItems, hzero]
    have hany : (FieldGroup.marker field :: groups).any isRun = groups.any isRun := rfl
    rw [hround] at hrest
    rw [placeAll_cons_bitPlaces hplace, hrest, List.flatMap_cons, bitItems_append, hitem,
      List.singleton_append, packOn_marker, hany]
    simp only [List.map_cons, List.map_nil, List.singleton_append, bitPlace_marker]
  | @run fields groups rest ends ih =>
    have hwhole : unit * 8 ∣ position := hposition.resolve_right (by simp [isRun])
    have hoffset := haligned position
    rw [nextMultiple_of_dvd hbits hwhole] at hholds hoffset ⊢
    generalize hfirst : start + position / 8 = first at hholds hoffset ⊢
    have hbytes : 8 * first = 8 * start + position := by
      have := Nat.mul_div_cancel' (Nat.dvd_trans (Nat.dvd_mul_left 8 unit) hwhole)
      omega
    have hend := run_stop hunit hwhole hbytes (bitItems fields)
    have hplace : (FieldGroup.run unit fields).place site extent ⟨first, align⟩ = _ :=
      place_run_of_dvd halign hoffset hholds
    have hitems : (FieldGroup.run unit fields).fields = fields := rfl
    have hany : (FieldGroup.run unit fields :: groups).any isRun = true := rfl
    rw [List.flatMap_cons, bitItems_append, hitems, hany, if_pos rfl]
    cases hfits : site.target.holds
        (first + (PackedRun.ofMembers unit (bitItems fields)).size) with
    | false =>
      rw [placeAll, hplace, Frontier.advance_of_not_holds hfits,
        packOn_of_not_holds hunit (hend ▸ hfits)]
      rfl
    | true =>
      have hrest := @ih (finish (unit * 8) position (bitItems fields))
        (max align (site.granted unit)) (Or.inr ends) (by rwa [← hend])
      rw [← hend, max_assoc, max_self, ite_self] at hrest
      rw [Frontier.advance_eq_ok.mpr ⟨hfits, rfl⟩] at hplace
      rw [placeAll_cons_bitPlaces hplace, packOn_append, bitPlaces_run hunit hwhole hbytes]
      exact congrArg _ hrest

/-- A list of bit-fields in units of one size, markers among them and not markers alone, is placed
as one packed region at the frontier rounded once: with success in the same cases, and then with the
same bits, the same frontier and the same alignment. -/
theorem placeAll_eq_placeTogether (hclamp : ∀ clamp ∈ site.packing, clamp.isPowerOfTwo)
    (hfields : ∀ field ∈ fields, field.WellFormed site.target ∧ field.bitWidth.isSome ∧
      field.storageUnit = unit)
    (hdata : ∃ field ∈ fields, ∃ width, field.bitWidth = some (width + 1)) :
    (placeAll site extent frontier (ofFields fields)).map bitPlaces =
      placeTogether site frontier unit fields := by
  obtain ⟨field, hmem, width, hwidth⟩ := hdata
  obtain ⟨hfield, hbits, hsame⟩ := hfields field hmem
  have hpower : unit.isPowerOfTwo := hsame ▸ storageUnit_isPowerOfTwo hfield hbits
  have halign := Site.granted_isPowerOfTwo hclamp hpower
  have hmarked := marked_ofFields fun field hmem => (hfields field hmem).2
  have hall := flatMap_fields_ofFields fields
  have hany : (ofFields fields).any isRun = true :=
    hmarked.any_isRun (hall ▸ hmem) (by simp [hwidth])
  rw [placeAll_roundTo halign hmarked (by rintro hnil; simp [hnil] at hany), placeTogether]
  dsimp only [PackedRun.ofMembers]
  rw [Frontier.alignFor_eq_map]
  cases hround : frontier.roundTo site unit with
  | error e => rfl
  | ok start =>
    obtain ⟨hholds, rfl⟩ := Frontier.roundTo_eq_ok.mp hround
    have hpacked : (placeAll site extent ⟨roundUp frontier.offset (site.granted unit) +
        nextMultiple 0 (unit * 8) / 8, frontier.align⟩ (ofFields fields)).map bitPlaces = _ :=
      placeAll_marked (Nat.pos_of_isPowerOfTwo hpower) halign (Site.granted_dvd hclamp hpower)
        hmarked (dvd_roundUp halign _) (Or.inl (Nat.dvd_zero _)) (by rwa [nextMultiple_zero])
    rw [nextMultiple_zero, hall, hany, if_pos rfl] at hpacked
    exact hpacked

/-- A bit-field in units of an integer. -/
def flag (name : String) (width : Nat) : Field :=
  { name := name, type := .int, bitWidth := some width }

lemma flag_wellFormed (name : String) {width : Nat} (h : width ≤ 32) :
    (flag name width).WellFormed Target.lp64 := by
  refine ⟨?_, ?_, ?_, ?_⟩
  · rintro size align ⟨⟩
    decide
  · rintro align ⟨⟩
    exact ⟨⟨2, rfl⟩, (by decide : 4 ≤ 16)⟩
  · rintro _ ⟨⟩
    exact ⟨rfl, 4, 4, rfl, h⟩
  · rintro align ⟨⟩

/-- Flags with markers before, between and behind them. -/
def markedFlags : List Field :=
  [flag "" 0, flag "a" 3, flag "" 0, flag "" 0, flag "b" 30, flag "c" 5, flag "" 0]

theorem placeAll_eq_placeTogether_markedFlags :
    let site : Site := ⟨"Flags", Target.lp64, some 2⟩
    let extent := Composite.extent Target.lp64 fun part => .error (.unknownType part)
    (placeAll site extent ⟨5, 1⟩ (ofFields markedFlags)).map bitPlaces =
        placeTogether site ⟨5, 1⟩ 4 markedFlags ∧
      placeTogether site ⟨5, 1⟩ 4 markedFlags =
        .ok (⟨18, 2⟩, [⟨"", 48, 0⟩, ⟨"a", 48, 3⟩, ⟨"", 80, 0⟩, ⟨"", 80, 0⟩, ⟨"b", 80, 30⟩,
          ⟨"c", 112, 5⟩, ⟨"", 144, 0⟩]) := by
  refine ⟨placeAll_eq_placeTogether ?_ ?_ ?_, rfl⟩
  · rintro clamp ⟨⟩
    exact ⟨1, rfl⟩
  · simp only [markedFlags, List.forall_mem_cons, List.not_mem_nil, false_implies, implies_true]
    refine ⟨?_, ?_, ?_, ?_, ?_, ?_, ?_, trivial⟩ <;>
      exact ⟨flag_wellFormed _ (by decide), rfl, rfl⟩
  · exact ⟨flag "a" 3, by decide, 2, rfl⟩

end FieldGroup

end ObjectLayout
