import ObjectLayout.Proofs.VerdictAgreement

/-!
# The geometry of standard layout

A core that takes room holds the data or the slot of a type that is owned along some path. Standard
layout leaves one type with data in the hierarchy and one owned path to it, so at most one base of
such a type takes room, and none if the type declares data itself. What comes first then lies at the
beginning of the object, and markers before it stay there.
-/
namespace ObjectLayout

/-- Where no two members have a property, at most one has it. -/
lemma length_filter_le_one {α : Type} {p : α → Bool} {l : List α}
    (h : l.Pairwise fun a b => p a = false ∨ p b = false) : (l.filter p).length ≤ 1 := by
  induction h with
  | nil => exact Nat.zero_le 1
  | @cons a l hhead _ ih =>
    cases ha : p a with
    | false => rwa [List.filter_cons_of_neg (by simp [ha])]
    | true =>
      have hrest : l.filter p = [] := by
        refine List.filter_eq_nil_iff.mpr fun b hb => ?_
        simpa [ha] using hhead b hb
      rw [List.filter_cons_of_pos ha, hrest]
      exact le_refl 1

/-- A relation between the members of a list passes on to members that correspond to them. -/
lemma pairwise_of_forall₂ {α β : Type} {R : α → β → Prop} {P : α → α → Prop} {Q : β → β → Prop}
    {l : List α} {r : List β} (h : List.Forall₂ R l r)
    (hR : ∀ a a' b b', R a b → R a' b' → P a a' → Q b b') (hl : l.Pairwise P) : r.Pairwise Q := by
  induction h with
  | nil => exact .nil
  | cons hab hrest ih =>
    obtain ⟨hhead, htail⟩ := List.pairwise_cons.mp hl
    refine List.pairwise_cons.mpr ⟨fun b' hb' => ?_, ih htail⟩
    obtain ⟨a', ha', hab'⟩ := exists_of_mem_right hrest hb'
    exact hR _ _ _ _ hab hab' (hhead a' ha')

namespace Draft

variable {site : Site} {draft last : Draft} {sharing : Sharing} {bytes : TypeId × Core → Nat}
  {cores : List (TypeId × Core)}

lemma embedAll_empty (h : draft.embedAll site sharing bytes cores = .ok last)
    (hempty : ∀ core ∈ cores, core.2.dataSize = 0) :
    last.frontier.offset = draft.frontier.offset := by
  induction cores generalizing draft with
  | nil =>
    cases h
    rfl
  | cons core cores ih =>
    obtain ⟨next, hnext, h⟩ := foldlM_cons_eq_ok.mp h
    obtain ⟨start, hembeds⟩ := embed_eq_ok hnext
    obtain ⟨hhead, htail⟩ := List.forall_mem_cons.mp hempty
    obtain ⟨rfl, hoffset⟩ := hembeds.empty hhead
    rw [ih h htail, hoffset]

/-- From the beginning of a type, a core that takes room alone lies there. -/
lemma embedAll_alone (h : draft.embedAll site sharing bytes cores = .ok last)
    (hstart : draft.frontier.offset = 0)
    (halone : cores.Pairwise fun a b => a.2.dataSize = 0 ∨ b.2.dataSize = 0) :
    ∃ bases, last.bases = draft.bases ++ bases ∧
      ∀ base ∈ bases, base.size ≠ 0 → base.offset = 0 := by
  induction cores generalizing draft with
  | nil =>
    cases h
    exact ⟨[], (List.append_nil _).symm, by simp⟩
  | cons core cores ih =>
    obtain ⟨next, hnext, h⟩ := foldlM_cons_eq_ok.mp h
    obtain ⟨start, hembeds⟩ := embed_eq_ok hnext
    obtain ⟨hhead, htail⟩ := List.pairwise_cons.mp halone
    rcases Nat.eq_zero_or_pos core.2.dataSize with hempty | hfilled
    · obtain ⟨rfl, hoffset⟩ := hembeds.empty hempty
      obtain ⟨bases, hbases, hzero⟩ := ih h (hoffset.trans hstart) htail
      refine ⟨_ :: bases, by rw [hbases, hembeds.bases, List.append_assoc]; rfl, ?_⟩
      exact List.forall_mem_cons.mpr ⟨fun _ => hstart, hzero⟩
    · obtain ⟨bases, hbases, hsizes⟩ := embedAll_sizes h
      refine ⟨_ :: bases, by rw [hbases, hembeds.bases, List.append_assoc]; rfl, ?_⟩
      refine List.forall_mem_cons.mpr ⟨fun _ => ?_, fun base hmem hsize => ?_⟩
      · rw [(hembeds.filled hfilled).1, hstart, roundUp_zero]
      · obtain ⟨other, hother, heq⟩ := exists_of_mem_right hsizes hmem
        have hempty := (hhead other hother).resolve_left (Nat.ne_of_gt hfilled)
        exact absurd (heq.trans (if_pos hempty)) hsize

end Draft

namespace FieldGroup

variable {site : Site} {extent : FieldType → Except Rejection (Nat × Nat)}
  {frontier last : Frontier} {placed : List PlacedField} {field : Field}
  {markers rest : List Field}

lemma ofFields_cons_marker (h : field.isMarker = true) :
    ofFields (field :: rest) = .marker field :: ofFields rest := by
  have hwidth : field.bitWidth = some 0 := by simpa [Field.isMarker] using h
  rw [ofFields, hwidth]

/-- Markers at the beginning of a type stay there. -/
lemma placeAll_markers (hmarkers : ∀ field ∈ markers, field.isMarker = true)
    (hstart : frontier.offset = 0)
    (h : placeAll site extent frontier (ofFields (markers ++ rest)) = .ok (last, placed)) :
    ∃ next first others, next.offset = 0 ∧ first.length = markers.length ∧
      placeAll site extent next (ofFields rest) = .ok (last, others) ∧
      placed = first ++ others := by
  induction markers generalizing frontier placed with
  | nil => exact ⟨frontier, [], placed, hstart, rfl, h, rfl⟩
  | cons marker markers ih =>
    obtain ⟨hhead, htail⟩ := List.forall_mem_cons.mp hmarkers
    rw [List.cons_append, ofFields_cons_marker hhead] at h
    obtain ⟨next, one, others, hgroup, hrest, rfl⟩ := placeAll_cons_eq_ok h
    obtain ⟨rfl, rfl⟩ := place_marker_eq_ok hgroup
    obtain ⟨middle, first, others, hmiddle, hlength, hlast, rfl⟩ :=
      ih htail (by simp [hstart]) hrest
    exact ⟨middle, _ :: first, others, hmiddle, by simp [hlength], hlast, rfl⟩

lemma joinRun_eq_run_cons (field : Field) (groups : List FieldGroup) :
    ∃ fields others, joinRun field groups = .run field.storageUnit (field :: fields) :: others := by
  unfold joinRun
  split
  · split
    · next heq => exact ⟨_, _, by rw [heq]⟩
    · exact ⟨[], _, rfl⟩
  · exact ⟨[], _, rfl⟩

/-- A field that is no marker lies where it finds the beginning of a type. -/
lemma placeAll_first (hfield : field.isMarker = false) (hstart : frontier.offset = 0)
    (h : placeAll site extent frontier (ofFields (field :: rest)) = .ok (last, placed)) :
    ∃ first others, placed = first :: others ∧ first.name = field.name ∧ first.offset = 0 ∧
      first.bits = field.bitWidth.map fun width => ⟨0, width⟩ := by
  rw [ofFields] at h
  split at h
  · next hwidth =>
    obtain ⟨next, one, others, hgroup, -, rfl⟩ := placeAll_cons_eq_ok h
    obtain ⟨size, natural, -, start, rfl, -, rfl⟩ := place_plain_eq_ok hgroup
    exact ⟨_, others, rfl, rfl, by simp [hstart], by rw [hwidth]; rfl⟩
  · next hwidth => simp [Field.isMarker, hwidth] at hfield
  · next width hwidth =>
    obtain ⟨fields, groups, hjoin⟩ := joinRun_eq_run_cons field (ofFields rest)
    rw [hjoin] at h
    obtain ⟨next, one, others, hgroup, -, rfl⟩ := placeAll_cons_eq_ok h
    obtain ⟨start, rfl, -, rfl⟩ := place_run_eq_ok hgroup
    have hbit : BitPacking.start (field.storageUnit * 8) 0 (width + 1) = 0 := by
      unfold BitPacking.start
      split
      · exact nextMultiple_zero _
      · rfl
    refine ⟨_, _, rfl, rfl, ?_, ?_⟩
    · simp [placeBit, hwidth, hbit, hstart]
    · simp [placeBit, hwidth, hbit]

end FieldGroup

namespace TypeTable

variable {table : TypeTable} {target : Target} {id type : TypeId} {c : Composite}
  {placed : Placed} {align : Nat}

/-- `part` is `id` itself or reached from it along owned bases. -/
def Owns (table : TypeTable) (id part : TypeId) : Prop :=
  part = id ∨ ∃ path, table.OwnedPath id path part

lemma Owns.reaches (h : table.Owns id type) : table.Reaches id type := by
  rcases h with rfl | ⟨path, hpath⟩
  · exact .refl table _
  · exact hpath.inherits.below.reaches

/-- What the base at a position owns is owned along a path that begins with the position. -/
lemma Owns.ownedPath {base : Base} {i : Nat} (h : table.Owns base.type type)
    (hc : table.get? id = some c) (hlisted : c.bases[i]? = some base)
    (howned : base.isShared = false) : ∃ rest, table.OwnedPath id (i :: rest) type := by
  rcases h with rfl | ⟨path, hpath⟩
  · exact ⟨[], .last hc hlisted howned⟩
  · exact ⟨path, .step hc hlisted howned hpath⟩

/-- What an owned base owns is owned. -/
lemma Owns.of_ownedBase {base : Base} (h : table.Owns base.type type)
    (hc : table.get? id = some c) (hmem : base ∈ c.ownedBases) :
    ∃ path, table.OwnedPath id path type := by
  obtain ⟨hlisted, howned⟩ := List.mem_filter.mp hmem
  obtain ⟨i, hi⟩ := List.mem_iff_getElem?.mp hlisted
  obtain ⟨rest, hpath⟩ := h.ownedPath hc hi (by simpa using howned)
  exact ⟨_, hpath⟩

/-- A core takes room only for the data or the slot of a type that is owned. -/
theorem PlacedAs.exists_content (h : table.PlacedAs target id (.ok placed))
    (hfilled : 0 < placed.core.dataSize) : ∃ part c, table.Owns id part ∧
      table.get? part = some c ∧ (c.introducesDispatch = true ∨ c.declaresData = true) := by
  induction h using ok_induction with
  | @step id placed c part h defined parts steps ih =>
    by_cases hself : c.introducesDispatch = true ∨ c.declaresData = true
    · exact ⟨id, c, Or.inl rfl, defined, hself⟩
    obtain ⟨hdispatch, hdata⟩ := not_or.mp hself
    have hopened : steps.opened.frontier.offset = 0 := by
      rw [Composite.openSlot_eq_ok steps.slot, if_neg]
      simp [Composite.opensSlot, hdispatch]
    have hmarkers : ∀ field ∈ c.fields, field.isMarker = true := by
      simpa [Composite.declaresData, Composite.members] using hdata
    rw [steps.core] at hfilled
    have hbased : steps.based.frontier.offset ≠ 0 := by
      intro hstart
      have hfields := steps.fields
      rw [← List.append_nil c.fields] at hfields
      obtain ⟨next, first, others, hnext, -, hlast, -⟩ :=
        FieldGroup.placeAll_markers hmarkers hstart hfields
      cases hlast
      exact Nat.ne_of_gt hfilled hnext
    obtain ⟨core, hcore, hroom⟩ : ∃ core ∈ steps.owned, core.2.dataSize ≠ 0 := by
      by_contra hall
      push Not at hall
      exact hbased ((Draft.embedAll_empty steps.bases hall).trans hopened)
    obtain ⟨base, hbase, p, hp, rfl⟩ := exists_of_mem_right steps.ownedLent hcore
    have hbelow := h.below_of_part defined (Or.inl (Composite.mem_references_of_ownedBase hbase))
    obtain ⟨source, c', howns, hc', hcontent⟩ :=
      ih base.type hbelow p hp (Nat.pos_of_ne_zero hroom)
    exact ⟨source, c', Or.inr (howns.of_ownedBase defined hbase), hc', hcontent⟩

/-- The owned bases of a type that takes part in standard layout, with what they lend. -/
structure StandardBases (table : TypeTable) (id : TypeId) (c : Composite)
    (cores : List (TypeId × Core)) : Prop where
  keeps : table.KeepsStandardLayout id c
  content : ∀ (i : Nat) (core : TypeId × Core), cores[i]? = some core → 0 < core.2.dataSize →
    ∃ rest layer, table.OwnedPath id (i :: rest) layer ∧ table.DataLayer id layer

namespace StandardBases

variable {cores : List (TypeId × Core)}

/-- Two bases that take room would own one type along two paths. -/
lemma alone (h : table.StandardBases id c cores) :
    cores.Pairwise fun a b => a.2.dataSize = 0 ∨ b.2.dataSize = 0 := by
  rw [List.pairwise_iff_getElem]
  intro i j hi hj hlt
  by_contra hboth
  obtain ⟨hfirst, hsecond⟩ := not_or.mp hboth
  obtain ⟨rest, layer, hpath, hlayer⟩ :=
    h.content i _ (List.getElem?_eq_getElem hi) (Nat.pos_of_ne_zero hfirst)
  obtain ⟨rest', layer', hpath', hlayer'⟩ :=
    h.content j _ (List.getElem?_eq_getElem hj) (Nat.pos_of_ne_zero hsecond)
  obtain rfl := h.keeps.layers layer layer' hlayer hlayer'
  have hsame := h.keeps.paths layer _ _ hpath hpath'
  exact Nat.ne_of_lt hlt (List.cons.inj hsame).1

/-- A type that declares data is the only layer, and no base of it takes room. -/
lemma empty (h : table.StandardBases id c cores) (hc : table.get? id = some c)
    (hacyclic : table.Acyclic id) (hdata : c.declaresData = true) :
    ∀ core ∈ cores, core.2.dataSize = 0 := by
  intro core hmem
  by_contra hroom
  obtain ⟨i, hi⟩ := List.mem_iff_getElem?.mp hmem
  obtain ⟨rest, layer, hpath, hlayer⟩ := h.content i core hi (Nat.pos_of_ne_zero hroom)
  obtain rfl := h.keeps.layers id layer ⟨Or.inl rfl, c, hc, hdata⟩ hlayer
  exact hacyclic.not_below hpath.inherits.below

end StandardBases

/-- A core of a base takes room for the data of a type that is owned through the base. -/
lemma standardBases_of_rules {part : TypeId → Except Rejection Placed}
    (hc : table.get? id = some c)
    (parts : ∀ other, table.Below id other → table.PlacedAs target other (part other))
    (steps : Composite.Construction target table.isPod part c placed)
    (hrules : ∀ part c, table.Reaches id part → table.get? part = some c →
      table.KeepsStandardLayout part c) : table.StandardBases id c steps.owned := by
  have hkeeps := hrules id c (.refl table id) hc
  have hlent := steps.ownedLent
  have hall : c.ownedBases = c.bases :=
    List.filter_eq_self.mpr fun base hmem => by simp [hkeeps.owned base hmem]
  rw [hall] at hlent
  refine ⟨hkeeps, fun i core hcore hfilled => ?_⟩
  obtain ⟨hi, rfl⟩ := List.getElem?_eq_some_iff.mp hcore
  have hbound : i < c.bases.length := hlent.length_eq ▸ hi
  obtain ⟨p, hp, hlends⟩ := hlent.get hbound hi
  rw [List.get_eq_getElem, List.get_eq_getElem] at hlends
  rw [List.get_eq_getElem] at hp
  have hmem := List.getElem_mem hbound
  have hbelow := ((refers_iff hc).mpr (Composite.mem_references_of_base hmem)).below
  rw [hlends] at hfilled
  obtain ⟨layer, c', howns, hc', hcontent⟩ :=
    PlacedAs.exists_content (hp ▸ parts _ hbelow) hfilled
  have hlayer := hrules layer c' (hbelow.reaches.trans howns.reaches) hc'
  have hdata : c'.declaresData = true := by simpa [hlayer.dispatch] using hcontent
  obtain ⟨rest, hpath⟩ :=
    howns.ownedPath hc (List.getElem?_eq_getElem hbound) (hkeeps.owned _ hmem)
  exact ⟨rest, layer, hpath, Or.inr hpath.inherits, c', hc', hdata⟩

/-- The bases of such a type that has no shared ones: one takes room at most, at the beginning. -/
lemma StandardBases.bases_geometry {part : TypeId → Except Rejection Placed}
    (steps : Composite.Construction target table.isPod part c placed)
    (h : table.StandardBases id c steps.owned) (hshared : placed.layout.sharedBases = []) :
    (placed.layout.bases.filter fun base => base.size ≠ 0).length ≤ 1 ∧
      (∀ base ∈ placed.layout.bases, base.size ≠ 0 → base.offset = 0) ∧
      ((∀ core ∈ steps.owned, core.2.dataSize = 0) →
        (∀ base ∈ placed.layout.bases, base.size = 0) ∧ steps.based.frontier.offset = 0) := by
  have hopened : steps.opened.frontier.offset = 0 := by
    rw [Composite.openSlot_eq_ok steps.slot, if_neg]
    simp [Composite.opensSlot, h.keeps.dispatch]
  obtain ⟨bases, hbased, hsizes⟩ := Draft.embedAll_sizes steps.bases
  obtain ⟨bases', hbased', hzero⟩ := Draft.embedAll_alone steps.bases hopened h.alone
  obtain rfl : bases = bases' := List.append_cancel_left (hbased.symm.trans hbased')
  have hbases : placed.layout.bases = bases := by
    rw [steps.bases_eq, steps.bases_split.2.1, hshared, List.append_nil, hbased,
      steps.opened_bases, List.nil_append]
  rw [hbases]
  refine ⟨length_filter_le_one ?_, hzero, fun hempty => ⟨fun base hmem => ?_, ?_⟩⟩
  · refine pairwise_of_forall₂ hsizes ?_ h.alone
    intro core other base base' hbase hbase' hcase
    simp only [ne_eq, decide_not, Bool.not_eq_false', decide_eq_true_eq]
    exact hcase.imp (fun hempty => hbase.trans (if_pos hempty))
      fun hempty => hbase'.trans (if_pos hempty)
  · obtain ⟨core, hcore, hsize⟩ := exists_of_mem_right hsizes hmem
    exact hsize.trans (if_pos (hempty core hcore))
  · exact (Draft.embedAll_empty steps.bases hempty).trans hopened

/-- Where the bases take no room, the first field behind the markers lies at the beginning. -/
lemma first_member {part : TypeId → Except Rejection Placed}
    (steps : Composite.Construction target table.isPod part c placed)
    (hstart : steps.based.frontier.offset = 0) (hdata : c.declaresData = true) :
    ∃ markers field rest first, c.fields = markers ++ field :: rest ∧
      (∀ marker ∈ markers, marker.isMarker = true) ∧ field.isMarker = false ∧
      placed.layout.fields[markers.length]? = some first ∧ first.name = field.name ∧
      first.offset = 0 ∧ first.bits = field.bitWidth.map fun width => ⟨0, width⟩ := by
  obtain ⟨field, hfirst⟩ :
      ∃ field, c.fields.find? (fun field => !field.isMarker) = some field := by
    rw [← Option.isSome_iff_exists, List.find?_isSome]
    simpa [Composite.declaresData, Composite.members] using hdata
  obtain ⟨hfield, markers, rest, hfields, hmarkers⟩ := List.find?_eq_some_iff_append.mp hfirst
  simp only [Bool.not_eq_true', Bool.not_not] at hfield hmarkers
  have hplaced := steps.fields
  rw [hfields] at hplaced
  obtain ⟨next, before, others, hnext, hlength, hrest, hsplit⟩ :=
    FieldGroup.placeAll_markers hmarkers hstart hplaced
  obtain ⟨first, after, rfl, hgeometry⟩ := FieldGroup.placeAll_first hfield hnext hrest
  refine ⟨markers, field, rest, first, hfields, hmarkers, hfield, ?_, hgeometry⟩
  rw [hsplit, ← hlength]
  simp

/-- A type with standard layout has no slot and no shared base; one of its bases takes room at most
and lies at the beginning; and if the type declares data, no base takes room and the first field
behind the markers lies at the beginning. -/
theorem standardLayout_geometry (table : TypeTable) (target : Target) (id : TypeId)
    (c : Composite) (layout : Layout) (questions : List TraitQuestion)
    (hc : table.get? id = some c) (hlayout : table.layout target id = .ok layout)
    (hstandard : ((table.classify id).run (table.traitsAfter questions)).1.standardLayout = true) :
    layout.dispatch = none ∧ layout.sharedBases = [] ∧
      (layout.bases.filter fun base => base.size ≠ 0).length ≤ 1 ∧
      (∀ base ∈ layout.bases, base.size ≠ 0 → base.offset = 0) ∧
      (c.declaresData = true → (∀ base ∈ layout.bases, base.size = 0) ∧
        ∃ markers field rest first, c.fields = markers ++ field :: rest ∧
          (∀ marker ∈ markers, marker.isMarker = true) ∧ field.isMarker = false ∧
          layout.fields[markers.length]? = some first ∧ first.name = field.name ∧
          first.offset = 0 ∧ first.bits = field.bitWidth.map fun width => ⟨0, width⟩) := by
  obtain ⟨align, placed, haccepted, hplaced, rfl⟩ := layout_eq_ok hlayout
  have hjudged := classify_judged id (traitsAfter_settled table questions)
  have hrules := ((hjudged.sound haccepted.not_broken).iff_forall_reaches
    haccepted.not_broken).2.mp hstandard
  have hbare : ¬ (placed.layout.dispatch.isSome ∨ placed.layout.sharedBases ≠ []) := by
    intro hbarred
    rw [hplaced.neither_of_slot_or_shared haccepted hjudged hbarred] at hstandard
    cases hstandard
  obtain ⟨hslot, hshared⟩ := not_or.mp hbare
  have hshared : placed.layout.sharedBases = [] := not_not.mp hshared
  obtain ⟨c', part, defined, parts, ⟨steps⟩⟩ := hplaced.construction
  obtain rfl : c = c' := Option.some.inj (hc.symm.trans defined)
  have hbases := standardBases_of_rules hc parts steps hrules
  obtain ⟨halone, hzero, hempty⟩ := hbases.bases_geometry steps hshared
  refine ⟨by simpa using hslot, hshared, halone, hzero, fun hdata => ?_⟩
  obtain ⟨hnone, hstart⟩ := hempty (hbases.empty hc haccepted.acyclic hdata)
  exact ⟨hnone, first_member steps hstart hdata⟩

/-- A record whose only base is empty but for a marker and an empty base, and which begins with a
marker of its own. -/
def markedRecord : TypeTable :=
  { entries := #[
      ⟨"Empty", some { name := "Empty" }⟩,
      ⟨"Mark", some
        { name := "Mark", bases := [{ type := ⟨0⟩ }]
          fields := [{ name := "", type := .int, bitWidth := some 0 }] }⟩,
      ⟨"Record", some
        { name := "Record", bases := [{ type := ⟨1⟩ }]
          fields := [{ name := "", type := .short, bitWidth := some 0 },
            { name := "flags", type := .char, bitWidth := some 3 },
            { name := "value", type := .double }] }⟩] }

/-- The bases and the first field share the beginning of the object. -/
theorem standardLayout_geometry_markedRecord :
    let c : Composite :=
      { name := "Record", bases := [{ type := ⟨1⟩ }]
        fields := [{ name := "", type := .short, bitWidth := some 0 },
          { name := "flags", type := .char, bitWidth := some 3 },
          { name := "value", type := .double }] }
    let layout : Layout :=
      { size := 16, align := 8, dataSize := 16, dispatch := none
        fields := [⟨"", 0, 0, some ⟨0, 0⟩⟩, ⟨"flags", 0, 1, some ⟨0, 3⟩⟩, ⟨"value", 8, 8, none⟩]
        bases := [⟨⟨1⟩, 0, 0, .owned⟩] }
    markedRecord.get? ⟨2⟩ = some c ∧ markedRecord.layout .lp64 ⟨2⟩ = .ok layout ∧
      ((markedRecord.classify ⟨2⟩).run
        (markedRecord.traitsAfter [.explanation ⟨1⟩])).1.standardLayout = true ∧
      c.declaresData = true ∧ (∀ base ∈ layout.bases, base.size = 0) ∧
      ∃ markers field rest first, c.fields = markers ++ field :: rest ∧
        (∀ marker ∈ markers, marker.isMarker = true) ∧ field.isMarker = false ∧
        layout.fields[markers.length]? = some first ∧ first.name = field.name ∧
        first.offset = 0 ∧ first.bits = field.bitWidth.map fun width => ⟨0, width⟩ := by
  intro c layout
  have hc : markedRecord.get? ⟨2⟩ = some c := by decide
  have hlayout : markedRecord.layout .lp64 ⟨2⟩ = .ok layout := by decide +kernel
  have hstandard : ((markedRecord.classify ⟨2⟩).run
      (markedRecord.traitsAfter [.explanation ⟨1⟩])).1.standardLayout = true := by decide +kernel
  have hdata : c.declaresData = true := by decide
  obtain ⟨-, -, -, -, hgeometry⟩ := standardLayout_geometry markedRecord .lp64 ⟨2⟩ c layout
    [.explanation ⟨1⟩] hc hlayout hstandard
  exact ⟨hc, hlayout, hstandard, hdata, hgeometry hdata⟩

end TypeTable

end ObjectLayout
