import ObjectLayout.Proofs.AcceptanceWalk
import ObjectLayout.Proofs.Inheritance
import ObjectLayout.Proofs.TraitHistory

/-!
# Traits of all reachable types

A type has a trait exactly if nothing that it reaches breaks a rule of it, where each rule looks at
one type and at the hierarchy above that type only. The verdicts, which sum up the parts of a type
by their own verdicts, come to the same, after any questions before.
-/
namespace ObjectLayout

lemma length_le_one_iff {α : Type} [DecidableEq α] {l : List α} (h : l.Nodup) :
    l.length ≤ 1 ↔ ∀ x ∈ l, ∀ y ∈ l, x = y := by
  rw [← List.toFinset_card_of_nodup h, Finset.card_le_one]
  simp only [List.mem_toFinset]

@[simp] lemma SpecialMembers.isEmpty_iff {members : SpecialMembers} :
    members.isEmpty = true ↔ members = {} := by
  obtain ⟨construct, copy, move, destroy⟩ := members
  cases construct <;> cases copy <;> cases move <;> cases destroy <;> decide

namespace Composite

/-- The type breaks no rule of triviality itself. -/
structure KeepsTriviality (c : Composite) : Prop where
  dispatch : c.introducesDispatch = false
  owned : ∀ base ∈ c.bases, base.isShared = false
  special : c.userProvided = {}
  initializers : ∀ field ∈ c.fields, field.hasInitializer = false

lemma accessGroups_length_le_one_iff {c : Composite} :
    c.accessGroups.length ≤ 1 ↔ ∀ f ∈ c.members, ∀ g ∈ c.members, f.access = g.access := by
  rw [accessGroups, length_le_one_iff (FirstSeen.nodup_noteAll List.nodup_nil _)]
  simp

lemma firstFieldViolations_eq_nil_iff {c : Composite} {ancestry : Ancestry} :
    c.firstFieldViolations ancestry = [] ↔
      ∀ field ∈ c.members.head?, ∀ id, field.type = .composite id → id ∉ ancestry.bases := by
  rw [firstFieldViolations]
  cases c.members.head? with
  | none => simp
  | some field =>
    obtain ⟨name, type, width, align, access, init⟩ := field
    cases type <;> simp [given_eq_nil]

end Composite

namespace TypeTable

/-- The type breaks no rule of standard layout itself, on its own or with its hierarchy. -/
structure KeepsStandardLayout (table : TypeTable) (id : TypeId) (c : Composite) : Prop where
  dispatch : c.introducesDispatch = false
  owned : ∀ base ∈ c.bases, base.isShared = false
  access : ∀ f ∈ c.members, ∀ g ∈ c.members, f.access = g.access
  layers : ∀ layer other, table.DataLayer id layer → table.DataLayer id other → layer = other
  paths : ∀ type path path', table.OwnedPath id path type → table.OwnedPath id path' type →
    path = path'
  firstField : ∀ field ∈ c.members.head?, ∀ type, field.type = .composite type →
    ¬ table.Inherits id type

variable {table : TypeTable} {id part : TypeId} {c : Composite} {found : Assessment}
  {assess : TypeId → Assessment} {ancestry : Ancestry}

/-- What all reachable types have, the type itself and everything below its references have. -/
lemma forall_reaches_iff (hc : table.get? id = some c) {Q : TypeId → Composite → Prop} :
    (∀ part c, table.Reaches id part → table.get? part = some c → Q part c) ↔
      Q id c ∧ ∀ next ∈ c.references, ∀ part c, table.Reaches next part →
        table.get? part = some c → Q part c := by
  constructor
  · refine fun h => ⟨h id c (.refl table id) hc, fun next hnext part c hreach => ?_⟩
    exact h part c (Relation.ReflTransGen.head ((refers_iff hc).mpr hnext) hreach)
  · rintro ⟨hid, hnext⟩ part c' hreach hc'
    rcases hreach.cases_head with rfl | ⟨next, hrefers, hrest⟩
    · obtain rfl : c = c' := Option.some.inj (hc.symm.trans hc')
      exact hid
    · exact hnext next ((refers_iff hc).mp hrefers) part c' hrest hc'

/-- The parts of a type have a trait of plain old data if the types referred to have it. -/
lemma forall_parts_iff (trait : Verdict → Bool) (hpod : trait .pod = true) :
    ((∀ base ∈ c.bases, trait (assess base.type).verdict = true) ∧
        ∀ field ∈ c.fields, trait (field.type.verdict assess) = true) ↔
      ∀ part ∈ c.references, trait (assess part).verdict = true := by
  simp only [Composite.mem_references_iff, or_imp, forall_and, forall_exists_index, and_imp,
    forall_apply_eq_imp_iff₂]
  refine and_congr_right fun _ => ⟨fun h part field hmem htype => ?_, fun h field hmem => ?_⟩
  · have hfield := h field hmem
    rwa [htype] at hfield
  · cases htype : field.type with
    | composite part => exact h part field hmem htype
    | _ => exact hpod

/-- A trait that a type has by a rule of its own and by its parts is that of all reachable types. -/
theorem AssessmentOf.trait_iff {trait : Verdict → Bool} {Q : TypeId → Composite → Prop}
    (hstep : ∀ id c ancestry (assess : TypeId → Assessment), table.get? id = some c →
      ancestry.Exact table id →
        (trait (c.assessment ancestry
          (c.bases.map fun base => (base, (assess base.type).verdict))
          (c.fields.map fun field => (field, field.type.verdict assess))).verdict = true ↔
          Q id c ∧ ∀ part ∈ c.references, trait (assess part).verdict = true))
    (h : table.AssessmentOf id found) (hsane : ¬ table.Broken id) :
    trait found.verdict = true ↔
      ∀ part c, table.Reaches id part → table.get? part = some c → Q part c := by
  induction h with
  | @undefined id undefined => exact absurd ⟨id, .refl table id, Or.inl undefined⟩ hsane
  | @barred id c reason defined walked =>
    rcases walked.exact_or_undefined with ⟨ancestry, heq, -⟩ | ⟨type, -, htype, hnone⟩
    · cases heq
    · refine absurd ⟨type, ?_, Or.inl hnone⟩ hsane
      rcases htype with rfl | hbase
      · exact .refl table type
      · exact hbase.below.reaches
  | @defined id c ancestry assess defined walked parts ih =>
    rcases walked.exact_or_undefined with ⟨found, heq, hexact⟩ | ⟨_, heq, -⟩
    · cases heq
      rw [hstep id c _ assess defined hexact, forall_reaches_iff defined]
      refine and_congr_right fun _ => forall₂_congr fun part hpart => ih part hpart ?_
      rintro ⟨other, hreach, hother⟩
      have hrefers := (refers_iff defined).mpr hpart
      exact hsane ⟨other, Relation.ReflTransGen.head hrefers hreach, hother⟩
    · cases heq

/-- A type is trivial by its own rules and by its parts. -/
lemma trivial_step (c : Composite) (ancestry : Ancestry) (assess : TypeId → Assessment) :
    (c.assessment ancestry
      (c.bases.map fun base => (base, (assess base.type).verdict))
      (c.fields.map fun field => (field, field.type.verdict assess))).verdict.trivial = true ↔
      c.KeepsTriviality ∧ ∀ part ∈ c.references, (assess part).verdict.trivial = true := by
  rw [← forall_parts_iff Verdict.trivial rfl]
  simp only [Composite.assessment, Assessment.verdict, List.isEmpty_iff,
    Composite.trivialViolations_eq_nil_iff, List.forall_mem_map, SpecialMembers.isEmpty_iff,
    forall_and]
  constructor
  · rintro ⟨hdispatch, ⟨howned, hbases⟩, hspecial, hinitializers, hfields⟩
    exact ⟨⟨hdispatch, howned, hspecial, hinitializers⟩, hbases, hfields⟩
  · rintro ⟨⟨hdispatch, howned, hspecial, hinitializers⟩, hbases, hfields⟩
    exact ⟨hdispatch, ⟨howned, hbases⟩, hspecial, hinitializers, hfields⟩

/-- A type has standard layout by its own rules, with its hierarchy, and by its parts. -/
lemma standardLayout_step (c : Composite) (assess : TypeId → Assessment)
    (hexact : ancestry.Exact table id) :
    (c.assessment ancestry
      (c.bases.map fun base => (base, (assess base.type).verdict))
      (c.fields.map fun field => (field, field.type.verdict assess))).verdict.standardLayout =
        true ↔
      table.KeepsStandardLayout id c ∧
        ∀ part ∈ c.references, (assess part).verdict.standardLayout = true := by
  have hlayers : ancestry.dataLayers.length ≤ 1 ↔
      ∀ layer other, table.DataLayer id layer → table.DataLayer id other → layer = other := by
    simp only [length_le_one_iff hexact.layersNodup, hexact.layers]
    exact ⟨fun h layer other hl ho => h layer hl other ho,
      fun h layer hl other ho => h layer other hl ho⟩
  have hpaths : ancestry.repeatedBase? = none ↔ ∀ type path path',
      table.OwnedPath id path type → table.OwnedPath id path' type → path = path' := by
    rw [Ancestry.repeatedBase?_eq_none_iff hexact.ownedNodup]
    exact forall_congr' fun type => (hexact.owned type).le_one_iff
  rw [← forall_parts_iff Verdict.standardLayout rfl]
  simp only [Composite.assessment, Assessment.verdict, List.isEmpty_iff,
    Composite.standardLayoutViolations_eq_nil_iff, List.forall_mem_map, forall_and,
    Composite.accessGroups_length_le_one_iff, Composite.firstFieldViolations_eq_nil_iff,
    hexact.bases, hlayers, hpaths]
  constructor
  · rintro ⟨hdispatch, ⟨howned, hbases⟩, hfields, haccess, hlayers, hpaths, hfirst⟩
    exact ⟨⟨hdispatch, howned, haccess, hlayers, hpaths, hfirst⟩, hbases, hfields⟩
  · rintro ⟨⟨hdispatch, howned, haccess, hlayers, hpaths, hfirst⟩, hbases, hfields⟩
    exact ⟨hdispatch, ⟨howned, hbases⟩, hfields, haccess, hlayers, hpaths, hfirst⟩

/-- The verdict on a type that is not broken says what holds of all types that it reaches. -/
theorem VerdictOf.iff_forall_reaches {verdict : Verdict} (h : table.VerdictOf id verdict)
    (hsane : ¬ table.Broken id) :
    (verdict.trivial = true ↔ ∀ part c, table.Reaches id part → table.get? part = some c →
        c.KeepsTriviality) ∧
      (verdict.standardLayout = true ↔ ∀ part c, table.Reaches id part →
        table.get? part = some c → table.KeepsStandardLayout part c) := by
  obtain ⟨found, hfound, rfl⟩ := h
  exact ⟨hfound.trait_iff (fun _ c ancestry assess _ _ => trivial_step c ancestry assess) hsane,
    hfound.trait_iff (fun _ c _ assess _ hexact => standardLayout_step c assess hexact) hsane⟩

/-- An accepted type reaches no undefined type and no loop. -/
lemma Accepted.not_broken {target : Target} {align : Nat} (h : table.Accepted target id align) :
    ¬ table.Broken id := by
  rintro ⟨part, hreach, hpart⟩
  obtain ⟨c, hc, hloop, -⟩ := h.acceptable part hreach
  rcases hpart with hnone | hbelow
  · rw [hc] at hnone
    cases hnone
  · exact hloop hbelow

/-- Whatever was asked before, also about types on cycles, the verdict on a type is the one given
without any question before, by a verdict and by an explanation alike: neither trait if the type is
broken, and else each trait exactly if all reachable types keep its rules. -/
theorem verdict_iff_reachable_rules (table : TypeTable) (questions : List TraitQuestion)
    (id : TypeId) :
    let verdict := ((table.classify id).run (table.traitsAfter questions)).1
    verdict = ((table.classify id).run {}).1 ∧
      ((table.explain id).run (table.traitsAfter questions)).1.verdict = verdict ∧
      (table.Broken id → verdict = .neither) ∧
      (¬ table.Broken id →
        (verdict.trivial = true ↔ ∀ part c, table.Reaches id part → table.get? part = some c →
          c.KeepsTriviality) ∧
        (verdict.standardLayout = true ↔ ∀ part c, table.Reaches id part →
          table.get? part = some c → table.KeepsStandardLayout part c)) := by
  intro verdict
  have hsettled := traitsAfter_settled table questions
  have hjudged : table.Judged id verdict := classify_judged id hsettled
  exact ⟨hjudged.unique (classify_judged id (.empty table)),
    (explain_judged id hsettled).unique hjudged, hjudged.broken,
    fun hsane => (hjudged.sound hsane).iff_forall_reaches hsane⟩

/-- A type and its member refer to each other; beside them a type owns a point twice, by way of
two bases that each own one. -/
def twicePoint : TypeTable :=
  { entries := #[
      ⟨"Whole", some { name := "Whole", bases := [{ type := ⟨1⟩ }] }⟩,
      ⟨"Part", some
        { name := "Part", bases := [{ type := ⟨2⟩ }]
          fields := [{ name := "whole", type := .composite ⟨0⟩ }] }⟩,
      ⟨"Point", some
        { name := "Point"
          fields := [{ name := "x", type := .int }, { name := "y", type := .int }] }⟩,
      ⟨"Left", some { name := "Left", bases := [{ type := ⟨2⟩ }] }⟩,
      ⟨"Right", some { name := "Right", bases := [{ type := ⟨2⟩ }] }⟩,
      ⟨"Both", some { name := "Both", bases := [{ type := ⟨3⟩ }, { type := ⟨4⟩ }] }⟩] }

/-- Questions that enter the cycle at either end leave both of its types with neither trait, and
the type beside it trivial but, for its two points, without standard layout. -/
theorem verdict_iff_reachable_rules_twicePoint :
    let memory := twicePoint.traitsAfter [.explanation ⟨1⟩, .verdict ⟨5⟩, .explanation ⟨0⟩]
    twicePoint.Broken ⟨0⟩ ∧ ((twicePoint.classify ⟨0⟩).run memory).1 = .neither ∧
      ¬ twicePoint.Broken ⟨5⟩ ∧ ((twicePoint.classify ⟨5⟩).run memory).1 = ⟨true, false⟩ ∧
      (∀ part c, twicePoint.Reaches ⟨5⟩ part → twicePoint.get? part = some c →
        c.KeepsTriviality) ∧
      ¬ ∀ part c, twicePoint.Reaches ⟨5⟩ part → twicePoint.get? part = some c →
        twicePoint.KeepsStandardLayout part c := by
  intro memory
  have hdown : twicePoint.Refers ⟨0⟩ ⟨1⟩ := by
    rw [Refers]
    decide
  have hup : twicePoint.Refers ⟨1⟩ ⟨0⟩ := by
    rw [Refers]
    decide
  have hbroken : twicePoint.Broken ⟨0⟩ :=
    ⟨⟨0⟩, .refl _ _, Or.inr (hdown.below.trans hup.below)⟩
  have hexplained : twicePoint.Explained .lp64 [] ⟨5⟩ {}
      ((twicePoint.accept .lp64 ⟨5⟩).run {}) := accept_explained .nil ⟨5⟩
  have haccept : (twicePoint.accept .lp64 ⟨5⟩).run {} =
      .ok 4 { entries := [(⟨5⟩, 4), (⟨4⟩, 4), (⟨3⟩, 4), (⟨2⟩, 4)] } := by rfl
  rw [haccept] at hexplained
  have hsane : ¬ twicePoint.Broken ⟨5⟩ := hexplained.1.not_broken
  obtain ⟨-, -, hneither, -⟩ := verdict_iff_reachable_rules twicePoint
    [.explanation ⟨1⟩, .verdict ⟨5⟩, .explanation ⟨0⟩] ⟨0⟩
  obtain ⟨-, -, -, hrules⟩ := verdict_iff_reachable_rules twicePoint
    [.explanation ⟨1⟩, .verdict ⟨5⟩, .explanation ⟨0⟩] ⟨5⟩
  have hverdict : ((twicePoint.classify ⟨5⟩).run memory).1 = ⟨true, false⟩ := by decide +kernel
  obtain ⟨htrivial, hstandard⟩ := hrules hsane
  rw [hverdict] at htrivial hstandard
  exact ⟨hbroken, hneither hbroken, hsane, hverdict, htrivial.mp rfl,
    fun hall => Bool.false_ne_true (hstandard.mpr hall)⟩

end TypeTable

end ObjectLayout
