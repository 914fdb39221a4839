import ObjectLayout.Proofs.PlacementErrors
import ObjectLayout.Proofs.ReachableTraits

/-!
# Layouts and verdicts agree

Acceptance and classification walk the graph of references separately, and so do placement and
classification. They agree: a type that has no layout for a broken reference has neither trait, an
accepted type is explained without a broken reference, and a slot or a shared base in a layout comes
from a reachable type that bars both traits. None of this depends on the questions before.
-/
namespace ObjectLayout

namespace Rejection

/-- The rejection is about the graph of references and not about one type. -/
def BlamesReference : Rejection → Prop
  | .unknownType _ | .undefinedType _ _ | .cyclicHierarchy _ => True
  | _ => False

end Rejection

namespace Violation

/-- The violation is about the graph of references and not about one type. -/
def BlamesReference : Violation → Prop
  | .unresolved _ | .cyclic _ => True
  | _ => False

lemma mem_given {present : Bool} {violation other : Violation} :
    other ∈ given present violation ↔ present = true ∧ other = violation := by
  cases present <;> simp [given]

end Violation

namespace Composite

variable {c : Composite} {ancestry : Ancestry} {bases : List (Base × Verdict)}
  {fields : List (Field × Verdict)} {violation : Violation}

lemma not_blamesReference_of_mem_trivial (h : violation ∈ c.trivialViolations bases fields) :
    ¬ violation.BlamesReference := by
  simp only [trivialViolations, List.mem_append, List.mem_flatMap, Violation.mem_given] at h
  rcases h with ((⟨-, rfl⟩ | ⟨_, -, ⟨-, rfl⟩ | ⟨-, rfl⟩⟩) | ⟨-, rfl⟩) |
    ⟨_, -, ⟨-, rfl⟩ | ⟨-, rfl⟩⟩ <;> exact id

lemma not_blamesReference_of_mem_firstField (h : violation ∈ c.firstFieldViolations ancestry) :
    ¬ violation.BlamesReference := by
  unfold firstFieldViolations at h
  split at h
  · obtain ⟨-, rfl⟩ := Violation.mem_given.mp h
    exact id
  · cases h

lemma not_blamesReference_of_mem_standardLayout
    (h : violation ∈ c.standardLayoutViolations ancestry bases fields) :
    ¬ violation.BlamesReference := by
  simp only [standardLayoutViolations, List.mem_append, List.mem_flatMap, List.mem_map,
    Violation.mem_given] at h
  rcases h with (((((⟨-, rfl⟩ | ⟨_, -, ⟨-, rfl⟩ | ⟨-, rfl⟩⟩) | ⟨_, -, -, rfl⟩) | ⟨-, rfl⟩) |
    ⟨-, rfl⟩) | ⟨_, -, rfl⟩) | hfirst
  case inr => exact not_blamesReference_of_mem_firstField hfirst
  all_goals exact id

end Composite

namespace TypeTable

variable {table : TypeTable} {target : Target} {id : TypeId} {placed : Placed} {align : Nat}

/-- A rejection for a broken reference is given for broken types only. -/
lemma HasDefect.broken {rejection : Rejection} (h : table.HasDefect target id rejection)
    (hblames : rejection.BlamesReference) : table.Broken id := by
  cases rejection with
  | unknownType part =>
    obtain ⟨hreach, hnone⟩ := h
    exact ⟨part, hreach, Or.inl (by rw [get?, hnone]; rfl)⟩
  | undefinedType part name =>
    obtain ⟨hreach, hentry⟩ := h
    exact ⟨part, hreach, Or.inl (by rw [get?, hentry]; rfl)⟩
  | cyclicHierarchy name =>
    obtain ⟨part, c, hreach, -, -, hloop⟩ := h
    exact ⟨part, hreach, Or.inr hloop⟩
  | _ => exact hblames.elim

/-- An accepted type is assessed by rules of its own. -/
lemma Accepted.not_blamesReference {found : Assessment} (h : table.Accepted target id align)
    (hfound : table.AssessmentOf id found) {violation : Violation}
    (hmem : violation ∈ found.trivial ∨ violation ∈ found.standardLayout) :
    ¬ violation.BlamesReference := by
  cases hfound with
  | undefined undefined => exact absurd ⟨id, .refl table id, Or.inl undefined⟩ h.not_broken
  | barred defined walked =>
    rcases walked.exact_or_undefined with ⟨_, heq, -⟩ | ⟨type, -, rfl | hbase, hnone⟩
    · cases heq
    · exact absurd ⟨_, .refl table _, Or.inl hnone⟩ h.not_broken
    · exact absurd ⟨type, hbase.below.reaches, Or.inl hnone⟩ h.not_broken
  | defined =>
    rcases hmem with hmem | hmem
    · exact Composite.not_blamesReference_of_mem_trivial hmem
    · exact Composite.not_blamesReference_of_mem_standardLayout hmem

namespace PlacedAs

/-- A slot of a placed type, in its core or in the complete object, is due to a reachable type that
introduces dispatch. -/
lemma exists_introducesDispatch (h : table.PlacedAs target id (.ok placed))
    (hslot : placed.core.dispatch.isSome ∨ placed.layout.dispatch.isSome) :
    ∃ part c, table.Reaches id part ∧ table.get? part = some c ∧ c.introducesDispatch = true := by
  induction h using ok_induction with
  | @step id placed c part h defined parts steps ih =>
    have hbelow : ∀ other p, table.Below id other → part other = .ok p → p.core.dispatch.isSome →
        ∃ part c, table.Reaches id part ∧ table.get? part = some c ∧
          c.introducesDispatch = true := by
      intro other p hother hp hcore
      obtain ⟨source, c', hreach, hc', hintroduces⟩ := ih other hother p hp (Or.inl hcore)
      exact ⟨source, c', hother.reaches.trans hreach, hc', hintroduces⟩
    have hbased : steps.based.dispatch.isSome → ∃ part c, table.Reaches id part ∧
        table.get? part = some c ∧ c.introducesDispatch = true := by
      intro hsome
      rcases Draft.isSome_dispatch_of_embedAll steps.bases hsome with hopened | ⟨core, hmem, hcore⟩
      · refine ⟨id, c, .refl table id, defined, ?_⟩
        rw [Composite.openSlot_eq_ok steps.slot] at hopened
        split at hopened
        · next hopens => exact (Bool.and_eq_true_iff.mp hopens).1
        · cases hopened
      · obtain ⟨base, hbase, p, hp, rfl⟩ := exists_of_mem_right steps.ownedLent hmem
        have hrefers := (refers_iff defined).mpr (Composite.mem_references_of_ownedBase hbase)
        exact hbelow base.type p hrefers.below hp hcore
    rw [steps.core, steps.dispatch_eq] at hslot
    rcases hslot with hcore | hcomplete
    · exact hbased hcore
    · rcases Draft.isSome_dispatch_of_embedAll steps.shared hcomplete with hsome | ⟨core, hmem, hcore⟩
      · exact hbased hsome
      · obtain ⟨shared, hshared, p, hp, rfl⟩ := exists_of_mem_right steps.hoistedLent hmem
        exact hbelow shared p (h.below_of_mem_shared hshared) hp hcore

/-- A shared base of a placed type is declared shared by a reachable type. -/
lemma exists_isShared (h : table.PlacedAs target id (.ok placed)) {shared : TypeId}
    (hmem : shared ∈ placed.shared) : ∃ part c, table.Reaches id part ∧
      table.get? part = some c ∧ ∃ base ∈ c.bases, base.isShared = true := by
  induction h using ok_induction with
  | @step id placed c part h defined parts steps ih =>
    obtain ⟨base, hbase, p, hp, hcase⟩ := (Composite.mem_hoisted steps.collected).mp hmem
    rcases hcase with ⟨hshared, -⟩ | hinner
    · exact ⟨id, c, .refl table id, defined, base, hbase, hshared⟩
    · have hbelow := ((refers_iff defined).mpr (Composite.mem_references_of_base hbase)).below
      obtain ⟨source, c', hreach, hc', hbases⟩ := ih base.type hbelow p hp hinner
      exact ⟨source, c', hbelow.reaches.trans hreach, hc', hbases⟩

/-- A layout lists a shared base only if the hierarchy has one. -/
lemma sharedBases_eq_nil_iff (h : table.PlacedAs target id (.ok placed)) :
    placed.layout.sharedBases = [] ↔ placed.shared = [] := by
  obtain ⟨c, part, -, -, ⟨steps⟩⟩ := h.construction
  rw [← steps.bases_split.2.2.2, List.map_eq_nil_iff]

/-- What introduces a slot or a shared base bars both traits of every type above. -/
theorem neither_of_slot_or_shared {verdict : Verdict} (h : table.PlacedAs target id (.ok placed))
    (haccepted : table.Accepted target id align) (hverdict : table.Judged id verdict)
    (hlayout : placed.layout.dispatch.isSome ∨ placed.layout.sharedBases ≠ []) :
    verdict = .neither := by
  have hbarred : ∃ part c, table.Reaches id part ∧ table.get? part = some c ∧
      (c.introducesDispatch = true ∨ ∃ base ∈ c.bases, base.isShared = true) := by
    rcases hlayout with hslot | hshared
    · obtain ⟨part, c, hreach, hc, hdispatch⟩ := h.exists_introducesDispatch (Or.inr hslot)
      exact ⟨part, c, hreach, hc, Or.inl hdispatch⟩
    · rw [Ne, h.sharedBases_eq_nil_iff] at hshared
      obtain ⟨shared, hmem⟩ := List.exists_mem_of_ne_nil _ hshared
      obtain ⟨part, c, hreach, hc, hbases⟩ := h.exists_isShared hmem
      exact ⟨part, c, hreach, hc, Or.inr hbases⟩
  obtain ⟨part, c, hreach, hc, hcase⟩ := hbarred
  have hbars : ¬ (c.introducesDispatch = false ∧ ∀ base ∈ c.bases, base.isShared = false) := by
    rintro ⟨hdispatch, howned⟩
    rcases hcase with hintroduces | ⟨base, hbase, hshared⟩
    · rw [hdispatch] at hintroduces
      cases hintroduces
    · rw [howned base hbase] at hshared
      cases hshared
  have hrules := (hverdict.sound haccepted.not_broken).iff_forall_reaches haccepted.not_broken
  have htrivial : verdict.trivial = false := Bool.eq_false_iff.mpr fun htrue =>
    have hkeeps := hrules.1.mp htrue part c hreach hc
    hbars ⟨hkeeps.dispatch, hkeeps.owned⟩
  have hstandard : verdict.standardLayout = false := Bool.eq_false_iff.mpr fun htrue =>
    have hkeeps := hrules.2.mp htrue part c hreach hc
    hbars ⟨hkeeps.dispatch, hkeeps.owned⟩
  exact congrArg₂ Verdict.mk htrivial hstandard

end PlacedAs

/-- Only a broken type is refused a layout for a broken reference: what fails after acceptance is
too large. -/
lemma broken_of_layout_eq_error {rejection : Rejection}
    (h : table.layout target id = .error rejection) (hblames : rejection.BlamesReference) :
    table.Broken id := by
  have hexplained : table.Explained target [] id {} ((table.accept target id).run {}) :=
    accept_explained .nil id
  have hanswers := table.layout_answers target id
  rw [h] at hanswers
  cases hresult : (table.accept target id).run {} with
  | error found memo =>
    rw [hresult] at hanswers hexplained
    obtain rfl : rejection = found := Except.error.inj hanswers
    exact hexplained.1.broken hblames
  | ok align memo =>
    rw [hresult] at hanswers
    obtain ⟨-, answer, hplaced, hlayout⟩ := hanswers
    cases answer with
    | ok placed => cases hlayout
    | error found =>
      obtain rfl : rejection = found := Except.error.inj hlayout
      obtain ⟨-, part, c, -, -, rfl⟩ := hplaced.failsOnly rejection rfl
      exact hblames.elim

/-- After any questions about layouts and any about traits, a type that is refused a layout for a
broken reference has neither trait; an accepted type is explained without a broken reference; and a
type whose layout has a slot or a shared base has neither trait. -/
theorem layout_verdict_agree (table : TypeTable) (target : Target) (asked : List TypeId)
    (questions : List TraitQuestion) (id : TypeId) :
    let planner := ((asked.mapM Planner.layout).run (.new table target)).2
    let answer := ((Planner.layout id).run planner).1
    let memory := table.traitsAfter questions
    let verdict := ((table.classify id).run memory).1
    let explanation := ((table.explain id).run memory).1
    (∀ rejection, answer = .error rejection → rejection.BlamesReference → verdict = .neither) ∧
      (∀ align memo, (table.accept target id).run planner.accepted = .ok align memo →
        ∀ violation, violation ∈ explanation.trivial ∨ violation ∈ explanation.standardLayout →
          ¬ violation.BlamesReference) ∧
      ∀ layout, answer = .ok layout → layout.dispatch.isSome ∨ layout.sharedBases ≠ [] →
        verdict = .neither := by
  intro planner answer memory verdict explanation
  have hsound : planner.Sound table target := ((Planner.Sound.new table target).run asked).2
  have hanswer : answer = table.layout target id := hsound.layout_eq (.new table target) id
  have hsettled := traitsAfter_settled table questions
  have hjudged : table.Judged id verdict := classify_judged id hsettled
  refine ⟨fun rejection hrejected hblames => ?_, fun align memo haccept violation hmem => ?_,
    fun layout hlaidOut hlayout => ?_⟩
  · exact hjudged.broken (broken_of_layout_eq_error (hanswer ▸ hrejected) hblames)
  · have hexplained := accept_explained hsound.inOrder id
    rw [haccept] at hexplained
    have haccepted := hexplained.1
    exact haccepted.not_blamesReference (explain_sound haccepted.acyclic hsettled) hmem
  · obtain ⟨align, placed, haccepted, hplaced, rfl⟩ := layout_eq_ok (hanswer.symm.trans hlaidOut)
    exact hplaced.neither_of_slot_or_shared haccepted hjudged hlayout

/-- An owner and its item contain each other; beside them a view shares a shape, which introduces
dispatch. -/
def sharedShape : TypeTable :=
  { entries := #[
      ⟨"Owner", some { name := "Owner", bases := [{ type := ⟨1⟩ }] }⟩,
      ⟨"Item", some
        { name := "Item", fields := [{ name := "owner", type := .composite ⟨0⟩ }] }⟩,
      ⟨"Shape", some
        { name := "Shape", introducesDispatch := true
          fields := [{ name := "edges", type := .int }] }⟩,
      ⟨"View", some
        { name := "View", bases := [{ type := ⟨2⟩, sharing := .shared }]
          fields := [{ name := "zoom", type := .char }] }⟩] }

/-- After questions that enter the cycle at its other end, the owner is rejected and has neither
trait; the view is explained without a broken reference and has neither trait for its shape. -/
theorem layout_verdict_agree_sharedShape :
    let planner := (([⟨1⟩, ⟨2⟩].mapM Planner.layout).run (.new sharedShape .lp64)).2
    let memory := sharedShape.traitsAfter [.explanation ⟨1⟩, .verdict ⟨2⟩]
    let layout : Layout :=
      { size := 24, align := 8, dataSize := 24, dispatch := some 8
        fields := [⟨"zoom", 0, 1, none⟩], bases := [⟨⟨2⟩, 8, 16, .shared⟩] }
    ((Planner.layout ⟨0⟩).run planner).1 = .error (.cyclicHierarchy "Owner") ∧
      ((sharedShape.classify ⟨0⟩).run memory).1 = .neither ∧
      ((Planner.layout ⟨3⟩).run planner).1 = .ok layout ∧
      ((sharedShape.explain ⟨3⟩).run memory).1.trivial ≠ [] ∧
      (∀ violation ∈ ((sharedShape.explain ⟨3⟩).run memory).1.trivial,
        ¬ violation.BlamesReference) ∧
      ((sharedShape.classify ⟨3⟩).run memory).1 = .neither := by
  intro planner memory layout
  have hrejected : ((Planner.layout ⟨0⟩).run planner).1 = .error (.cyclicHierarchy "Owner") := by
    decide +kernel
  have hlayout : ((Planner.layout ⟨3⟩).run planner).1 = .ok layout := by decide +kernel
  have haccept : (sharedShape.accept .lp64 ⟨3⟩).run planner.accepted =
      .ok 8 { entries := [(⟨3⟩, 8), (⟨2⟩, 8)] } := by rfl
  have hexplained : ((sharedShape.explain ⟨3⟩).run memory).1.trivial ≠ [] := by decide +kernel
  obtain ⟨hneither, -, -⟩ :=
    layout_verdict_agree sharedShape .lp64 [⟨1⟩, ⟨2⟩] [.explanation ⟨1⟩, .verdict ⟨2⟩] ⟨0⟩
  obtain ⟨-, hblames, hbarred⟩ :=
    layout_verdict_agree sharedShape .lp64 [⟨1⟩, ⟨2⟩] [.explanation ⟨1⟩, .verdict ⟨2⟩] ⟨3⟩
  exact ⟨hrejected, hneither _ hrejected trivial, hlayout, hexplained,
    fun violation hmem => hblames 8 _ haccept violation (Or.inl hmem),
    hbarred layout hlayout (Or.inl rfl)⟩

end TypeTable

end ObjectLayout
