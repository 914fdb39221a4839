import ObjectLayout.Proofs.AlignmentAgreement
import ObjectLayout.Proofs.RenamedPlacement

/-!
# Variants of a type

A type is set beside a variant of itself: a table that describes this one type in another way, with
references that the type had before. An accepted type is not met again below itself, so nothing
below it has changed. The variant is accepted if it is well formed on its own, and is placed from
the same parts.
-/
namespace ObjectLayout

namespace Composite

variable {target target' : Target} {isPod isPod' : TypeId → Bool}
  {part : TypeId → Except Rejection Placed} {c c' : Composite} {placed placed' : Placed}

lemma lends_unique {α : Type} (type : α → TypeId) {l : List α} {cores cores' : List (TypeId × Core)}
    (h : List.Forall₂ (fun x core => Lends part (type x) core) l cores)
    (h' : List.Forall₂ (fun x core => Lends part (type x) core) l cores') : cores' = cores := by
  refine List.right_unique_forall₂' ?_ h' h
  rintro x core core' ⟨p, hp, rfl⟩ ⟨p', hp', rfl⟩
  rw [Except.ok.inj (hp.symm.trans hp')]

/-- Types with the same bases that are placed from the same parts take the same cores. -/
lemma Construction.cores_eq (steps : Construction target isPod part c placed)
    (steps' : Construction target' isPod' part c' placed') (hbases : c'.bases = c.bases) :
    steps'.owned = steps.owned ∧ placed'.shared = placed.shared ∧
      steps'.hoisted = steps.hoisted := by
  have howned' := steps'.ownedLent
  rw [ownedBases, hbases, ← ownedBases] at howned'
  have hcollected' := steps'.collected
  rw [Composite.hoisted, hbases, ← Composite.hoisted, steps.collected] at hcollected'
  have hshared : placed'.shared = placed.shared := (Except.ok.inj hcollected').symm
  have hhoisted' := steps'.hoistedLent
  rw [hshared] at hhoisted'
  exact ⟨lends_unique Base.type steps.ownedLent howned', hshared,
    lends_unique (fun id => id) steps.hoistedLent hhoisted'⟩

/-- The types ask for the same alignments of the same types below them, and both are sound or
neither is. -/
structure DemandsAlike (target : Target) (c c' : Composite) : Prop where
  references : c'.references = c.references
  wellFormed : c'.WellFormed target ↔ c.WellFormed target
  requiredAlign : ∀ parts, c'.requiredAlign target parts = c.requiredAlign target parts
  forcedAlign : c'.forcedAlign = c.forcedAlign
  packing : c'.packing = c.packing

namespace DemandsAlike

lemma symm (h : DemandsAlike target c c') : DemandsAlike target c' c :=
  ⟨h.references.symm, h.wellFormed.symm, fun parts => (h.requiredAlign parts).symm,
    h.forcedAlign.symm, h.packing.symm⟩

lemma finalAlign_eq (h : DemandsAlike target c c') (required : Nat) :
    c'.finalAlign required = c.finalAlign required := by
  rw [finalAlign, finalAlign, h.forcedAlign, h.packing]

end DemandsAlike

end Composite

namespace TypeTable

/-- The second table describes everything that is reached as the first one does. -/
def Unchanged (table table' : TypeTable) (root : TypeId) : Prop :=
  ∀ part, table.Reaches root part → table'.get? part = table.get? part

lemma Unchanged.isPod_eq {table table' : TypeTable} {root : TypeId}
    (h : table.Unchanged table' root) : table'.isPod root = table.isPod root := by
  have hdepicted : Depicted id table table' root := by
    refine ⟨Function.injective_id, fun part hreach => ?_⟩
    rw [id, h part hreach]
    cases table.get? part with
    | none => rfl
    | some c => rw [Option.map_some, Composite.rename_id]
  have hsame := isPod_depicted hdepicted (.refl table root)
  rwa [id] at hsame

variable {table table' : TypeTable} {target : Target} {id part : TypeId} {c variant : Composite}
  {align : Nat} {answer : Except Rejection Placed}

namespace Unchanged

lemma reaches (h : table.Unchanged table' id) (hreach : table.Reaches id part) :
    table.Unchanged table' part :=
  fun other hother => h other (hreach.trans hother)

lemma references_eq (h : table.Unchanged table' id) :
    table'.references id = table.references id := by
  rw [references, references, h id (.refl table id)]

lemma reaches_iff (h : table.Unchanged table' id) :
    table'.Reaches id part ↔ table.Reaches id part := by
  constructor
  · intro hreach
    induction hreach with
    | refl => exact .refl table id
    | tail _ hrefers ih =>
      refine ih.tail ?_
      rwa [Refers, ← (h.reaches ih).references_eq]
  · intro hreach
    induction hreach with
    | refl => exact .refl table' id
    | tail hreach hrefers ih =>
      refine ih.tail ?_
      rwa [Refers, (h.reaches hreach).references_eq]

lemma symm (h : table.Unchanged table' id) : table'.Unchanged table id :=
  fun part hreach => (h part (h.reaches_iff.mp hreach)).symm

lemma below_iff (h : table.Unchanged table' id) :
    table'.Below id part ↔ table.Below id part := by
  rw [TypeTable.below_iff, TypeTable.below_iff]
  refine exists_congr fun next => ?_
  rw [Refers, Refers, h.references_eq]
  refine and_congr_right fun hrefers => (h.reaches ?_).reaches_iff
  exact (Refers.below hrefers).reaches

/-- Acceptance looks only at what is reached. -/
lemma accepted (h : table.Unchanged table' id) (haccepted : table.Accepted target id align) :
    table'.Accepted target id align := by
  induction haccepted with
  | @intro id c align defined wellFormed _ forced ih =>
    have hsame := (h id (.refl table id)).trans defined
    refine .intro align hsame wellFormed (fun part hmem => ih part hmem ?_) forced
    exact h.reaches ((refers_iff defined).mpr hmem).below.reaches

/-- Placement looks only at what is reached. -/
lemma placedAs (h : table.Unchanged table' id) (hplaced : table.PlacedAs target id answer) :
    table'.PlacedAs target id answer := by
  induction hplaced with
  | @intro id c part defined parts ih =>
    have hsame := (h id (.refl table id)).trans defined
    have hpod : ∀ other ∈ c.references, table.isPod other = table'.isPod other := by
      intro other hmem
      exact (h.reaches ((refers_iff defined).mpr hmem).below.reaches).isPod_eq.symm
    rw [Composite.place_congr (fun _ _ => rfl) (fun _ _ _ _ _ _ => rfl) fun _ => hpod]
    refine .intro part hsame fun other hbelow => ?_
    have hbelow := h.below_iff.mp hbelow
    exact ih other hbelow (h.reaches hbelow.reaches)

end Unchanged

/-- A type that does not reach the one with a variant does not notice it. -/
lemma unchanged_of_apart (hapart : ¬ table.Reaches part id) (variant : Composite) :
    table.Unchanged (table.redefine id variant) part := by
  intro other hreach
  refine get?_redefine_of_ne ?_
  rintro rfl
  exact hapart hreach

/-- Nothing below a type reaches it again, so its variant leaves everything below unchanged. -/
lemma Acyclic.unchanged_below (h : table.Acyclic id) (hbelow : table.Below id part)
    (variant : Composite) : table.Unchanged (table.redefine id variant) part :=
  unchanged_of_apart (fun hreach => h.not_below (Relation.TransGen.trans_left hbelow hreach)) variant

/-- What lies below a variant lies below the type. -/
lemma below_of_redefine (hacyclic : table.Acyclic id) (hc : table.get? id = some c)
    (hreferences : variant.references ⊆ c.references)
    (h : (table.redefine id variant).Below id part) : table.Below id part := by
  obtain ⟨next, hrefers, hreach⟩ := TypeTable.below_iff.mp h
  have hnext := (refers_iff hc).mpr (hreferences ((refers_iff (get?_redefine_self hc)).mp hrefers))
  exact .of_refers_reaches hnext
    ((hacyclic.unchanged_below hnext.below variant).reaches_iff.mp hreach)

/-- A variant that is well formed is accepted if its parts require no more than it is forced to. -/
theorem Accepted.exists_parts (h : table.Accepted target id align) (hc : table.get? id = some c)
    (hreferences : variant.references ⊆ c.references) (hwell : variant.WellFormed target) :
    ∃ parts : TypeId → Nat, align = c.finalAlign (c.requiredAlign target parts) ∧
      (∀ forced ∈ c.forcedAlign, c.requiredAlign target parts ≤ forced) ∧
      ((∀ forced ∈ variant.forcedAlign, variant.requiredAlign target parts ≤ forced) →
        (table.redefine id variant).Accepted target id
          (variant.finalAlign (variant.requiredAlign target parts))) := by
  have hacyclic := h.acyclic
  cases h with
  | @intro _ c' parts defined _ accepted hforced =>
    obtain rfl : c = c' := Option.some.inj (hc.symm.trans defined)
    refine ⟨parts, rfl, hforced, fun hvariant =>
      .intro parts (get?_redefine_self hc) hwell (fun part hmem => ?_) hvariant⟩
    have hbelow := ((refers_iff hc).mpr (hreferences hmem)).below
    exact (hacyclic.unchanged_below hbelow variant).accepted (accepted part (hreferences hmem))

/-- A variant that is well formed and not forced is accepted. -/
theorem Accepted.redefine (h : table.Accepted target id align) (hc : table.get? id = some c)
    (hreferences : variant.references ⊆ c.references) (hwell : variant.WellFormed target)
    (hforced : variant.forcedAlign = none) :
    ∃ parts : TypeId → Nat, align = c.finalAlign (c.requiredAlign target parts) ∧
      (table.redefine id variant).Accepted target id
        (variant.finalAlign (variant.requiredAlign target parts)) := by
  obtain ⟨parts, rfl, -, hvariant⟩ := h.exists_parts hc hreferences hwell
  refine ⟨parts, rfl, hvariant ?_⟩
  rw [hforced]
  rintro forced ⟨⟩

lemma accept_eq_ok_iff :
    TypeTable.answer ((table.accept target id).run {}) = .ok align ↔
      table.Accepted target id align := by
  refine ⟨fun halign => ?_, fun h => h.answer_eq (accept_explained .nil id)⟩
  have hanswers := table.layout_answers target id
  rw [halign] at hanswers
  exact hanswers.1

/-- A variant is placed from the same parts. -/
theorem PlacedAs.redefine (h : table.PlacedAs target id answer) (hacyclic : table.Acyclic id)
    (hc : table.get? id = some c) (hreferences : variant.references ⊆ c.references) :
    ∃ part, (∀ other, table.Below id other → table.PlacedAs target other (part other)) ∧
      answer = c.place target table.isPod part ∧
      (table.redefine id variant).PlacedAs target id
        (variant.place target table.isPod part) := by
  cases h with
  | @intro _ c' part defined parts =>
    obtain rfl : c = c' := Option.some.inj (hc.symm.trans defined)
    refine ⟨part, parts, rfl, ?_⟩
    have hpod : ∀ other ∈ variant.references,
        table.isPod other = (table.redefine id variant).isPod other := by
      intro other hmem
      have hbelow := ((refers_iff hc).mpr (hreferences hmem)).below
      exact (hacyclic.unchanged_below hbelow variant).isPod_eq.symm
    rw [Composite.place_congr (fun _ _ => rfl) (fun _ _ _ _ _ _ => rfl) fun _ => hpod]
    refine .intro part (get?_redefine_self hc) fun other hother => ?_
    have hbelow := below_of_redefine hacyclic hc hreferences hother
    exact (hacyclic.unchanged_below hbelow variant).placedAs (parts other hbelow)

/-- A type and a variant of it that are both placed are placed from the same parts. -/
theorem PlacedAs.exists_parts {placed placed' : Placed}
    (h : table.PlacedAs target id (.ok placed))
    (h' : (table.redefine id variant).PlacedAs target id (.ok placed'))
    (hacyclic : table.Acyclic id) (hc : table.get? id = some c)
    (hreferences : variant.references ⊆ c.references) :
    ∃ part, (∀ other, table.Below id other → table.PlacedAs target other (part other)) ∧
      c.place target table.isPod part = .ok placed ∧
      variant.place target table.isPod part = .ok placed' := by
  obtain ⟨part, parts, hplaced, hvariant⟩ := h.redefine hacyclic hc hreferences
  exact ⟨part, parts, hplaced.symm, hvariant.unique h'⟩

/-- Describing a type as it was described before undoes the variant. -/
lemma unchanged_redefine_back (hc : table.get? id = some c) (variant : Composite) (root : TypeId) :
    ((table.redefine id variant).redefine id c).Unchanged table root := by
  intro part _
  by_cases heq : part = id
  · rw [heq, get?_redefine_self (get?_redefine_self hc), hc]
  · rw [get?_redefine_of_ne heq, get?_redefine_of_ne heq]

/-- If the variant refers to more, it is the type that is placed from the parts of the variant. -/
theorem PlacedAs.exists_parts_of_variant {placed placed' : Placed}
    (h : table.PlacedAs target id (.ok placed))
    (h' : (table.redefine id variant).PlacedAs target id (.ok placed'))
    (hacyclic : (table.redefine id variant).Acyclic id) (hc : table.get? id = some c)
    (hreferences : c.references ⊆ variant.references) :
    ∃ part, (∀ other, (table.redefine id variant).Below id other →
        (table.redefine id variant).PlacedAs target other (part other)) ∧
      c.place target (table.redefine id variant).isPod part = .ok placed ∧
      variant.place target (table.redefine id variant).isPod part = .ok placed' := by
  obtain ⟨part, parts, hvariant, hback⟩ :=
    h'.redefine hacyclic (get?_redefine_self hc) hreferences
  have hplaced := (unchanged_redefine_back hc variant id).placedAs hback
  exact ⟨part, parts, hplaced.unique h, hvariant.symm⟩

/-- A variant that demands the same is accepted with the alignment of the type, or with the type
rejected. -/
theorem accepted_redefine_iff (h : Composite.DemandsAlike target c variant)
    (hc : table.get? id = some c) :
    (table.redefine id variant).Accepted target id align ↔ table.Accepted target id align := by
  have hkeeps {table : TypeTable} {c variant : Composite}
      (h : Composite.DemandsAlike target c variant) (hc : table.get? id = some c)
      (haccepted : table.Accepted target id align) :
      (table.redefine id variant).Accepted target id align := by
    have hwell := haccepted.wellFormed hc
    obtain ⟨parts, rfl, hforced, hvariant⟩ :=
      haccepted.exists_parts hc (h.references ▸ List.Subset.refl _) (h.wellFormed.mpr hwell)
    rw [h.forcedAlign, h.requiredAlign, h.finalAlign_eq] at hvariant
    exact hvariant hforced
  refine ⟨fun haccepted => ?_, hkeeps h hc⟩
  exact (unchanged_redefine_back hc variant id).accepted
    (hkeeps h.symm (get?_redefine_self hc) haccepted)

end TypeTable

end ObjectLayout
