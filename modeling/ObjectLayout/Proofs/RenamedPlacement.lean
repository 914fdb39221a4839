import ObjectLayout.Proofs.PlacementErrors
import ObjectLayout.Proofs.RenamedAcceptance
import ObjectLayout.Proofs.RenamedTraits

/-!
# Placement under a renaming

A placement names types only where it lists bases. Each step of it gives the same under a renaming,
with the entries of the list renamed, and fails for the same reason. Together with acceptance and
the verdicts this makes the layout of a renamed type the renamed layout.
-/
namespace ObjectLayout

variable {m : TypeId → TypeId}

section

variable {α β γ : Type} {f : α → α} {g : β → β} {run run' : Except Rejection α}

lemma renamed_bind {next next' : α → Except Rejection β} (h : run' = renamed m f run)
    (hnext : ∀ a, run = .ok a → next' (f a) = renamed m g (next a)) :
    (run' >>= next') = renamed m g (run >>= next) := by
  subst h
  cases run with
  | error rejection => rfl
  | ok a => exact hnext a rfl

/-- A run whose only failures name no type is its own renaming. -/
lemma FailsOnly.renamed (h : FailsOnly (fun rejection => rejection.rename m = rejection) run) :
    run = renamed m (fun a => a) run := by
  cases run with
  | ok a => rfl
  | error rejection => exact congrArg Except.error (h rejection rfl).symm

lemma renamed_foldlM {step step' : α → γ → Except Rejection α} {h : γ → γ} {l : List γ}
    (hstep : ∀ x ∈ l, ∀ a, step' (f a) (h x) = renamed m f (step a x)) (a : α) :
    (l.map h).foldlM step' (f a) = renamed m f (l.foldlM step a) := by
  induction l generalizing a with
  | nil => rfl
  | cons x l ih =>
    rw [List.map_cons, List.foldlM_cons, List.foldlM_cons]
    exact renamed_bind (hstep x List.mem_cons_self a) fun b _ =>
      ih (fun y hy => hstep y (List.mem_cons_of_mem _ hy)) b

lemma renamed_mapM {step step' : γ → Except Rejection α} {h : γ → γ} {l : List γ}
    (hstep : ∀ x ∈ l, step' (h x) = renamed m f (step x)) :
    (l.map h).mapM step' = renamed m (List.map f) (l.mapM step) := by
  induction l with
  | nil => rfl
  | cons x l ih =>
    rw [List.map_cons, List.mapM_cons, List.mapM_cons]
    refine renamed_bind (hstep x List.mem_cons_self) fun a _ => ?_
    exact renamed_bind (ih fun y hy => hstep y (List.mem_cons_of_mem _ hy)) fun _ _ => rfl

end

def PlacedBase.rename (m : TypeId → TypeId) (base : PlacedBase) : PlacedBase :=
  { base with type := m base.type }

def Layout.rename (m : TypeId → TypeId) (layout : Layout) : Layout :=
  { layout with bases := layout.bases.map (PlacedBase.rename m) }

@[simp] lemma Layout.rename_id (layout : Layout) : layout.rename id = layout := by
  have hbases : PlacedBase.rename id = id := rfl
  simp [Layout.rename, hbases]

def Placed.rename (m : TypeId → TypeId) (placed : Placed) : Placed :=
  ⟨placed.layout.rename m, placed.core, placed.shared.map m⟩

def Draft.rename (m : TypeId → TypeId) (draft : Draft) : Draft :=
  { draft with bases := draft.bases.map (PlacedBase.rename m) }

section

variable (site : Site)

lemma Frontier.roundTo_renamed (frontier : Frontier) (align : Nat) :
    frontier.roundTo site align = renamed m (fun next => next) (frontier.roundTo site align) := by
  apply FailsOnly.renamed
  apply roundTo_failsOnly
  exact fun _ => rfl

lemma Frontier.alignFor_renamed (frontier : Frontier) (align : Nat) :
    frontier.alignFor site align = renamed m (fun next => next) (frontier.alignFor site align) :=
  (frontier.regard site align).roundTo_renamed site align

lemma Frontier.advance_renamed (frontier : Frontier) (bytes : Nat) :
    frontier.advance site bytes = renamed m (fun next => next) (frontier.advance site bytes) := by
  apply FailsOnly.renamed
  apply advance_failsOnly
  exact fun _ => rfl

lemma Draft.embed_rename (draft : Draft) (type : TypeId) (sharing : Sharing) (core : Core)
    (bytes : Nat) : (draft.rename m).embed site (m type) sharing core bytes =
      renamed m (rename m) (draft.embed site type sharing core bytes) := by
  unfold embed
  by_cases hempty : core.dataSize = 0
  · rw [if_pos hempty, if_pos hempty]
    simp [renamed, rename, PlacedBase.rename]
  · rw [if_neg hempty, if_neg hempty]
    refine renamed_bind (Frontier.alignFor_renamed site _ _) fun start _ => ?_
    refine renamed_bind (Frontier.advance_renamed site start bytes) fun next _ => ?_
    simp [renamed, rename, PlacedBase.rename, pure, Except.pure]

end

namespace FieldGroup

variable {site : Site} {extent extent' : FieldType → Except Rejection (Nat × Nat)}

lemma place_rename {group : FieldGroup}
    (hextent : ∀ field, group = .plain field →
      extent' (field.type.rename m) = renamed m (fun size => size) (extent field.type))
    (frontier : Frontier) : (group.rename m).place site extent' frontier =
      renamed m (fun result => result) (group.place site extent frontier) := by
  cases group with
  | plain field =>
    refine renamed_bind (hextent field rfl) fun size _ => ?_
    refine renamed_bind (Frontier.alignFor_renamed site _ _) fun start _ => ?_
    exact renamed_bind (Frontier.advance_renamed site start _) fun next _ => rfl
  | marker field =>
    rw [rename, place, place, Field.storageUnit_rename]
    exact renamed_bind (Frontier.roundTo_renamed site frontier _) fun next _ => rfl
  | run unit fields =>
    rw [rename, place, place, List.map_map]
    refine renamed_bind (Frontier.alignFor_renamed site frontier _) fun start _ => ?_
    exact renamed_bind (Frontier.advance_renamed site start _) fun next _ => rfl

lemma placeAll_rename {groups : List FieldGroup}
    (hextent : ∀ field, .plain field ∈ groups →
      extent' (field.type.rename m) = renamed m (fun size => size) (extent field.type))
    (frontier : Frontier) : placeAll site extent' frontier (groups.map (rename m)) =
      renamed m (fun result => result) (placeAll site extent frontier groups) := by
  induction groups generalizing frontier with
  | nil => rfl
  | cons group groups ih =>
    rw [List.map_cons, placeAll, placeAll]
    have hfirst : ∀ field, group = .plain field →
        extent' (field.type.rename m) = renamed m (fun size => size) (extent field.type) := by
      rintro field rfl
      exact hextent field List.mem_cons_self
    refine renamed_bind (place_rename hfirst frontier) ?_
    rintro ⟨next, placed⟩ -
    have hrest := ih (fun field hmem => hextent field (List.mem_cons_of_mem _ hmem)) next
    exact renamed_bind hrest fun _ _ => rfl

end FieldGroup

namespace Composite

variable {target : Target} {isPod isPod' : TypeId → Bool}
  {part part' : TypeId → Except Rejection Placed} {c : Composite}

section

variable (hpart : ∀ id ∈ c.references, part' (m id) = renamed m (Placed.rename m) (part id))

include hpart

lemma extent_rename {field : Field} (hmem : field ∈ c.fields) :
    extent target part' (field.type.rename m) =
      renamed m (fun size => size) (extent target part field.type) := by
  cases htype : field.type with
  | composite id =>
    exact renamed_bind (hpart id (mem_references_of_field hmem htype)) fun placed _ => rfl
  | _ => rfl

lemma ownedCores_rename : (c.rename m).ownedCores part' =
    renamed m (List.map (Prod.map m (fun core => core))) (c.ownedCores part) := by
  rw [ownedCores, ownedCores, ownedBases_rename]
  refine renamed_mapM fun base hmem => ?_
  exact renamed_bind (hpart base.type (mem_references_of_ownedBase hmem)) fun placed _ => rfl

lemma hoisted_rename (hm : m.Injective) :
    (c.rename m).hoisted part' = renamed m (List.map m) (c.hoisted part) := by
  refine renamed_foldlM (f := List.map m) (fun base hmem seen => ?_) []
  refine renamed_bind (hpart base.type (mem_references_of_base hmem)) fun placed _ => ?_
  apply congrArg Except.ok
  cases hshared : base.isShared
  · simp [hshared, Placed.rename, FirstSeen.noteAll_map hm]
  · simp [hshared, Placed.rename, FirstSeen.noteAll_map hm, FirstSeen.note_map hm]

end

lemma openSlot_rename (owned : List (TypeId × Core)) :
    (c.rename m).openSlot target (owned.map (Prod.map m (fun core => core))) =
      renamed m (Draft.rename m) (c.openSlot target owned) := by
  have hslot : (owned.map (Prod.map m (fun core => core))).any
      (fun base => base.2.dispatch.isSome) = owned.any fun base => base.2.dispatch.isSome := by
    simp [List.any_map, Function.comp_def]
  unfold openSlot
  rw [hslot]
  show (if (c.introducesDispatch && !owned.any fun base => base.2.dispatch.isSome) = true
    then _ else _) = _
  split_ifs
  · refine renamed_bind (Frontier.alignFor_renamed (c.site target) _ _) fun start _ => ?_
    exact renamed_bind (Frontier.advance_renamed (c.site target) start _) fun next _ => rfl
  · rfl

lemma placeOwn_rename
    (hpart : ∀ id ∈ c.references, part' (m id) = renamed m (Placed.rename m) (part id))
    (hpod : ∀ id ∈ c.references, isPod' (m id) = isPod id) :
    (c.rename m).placeOwn target isPod' part' =
      renamed m (Prod.map (Draft.rename m) (fun fields => fields))
        (c.placeOwn target isPod part) := by
  refine renamed_bind (ownedCores_rename hpart) fun owned hcores => ?_
  refine renamed_bind (openSlot_rename owned) fun opened _ => ?_
  have hembed : ∀ base ∈ owned, ∀ draft : Draft,
      (draft.rename m).embed (c.site target) (m base.1) .owned base.2
          (ownedBytes target isPod' (m base.1, base.2)) =
        renamed m (Draft.rename m) (draft.embed (c.site target) base.1 .owned base.2
          (ownedBytes target isPod base)) := by
    intro core hmem draft
    obtain ⟨base, hbase, p, -, rfl⟩ := exists_of_mem_right (lends_of_mapM hcores) hmem
    have hbytes : ownedBytes target isPod' (m base.type, p.core) =
        ownedBytes target isPod (base.type, p.core) := by
      simp only [ownedBytes, hpod base.type (mem_references_of_ownedBase hbase)]
    rw [hbytes]
    exact Draft.embed_rename (c.site target) draft base.type .owned p.core _
  refine renamed_bind (renamed_foldlM hembed opened) fun based _ => ?_
  have hgroups : FieldGroup.ofFields (c.rename m).fields =
      (FieldGroup.ofFields c.fields).map (FieldGroup.rename m) :=
    FieldGroup.ofFields_rename c.fields
  rw [hgroups]
  refine renamed_bind (FieldGroup.placeAll_rename (fun field hmem =>
    extent_rename hpart (FieldGroup.plain_mem_ofFields.mp hmem).1) based.frontier) ?_
  rintro ⟨frontier, fields⟩ -
  rfl

/-- The placement of a renamed description is the renamed placement, if this holds of everything
that it takes from. -/
theorem place_rename (hm : m.Injective)
    (hpart : ∀ id ∈ c.references, part' (m id) = renamed m (Placed.rename m) (part id))
    (hshared : ∀ id ∈ c.references, ∀ p, part id = .ok p →
      ∀ s ∈ p.shared, part' (m s) = renamed m (Placed.rename m) (part s))
    (hpod : ∀ id ∈ c.references, isPod' (m id) = isPod id) :
    (c.rename m).place target isPod' part' =
      renamed m (Placed.rename m) (c.place target isPod part) := by
  refine renamed_bind (placeOwn_rename hpart hpod) ?_
  rintro ⟨own, fields⟩ -
  have hclose : FailsOnly (fun rejection => rejection.rename m = rejection)
      (Core.close (c.site target) own.frontier own.dispatch) := by
    apply Core.close_failsOnly
    exact fun _ => rfl
  refine renamed_bind hclose.renamed fun core _ => ?_
  refine renamed_bind (hoisted_rename hpart hm) fun shared hlist => ?_
  have hembed : ∀ id ∈ shared, ∀ draft : Draft, (do
        let placed ← part' (m id)
        (draft.rename m).embed (c.site target) (m id) .shared placed.core placed.core.size) =
      renamed m (Draft.rename m) (do
        let placed ← part id
        draft.embed (c.site target) id .shared placed.core placed.core.size) := by
    intro id hmem draft
    have hid : part' (m id) = renamed m (Placed.rename m) (part id) := by
      obtain ⟨base, hbase, p, hp, ⟨-, rfl⟩ | hid⟩ := (mem_hoisted hlist).mp hmem
      · exact hpart base.type (mem_references_of_base hbase)
      · exact hshared base.type (mem_references_of_base hbase) p hp id hid
    exact renamed_bind hid fun placed _ =>
      Draft.embed_rename (c.site target) draft id .shared placed.core placed.core.size
  refine renamed_bind (renamed_foldlM hembed own) fun complete _ => ?_
  have hsize : FailsOnly (fun rejection => rejection.rename m = rejection)
      ((c.site target).require (target.roundUp? (max complete.frontier.offset 1)
        complete.frontier.align)) := by
    apply Site.require_failsOnly
    exact fun _ => rfl
  exact renamed_bind hsize.renamed fun size _ => rfl

end Composite

namespace TypeTable

variable {excused : Rejection → Prop} {P Q : TypeTable} {target : Target} {root id part : TypeId}

/-- The verdicts that decide about tail padding are the same. -/
lemma isPod_depicted (h : Depicted m P Q root) (hreach : P.Reaches root id) :
    Q.isPod (m id) = P.isPod id := by
  have hexplain : Repeats (Assessment.rename m) (TraitMemory.Mirrors m) (P.explain id {})
      (Q.explain (m id) {}) := explainWithin_repeats h (.nil hreach) ⟨.empty, .empty⟩
  exact congrArg Verdict.isPod (verdictOf_repeats h.injective hexplain ⟨.empty, .empty⟩).1

lemma Depicted.references (h : Depicted m P Q root) (hreach : P.Reaches root id) :
    Q.references (m id) = (P.references id).map m := by
  rw [TypeTable.references, TypeTable.references, h.get? id hreach]
  cases P.get? id with
  | none => rfl
  | some c => exact Composite.references_rename c

lemma Depicted.below (h : Depicted m P Q root) (hreach : P.Reaches root id)
    (hbelow : P.Below id part) : Q.Below (m id) (m part) := by
  have hrefers : ∀ {whole part}, P.Reaches root whole → P.Refers whole part →
      Q.Refers (m whole) (m part) := by
    intro whole part hwhole hpart
    rw [Refers, h.references hwhole]
    exact List.mem_map_of_mem hpart
  induction hbelow with
  | single hpart => exact (hrefers hreach hpart).below
  | tail hbelow hpart ih =>
    exact ih.trans (hrefers (hreach.trans (Below.reaches hbelow)) hpart).below

/-- The placement of a renamed type is the renamed placement. -/
theorem PlacedAs.renamed {answer answer' : Except Rejection Placed} (h : Depicted m P Q root)
    (hreach : P.Reaches root id) (hplaced : P.PlacedAs target id answer)
    (hplaced' : Q.PlacedAs target (m id) answer') :
    answer' = ObjectLayout.renamed m (Placed.rename m) answer := by
  induction hplaced generalizing answer' with
  | @intro id c part defined parts ih =>
    have hcopy := h.get? id hreach
    rw [defined, Option.map_some] at hcopy
    cases hplaced' with
    | @intro _ c' part' defined' parts' =>
      obtain rfl : c' = c.rename m := Option.some.inj (defined'.symm.trans hcopy)
      have hsame : ∀ other, P.Below id other →
          part' (m other) = ObjectLayout.renamed m (Placed.rename m) (part other) :=
        fun other hbelow => ih other hbelow (hreach.trans hbelow.reaches)
          (parts' (m other) (h.below hreach hbelow))
      have hbelow : ∀ other ∈ c.references, P.Below id other :=
        fun other hmem => ((refers_iff defined).mpr hmem).below
      refine Composite.place_rename h.injective (fun other hmem => hsame other (hbelow other hmem))
        ?_ fun other hmem => isPod_depicted h (hreach.trans (hbelow other hmem).reaches)
      intro other hmem p hp shared hshared
      have hother := hp ▸ parts other (hbelow other hmem)
      exact hsame shared ((hbelow other hmem).trans (hother.below_of_mem_shared hshared))

lemma entry?_of_get? {c : Composite} (h : P.get? id = some c) :
    ∃ name, P.entry? id = some ⟨name, some c⟩ := by
  obtain ⟨⟨name, composite⟩, hentry, rfl⟩ := Option.bind_eq_some_iff.mp h
  exact ⟨name, hentry⟩

/-- Where everything that is reached is described, the second table describes just that. -/
lemma Copied.depicted (h : Copied m excused P Q root)
    (hdefined : ∀ id, P.Reaches root id → ∃ c, P.get? id = some c) : Depicted m P Q root where
  injective := h.injective
  get? id hreach := by
    obtain ⟨c, hc⟩ := hdefined id hreach
    obtain ⟨name, hentry⟩ := entry?_of_get? hc
    obtain ⟨name', hentry'⟩ := h.described id name c hreach hentry
    rw [hc, get?_of_described hentry', Option.map_some]

/-- The layout of the renamed type is the renamed layout, and a rejection is the renamed one, unless
the first table's rejection is excused. -/
theorem layout_copied (h : Copied m excused P Q root) :
    (∃ rejection, P.layout target root = .error rejection ∧ excused rejection) ∨
      Q.layout target (m root) = renamed m (Layout.rename m) (P.layout target root) := by
  have hanswers := P.layout_answers target root
  have hanswers' := Q.layout_answers target (m root)
  rcases accept_copied target h (.refl P root) with ⟨rejection, haccept, hreason⟩ | haccept
  · rw [haccept] at hanswers
    exact Or.inl ⟨rejection, hanswers, hreason⟩
  · rw [haccept] at hanswers'
    cases hresult : answer ((P.accept target root).run {}) with
    | error rejection =>
      rw [hresult] at hanswers hanswers'
      rw [hanswers, hanswers']
      exact Or.inr rfl
    | ok align =>
      rw [hresult] at hanswers hanswers'
      obtain ⟨haccepted, placed, hplaced, hlayout⟩ := hanswers
      obtain ⟨-, placed', hplaced', hlayout'⟩ := hanswers'
      have hdepicted := h.depicted fun id hreach => by
        obtain ⟨align', haccepted'⟩ := haccepted.reaches hreach
        obtain ⟨c, hc, -⟩ := haccepted'.get?
        exact ⟨c, hc⟩
      rw [hlayout, hlayout', hplaced.renamed hdepicted (.refl P root) hplaced']
      apply Or.inr
      cases placed <;> rfl

end TypeTable

end ObjectLayout
