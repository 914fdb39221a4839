import ObjectLayout.Proofs.PlacementWalk

/-!
# Failing placements

The only thing that can go wrong in placing a type itself is that it grows out of the address space;
every other failure is that of a type that it asks for. So a type fails only because it, or a type
that it reaches, is too large, and without a bound on addresses nothing fails.
-/
namespace ObjectLayout

/-- A run that fails, if it does, for a reason that `blamed` admits. -/
def FailsOnly {α : Type} (blamed : Rejection → Prop) (run : Except Rejection α) : Prop :=
  ∀ rejection, run = .error rejection → blamed rejection

namespace FailsOnly

variable {α β : Type} {blamed : Rejection → Prop}

lemma ok (a : α) : FailsOnly blamed (.ok a) := by
  intro rejection h
  cases h

lemma error {rejection : Rejection} (h : blamed rejection) :
    FailsOnly blamed (.error rejection : Except Rejection α) := by
  rintro _ ⟨⟩
  exact h

lemma bind {run : Except Rejection α} {next : α → Except Rejection β} (h : FailsOnly blamed run)
    (hnext : ∀ a, run = .ok a → FailsOnly blamed (next a)) : FailsOnly blamed (run >>= next) := by
  cases run with
  | error rejection => exact error (h rejection rfl)
  | ok a => exact hnext a rfl

lemma foldlM {step : β → α → Except Rejection β} {l : List α}
    (h : ∀ x ∈ l, ∀ b, FailsOnly blamed (step b x)) (b : β) :
    FailsOnly blamed (l.foldlM step b) := by
  induction l generalizing b with
  | nil => exact ok b
  | cons x l ih =>
    rw [List.foldlM_cons]
    exact (h x List.mem_cons_self b).bind fun next _ =>
      ih (fun y hy => h y (List.mem_cons_of_mem _ hy)) next

lemma mapM {step : α → Except Rejection β} {l : List α}
    (h : ∀ x ∈ l, FailsOnly blamed (step x)) : FailsOnly blamed (l.mapM step) := by
  induction l with
  | nil => exact ok []
  | cons x l ih =>
    rw [List.mapM_cons]
    refine (h x List.mem_cons_self).bind fun y _ => ?_
    exact (ih fun z hz => h z (List.mem_cons_of_mem _ hz)).bind fun ys _ => ok _

lemma mono {blamed' : Rejection → Prop} {run : Except Rejection α} (h : FailsOnly blamed run)
    (hblamed : ∀ rejection, blamed rejection → blamed' rejection) : FailsOnly blamed' run :=
  fun rejection hrun => hblamed rejection (h rejection hrun)

end FailsOnly

section

variable (site : Site) {blamed : Rejection → Prop}
  (howner : site.target.addressSpace.isSome → blamed (.sizeOverflow site.owner))
include howner

lemma Site.require_failsOnly (n : Nat) :
    FailsOnly blamed (site.require (site.target.offset? n)) := by
  unfold Target.offset?
  split
  · exact .ok n
  · next hbeyond =>
    refine .error (howner ?_)
    cases hspace : site.target.addressSpace with
    | none => simp [Target.holds, hspace] at hbeyond
    | some bound => rfl

lemma Frontier.roundTo_failsOnly (frontier : Frontier) (align : Nat) :
    FailsOnly blamed (frontier.roundTo site align) :=
  (site.require_failsOnly howner _).bind fun _ _ => .ok _

lemma Frontier.advance_failsOnly (frontier : Frontier) (bytes : Nat) :
    FailsOnly blamed (frontier.advance site bytes) :=
  (site.require_failsOnly howner _).bind fun _ _ => .ok _

lemma Core.close_failsOnly (frontier : Frontier) (dispatch : Option Nat) :
    FailsOnly blamed (Core.close site frontier dispatch) := by
  unfold Core.close
  split
  · exact .ok _
  · exact (site.require_failsOnly howner _).bind fun _ _ => .ok _

lemma Draft.embed_failsOnly (draft : Draft) (type : TypeId) (sharing : Sharing) (core : Core)
    (bytes : Nat) : FailsOnly blamed (draft.embed site type sharing core bytes) := by
  unfold Draft.embed
  split
  · exact .ok _
  · refine ((draft.frontier.regard site core.align).roundTo_failsOnly site howner _).bind
      fun start _ => ?_
    exact (start.advance_failsOnly site howner _).bind fun _ _ => .ok _

lemma FieldGroup.place_failsOnly {extent : FieldType → Except Rejection (Nat × Nat)}
    (frontier : Frontier) (group : FieldGroup)
    (hextent : ∀ field ∈ group.fields, FailsOnly blamed (extent field.type)) :
    FailsOnly blamed (group.place site extent frontier) := by
  cases group with
  | plain field =>
    refine (hextent field (List.mem_singleton_self field)).bind fun size _ => ?_
    refine ((frontier.regard site _).roundTo_failsOnly site howner _).bind fun start _ => ?_
    exact (start.advance_failsOnly site howner _).bind fun _ _ => .ok _
  | marker field => exact (frontier.roundTo_failsOnly site howner _).bind fun _ _ => .ok _
  | run unit fields =>
    refine ((frontier.regard site _).roundTo_failsOnly site howner _).bind fun start _ => ?_
    exact (start.advance_failsOnly site howner _).bind fun _ _ => .ok _

lemma FieldGroup.placeAll_failsOnly {extent : FieldType → Except Rejection (Nat × Nat)}
    (frontier : Frontier) (groups : List FieldGroup)
    (hextent : ∀ field ∈ groups.flatMap fields, FailsOnly blamed (extent field.type)) :
    FailsOnly blamed (placeAll site extent frontier groups) := by
  induction groups generalizing frontier with
  | nil => exact .ok _
  | cons group groups ih =>
    rw [List.flatMap_cons] at hextent
    refine (group.place_failsOnly site howner frontier fun field hmem =>
      hextent field (List.mem_append_left _ hmem)).bind fun placed _ => ?_
    exact (ih _ fun field hmem => hextent field (List.mem_append_right _ hmem)).bind
      fun _ _ => .ok _

end

namespace Composite

variable {target : Target} {isPod : TypeId → Bool} {part : TypeId → Except Rejection Placed}
  {c : Composite} {blamed : Rejection → Prop}

/-- A placement fails because the type is too large, or as a placement that it asks for does. -/
theorem place_failsOnly (howner : target.addressSpace.isSome → blamed (.sizeOverflow c.name))
    (hpart : ∀ id ∈ c.references, FailsOnly blamed (part id))
    (hshared : ∀ id ∈ c.references, ∀ p, part id = .ok p →
      ∀ s ∈ p.shared, FailsOnly blamed (part s)) :
    FailsOnly blamed (c.place target isPod part) := by
  have hbase : ∀ base ∈ c.bases, FailsOnly blamed (part base.type) :=
    fun base hmem => hpart _ (mem_references_of_base hmem)
  have hextent : ∀ field ∈ c.fields, FailsOnly blamed (extent target part field.type) := by
    intro field hmem
    cases htype : field.type with
    | composite id => exact (hpart id (mem_references_of_field hmem htype)).bind fun _ _ => .ok _
    | _ => exact .ok _
  have hopen : ∀ owned, FailsOnly blamed (c.openSlot target owned) := by
    intro owned
    unfold openSlot
    split
    · refine (Frontier.roundTo_failsOnly (c.site target) howner _ _).bind fun start _ => ?_
      exact (start.advance_failsOnly (c.site target) howner _).bind fun _ _ => .ok _
    · exact .ok _
  have hown : FailsOnly blamed (c.placeOwn target isPod part) := by
    unfold placeOwn ownedCores
    refine (FailsOnly.mapM fun base hmem => (hbase base (List.mem_of_mem_filter hmem)).bind
      fun _ _ => .ok _).bind fun owned _ => ?_
    refine (hopen owned).bind fun opened _ => ?_
    refine (FailsOnly.foldlM (fun base _ draft =>
      draft.embed_failsOnly (c.site target) howner _ _ _ _) opened).bind fun based _ => ?_
    refine (FieldGroup.placeAll_failsOnly (c.site target) howner _ _ ?_).bind
      fun _ _ => .ok _
    rwa [FieldGroup.flatMap_fields_ofFields]
  have hhoisted : FailsOnly blamed (c.hoisted part) :=
    FailsOnly.foldlM (fun base hmem seen => (hbase base hmem).bind fun _ _ => .ok _) []
  unfold place
  refine hown.bind fun own _ => ?_
  refine (Core.close_failsOnly (c.site target) howner _ _).bind fun core _ => ?_
  refine hhoisted.bind fun shared hcollected => ?_
  refine FailsOnly.bind ?_ fun complete _ =>
    ((c.site target).require_failsOnly howner _).bind fun _ _ => .ok _
  refine FailsOnly.foldlM (fun id hmem draft => FailsOnly.bind ?_ fun p _ =>
    draft.embed_failsOnly (c.site target) howner _ _ _ _) _
  obtain ⟨base, hin, p, hp, hcase⟩ := (mem_hoisted hcollected).mp hmem
  rcases hcase with ⟨-, rfl⟩ | hid
  · exact hbase base hin
  · exact hshared _ (mem_references_of_base hin) p hp id hid

end Composite

namespace TypeTable

variable {table : TypeTable} {target : Target} {id : TypeId}

/-- Addresses are bounded, and the rejection says that a type that `id` reaches outgrows them. -/
def TooLarge (table : TypeTable) (target : Target) (id : TypeId) (rejection : Rejection) : Prop :=
  target.addressSpace.isSome ∧
    ∃ part c, table.Reaches id part ∧ table.get? part = some c ∧ rejection = .sizeOverflow c.name

lemma TooLarge.of_below {part : TypeId} {rejection : Rejection}
    (h : table.TooLarge target part rejection) (hbelow : table.Below id part) :
    table.TooLarge target id rejection := by
  obtain ⟨hspace, other, c, hreach, hc, rfl⟩ := h
  exact ⟨hspace, other, c, hbelow.reaches.trans hreach, hc, rfl⟩

/-- What is placed fails only because some reachable type is too large. -/
theorem PlacedAs.failsOnly {answer : Except Rejection Placed}
    (h : table.PlacedAs target id answer) : FailsOnly (table.TooLarge target id) answer := by
  induction h with
  | @intro id c part defined parts ih =>
    have hbelow : ∀ other, table.Below id other →
        FailsOnly (table.TooLarge target id) (part other) := fun other hother =>
      (ih other hother).mono fun _ hlarge => hlarge.of_below hother
    have hrefers : ∀ other ∈ c.references, table.Below id other :=
      fun other hmem => ((refers_iff defined).mpr hmem).below
    refine Composite.place_failsOnly
      (fun hspace => ⟨hspace, id, c, .refl table id, defined, rfl⟩)
      (fun other hmem => hbelow other (hrefers other hmem)) ?_
    intro other hmem p hp shared hshared
    have hplaced := hp ▸ parts other (hrefers other hmem)
    exact hbelow shared ((hrefers other hmem).trans (hplaced.below_of_mem_shared hshared))

/-- Without a bound on addresses every placement succeeds. -/
theorem PlacedAs.eq_ok_of_unbounded {answer : Except Rejection Placed}
    (h : table.PlacedAs target id answer) (hspace : target.addressSpace = none) :
    ∃ placed, answer = .ok placed := by
  cases answer with
  | ok placed => exact ⟨placed, rfl⟩
  | error rejection =>
    obtain ⟨hbounded, -⟩ := h.failsOnly rejection rfl
    simp [hspace] at hbounded

end TypeTable

end ObjectLayout
