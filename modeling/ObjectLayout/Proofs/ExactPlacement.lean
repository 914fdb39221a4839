import ObjectLayout.Proofs.PlacementErrors
import ObjectLayout.Proofs.RegularPlacement

/-!
# Exact placements

Without a bound on addresses the rules of placement give the exact placement of a type. Under a
bound every move either gives the same or finds its result out of bounds; since no later move takes
the frontier back, the exact size of the type is out of bounds then. So a placement under a bound
follows the exact one until a type outgrows the bound, and a rejection names that type.
-/
namespace ObjectLayout

/-- The target with nothing but the bound on addresses taken away. -/
def Target.unbounded (target : Target) : Target := { target with addressSpace := none }

def Site.unbounded (site : Site) : Site := { site with target := site.target.unbounded }

/-- The run gives the exact result, or fails for a reason that `blamed` admits. -/
def Follows {α : Type} (blamed : Rejection → Prop) (run : Except Rejection α) (exact : α) : Prop :=
  run = .ok exact ∨ ∃ rejection, run = .error rejection ∧ blamed rejection

namespace Follows

variable {α β : Type} {blamed : Rejection → Prop}

lemma ok (a : α) : Follows blamed (.ok a) a := Or.inl rfl

lemma bind {run : Except Rejection α} {next : α → Except Rejection β} {a : α} {b : β}
    (h : Follows blamed run a) (hnext : Follows blamed (next a) b) :
    Follows blamed (run >>= next) b := by
  rcases h with rfl | ⟨rejection, rfl, hblamed⟩
  · exact hnext
  · exact Or.inr ⟨rejection, rfl, hblamed⟩

lemma mapM {step : α → Except Rejection β} {l : List α} {exact : List β}
    (h : List.Forall₂ (fun x y => Follows blamed (step x) y) l exact) :
    Follows blamed (l.mapM step) exact := by
  induction h with
  | nil => exact ok []
  | cons hhead _ ih =>
    rw [List.mapM_cons]
    exact hhead.bind (ih.bind (ok _))

lemma foldlM {step step' : β → α → Except Rejection β} {l : List α} {b last : β}
    (h : ∀ x ∈ l, ∀ b next, step' b x = .ok next → Follows blamed (step b x) next)
    (hexact : l.foldlM step' b = .ok last) : Follows blamed (l.foldlM step b) last := by
  induction l generalizing b with
  | nil =>
    cases hexact
    exact ok _
  | cons x l ih =>
    obtain ⟨next, hnext, hexact⟩ := foldlM_cons_eq_ok.mp hexact
    rw [List.foldlM_cons]
    exact (h x List.mem_cons_self b next hnext).bind
      (ih (fun y hy => h y (List.mem_cons_of_mem _ hy)) hexact)

/-- What follows an exact result and succeeds gives just that. -/
lemma eq_of_ok {a exact : α} (h : Follows blamed (.ok a) exact) : a = exact := by
  rcases h with heq | ⟨rejection, heq, -⟩
  · exact Except.ok.inj heq
  · cases heq

lemma mono {blamed' : Rejection → Prop} {run : Except Rejection α} {exact : α}
    (h : Follows blamed run exact) (hblamed : ∀ rejection, blamed rejection → blamed' rejection) :
    Follows blamed' run exact :=
  h.imp_right fun ⟨rejection, hrun, hreason⟩ => ⟨rejection, hrun, hblamed rejection hreason⟩

end Follows

namespace Site

variable {site : Site} {blamed : Rejection → Prop} {n m : Nat}

/-- The offset is within bounds, or the owner is rightly said to outgrow them. -/
def Fits (site : Site) (blamed : Rejection → Prop) (n : Nat) : Prop :=
  site.target.holds n = true ∨ blamed (.sizeOverflow site.owner)

lemma Fits.le (h : site.Fits blamed n) (hle : m ≤ n) : site.Fits blamed m :=
  h.imp_left fun hholds => Target.holds_of_le hholds hle

lemma Fits.require (h : site.Fits blamed n) :
    Follows blamed (site.require (site.target.offset? n)) n := by
  unfold Target.offset?
  split
  · exact .ok n
  · next hbeyond => exact Or.inr ⟨_, rfl, h.resolve_left hbeyond⟩

end Site

namespace Frontier

variable {site : Site} {blamed : Rejection → Prop} {frontier : Frontier} {align bytes : Nat}

lemma roundTo_follows
    (h : site.Fits blamed (roundUp frontier.offset (site.granted align))) :
    Follows blamed (frontier.roundTo site align)
      { frontier with offset := roundUp frontier.offset (site.granted align) } :=
  h.require.bind (.ok _)

lemma alignFor_follows
    (h : site.Fits blamed (roundUp frontier.offset (site.granted align))) :
    Follows blamed (frontier.alignFor site align)
      ⟨roundUp frontier.offset (site.granted align),
        max frontier.align (site.granted align)⟩ :=
  roundTo_follows h

lemma advance_follows (h : site.Fits blamed (frontier.offset + bytes)) :
    Follows blamed (frontier.advance site bytes)
      { frontier with offset := frontier.offset + bytes } :=
  h.require.bind (.ok _)

end Frontier

namespace Draft

variable {site : Site} {blamed : Rejection → Prop} {draft next last : Draft} {type : TypeId}
  {sharing : Sharing} {core : Core} {size : Nat} {bytes : TypeId × Core → Nat}
  {cores : List (TypeId × Core)}

lemma embed_follows (h : draft.embed site.unbounded type sharing core size = .ok next)
    (hfits : site.Fits blamed next.frontier.offset) :
    Follows blamed (draft.embed site type sharing core size) next := by
  unfold embed at h ⊢
  by_cases hempty : core.dataSize = 0
  · rw [if_pos hempty] at h ⊢
    exact Or.inl h
  · rw [if_neg hempty] at h ⊢
    obtain ⟨start, hstart, h⟩ := bind_eq_ok.mp h
    obtain ⟨after, hafter, h⟩ := bind_eq_ok.mp h
    cases h
    obtain rfl := Frontier.alignFor_eq_ok hstart
    obtain ⟨-, rfl⟩ := Frontier.advance_eq_ok.mp hafter
    exact (Frontier.alignFor_follows (hfits.le (Nat.le_add_right _ _))).bind
      ((Frontier.advance_follows hfits).bind (.ok _))

lemma embedAll_follows (h : draft.embedAll site.unbounded sharing bytes cores = .ok last)
    (hfits : site.Fits blamed last.frontier.offset) :
    Follows blamed (draft.embedAll site sharing bytes cores) last := by
  induction cores generalizing draft with
  | nil =>
    cases h
    exact .ok _
  | cons core cores ih =>
    obtain ⟨next, hnext, hrest⟩ := foldlM_cons_eq_ok.mp h
    rw [embedAll, List.foldlM_cons]
    exact (embed_follows hnext (hfits.le (embedAll_offset_le hrest))).bind (ih hrest)

end Draft

namespace FieldGroup

variable {site : Site} {blamed : Rejection → Prop}
  {extent extent' : FieldType → Except Rejection (Nat × Nat)} {frontier next last : Frontier}
  {placed : List PlacedField} {group : FieldGroup} {groups : List FieldGroup} {target : Target}

lemma place_follows (h : group.place site.unbounded extent' frontier = .ok (next, placed))
    (hextent : ∀ field ∈ group.fields, ∀ size, extent' field.type = .ok size →
      Follows blamed (extent field.type) size)
    (hfits : site.Fits blamed next.offset) :
    Follows blamed (group.place site extent frontier) (next, placed) := by
  cases group with
  | plain field =>
    obtain ⟨size, natural, hsize, start, rfl, rfl, rfl⟩ := place_plain_eq_ok h
    refine (hextent field (List.mem_singleton_self field) _ hsize).bind ?_
    exact (Frontier.alignFor_follows (hfits.le (Nat.le_add_right _ _))).bind
      ((Frontier.advance_follows hfits).bind (.ok _))
  | marker field =>
    obtain ⟨rfl, rfl⟩ := place_marker_eq_ok h
    exact (Frontier.roundTo_follows hfits).bind (.ok _)
  | run unit fields =>
    obtain ⟨start, rfl, rfl, rfl⟩ := place_run_eq_ok h
    exact (Frontier.alignFor_follows (hfits.le (Nat.le_add_right _ _))).bind
      ((Frontier.advance_follows hfits).bind (.ok _))

lemma placeAll_follows (h : placeAll site.unbounded extent' frontier groups = .ok (last, placed))
    (hvalid : ∀ group ∈ groups, group.Valid target)
    (hextent : ∀ field ∈ groups.flatMap fields, ∀ size, extent' field.type = .ok size →
      Follows blamed (extent field.type) size)
    (hfits : site.Fits blamed last.offset) :
    Follows blamed (placeAll site extent frontier groups) (last, placed) := by
  induction groups generalizing frontier placed with
  | nil =>
    cases h
    exact .ok _
  | cons group groups ih =>
    obtain ⟨next, first, others, hgroup, hrest, rfl⟩ := placeAll_cons_eq_ok h
    obtain ⟨-, htail⟩ := List.forall_mem_cons.mp hvalid
    have hle := (placeAll_offset_le htail hrest).1
    rw [List.flatMap_cons] at hextent
    refine (place_follows hgroup (fun field hmem => hextent field (List.mem_append_left _ hmem))
      (hfits.le hle)).bind ?_
    exact (ih hrest htail fun field hmem => hextent field (List.mem_append_right _ hmem)).bind
      (.ok _)

end FieldGroup

namespace Composite

variable {target : Target} {isPod : TypeId → Bool} {blamed : Rejection → Prop}
  {part exact : TypeId → Except Rejection Placed} {c : Composite} {placed : Placed}

lemma openSlot_follows {owned : List (TypeId × Core)} {opened : Draft}
    (h : c.openSlot target.unbounded owned = .ok opened)
    (hfits : (c.site target).Fits blamed opened.frontier.offset) :
    Follows blamed (c.openSlot target owned) opened := by
  obtain rfl := openSlot_eq_ok h
  unfold openSlot
  rw [← opensSlot]
  by_cases hopens : c.opensSlot owned = true
  · simp only [hopens, if_true] at hfits ⊢
    exact (Frontier.alignFor_follows (hfits.le (Nat.le_add_right _ _))).bind
      ((Frontier.advance_follows hfits).bind (.ok _))
  · simp only [hopens, Bool.false_eq_true, if_false]
    exact .ok _

lemma close_follows {site : Site} {frontier : Frontier} {dispatch : Option Nat} {core : Core}
    (h : core = ⟨frontier.offset,
      if frontier.offset = 0 then 0 else roundUp frontier.offset frontier.align,
      frontier.align, dispatch⟩) (hfits : site.Fits blamed core.size) :
    Follows blamed (Core.close site frontier dispatch) core := by
  subst h
  unfold Core.close
  by_cases hempty : frontier.offset = 0
  · simp only [hempty, if_true]
    exact .ok _
  · simp only [hempty, if_false] at hfits ⊢
    exact hfits.require.bind (.ok _)

lemma extent_follows {type : FieldType} {size : Nat × Nat}
    (h : extent target.unbounded exact type = .ok size)
    (hpart : ∀ id, type = .composite id → ∀ p, exact id = .ok p → Follows blamed (part id) p) :
    Follows blamed (extent target part type) size := by
  cases type with
  | composite id =>
    obtain ⟨p, hp, h⟩ := bind_eq_ok.mp h
    cases h
    exact (hpart id rfl p hp).bind (.ok _)
  | _ => exact Or.inl h

lemma placeShared_follows {draft last : Draft} {shared : List TypeId}
    {cores : List (TypeId × Core)}
    (hlent : List.Forall₂ (fun id core => ∃ p, Follows blamed (part id) p ∧ core = (id, p.core))
      shared cores)
    (h : draft.embedAll (c.site target.unbounded) .shared (fun base => base.2.size) cores =
      .ok last)
    (hfits : (c.site target).Fits blamed last.frontier.offset) :
    Follows blamed (c.placeShared target part draft shared) last := by
  unfold placeShared
  induction hlent generalizing draft with
  | nil =>
    cases h
    exact .ok _
  | @cons id core shared cores hhead _ ih =>
    obtain ⟨p, hp, rfl⟩ := hhead
    obtain ⟨next, hnext, h⟩ := foldlM_cons_eq_ok.mp h
    have hrest : next.embedAll (c.site target.unbounded) .shared (fun base => base.2.size) cores =
        .ok last := h
    have hembed : Follows blamed
        (draft.embed (c.site target) id .shared p.core p.core.size) next :=
      Draft.embed_follows hnext (hfits.le (Draft.embedAll_offset_le hrest))
    rw [List.foldlM_cons]
    exact (hp.bind hembed).bind (ih hrest)

section Construction

variable (steps : Construction target.unbounded isPod exact c placed)
  (hwell : c.WellFormed target.unbounded)
  (hregular : steps.PartsRegular)
  (hparts : ∀ id p, id ∈ c.references ∨ id ∈ placed.shared → exact id = .ok p →
    Follows blamed (part id) p)
include steps hparts

lemma Construction.ownedCores_follows : Follows blamed (c.ownedCores part) steps.owned := by
  refine Follows.mapM ?_
  have hlent := (List.forall₂_and_left _ _).mpr ⟨fun _ hmem => hmem, steps.ownedLent⟩
  refine hlent.imp ?_
  rintro base core ⟨hmem, p, hp, rfl⟩
  have href := mem_references_of_ownedBase hmem
  exact (hparts base.type p (Or.inl href) hp).bind (.ok _)

lemma Construction.hoisted_follows : Follows blamed (c.hoisted part) placed.shared := by
  refine Follows.foldlM (fun base hmem seen next hnext => ?_) steps.collected
  obtain ⟨p, hp, hnext⟩ := bind_eq_ok.mp hnext
  cases hnext
  exact (hparts base.type p (Or.inl (mem_references_of_base hmem)) hp).bind (.ok _)

include hwell hregular

lemma Construction.placeOwn_follows
    (hfrontier : (c.site target).Fits blamed steps.frontier.offset) :
    Follows blamed (c.placeOwn target isPod part)
      ({ steps.based with frontier := c.forceAlign steps.frontier }, placed.layout.fields) := by
  have hordered := hregular.ordered hwell
  have hbased := hfrontier.le hordered.fields.offset
  have hslot : Follows blamed (c.openSlot target steps.owned) steps.opened :=
    openSlot_follows steps.slot (hbased.le hordered.based.offset)
  have hbases : Follows blamed (steps.opened.embedAll (c.site target) .owned
      (ownedBytes target isPod) steps.owned) steps.based :=
    Draft.embedAll_follows steps.bases hbased
  have hfields : Follows blamed (FieldGroup.placeAll (c.site target) (extent target part)
      steps.based.frontier (FieldGroup.ofFields c.fields))
      (steps.frontier, placed.layout.fields) := by
    refine FieldGroup.placeAll_follows steps.fields (FieldGroup.ofFields_valid hwell.fields)
      (fun field hmem size hsize => extent_follows hsize fun id htype p hp => ?_) hfrontier
    rw [FieldGroup.flatMap_fields_ofFields] at hmem
    exact hparts id p (Or.inl (mem_references_of_field hmem htype)) hp
  exact (steps.ownedCores_follows hparts).bind (hslot.bind (hbases.bind (hfields.bind (.ok _))))

/-- A placement follows the exact one if the placements that it takes from do and the exact size is
within bounds, or else the type is to blame. -/
theorem Construction.follows (hpointer : target.pointerSize.isPowerOfTwo)
    (hfits : (c.site target).Fits blamed placed.layout.size) :
    Follows blamed (c.place target isPod part) placed := by
  have hplaced := hregular.regular hwell
  have hordered := hregular.ordered hwell
  have hcomplete : (c.site target).Fits blamed steps.complete.frontier.offset := by
    rw [← steps.dataSize_eq]
    exact hfits.le hplaced.dataSize_le_size
  have hfrontier := hcomplete.le hordered.complete.offset
  rw [forceAlign_offset] at hfrontier
  have hown := steps.placeOwn_follows hwell hregular hparts hfrontier
  have hclose : Follows blamed (Core.close (c.site target) (c.forceAlign steps.frontier)
      steps.based.dispatch) placed.core := by
    refine close_follows ?_ (hfits.le (hplaced.core_size_le hpointer))
    rw [forceAlign_offset]
    exact steps.core
  have hcollected := steps.hoisted_follows hparts
  have hshared : Follows blamed (c.placeShared target part
      { steps.based with frontier := c.forceAlign steps.frontier } placed.shared)
      steps.complete := by
    refine placeShared_follows ?_ steps.shared hcomplete
    have hlent := (List.forall₂_and_left _ _).mpr ⟨fun _ hmem => hmem, steps.hoistedLent⟩
    refine hlent.imp ?_
    rintro id core ⟨hmem, p, hp, rfl⟩
    exact ⟨p, hparts id p (Or.inr hmem) hp, rfl⟩
  rw [steps.size_eq] at hfits
  have hresult : placed = ⟨⟨roundUp (max steps.complete.frontier.offset 1)
      steps.complete.frontier.align, steps.complete.frontier.align, steps.complete.frontier.offset,
      steps.complete.dispatch, placed.layout.fields, steps.complete.bases⟩, placed.core,
      placed.shared⟩ := by
    rw [← steps.size_eq, ← steps.layout]
  unfold place
  rw [hresult]
  exact hown.bind (hclose.bind (hcollected.bind (hshared.bind (hfits.require.bind (.ok _)))))

end Construction

end Composite

end ObjectLayout
