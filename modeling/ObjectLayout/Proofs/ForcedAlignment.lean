import ObjectLayout.Proofs.PlacementErrors
import ObjectLayout.Proofs.RegularPlacement
import ObjectLayout.Proofs.Variants

/-!
# Forced alignments

A forced alignment is counted once the fields of a type are placed. No move looks at the alignment
counted so far, so the shared bases come to lie as before, and only the alignment of the type and
the two sizes that are rounded to it change. The size of the whole is the only thing that can
outgrow the address space: the core is rounded no further.
-/
namespace ObjectLayout

section

variable {ε α β : Type}

/-- What is done with a result that has been changed is changed in turn. -/
lemma bind_comm {x : Except ε α} {step step' : α → Except ε β} {change : α → α} {change' : β → β}
    (h : ∀ a, step' (change a) = (step a).map change') :
    (x.map change >>= step') = (x >>= step).map change' := by
  cases x with
  | error e => rfl
  | ok a => exact h a

/-- A loop whose step commutes with a change of the state commutes with it. -/
lemma foldlM_comm {step step' : β → α → Except ε β} {change : β → β}
    (h : ∀ b x, step' (change b) x = (step b x).map change) (l : List α) (b : β) :
    l.foldlM step' (change b) = (l.foldlM step b).map change := by
  induction l generalizing b with
  | nil => rfl
  | cons x l ih =>
    rw [List.foldlM_cons, List.foldlM_cons, h]
    exact bind_comm ih

end

/-- Count an alignment without a move. -/
def Frontier.raise (forced : Nat) (frontier : Frontier) : Frontier :=
  { frontier with align := max frontier.align forced }

def Draft.raise (forced : Nat) (draft : Draft) : Draft :=
  { draft with frontier := draft.frontier.raise forced }

/-- The draft behind other bases, with an alignment counted. -/
def Draft.under (bases : List PlacedBase) (forced : Nat) (draft : Draft) : Draft :=
  ⟨draft.frontier.raise forced, draft.dispatch, bases ++ draft.bases⟩

namespace Frontier

variable {site : Site} {forced align bytes : Nat}

lemma regard_raise (frontier : Frontier) :
    (frontier.raise forced).regard site align = (frontier.regard site align).raise forced := by
  simp only [regard, raise, max_right_comm]

lemma roundTo_raise (frontier : Frontier) :
    (frontier.raise forced).roundTo site align =
      (frontier.roundTo site align).map (raise forced) := by
  unfold roundTo
  cases h : site.require (site.target.roundUp? frontier.offset (site.granted align)) <;>
    simp only [raise, h] <;> rfl

lemma alignFor_raise (frontier : Frontier) :
    (frontier.raise forced).alignFor site align =
      (frontier.alignFor site align).map (raise forced) := by
  rw [alignFor, regard_raise, roundTo_raise, alignFor]

lemma advance_raise (frontier : Frontier) :
    (frontier.raise forced).advance site bytes =
      (frontier.advance site bytes).map (raise forced) := by
  unfold advance
  cases h : site.require (site.target.offset? (frontier.offset + bytes)) <;>
    simp only [raise, h] <;> rfl

end Frontier

namespace Draft

/-- The layout of a draft to which nothing is added. -/
def closed (fields : List PlacedField) (draft : Draft) : Layout where
  size := roundUp (max draft.frontier.offset 1) draft.frontier.align
  align := draft.frontier.align
  dataSize := draft.frontier.offset
  dispatch := draft.dispatch
  fields := fields
  bases := draft.bases

variable {site : Site} {type : TypeId} {sharing : Sharing} {core : Core}
  {others : List PlacedBase} {forced bytes : Nat}

/-- No base looks at those before it, or at the alignment counted so far. -/
lemma embed_under (draft : Draft) :
    (draft.under others forced).embed site type sharing core bytes =
      (draft.embed site type sharing core bytes).map (under others forced) := by
  have hframe : (draft.under others forced).frontier = draft.frontier.raise forced := rfl
  unfold embed
  by_cases hempty : core.dataSize = 0
  · rw [if_pos hempty, if_pos hempty, hframe, Frontier.regard_raise]
    exact congrArg (fun bases => Except.ok (Draft.mk _ _ bases)) (List.append_assoc _ _ _)
  · rw [if_neg hempty, if_neg hempty, hframe, Frontier.alignFor_raise]
    refine bind_comm fun start => ?_
    rw [Frontier.advance_raise]
    exact bind_comm fun next =>
      congrArg (fun bases => Except.ok (Draft.mk _ _ bases)) (List.append_assoc _ _ _)

end Draft

namespace Composite

variable {target : Target} {isPod : TypeId → Bool} {part : TypeId → Except Rejection Placed}
  {c : Composite} {placed placed' : Placed} {forced : Nat}

/-- The type with an alignment forced on it. -/
def forcedTo (c : Composite) (forced : Nat) : Composite := { c with forcedAlign := some forced }

/-- A type that is placed has the layout that closes its parts. -/
lemma layout_of_parts {own complete : Draft} {fields : List PlacedField} {shared : List TypeId}
    (hown : c.placeOwn target isPod part = .ok (own, fields))
    (hshared : c.hoisted part = .ok shared)
    (hcomplete : c.placeShared target part own shared = .ok complete)
    (h : c.place target isPod part = .ok placed) : placed.layout = complete.closed fields := by
  obtain ⟨⟨own', fields'⟩, hown', h⟩ := bind_eq_ok.mp h
  obtain ⟨core, -, h⟩ := bind_eq_ok.mp h
  obtain ⟨shared', hshared', h⟩ := bind_eq_ok.mp h
  obtain ⟨complete', hcomplete', h⟩ := bind_eq_ok.mp h
  obtain ⟨size, hsize, h⟩ := bind_eq_ok.mp h
  cases h
  cases hown.symm.trans hown'
  cases hshared.symm.trans hshared'
  cases hcomplete.symm.trans hcomplete'
  obtain ⟨-, rfl⟩ := Site.require_offset_eq_ok.mp hsize
  rfl

lemma placeOwn_forced (hopen : c.forcedAlign = none) {own : Draft} {fields : List PlacedField}
    (h : c.placeOwn target isPod part = .ok (own, fields)) :
    (c.forcedTo forced).placeOwn target isPod part = .ok (own.raise forced, fields) := by
  obtain ⟨owned, howned, h⟩ := bind_eq_ok.mp h
  obtain ⟨opened, hopened, h⟩ := bind_eq_ok.mp h
  obtain ⟨based, hbased, h⟩ := bind_eq_ok.mp h
  obtain ⟨⟨frontier, _⟩, hfields, h⟩ := bind_eq_ok.mp h
  cases h
  refine bind_eq_ok.mpr ⟨owned, howned, bind_eq_ok.mpr ⟨opened, hopened, bind_eq_ok.mpr
    ⟨based, hbased, bind_eq_ok.mpr ⟨(frontier, _), hfields, ?_⟩⟩⟩⟩
  simp [forceAlign, hopen, forcedTo, Draft.raise, Frontier.raise, pure, Except.pure]

lemma placeShared_under {others : List PlacedBase} (draft : Draft) (shared : List TypeId) :
    c.placeShared target part (draft.under others forced) shared =
      (c.placeShared target part draft shared).map (Draft.under others forced) := by
  refine foldlM_comm (fun draft id => ?_) shared draft
  cases part id with
  | error e => rfl
  | ok p => exact Draft.embed_under draft

lemma placeShared_forcedTo {own complete : Draft} {shared : List TypeId}
    (h : c.placeShared target part own shared = .ok complete) :
    (c.forcedTo forced).placeShared target part (own.raise forced) shared =
      .ok (complete.raise forced) := by
  have hunder : c.placeShared target part (own.under [] forced) shared = _ :=
    placeShared_under own shared
  rw [h] at hunder
  exact hunder

/-- Where both types are placed, a forced alignment changes nothing of the layout but its alignment
and its size. -/
lemma layout_of_place_forcedTo (hopen : c.forcedAlign = none)
    (h : c.place target isPod part = .ok placed)
    (h' : (c.forcedTo forced).place target isPod part = .ok placed') :
    placed'.layout = { placed.layout with
      size := roundUp (max placed.layout.dataSize 1) (max placed.layout.align forced)
      align := max placed.layout.align forced } := by
  obtain ⟨⟨own, fields⟩, hown, hrest⟩ := bind_eq_ok.mp h
  obtain ⟨core, -, hrest⟩ := bind_eq_ok.mp hrest
  obtain ⟨shared, hshared, hrest⟩ := bind_eq_ok.mp hrest
  obtain ⟨complete, hcomplete, -⟩ := bind_eq_ok.mp hrest
  rw [layout_of_parts hown hshared hcomplete h,
    layout_of_parts (placeOwn_forced hopen hown) hshared (placeShared_forcedTo hcomplete) h']
  rfl

/-- A core cannot be rounded off only where nothing that rounds to more is addressed. -/
lemma close_or_beyond (site : Site) {frontier : Frontier} {size align : Nat}
    (dispatch : Option Nat) (h : roundUp frontier.offset frontier.align ≤ roundUp size align) :
    (∃ core, Core.close site frontier dispatch = .ok core) ∨
      Core.close site frontier dispatch = .error (.sizeOverflow site.owner) ∧
        site.require (site.target.roundUp? size align) = .error (.sizeOverflow site.owner) := by
  cases hclose : Core.close site frontier dispatch with
  | ok core => exact Or.inl ⟨core, rfl⟩
  | error rejection =>
    have hfails : FailsOnly (Eq (.sizeOverflow site.owner)) (Core.close site frontier dispatch) :=
      Core.close_failsOnly site (fun _ => rfl) frontier dispatch
    rw [← hfails rejection hclose]
    refine Or.inr ⟨rfl, ?_⟩
    cases hsize : site.require (site.target.roundUp? size align) with
    | error other =>
      have hother : FailsOnly (Eq (.sizeOverflow site.owner))
          (site.require (site.target.roundUp? size align)) :=
        site.require_failsOnly (fun _ => rfl) (roundUp size align)
      rw [← hother other hsize]
    | ok size' =>
      obtain ⟨hholds, -⟩ := Site.require_offset_eq_ok.mp hsize
      have hround : site.require (site.target.roundUp? frontier.offset frontier.align) = .ok _ :=
        Site.require_offset_eq_ok.mpr ⟨Target.holds_of_le hholds h, rfl⟩
      rw [Core.close, hround] at hclose
      split at hclose <;> cases hclose

/-- A forced alignment changes nothing of a layout but its alignment and its size, and the type has
no layout only where this size is too large. -/
theorem place_forcedTo (hopen : c.forcedAlign = none)
    (h : c.place target isPod part = .ok placed) (hregular : placed.Regular target)
    (hpointer : target.pointerSize.isPowerOfTwo) (hforced : forced.isPowerOfTwo) :
    ((c.forcedTo forced).place target isPod part).map Placed.layout =
      ((c.site target).require (target.roundUp? (max placed.layout.dataSize 1)
        (max placed.layout.align forced))).map fun size =>
          { placed.layout with size := size, align := max placed.layout.align forced } := by
  obtain ⟨⟨own, fields⟩, hown, h⟩ := bind_eq_ok.mp h
  obtain ⟨core, hcore, h⟩ := bind_eq_ok.mp h
  obtain ⟨shared, hshared, h⟩ := bind_eq_ok.mp h
  obtain ⟨complete, hcomplete, h⟩ := bind_eq_ok.mp h
  obtain ⟨size, -, h⟩ := bind_eq_ok.mp h
  cases h
  have hplace : (c.forcedTo forced).place target isPod part = (do
      let core ← Core.close (c.site target) (own.frontier.raise forced) own.dispatch
      let shared ← c.hoisted part
      let complete ← (c.forcedTo forced).placeShared target part (own.raise forced) shared
      let size ← (c.site target).require
        (target.roundUp? (max complete.frontier.offset 1) complete.frontier.align)
      return ⟨⟨size, complete.frontier.align, complete.frontier.offset, complete.dispatch, fields,
        complete.bases⟩, core, shared⟩) := by
    rw [place, placeOwn_forced hopen hown]
    rfl
  -- The core is rounded to no more than the whole, so it cannot fail alone.
  have hround : roundUp (own.frontier.raise forced).offset (own.frontier.raise forced).align ≤
      roundUp (max complete.frontier.offset 1) (max complete.frontier.align forced) := by
    have hpower := hregular.core.align hpointer
    have hdata := hregular.dataSize_le
    have halign := hregular.align_le
    rw [close_eq_ok hcore] at hpower hdata halign
    exact roundUp_le_roundUp (hdata.trans (le_max_left _ _)) (isPowerOfTwo_max hpower hforced)
      (isPowerOfTwo_max (hregular.align hpointer) hforced) (max_le_max_right _ halign)
  rw [hplace, hshared]
  dsimp only [bind, Except.bind]
  rw [placeShared_forcedTo hcomplete]
  dsimp only [Draft.raise]
  rcases close_or_beyond (c.site target) own.dispatch hround with ⟨core', hclose⟩ | ⟨hclose, hsize⟩
  · have hsite : (c.site target).target = target := rfl
    dsimp only [Frontier.raise] at hclose ⊢
    rw [hclose]
    cases (c.site target).require (target.roundUp? (max complete.frontier.offset 1)
      (max complete.frontier.align forced)) <;> rfl
  · have hsize : (c.site target).require (target.roundUp? (max complete.frontier.offset 1)
      (max complete.frontier.align forced)) = _ := hsize
    rw [hclose, hsize]
    rfl

end Composite

namespace TypeTable

variable {table : TypeTable} {target : Target} {id : TypeId} {c : Composite} {forced : Nat}

/-- A record whose shared base lies behind its fields. -/
def ticket : Composite :=
  { name := "Ticket", introducesDispatch := true
    bases := [{ type := ⟨0⟩ }, { type := ⟨1⟩, sharing := .shared }]
    fields := [{ name := "number", type := .int }, { name := "mark", type := .char }] }

def tickets : TypeTable :=
  { entries := #[
      ⟨"Counted", some { name := "Counted", fields := [{ name := "count", type := .longLong }] }⟩,
      ⟨"Titled", some { name := "Titled", fields := [{ name := "title", type := .short }] }⟩,
      ⟨"Ticket", some ticket⟩] }

end TypeTable

end ObjectLayout
