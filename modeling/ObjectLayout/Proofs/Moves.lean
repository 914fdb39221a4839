import Mathlib.Data.List.Forall2
import Mathlib.Order.Lattice
import ObjectLayout.Draft
import ObjectLayout.FieldGroup

/-!
# The moves of a placement

What each move of a placement does when it succeeds: how far the frontier goes, what counts for
the alignment, where a base or a field comes to lie. Later proofs take placements apart into these
moves and open no move again.
-/
namespace ObjectLayout

section

variable {ε α β : Type}

lemma bind_eq_ok {x : Except ε α} {f : α → Except ε β} {b : β} :
    (x >>= f) = .ok b ↔ ∃ a, x = .ok a ∧ f a = .ok b := by
  cases x <;> simp [bind, Except.bind]

lemma map_eq_ok {x : Except ε α} {f : α → β} {b : β} :
    x.map f = .ok b ↔ ∃ a, x = .ok a ∧ f a = b := by
  cases x <;> simp [Except.map]

/-- Two continuations that agree on the result give the same. -/
lemma bind_congr_ok {x : Except ε α} {f g : α → Except ε β} (h : ∀ a, x = .ok a → f a = g a) :
    (x >>= f) = (x >>= g) := by
  cases x with
  | error e => rfl
  | ok a => exact h a rfl

lemma foldlM_cons_eq_ok {f : β → α → Except ε β} {x : α} {l : List α} {b last : β} :
    (x :: l).foldlM f b = .ok last ↔ ∃ next, f b x = .ok next ∧ l.foldlM f next = .ok last := by
  rw [List.foldlM_cons, bind_eq_ok]

lemma forall₂_of_mapM {f : α → Except ε β} {l : List α} {r : List β} (h : l.mapM f = .ok r) :
    List.Forall₂ (fun a b => f a = .ok b) l r := by
  induction l generalizing r with
  | nil =>
    cases h
    exact .nil
  | cons a l ih =>
    rw [List.mapM_cons, bind_eq_ok] at h
    obtain ⟨b, hb, h⟩ := h
    obtain ⟨bs, hbs, h⟩ := bind_eq_ok.mp h
    cases h
    exact .cons hb (ih hbs)

lemma exists_of_mem_right {R : α → β → Prop} {l : List α} {r : List β} (h : List.Forall₂ R l r)
    {b : β} (hb : b ∈ r) : ∃ a ∈ l, R a b := by
  obtain ⟨i, hi, rfl⟩ := List.getElem_of_mem hb
  exact ⟨l.get ⟨i, h.length_eq ▸ hi⟩, List.get_mem _ _, h.get _ hi⟩

lemma exists_of_mem_left {R : α → β → Prop} {l : List α} {r : List β} (h : List.Forall₂ R l r)
    {a : α} (ha : a ∈ l) : ∃ b ∈ r, R a b := by
  obtain ⟨i, hi, rfl⟩ := List.getElem_of_mem ha
  exact ⟨r.get ⟨i, h.length_eq ▸ hi⟩, List.get_mem _ _, h.get hi _⟩

lemma map_eq_map_of_forall₂ {γ : Type} {R : α → β → Prop} {l : List α} {r : List β} {f : α → γ}
    {g : β → γ} (h : List.Forall₂ R l r) (hR : ∀ a b, R a b → f a = g b) : l.map f = r.map g := by
  induction h with
  | nil => rfl
  | cons hab _ ih => rw [List.map_cons, List.map_cons, hR _ _ hab, ih]

lemma mapM_congr {f g : α → Except ε β} {l : List α} (h : ∀ x ∈ l, f x = g x) :
    l.mapM f = l.mapM g := by
  induction l with
  | nil => rfl
  | cons x l ih =>
    rw [List.mapM_cons, List.mapM_cons, h x List.mem_cons_self,
      ih fun y hy => h y (List.mem_cons_of_mem _ hy)]

lemma foldlM_congr {f g : β → α → Except ε β} {l : List α} (h : ∀ x ∈ l, ∀ b, f b x = g b x)
    (b : β) : l.foldlM f b = l.foldlM g b := by
  induction l generalizing b with
  | nil => rfl
  | cons x l ih =>
    rw [List.foldlM_cons, List.foldlM_cons, h x List.mem_cons_self]
    exact congrArg _ (funext (ih fun y hy => h y (List.mem_cons_of_mem _ hy)))

end

/-- What lies before an offset of the target is an offset of it, too. -/
lemma Target.holds_of_le {target : Target} {n m : Nat} (h : target.holds n = true) (hle : m ≤ n) :
    target.holds m = true := by
  unfold Target.holds at h ⊢
  cases hspace : target.addressSpace with
  | none => rfl
  | some bound =>
    rw [hspace] at h
    simp only [Option.all_some, decide_eq_true_eq] at h ⊢
    omega

namespace Site

variable {site : Site} {align larger : Nat}

lemma require_offset_eq_ok {n m : Nat} :
    site.require (site.target.offset? n) = .ok m ↔ site.target.holds n = true ∧ n = m := by
  rw [require_eq_ok, Target.offset?_eq_some]

lemma granted_le (site : Site) (align : Nat) : site.granted align ≤ align := by
  unfold granted
  split
  · exact Nat.min_le_left _ _
  · exact le_refl _

lemma granted_mono (site : Site) (h : align ≤ larger) :
    site.granted align ≤ site.granted larger := by
  unfold granted
  split
  · omega
  · exact h

end Site

namespace Frontier

variable {site : Site} {frontier next : Frontier} {align : Nat}

lemma alignFor_eq_ok (h : frontier.alignFor site align = .ok next) :
    next = ⟨roundUp frontier.offset (site.granted align),
      max frontier.align (site.granted align)⟩ := by
  exact (roundTo_eq_ok.mp h).2

end Frontier

namespace Draft

variable {site : Site} {draft next : Draft} {type : TypeId} {sharing : Sharing} {core : Core}
  {bytes : Nat}

/-- What embedding one base does; `start` is where its core comes to lie. -/
structure Embeds (site : Site) (type : TypeId) (sharing : Sharing) (core : Core) (bytes : Nat)
    (draft next : Draft) (start : Nat) : Prop where
  bases : next.bases =
    draft.bases ++ [⟨type, start, if core.dataSize = 0 then 0 else core.size, sharing⟩]
  align : next.frontier.align = max draft.frontier.align (site.granted core.align)
  dispatch : next.dispatch = draft.dispatch.or ((core.brings sharing).map (start + ·))
  empty : core.dataSize = 0 → start = draft.frontier.offset ∧ next.frontier.offset = start
  filled : 0 < core.dataSize → start = roundUp draft.frontier.offset (site.granted core.align) ∧
    next.frontier.offset = start + bytes

lemma embed_eq_ok (h : draft.embed site type sharing core bytes = .ok next) :
    ∃ start, Embeds site type sharing core bytes draft next start := by
  unfold embed at h
  by_cases hempty : core.dataSize = 0
  · rw [if_pos hempty] at h
    cases h
    refine ⟨_, by simp only [hempty, if_true], rfl, rfl, fun _ => ⟨rfl, rfl⟩, fun hpos => ?_⟩
    omega
  · rw [if_neg hempty] at h
    obtain ⟨start, hstart, h⟩ := bind_eq_ok.mp h
    obtain ⟨after, hafter, h⟩ := bind_eq_ok.mp h
    cases h
    obtain rfl := Frontier.alignFor_eq_ok hstart
    obtain ⟨-, rfl⟩ := Frontier.advance_eq_ok.mp hafter
    exact ⟨_, by simp only [hempty, if_false], rfl, rfl, fun hzero => absurd hzero hempty,
      fun _ => ⟨rfl, rfl⟩⟩

/-- Embed the cores of several bases, one behind the other. -/
def embedAll (site : Site) (sharing : Sharing) (bytes : TypeId × Core → Nat) (draft : Draft)
    (cores : List (TypeId × Core)) : Except Rejection Draft :=
  cores.foldlM (fun draft base => draft.embed site base.1 sharing base.2 (bytes base)) draft

/-- What embedding one base preserves, embedding all of them preserves. -/
lemma embedAll_invariant {bytes : TypeId × Core → Nat} {cores : List (TypeId × Core)} {last : Draft}
    {P : Draft → Prop} (h : draft.embedAll site sharing bytes cores = .ok last)
    (hstep : ∀ base ∈ cores, ∀ draft next start,
      Embeds site base.1 sharing base.2 (bytes base) draft next start → P draft → P next)
    (hdraft : P draft) : P last := by
  induction cores generalizing draft with
  | nil =>
    cases h
    exact hdraft
  | cons base cores ih =>
    obtain ⟨next, hnext, h⟩ := foldlM_cons_eq_ok.mp h
    obtain ⟨start, hembeds⟩ := embed_eq_ok hnext
    obtain ⟨hhead, htail⟩ := List.forall_mem_cons.mp hstep
    exact ih h htail (hhead draft next start hembeds hdraft)

/-- A slot that is there stays the slot. -/
lemma embedAll_keeps {bytes : TypeId × Core → Nat} {cores : List (TypeId × Core)} {last : Draft}
    {slot : Nat} (h : draft.embedAll site sharing bytes cores = .ok last)
    (hslot : draft.dispatch = some slot) : last.dispatch = some slot := by
  refine embedAll_invariant (P := fun draft => draft.dispatch = some slot) h
    (fun base _ draft next start hembeds hkept => ?_) hslot
  rw [hembeds.dispatch, hkept, Option.some_or]

/-- The cores are listed in order, with the sharing that they are embedded with. -/
lemma embedAll_bases {bytes : TypeId × Core → Nat} {cores : List (TypeId × Core)} {last : Draft}
    (h : draft.embedAll site sharing bytes cores = .ok last) :
    ∃ bases, last.bases = draft.bases ++ bases ∧
      bases.map PlacedBase.type = cores.map Prod.fst ∧ ∀ base ∈ bases, base.sharing = sharing := by
  induction cores generalizing draft with
  | nil =>
    cases h
    exact ⟨[], (List.append_nil _).symm, rfl, by simp⟩
  | cons base cores ih =>
    obtain ⟨next, hnext, h⟩ := foldlM_cons_eq_ok.mp h
    obtain ⟨start, hembeds⟩ := embed_eq_ok hnext
    obtain ⟨bases, hbases, htypes, hsharing⟩ := ih h
    refine ⟨_ :: bases, by rw [hbases, hembeds.bases, List.append_assoc]; rfl, ?_, ?_⟩
    · rw [List.map_cons, List.map_cons, htypes]
    · exact List.forall_mem_cons.mpr ⟨rfl, hsharing⟩

/-- Each base has the size of its core, and an empty one none. -/
lemma embedAll_sizes {bytes : TypeId × Core → Nat} {cores : List (TypeId × Core)} {last : Draft}
    (h : draft.embedAll site sharing bytes cores = .ok last) :
    ∃ bases, last.bases = draft.bases ++ bases ∧ List.Forall₂ (fun core base =>
      base.size = if core.2.dataSize = 0 then 0 else core.2.size) cores bases := by
  induction cores generalizing draft with
  | nil =>
    cases h
    exact ⟨[], (List.append_nil _).symm, .nil⟩
  | cons core cores ih =>
    obtain ⟨next, hnext, h⟩ := foldlM_cons_eq_ok.mp h
    obtain ⟨start, hembeds⟩ := embed_eq_ok hnext
    obtain ⟨bases, hbases, hsizes⟩ := ih h
    exact ⟨_ :: bases, by rw [hbases, hembeds.bases, List.append_assoc]; rfl, .cons rfl hsizes⟩

/-- A slot was there before or comes from one of the cores. -/
lemma isSome_dispatch_of_embedAll {bytes : TypeId × Core → Nat} {cores : List (TypeId × Core)}
    {last : Draft} (h : draft.embedAll site sharing bytes cores = .ok last)
    (hlast : last.dispatch.isSome) :
    draft.dispatch.isSome ∨ ∃ base ∈ cores, base.2.dispatch.isSome := by
  induction cores generalizing draft with
  | nil =>
    cases h
    exact Or.inl hlast
  | cons base cores ih =>
    obtain ⟨next, hnext, h⟩ := foldlM_cons_eq_ok.mp h
    obtain ⟨start, hembeds⟩ := embed_eq_ok hnext
    rcases ih h with hslot | ⟨other, hmem, hslot⟩
    · rw [hembeds.dispatch, Option.isSome_or, Option.isSome_map, Bool.or_eq_true] at hslot
      refine hslot.imp_right fun hbrought => ⟨base, List.mem_cons_self, ?_⟩
      obtain ⟨slot, hbrought⟩ := Option.isSome_iff_exists.mp hbrought
      rw [Core.dispatch_of_brings hbrought, Option.isSome_some]
    · exact Or.inr ⟨other, List.mem_cons_of_mem _ hmem, hslot⟩

/-- Every core counts for the alignment, and nothing else does. -/
lemma embedAll_align_le_iff {bytes : TypeId × Core → Nat} {cores : List (TypeId × Core)}
    {last : Draft} (h : draft.embedAll site sharing bytes cores = .ok last) {n : Nat} :
    last.frontier.align ≤ n ↔
      draft.frontier.align ≤ n ∧ ∀ base ∈ cores, site.granted base.2.align ≤ n := by
  induction cores generalizing draft with
  | nil =>
    cases h
    simp
  | cons base cores ih =>
    obtain ⟨next, hnext, h⟩ := foldlM_cons_eq_ok.mp h
    obtain ⟨start, hembeds⟩ := embed_eq_ok hnext
    rw [ih h, hembeds.align, Nat.max_le, List.forall_mem_cons, and_assoc]

end Draft

namespace FieldGroup

variable {site : Site} {extent extent' : FieldType → Except Rejection (Nat × Nat)}
  {frontier next last : Frontier} {placed : List PlacedField} {field : Field}

lemma place_plain_eq_ok (h : (FieldGroup.plain field).place site extent frontier =
      .ok (next, placed)) :
    ∃ size natural, extent field.type = .ok (size, natural) ∧
      ∃ start, start = roundUp frontier.offset
          (site.granted (max natural (field.forcedAlign.getD 1))) ∧
        next = ⟨start + size,
          max frontier.align (site.granted (max natural (field.forcedAlign.getD 1)))⟩ ∧
        placed = [⟨field.name, start, size, none⟩] := by
  obtain ⟨⟨size, natural⟩, hextent, h⟩ := bind_eq_ok.mp h
  obtain ⟨start, hstart, h⟩ := bind_eq_ok.mp h
  obtain ⟨after, hafter, h⟩ := bind_eq_ok.mp h
  cases h
  obtain rfl := Frontier.alignFor_eq_ok hstart
  obtain ⟨-, rfl⟩ := Frontier.advance_eq_ok.mp hafter
  exact ⟨size, natural, hextent, _, rfl, rfl, rfl⟩

lemma place_marker_eq_ok (h : (FieldGroup.marker field).place site extent frontier =
      .ok (next, placed)) :
    next = { frontier with offset := roundUp frontier.offset (site.granted field.storageUnit) } ∧
      placed = [⟨field.name, next.offset, 0, some ⟨0, 0⟩⟩] := by
  obtain ⟨after, hafter, h⟩ := bind_eq_ok.mp h
  cases h
  exact ⟨(Frontier.roundTo_eq_ok.mp hafter).2, rfl⟩

/-- The members of a run of bit-fields as they are packed. -/
def bitItems (fields : List Field) : List BitItem :=
  fields.map fun field => ⟨field.name, field.bitWidth.getD 0⟩

lemma place_run_eq_ok {unit : Nat} {fields : List Field}
    (h : (FieldGroup.run unit fields).place site extent frontier = .ok (next, placed)) :
    ∃ start, start = roundUp frontier.offset (site.granted unit) ∧
      next = ⟨start + (PackedRun.ofMembers unit (bitItems fields)).size,
        max frontier.align (site.granted unit)⟩ ∧
      placed = (PackedRun.ofMembers unit (bitItems fields)).bits.map (placeBit start unit) := by
  obtain ⟨start, hstart, h⟩ := bind_eq_ok.mp h
  obtain ⟨after, hafter, h⟩ := bind_eq_ok.mp h
  cases h
  obtain rfl := Frontier.alignFor_eq_ok hstart
  obtain ⟨-, rfl⟩ := Frontier.advance_eq_ok.mp hafter
  exact ⟨_, rfl, rfl, rfl⟩

lemma placeAll_cons_eq_ok {group : FieldGroup} {groups : List FieldGroup}
    (h : placeAll site extent frontier (group :: groups) = .ok (last, placed)) :
    ∃ next first others, group.place site extent frontier = .ok (next, first) ∧
      placeAll site extent next groups = .ok (last, others) ∧ placed = first ++ others := by
  obtain ⟨⟨next, first⟩, hgroup, h⟩ := bind_eq_ok.mp h
  obtain ⟨⟨last', others⟩, hrest, h⟩ := bind_eq_ok.mp h
  cases h
  exact ⟨next, first, others, hgroup, hrest, rfl⟩

/-- The alignments that a group asks for, before any clamp; a marker asks for none. -/
def aligns (extent : FieldType → Except Rejection (Nat × Nat)) : FieldGroup → List Nat
  | .plain field =>
    match extent field.type with
    | .ok (_, natural) => [max natural (field.forcedAlign.getD 1)]
    | .error _ => []
  | .marker _ => []
  | .run unit _ => [unit]

lemma place_align_le_iff {group : FieldGroup} {n : Nat}
    (h : group.place site extent frontier = .ok (next, placed)) :
    next.align ≤ n ↔
      frontier.align ≤ n ∧ ∀ align ∈ group.aligns extent, site.granted align ≤ n := by
  cases group with
  | plain field =>
    obtain ⟨size, natural, hextent, start, -, rfl, -⟩ := place_plain_eq_ok h
    simp only [aligns, hextent, List.mem_singleton, forall_eq, Nat.max_le]
  | marker field =>
    obtain ⟨rfl, -⟩ := place_marker_eq_ok h
    simp [aligns]
  | run unit fields =>
    obtain ⟨start, -, rfl, -⟩ := place_run_eq_ok h
    simp only [aligns, List.mem_singleton, forall_eq, Nat.max_le]

/-- Every group counts for the alignment, and nothing else does. -/
lemma placeAll_align_le_iff {groups : List FieldGroup} {n : Nat}
    (h : placeAll site extent frontier groups = .ok (last, placed)) :
    last.align ≤ n ↔ frontier.align ≤ n ∧
      ∀ group ∈ groups, ∀ align ∈ group.aligns extent, site.granted align ≤ n := by
  induction groups generalizing frontier placed with
  | nil =>
    cases h
    simp
  | cons group groups ih =>
    obtain ⟨next, first, others, hgroup, hrest, rfl⟩ := placeAll_cons_eq_ok h
    rw [ih hrest, place_align_le_iff hgroup, List.forall_mem_cons, and_assoc]

lemma extent_of_placeAll {groups : List FieldGroup}
    (h : placeAll site extent frontier groups = .ok (last, placed))
    (hmem : .plain field ∈ groups) : ∃ result, extent field.type = .ok result := by
  induction groups generalizing frontier placed with
  | nil => simp at hmem
  | cons group groups ih =>
    obtain ⟨next, first, others, hgroup, hrest, rfl⟩ := placeAll_cons_eq_ok h
    rcases List.mem_cons.mp hmem with rfl | hmem
    · obtain ⟨size, natural, hextent, -⟩ := place_plain_eq_ok hgroup
      exact ⟨_, hextent⟩
    · exact ih hrest hmem

lemma placeAll_congr {groups : List FieldGroup}
    (h : ∀ field, .plain field ∈ groups → extent field.type = extent' field.type)
    (frontier : Frontier) :
    placeAll site extent frontier groups = placeAll site extent' frontier groups := by
  induction groups generalizing frontier with
  | nil => rfl
  | cons group groups ih =>
    have hgroup : group.place site extent frontier = group.place site extent' frontier := by
      cases group with
      | plain field =>
        rw [place, place, h field List.mem_cons_self]
      | _ => rfl
    rw [placeAll, placeAll, hgroup]
    refine bind_congr_ok fun ⟨next, placed⟩ _ => ?_
    dsimp only
    rw [ih (fun field hmem => h field (List.mem_cons_of_mem _ hmem))]

end FieldGroup

end ObjectLayout
