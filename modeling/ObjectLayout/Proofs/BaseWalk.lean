import Mathlib.Tactic.Choose
import ObjectLayout.Proofs.InheritedSlots

/-!
# Shared bases as a walk meets them

A walk over the hierarchy of a type goes along all base edges, owned and shared ones, depth first
and in the order of declaration, and comes again to a type on every path that leads there. Placement
never takes this walk: each type lists the shared bases of its own hierarchy once, and the lists of
the direct bases are joined. Listing in the order of first occurrence is not disturbed by this, so
the shared bases of a layout stand as the one walk first meets them, behind all owned bases, and lie
behind everything that the type holds itself.
-/
namespace ObjectLayout

namespace FirstSeen

variable {α β : Type} [DecidableEq α]

lemma noteAll_append (seen xs ys : List α) :
    noteAll seen (xs ++ ys) = noteAll (noteAll seen xs) ys :=
  List.foldl_append

lemma noteAll_note (seen met : List α) (x : α) :
    noteAll seen (note met x) = note (noteAll seen met) x := by
  by_cases h : x ∈ met
  · have hnoted : x ∈ noteAll seen met := mem_noteAll.mpr (Or.inr h)
    simp [note, h, hnoted]
  · rw [note, if_neg h, noteAll_append]
    rfl

/-- To note a list is to note what has been noted of it apart. -/
lemma noteAll_noteAll (seen met xs : List α) :
    noteAll seen (noteAll met xs) = noteAll (noteAll seen met) xs := by
  induction xs generalizing met with
  | nil => rfl
  | cons x xs ih =>
    have hstep : noteAll seen (noteAll met (x :: xs)) =
        noteAll (noteAll seen (note met x)) xs := ih (note met x)
    rw [hstep, noteAll_note]
    rfl

/-- Lists that are joined may each be noted apart before. -/
lemma noteAll_flatMap_noteAll (seen : List α) (l : List β) (f g : β → List α) :
    noteAll seen (l.flatMap fun x => f x ++ noteAll [] (g x)) =
      noteAll seen (l.flatMap fun x => f x ++ g x) := by
  induction l generalizing seen with
  | nil => rfl
  | cons x l ih =>
    simp only [List.flatMap_cons, noteAll_append, noteAll_noteAll, ih]
    rfl

/-- What has been noted stands in the order of first occurrence. -/
lemma pairwise_idxOf_noteAll (xs : List α) :
    (noteAll [] xs).Pairwise fun x y => xs.idxOf x < xs.idxOf y := by
  induction xs using List.reverseRecOn with
  | nil => exact .nil
  | append_singleton xs x ih =>
    have hkept : ∀ y ∈ noteAll [] xs, (xs ++ [x]).idxOf y = xs.idxOf y := by
      intro y hy
      exact List.idxOf_append_of_mem (by simpa using hy)
    have hbefore : (noteAll [] xs).Pairwise
        fun y z => (xs ++ [x]).idxOf y < (xs ++ [x]).idxOf z := by
      refine ih.imp_of_mem fun {y z} hy hz hlt => ?_
      rwa [hkept y hy, hkept z hz]
    rw [noteAll_append]
    show (note (noteAll [] xs) x).Pairwise _
    by_cases hx : x ∈ noteAll [] xs
    · rwa [note, if_pos hx]
    · rw [note, if_neg hx]
      refine List.pairwise_append.mpr ⟨hbefore, List.pairwise_singleton _ _, ?_⟩
      intro y hy z hz
      obtain rfl := List.mem_singleton.mp hz
      have hfirst : y ∈ xs := by simpa using hy
      have hlast : z ∉ xs := by simpa using hx
      rw [hkept y hy, List.idxOf_append_of_notMem hlast]
      exact (List.idxOf_lt_length_of_mem hfirst).trans_le (Nat.le_add_right _ _)

end FirstSeen

namespace Composite.Construction

variable {target : Target} {isPod : TypeId → Bool} {part : TypeId → Except Rejection Placed}
  {c : Composite} {placed : Placed} {steps : Construction target isPod part c placed}

lemma bases_eq_append (steps : Construction target isPod part c placed) :
    placed.layout.bases = placed.layout.ownedBases ++ placed.layout.sharedBases := by
  rw [steps.bases_eq, steps.bases_split.1]
  exact steps.bases_split.2.1

/-- A shared base lies behind every field and behind the data of every owned base. -/
lemma PartsRegular.shared_behind (h : steps.PartsRegular) (hwell : c.WellFormed target)
    {shared : PlacedBase} (hshared : shared ∈ placed.layout.sharedBases) :
    (∀ field ∈ placed.layout.fields, field.offset + field.size ≤ shared.offset) ∧
      ∀ base ∈ placed.layout.ownedBases, ∃ p, part base.type = .ok p ∧
        base.offset + p.core.dataSize ≤ shared.offset := by
  have horder := (h.spans_inOrder hwell).order
  rw [Layout.spans, List.pairwise_append] at horder
  have hbehind : ∀ span ∈ placed.layout.ownedBases.map .base ++
      Span.numbered 0 placed.layout.fields,
      span.start + room target isPod part span ≤ shared.offset := by
    intro span hmem
    have hpair := horder.2.2 span hmem (.base shared) (List.mem_map_of_mem hshared)
    refine hpair.resolve_right ?_
    rintro ⟨i, j, one, other, unit, -, hfield, -⟩
    cases hfield
  constructor
  · intro field hfield
    obtain ⟨i, hi, rfl⟩ := List.getElem_of_mem hfield
    have hlisted : (placed.layout.fields[i], 0 + i) ∈ placed.layout.fields.zipIdx 0 :=
      List.mem_zipIdx_iff_getElem?.mpr (by simp [hi])
    exact hbehind _ (List.mem_append_right _ (List.mem_map_of_mem hlisted))
  · intro base hbase
    obtain ⟨p, hp, hbears⟩ := h.owned_bears hwell hbase
    have hcore := (h base.type p (Or.inl (steps.mem_references_of_ownedBases hbase)) hp).core
    have hmem : Span.base base ∈ placed.layout.spans :=
      List.mem_append_left _ (List.mem_append_left _ (List.mem_map_of_mem hbase))
    have hroom := hbehind (.base base) (List.mem_append_left _ (List.mem_map_of_mem hbase))
    refine ⟨p, hp, (Nat.add_le_add_left ?_ base.offset).trans hroom⟩
    -- The base takes all that it is reported with, or gives up its tail padding and takes its data.
    rcases h.room_eq hwell hmem with hsize | ⟨other, p', heq, -, -, -, hp', hdata⟩
    · have hspan : base.size = p.core.size := hbears.size
      rw [hsize]
      exact hcore.dataSize_le_size.trans hspan.ge
    · cases heq
      obtain rfl : p = p' := Except.ok.inj (hp.symm.trans hp')
      exact hdata.ge

end Composite.Construction

namespace TypeTable

/-- `shared` is the type of a shared base of `id`. -/
def SharesBase (table : TypeTable) (id shared : TypeId) : Prop :=
  ∃ c, table.get? id = some c ∧ ∃ base ∈ c.sharedBases, base.type = shared

/-- The bases that a walk over the hierarchy of a type meets, each before what is behind it. -/
inductive BaseWalk (table : TypeTable) : TypeId → List Base → Prop
  | intro {id : TypeId} {c : Composite} (behind : TypeId → List Base)
      (defined : table.get? id = some c)
      (rest : ∀ base ∈ c.bases, table.BaseWalk base.type (behind base.type)) :
      table.BaseWalk id (c.bases.flatMap fun base => base :: behind base.type)

/-- The types that shared edges of a walk lead to, as often as the walk goes along one. -/
def sharedAlong (walk : List Base) : List TypeId := (walk.filter Base.isShared).map Base.type

variable {table : TypeTable} {target : Target} {id shared : TypeId} {walk other : List Base}
  {placed : Placed} {align : Nat}

lemma sharedAlong_flatMap (bases : List Base) (behind : TypeId → List Base) :
    sharedAlong (bases.flatMap fun base => base :: behind base.type) = bases.flatMap fun base =>
      (if base.isShared then [base.type] else []) ++ sharedAlong (behind base.type) := by
  induction bases with
  | nil => rfl
  | cons base bases ih =>
    have happend : ∀ walk walk', sharedAlong (walk ++ walk') =
        sharedAlong walk ++ sharedAlong walk' := by simp [sharedAlong]
    rw [List.flatMap_cons, List.flatMap_cons, happend, ih]
    cases hshared : base.isShared <;> simp [sharedAlong, hshared]

namespace BaseWalk

theorem unique (h : table.BaseWalk id walk) (h' : table.BaseWalk id other) : walk = other := by
  induction h generalizing other with
  | @intro id c behind defined rest ih =>
    cases h' with
    | @intro _ c' behind' defined' rest' =>
      obtain rfl : c = c' := Option.some.inj (defined.symm.trans defined')
      refine List.flatMap_congr fun base hmem => ?_
      rw [ih base hmem (rest' base hmem)]

/-- A walk goes along a shared edge to a type exactly where the type itself, or a transitive base of
it, has that type as a shared base. -/
theorem mem_sharedAlong_iff (h : table.BaseWalk id walk) :
    shared ∈ sharedAlong walk ↔
      ∃ part, (part = id ∨ table.Inherits id part) ∧ table.SharesBase part shared := by
  induction h with
  | @intro id c behind defined rest ih =>
    have hstep : ∀ base ∈ c.bases,
        (shared ∈ (if base.isShared then [base.type] else []) ++ sharedAlong (behind base.type) ↔
          base.isShared ∧ base.type = shared ∨ ∃ part,
            (part = base.type ∨ table.Inherits base.type part) ∧
              table.SharesBase part shared) := by
      intro base hmem
      rw [List.mem_append, ih base hmem]
      refine or_congr_left ?_
      cases hshared : base.isShared <;> simp [eq_comm]
    rw [sharedAlong_flatMap, List.mem_flatMap]
    constructor
    · rintro ⟨base, hmem, hshared⟩
      rcases (hstep base hmem).mp hshared with ⟨hedge, htype⟩ | ⟨part, hpart, hshares⟩
      · exact ⟨id, Or.inl rfl, c, defined, base, List.mem_filter.mpr ⟨hmem, hedge⟩, htype⟩
      · exact ⟨part, Or.inr ((inherits_iff defined).mpr ⟨base, hmem, hpart⟩), hshares⟩
    · rintro ⟨part, rfl | hinherits, hshares⟩
      · obtain ⟨c', defined', base, hbase, htype⟩ := hshares
        obtain rfl : c = c' := Option.some.inj (defined.symm.trans defined')
        obtain ⟨hmem, hedge⟩ := List.mem_filter.mp hbase
        exact ⟨base, hmem, (hstep base hmem).mpr (Or.inl ⟨hedge, htype⟩)⟩
      · obtain ⟨base, hmem, hpart⟩ := (inherits_iff defined).mp hinherits
        exact ⟨base, hmem, (hstep base hmem).mpr (Or.inr ⟨part, hpart, hshares⟩)⟩

end BaseWalk

/-- The hierarchy of an accepted type can be walked to its end. -/
lemma Accepted.exists_baseWalk (h : table.Accepted target id align) :
    ∃ walk, table.BaseWalk id walk := by
  induction h with
  | intro align defined wellFormed parts forced ih =>
    choose! behind hbehind using ih
    exact ⟨_, .intro behind defined fun base hmem =>
      hbehind base.type (Composite.mem_references_of_base hmem)⟩

/-- A placement lists shared bases as the walk first meets them. -/
theorem PlacedAs.shared_eq (h : table.PlacedAs target id (.ok placed))
    (hwalk : table.BaseWalk id walk) : placed.shared = FirstSeen.noteAll [] (sharedAlong walk) := by
  induction h using ok_induction generalizing walk with
  | @step id placed c part h defined parts steps ih =>
    cases hwalk with
    | @intro _ c' behind defined' rest =>
      obtain rfl : c = c' := Option.some.inj (defined.symm.trans defined')
      have hinner : ∀ base ∈ c.bases, ∀ p, part base.type = .ok p →
          FirstSeen.noteAll [] (sharedAlong (behind base.type)) = p.shared := by
        intro base hmem p hp
        have hrefers := (refers_iff defined).mpr (Composite.mem_references_of_base hmem)
        exact (ih base.type hrefers.below p hp (rest base hmem)).symm
      have hlisted : placed.shared = Composite.hoistOrder
          (fun base => FirstSeen.noteAll [] (sharedAlong (behind base))) c.bases :=
        Composite.hoisted_eq_hoistOrder steps.collected hinner
      rw [hlisted, Composite.hoistOrder, FirstSeen.noteAll_flatMap_noteAll, sharedAlong_flatMap]

/-- A placement lists what some type of the hierarchy shares. -/
lemma PlacedAs.mem_shared_iff (h : table.PlacedAs target id (.ok placed))
    (haccepted : table.Accepted target id align) :
    shared ∈ placed.shared ↔
      ∃ part, (part = id ∨ table.Inherits id part) ∧ table.SharesBase part shared := by
  obtain ⟨walk, hwalk⟩ := haccepted.exists_baseWalk
  rw [h.shared_eq hwalk, FirstSeen.mem_noteAll, hwalk.mem_sharedAlong_iff]
  simp

lemma PlacedAs.nodup_shared (h : table.PlacedAs target id (.ok placed))
    (haccepted : table.Accepted target id align) : placed.shared.Nodup := by
  obtain ⟨walk, hwalk⟩ := haccepted.exists_baseWalk
  rw [h.shared_eq hwalk]
  exact FirstSeen.nodup_noteAll List.nodup_nil _

/-- A scene that owns a group twice and shares the shape that each group owns; every group and every
shape share the one node. -/
def tangledScene : TypeTable :=
  { entries := #[
      ⟨"Node", some { name := "Node", fields := [{ name := "depth", type := .int }] }⟩,
      ⟨"Shape", some
        { name := "Shape", bases := [{ type := ⟨0⟩, sharing := .shared }]
          introducesDispatch := true, fields := [{ name := "kind", type := .char }] }⟩,
      ⟨"Group", some
        { name := "Group", bases := [{ type := ⟨1⟩ }, { type := ⟨0⟩, sharing := .shared }]
          fields := [{ name := "count", type := .short }] }⟩,
      ⟨"Scene", some
        { name := "Scene"
          bases := [{ type := ⟨2⟩ }, { type := ⟨1⟩, sharing := .shared }, { type := ⟨2⟩ }]
          fields := [{ name := "title", type := .pointer },
            { name := "low", type := .int, bitWidth := some 3 }] }⟩] }

end TypeTable

end ObjectLayout
