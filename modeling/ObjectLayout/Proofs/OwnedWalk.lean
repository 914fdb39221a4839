import Mathlib.Data.List.Find
import ObjectLayout.Proofs.AncestryHistory
import ObjectLayout.Proofs.BaseWalk

/-!
# Subobjects of owned bases

An ancestry is joined from the ancestries of the direct bases, which are worked out once for each
type however many paths lead to it. The lists and numbers in it are nevertheless those of walks that
come to a type anew on every path: one over all bases, and one over the owned bases alone. The
second walk meets a type once for every owned path, and the owned bases of the layouts, expanded one
inside the other, are met in the same order.
-/
namespace ObjectLayout

namespace FirstSeen

variable {α : Type} [DecidableEq α] {met listed : List α} {x : α}

/-- The list holds what has been met, once each and in the order of first occurrence. -/
structure Lists (met listed : List α) : Prop where
  nodup : listed.Nodup
  mem_iff : ∀ x, x ∈ listed ↔ x ∈ met
  order : listed.Pairwise fun x y => met.idxOf x < met.idxOf y

lemma lists_noteAll (met : List α) : Lists met (noteAll [] met) :=
  ⟨nodup_noteAll List.nodup_nil met, by simp, pairwise_idxOf_noteAll met⟩

/-- The first listed member with a property is the one that was met first. -/
lemma Lists.find?_eq_some_iff (h : Lists met listed) {P : α → Prop} [DecidablePred P] :
    listed.find? P = some x ↔ (P x ∧ x ∈ met) ∧ ∀ y ∈ met, P y → met.idxOf x ≤ met.idxOf y := by
  have hfirst : ∀ x, listed.find? P = some x →
      (P x ∧ x ∈ met) ∧ ∀ y ∈ met, P y → met.idxOf x ≤ met.idxOf y := by
    intro x hx
    obtain ⟨hP, before, after, hsplit, hbefore⟩ := List.find?_eq_some_iff_append.mp hx
    have hmem : x ∈ met := (h.mem_iff x).mp (List.mem_of_find?_eq_some hx)
    have horder := h.order
    rw [hsplit, List.pairwise_append] at horder
    refine ⟨⟨by simpa using hP, hmem⟩, fun y hy hPy => ?_⟩
    have hlisted : y ∈ before ++ x :: after := hsplit ▸ (h.mem_iff y).mpr hy
    rcases List.mem_append.mp hlisted with hbad | hrest
    · have := hbefore y hbad
      simp [hPy] at this
    · rcases List.mem_cons.mp hrest with rfl | hafter
      · exact le_refl _
      · exact Nat.le_of_lt (List.rel_of_pairwise_cons horder.2.1 hafter)
  constructor
  · exact hfirst x
  · rintro ⟨⟨hP, hmem⟩, hleast⟩
    have hsome : (listed.find? P).isSome := by
      rw [List.find?_isSome]
      exact ⟨x, (h.mem_iff x).mpr hmem, by simpa using hP⟩
    obtain ⟨y, hy⟩ := Option.isSome_iff_exists.mp hsome
    obtain ⟨⟨hPy, hmemy⟩, hleasty⟩ := hfirst y hy
    have hindex := Nat.le_antisymm (hleast y hmemy hPy) (hleasty x hmem hP)
    rw [hy, (List.idxOf_inj hmem).mp hindex]

end FirstSeen

namespace Ancestry

variable {above : TypeId → Except Violation Ancestry} {inner : TypeId → Ancestry}
  {start ancestry : Ancestry} {bases : List Base} {type : TypeId}

/-- Take in bases one after the other, given the ancestry of each. -/
def takeIn (inner : TypeId → Ancestry) (start : Ancestry) (bases : List Base) : Ancestry :=
  bases.foldl (fun ancestry base => ancestry.extend base (inner base.type)) start

/-- Bases are gathered without failure only if each of them has an ancestry. -/
lemma gather_eq_ok (h : gather above start bases = .ok ancestry) :
    ∃ inner, (∀ base ∈ bases, above base.type = .ok (inner base.type)) ∧
      ancestry = takeIn inner start bases := by
  refine ⟨fun type => (above type).toOption.getD {}, ?_⟩
  induction bases generalizing start with
  | nil => exact ⟨by simp, (Except.ok.inj h).symm⟩
  | cons base bases ih =>
    rw [gather_cons] at h
    cases hfound : above base.type with
    | error reason =>
      rw [hfound] at h
      cases h
    | ok found =>
      rw [hfound] at h
      obtain ⟨habove, hrest⟩ := ih h
      refine ⟨List.forall_mem_cons.mpr ⟨by simp [hfound, Except.toOption], habove⟩, ?_⟩
      rw [hrest, takeIn, takeIn, List.foldl_cons]
      simp [hfound, Except.toOption]

/-- The bases are noted as a walk over the given ones meets them. -/
lemma bases_takeIn (inner : TypeId → Ancestry) (start : Ancestry) (bases : List Base) :
    (takeIn inner start bases).bases =
      FirstSeen.noteAll start.bases
        (bases.flatMap fun base => [base.type] ++ (inner base.type).bases) := by
  induction bases generalizing start with
  | nil => rfl
  | cons base bases ih =>
    have hstep : (takeIn inner start (base :: bases)).bases =
        (takeIn inner (start.extend base (inner base.type)) bases).bases := rfl
    rw [hstep, ih, List.flatMap_cons, FirstSeen.noteAll_append]
    rfl

lemma keys_foldl_addOwned (more counts : List (TypeId × Nat)) :
    (more.foldl (fun counts entry => addOwned entry.1 entry.2 counts) counts).map Prod.fst =
      FirstSeen.noteAll (counts.map Prod.fst) (more.map Prod.fst) := by
  induction more generalizing counts with
  | nil => rfl
  | cons entry more ih =>
    rw [List.foldl_cons, ih, keys_addOwned]
    rfl

/-- The types counted are noted as a walk over the given owned bases meets them. -/
lemma keys_takeIn (inner : TypeId → Ancestry) (start : Ancestry) (bases : List Base) :
    (takeIn inner start bases).ownedCounts.map Prod.fst =
      FirstSeen.noteAll (start.ownedCounts.map Prod.fst)
        ((bases.filter fun base => !base.isShared).flatMap fun base =>
          [base.type] ++ (inner base.type).ownedCounts.map Prod.fst) := by
  induction bases generalizing start with
  | nil => rfl
  | cons base bases ih =>
    have hstep : (takeIn inner start (base :: bases)).ownedCounts =
        (takeIn inner (start.extend base (inner base.type)) bases).ownedCounts := rfl
    rw [hstep, ih]
    cases hshared : base.isShared with
    | true => simp [extend, hshared]
    | false =>
      rw [List.filter_cons_of_pos (by simp [hshared]), List.flatMap_cons,
        FirstSeen.noteAll_append]
      congr 1
      simp only [extend, hshared, Bool.false_eq_true, if_false, keys_foldl_addOwned,
        keys_addOwned]
      rfl

/-- A type is counted as often as a walk over the given owned bases meets it. -/
lemma countIn_takeIn {behind : TypeId → List TypeId}
    (h : ∀ base ∈ bases, base.isShared = false →
      countIn type (inner base.type).ownedCounts = (behind base.type).count type)
    (start : Ancestry) :
    countIn type (takeIn inner start bases).ownedCounts = countIn type start.ownedCounts +
      ((bases.filter fun base => !base.isShared).flatMap fun base =>
        base.type :: behind base.type).count type := by
  induction bases generalizing start with
  | nil => rfl
  | cons base bases ih =>
    have hstep : (takeIn inner start (base :: bases)).ownedCounts =
        (takeIn inner (start.extend base (inner base.type)) bases).ownedCounts := rfl
    rw [hstep, ih fun base hmem => h base (List.mem_cons_of_mem _ hmem)]
    cases hshared : base.isShared with
    | true => simp [extend, hshared]
    | false =>
      have hcount := h base List.mem_cons_self hshared
      rw [List.filter_cons_of_pos (by simp [hshared]), List.flatMap_cons, List.count_append,
        List.count_cons, ← hcount]
      simp only [extend, hshared, Bool.false_eq_true, if_false, countIn_foldl_addOwned,
        countIn_addOwned, beq_iff_eq]
      omega

/-- The subobjects are counted as the walk meets them. -/
structure CountsAlong (ancestry : Ancestry) (walk : List TypeId) : Prop where
  listed : FirstSeen.Lists walk (ancestry.ownedCounts.map Prod.fst)
  count : ∀ type, countIn type ancestry.ownedCounts = walk.count type

namespace CountsAlong

variable {walk : List TypeId} {number : Nat}

/-- An entry says how often the walk meets its type. -/
lemma mem_iff (h : ancestry.CountsAlong walk) :
    (type, number) ∈ ancestry.ownedCounts ↔ 0 < number ∧ walk.count type = number := by
  constructor
  · intro hmem
    have hmet : type ∈ walk := (h.listed.mem_iff type).mp (List.mem_map.mpr ⟨_, hmem, rfl⟩)
    have hcount : walk.count type = number := by
      rw [← h.count, countIn_of_mem h.listed.nodup hmem]
    exact ⟨hcount ▸ List.count_pos_iff.mpr hmet, hcount⟩
  · rintro ⟨hpos, rfl⟩
    have hlisted := (h.listed.mem_iff type).mpr (List.count_pos_iff.mp hpos)
    obtain ⟨⟨_, number⟩, hmem, rfl⟩ := List.mem_map.mp hlisted
    rwa [← h.count, countIn_of_mem h.listed.nodup hmem]

/-- The repeated base is the first type that the walk meets twice. -/
lemma repeatedBase?_eq_some_iff (h : ancestry.CountsAlong walk) :
    ancestry.repeatedBase? = some type ↔ 1 < walk.count type ∧
      ∀ other, 1 < walk.count other → walk.idxOf type ≤ walk.idxOf other := by
  have hfind : ancestry.repeatedBase? =
      (ancestry.ownedCounts.map Prod.fst).find? fun type => 1 < walk.count type := by
    rw [repeatedBase?, List.find?_map]
    congr 1
    apply List.find?_congr
    rintro ⟨type, number⟩ hmem
    simp [(h.mem_iff.mp hmem).2]
  have hmet : ∀ other, 1 < walk.count other → other ∈ walk := fun other htwice =>
    List.count_pos_iff.mp (by omega)
  rw [hfind, h.listed.find?_eq_some_iff]
  constructor
  · rintro ⟨⟨htwice, -⟩, hfirst⟩
    exact ⟨htwice, fun other hother => hfirst other (hmet other hother) hother⟩
  · rintro ⟨htwice, hfirst⟩
    exact ⟨⟨htwice, hmet type htwice⟩, fun other _ hother => hfirst other hother⟩

/-- There is a repeated base if and only if the walk meets some type twice. -/
lemma exists_repeatedBase_iff (h : ancestry.CountsAlong walk) :
    (∃ type, ancestry.repeatedBase? = some type) ↔ ∃ type, 1 < walk.count type := by
  rw [← Option.isSome_iff_exists, Option.isSome_iff_ne_none, Ne,
    repeatedBase?_eq_none_iff h.listed.nodup]
  simp only [h.count, not_forall, not_le]

end CountsAlong

end Ancestry

/-- The base as it lies in an object that begins a number of bytes earlier. -/
def PlacedBase.shift (bytes : Nat) (base : PlacedBase) : PlacedBase :=
  { base with offset := bytes + base.offset }

namespace TypeTable

/-- The types that a walk over owned bases meets, each before what it owns itself. -/
inductive OwnedWalk (table : TypeTable) : TypeId → List TypeId → Prop
  | intro {id : TypeId} {c : Composite} (behind : TypeId → List TypeId)
      (defined : table.get? id = some c)
      (rest : ∀ base ∈ c.ownedBases, table.OwnedWalk base.type (behind base.type)) :
      table.OwnedWalk id (c.ownedBases.flatMap fun base => base.type :: behind base.type)

/-- The subobjects of an object: the owned bases of its layout, each before the subobjects that the
layout of the base places in it. -/
inductive OwnedParts (table : TypeTable) (target : Target) : TypeId → List PlacedBase → Prop
  | intro {id : TypeId} {layout : Layout} (inner : TypeId → List PlacedBase)
      (laid : table.layout target id = .ok layout)
      (rest : ∀ base ∈ layout.ownedBases, table.OwnedParts target base.type (inner base.type)) :
      table.OwnedParts target id
        (layout.ownedBases.flatMap fun base =>
          base :: (inner base.type).map (.shift base.offset))

/-- Two owned paths lead from `id` to `type`. -/
def OwnedTwice (table : TypeTable) (id type : TypeId) : Prop :=
  ∃ path path', path ≠ path' ∧ table.OwnedPath id path type ∧ table.OwnedPath id path' type

variable {table : TypeTable} {target : Target} {id type : TypeId} {ancestry : Ancestry}
  {number number' : Nat}

lemma OwnsTimes.unique (h : table.OwnsTimes id type number)
    (h' : table.OwnsTimes id type number') : number = number' := by
  obtain ⟨paths, hpaths, rfl⟩ := h
  obtain ⟨paths', hpaths', rfl⟩ := h'
  congr 1
  ext path
  rw [hpaths, hpaths']

lemma OwnsTimes.one_lt_iff (h : table.OwnsTimes id type number) :
    1 < number ↔ table.OwnedTwice id type := by
  rw [← not_le, h.le_one_iff]
  simp only [OwnedTwice]
  push Not
  exact ⟨fun ⟨path, path', hp, hp', hne⟩ => ⟨path, path', hne, hp, hp'⟩,
    fun ⟨path, path', hne, hp, hp'⟩ => ⟨path, path', hp, hp', hne⟩⟩

/-- Induction over the bases of a type that has an ancestry. -/
@[elab_as_elim]
theorem AncestryOf.ok_induction {motive : TypeId → Ancestry → Prop}
    (h : table.AncestryOf id (.ok ancestry))
    (step : ∀ {id : TypeId} {c : Composite} (inner : TypeId → Ancestry),
      table.get? id = some c → (∀ type ∈ c.bases.map Base.type, motive type (inner type)) →
      motive id (Ancestry.takeIn inner (Ancestry.root id c) c.bases)) : motive id ancestry := by
  have hall : ∀ id found, table.AncestryOf id found →
      ∀ ancestry, found = .ok ancestry → motive id ancestry := by
    intro id found h
    induction h with
    | undefined undefined =>
      intro ancestry heq
      cases heq
    | @defined id c above defined bases ih =>
      intro ancestry heq
      obtain ⟨inner, hinner, rfl⟩ := Ancestry.gather_eq_ok heq
      apply step inner defined
      intro type hmem
      obtain ⟨base, hbase, rfl⟩ := List.mem_map.mp hmem
      exact ih base hbase _ (hinner base hbase)
  exact hall id _ h ancestry rfl

/-- An ancestry lists the hierarchy. -/
lemma AncestryOf.exact (h : table.AncestryOf id (.ok ancestry)) : ancestry.Exact table id := by
  rcases h.exact_or_undefined with ⟨other, heq, hexact⟩ | ⟨type, heq, -⟩
  · exact Except.ok.inj heq ▸ hexact
  · cases heq

/-- The bases of an ancestry are listed as a walk over the hierarchy first meets them. -/
theorem AncestryOf.bases_as_walked (h : table.AncestryOf id (.ok ancestry)) :
    ∃ walk, table.BaseWalk id walk ∧
      FirstSeen.Lists (walk.map Base.type) ancestry.bases := by
  suffices ∃ walk, table.BaseWalk id walk ∧
      ancestry.bases = FirstSeen.noteAll [] (walk.map Base.type) by
    obtain ⟨walk, hwalk, hbases⟩ := this
    exact ⟨walk, hwalk, hbases ▸ FirstSeen.lists_noteAll _⟩
  refine h.ok_induction ?_
  intro id c inner defined ih
  choose! behind hwalk hbases using ih
  refine ⟨_, .intro behind defined fun base hmem => hwalk _ (List.mem_map_of_mem hmem), ?_⟩
  have hlists : (c.bases.flatMap fun base => [base.type] ++ (inner base.type).bases) =
      c.bases.flatMap fun base =>
        [base.type] ++ FirstSeen.noteAll [] ((behind base.type).map Base.type) := by
    apply List.flatMap_congr
    intro base hmem
    rw [hbases _ (List.mem_map_of_mem hmem)]
  rw [Ancestry.bases_takeIn, hlists, FirstSeen.noteAll_flatMap_noteAll, List.map_flatMap]
  rfl

/-- The types counted in an ancestry are listed as a walk over the owned bases first meets them,
and each is counted as often as the walk meets it. -/
theorem AncestryOf.owned_as_walked (h : table.AncestryOf id (.ok ancestry)) :
    ∃ walk, table.OwnedWalk id walk ∧ ancestry.CountsAlong walk := by
  suffices ∃ walk, table.OwnedWalk id walk ∧
      ancestry.ownedCounts.map Prod.fst = FirstSeen.noteAll [] walk ∧
      ∀ type, Ancestry.countIn type ancestry.ownedCounts = walk.count type by
    obtain ⟨walk, hwalk, hkeys, hcounts⟩ := this
    exact ⟨walk, hwalk, hkeys ▸ FirstSeen.lists_noteAll walk, hcounts⟩
  refine h.ok_induction ?_
  intro id c inner defined ih
  choose! behind hwalk hkeys hcounts using ih
  have howned : ∀ base ∈ c.ownedBases, base.type ∈ c.bases.map Base.type := fun base hmem =>
    List.mem_map_of_mem (List.mem_of_mem_filter hmem)
  refine ⟨_, .intro behind defined fun base hmem => hwalk _ (howned base hmem), ?_, ?_⟩
  · have hlists : (c.ownedBases.flatMap fun base =>
        [base.type] ++ (inner base.type).ownedCounts.map Prod.fst) =
        c.ownedBases.flatMap fun base =>
          [base.type] ++ FirstSeen.noteAll [] (behind base.type) := by
      apply List.flatMap_congr
      intro base hmem
      rw [hkeys _ (howned base hmem)]
    rw [Ancestry.keys_takeIn, ← Composite.ownedBases, hlists, FirstSeen.noteAll_flatMap_noteAll]
    rfl
  · intro type
    rw [Ancestry.countIn_takeIn fun base hmem _ => hcounts _ (List.mem_map_of_mem hmem) type]
    simp [Ancestry.root, Composite.ownedBases]

namespace OwnedWalk

variable {walk other : List TypeId}

theorem unique (h : table.OwnedWalk id walk) (h' : table.OwnedWalk id other) : walk = other := by
  induction h generalizing other with
  | @intro id c behind defined rest ih =>
    cases h' with
    | @intro _ c' behind' defined' rest' =>
      obtain rfl : c = c' := Option.some.inj (defined.symm.trans defined')
      apply List.flatMap_congr
      intro base hmem
      rw [ih base hmem (rest' base hmem)]

end OwnedWalk

namespace OwnedParts

variable {parts : List PlacedBase}

/-- The subobjects have the types that a walk over the owned bases meets. -/
theorem ownedWalk (h : table.OwnedParts target id parts) :
    table.OwnedWalk id (parts.map PlacedBase.type) := by
  induction h with
  | @intro id layout inner laid rest ih =>
    obtain ⟨align, placed, -, hplaced, rfl⟩ := layout_eq_ok laid
    obtain ⟨c, part, defined, -, ⟨steps⟩⟩ := hplaced.construction
    have htypes : placed.layout.ownedBases.map PlacedBase.type = c.ownedBases.map Base.type :=
      steps.bases_split.2.2.1
    have hwalk : ∀ type ∈ placed.layout.ownedBases.map PlacedBase.type,
        table.OwnedWalk type ((inner type).map PlacedBase.type) := by
      intro type hmem
      obtain ⟨base, hbase, rfl⟩ := List.mem_map.mp hmem
      exact ih base hbase
    have hparts : (placed.layout.ownedBases.flatMap fun base =>
          base :: (inner base.type).map (PlacedBase.shift base.offset)).map PlacedBase.type =
        c.ownedBases.flatMap fun base =>
          base.type :: (inner base.type).map PlacedBase.type := by
      have hmoved : ∀ bytes, PlacedBase.type ∘ PlacedBase.shift bytes = PlacedBase.type :=
        fun _ => rfl
      calc _ = (placed.layout.ownedBases.map PlacedBase.type).flatMap
            (fun type => type :: (inner type).map PlacedBase.type) := by
            simp only [List.map_flatMap, List.map_cons, List.map_map, hmoved, List.flatMap_map]
        _ = _ := by rw [htypes, List.flatMap_map]
    rw [hparts]
    refine .intro (fun type => (inner type).map PlacedBase.type) defined fun base hmem => ?_
    apply hwalk
    rw [htypes]
    exact List.mem_map_of_mem hmem

theorem unique {other : List PlacedBase} (h : table.OwnedParts target id parts)
    (h' : table.OwnedParts target id other) : parts = other := by
  induction h generalizing other with
  | @intro id layout inner laid rest ih =>
    cases h' with
    | @intro _ layout' inner' laid' rest' =>
      obtain rfl : layout = layout' := Except.ok.inj (laid.symm.trans laid')
      apply List.flatMap_congr
      intro base hmem
      rw [ih base hmem (rest' base hmem)]

end OwnedParts

/-- The layout of an accepted type can be expanded into subobjects. -/
lemma PlacedAs.exists_ownedParts {placed : Placed} (h : table.PlacedAs target id (.ok placed))
    {align : Nat} (haccepted : table.Accepted target id align) :
    ∃ parts, table.OwnedParts target id parts := by
  induction h using ok_induction generalizing align with
  | @step id placed c part h defined parts steps ih =>
    have hinner : ∀ type ∈ c.references, ∃ inner, table.OwnedParts target type inner := by
      intro type hmem
      have hrefers := (refers_iff defined).mpr hmem
      obtain ⟨p, hp⟩ := steps.references_ok (haccepted.wellFormed defined) type hmem
      obtain ⟨align', haccepted'⟩ := haccepted.refers hrefers
      exact ih type hrefers.below p hp haccepted'
    choose! inner hparts using hinner
    refine ⟨_, .intro inner (layout_of_placedAs haccepted h) fun base hmem => ?_⟩
    exact hparts _ (steps.mem_references_of_ownedBases hmem)

end TypeTable

namespace Composite

variable {c : Composite} {ancestry : Ancestry} {bases : List (Base × Verdict)}
  {fields : List (Field × Verdict)} {type : TypeId}

lemma repeatedBase_not_mem_trivial : .repeatedBase type ∉ c.trivialViolations bases fields := by
  simp [trivialViolations, Violation.mem_given]

lemma repeatedBase_mem_standardLayout :
    .repeatedBase type ∈ c.standardLayoutViolations ancestry bases fields ↔
      ancestry.repeatedBase? = some type := by
  have hfirst : .repeatedBase type ∉ c.firstFieldViolations ancestry := by
    unfold firstFieldViolations
    split <;> simp [Violation.mem_given]
  simp [standardLayoutViolations, Violation.mem_given, hfirst]

end Composite

namespace TypeTable

variable {table : TypeTable} {id : TypeId} {memory : TraitMemory}

/-- A walk of a hierarchy without gaps and cycles finds its ancestry, whatever is remembered. -/
lemma exists_ancestry (hmemory : table.AncestriesTrue memory.ancestries)
    (hdefined : ∀ part, part = id ∨ table.Inherits id part → ∃ c, table.get? part = some c)
    (hacyclic : ∀ part, part = id ∨ table.Inherits id part → ¬ table.Inherits part part) :
    ∃ ancestry, (Classified.ancestry table id memory).1 = .ok ancestry ∧
      table.AncestryOf id (.ok ancestry) := by
  have hwalked := (ancestry_walked id hmemory).1
  cases hfound : (Classified.ancestry table id memory).1 with
  | ok ancestry =>
    rw [hfound] at hwalked
    exact ⟨ancestry, rfl, hwalked⟩
  | error reason =>
    rw [hfound] at hwalked
    cases reason with
    | unresolved part =>
      obtain ⟨c, hc⟩ := hdefined part hwalked.1
      exact absurd (hc.symm.trans hwalked.2) (by simp)
    | cyclic part => exact absurd hwalked.2 (hacyclic part hwalked.1)
    | _ => exact hwalked.elim

/-- A repeated base is reported as the ancestry says, and bars standard layout only. -/
lemma repeatedBase_mem_explain {c : Composite} {ancestry : Ancestry}
    (hc : table.get? id = some c)
    (hancestry : (Classified.ancestry table id memory).1 = .ok ancestry) (type : TypeId) :
    .repeatedBase type ∉ ((table.explain id).run memory).1.trivial ∧
      (.repeatedBase type ∈ ((table.explain id).run memory).1.standardLayout ↔
        ancestry.repeatedBase? = some type) := by
  rcases explain_cases table id memory with
    ⟨hnone, -⟩ | ⟨reason, hreason, -⟩ | ⟨c, found, bases, fields, -, hfound, hexplain⟩
  · rw [hc] at hnone
    cases hnone
  · rw [hancestry] at hreason
    cases hreason
  · obtain rfl : ancestry = found := Except.ok.inj (hancestry.symm.trans hfound)
    rw [hexplain]
    exact ⟨Composite.repeatedBase_not_mem_trivial, Composite.repeatedBase_mem_standardLayout⟩

/-- The hierarchy of a type, if all types in it are defined and none is its own transitive base, is
known exactly, whatever was asked before. The transitive bases are listed once each, as a walk over
all bases first meets them; the types that declare data are listed once each; and each type that is
owned is listed once, as a walk over the owned bases first meets it, with the number of owned paths
to it. As many subobjects of the type are found by expanding the owned bases of the layouts. A
repeated base is reported if and only if two owned paths lead to one type, and is the first such
type. -/
theorem hierarchy_listed_exactly (table : TypeTable) (id : TypeId)
    (hdefined : ∀ part, part = id ∨ table.Inherits id part → ∃ c, table.get? part = some c)
    (hacyclic : ∀ part, part = id ∨ table.Inherits id part → ¬ table.Inherits part part) :
    ∃ (ancestry : Ancestry) (walk : List Base) (owned : List TypeId),
      table.BaseWalk id walk ∧ table.OwnedWalk id owned ∧
      (∀ questions,
        (Classified.ancestry table id (table.traitsAfter questions)).1 = .ok ancestry) ∧
      (FirstSeen.Lists (walk.map Base.type) ancestry.bases ∧
        ∀ type, type ∈ ancestry.bases ↔ table.Inherits id type) ∧
      (ancestry.dataLayers.Nodup ∧
        ∀ type, type ∈ ancestry.dataLayers ↔ table.DataLayer id type) ∧
      (FirstSeen.Lists owned (ancestry.ownedCounts.map Prod.fst) ∧
        ∀ type number, (type, number) ∈ ancestry.ownedCounts ↔
          0 < number ∧ table.OwnsTimes id type number) ∧
      (∀ target layout, table.layout target id = .ok layout →
        ∃ parts, table.OwnedParts target id parts ∧
          (∀ other, table.OwnedParts target id other → other = parts) ∧
          ∀ type number, (type, number) ∈ ancestry.ownedCounts ↔
            0 < number ∧ (parts.map PlacedBase.type).count type = number) ∧
      ∀ questions,
        let found := ((table.explain id).run (table.traitsAfter questions)).1
        (∀ type, .repeatedBase type ∉ found.trivial) ∧
          (∀ type, .repeatedBase type ∈ found.standardLayout ↔ table.OwnedTwice id type ∧
            ∀ other, table.OwnedTwice id other → owned.idxOf type ≤ owned.idxOf other) ∧
          ((∃ type, .repeatedBase type ∈ found.standardLayout) ↔
            ∃ type, table.OwnedTwice id type) := by
  obtain ⟨ancestry, -, hancestry⟩ :=
    exists_ancestry (traitsAfter_true table []) hdefined hacyclic
  have hfound : ∀ questions,
      (Classified.ancestry table id (table.traitsAfter questions)).1 = .ok ancestry := by
    intro questions
    obtain ⟨other, hother, hother'⟩ :=
      exists_ancestry (traitsAfter_true table questions) hdefined hacyclic
    rw [hother]
    exact hother'.unique hancestry
  obtain ⟨walk, hwalk, hbases⟩ := hancestry.bases_as_walked
  obtain ⟨owned, howned, hcounts⟩ := hancestry.owned_as_walked
  have hexact := hancestry.exact
  have htimes : ∀ type, table.OwnsTimes id type (owned.count type) := fun type =>
    hcounts.count type ▸ hexact.owned type
  have htwice : ∀ type, 1 < owned.count type ↔ table.OwnedTwice id type := fun type =>
    (htimes type).one_lt_iff
  refine ⟨ancestry, walk, owned, hwalk, howned, hfound, ⟨hbases, hexact.bases⟩,
    ⟨hexact.layersNodup, hexact.layers⟩, ⟨hcounts.listed, fun type number => ?_⟩,
    fun target layout hlayout => ?_, fun questions => ?_⟩
  · rw [hcounts.mem_iff]
    apply and_congr_right
    intro hpos
    exact ⟨fun heq => heq ▸ htimes type, fun h => (htimes type).unique h⟩
  · obtain ⟨align, placed, haccepted, hplaced, -⟩ := layout_eq_ok hlayout
    obtain ⟨parts, hparts⟩ := hplaced.exists_ownedParts haccepted
    refine ⟨parts, hparts, fun other hother => hother.unique hparts, fun type number => ?_⟩
    rw [hparts.ownedWalk.unique howned]
    exact hcounts.mem_iff
  · intro found
    obtain ⟨c, hc⟩ := hdefined id (Or.inl rfl)
    have hexplain := repeatedBase_mem_explain hc (hfound questions)
    refine ⟨fun type => (hexplain type).1, fun type => ?_, ?_⟩
    · rw [(hexplain type).2, hcounts.repeatedBase?_eq_some_iff]
      simp only [htwice]
    · simp only [found, fun type => (hexplain type).2, hcounts.exists_repeatedBase_iff, htwice]

/-- A house that owns a wing with one room and a tower with two, and shares a court that owns a room
as well. -/
def sharedCourt : TypeTable :=
  { entries := #[
      ⟨"Room", some { name := "Room", fields := [{ name := "area", type := .int }] }⟩,
      ⟨"Wing", some { name := "Wing", bases := [{ type := ⟨0⟩ }] }⟩,
      ⟨"Tower", some { name := "Tower", bases := [{ type := ⟨0⟩ }, { type := ⟨0⟩ }] }⟩,
      ⟨"House", some
        { name := "House"
          bases := [{ type := ⟨1⟩ }, { type := ⟨4⟩, sharing := .shared }, { type := ⟨2⟩ }]
          fields := [{ name := "age", type := .short }] }⟩,
      ⟨"Court", some { name := "Court", bases := [{ type := ⟨0⟩ }] }⟩] }

/-- Three owned paths lead to the room; the one below the court is not counted. -/
theorem hierarchy_listed_exactly_sharedCourt :
    let memory := sharedCourt.traitsAfter [.explanation ⟨2⟩, .verdict ⟨3⟩]
    (∀ part, part = ⟨3⟩ ∨ sharedCourt.Inherits ⟨3⟩ part → ∃ c, sharedCourt.get? part = some c) ∧
      (∀ part, part = ⟨3⟩ ∨ sharedCourt.Inherits ⟨3⟩ part → ¬ sharedCourt.Inherits part part) ∧
      (Classified.ancestry sharedCourt ⟨3⟩ memory).1 = .ok
        { bases := [⟨1⟩, ⟨0⟩, ⟨4⟩, ⟨2⟩], dataLayers := [⟨3⟩, ⟨0⟩]
          ownedCounts := [(⟨1⟩, 1), (⟨0⟩, 3), (⟨2⟩, 1)] } ∧
      sharedCourt.Inherits ⟨3⟩ ⟨4⟩ ∧ sharedCourt.DataLayer ⟨3⟩ ⟨0⟩ ∧
      sharedCourt.OwnsTimes ⟨3⟩ ⟨0⟩ 3 ∧
      (∃ parts, sharedCourt.OwnedParts .lp64 ⟨3⟩ parts ∧
        (parts.map PlacedBase.type).count ⟨0⟩ = 3) ∧
      sharedCourt.OwnedTwice ⟨3⟩ ⟨0⟩ ∧
      .repeatedBase ⟨0⟩ ∈ ((sharedCourt.explain ⟨3⟩).run memory).1.standardLayout := by
  intro memory
  have hlaid : sharedCourt.layout .lp64 ⟨3⟩ = .ok
      { size := 20, align := 4, dataSize := 20, dispatch := none, fields := [⟨"age", 12, 2, none⟩]
        bases := [⟨⟨1⟩, 0, 4, .owned⟩, ⟨⟨2⟩, 4, 8, .owned⟩, ⟨⟨4⟩, 16, 4, .shared⟩] } := by
    decide +kernel
  have hancestry : (Classified.ancestry sharedCourt ⟨3⟩ memory).1 = .ok
      { bases := [⟨1⟩, ⟨0⟩, ⟨4⟩, ⟨2⟩], dataLayers := [⟨3⟩, ⟨0⟩]
        ownedCounts := [(⟨1⟩, 1), (⟨0⟩, 3), (⟨2⟩, 1)] } := by
    decide +kernel
  have hreported :
      .repeatedBase ⟨0⟩ ∈ ((sharedCourt.explain ⟨3⟩).run memory).1.standardLayout := by
    decide +kernel
  obtain ⟨align, -, haccepted, -⟩ := layout_eq_ok hlaid
  have hparts : ∀ part, part = ⟨3⟩ ∨ sharedCourt.Inherits ⟨3⟩ part →
      ∃ align, sharedCourt.Accepted .lp64 part align := by
    rintro part (rfl | hinherits)
    · exact ⟨align, haccepted⟩
    · exact haccepted.reaches hinherits.below.reaches
  have hdefined : ∀ part, part = ⟨3⟩ ∨ sharedCourt.Inherits ⟨3⟩ part →
      ∃ c, sharedCourt.get? part = some c := by
    intro part hpart
    obtain ⟨align, haccepted⟩ := hparts part hpart
    obtain ⟨c, hc, -⟩ := haccepted.get?
    exact ⟨c, hc⟩
  have hacyclic : ∀ part, part = ⟨3⟩ ∨ sharedCourt.Inherits ⟨3⟩ part →
      ¬ sharedCourt.Inherits part part := by
    intro part hpart hloop
    obtain ⟨align, haccepted⟩ := hparts part hpart
    exact haccepted.acyclic.not_below hloop.below
  obtain ⟨ancestry, walk, owned, -, -, hfound, hbases, hlayers, hcounts, hexpanded, hexplain⟩ :=
    hierarchy_listed_exactly sharedCourt ⟨3⟩ hdefined hacyclic
  obtain rfl := Except.ok.inj ((hfound _).symm.trans hancestry)
  obtain ⟨parts, hexpands, -, hnumbers⟩ := hexpanded _ _ hlaid
  have hentry : ((⟨0⟩, 3) : TypeId × Nat) ∈
      [((⟨1⟩, 1) : TypeId × Nat), (⟨0⟩, 3), (⟨2⟩, 1)] := by decide
  exact ⟨hdefined, hacyclic, hancestry, (hbases.2 ⟨4⟩).mp (by decide),
    (hlayers.2 ⟨0⟩).mp (by decide), ((hcounts.2 ⟨0⟩ 3).mp hentry).2,
    ⟨parts, hexpands, ((hnumbers ⟨0⟩ 3).mp hentry).2⟩,
    (((hexplain _).2.1 ⟨0⟩).mp hreported).1, hreported⟩

end TypeTable

end ObjectLayout
