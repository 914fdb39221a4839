import Mathlib.Data.Finset.Card
import Mathlib.Data.Finset.Image
import ObjectLayout.Proofs.AncestryWalk

/-!
# What an ancestry lists

The hierarchy of a type said without a walk: its transitive bases, the types of it that declare
data, and the paths of owned bases, each path being the positions in the lists of bases along it.
An ancestry that a walk finds lists exactly these, and counts for every base as many subobjects as
there are owned paths to it.
-/
namespace ObjectLayout

lemma getElem?_concat_eq_some {α : Type} {l : List α} {x y : α} {i : Nat} :
    (l ++ [x])[i]? = some y ↔ l[i]? = some y ∨ i = l.length ∧ y = x := by
  rcases Nat.lt_trichotomy i l.length with h | rfl | h
  · simp [List.getElem?_append_left h, Nat.ne_of_lt h]
  · simp [eq_comm]
  · have hend : (l ++ [x]).length ≤ i := by
      simp only [List.length_append, List.length_singleton]
      omega
    simp [List.getElem?_eq_none hend, List.getElem?_eq_none (Nat.le_of_lt h), Nat.ne_of_gt h]

namespace TypeTable

/-- `base` is the type of a base of `id`, owned or shared. -/
def IsBase (table : TypeTable) (id base : TypeId) : Prop :=
  ∃ c, table.get? id = some c ∧ ∃ b ∈ c.bases, b.type = base

/-- `base` is a base of `id`, directly or through other bases. -/
def Inherits (table : TypeTable) : TypeId → TypeId → Prop := Relation.TransGen table.IsBase

/-- `layer` is `id` or a transitive base of it, and declares a field that holds data. -/
def DataLayer (table : TypeTable) (id layer : TypeId) : Prop :=
  (layer = id ∨ table.Inherits id layer) ∧ ∃ c, table.get? layer = some c ∧ c.declaresData = true

/-- A path that follows owned bases only, as the positions in the lists of bases along it. -/
inductive OwnedPath (table : TypeTable) : TypeId → List Nat → TypeId → Prop
  | last {id : TypeId} {c : Composite} {i : Nat} {base : Base} (defined : table.get? id = some c)
      (listed : c.bases[i]? = some base) (owned : base.isShared = false) :
      table.OwnedPath id [i] base.type
  | step {id type : TypeId} {c : Composite} {i : Nat} {base : Base} {path : List Nat}
      (defined : table.get? id = some c) (listed : c.bases[i]? = some base)
      (owned : base.isShared = false) (rest : table.OwnedPath base.type path type) :
      table.OwnedPath id (i :: path) type

/-- A path that begins with one of the listed bases, an owned one, and ends there or follows an owned
path from there. -/
def OwnedFrom (table : TypeTable) (bases : List Base) (path : List Nat) (type : TypeId) : Prop :=
  ∃ i rest base, path = i :: rest ∧ bases[i]? = some base ∧ base.isShared = false ∧
    (rest = [] ∧ type = base.type ∨ table.OwnedPath base.type rest type)

/-- There are exactly `number` owned paths from `id` to `type`. -/
def OwnsTimes (table : TypeTable) (id type : TypeId) (number : Nat) : Prop :=
  ∃ paths : Finset (List Nat), (∀ path, path ∈ paths ↔ table.OwnedPath id path type) ∧
    paths.card = number

variable {table : TypeTable} {id type : TypeId} {c : Composite} {path : List Nat}

lemma isBase_iff (hc : table.get? id = some c) :
    table.IsBase id type ↔ ∃ base ∈ c.bases, base.type = type := by
  constructor
  · rintro ⟨c', hc', hbase⟩
    obtain rfl : c = c' := Option.some.inj (hc.symm.trans hc')
    exact hbase
  · exact fun hbase => ⟨c, hc, hbase⟩

lemma IsBase.refers (h : table.IsBase id type) : table.Refers id type := by
  obtain ⟨c, hc, base, hmem, rfl⟩ := h
  exact (refers_iff hc).mpr (Composite.mem_references_of_base hmem)

lemma Inherits.below (h : table.Inherits id type) : table.Below id type :=
  Relation.TransGen.mono (fun _ _ => IsBase.refers) _ _ h

lemma Inherits.of_base {base : Base} (hc : table.get? id = some c) (hmem : base ∈ c.bases) :
    table.Inherits id base.type :=
  Relation.TransGen.single ((isBase_iff hc).mpr ⟨base, hmem, rfl⟩)

lemma Inherits.trans {next : TypeId} (h : table.Inherits id next) (h' : table.Inherits next type) :
    table.Inherits id type :=
  Relation.TransGen.trans h h'

/-- A transitive base is a direct one or a transitive base of one. -/
lemma inherits_iff (hc : table.get? id = some c) :
    table.Inherits id type ↔
      ∃ base ∈ c.bases, type = base.type ∨ table.Inherits base.type type := by
  constructor
  · intro h
    cases h using Relation.TransGen.head_induction_on with
    | single hfirst =>
      obtain ⟨base, hmem, rfl⟩ := (isBase_iff hc).mp hfirst
      exact ⟨base, hmem, Or.inl rfl⟩
    | head hfirst hrest =>
      obtain ⟨base, hmem, rfl⟩ := (isBase_iff hc).mp hfirst
      exact ⟨base, hmem, Or.inr hrest⟩
  · rintro ⟨base, hmem, rfl | hrest⟩
    · exact .of_base hc hmem
    · exact (Inherits.of_base hc hmem).trans hrest

/-- A layer is the type itself or a layer of a base. -/
lemma dataLayer_iff (hc : table.get? id = some c) :
    table.DataLayer id type ↔ type = id ∧ c.declaresData = true ∨
      ∃ base ∈ c.bases, table.DataLayer base.type type := by
  rw [DataLayer, inherits_iff hc]
  constructor
  · rintro ⟨rfl | ⟨base, hmem, hbase⟩, hdata⟩
    · obtain ⟨c', hc', hdata⟩ := hdata
      obtain rfl : c = c' := Option.some.inj (hc.symm.trans hc')
      exact Or.inl ⟨rfl, hdata⟩
    · exact Or.inr ⟨base, hmem, hbase, hdata⟩
  · rintro (⟨rfl, hdata⟩ | ⟨base, hmem, hbase, hdata⟩)
    · exact ⟨Or.inl rfl, c, hc, hdata⟩
    · exact ⟨Or.inr ⟨base, hmem, hbase⟩, hdata⟩

lemma ownedPath_iff (hc : table.get? id = some c) :
    table.OwnedPath id path type ↔ table.OwnedFrom c.bases path type := by
  constructor
  · intro h
    cases h with
    | @last _ c' i base defined listed owned =>
      obtain rfl : c = c' := Option.some.inj (hc.symm.trans defined)
      exact ⟨i, [], base, rfl, listed, owned, Or.inl ⟨rfl, rfl⟩⟩
    | @step _ _ c' i base rest defined listed owned hrest =>
      obtain rfl : c = c' := Option.some.inj (hc.symm.trans defined)
      exact ⟨i, rest, base, rfl, listed, owned, Or.inr hrest⟩
  · rintro ⟨i, rest, base, rfl, listed, owned, ⟨rfl, rfl⟩ | hrest⟩
    · exact .last hc listed owned
    · exact .step hc listed owned hrest

lemma OwnedPath.inherits (h : table.OwnedPath id path type) : table.Inherits id type := by
  induction h with
  | last defined listed _ => exact .of_base defined (List.mem_of_getElem? listed)
  | step defined listed _ _ ih =>
    exact (Inherits.of_base defined (List.mem_of_getElem? listed)).trans ih

/-- One more base adds the paths that begin with it, if it is owned. -/
lemma ownedFrom_concat {bases : List Base} {base : Base} :
    table.OwnedFrom (bases ++ [base]) path type ↔ table.OwnedFrom bases path type ∨
      base.isShared = false ∧ ∃ rest,
        (rest = [] ∧ type = base.type ∨ table.OwnedPath base.type rest type) ∧
          bases.length :: rest = path := by
  simp only [OwnedFrom, getElem?_concat_eq_some]
  constructor
  · rintro ⟨i, rest, b, rfl, hlisted | ⟨rfl, rfl⟩, howned, hrest⟩
    · exact Or.inl ⟨i, rest, b, rfl, hlisted, howned, hrest⟩
    · exact Or.inr ⟨howned, rest, hrest, rfl⟩
  · rintro (⟨i, rest, b, rfl, hlisted, hrest⟩ | ⟨howned, rest, hrest, rfl⟩)
    · exact ⟨i, rest, b, rfl, Or.inl hlisted, hrest⟩
    · exact ⟨bases.length, rest, base, rfl, Or.inr ⟨rfl, rfl⟩, howned, hrest⟩

/-- A type is owned at most once if and only if no two owned paths lead to it. -/
lemma OwnsTimes.le_one_iff {number : Nat} (h : table.OwnsTimes id type number) :
    number ≤ 1 ↔ ∀ path path', table.OwnedPath id path type → table.OwnedPath id path' type →
      path = path' := by
  obtain ⟨paths, hpaths, rfl⟩ := h
  simp only [Finset.card_le_one, hpaths]
  exact ⟨fun h path path' hp hp' => h path hp path' hp',
    fun h path hp path' hp' => h path path' hp hp'⟩

end TypeTable

namespace Ancestry

/-- The subobjects of a type among counted ones. -/
def countIn (type : TypeId) : List (TypeId × Nat) → Nat
  | [] => 0
  | entry :: counts => (if entry.1 = type then entry.2 else 0) + countIn type counts

@[simp] lemma countIn_nil (type : TypeId) : countIn type [] = 0 := rfl

@[simp] lemma countIn_cons (type : TypeId) (entry : TypeId × Nat) (counts : List (TypeId × Nat)) :
    countIn type (entry :: counts) =
      (if entry.1 = type then entry.2 else 0) + countIn type counts := rfl

@[simp] lemma countIn_addOwned (type other : TypeId) (number : Nat)
    (counts : List (TypeId × Nat)) :
    countIn type (addOwned other number counts) =
      countIn type counts + if other = type then number else 0 := by
  induction counts with
  | nil => simp [addOwned]
  | cons entry counts ih =>
    rw [addOwned]
    by_cases h : entry.1 = other
    · subst h
      rw [if_pos rfl, countIn_cons, countIn_cons]
      split <;> omega
    · rw [if_neg h, countIn_cons, countIn_cons, ih, Nat.add_assoc]

lemma countIn_foldl_addOwned (type : TypeId) (more counts : List (TypeId × Nat)) :
    countIn type (more.foldl (fun counts entry => addOwned entry.1 entry.2 counts) counts) =
      countIn type counts + countIn type more := by
  induction more generalizing counts with
  | nil => simp
  | cons entry more ih =>
    rw [List.foldl_cons, ih, countIn_addOwned, countIn_cons]
    omega

/-- Counting a type notes it among the types counted. -/
lemma keys_addOwned (type : TypeId) (number : Nat) (counts : List (TypeId × Nat)) :
    (addOwned type number counts).map Prod.fst =
      FirstSeen.note (counts.map Prod.fst) type := by
  induction counts with
  | nil => simp [addOwned, FirstSeen.note]
  | cons entry counts ih =>
    rw [addOwned]
    by_cases h : entry.1 = type
    · simp [FirstSeen.note, h]
    · rw [if_neg h, List.map_cons, ih]
      simp only [FirstSeen.note, List.map_cons, List.mem_cons, Ne.symm h, false_or]
      split <;> rfl

lemma nodup_foldl_addOwned (more : List (TypeId × Nat)) {counts : List (TypeId × Nat)}
    (h : (counts.map Prod.fst).Nodup) :
    ((more.foldl (fun counts entry => addOwned entry.1 entry.2 counts) counts).map
      Prod.fst).Nodup := by
  induction more generalizing counts with
  | nil => exact h
  | cons entry more ih =>
    refine ih ?_
    rw [keys_addOwned]
    exact FirstSeen.nodup_note h entry.1

lemma countIn_eq_zero {type : TypeId} {counts : List (TypeId × Nat)}
    (h : type ∉ counts.map Prod.fst) : countIn type counts = 0 := by
  induction counts with
  | nil => rfl
  | cons entry counts ih =>
    rw [List.map_cons, List.mem_cons, not_or] at h
    rw [countIn_cons, if_neg (Ne.symm h.1), ih h.2]

/-- Where every type is counted once, its entry says how often it is there. -/
lemma countIn_of_mem {type : TypeId} {number : Nat} {counts : List (TypeId × Nat)}
    (hnodup : (counts.map Prod.fst).Nodup) (h : (type, number) ∈ counts) :
    countIn type counts = number := by
  induction counts with
  | nil => cases h
  | cons entry counts ih =>
    obtain ⟨hfresh, hrest⟩ := List.nodup_cons.mp hnodup
    rw [countIn_cons]
    rcases List.mem_cons.mp h with rfl | hmem
    · rw [if_pos rfl, countIn_eq_zero hfresh]
      omega
    · have hne : entry.1 ≠ type := by
        rintro rfl
        exact hfresh (List.mem_map.mpr ⟨_, hmem, rfl⟩)
      rw [if_neg hne, ih hrest hmem]
      omega

/-- No base is repeated if and only if none is counted more than once. -/
lemma repeatedBase?_eq_none_iff {ancestry : Ancestry}
    (hnodup : (ancestry.ownedCounts.map Prod.fst).Nodup) :
    ancestry.repeatedBase? = none ↔ ∀ type, countIn type ancestry.ownedCounts ≤ 1 := by
  rw [repeatedBase?, Option.map_eq_none_iff, List.find?_eq_none]
  simp only [decide_eq_true_eq, Nat.not_lt]
  constructor
  · intro h type
    by_cases hmem : type ∈ ancestry.ownedCounts.map Prod.fst
    · obtain ⟨⟨_, number⟩, hentry, rfl⟩ := List.mem_map.mp hmem
      rw [countIn_of_mem hnodup hentry]
      exact h _ hentry
    · rw [countIn_eq_zero hmem]
      exact Nat.zero_le 1
  · rintro h ⟨type, number⟩ hentry
    rw [← countIn_of_mem hnodup hentry]
    exact h type

/-- What an ancestry lists once the bases `done` of the type `id` are taken in. -/
structure Lists (table : TypeTable) (id : TypeId) (c : Composite) (done : List Base)
    (ancestry : Ancestry) : Prop where
  bases : ∀ type, type ∈ ancestry.bases ↔
    ∃ base ∈ done, type = base.type ∨ table.Inherits base.type type
  layers : ∀ type, type ∈ ancestry.dataLayers ↔ type = id ∧ c.declaresData = true ∨
    ∃ base ∈ done, table.DataLayer base.type type
  layersNodup : ancestry.dataLayers.Nodup
  ownedNodup : (ancestry.ownedCounts.map Prod.fst).Nodup
  owned : ∀ type, ∃ paths : Finset (List Nat),
    (∀ path, path ∈ paths ↔ table.OwnedFrom done path type) ∧
      paths.card = countIn type ancestry.ownedCounts

/-- The ancestry lists the hierarchy of a type. -/
structure Exact (table : TypeTable) (id : TypeId) (ancestry : Ancestry) : Prop where
  bases : ∀ type, type ∈ ancestry.bases ↔ table.Inherits id type
  layers : ∀ type, type ∈ ancestry.dataLayers ↔ table.DataLayer id type
  layersNodup : ancestry.dataLayers.Nodup
  ownedNodup : (ancestry.ownedCounts.map Prod.fst).Nodup
  owned : ∀ type, table.OwnsTimes id type (countIn type ancestry.ownedCounts)

namespace Lists

variable {table : TypeTable} {id : TypeId} {c : Composite} {done : List Base} {base : Base}
  {ancestry found : Ancestry}

lemma root (table : TypeTable) (id : TypeId) (c : Composite) :
    Lists table id c [] (Ancestry.root id c) := by
  constructor
  case bases => simp [Ancestry.root]
  case layers =>
    intro type
    simp only [Ancestry.root]
    split <;> simp_all
  case layersNodup =>
    simp only [Ancestry.root]
    split <;> simp
  case ownedNodup => exact List.nodup_nil
  case owned => exact fun type => ⟨∅, by simp [TypeTable.OwnedFrom], rfl⟩

/-- The owned paths that begin with one more base are those of the base, the empty one included. -/
lemma owned_extend (h : Lists table id c done ancestry) (hfound : Exact table base.type found)
    (howned : base.isShared = false) (type : TypeId) : ∃ paths : Finset (List Nat),
      (∀ path, path ∈ paths ↔ table.OwnedFrom (done ++ [base]) path type) ∧
      paths.card = countIn type (ancestry.extend base found).ownedCounts := by
  classical
  obtain ⟨paths, hpaths, hcard⟩ := h.owned type
  obtain ⟨below, hbelow, hcount⟩ := hfound.owned type
  -- The paths below the base, with the one that ends there.
  let rests : Finset (List Nat) := if base.type = type then insert [] below else below
  have hrests : ∀ rest, rest ∈ rests ↔
      rest = [] ∧ type = base.type ∨ table.OwnedPath base.type rest type := by
    intro rest
    by_cases hsame : base.type = type
    · simp [rests, hsame, hbelow]
    · simp [rests, hsame, hbelow, Ne.symm hsame]
  have hnil : [] ∉ below := by
    rw [hbelow]
    rintro ⟨⟩
  have hrestsCard : rests.card = (if base.type = type then 1 else 0) + below.card := by
    by_cases hsame : base.type = type
    · simp only [rests, if_pos hsame, Finset.card_insert_of_notMem hnil]
      omega
    · simp [rests, hsame]
  have hdisjoint : Disjoint paths (rests.image (List.cons done.length)) := by
    rw [Finset.disjoint_left]
    intro path hold hnew
    obtain ⟨i, rest, b, rfl, hlisted, -⟩ := (hpaths path).mp hold
    obtain ⟨rest', -, heq⟩ := Finset.mem_image.mp hnew
    have hlt := (List.getElem?_eq_some_iff.mp hlisted).1
    have hlast : done.length = i := (List.cons.inj heq).1
    omega
  refine ⟨paths ∪ rests.image (List.cons done.length), fun path => ?_, ?_⟩
  · rw [Finset.mem_union, hpaths, Finset.mem_image, TypeTable.ownedFrom_concat]
    simp only [hrests, howned, true_and]
  · have hextend : countIn type (ancestry.extend base found).ownedCounts =
        countIn type ancestry.ownedCounts + (if base.type = type then 1 else 0) +
          countIn type found.ownedCounts := by
      simp [Ancestry.extend, howned, countIn_foldl_addOwned]
    rw [Finset.card_union_of_disjoint hdisjoint,
      Finset.card_image_of_injective _ List.cons_injective, hcard, hrestsCard, hcount, hextend]
    omega

lemma extend (h : Lists table id c done ancestry) (hfound : Exact table base.type found) :
    Lists table id c (done ++ [base]) (ancestry.extend base found) := by
  constructor
  case bases =>
    intro type
    simp only [Ancestry.extend, FirstSeen.mem_noteAll, FirstSeen.mem_note, h.bases, hfound.bases,
      List.mem_append, List.mem_singleton, or_and_right, exists_or, exists_eq_left, or_assoc]
  case layers =>
    intro type
    simp only [Ancestry.extend, FirstSeen.mem_noteAll, h.layers, hfound.layers, List.mem_append,
      List.mem_singleton, or_and_right, exists_or, exists_eq_left, or_assoc]
  case layersNodup => exact FirstSeen.nodup_noteAll h.layersNodup _
  case ownedNodup =>
    rw [Ancestry.extend]
    dsimp only
    split
    · exact h.ownedNodup
    · refine nodup_foldl_addOwned _ ?_
      rw [keys_addOwned]
      exact FirstSeen.nodup_note h.ownedNodup _
  case owned =>
    intro type
    cases hshared : base.isShared with
    | false => exact h.owned_extend hfound hshared type
    | true =>
      obtain ⟨paths, hpaths, hcard⟩ := h.owned type
      refine ⟨paths, fun path => ?_, by simpa [Ancestry.extend, hshared] using hcard⟩
      simp only [hpaths, TypeTable.ownedFrom_concat, hshared, Bool.true_eq_false, false_and,
        or_false]

/-- With all bases taken in, the hierarchy is listed. -/
lemma exact (h : Lists table id c c.bases ancestry) (hc : table.get? id = some c) :
    Exact table id ancestry := by
  refine ⟨fun type => ?_, fun type => ?_, h.layersNodup, h.ownedNodup, fun type => ?_⟩
  · rw [h.bases, TypeTable.inherits_iff hc]
  · rw [h.layers, TypeTable.dataLayer_iff hc]
  · obtain ⟨paths, hpaths, hcard⟩ := h.owned type
    exact ⟨paths, fun path => (hpaths path).trans (TypeTable.ownedPath_iff hc).symm, hcard⟩

end Lists

lemma gather_concat (above : TypeId → Except Violation Ancestry) (start : Ancestry)
    (bases : List Base) (base : Base) : gather above start (bases ++ [base]) =
      (gather above start bases).bind fun ancestry =>
        (above base.type).map (ancestry.extend base) := by
  rw [gather, List.foldlM_append, ← gather]
  cases gather above start bases with
  | error reason => rfl
  | ok ancestry =>
    show (do
      let next ← (above base.type).map (ancestry.extend base)
      List.foldlM _ next []) = _
    cases above base.type <;> rfl

/-- Bases are gathered without failure from ancestries of all of them, and are listed then. A
failure is that of one of the bases. -/
lemma gather_cases {table : TypeTable} {id : TypeId} {c : Composite}
    {above : TypeId → Except Violation Ancestry} {bases : List Base}
    (habove : ∀ base ∈ bases, ∀ found, above base.type = .ok found → Exact table base.type found) :
    (∃ ancestry, gather above (root id c) bases = .ok ancestry ∧
        Lists table id c bases ancestry) ∨
      ∃ base ∈ bases, ∃ reason, above base.type = .error reason ∧
        gather above (root id c) bases = .error reason := by
  induction bases using List.reverseRecOn with
  | nil => exact Or.inl ⟨_, rfl, .root table id c⟩
  | append_singleton bases base ih =>
    rw [gather_concat]
    rcases ih fun b hb => habove b (List.mem_append_left _ hb) with
      ⟨ancestry, hgather, hlists⟩ | ⟨b, hb, reason, hreason, hgather⟩
    · rw [hgather]
      cases hbase : above base.type with
      | ok found =>
        exact Or.inl ⟨_, rfl, hlists.extend (habove base (by simp) found hbase)⟩
      | error reason => exact Or.inr ⟨base, by simp, reason, hbase, rfl⟩
    · rw [hgather]
      exact Or.inr ⟨b, List.mem_append_left _ hb, reason, hreason, rfl⟩

end Ancestry

namespace TypeTable

variable {table : TypeTable} {id : TypeId} {found : Except Violation Ancestry}

/-- What recursion over the bases finds lists the hierarchy, or names a type of it that is not
defined. -/
theorem AncestryOf.exact_or_undefined (h : table.AncestryOf id found) :
    (∃ ancestry, found = .ok ancestry ∧ ancestry.Exact table id) ∨
      ∃ type, found = .error (.unresolved type) ∧ (type = id ∨ table.Inherits id type) ∧
        table.get? type = none := by
  induction h with
  | @undefined id undefined => exact Or.inr ⟨id, rfl, Or.inl rfl, undefined⟩
  | @defined id c above defined bases ih =>
    have habove : ∀ base ∈ c.bases, ∀ found, above base.type = .ok found →
        found.Exact table base.type := by
      intro base hmem found hfound
      rcases ih base hmem with ⟨ancestry, heq, hexact⟩ | ⟨type, heq, -⟩
      · rw [hfound] at heq
        exact Except.ok.inj heq ▸ hexact
      · rw [hfound] at heq
        cases heq
    rcases Ancestry.gather_cases habove with
      ⟨ancestry, hgather, hlists⟩ | ⟨base, hmem, reason, hreason, hgather⟩
    · exact Or.inl ⟨ancestry, hgather, hlists.exact defined⟩
    · rcases ih base hmem with ⟨ancestry, heq, -⟩ | ⟨type, heq, htype, hnone⟩
      · rw [hreason] at heq
        cases heq
      · obtain rfl : reason = .unresolved type := Except.error.inj (hreason.symm.trans heq)
        have hbase := Inherits.of_base defined hmem
        refine Or.inr ⟨type, hgather, Or.inr ?_, hnone⟩
        rcases htype with rfl | htype
        · exact hbase
        · exact hbase.trans htype

end TypeTable

end ObjectLayout
