import ObjectLayout.Proofs.Renaming
import ObjectLayout.Proofs.VerdictWalk

/-!
# Traits under a renaming

Assessments name types: those that a rule is broken by, the layers that declare data, a type that is
missing or contains itself. Under a renaming of the descriptions the walks take the same course and
remember the same verdicts at renamed places, also where the types contain each other, so an
assessment worked out afresh is the renamed one, with every list in its order.
-/
namespace ObjectLayout

variable {m : TypeId → TypeId}

namespace Violation

def rename (m : TypeId → TypeId) : Violation → Violation
  | sharedBase base => sharedBase (m base)
  | nonTrivialBase base => nonTrivialBase (m base)
  | nonStandardBase base => nonStandardBase (m base)
  | fieldsInMultipleLayers layers => fieldsInMultipleLayers (layers.map m)
  | repeatedBase base => repeatedBase (m base)
  | firstFieldIsBase field base => firstFieldIsBase field (m base)
  | unresolved type => unresolved (m type)
  | cyclic type => cyclic (m type)
  | violation => violation

@[simp] lemma rename_id (violation : Violation) : violation.rename id = violation := by
  cases violation <;> simp [rename]

@[simp] lemma map_rename_given (present : Bool) (violation : Violation) :
    (given present violation).map (rename m) = given present (violation.rename m) := by
  cases present <;> rfl

end Violation

namespace Assessment

def rename (m : TypeId → TypeId) (assessment : Assessment) : Assessment :=
  ⟨assessment.trivial.map (Violation.rename m), assessment.standardLayout.map (Violation.rename m)⟩

@[simp] lemma rename_id (assessment : Assessment) : assessment.rename id = assessment := by
  have hviolations : Violation.rename id = id := funext Violation.rename_id
  simp [rename, hviolations]

@[simp] lemma verdict_rename (assessment : Assessment) :
    (assessment.rename m).verdict = assessment.verdict := by
  simp [rename, verdict]

end Assessment

namespace Ancestry

variable {ancestry above : Ancestry}

def rename (m : TypeId → TypeId) (ancestry : Ancestry) : Ancestry :=
  { bases := ancestry.bases.map m
    dataLayers := ancestry.dataLayers.map m
    ownedCounts := ancestry.ownedCounts.map (Prod.map m id) }

/-- What a walk has found, renamed. -/
def renameFound (m : TypeId → TypeId) : Except Violation Ancestry → Except Violation Ancestry
  | .ok ancestry => .ok (ancestry.rename m)
  | .error reason => .error (reason.rename m)

lemma addOwned_map (hm : m.Injective) (type : TypeId) (number : Nat)
    (counts : List (TypeId × Nat)) :
    addOwned (m type) number (counts.map (Prod.map m id)) =
      (addOwned type number counts).map (Prod.map m id) := by
  induction counts with
  | nil => rfl
  | cons entry counts ih =>
    obtain ⟨seen, count⟩ := entry
    by_cases h : seen = type
    · simp [addOwned, h]
    · simp [addOwned, h, hm.eq_iff, ih]

lemma foldl_addOwned_map (hm : m.Injective) (counts entries : List (TypeId × Nat)) :
    (entries.map (Prod.map m id)).foldl (fun counts entry => addOwned entry.1 entry.2 counts)
        (counts.map (Prod.map m id)) =
      (entries.foldl (fun counts entry => addOwned entry.1 entry.2 counts) counts).map
        (Prod.map m id) := by
  induction entries generalizing counts with
  | nil => rfl
  | cons entry entries ih =>
    rw [List.map_cons, List.foldl_cons, List.foldl_cons, ← ih, ← addOwned_map hm]
    rfl

lemma root_rename (id : TypeId) (c : Composite) :
    root (m id) (c.rename m) = (root id c).rename m := by
  have hdata : (c.rename m).declaresData = c.declaresData := by
    simp [Composite.declaresData, Composite.members_rename]
  unfold root
  rw [hdata]
  cases c.declaresData <;> rfl

lemma extend_rename (hm : m.Injective) (base : Base) :
    (ancestry.rename m).extend (base.rename m) (above.rename m) =
      (ancestry.extend base above).rename m := by
  have hbases := FirstSeen.noteAll_map hm (FirstSeen.note ancestry.bases base.type) above.bases
  rw [← FirstSeen.note_map hm] at hbases
  have hlayers := FirstSeen.noteAll_map hm ancestry.dataLayers above.dataLayers
  have hcounts := foldl_addOwned_map hm (addOwned base.type 1 ancestry.ownedCounts)
    above.ownedCounts
  rw [← addOwned_map hm] at hcounts
  cases hshared : base.isShared
  · simp only [extend, rename, Base.isShared_rename, hshared, Bool.false_eq_true, if_false,
      Ancestry.mk.injEq]
    exact ⟨hbases, hlayers, hcounts⟩
  · simp only [extend, rename, Base.isShared_rename, hshared, if_true, Ancestry.mk.injEq, and_true]
    exact ⟨hbases, hlayers⟩

lemma repeatedBase?_rename : (ancestry.rename m).repeatedBase? = ancestry.repeatedBase?.map m := by
  simp [repeatedBase?, rename, List.find?_map, Function.comp_def, Option.map_map]

end Ancestry

namespace Composite

variable {c : Composite} {ancestry : Ancestry} {bases : List (Base × Verdict)}
  {fields : List (Field × Verdict)}

lemma trivialViolations_rename :
    (c.rename m).trivialViolations (bases.map (Prod.map (Base.rename m) id))
        (fields.map (Prod.map (Field.rename m) id)) =
      (c.trivialViolations bases fields).map (Violation.rename m) := by
  simp only [trivialViolations, List.map_append, List.map_flatMap, List.flatMap_map,
    Violation.map_rename_given]
  rfl

lemma firstFieldViolations_rename (hm : m.Injective) :
    (c.rename m).firstFieldViolations (ancestry.rename m) =
      (c.firstFieldViolations ancestry).map (Violation.rename m) := by
  unfold firstFieldViolations
  rw [members_rename, List.head?_map]
  cases c.members.head? with
  | none => rfl
  | some field =>
    obtain ⟨name, type, bitWidth, forcedAlign, access, hasInitializer⟩ := field
    cases type with
    | composite id =>
      have hcontains : (ancestry.bases.map m).contains (m id) = ancestry.bases.contains id := by
        rw [Bool.eq_iff_iff, List.contains_iff_mem, List.contains_iff_mem,
          List.mem_map_of_injective hm]
      simp only [Option.map_some, Violation.map_rename_given]
      exact congrArg (Violation.given · _) hcontains
    | _ => rfl

lemma standardLayoutViolations_rename (hm : m.Injective) :
    (c.rename m).standardLayoutViolations (ancestry.rename m)
        (bases.map (Prod.map (Base.rename m) id)) (fields.map (Prod.map (Field.rename m) id)) =
      (c.standardLayoutViolations ancestry bases fields).map (Violation.rename m) := by
  have hgroups : (c.rename m).accessGroups = c.accessGroups := by
    simp [accessGroups, members_rename, Function.comp_def, Field.rename]
  have hlayers : (ancestry.rename m).dataLayers.length = ancestry.dataLayers.length :=
    List.length_map m
  have hrepeated : ((ancestry.rename m).repeatedBase?.toList.map .repeatedBase) =
      (ancestry.repeatedBase?.toList.map Violation.repeatedBase).map (Violation.rename m) := by
    rw [Ancestry.repeatedBase?_rename]
    cases ancestry.repeatedBase? <;> rfl
  simp only [standardLayoutViolations, List.map_append, List.map_flatMap, List.flatMap_map,
    Violation.map_rename_given, firstFieldViolations_rename hm, hgroups, hlayers, hrepeated]
  rfl

theorem assessment_rename (hm : m.Injective) :
    (c.rename m).assessment (ancestry.rename m) (bases.map (Prod.map (Base.rename m) id))
        (fields.map (Prod.map (Field.rename m) id)) =
      (c.assessment ancestry bases fields).rename m := by
  rw [assessment, trivialViolations_rename, standardLayoutViolations_rename hm]
  rfl

end Composite

/-- What a run gives is what the other run gives, renamed, and the states that they leave agree. -/
def Repeats {σ β : Type} (f : β → β) (rel : σ → σ → Prop) (result result' : β × σ) : Prop :=
  result'.1 = f result.1 ∧ rel result.2 result'.2

/-- Looking up all members of a renamed list repeats the look-ups of the members. -/
lemma Classified.lookUp_repeats {σ α β : Type} {rel : σ → σ → Prop} {look : α → StateM σ β}
    (look' : α → StateM σ β) {f : α → α} {l : List α} {s s' : σ}
    (h : ∀ x ∈ l, ∀ s s', rel s s' → Repeats (fun y => y) rel (look x s) (look' (f x) s'))
    (hs : rel s s') :
    Repeats (List.map (Prod.map f id)) rel (lookUp look l s) (lookUp look' (l.map f) s') := by
  induction l generalizing s s' with
  | nil => exact ⟨rfl, hs⟩
  | cons x l ih =>
    obtain ⟨hvalue, hnext⟩ := h x List.mem_cons_self s s' hs
    obtain ⟨hrest, hlast⟩ := ih (fun y hy => h y (List.mem_cons_of_mem _ hy)) hnext
    rw [lookUp, lookUp, List.map_cons, List.mapM_cons, List.mapM_cons]
    refine ⟨?_, hlast⟩
    exact congrArg₂ (fun y rest => (f x, y) :: rest) hvalue hrest

/-- The memories hold the same for a type and for the renamed one. -/
structure TraitMemory.Mirrors (m : TypeId → TypeId) (memory memory' : TraitMemory) : Prop where
  verdicts : memory.verdicts.Mirrors m (fun verdict => verdict) memory'.verdicts
  ancestries : memory.ancestries.Mirrors m (Ancestry.renameFound m) memory'.ancestries

namespace TypeTable

variable {P Q : TypeTable} {root id : TypeId} {path : List TypeId} {room room' : Nat}

/-- The second table describes the renamed types as the first one describes the types reached from
the root, and no others of them. -/
structure Depicted (m : TypeId → TypeId) (P Q : TypeTable) (root : TypeId) : Prop where
  injective : m.Injective
  get? : ∀ id, P.Reaches root id → Q.get? (m id) = (P.get? id).map (Composite.rename m)

lemma gatherWithin_repeats {memo memo' : AncestryMemo} (hm : m.Injective) {bases : List Base}
    (hwalk : ∀ base ∈ bases, ∀ memo memo' : AncestryMemo,
      memo.Mirrors m (Ancestry.renameFound m) memo' →
        Repeats (Ancestry.renameFound m) (Memo.Mirrors m (Ancestry.renameFound m))
          (P.ancestryWithin room path base.type memo)
          (Q.ancestryWithin room' (path.map m) (m base.type) memo'))
    (start : Ancestry) (hmemo : memo.Mirrors m (Ancestry.renameFound m) memo') :
    Repeats (Ancestry.renameFound m) (Memo.Mirrors m (Ancestry.renameFound m))
      (P.gatherWithin room path start bases memo)
      (Q.gatherWithin room' (path.map m) (start.rename m) (bases.map (Base.rename m)) memo') := by
  induction bases generalizing start memo memo' with
  | nil => exact ⟨rfl, hmemo⟩
  | cons base bases ih =>
    have hbase := hwalk base List.mem_cons_self memo memo' hmemo
    rw [List.map_cons, gatherWithin_cons, gatherWithin_cons, Base.type_rename]
    generalize P.ancestryWithin room path base.type memo = result at hbase ⊢
    generalize Q.ancestryWithin room' (path.map m) (m base.type) memo' = result' at hbase ⊢
    obtain ⟨found, next⟩ := result
    obtain ⟨found', next'⟩ := result'
    obtain ⟨rfl, hnext⟩ := hbase
    cases found with
    | error reason => exact ⟨rfl, hnext⟩
    | ok above =>
      dsimp only [Ancestry.renameFound]
      rw [Ancestry.extend_rename hm]
      exact ih (fun base hmem => hwalk base (List.mem_cons_of_mem _ hmem)) _ hnext

theorem ancestryWithin_repeats {memo memo' : AncestryMemo} (h : Depicted m P Q root)
    (htrail : TwinTrail m P Q root room room' path id)
    (hmemo : memo.Mirrors m (Ancestry.renameFound m) memo') :
    Repeats (Ancestry.renameFound m) (Memo.Mirrors m (Ancestry.renameFound m))
      (P.ancestryWithin room path id memo)
      (Q.ancestryWithin room' (path.map m) (m id) memo') := by
  induction room generalizing room' path id memo memo' with
  | zero => exact absurd rfl htrail.room_ne_zero.1
  | succ room ih =>
    obtain ⟨room', rfl⟩ := Nat.exists_eq_succ_of_ne_zero htrail.room_ne_zero.2
    have hget' := h.get? id htrail.reached
    rw [ancestryWithin_succ, ancestryWithin_succ, hmemo id, hget']
    cases hget : memo.get? id with
    | some known => exact ⟨rfl, hmemo⟩
    | none =>
      cases hc : P.get? id with
      | none => exact ⟨rfl, hmemo⟩
      | some c =>
        simp only [Option.map_none, Option.map_some, List.mem_map_of_injective h.injective]
        by_cases hid : id ∈ path
        · simp only [hid, if_true]
          exact ⟨rfl, hmemo⟩
        simp only [hid, if_false]
        rw [hc, Option.map_some] at hget'
        have hgather : Repeats (Ancestry.renameFound m) (Memo.Mirrors m (Ancestry.renameFound m))
            (P.gatherWithin room (id :: path) (Ancestry.root id c) c.bases memo)
            (Q.gatherWithin room' (m id :: path.map m) (Ancestry.root (m id) (c.rename m))
              (c.rename m).bases memo') := by
          rw [Ancestry.root_rename, ← List.map_cons]
          apply gatherWithin_repeats h.injective _ _ hmemo
          intro base hmem memo memo' hmemo
          exact ih (htrail.step h.injective hid hc hget'
            (Composite.mem_references_of_base hmem)) hmemo
        generalize P.gatherWithin room (id :: path) (Ancestry.root id c) c.bases memo = result
          at hgather ⊢
        generalize Q.gatherWithin room' (m id :: path.map m) (Ancestry.root (m id) (c.rename m))
          (c.rename m).bases memo' = result' at hgather ⊢
        obtain ⟨found, next⟩ := result
        obtain ⟨found', next'⟩ := result'
        obtain ⟨rfl, hnext⟩ := hgather
        exact ⟨rfl, hnext.insert h.injective id found⟩

lemma ancestry_repeats {memory memory' : TraitMemory} (h : Depicted m P Q root)
    (hreach : P.Reaches root id) (hmemory : memory.Mirrors m memory') :
    Repeats (Ancestry.renameFound m) (TraitMemory.Mirrors m)
      (Classified.ancestry P id memory) (Classified.ancestry Q (m id) memory') := by
  have hwalk := ancestryWithin_repeats h (.nil hreach) hmemory.ancestries
  exact ⟨hwalk.1, hmemory.verdicts, hwalk.2⟩

lemma verdictOf_repeats {assess assess' : TypeId → Classified Assessment}
    {memory memory' : TraitMemory} (hm : m.Injective)
    (hassess : Repeats (Assessment.rename m) (TraitMemory.Mirrors m)
      (assess id memory) (assess' (m id) memory'))
    (hmemory : memory.Mirrors m memory') :
    Repeats (fun verdict => verdict) (TraitMemory.Mirrors m)
      (Classified.verdictOf assess id memory) (Classified.verdictOf assess' (m id) memory') := by
  rw [Classified.verdictOf_apply, Classified.verdictOf_apply, hmemory.verdicts id]
  cases hget : memory.verdicts.get? id with
  | some known => exact ⟨rfl, hmemory⟩
  | none =>
    dsimp only [Option.map_none]
    generalize assess id memory = result at hassess ⊢
    generalize assess' (m id) memory' = result' at hassess ⊢
    obtain ⟨assessment, next⟩ := result
    obtain ⟨assessment', next'⟩ := result'
    obtain ⟨rfl, hnext⟩ := hassess
    dsimp only at hnext ⊢
    rw [Assessment.verdict_rename]
    exact ⟨rfl, hnext.verdicts.insert hm id _, hnext.ancestries⟩

/-- Two assessments that have come to a type on one course give the same from there. -/
theorem explainWithin_repeats {memory memory' : TraitMemory} (h : Depicted m P Q root)
    (htrail : TwinTrail m P Q root room room' path id) (hmemory : memory.Mirrors m memory') :
    Repeats (Assessment.rename m) (TraitMemory.Mirrors m)
      (P.explainWithin room path id memory)
      (Q.explainWithin room' (path.map m) (m id) memory') := by
  induction room generalizing room' path id memory memory' with
  | zero => exact absurd rfl htrail.room_ne_zero.1
  | succ room ih =>
    obtain ⟨room', rfl⟩ := Nat.exists_eq_succ_of_ne_zero htrail.room_ne_zero.2
    have hget' := h.get? id htrail.reached
    rw [explainWithin_succ, explainWithin_succ, hget']
    cases hc : P.get? id with
    | none => exact ⟨rfl, hmemory⟩
    | some c =>
      simp only [Option.map_some, List.mem_map_of_injective h.injective]
      by_cases hid : id ∈ path
      · simp only [hid, if_true]
        exact ⟨rfl, hmemory⟩
      simp only [hid, if_false]
      rw [hc, Option.map_some] at hget'
      have hancestry := ancestry_repeats h htrail.reached hmemory
      generalize Classified.ancestry P id memory = result at hancestry ⊢
      generalize Classified.ancestry Q (m id) memory' = result' at hancestry ⊢
      obtain ⟨found, next⟩ := result
      obtain ⟨found', next'⟩ := result'
      obtain ⟨rfl, hnext⟩ := hancestry
      cases found with
      | error reason => exact ⟨rfl, hnext⟩
      | ok ancestry =>
        have hlook : ∀ part ∈ c.references, ∀ s s' : TraitMemory, s.Mirrors m s' →
            Repeats (fun verdict => verdict) (TraitMemory.Mirrors m)
              (Classified.verdictOf (P.explainWithin room (id :: path)) part s)
              (Classified.verdictOf (Q.explainWithin room' (m id :: path.map m)) (m part) s') :=
          fun part hpart s s' hs => verdictOf_repeats h.injective
            (ih (htrail.step h.injective hid hc hget' hpart) hs) hs
        have hbase : ∀ base ∈ c.bases, ∀ s s' : TraitMemory, s.Mirrors m s' →
            Repeats (fun verdict => verdict) (TraitMemory.Mirrors m)
              (Classified.verdictOf (P.explainWithin room (id :: path)) base.type s)
              (Classified.verdictOf (Q.explainWithin room' (m id :: path.map m))
                (base.rename m).type s') :=
          fun base hmem => hlook base.type (Composite.mem_references_of_base hmem)
        have hfield : ∀ field ∈ c.fields, ∀ s s' : TraitMemory, s.Mirrors m s' →
            Repeats (fun verdict => verdict) (TraitMemory.Mirrors m)
              (Classified.fieldVerdict (P.explainWithin room (id :: path)) field.type s)
              (Classified.fieldVerdict (Q.explainWithin room' (m id :: path.map m))
                (field.rename m).type s') := by
          rintro ⟨name, type, bitWidth, forcedAlign, access, hasInitializer⟩ hmem s s' hs
          cases type with
          | composite part =>
            exact hlook part (Composite.mem_references_of_field hmem rfl) s s' hs
          | _ => exact ⟨rfl, hs⟩
        obtain ⟨hbases, hbased⟩ := Classified.lookUp_repeats (fun base : Base => Classified.verdictOf
          (Q.explainWithin room' (m id :: path.map m)) base.type) hbase hnext
        obtain ⟨hfields, hlast⟩ := Classified.lookUp_repeats (fun field : Field =>
          Classified.fieldVerdict (Q.explainWithin room' (m id :: path.map m)) field.type)
          hfield hbased
        refine ⟨?_, hlast⟩
        rw [← Composite.assessment_rename h.injective]
        exact congrArg₂ ((c.rename m).assessment (ancestry.rename m)) hbases hfields

/-- An assessment worked out afresh is the renamed one. -/
theorem explain_depicted (h : Depicted m P Q root) (hreach : P.Reaches root id) :
    ((Q.explain (m id)).run {}).1 = ((P.explain id).run {}).1.rename m :=
  (explainWithin_repeats h (.nil hreach) ⟨.empty, .empty⟩).1

end TypeTable

end ObjectLayout
