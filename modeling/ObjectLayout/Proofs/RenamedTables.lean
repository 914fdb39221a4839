import Mathlib.Data.Finset.Card
import Mathlib.Logic.Equiv.Basic
import ObjectLayout.Proofs.GrowingTables

/-!
# Renamed tables

Answers do not depend on the indices of types, nor on types that are not reached: if two tables
agree on the types reached, up to a renaming of the references, their answers agree up to the
renaming, rejections and the order of all lists included. So it does not matter in which order a
table has been told of its types, and whether it was told of them at once or by name first.
-/
namespace ObjectLayout.TypeTable

variable {m : TypeId → TypeId} {P Q : TypeTable} {root id : TypeId}

/-- The tables agree on a type: whether it is there, how it is called, and how it is described, with
the references renamed. -/
structure Agrees (m : TypeId → TypeId) (P Q : TypeTable) (id : TypeId) : Prop where
  contains : Q.contains (m id) = P.contains id
  name? : Q.name? (m id) = P.name? id
  get? : Q.get? (m id) = (P.get? id).map (Composite.rename m)

lemma Agrees.of_entry? (h : Q.entry? (m id) = (P.entry? id).map (TypeEntry.rename m)) :
    Agrees m P Q id where
  contains := by simp [contains_eq_isSome, h]
  name? := by
    rw [TypeTable.name?, TypeTable.name?, h, Option.map_map]
    rfl
  get? := by
    rw [TypeTable.get?, TypeTable.get?, h]
    cases P.entry? id <;> rfl

lemma entry?_eq_declared {name : String} :
    P.entry? id = some ⟨name, none⟩ ↔ P.name? id = some name ∧ P.get? id = none := by
  unfold name? get?
  cases P.entry? id with
  | none => simp
  | some entry => cases entry; simp

/-- Tables that agree on all types reached need no excuse. -/
lemma copied_of_agrees (hm : m.Injective) (h : ∀ id, P.Reaches root id → Agrees m P Q id) :
    Copied m (fun _ => False) P Q root where
  injective := hm
  described id name c hreach hentry := by
    have hget := (h id hreach).get?
    rw [get?_of_described hentry] at hget
    exact entry?_of_get? hget
  declared id name hreach hentry := by
    obtain ⟨hname, hget⟩ := entry?_eq_declared.mp hentry
    have hagrees := h id hreach
    rw [← hagrees.name?] at hname
    exact Or.inl (entry?_eq_declared.mpr ⟨hname, by rw [hagrees.get?, hget]; rfl⟩)
  unknown id hreach hentry := by
    have hcontains := (h id hreach).contains
    rw [contains_eq_isSome, contains_eq_isSome, hentry] at hcontains
    exact Or.inl (Option.not_isSome_iff_eq_none.mp (by simp [hcontains]))

/-- Both answers about a type, the layout and an assessment worked out afresh, are renamed. -/
def SameAnswers (m : TypeId → TypeId) (P Q : TypeTable) (target : Target) (id : TypeId) : Prop :=
  Q.layout target (m id) = renamed m (Layout.rename m) (P.layout target id) ∧
    ((Q.explain (m id)).run {}).1 = ((P.explain id).run {}).1.rename m

lemma sameAnswers_of_agrees (hm : m.Injective) (h : ∀ id, P.Reaches root id → Agrees m P Q id)
    (target : Target) : SameAnswers m P Q target root := by
  constructor
  · rcases layout_copied (copied_of_agrees hm h) with ⟨rejection, -, hexcused⟩ | hlayout
    · exact hexcused.elim
    · exact hlayout
  · have hdepicted : Depicted m P Q root := ⟨hm, fun id hreach => (h id hreach).get?⟩
    exact explain_depicted hdepicted (.refl P root)

/-- The table that is told of described types one after the other. -/
def added (cs : List Composite) : TypeTable := empty.after (cs.map .add)

lemma entries_added (cs : List Composite) :
    (added cs).entries = (cs.map fun c => (⟨c.name, some c⟩ : TypeEntry)).toArray := by
  have hall : ∀ table : TypeTable, (table.after (cs.map .add)).entries =
      table.entries ++ (cs.map fun c => (⟨c.name, some c⟩ : TypeEntry)).toArray := by
    induction cs with
    | nil => simp [after]
    | cons c cs ih =>
      intro table
      show ((table.add c).2.after (cs.map .add)).entries = _
      rw [ih]
      simp [add]
  rw [added, hall]
  simp [empty]

lemma entry?_added (cs : List Composite) (id : TypeId) :
    entry? (added cs) id = cs[id.index]?.map fun c => ⟨c.name, some c⟩ := by
  unfold entry?
  rw [entries_added]
  simp

/-- In a table that has been told of its types, a described type has the name of its description. -/
lemma name_eq_of_after {calls : List TableCall} {name : String} {c : Composite}
    (h : entry? (empty.after calls) id = some ⟨name, some c⟩) : name = c.name := by
  have hall : ∀ table : TypeTable,
      (∀ id name c, table.entry? id = some ⟨name, some c⟩ → name = c.name) →
      ∀ id name c, entry? (table.after calls) id = some ⟨name, some c⟩ → name = c.name := by
    clear h
    induction calls with
    | nil => exact fun _ hnamed => hnamed
    | cons call calls ih =>
      intro table hnamed
      apply ih
      intro id name c hentry
      have hstep := table.step_perform call id
      rw [hentry] at hstep
      generalize hold : table.entry? id = old at hstep
      cases hstep with
      | same => exact hnamed id name c hold
      | added => rfl
      | defined => rfl
  refine hall empty (fun id name c hentry => ?_) id name c h
  simp [empty, entry?] at hentry

/-- If a renaming takes the types below a bound to types below the bound, it takes no others
there. -/
lemma lt_of_rename_lt (hm : m.Injective) {n : Nat} (hbelow : ∀ i < n, (m ⟨i⟩).index < n)
    (h : (m id).index < n) : id.index < n := by
  have hinjective : Function.Injective fun i => (m ⟨i⟩).index := by
    intro i j hij
    exact congrArg TypeId.index (hm (TypeId.ext_index hij))
  have hsubset : (Finset.range n).image (fun i => (m ⟨i⟩).index) ⊆ Finset.range n := by
    intro j hj
    obtain ⟨i, hi, rfl⟩ := Finset.mem_image.mp hj
    exact Finset.mem_range.mpr (hbelow i (Finset.mem_range.mp hi))
  have himage := Finset.eq_of_subset_of_card_le hsubset
    (Finset.card_image_of_injective _ hinjective).ge
  obtain ⟨i, hi, hsame⟩ := Finset.mem_image.mp (himage ▸ Finset.mem_range.mpr h)
  have hid : i = id.index := hinjective hsame
  exact hid ▸ Finset.mem_range.mp hi

/-- A table that has been told of just these types, in whatever way, agrees on all of them with the
table that was told of them one after the other. -/
lemma agrees_added (hm : m.Injective) {cs : List Composite} {calls : List TableCall}
    (hsize : (empty.after calls).size = cs.length)
    (hget : ∀ i c, cs[i]? = some c → (empty.after calls).get? (m ⟨i⟩) = some (c.rename m))
    (id : TypeId) : Agrees m (added cs) (empty.after calls) id := by
  apply Agrees.of_entry?
  rw [entry?_added, Option.map_map]
  cases hc : cs[id.index]? with
  | some c =>
    obtain ⟨name, hentry⟩ := entry?_of_get? (hget id.index c hc)
    rw [hentry, name_eq_of_after hentry]
    rfl
  | none =>
    -- The types described fill the table, so the renaming takes no other type into it.
    have hlarge : ¬ id.index < cs.length := by simpa using hc
    have hbelow : ∀ i < cs.length, (m ⟨i⟩).index < cs.length := by
      intro i hi
      rw [← hsize]
      exact lt_size_of_get? (hget i cs[i] (List.getElem?_eq_getElem hi))
    have habsent := mt (lt_of_rename_lt hm hbelow) hlarge
    rw [← hsize] at habsent
    exact Array.getElem?_eq_none (Nat.le_of_not_lt habsent)

/-- Answers are the same up to a renaming for tables that agree up to the renaming on all types that
are reached, whatever else the tables hold. In particular it does not matter how a table has been
told of its types: added at once, or declared and described in any order. -/
theorem answers_renamed (m : TypeId → TypeId) (hm : m.Injective) :
    (∀ (P Q : TypeTable) (target : Target) (root : TypeId),
        (∀ id, P.Reaches root id → Agrees m P Q id) → SameAnswers m P Q target root) ∧
      ∀ (cs : List Composite) (calls : List TableCall),
        (empty.after calls).size = cs.length →
        (∀ i c, cs[i]? = some c → (empty.after calls).get? (m ⟨i⟩) = some (c.rename m)) →
        ∀ target root, SameAnswers m (added cs) (empty.after calls) target root := by
  refine ⟨fun P Q target root hagrees => sameAnswers_of_agrees hm hagrees target, ?_⟩
  intro cs calls hsize hget target root
  exact sameAnswers_of_agrees hm (fun id _ => agrees_added hm hsize hget id) target

/-- Two types that contain each other. -/
def ring : TypeTable :=
  { entries := #[
      ⟨"Whole", some { name := "Whole", bases := [{ type := ⟨1⟩ }] }⟩,
      ⟨"Part", some { name := "Part", fields := [{ name := "whole", type := .composite ⟨0⟩ }] }⟩] }

/-- The same two types the other way round, before a type that nothing refers to. -/
def turnedRing : TypeTable :=
  { entries := #[
      ⟨"Part", some { name := "Part", fields := [{ name := "whole", type := .composite ⟨1⟩ }] }⟩,
      ⟨"Whole", some { name := "Whole", bases := [{ type := ⟨0⟩ }] }⟩,
      ⟨"Other", none⟩] }

/-- The rings are judged alike, and a car is laid out alike whether it is added behind its engine or
declared before it and described first. -/
theorem answers_renamed_swap :
    let m := Equiv.swap (⟨0⟩ : TypeId) ⟨1⟩
    let engine : Composite := { name := "Engine", fields := [{ name := "power", type := .int }] }
    let car : Composite :=
      { name := "Car", bases := [{ type := ⟨0⟩ }], fields := [{ name := "seats", type := .char }] }
    let calls : List TableCall := [.declare "Car", .declare "Motor", .define ⟨0⟩ (car.rename m),
      .define ⟨2⟩ car, .define ⟨1⟩ engine, .define ⟨1⟩ car]
    ring.layout .lp64 ⟨0⟩ = .error (.cyclicHierarchy "Whole") ∧
      ((ring.explain ⟨0⟩).run {}).1.trivial = [.nonTrivialBase ⟨1⟩] ∧
      SameAnswers m ring turnedRing .lp64 ⟨0⟩ ∧
      (added [engine, car]).layout .lp64 ⟨1⟩ = .ok
        { size := 8, align := 4, dataSize := 5, dispatch := none
          fields := [⟨"seats", 4, 1, none⟩], bases := [⟨⟨0⟩, 0, 4, .owned⟩] } ∧
      SameAnswers m (added [engine, car]) (empty.after calls) .lp64 ⟨1⟩ := by
  intro m engine car calls
  have hrings : ∀ id, ring.Reaches ⟨0⟩ id → Agrees m ring turnedRing id := by
    intro id hreach
    have hid : id ∈ [⟨0⟩, ⟨1⟩] := hreach.mem_of_closed (by decide) (by decide)
    apply Agrees.of_entry?
    exact (by decide : ∀ id ∈ [⟨0⟩, ⟨1⟩],
      turnedRing.entry? (m id) = (ring.entry? id).map (TypeEntry.rename m)) id hid
  have hdescribed : ∀ i c, [engine, car][i]? = some c →
      (empty.after calls).get? (m ⟨i⟩) = some (c.rename m) := by
    intro i c hc
    have hi : i < 2 := (List.getElem?_eq_some_iff.mp hc).1
    have hcases : i = 0 ∨ i = 1 := by omega
    rcases hcases with rfl | rfl <;> cases hc <;> decide
  obtain ⟨hagree, htold⟩ := answers_renamed m m.injective
  exact ⟨by decide +kernel, by decide +kernel, hagree ring turnedRing .lp64 ⟨0⟩ hrings,
    by decide +kernel, htold [engine, car] calls (by decide) hdescribed .lp64 ⟨1⟩⟩

end ObjectLayout.TypeTable
