import Mathlib.Data.List.Forall2
import ObjectLayout.Proofs.Moves
import ObjectLayout.Proofs.VerdictWalk

/-!
# Questions about any type

A walk may begin at any type, also on a cycle or above an undefined one. What it remembers of types
on no endless chain is right nevertheless, and a type on an endless chain is never given a trait,
wherever the walk came upon the cycle. So after any questions the verdict on a type is that of the
recursion, or neither trait where the type is broken.
-/
namespace ObjectLayout

namespace Composite

variable {c : Composite} {ancestry : Ancestry} {bases : List (Base × Verdict)}
  {fields : List (Field × Verdict)}

lemma given_eq_nil {present : Bool} {violation : Violation} :
    Violation.given present violation = [] ↔ present = false := by
  cases present <;> simp [Violation.given]

lemma trivialViolations_eq_nil_iff : c.trivialViolations bases fields = [] ↔
    c.introducesDispatch = false ∧
      (∀ y ∈ bases, y.1.isShared = false ∧ y.2.trivial = true) ∧
      c.userProvided.isEmpty = true ∧
      ∀ y ∈ fields, y.1.hasInitializer = false ∧ y.2.trivial = true := by
  simp only [trivialViolations, List.append_eq_nil_iff, List.flatMap_eq_nil_iff, given_eq_nil,
    Bool.not_eq_false', and_assoc]

lemma standardLayoutViolations_eq_nil_iff :
    c.standardLayoutViolations ancestry bases fields = [] ↔
      c.introducesDispatch = false ∧
        (∀ y ∈ bases, y.1.isShared = false ∧ y.2.standardLayout = true) ∧
        (∀ y ∈ fields, y.2.standardLayout = true) ∧
        c.accessGroups.length ≤ 1 ∧ ancestry.dataLayers.length ≤ 1 ∧
        ancestry.repeatedBase? = none ∧ c.firstFieldViolations ancestry = [] := by
  simp only [standardLayoutViolations, List.append_eq_nil_iff, List.flatMap_eq_nil_iff,
    given_eq_nil, Bool.not_eq_false', decide_eq_false_iff_not, Nat.not_lt, List.map_eq_nil_iff,
    Option.toList_eq_nil_iff, and_assoc]

/-- One base or field with neither trait leaves the type with neither. -/
lemma verdict_eq_neither
    (h : (∃ y ∈ bases, y.2 = .neither) ∨ ∃ y ∈ fields, y.2 = .neither) :
    (c.assessment ancestry bases fields).verdict = .neither := by
  have htrivial : c.trivialViolations bases fields ≠ [] := by
    rw [Ne, trivialViolations_eq_nil_iff]
    rintro ⟨-, hbases, -, hfields⟩
    rcases h with ⟨y, hmem, hy⟩ | ⟨y, hmem, hy⟩
    · simpa [hy, Verdict.neither] using (hbases y hmem).2
    · simpa [hy, Verdict.neither] using (hfields y hmem).2
  have hstandard : c.standardLayoutViolations ancestry bases fields ≠ [] := by
    rw [Ne, standardLayoutViolations_eq_nil_iff]
    rintro ⟨-, hbases, hfields, -⟩
    rcases h with ⟨y, hmem, hy⟩ | ⟨y, hmem, hy⟩
    · simpa [hy, Verdict.neither] using (hbases y hmem).2
    · simpa [hy, Verdict.neither] using hfields y hmem
  simp [assessment, Assessment.verdict, Verdict.neither, htrivial, hstandard]

end Composite

namespace TypeTable

/-- Some type that `id` reaches is not defined or reaches itself. -/
def Broken (table : TypeTable) (id : TypeId) : Prop :=
  ∃ part, table.Reaches id part ∧ (table.get? part = none ∨ table.Below part part)

variable {table : TypeTable} {id part : TypeId} {c : Composite} {path : List TypeId}
  {memo : AncestryMemo} {memory : TraitMemory}

/-- Without a loop among the reachable types no chain of references is endless. -/
theorem acyclic_of_not_below (h : ∀ part, table.Reaches id part → ¬ table.Below part part) :
    table.Acyclic id := by
  -- Every step down makes the trail longer, and a trail fits into the table.
  have hwalk : ∀ room path id, path.length + room = table.size + 1 → table.Trail path id →
      (∀ part, table.Reaches id part → ¬ table.Below part part) → table.Acyclic id := by
    intro room
    induction room with
    | zero =>
      intro path id hroom htrail
      have := htrail.length_le
      omega
    | succ room ih =>
      intro path id hroom htrail hloop
      refine Acc.intro id fun part hrefers => ?_
      have hid : id ∉ path := fun hmem => hloop id (.refl table id) (htrail.above id hmem)
      cases hc : table.get? id with
      | none => simp [Refers, references, hc] at hrefers
      | some c =>
        refine ih (id :: path) part ?_ (htrail.step hid hc ((refers_iff hc).mp hrefers)) ?_
        · simp only [List.length_cons]
          omega
        · exact fun other hreach => hloop other (Relation.ReflTransGen.head hrefers hreach)
  exact hwalk (table.size + 1) [] id (by simp) (.nil table id) h

lemma acyclic_of_not_broken (h : ¬ table.Broken id) : table.Acyclic id :=
  acyclic_of_not_below fun part hreach hloop => h ⟨part, hreach, Or.inr hloop⟩

/-- A defined type that is broken refers to a broken one. -/
lemma Broken.exists_reference (h : table.Broken id) (hc : table.get? id = some c) :
    ∃ part ∈ c.references, table.Broken part := by
  obtain ⟨part, hreach, hpart⟩ := h
  rcases hreach.cases_head with rfl | ⟨next, hrefers, hrest⟩
  · have hloop : table.Below id id := by simpa [hc] using hpart
    obtain ⟨next, hrefers, hback⟩ := below_iff.mp hloop
    exact ⟨next, (refers_iff hc).mp hrefers, id, hback, Or.inr hloop⟩
  · exact ⟨next, (refers_iff hc).mp hrefers, part, hrest, hpart⟩

/-- What refers to no type on an endless chain is on none. -/
lemma exists_reference_not_acyclic (h : ¬ table.Acyclic id) (hc : table.get? id = some c) :
    ∃ part ∈ c.references, ¬ table.Acyclic part := by
  by_contra hall
  push Not at hall
  exact h (Acc.intro id fun part hrefers => hall part ((refers_iff hc).mp hrefers))

/-- A broken type has neither trait. -/
theorem AssessmentOf.neither_of_broken {found : Assessment} (h : table.AssessmentOf id found)
    (hbroken : table.Broken id) : found.verdict = .neither := by
  induction h with
  | undefined undefined => rfl
  | barred defined walked => rfl
  | @defined id c ancestry assess defined walked parts ih =>
    obtain ⟨part, hmem, hpart⟩ := hbroken.exists_reference defined
    have hneither := ih part hmem hpart
    refine Composite.verdict_eq_neither ?_
    rcases Composite.mem_references_iff.mp hmem with ⟨base, hbase, rfl⟩ | ⟨field, hfield, htype⟩
    · exact Or.inl ⟨_, List.mem_map_of_mem hbase, hneither⟩
    · refine Or.inr ⟨_, List.mem_map_of_mem hfield, ?_⟩
      rw [htype]
      exact hneither

lemma AncestriesSound.insert_of_not_acyclic {found : Except Violation Ancestry}
    (h : table.AncestriesSound memo) (hid : ¬ table.Acyclic id) :
    table.AncestriesSound (memo.insert id found) := by
  intro other found' hacyclic hget
  rw [Memo.get?_insert] at hget
  split at hget
  · next heq => exact absurd (heq ▸ hacyclic) hid
  · exact h other found' hacyclic hget

/-- Running over bases keeps what a walk of each base keeps. -/
lemma gatherWithin_keeps {room : Nat} {bases : List Base}
    (hwalk : ∀ base ∈ bases, ∀ memo : AncestryMemo, table.AncestriesSound memo →
      table.AncestriesSound (table.ancestryWithin room path base.type memo).2)
    (start : Ancestry) (hmemo : table.AncestriesSound memo) :
    table.AncestriesSound (table.gatherWithin room path start bases memo).2 := by
  induction bases generalizing start memo with
  | nil => exact hmemo
  | cons base bases ih =>
    have hnext := hwalk base List.mem_cons_self memo hmemo
    rw [gatherWithin_cons]
    cases hresult : table.ancestryWithin room path base.type memo with
    | mk found next =>
      rw [hresult] at hnext
      cases found with
      | error reason => exact hnext
      | ok found => exact ih (fun base hmem => hwalk base (List.mem_cons_of_mem _ hmem)) _ hnext

/-- An ancestry walk from any type keeps the memo right for the types on no endless chain. -/
lemma ancestryWithin_keeps {room : Nat} (hroom : path.length + room = table.size + 1)
    (htrail : table.Trail path id) (hmemo : table.AncestriesSound memo) :
    table.AncestriesSound (table.ancestryWithin room path id memo).2 := by
  induction room generalizing path id memo with
  | zero => exact hmemo
  | succ room ih =>
    by_cases hacyclic : table.Acyclic id
    · exact (ancestryWithin_sound hroom htrail hacyclic hmemo).2
    rw [ancestryWithin_succ]
    cases hget : memo.get? id with
    | some known => exact hmemo
    | none =>
      cases hc : table.get? id with
      | none => exact hmemo
      | some c =>
        by_cases hid : id ∈ path
        · simpa only [hid, if_true] using hmemo
        simp only [hid, if_false]
        refine AncestriesSound.insert_of_not_acyclic (gatherWithin_keeps ?_ _ hmemo) hacyclic
        intro base hmem memo hmemo
        refine ih ?_ (htrail.step hid hc (Composite.mem_references_of_base hmem)) hmemo
        simp only [List.length_cons]
        omega

/-- What is remembered is right for types on no endless chain, and gives no trait to others. -/
structure Settled (table : TypeTable) (memory : TraitMemory) : Prop where
  sound : table.TraitsSound memory
  cyclic : ∀ id verdict, ¬ table.Acyclic id → memory.verdicts.get? id = some verdict →
    verdict = .neither

lemma Settled.empty (table : TypeTable) : table.Settled {} := by
  refine ⟨.empty table, ?_⟩
  intro id verdict _ hget
  cases hget

/-- A verdict may be remembered if it is right, or neither trait for a type on an endless chain. -/
lemma Settled.insert {verdict : Verdict} (h : table.Settled memory)
    (hacyclic : table.Acyclic id → table.VerdictOf id verdict)
    (hcyclic : ¬ table.Acyclic id → verdict = .neither) :
    table.Settled { memory with verdicts := memory.verdicts.insert id verdict } := by
  refine ⟨⟨?_, h.sound.ancestries⟩, ?_⟩
  · intro other found hother hget
    rw [Memo.get?_insert] at hget
    split at hget
    · next heq =>
      cases hget
      exact heq ▸ hacyclic (heq ▸ hother)
    · exact h.sound.verdicts other found hother hget
  · intro other found hother hget
    rw [Memo.get?_insert] at hget
    split at hget
    · next heq =>
      cases hget
      exact hcyclic (heq ▸ hother)
    · exact h.cyclic other found hother hget

lemma ancestry_settled (id : TypeId) (h : table.Settled memory) :
    table.Settled (Classified.ancestry table id memory).2 := by
  have hkeeps : table.AncestriesSound ((table.ancestry id).run memory.ancestries).2 :=
    ancestryWithin_keeps (by simp) (.nil table id) h.sound.ancestries
  exact ⟨⟨h.sound.verdicts, hkeeps⟩, h.cyclic⟩

/-- An assessment or a verdict on a type, with what it leaves behind. -/
def Settles (table : TypeTable) (id : TypeId) (verdict : Verdict) (next : TraitMemory) : Prop :=
  (¬ table.Acyclic id → verdict = .neither) ∧ table.Settled next

lemma verdictOf_settles {assess : TypeId → Classified Assessment} (h : table.Settled memory)
    (hacyclic : table.Acyclic id → table.AssessmentOf id (assess id memory).1)
    (hassess : table.Settles id (assess id memory).1.verdict (assess id memory).2) :
    table.Settles id (Classified.verdictOf assess id memory).1
      (Classified.verdictOf assess id memory).2 := by
  rw [Classified.verdictOf_apply]
  cases hget : memory.verdicts.get? id with
  | some known => exact ⟨fun hid => h.cyclic id known hid hget, h⟩
  | none => exact ⟨hassess.1, hassess.2.insert (fun hid => ⟨_, hacyclic hid, rfl⟩) hassess.1⟩

end TypeTable

namespace Classified

/-- Looking up every member of a list keeps what each look-up keeps, and every member has what its
look-up gives. -/
lemma lookUp_meets {σ α β : Type} {inv : σ → Prop} {P : α → β → Prop}
    {look : α → StateM σ β} {l : List α} {s : σ}
    (h : ∀ x ∈ l, ∀ s, inv s → P x (look x s).1 ∧ inv (look x s).2) (hs : inv s) :
    List.Forall₂ (fun x y => y.1 = x ∧ P x y.2) l (lookUp look l s).1 ∧
      inv (lookUp look l s).2 := by
  refine mapM_meets (fun x hmem s hs => ?_) hs
  obtain ⟨hx, hnext⟩ := h x hmem s hs
  exact ⟨⟨rfl, hx⟩, hnext⟩

end Classified

namespace TypeTable

variable {table : TypeTable} {id part : TypeId} {path : List TypeId} {memory : TraitMemory}

lemma fieldVerdict_settles {assess : TypeId → Classified Assessment} {type : FieldType}
    (hlook : ∀ part, type = .composite part → table.Settles part
      (Classified.verdictOf assess part memory).1 (Classified.verdictOf assess part memory).2)
    (hmemory : table.Settled memory) :
    (∀ part, type = .composite part → ¬ table.Acyclic part →
        (Classified.fieldVerdict assess type memory).1 = .neither) ∧
      table.Settled (Classified.fieldVerdict assess type memory).2 := by
  cases type with
  | scalar size align => exact ⟨by simp, hmemory⟩
  | pointer => exact ⟨by simp, hmemory⟩
  | composite part =>
    have hpart := hlook part rfl
    refine ⟨?_, hpart.2⟩
    rintro _ ⟨⟩
    exact hpart.1

/-- Looking up all bases and then all fields leaves a settled memory, and one of them on an endless
chain leaves the type with neither trait. -/
lemma assessment_settles {c : Composite} {assess : TypeId → Classified Assessment}
    (hlook : ∀ part ∈ c.references, ∀ s, table.Settled s → table.Settles part
      (Classified.verdictOf assess part s).1 (Classified.verdictOf assess part s).2)
    (hmemory : table.Settled memory) (ancestry : Ancestry) :
    let bases := Classified.lookUp
      (fun base : Base => Classified.verdictOf assess base.type) c.bases memory
    let fields := Classified.lookUp
      (fun field : Field => Classified.fieldVerdict assess field.type) c.fields bases.2
    ((∃ part ∈ c.references, ¬ table.Acyclic part) →
        (c.assessment ancestry bases.1 fields.1).verdict = .neither) ∧
      table.Settled fields.2 := by
  obtain ⟨hbases, hbased⟩ := Classified.lookUp_meets
    (P := fun (base : Base) (verdict : Verdict) => ¬ table.Acyclic base.type → verdict = .neither)
    (fun base hmem => hlook base.type (Composite.mem_references_of_base hmem)) hmemory
  obtain ⟨hfields, hlast⟩ := Classified.lookUp_meets
    (P := fun (field : Field) (verdict : Verdict) => ∀ part, field.type = .composite part →
      ¬ table.Acyclic part → verdict = .neither)
    (fun field hmem s hs => fieldVerdict_settles
      (fun part htype => hlook part (Composite.mem_references_of_field hmem htype) s hs) hs) hbased
  refine ⟨?_, hlast⟩
  rintro ⟨part, hmem, hpart⟩
  refine Composite.verdict_eq_neither ?_
  rcases Composite.mem_references_iff.mp hmem with ⟨base, hbase, rfl⟩ | ⟨field, hfield, htype⟩
  · obtain ⟨y, hy, -, hneither⟩ := exists_of_mem_left hbases hbase
    exact Or.inl ⟨y, hy, hneither hpart⟩
  · obtain ⟨y, hy, -, hneither⟩ := exists_of_mem_left hfields hfield
    exact Or.inr ⟨y, hy, hneither part htype hpart⟩

/-- An assessment from any type leaves a settled memory and gives a type on an endless chain
neither trait. -/
theorem explainWithin_settles {room : Nat} (hroom : path.length + room = table.size + 1)
    (htrail : table.Trail path id) (hmemory : table.Settled memory) :
    table.Settles id (table.explainWithin room path id memory).1.verdict
      (table.explainWithin room path id memory).2 := by
  induction room generalizing path id memory with
  | zero => exact ⟨fun _ => rfl, hmemory⟩
  | succ room ih =>
    rw [explainWithin_succ]
    cases hc : table.get? id with
    | none => exact ⟨fun _ => rfl, hmemory⟩
    | some c =>
      by_cases hid : id ∈ path
      · simp only [hid, if_true]
        exact ⟨fun _ => rfl, hmemory⟩
      simp only [hid, if_false]
      have hnext := ancestry_settled id hmemory
      cases hresult : Classified.ancestry table id memory with
      | mk found next =>
        rw [hresult] at hnext
        cases found with
        | error reason => exact ⟨fun _ => rfl, hnext⟩
        | ok ancestry =>
          have hlength : (id :: path).length + room = table.size + 1 := by
            simp only [List.length_cons]
            omega
          have hlook : ∀ part ∈ c.references, ∀ s, table.Settled s → table.Settles part
              (Classified.verdictOf (table.explainWithin room (id :: path)) part s).1
              (Classified.verdictOf (table.explainWithin room (id :: path)) part s).2 := by
            intro part hpart s hs
            have hstep := htrail.step hid hc hpart
            exact verdictOf_settles hs
              (fun hacyclic => (explainWithin_sound hlength hstep hacyclic hs.sound).1)
              (ih hlength hstep hs)
          obtain ⟨hneither, hlast⟩ := assessment_settles hlook hnext ancestry
          exact ⟨fun hcyclic => hneither (exists_reference_not_acyclic hcyclic hc), hlast⟩

/-- The verdict of the recursion, or neither trait if the type is broken. -/
structure Judged (table : TypeTable) (id : TypeId) (verdict : Verdict) : Prop where
  broken : table.Broken id → verdict = .neither
  sound : ¬ table.Broken id → table.VerdictOf id verdict

lemma Judged.of_settles {verdict : Verdict} {next : TraitMemory}
    (hacyclic : table.Acyclic id → table.VerdictOf id verdict)
    (hsettles : table.Settles id verdict next) : table.Judged id verdict := by
  refine ⟨fun hbroken => ?_, fun hsane => hacyclic (acyclic_of_not_broken hsane)⟩
  by_cases hid : table.Acyclic id
  · obtain ⟨found, hfound, rfl⟩ := hacyclic hid
    exact hfound.neither_of_broken hbroken
  · exact hsettles.1 hid

theorem Judged.unique {verdict verdict' : Verdict} (h : table.Judged id verdict)
    (h' : table.Judged id verdict') : verdict = verdict' := by
  by_cases hbroken : table.Broken id
  · rw [h.broken hbroken, h'.broken hbroken]
  · exact (h.sound hbroken).unique (h'.sound hbroken)

/-- After any questions, a type on no endless chain is assessed as the recursion does. -/
theorem explain_sound (hacyclic : table.Acyclic id) (hmemory : table.Settled memory) :
    table.AssessmentOf id ((table.explain id).run memory).1 :=
  (explainWithin_sound (by simp) (.nil table id) hacyclic hmemory.sound).1

lemma explain_settles (id : TypeId) (hmemory : table.Settled memory) :
    table.Settles id ((table.explain id).run memory).1.verdict
      ((table.explain id).run memory).2 :=
  explainWithin_settles (by simp) (.nil table id) hmemory

lemma classify_settles (id : TypeId) (hmemory : table.Settled memory) :
    table.Settles id ((table.classify id).run memory).1 ((table.classify id).run memory).2 :=
  verdictOf_settles hmemory (fun hacyclic => explain_sound hacyclic hmemory)
    (explain_settles id hmemory)

theorem explain_judged (id : TypeId) (hmemory : table.Settled memory) :
    table.Judged id ((table.explain id).run memory).1.verdict :=
  .of_settles (fun hacyclic => ⟨_, explain_sound hacyclic hmemory, rfl⟩)
    (explain_settles id hmemory)

theorem classify_judged (id : TypeId) (hmemory : table.Settled memory) :
    table.Judged id ((table.classify id).run memory).1 :=
  .of_settles (fun hacyclic => (classify_sound hacyclic hmemory.sound).1)
    (classify_settles id hmemory)

end TypeTable

/-- A question about the traits of a type. -/
inductive TraitQuestion where
  | verdict (id : TypeId)
  | explanation (id : TypeId)
  deriving DecidableEq

namespace TypeTable

/-- What one more question leaves behind. -/
def askTraits (table : TypeTable) (memory : TraitMemory) : TraitQuestion → TraitMemory
  | .verdict id => ((table.classify id).run memory).2
  | .explanation id => ((table.explain id).run memory).2

/-- What a sequence of questions leaves behind, starting from nothing. -/
def traitsAfter (table : TypeTable) (questions : List TraitQuestion) : TraitMemory :=
  questions.foldl table.askTraits {}

theorem traitsAfter_settled (table : TypeTable) (questions : List TraitQuestion) :
    table.Settled (table.traitsAfter questions) := by
  have hfold : ∀ memory, table.Settled memory →
      table.Settled (questions.foldl table.askTraits memory) := by
    induction questions with
    | nil => exact fun _ h => h
    | cons question questions ih =>
      intro memory h
      refine ih _ ?_
      cases question with
      | verdict id => exact (classify_settles id h).2
      | explanation id => exact (explain_settles id h).2
  exact hfold {} (.empty table)

end TypeTable

end ObjectLayout
