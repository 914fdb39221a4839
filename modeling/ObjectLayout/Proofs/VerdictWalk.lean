import ObjectLayout.Proofs.AncestryWalk
import ObjectLayout.Traits.Verdicts

/-!
# The classification walk

For a type on no endless chain of references the broken rules follow from a recursion over its
bases and fields, defined here without a memory. The walk gives them whatever it remembers, as
long as what it remembers of such types is right, so the verdict on such a type does not depend on
the questions asked before.
-/
namespace ObjectLayout

/-- The verdict on what a field stores, given the assessments of the types below. -/
def FieldType.verdict (assess : TypeId → Assessment) : FieldType → Verdict
  | .scalar _ _ | .pointer => .pod
  | .composite id => (assess id).verdict

instance : Inhabited Assessment := ⟨⟨[], []⟩⟩

namespace TypeTable

/-- The broken rules of a type, by recursion over its bases and fields. -/
inductive AssessmentOf (table : TypeTable) : TypeId → Assessment → Prop
  | undefined {id : TypeId} (undefined : table.get? id = none) :
      table.AssessmentOf id (.both (.unresolved id))
  | barred {id : TypeId} {c : Composite} {reason : Violation} (defined : table.get? id = some c)
      (walked : table.AncestryOf id (.error reason)) : table.AssessmentOf id (.both reason)
  | defined {id : TypeId} {c : Composite} {ancestry : Ancestry} (assess : TypeId → Assessment)
      (defined : table.get? id = some c) (walked : table.AncestryOf id (.ok ancestry))
      (parts : ∀ part ∈ c.references, table.AssessmentOf part (assess part)) :
      table.AssessmentOf id (c.assessment ancestry
        (c.bases.map fun base => (base, (assess base.type).verdict))
        (c.fields.map fun field => (field, field.type.verdict assess)))

/-- The verdict on a type, by the same recursion. -/
def VerdictOf (table : TypeTable) (id : TypeId) (verdict : Verdict) : Prop :=
  ∃ assessment, table.AssessmentOf id assessment ∧ verdict = assessment.verdict

variable {table : TypeTable} {id part : TypeId} {path : List TypeId} {memory : TraitMemory}

theorem AssessmentOf.unique {found found' : Assessment} (h : table.AssessmentOf id found)
    (h' : table.AssessmentOf id found') : found = found' := by
  induction h generalizing found' with
  | undefined undefined => cases h' <;> simp_all
  | barred defined ancestry =>
    cases h' with
    | undefined undefined => simp_all
    | barred _ ancestry' => cases ancestry.unique ancestry'; rfl
    | defined _ _ ancestry' => cases ancestry.unique ancestry'
  | @defined id c found assess defined ancestry _ ih =>
    cases h' with
    | undefined undefined => simp_all
    | barred _ ancestry' => cases ancestry.unique ancestry'
    | @defined _ c' found'' assess' defined' ancestry' parts' =>
      obtain rfl : c = c' := Option.some.inj (defined.symm.trans defined')
      cases ancestry.unique ancestry'
      have hbases : c.bases.map (fun base => (base, (assess base.type).verdict)) =
          c.bases.map fun base => (base, (assess' base.type).verdict) := by
        refine List.map_congr_left fun base hmem => ?_
        have href := Composite.mem_references_of_base hmem
        rw [ih _ href (parts' _ href)]
      have hfields : c.fields.map (fun field => (field, field.type.verdict assess)) =
          c.fields.map fun field => (field, field.type.verdict assess') := by
        refine List.map_congr_left fun field hmem => ?_
        cases htype : field.type with
        | composite id =>
          have href := Composite.mem_references_of_field hmem htype
          rw [FieldType.verdict, FieldType.verdict, ih _ href (parts' _ href)]
        | _ => rfl
      rw [hbases, hfields]

theorem VerdictOf.unique {verdict verdict' : Verdict} (h : table.VerdictOf id verdict)
    (h' : table.VerdictOf id verdict') : verdict = verdict' := by
  obtain ⟨found, hfound, rfl⟩ := h
  obtain ⟨found', hfound', rfl⟩ := h'
  rw [hfound.unique hfound']

/-- A type on no endless chain has an assessment. -/
theorem exists_assessmentOf (h : table.Acyclic id) : ∃ found, table.AssessmentOf id found := by
  induction h with
  | intro id hparts ih =>
    cases hc : table.get? id with
    | none => exact ⟨_, .undefined hc⟩
    | some c =>
      obtain ⟨found, hfound⟩ := exists_ancestryOf (Acc.intro id hparts : table.Acyclic id)
      cases found with
      | error reason => exact ⟨_, .barred hc hfound⟩
      | ok ancestry =>
        choose! assess hassess using ih
        exact ⟨_, .defined assess hc hfound fun part hp => hassess part ((refers_iff hc).mpr hp)⟩

/-- What the memory says of types on no endless chain is right. -/
structure TraitsSound (table : TypeTable) (memory : TraitMemory) : Prop where
  verdicts : ∀ id verdict, table.Acyclic id → memory.verdicts.get? id = some verdict →
    table.VerdictOf id verdict
  ancestries : table.AncestriesSound memory.ancestries

lemma TraitsSound.empty (table : TypeTable) : table.TraitsSound {} := by
  refine ⟨?_, .empty table⟩
  intro id verdict _ hget
  cases hget

end TypeTable

/-- What `next` remembers a verdict on includes what `memory` does. -/
def TraitMemory.Grows (memory next : TraitMemory) : Prop :=
  ∀ id, (memory.verdicts.get? id).isSome → (next.verdicts.get? id).isSome

/-- A run of steps keeps what each step keeps, and each step gives what it gives for its input. -/
lemma mapM_meets {σ α β : Type} {inv : σ → Prop} {P : α → β → Prop} {step : α → StateM σ β}
    {l : List α} {s : σ} (h : ∀ x ∈ l, ∀ s, inv s → P x (step x s).1 ∧ inv (step x s).2)
    (hs : inv s) : List.Forall₂ P l (l.mapM step s).1 ∧ inv (l.mapM step s).2 := by
  induction l generalizing s with
  | nil => exact ⟨.nil, hs⟩
  | cons x l ih =>
    obtain ⟨hx, hnext⟩ := h x List.mem_cons_self s hs
    obtain ⟨hrest, hlast⟩ := ih (fun y hy => h y (List.mem_cons_of_mem _ hy)) hnext
    rw [List.mapM_cons]
    exact ⟨.cons hx hrest, hlast⟩

/-- A run of steps that each give the value of their input and keep an invariant. -/
lemma mapM_eq_map {σ α β : Type} {inv : σ → Prop} {step : α → StateM σ β} {value : α → β}
    {l : List α} {s : σ}
    (h : ∀ x ∈ l, ∀ s, inv s → (step x s).1 = value x ∧ inv (step x s).2) (hs : inv s) :
    (l.mapM step s).1 = l.map value ∧ inv (l.mapM step s).2 := by
  obtain ⟨hvalues, hlast⟩ := mapM_meets (P := fun x y => value x = y) (fun x hx s hs => by
    obtain ⟨hvalue, hnext⟩ := h x hx s hs
    exact ⟨hvalue.symm, hnext⟩) hs
  have hsame := List.forall₂_map_left_iff.mpr hvalues
  rw [List.forall₂_eq_eq_eq] at hsame
  exact ⟨hsame.symm, hlast⟩

namespace Classified

/-- Look up every member of a list, from the front. -/
def lookUp {σ α β : Type} (look : α → StateM σ β) (l : List α) : StateM σ (List (α × β)) :=
  l.mapM fun x => do return (x, ← look x)

/-- Looking up every member of a list keeps what each look-up keeps. -/
lemma lookUp_eq {σ α β : Type} {inv : σ → Prop} {look : α → StateM σ β} {value : α → β}
    {l : List α} {s : σ}
    (h : ∀ x ∈ l, ∀ s, inv s → (look x s).1 = value x ∧ inv (look x s).2) (hs : inv s) :
    (lookUp look l s).1 = l.map (fun x => (x, value x)) ∧ inv (lookUp look l s).2 := by
  refine mapM_eq_map (fun x hx s hs => ?_) hs
  obtain ⟨hvalue, hnext⟩ := h x hx s hs
  exact ⟨congrArg (x, ·) hvalue, hnext⟩

lemma verdictOf_apply (assess : TypeId → Classified Assessment) (id : TypeId)
    (memory : TraitMemory) :
    verdictOf assess id memory =
      match memory.verdicts.get? id with
      | some known => (known, memory)
      | none =>
        let (assessment, next) := assess id memory
        (assessment.verdict,
          { next with verdicts := next.verdicts.insert id assessment.verdict }) := by
  rw [verdictOf]
  simp only [bind, StateT.bind, get, getThe, MonadStateOf.get, StateT.get, pure]
  cases memory.verdicts.get? id <;> rfl

end Classified

namespace TypeTable

variable {table : TypeTable} {id : TypeId} {path : List TypeId} {memory : TraitMemory}

/-- What one assessment or look-up leaves behind when it begins with `memory`. -/
structure Remembers (table : TypeTable) (memory next : TraitMemory) : Prop where
  sound : table.TraitsSound next
  grows : memory.Grows next

namespace Remembers

lemma refl (h : table.TraitsSound memory) : table.Remembers memory memory := ⟨h, fun _ hid => hid⟩

lemma trans {next last : TraitMemory} (h : table.Remembers memory next)
    (h' : table.Remembers next last) : table.Remembers memory last :=
  ⟨h'.sound, fun id hid => h'.grows id (h.grows id hid)⟩

end Remembers

/-- A verdict looked up is right if the assessment behind it is. -/
lemma verdictOf_sound {assess : TypeId → Classified Assessment} {value : Assessment}
    (hvalue : table.AssessmentOf id value) (hacyclic : table.Acyclic id)
    (hassess : (assess id memory).1 = value ∧ table.Remembers memory (assess id memory).2)
    (hmemory : table.TraitsSound memory) :
    (Classified.verdictOf assess id memory).1 = value.verdict ∧
      table.Remembers memory (Classified.verdictOf assess id memory).2 ∧
      ((Classified.verdictOf assess id memory).2.verdicts.get? id).isSome := by
  rw [Classified.verdictOf_apply]
  cases hget : memory.verdicts.get? id with
  | some known =>
    have hknown := hmemory.verdicts id known hacyclic hget
    exact ⟨hknown.unique ⟨value, hvalue, rfl⟩, .refl hmemory, by simp [hget]⟩
  | none =>
    cases hresult : assess id memory with
    | mk assessment next =>
      rw [hresult] at hassess
      obtain ⟨rfl, hsound, hgrows⟩ := hassess
      refine ⟨rfl, ⟨⟨?_, hsound.ancestries⟩, ?_⟩, by simp⟩
      · intro other verdict hother hverdict
        rw [Memo.get?_insert] at hverdict
        split at hverdict
        · next heq =>
          cases hverdict
          exact heq ▸ ⟨assessment, hvalue, rfl⟩
        · exact hsound.verdicts other verdict hother hverdict
      · intro other hother
        rw [Memo.get?_insert]
        split
        · rfl
        · exact hgrows other hother

/-- One step of the walk, case by case. -/
lemma explainWithin_succ (table : TypeTable) (room : Nat) (path : List TypeId) (id : TypeId)
    (memory : TraitMemory) :
    table.explainWithin (room + 1) path id memory =
      match table.get? id with
      | none => (.both (.unresolved id), memory)
      | some c =>
        if id ∈ path then (.both (.cyclic id), memory)
        else
          match Classified.ancestry table id memory with
          | (.error reason, next) => (.both reason, next)
          | (.ok ancestry, next) =>
            let assess := table.explainWithin room (id :: path)
            let bases := Classified.lookUp
              (fun base : Base => Classified.verdictOf assess base.type) c.bases next
            let fields := Classified.lookUp
              (fun field : Field => Classified.fieldVerdict assess field.type) c.fields bases.2
            (c.assessment ancestry bases.1 fields.1, fields.2) := by
  rw [explainWithin]
  cases table.get? id with
  | none => rfl
  | some c =>
    by_cases hid : id ∈ path
    · simp only [hid, if_true]
      rfl
    · simp only [hid, if_false]
      simp only [bind, StateT.bind]
      cases Classified.ancestry table id memory with
      | mk found next => cases found <;> rfl

lemma ancestry_remembers (hacyclic : table.Acyclic id) (hmemory : table.TraitsSound memory) :
    table.AncestryOf id (Classified.ancestry table id memory).1 ∧
      table.Remembers memory (Classified.ancestry table id memory).2 := by
  have hsound := ancestry_sound hacyclic hmemory.ancestries
  exact ⟨hsound.1, ⟨hmemory.verdicts, hsound.2⟩, fun _ hid => hid⟩

theorem explainWithin_sound {room : Nat} (hroom : path.length + room = table.size + 1)
    (htrail : table.Trail path id) (hacyclic : table.Acyclic id)
    (hmemory : table.TraitsSound memory) :
    table.AssessmentOf id (table.explainWithin room path id memory).1 ∧
      table.Remembers memory (table.explainWithin room path id memory).2 := by
  induction room generalizing path id memory with
  | zero =>
    have := htrail.length_le
    omega
  | succ room ih =>
    rw [explainWithin_succ]
    cases hc : table.get? id with
    | none => exact ⟨.undefined hc, .refl hmemory⟩
    | some c =>
      have hid : id ∉ path := htrail.not_mem hacyclic
      simp only [hid, if_false]
      obtain ⟨hfound, hnext⟩ := ancestry_remembers hacyclic hmemory
      cases hresult : Classified.ancestry table id memory with
      | mk found next =>
        rw [hresult] at hfound hnext
        dsimp only at hfound hnext
        cases found with
        | error reason => exact ⟨.barred hc hfound, hnext⟩
        | ok ancestry =>
          choose! assess hassess using fun part (hpart : table.Acyclic part) =>
            exists_assessmentOf hpart
          have hparts : ∀ part ∈ c.references, table.Acyclic part := fun part hpart =>
            hacyclic.refers ((refers_iff hc).mpr hpart)
          -- Every look-up starts from what is known of `memory` and more.
          have hlook : ∀ part ∈ c.references, ∀ s, table.Remembers memory s →
              (Classified.verdictOf (table.explainWithin room (id :: path)) part s).1 =
                  (assess part).verdict ∧
                table.Remembers memory
                  (Classified.verdictOf (table.explainWithin room (id :: path)) part s).2 := by
            intro part hpart s hs
            have hstep := ih (by simp only [List.length_cons]; omega)
              (htrail.step hid hc hpart) (hparts part hpart) hs.sound
            have hverdict := verdictOf_sound (hassess part (hparts part hpart))
              (hparts part hpart) ⟨hstep.1.unique (hassess part (hparts part hpart)), hstep.2⟩
              hs.sound
            exact ⟨hverdict.1, hs.trans hverdict.2.1⟩
          have hbase : ∀ base ∈ c.bases, ∀ s, table.Remembers memory s →
              (Classified.verdictOf (table.explainWithin room (id :: path)) base.type s).1 =
                  (assess base.type).verdict ∧
                table.Remembers memory
                  (Classified.verdictOf (table.explainWithin room (id :: path)) base.type s).2 :=
            fun base hmem => hlook base.type (Composite.mem_references_of_base hmem)
          have hfield : ∀ field ∈ c.fields, ∀ s, table.Remembers memory s →
              (Classified.fieldVerdict (table.explainWithin room (id :: path)) field.type s).1 =
                  field.type.verdict assess ∧
                table.Remembers memory
                  (Classified.fieldVerdict (table.explainWithin room (id :: path)) field.type
                    s).2 := by
            intro field hmem s hs
            cases htype : field.type with
            | composite part =>
              exact hlook part (Composite.mem_references_of_field hmem htype) s hs
            | _ => exact ⟨rfl, hs⟩
          obtain ⟨hbases, hnext⟩ := Classified.lookUp_eq hbase hnext
          obtain ⟨hfields, hlast⟩ := Classified.lookUp_eq hfield hnext
          refine ⟨?_, hlast⟩
          dsimp only
          rw [hbases, hfields]
          exact .defined assess hc hfound fun part hp => hassess part (hparts part hp)

/-- The verdict on a type on no endless chain does not depend on what was asked before, and is
remembered from then on. -/
theorem classify_sound (hacyclic : table.Acyclic id) (hmemory : table.TraitsSound memory) :
    table.VerdictOf id ((table.classify id).run memory).1 ∧
      table.Remembers memory ((table.classify id).run memory).2 ∧
      (((table.classify id).run memory).2.verdicts.get? id).isSome := by
  have hexplain : table.AssessmentOf id (table.explain id memory).1 ∧
      table.Remembers memory (table.explain id memory).2 :=
    explainWithin_sound (by simp) (.nil table id) hacyclic hmemory
  have hverdict := verdictOf_sound hexplain.1 hacyclic ⟨rfl, hexplain.2⟩ hmemory
  exact ⟨⟨_, hexplain.1, hverdict.1⟩, hverdict.2⟩

end TypeTable

end ObjectLayout
