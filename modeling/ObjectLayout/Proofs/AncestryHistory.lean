import ObjectLayout.Proofs.VerdictAgreement

/-!
# Explanations after any questions

A walk over the bases of a type on a cycle is cut off where it comes back to a type that it is
inside of, and the reason is remembered for all types on the way. So what is remembered there
depends on the question that came first. It is true nevertheless: an ancestry that is remembered is
the one that recursion gives, and a reason names a type of the hierarchy that is not defined or is a
transitive base of itself. The violations about references in an explanation are such reasons.
-/
namespace ObjectLayout

namespace TypeTable

/-- The reason names a type of the hierarchy of `id` at which a walk has to stop: one that is not
defined, or one that is a transitive base of itself. -/
def Stops (table : TypeTable) (id : TypeId) : Violation → Prop
  | .unresolved type => (type = id ∨ table.Inherits id type) ∧ table.get? type = none
  | .cyclic type => (type = id ∨ table.Inherits id type) ∧ table.Inherits type type
  | _ => False

/-- An outcome of a walk that is true of the type: its ancestry, or a reason to stop. -/
def Walked (table : TypeTable) (id : TypeId) : Except Violation Ancestry → Prop
  | .ok ancestry => table.AncestryOf id (.ok ancestry)
  | .error reason => table.Stops id reason

/-- What the memo says is true, of types on cycles as well. -/
def AncestriesTrue (table : TypeTable) (memo : AncestryMemo) : Prop :=
  ∀ id found, memo.get? id = some found → table.Walked id found

/-- A trail along bases only. -/
structure BaseTrail (table : TypeTable) (path : List TypeId) (id : TypeId) : Prop extends
    Trail table path id where
  inherited : ∀ p ∈ path, table.Inherits p id

variable {table : TypeTable} {id : TypeId} {c : Composite} {path : List TypeId}
  {memo : AncestryMemo} {memory : TraitMemory} {found : Except Violation Ancestry}

/-- A reason that stops a walk above a base stops it above the type. -/
lemma Stops.of_base {base : Base} {reason : Violation} (h : table.Stops base.type reason)
    (hc : table.get? id = some c) (hmem : base ∈ c.bases) : table.Stops id reason := by
  have hbase : table.Inherits id base.type := .of_base hc hmem
  have hinherits : ∀ type, type = base.type ∨ table.Inherits base.type type →
      table.Inherits id type := by
    rintro type (rfl | htype)
    · exact hbase
    · exact hbase.trans htype
  cases reason with
  | unresolved type => exact ⟨Or.inr (hinherits type h.1), h.2⟩
  | cyclic type => exact ⟨Or.inr (hinherits type h.1), h.2⟩
  | _ => exact h

namespace AncestriesTrue

lemma empty (table : TypeTable) : table.AncestriesTrue {} := by
  intro id found hget
  cases hget

lemma insert (h : table.AncestriesTrue memo) (hfound : table.Walked id found) :
    table.AncestriesTrue (memo.insert id found) := by
  intro other found' hget
  rw [Memo.get?_insert] at hget
  split at hget
  · next heq =>
    cases hget
    exact heq ▸ hfound
  · exact h other found' hget

end AncestriesTrue

namespace BaseTrail

lemma nil (table : TypeTable) (id : TypeId) : table.BaseTrail [] id :=
  ⟨.nil table id, by simp⟩

lemma step (h : table.BaseTrail path id) (hid : id ∉ path) (hc : table.get? id = some c)
    {base : Base} (hmem : base ∈ c.bases) : table.BaseTrail (id :: path) base.type := by
  have hbase : table.Inherits id base.type := .of_base hc hmem
  refine ⟨h.toTrail.step hid hc (Composite.mem_references_of_base hmem), ?_⟩
  intro p hp
  rcases List.mem_cons.mp hp with rfl | hp
  · exact hbase
  · exact (h.inherited p hp).trans hbase

end BaseTrail

/-- What running over bases may give: the bases gathered from their ancestries, or a reason that
stops the walk above one of them. -/
def Gathers (table : TypeTable) (start : Ancestry) (bases : List Base) :
    Except Violation Ancestry → Prop
  | .ok ancestry => (∀ type ∈ bases.map Base.type, ∃ found, table.AncestryOf type found) ∧
      ∀ above : TypeId → Except Violation Ancestry,
        (∀ base ∈ bases, table.AncestryOf base.type (above base.type)) →
          Ancestry.gather above start bases = .ok ancestry
  | .error reason => ∃ base ∈ bases, table.Stops base.type reason

/-- Running over bases gathers them if each base is walked truly. -/
lemma gatherWithin_gathers {room : Nat} {bases : List Base}
    (hwalk : ∀ base ∈ bases, ∀ memo : AncestryMemo, table.AncestriesTrue memo →
      table.Walked base.type (table.ancestryWithin room path base.type memo).1 ∧
        table.AncestriesTrue (table.ancestryWithin room path base.type memo).2)
    (start : Ancestry) (hmemo : table.AncestriesTrue memo) :
    table.Gathers start bases (table.gatherWithin room path start bases memo).1 ∧
      table.AncestriesTrue (table.gatherWithin room path start bases memo).2 := by
  induction bases generalizing start memo with
  | nil => exact ⟨⟨by simp, fun _ _ => rfl⟩, hmemo⟩
  | cons base bases ih =>
    obtain ⟨hfound, hnext⟩ := hwalk base List.mem_cons_self memo hmemo
    rw [gatherWithin_cons]
    cases hresult : table.ancestryWithin room path base.type memo with
    | mk found next =>
      rw [hresult] at hfound hnext
      cases found with
      | error reason => exact ⟨⟨base, List.mem_cons_self, hfound⟩, hnext⟩
      | ok found =>
        obtain ⟨hgathers, hlast⟩ := ih (fun base hmem => hwalk base (List.mem_cons_of_mem _ hmem))
          (start.extend base found) hnext
        refine ⟨?_, hlast⟩
        dsimp only at hgathers ⊢
        cases hrest : (table.gatherWithin room path (start.extend base found) bases next).1 with
        | error reason =>
          rw [hrest] at hgathers
          obtain ⟨other, hmem, hstops⟩ := hgathers
          exact ⟨other, List.mem_cons_of_mem _ hmem, hstops⟩
        | ok ancestry =>
          rw [hrest] at hgathers
          obtain ⟨hbases, hgather⟩ := hgathers
          refine ⟨?_, fun above habove => ?_⟩
          · intro type hmem
            rcases List.mem_cons.mp hmem with rfl | hmem
            · exact ⟨_, hfound⟩
            · exact hbases type hmem
          · have hfirst : above base.type = .ok found :=
              (habove base List.mem_cons_self).unique hfound
            rw [Ancestry.gather_cons, hfirst]
            exact hgather above fun base hmem => habove base (List.mem_cons_of_mem _ hmem)

/-- A walk from any type tells the truth and remembers nothing but the truth. -/
theorem ancestryWithin_walked {room : Nat} (hroom : path.length + room = table.size + 1)
    (htrail : table.BaseTrail path id) (hmemo : table.AncestriesTrue memo) :
    table.Walked id (table.ancestryWithin room path id memo).1 ∧
      table.AncestriesTrue (table.ancestryWithin room path id memo).2 := by
  induction room generalizing path id memo with
  | zero =>
    have := htrail.toTrail.length_le
    omega
  | succ room ih =>
    rw [ancestryWithin_succ]
    cases hget : memo.get? id with
    | some known => exact ⟨hmemo id known hget, hmemo⟩
    | none =>
      cases hc : table.get? id with
      | none => exact ⟨⟨Or.inl rfl, hc⟩, hmemo⟩
      | some c =>
        by_cases hid : id ∈ path
        · simp only [hid, if_true]
          exact ⟨⟨Or.inl rfl, htrail.inherited id hid⟩, hmemo⟩
        have hlength : (id :: path).length + room = table.size + 1 := by
          simp only [List.length_cons]
          omega
        obtain ⟨hgathers, hlast⟩ := gatherWithin_gathers
          (fun base hmem memo hmemo => ih hlength (htrail.step hid hc hmem) hmemo)
          (Ancestry.root id c) hmemo
        simp only [hid, if_false]
        have hwalked : table.Walked id
            (table.gatherWithin room (id :: path) (Ancestry.root id c) c.bases memo).1 := by
          cases hfound : (table.gatherWithin room (id :: path) (Ancestry.root id c) c.bases memo).1
            with
          | error reason =>
            rw [hfound] at hgathers
            obtain ⟨base, hmem, hstops⟩ := hgathers
            exact hstops.of_base hc hmem
          | ok ancestry =>
            rw [hfound] at hgathers
            obtain ⟨hbases, hgather⟩ := hgathers
            choose! above habove using hbases
            have hparts : ∀ base ∈ c.bases, table.AncestryOf base.type (above base.type) :=
              fun base hmem => habove base.type (List.mem_map_of_mem hmem)
            show table.AncestryOf id (.ok ancestry)
            rw [← hgather above hparts]
            exact .defined above hc hparts
        exact ⟨hwalked, hlast.insert hwalked⟩

lemma ancestry_walked (id : TypeId) (h : table.AncestriesTrue memory.ancestries) :
    table.Walked id (Classified.ancestry table id memory).1 ∧
      table.AncestriesTrue (Classified.ancestry table id memory).2.ancestries := by
  have hwalk : table.Walked id ((table.ancestry id).run memory.ancestries).1 ∧
      table.AncestriesTrue ((table.ancestry id).run memory.ancestries).2 :=
    ancestryWithin_walked (by simp) (.nil table id) h
  exact hwalk

lemma verdictOf_true {assess : TypeId → Classified Assessment}
    (hassess : table.AncestriesTrue (assess id memory).2.ancestries)
    (h : table.AncestriesTrue memory.ancestries) :
    table.AncestriesTrue (Classified.verdictOf assess id memory).2.ancestries := by
  rw [Classified.verdictOf_apply]
  cases memory.verdicts.get? id with
  | some known => exact h
  | none => exact hassess

lemma fieldVerdict_true {assess : TypeId → Classified Assessment}
    (hassess : ∀ part, table.AncestriesTrue (assess part memory).2.ancestries) (type : FieldType)
    (h : table.AncestriesTrue memory.ancestries) :
    table.AncestriesTrue (Classified.fieldVerdict assess type memory).2.ancestries := by
  cases type with
  | scalar size align => exact h
  | pointer => exact h
  | composite part => exact verdictOf_true (hassess part) h

/-- An assessment walks hierarchies from their own types only, so it remembers nothing but the
truth, whichever types are being assessed. -/
lemma explainWithin_true (room : Nat) (path : List TypeId) (id : TypeId)
    (h : table.AncestriesTrue memory.ancestries) :
    table.AncestriesTrue (table.explainWithin room path id memory).2.ancestries := by
  induction room generalizing path id memory with
  | zero => exact h
  | succ room ih =>
    rw [explainWithin_succ]
    cases hc : table.get? id with
    | none => exact h
    | some c =>
      by_cases hid : id ∈ path
      · simpa only [hid, if_true] using h
      simp only [hid, if_false]
      have hnext := (ancestry_walked id h).2
      cases hresult : Classified.ancestry table id memory with
      | mk found next =>
        rw [hresult] at hnext
        cases found with
        | error reason => exact hnext
        | ok ancestry =>
          have hbase : ∀ base ∈ c.bases, ∀ s : TraitMemory, table.AncestriesTrue s.ancestries →
              True ∧ table.AncestriesTrue (Classified.verdictOf
                (table.explainWithin room (id :: path)) base.type s).2.ancestries :=
            fun base _ s hs => ⟨trivial, verdictOf_true (ih (id :: path) base.type hs) hs⟩
          have hfield : ∀ field ∈ c.fields, ∀ s : TraitMemory,
              table.AncestriesTrue s.ancestries →
              True ∧ table.AncestriesTrue (Classified.fieldVerdict
                (table.explainWithin room (id :: path)) field.type s).2.ancestries :=
            fun field _ s hs =>
              ⟨trivial, fieldVerdict_true (fun part => ih (id :: path) part hs) field.type hs⟩
          have hbases := Classified.lookUp_meets (P := fun _ _ => True) hbase hnext
          exact (Classified.lookUp_meets (P := fun _ _ => True) hfield hbases.2).2

/-- Whatever is asked, only true ancestries and true reasons are remembered. -/
theorem traitsAfter_true (table : TypeTable) (questions : List TraitQuestion) :
    table.AncestriesTrue (table.traitsAfter questions).ancestries := by
  have hfold : ∀ memory : TraitMemory, table.AncestriesTrue memory.ancestries →
      table.AncestriesTrue (questions.foldl table.askTraits memory).ancestries := by
    induction questions with
    | nil => exact fun _ h => h
    | cons question questions ih =>
      intro memory h
      apply ih
      cases question with
      | verdict id => exact verdictOf_true (explainWithin_true _ [] id h) h
      | explanation id => exact explainWithin_true _ [] id h
  exact hfold {} (.empty table)

/-- How an explanation comes about: by the ancestry of the type, or by the reason to have none. -/
lemma explain_cases (table : TypeTable) (id : TypeId) (memory : TraitMemory) :
    (table.get? id = none ∧
        ((table.explain id).run memory).1 = .both (.unresolved id)) ∨
      (∃ reason, (Classified.ancestry table id memory).1 = .error reason ∧
        ((table.explain id).run memory).1 = .both reason) ∨
      ∃ c ancestry bases fields, table.get? id = some c ∧
        (Classified.ancestry table id memory).1 = .ok ancestry ∧
        ((table.explain id).run memory).1 = c.assessment ancestry bases fields := by
  have hrun : (table.explain id).run memory =
      table.explainWithin (table.size + 1) [] id memory := rfl
  rw [hrun, explainWithin_succ]
  cases hc : table.get? id with
  | none => exact Or.inl ⟨rfl, rfl⟩
  | some c =>
    simp only [List.not_mem_nil, if_false]
    cases hresult : Classified.ancestry table id memory with
    | mk found next =>
      cases found with
      | error reason => exact Or.inr (Or.inl ⟨reason, rfl, rfl⟩)
      | ok ancestry => exact Or.inr (Or.inr ⟨c, ancestry, _, _, rfl, rfl, rfl⟩)

/-- A violation about references in an explanation is a true reason. -/
lemma stops_of_mem_explain (h : table.AncestriesTrue memory.ancestries) {violation : Violation}
    (hblames : violation.BlamesReference)
    (hmem : violation ∈ ((table.explain id).run memory).1.trivial ∨
      violation ∈ ((table.explain id).run memory).1.standardLayout) :
    table.Stops id violation := by
  rcases explain_cases table id memory with
    ⟨hc, hfound⟩ | ⟨reason, hwalk, hfound⟩ | ⟨c, ancestry, bases, fields, -, -, hfound⟩
  · rw [hfound] at hmem
    obtain rfl : violation = .unresolved id := by simpa [Assessment.both] using hmem
    exact ⟨Or.inl rfl, hc⟩
  · rw [hfound] at hmem
    obtain rfl : violation = reason := by simpa [Assessment.both] using hmem
    have hwalked := (ancestry_walked id h).1
    rw [hwalk] at hwalked
    exact hwalked
  · -- The rules of the type itself never speak of broken references.
    rw [hfound] at hmem
    rcases hmem with hmem | hmem
    · exact absurd hblames (Composite.not_blamesReference_of_mem_trivial hmem)
    · exact absurd hblames (Composite.not_blamesReference_of_mem_standardLayout hmem)

/-- Whatever was asked before, an explanation tells the truth about the hierarchy: a type that it
calls cyclic is the type itself or a transitive base of it, and is a transitive base of itself; a
type that it calls unresolved is the type itself or a transitive base of it, and is not defined. If
no type that is reached reaches itself, the explanation is the one given without any question
before. -/
theorem explanation_true_in_any_order (table : TypeTable) (questions : List TraitQuestion)
    (id : TypeId) :
    let found := ((table.explain id).run (table.traitsAfter questions)).1
    (∀ type, .cyclic type ∈ found.trivial ∨ .cyclic type ∈ found.standardLayout →
        (type = id ∨ table.Inherits id type) ∧ table.Inherits type type) ∧
      (∀ type, .unresolved type ∈ found.trivial ∨ .unresolved type ∈ found.standardLayout →
        (type = id ∨ table.Inherits id type) ∧ table.get? type = none) ∧
      ((∀ part, table.Reaches id part → ¬ table.Below part part) →
        found = ((table.explain id).run {}).1) := by
  intro found
  have htrue := traitsAfter_true table questions
  refine ⟨?_, ?_, ?_⟩
  · intro type hmem
    have hblames : (Violation.cyclic type).BlamesReference := trivial
    exact stops_of_mem_explain htrue hblames hmem
  · intro type hmem
    have hblames : (Violation.unresolved type).BlamesReference := trivial
    exact stops_of_mem_explain htrue hblames hmem
  · intro hloop
    have hacyclic := acyclic_of_not_below hloop
    exact (explain_sound hacyclic (traitsAfter_settled table questions)).unique
      (explain_sound hacyclic (.empty table))

/-- Two types are bases of each other; a third one is above them, and a fourth one stores the third
one and has a base that is only declared. -/
def mutualBases : TypeTable :=
  { entries := #[
      ⟨"Front", some { name := "Front", bases := [{ type := ⟨1⟩ }] }⟩,
      ⟨"Back", some { name := "Back", bases := [{ type := ⟨0⟩, sharing := .shared }] }⟩,
      ⟨"Coin", some { name := "Coin", bases := [{ type := ⟨0⟩ }, { type := ⟨4⟩ }] }⟩,
      ⟨"Purse", some
        { name := "Purse", bases := [{ type := ⟨4⟩ }]
          fields := [{ name := "coin", type := .composite ⟨2⟩ }] }⟩,
      ⟨"Missing", none⟩,
      ⟨"Mark", some
        { name := "Mark", introducesDispatch := true
          fields := [{ name := "text", type := .pointer }] }⟩] }

/-- A coin is called cyclic for its back once the back has been asked about, and for its front
without that question; both are transitive bases of the coin and of themselves. -/
theorem explanation_true_in_any_order_mutualBases :
    let memory := mutualBases.traitsAfter [.explanation ⟨1⟩, .verdict ⟨3⟩]
    ((mutualBases.explain ⟨2⟩).run memory).1 = .both (.cyclic ⟨1⟩) ∧
      ((mutualBases.explain ⟨2⟩).run {}).1 = .both (.cyclic ⟨0⟩) ∧
      mutualBases.Inherits ⟨2⟩ ⟨1⟩ ∧ mutualBases.Inherits ⟨1⟩ ⟨1⟩ ∧
      ((mutualBases.explain ⟨3⟩).run memory).1 = .both (.unresolved ⟨4⟩) ∧
      mutualBases.Inherits ⟨3⟩ ⟨4⟩ ∧ mutualBases.get? ⟨4⟩ = none ∧
      ((mutualBases.explain ⟨5⟩).run memory).1 = ((mutualBases.explain ⟨5⟩).run {}).1 := by
  intro memory
  have hcoin : ((mutualBases.explain ⟨2⟩).run memory).1 = .both (.cyclic ⟨1⟩) := by
    decide +kernel
  have hpurse : ((mutualBases.explain ⟨3⟩).run memory).1 = .both (.unresolved ⟨4⟩) := by
    decide +kernel
  obtain ⟨hcyclic, -, -⟩ := explanation_true_in_any_order mutualBases
    [.explanation ⟨1⟩, .verdict ⟨3⟩] ⟨2⟩
  obtain ⟨-, hunresolved, -⟩ := explanation_true_in_any_order mutualBases
    [.explanation ⟨1⟩, .verdict ⟨3⟩] ⟨3⟩
  obtain ⟨-, -, hsame⟩ := explanation_true_in_any_order mutualBases
    [.explanation ⟨1⟩, .verdict ⟨3⟩] ⟨5⟩
  obtain ⟨hback, hloop⟩ := hcyclic ⟨1⟩ (Or.inl (by rw [hcoin]; exact List.mem_cons_self))
  obtain ⟨hmissing, hnone⟩ := hunresolved ⟨4⟩ (Or.inl (by rw [hpurse]; exact List.mem_cons_self))
  refine ⟨hcoin, by decide +kernel, hback.resolve_left (by decide), hloop, hpurse,
    hmissing.resolve_left (by decide), hnone, hsame fun part hreach hbelow => ?_⟩
  -- The mark refers to nothing.
  have hpart : part ∈ [⟨5⟩] := hreach.mem_of_closed (by decide) (by decide)
  obtain rfl := List.mem_singleton.mp hpart
  obtain ⟨next, hrefers, -⟩ := below_iff.mp hbelow
  have hnone : next ∈ ([] : List TypeId) := hrefers
  cases hnone

end TypeTable

end ObjectLayout
