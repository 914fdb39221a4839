import ObjectLayout.Proofs.RenamedPlacement

/-!
# Growing tables

A table only grows: types are added or declared behind those that are there, and a declared type is
described once. So an answer that was found from descriptions alone stays the answer, whatever the
table is told later. Only an answer that a description is missing can change.
-/
namespace ObjectLayout

/-- The type asked for, or one that it needs, is not there or not described. -/
def Rejection.isMissing : Rejection → Bool
  | .unknownType _ | .undefinedType _ _ => true
  | _ => false

/-- A call that tells a table of types. -/
inductive TableCall where
  | add (c : Composite)
  | declare (name : String)
  | define (id : TypeId) (c : Composite)
  deriving DecidableEq

/-- What a call can do to an entry: nothing, to make it, or to describe it. -/
inductive TypeEntry.Step : Option TypeEntry → Option TypeEntry → Prop
  | same (entry : Option TypeEntry) : Step entry entry
  | added (c : Composite) : Step none (some ⟨c.name, some c⟩)
  | declared (name : String) : Step none (some ⟨name, none⟩)
  | defined (name : String) (c : Composite) : Step (some ⟨name, none⟩) (some ⟨c.name, some c⟩)

/-- A description stays as it is. -/
lemma TypeEntry.Step.eq_of_described {name : String} {c : Composite} {entry : Option TypeEntry}
    (h : Step (some ⟨name, some c⟩) entry) : entry = some ⟨name, some c⟩ := by
  cases h
  rfl

namespace TypeTable

variable {table : TypeTable} {part : TypeId} {c : Composite} {name : String}

/-- The table that a description leaves behind, taken or refused. -/
def left : EStateM.Result DefinitionError TypeTable Unit → TypeTable
  | .ok () table | .error _ table => table

/-- The table after one call. -/
def perform (table : TypeTable) : TableCall → TypeTable
  | .add c => (table.add c).2
  | .declare name => (table.declare name).2
  | .define id c => left ((describe id c).run table)

/-- The table after a sequence of calls. -/
def after (table : TypeTable) (calls : List TableCall) : TypeTable := calls.foldl perform table

/-- A description is taken where a name stands without one, in two writes to one entry; otherwise
nothing is written. -/
lemma describe_cases (table : TypeTable) (part : TypeId) (c : Composite) :
    (∃ name, table.entry? part = some ⟨name, none⟩ ∧ (describe part c).run table =
        .ok () (table.modifyEntry part fun _ => ⟨c.name, some c⟩)) ∨
      ∃ error, (describe part c).run table = .error error table := by
  unfold describe
  simp only [EStateM.run, bind, EStateM.bind, get, getThe, MonadStateOf.get]
  rw [show (EStateM.get table : EStateM.Result DefinitionError _ _) = .ok table table from rfl]
  dsimp only
  cases hentry : table.entry? part with
  | none => exact Or.inr ⟨_, rfl⟩
  | some entry =>
    obtain ⟨name, _ | described⟩ := entry
    · refine Or.inl ⟨name, rfl, congrArg (EStateM.Result.ok ()) (congrArg TypeTable.mk ?_)⟩
      apply Array.ext_getElem?
      intro i
      simp only [modifyEntry, Array.getElem?_modify]
      split
      · rw [Option.map_map]
        rfl
      · rfl
    · exact Or.inr ⟨_, rfl⟩

/-- A description that is refused leaves the table as it was. -/
lemma eq_of_describe_eq_error {error : DefinitionError} {after : TypeTable}
    (h : (describe part c).run table = .error error after) : after = table := by
  rcases table.describe_cases part c with ⟨name, -, hrun⟩ | ⟨other, hrun⟩
  · cases hrun.symm.trans h
  · cases hrun.symm.trans h
    rfl

lemma perform_of_define_eq_error {error : DefinitionError}
    (h : table.define part c = .error error) : table.perform (.define part c) = table := by
  unfold define at h
  cases hrun : (describe part c).run table with
  | ok _ described =>
    rw [hrun] at h
    cases h
  | error refusal after =>
    rw [perform, hrun]
    exact eq_of_describe_eq_error hrun

/-- A new entry stands behind all others. -/
lemma step_push (table : TypeTable) (part : TypeId) {entry : TypeEntry}
    (h : TypeEntry.Step none (some entry)) :
    TypeEntry.Step (table.entry? part) <|
      entry? ⟨table.entries.push entry⟩ part := by
  unfold entry?
  rw [Array.getElem?_push]
  split
  · next hlast =>
    rw [Array.getElem?_eq_none (Nat.le_of_eq hlast.symm)]
    exact h
  · exact .same _

/-- One call does to each entry what a call can do. -/
theorem step_perform (table : TypeTable) (call : TableCall) (part : TypeId) :
    TypeEntry.Step (table.entry? part) <|
      entry? (table.perform call) part := by
  cases call with
  | add c => exact table.step_push part (.added c)
  | declare name => exact table.step_push part (.declared name)
  | define id c =>
    rcases table.describe_cases id c with ⟨name, hentry, hrun⟩ | ⟨error, hrun⟩
    · have hafter : TypeTable.entry? (table.perform (.define id c)) part =
          if id.index = part.index then (table.entry? part).map fun _ => ⟨c.name, some c⟩
          else table.entry? part := by
        rw [perform, hrun]
        exact Array.getElem?_modify
      rw [hafter]
      split
      · next hid =>
        obtain rfl := TypeId.ext_index hid
        rw [hentry]
        exact .defined name c
      · exact .same _
    · rw [perform, hrun]
      exact .same _

lemma entry?_perform (call : TableCall) (h : table.entry? part = some ⟨name, some c⟩) :
    entry? (table.perform call) part = some ⟨name, some c⟩ := by
  have hstep := table.step_perform call part
  rw [h] at hstep
  exact hstep.eq_of_described

/-- A description stays as it is through any sequence of calls. -/
theorem entry?_after (calls : List TableCall) (h : table.entry? part = some ⟨name, some c⟩) :
    entry? (table.after calls) part = some ⟨name, some c⟩ := by
  induction calls generalizing table with
  | nil => exact h
  | cons call calls ih => exact ih (entry?_perform call h)

lemma get?_after (calls : List TableCall) (h : table.get? part = some c) :
    (table.after calls).get? part = some c := by
  obtain ⟨name, hentry⟩ := entry?_of_get? h
  exact get?_of_described (entry?_after calls hentry)

/-- A table that has grown holds what was described, unrenamed. -/
lemma copied_after (table : TypeTable) (calls : List TableCall) (root : TypeId) :
    Copied id (fun rejection => rejection.isMissing = true) table (table.after calls) root where
  injective := Function.injective_id
  described part name c _ hentry := by
    rw [Composite.rename_id]
    exact ⟨name, entry?_after calls hentry⟩
  declared part name _ _ := Or.inr rfl
  unknown part _ _ := Or.inr rfl

/-- Whatever a table is told later, an answer that does not say that a description is missing stays
the answer, and so does an assessment worked out afresh, once every type that is reached is
described. A definition that is refused has written nothing to the table, and a description
stays. -/
theorem answers_survive_growth (table : TypeTable) (target : Target) (root : TypeId)
    (calls : List TableCall) :
    ((∀ rejection, table.layout target root = .error rejection → rejection.isMissing = false) →
        (table.after calls).layout target root = table.layout target root) ∧
      ((∀ part, table.Reaches root part → table.isDefined part = true) →
        (((table.after calls).explain root).run {}).1 = ((table.explain root).run {}).1) ∧
      (∀ part c error, table.define part c = .error error →
        table.perform (.define part c) = table) ∧
      (∀ part c error left, (describe part c).run table = .error error left → left = table) ∧
      ∀ part c, table.get? part = some c → (table.after calls).get? part = some c := by
  have hcopied := copied_after table calls root
  refine ⟨fun hanswer => ?_, fun hdefined => ?_, fun part c error => perform_of_define_eq_error,
    fun part c error left => eq_of_describe_eq_error, fun part c => get?_after calls⟩
  · rcases layout_copied hcopied with ⟨rejection, hlayout, hmissing⟩ | hlayout
    · rw [hanswer rejection hlayout] at hmissing
      cases hmissing
    · rw [id] at hlayout
      rw [hlayout]
      cases table.layout target root with
      | ok layout => exact congrArg Except.ok layout.rename_id
      | error rejection => exact congrArg Except.error rejection.rename_id
  · have hdepicted := hcopied.depicted fun part hreach =>
      Option.isSome_iff_exists.mp (hdefined part hreach)
    have hexplain := explain_depicted hdepicted (.refl table root)
    rwa [Assessment.rename_id] at hexplain

/-- Points, lines between points, a style that is declared only, and a curve with a style and a
member without size. -/
def drawing : TypeTable :=
  { entries := #[
      ⟨"Point", some
        { name := "Point"
          fields := [{ name := "x", type := .int }, { name := "y", type := .int }] }⟩,
      ⟨"Line", some
        { name := "Line", bases := [{ type := ⟨0⟩ }]
          fields := [{ name := "target", type := .composite ⟨0⟩ }] }⟩,
      ⟨"Style", none⟩,
      ⟨"Curve", some
        { name := "Curve"
          fields := [{ name := "points", type := .scalar 0 8 },
            { name := "style", type := .composite ⟨2⟩ }] }⟩] }

/-- Points cannot be described again; the style is described once, which shows in its own answer
and in no other. -/
theorem answers_survive_growth_drawing :
    let pen : Composite := { name := "Pen", fields := [{ name := "width", type := .short }] }
    let calls : List TableCall :=
      [.define ⟨0⟩ pen, .add pen, .define ⟨2⟩ pen, .declare "Fill", .define ⟨2⟩ { name := "Fill" }]
    drawing.layout .lp64 ⟨2⟩ = .error (.undefinedType ⟨2⟩ "Style") ∧
      ((drawing.after calls).layout .lp64 ⟨2⟩).map Layout.size = .ok 2 ∧
      drawing.layout .lp64 ⟨3⟩ = .error (.zeroSizedField "Curve" "points") ∧
      (drawing.after calls).layout .lp64 ⟨3⟩ = .error (.zeroSizedField "Curve" "points") ∧
      (drawing.after calls).layout .lp64 ⟨1⟩ = drawing.layout .lp64 ⟨1⟩ ∧
      (((drawing.after calls).explain ⟨1⟩).run {}).1 = ((drawing.explain ⟨1⟩).run {}).1 ∧
      drawing.perform (.define ⟨0⟩ pen) = drawing ∧
      (drawing.after calls).get? ⟨0⟩ = drawing.get? ⟨0⟩ := by
  intro pen calls
  have hcurve : drawing.layout .lp64 ⟨3⟩ = .error (.zeroSizedField "Curve" "points") := by
    decide +kernel
  have hline : (drawing.layout .lp64 ⟨1⟩).map Layout.size = .ok 16 := by decide +kernel
  obtain ⟨hrejected, -, hrefused, -, hkept⟩ := answers_survive_growth drawing .lp64 ⟨3⟩ calls
  obtain ⟨hlaidOut, hexplained, -, -, -⟩ := answers_survive_growth drawing .lp64 ⟨1⟩ calls
  refine ⟨by decide +kernel, by decide +kernel, hcurve, ?_, hlaidOut ?_, hexplained ?_,
    hrefused ⟨0⟩ pen (.alreadyDefined ⟨0⟩ "Point") (by decide), hkept ⟨0⟩ _ rfl⟩
  · rw [hrejected, hcurve]
    rw [hcurve]
    rintro rejection ⟨⟩
    rfl
  · intro rejection hrejection
    rw [hrejection] at hline
    cases hline
  · intro part hreach
    have hpart : part ∈ [⟨1⟩, ⟨0⟩] := hreach.mem_of_closed (by decide) (by decide)
    exact (by decide : ∀ part ∈ [⟨1⟩, ⟨0⟩], drawing.isDefined part = true) part hpart

end TypeTable

end ObjectLayout
