import Mathlib.Data.Finset.Basic
import ObjectLayout.Proofs.AcceptanceWalk
import ObjectLayout.Proofs.TraitHistory

/-!
# Marks of walks

The walks of this library are told the types that they are inside of. Here they keep them in their
state instead: a type is marked when a walk enters it, the mark is taken back when the walk leaves
it, and a type met under its mark contains itself. The walks are also told how deep their calls may
nest, and they give nothing when they would go deeper.
-/
namespace ObjectLayout

/-- What walks remember, and the types that the present one is inside of. -/
structure Walk (μ : Type) where
  memo : μ
  marks : Finset TypeId := ∅

/-- A computation that gives nothing when its calls nest too deep. -/
abbrev Bounded (σ : Type) := StateT σ Option

namespace Walk

variable {μ : Type} {path : List TypeId} {id : TypeId} {memo : μ}

def mark (id : TypeId) (walk : Walk μ) : Walk μ := { walk with marks := insert id walk.marks }

def unmark (id : TypeId) (walk : Walk μ) : Walk μ := { walk with marks := walk.marks.erase id }

/-- The walk that is inside of the types on the path. -/
def inside (path : List TypeId) (memo : μ) : Walk μ := { memo, marks := path.toFinset }

lemma mem_marks_inside : id ∈ (inside path memo).marks ↔ id ∈ path := List.mem_toFinset

lemma mark_inside : (inside path memo).mark id = inside (id :: path) memo := by
  rw [mark, inside, inside, List.toFinset_cons]

lemma unmark_inside (hid : id ∉ path) :
    (inside (id :: path) memo).unmark id = inside path memo := by
  rw [unmark, inside, inside, List.toFinset_cons,
    Finset.erase_insert (fun hmem => hid (List.mem_toFinset.mp hmem))]

end Walk

/-- From every memory the bounded computation gives what the plain one gives, in the state that
belongs to the memory left behind. -/
def Mirrors {σ μ α : Type} (state : μ → σ) (bounded : Bounded σ α) (plain : StateM μ α) : Prop :=
  ∀ memory, bounded (state memory) = some ((plain memory).1, state (plain memory).2)

namespace Mirrors

variable {σ μ α β : Type} {state : μ → σ} {bounded : Bounded σ α} {plain : StateM μ α}

lemma pure (value : α) : Mirrors state (Pure.pure value) (Pure.pure value) := fun _ => rfl

lemma bind {next : α → Bounded σ β} {next' : α → StateM μ β} (h : Mirrors state bounded plain)
    (hnext : ∀ value, Mirrors state (next value) (next' value)) :
    Mirrors state (bounded >>= next) (plain >>= next') := by
  intro memory
  have hrest := hnext (plain memory).1 (plain memory).2
  show (bounded (state memory) >>= fun result => next result.1 result.2) = _
  rw [h memory]
  exact hrest

/-- A run over a list mirrors if every step does. -/
lemma mapM {step : α → Bounded σ β} {step' : α → StateM μ β} {l : List α}
    (h : ∀ x ∈ l, Mirrors state (step x) (step' x)) :
    Mirrors state (l.mapM step) (l.mapM step') := by
  induction l with
  | nil => exact pure []
  | cons x l ih =>
    rw [List.mapM_cons, List.mapM_cons]
    exact (h x List.mem_cons_self).bind fun value =>
      (ih fun y hy => h y (List.mem_cons_of_mem _ hy)).bind fun values => pure (value :: values)

end Mirrors

namespace TypeTable

/-! ### Hierarchies -/

/-- Run over bases, each walked in turn, up to the first that is stopped. -/
def gatherBy (walk : TypeId → Bounded (Walk AncestryMemo) (Except Violation Ancestry))
    (start : Ancestry) (bases : List Base) :
    Bounded (Walk AncestryMemo) (Except Violation Ancestry) :=
  (bases.foldlM (fun ancestry base => do
    let above ← ExceptT.mk (walk base.type)
    return ancestry.extend base above) start :
      ExceptT Violation (Bounded (Walk AncestryMemo)) Ancestry).run

/-- The ancestry of a type, with marks in the state. -/
def hierarchy (table : TypeTable) :
    Nat → TypeId → Bounded (Walk AncestryMemo) (Except Violation Ancestry)
  | 0, _ => failure
  | depth + 1, id => do
    let walk ← get
    match walk.memo.get? id with
    | some known => return known
    | none =>
      match table.get? id with
      | none => return .error (.unresolved id)
      | some c =>
        if id ∈ walk.marks then return .error (.cyclic id)
        else
          modify (Walk.mark id)
          let found ← gatherBy (hierarchy table depth) (Ancestry.root id c) c.bases
          modify (Walk.unmark id)
          modify fun walk => { walk with memo := walk.memo.insert id found }
          return found

variable {table : TypeTable} {path : List TypeId} {id : TypeId} {c : Composite}

/-- Gathering takes in one base after the other, unless the walk over one is stopped. -/
lemma gatherBy_cons (walk : TypeId → Bounded (Walk AncestryMemo) (Except Violation Ancestry))
    (start : Ancestry) (base : Base) (bases : List Base) (now : Walk AncestryMemo) :
    gatherBy walk start (base :: bases) now = (walk base.type now).bind fun result =>
      match result.1 with
      | .error reason => some (.error reason, result.2)
      | .ok above => gatherBy walk (start.extend base above) bases result.2 := by
  rw [gatherBy, List.foldlM_cons]
  simp only [bind, ExceptT.bind, ExceptT.run, ExceptT.mk, StateT.bind]
  cases walk base.type now with
  | none => rfl
  | some result =>
    obtain ⟨found, next⟩ := result
    cases found <;> rfl

/-- One step of the walk, case by case. -/
lemma hierarchy_succ (table : TypeTable) (depth : Nat) (id : TypeId) (walk : Walk AncestryMemo) :
    table.hierarchy (depth + 1) id walk =
      match walk.memo.get? id with
      | some known => some (known, walk)
      | none =>
        match table.get? id with
        | none => some (.error (.unresolved id), walk)
        | some c =>
          if id ∈ walk.marks then some (.error (.cyclic id), walk)
          else
            (gatherBy (table.hierarchy depth) (Ancestry.root id c) c.bases (walk.mark id)).bind
              fun result =>
                let next := result.2.unmark id
                some (result.1, { next with memo := next.memo.insert id result.1 }) := by
  rw [hierarchy]
  simp only [bind, StateT.bind, get, getThe, MonadStateOf.get, StateT.get, pure, Option.bind_some]
  cases walk.memo.get? id with
  | some known => rfl
  | none =>
    cases table.get? id with
    | none => rfl
    | some c => by_cases hid : id ∈ walk.marks <;> simp only [hid, if_true, if_false] <;> rfl

lemma gatherBy_mirrors {room : Nat} {bases : List Base}
    {walk : TypeId → Bounded (Walk AncestryMemo) (Except Violation Ancestry)}
    (h : ∀ base ∈ bases, Mirrors (Walk.inside path) (walk base.type)
      (table.ancestryWithin room path base.type)) (start : Ancestry) :
    Mirrors (Walk.inside path) (gatherBy walk start bases)
      (table.gatherWithin room path start bases) := by
  induction bases generalizing start with
  | nil => exact .pure (Except.ok start)
  | cons base bases ih =>
    intro memo
    rw [gatherBy_cons, gatherWithin_cons, h base List.mem_cons_self memo, Option.bind_some]
    cases table.ancestryWithin room path base.type memo with
    | mk found next =>
      cases found with
      | error reason => rfl
      | ok above => exact ih (fun base hmem => h base (List.mem_cons_of_mem _ hmem)) _ next

/-- With the marks of its path the walk gives the same answer, and it leaves the same marks. Room
and path together are as long as the table and one more, so the room is never used up. -/
theorem hierarchy_mirrors {room : Nat} (hroom : path.length + room = table.size + 1)
    (htrail : table.Trail path id) :
    Mirrors (Walk.inside path) (table.hierarchy room id) (table.ancestryWithin room path id) := by
  induction room generalizing path id with
  | zero =>
    have := htrail.length_le
    omega
  | succ room ih =>
    intro memo
    rw [hierarchy_succ, ancestryWithin_succ]
    simp only [Walk.mem_marks_inside, Walk.mark_inside]
    rw [show (Walk.inside path memo).memo = memo from rfl]
    cases memo.get? id with
    | some known => rfl
    | none =>
      cases hc : table.get? id with
      | none => rfl
      | some c =>
        by_cases hid : id ∈ path
        · simp only [hid, if_true]
        simp only [hid, if_false]
        have hgather : Mirrors (Walk.inside (id :: path))
            (gatherBy (table.hierarchy room) (Ancestry.root id c) c.bases)
            (table.gatherWithin room (id :: path) (Ancestry.root id c) c.bases) :=
          gatherBy_mirrors (fun base hmem => ih (by simp only [List.length_cons]; omega)
            (htrail.step hid hc (Composite.mem_references_of_base hmem))) _
        rw [hgather memo, Option.bind_some]
        simp only [Walk.unmark_inside hid]
        rfl

end TypeTable

/-! ### Verdicts -/

/-- What assessments remember, with the walk over hierarchies that they begin. -/
structure TraitWalk where
  verdicts : Memo Verdict := {}
  hierarchies : Walk AncestryMemo := { memo := {} }

/-- The memory of verdicts and ancestries, with nothing marked in the walk over hierarchies. -/
def TraitMemory.walk (memory : TraitMemory) : TraitWalk :=
  { verdicts := memory.verdicts, hierarchies := { memo := memory.ancestries } }

namespace Assessing

/-- The assessment that is inside of the types on the path. -/
def inside (path : List TypeId) (memory : TraitMemory) : Walk TraitWalk :=
  .inside path memory.walk

/-- The verdict on a type: the remembered one, or else that of an assessment. -/
def verdictOf (assess : TypeId → Bounded (Walk TraitWalk) Assessment) (id : TypeId) :
    Bounded (Walk TraitWalk) Verdict := do
  match (← get).memo.verdicts.get? id with
  | some known => return known
  | none =>
    let verdict := (← assess id).verdict
    modify fun walk => { walk with memo.verdicts := walk.memo.verdicts.insert id verdict }
    return verdict

def fieldVerdict (assess : TypeId → Bounded (Walk TraitWalk) Assessment) :
    FieldType → Bounded (Walk TraitWalk) Verdict
  | .scalar _ _ | .pointer => return .pod
  | .composite id => verdictOf assess id

/-- Walk over a hierarchy from its own type, as deep as the limit. -/
def ancestry (table : TypeTable) (limit : Nat) (id : TypeId) :
    Bounded (Walk TraitWalk) (Except Violation Ancestry) :=
  fun walk => do
    let (found, hierarchies) ← table.hierarchy limit id walk.memo.hierarchies
    return (found, { walk with memo.hierarchies := hierarchies })

/-- Walk over the hierarchy of a type, then look up its bases and the types of its fields. -/
def assessment (table : TypeTable) (limit : Nat)
    (assess : TypeId → Bounded (Walk TraitWalk) Assessment) (id : TypeId) (c : Composite) :
    Bounded (Walk TraitWalk) Assessment := do
  match ← ancestry table limit id with
  | .error reason => return .both reason
  | .ok ancestry =>
    let bases ← c.bases.mapM fun base => do return (base, ← verdictOf assess base.type)
    let fields ← c.fields.mapM fun field => do return (field, ← fieldVerdict assess field.type)
    return c.assessment ancestry bases fields

/-- The broken rules of a type, with marks in the state. -/
def explain (table : TypeTable) (limit : Nat) : Nat → TypeId → Bounded (Walk TraitWalk) Assessment
  | 0, _ => failure
  | depth + 1, id => do
    match table.get? id with
    | none => return .both (.unresolved id)
    | some c =>
      if id ∈ (← get).marks then return .both (.cyclic id)
      else
        modify (Walk.mark id)
        let found ← assessment table limit (explain table limit depth) id c
        modify (Walk.unmark id)
        return found

/-- The verdict on a type, through the memory. -/
def classify (table : TypeTable) (limit depth : Nat) (id : TypeId) :
    Bounded (Walk TraitWalk) Verdict :=
  verdictOf (explain table limit depth) id

variable {table : TypeTable} {path : List TypeId} {id : TypeId}
  {assess : TypeId → Bounded (Walk TraitWalk) Assessment} {assess' : TypeId → Classified Assessment}

lemma verdictOf_mirrors (h : Mirrors (inside path) (assess id) (assess' id)) :
    Mirrors (inside path) (verdictOf assess id) (Classified.verdictOf assess' id) := by
  intro memory
  rw [Classified.verdictOf_apply, verdictOf]
  simp only [bind, StateT.bind, get, getThe, MonadStateOf.get, StateT.get, pure, Option.bind_some]
  rw [show (inside path memory).memo.verdicts = memory.verdicts from rfl]
  cases memory.verdicts.get? id with
  | some known => rfl
  | none =>
    simp only [StateT.bind, h memory]
    rfl

lemma fieldVerdict_mirrors {type : FieldType}
    (h : ∀ part, type = .composite part → Mirrors (inside path) (assess part) (assess' part)) :
    Mirrors (inside path) (fieldVerdict assess type) (Classified.fieldVerdict assess' type) := by
  cases type with
  | scalar size align => exact .pure Verdict.pod
  | pointer => exact .pure Verdict.pod
  | composite part => exact verdictOf_mirrors (h part rfl)

lemma ancestry_mirrors (table : TypeTable) (path : List TypeId) (id : TypeId) :
    Mirrors (inside path) (ancestry table (table.size + 1) id) (Classified.ancestry table id) := by
  intro memory
  have hwalk : Mirrors (Walk.inside []) (table.hierarchy (table.size + 1) id)
      (table.ancestryWithin (table.size + 1) [] id) :=
    TypeTable.hierarchy_mirrors (by simp) (.nil table id)
  rw [ancestry]
  rw [show (inside path memory).memo.hierarchies = Walk.inside [] memory.ancestries from rfl,
    hwalk memory.ancestries]
  rfl

lemma assessment_mirrors {c : Composite} {room : Nat} (id : TypeId)
    (h : ∀ part ∈ c.references, Mirrors (inside path) (assess part)
      (table.explainWithin room path part)) :
    Mirrors (inside path) (assessment table (table.size + 1) assess id c) (do
      match ← Classified.ancestry table id with
      | .error reason => return .both reason
      | .ok ancestry =>
        let assess := table.explainWithin room path
        let bases ← c.bases.mapM fun base => do
          return (base, ← Classified.verdictOf assess base.type)
        let fields ← c.fields.mapM fun field => do
          return (field, ← Classified.fieldVerdict assess field.type)
        return c.assessment ancestry bases fields) := by
  refine (ancestry_mirrors table path id).bind fun found => ?_
  cases found with
  | error reason => exact .pure (Assessment.both reason)
  | ok ancestry =>
    have hbases : ∀ base ∈ c.bases, Mirrors (inside path) (verdictOf assess base.type)
        (Classified.verdictOf (table.explainWithin room path) base.type) := fun base hmem =>
      verdictOf_mirrors (h base.type (Composite.mem_references_of_base hmem))
    have hfields : ∀ field ∈ c.fields, Mirrors (inside path) (fieldVerdict assess field.type)
        (Classified.fieldVerdict (table.explainWithin room path) field.type) := fun field hmem =>
      fieldVerdict_mirrors fun part htype =>
        h part (Composite.mem_references_of_field hmem htype)
    refine Mirrors.bind (.mapM fun base hmem => (hbases base hmem).bind fun _ => .pure _)
      fun bases => ?_
    refine Mirrors.bind (.mapM fun field hmem => (hfields field hmem).bind fun _ => .pure _)
      fun fields => ?_
    exact .pure _

/-- One step of the walk, case by case. -/
lemma explain_succ (table : TypeTable) (limit depth : Nat) (id : TypeId) (walk : Walk TraitWalk) :
    explain table limit (depth + 1) id walk =
      match table.get? id with
      | none => some (.both (.unresolved id), walk)
      | some c =>
        if id ∈ walk.marks then some (.both (.cyclic id), walk)
        else
          (assessment table limit (explain table limit depth) id c (walk.mark id)).bind
            fun result => some (result.1, result.2.unmark id) := by
  rw [explain]
  cases table.get? id with
  | none => rfl
  | some c =>
    simp only [bind, StateT.bind, get, getThe, MonadStateOf.get, StateT.get, pure,
      Option.bind_some]
    by_cases hid : id ∈ walk.marks <;> simp only [hid, if_true, if_false] <;> rfl

theorem explain_mirrors {room : Nat} (hroom : path.length + room = table.size + 1)
    (htrail : table.Trail path id) :
    Mirrors (inside path) (explain table (table.size + 1) room id)
      (table.explainWithin room path id) := by
  induction room generalizing path id with
  | zero =>
    have := htrail.length_le
    omega
  | succ room ih =>
    intro memory
    rw [explain_succ, TypeTable.explainWithin]
    cases hc : table.get? id with
    | none => rfl
    | some c =>
      have hmem : id ∈ (inside path memory).marks ↔ id ∈ path := Walk.mem_marks_inside
      simp only [hmem]
      by_cases hid : id ∈ path
      · simp only [hid, if_true]
        rfl
      simp only [hid, if_false]
      have hbody := assessment_mirrors id fun part hpart =>
        ih (by simp only [List.length_cons]; omega) (htrail.step hid hc hpart)
      rw [show (inside path memory).mark id = inside (id :: path) memory from Walk.mark_inside,
        hbody memory, Option.bind_some]
      exact congrArg (fun walk => some (_, walk)) (Walk.unmark_inside hid)

theorem classify_mirrors (table : TypeTable) (id : TypeId) :
    Mirrors (inside []) (classify table (table.size + 1) (table.size + 1) id)
      (table.classify id) :=
  verdictOf_mirrors (explain_mirrors (by simp) (.nil table id))

/-- What one more question leaves behind. -/
def ask (table : TypeTable) (limit : Nat) (walk : Walk TraitWalk) :
    TraitQuestion → Option (Walk TraitWalk)
  | .verdict id => (classify table limit limit id walk).map Prod.snd
  | .explanation id => (explain table limit limit id walk).map Prod.snd

lemma ask_eq (table : TypeTable) (memory : TraitMemory) (question : TraitQuestion) :
    ask table (table.size + 1) { memo := memory.walk } question =
      some { memo := (table.askTraits memory question).walk } := by
  cases question with
  | verdict id => exact congrArg (Option.map Prod.snd) (classify_mirrors table id memory)
  | explanation id =>
    exact congrArg (Option.map Prod.snd)
      (explain_mirrors (by simp) (.nil table id) memory)

end Assessing

/-! ### Acceptance -/

/-- An acceptance that ends with a rejection, or with none of them when it would go too deep. -/
abbrev Accepting := EStateM (Option Rejection) (Walk (Memo Nat))

namespace Accepting

/-- Raise the alignment required so far to meet one demand. -/
def raise (visit : TypeId → Accepting Nat) (required : Nat) : Demand → Accepting Nat
  | .align bytes => pure (max required bytes)
  | .nested id => return max required (← visit id)
  | .defect rejection => throw (some rejection)

/-- Accept a type, with marks in the state. A rejection leaves them there. -/
def visit (table : TypeTable) (target : Target) : Nat → TypeId → Accepting Nat
  | 0, _ => throw none
  | depth + 1, id => do
    let walk ← get
    match walk.memo.get? id with
    | some align => return align
    | none =>
      match table.entry? id with
      | none => throw (some (.unknownType id))
      | some ⟨name, none⟩ => throw (some (.undefinedType id name))
      | some ⟨_, some c⟩ =>
        if id ∈ walk.marks then throw (some (.cyclicHierarchy c.name))
        else
          modify (Walk.mark id)
          let required ← (c.demands target).foldlM (raise (visit table target depth)) 1
          match c.settleAlign required with
          | .error rejection => throw (some rejection)
          | .ok align =>
            modify (Walk.unmark id)
            modify fun walk => { walk with memo := walk.memo.insert id align }
            return align

/-- Accept a type and everything it reaches, and take all marks back in the end. -/
def validate (table : TypeTable) (target : Target) (depth : Nat) (id : TypeId) :
    Accepting Unit := do
  let outcome ← observing (visit table target depth id)
  modify fun walk => { walk with marks := ∅ }
  match outcome with
  | .ok _ => return
  | .error rejection => throw rejection

/-- Both visits give the same, and an accepted type leaves the marks of the path. -/
inductive Follows (path : List TypeId) : EStateM.Result Rejection (Memo Nat) Nat →
    EStateM.Result (Option Rejection) (Walk (Memo Nat)) Nat → Prop
  | ok (align : Nat) (memo : Memo Nat) :
      Follows path (.ok align memo) (.ok align (Walk.inside path memo))
  | error (rejection : Rejection) (memo : Memo Nat) (marks : Finset TypeId) :
      Follows path (.error rejection memo) (.error (some rejection) { memo, marks })

variable {table : TypeTable} {target : Target} {path : List TypeId} {id : TypeId}
  {memo : Memo Nat}

/-- What is required by demands, if nested types are visited alike. -/
lemma foldlM_raise_follows {accept : TypeId → Acceptance Nat} {visit : TypeId → Accepting Nat}
    {demands : List Demand}
    (h : ∀ part, .nested part ∈ demands → ∀ memo,
      Follows path (accept part memo) (visit part (Walk.inside path memo)))
    (required : Nat) (memo : Memo Nat) :
    Follows path (demands.foldlM (Demand.raise accept) required memo)
      (demands.foldlM (raise visit) required (Walk.inside path memo)) := by
  induction demands generalizing required memo with
  | nil => exact .ok required memo
  | cons d demands ih =>
    have ih := ih fun part hpart => h part (List.mem_cons_of_mem _ hpart)
    rw [TypeTable.foldlM_raise_cons, List.foldlM_cons]
    cases d with
    | align bytes => exact ih (max required bytes) memo
    | defect rejection => exact .error rejection memo _
    | nested part =>
      have hpart := h part List.mem_cons_self memo
      simp only [raise, bind, EStateM.bind]
      generalize accept part memo = plain at hpart ⊢
      generalize visit part (Walk.inside path memo) = marked at hpart ⊢
      cases hpart with
      | ok align next => exact ih (max required align) next
      | error rejection next marks => exact .error rejection next marks

/-- One step of the visit, case by case. -/
lemma visit_succ (table : TypeTable) (target : Target) (depth : Nat) (id : TypeId)
    (walk : Walk (Memo Nat)) :
    visit table target (depth + 1) id walk =
      match walk.memo.get? id with
      | some align => .ok align walk
      | none =>
        match table.entry? id with
        | none => .error (some (.unknownType id)) walk
        | some ⟨name, none⟩ => .error (some (.undefinedType id name)) walk
        | some ⟨_, some c⟩ =>
          if id ∈ walk.marks then .error (some (.cyclicHierarchy c.name)) walk
          else
            match (c.demands target).foldlM (raise (visit table target depth)) 1
                (walk.mark id) with
            | .error rejection next => .error rejection next
            | .ok required next =>
              match c.settleAlign required with
              | .error rejection => .error (some rejection) next
              | .ok align =>
                let next := next.unmark id
                .ok align { next with memo := next.memo.insert id align } := by
  rw [visit]
  simp only [bind, EStateM.bind, get, getThe, MonadStateOf.get]
  rw [show (EStateM.get walk : EStateM.Result (Option Rejection) _ _) = .ok walk walk from rfl]
  dsimp only
  cases walk.memo.get? id with
  | some align => rfl
  | none =>
    cases table.entry? id with
    | none => rfl
    | some entry =>
      obtain ⟨name, _ | c⟩ := entry
      · rfl
      by_cases hid : id ∈ walk.marks
      · simp only [hid, if_true]
        rfl
      simp only [hid, if_false]
      rw [show (modify (Walk.mark id) : Accepting PUnit) =
        fun walk => .ok ⟨⟩ (walk.mark id) from rfl]
      dsimp only [EStateM.bind]
      cases (c.demands target).foldlM (raise (visit table target depth)) 1 (walk.mark id) with
      | error rejection next => rfl
      | ok required next =>
        dsimp only
        cases c.settleAlign required <;> rfl

/-- With the marks of its path a visit accepts and rejects alike, and one that accepts leaves the
same marks. -/
theorem visit_follows {room : Nat} (hroom : path.length + room = table.size + 1)
    (htrail : table.Trail path id) (memo : Memo Nat) :
    Follows path (table.acceptWithin target room path id memo)
      (visit table target room id (Walk.inside path memo)) := by
  induction room generalizing path id memo with
  | zero =>
    have := htrail.length_le
    omega
  | succ room ih =>
    rw [TypeTable.acceptWithin_succ, visit_succ]
    simp only [Walk.mem_marks_inside, Walk.mark_inside]
    rw [show (Walk.inside path memo).memo = memo from rfl]
    cases memo.get? id with
    | some align => exact .ok align memo
    | none =>
      cases hentry : table.entry? id with
      | none => exact .error _ memo _
      | some entry =>
        obtain ⟨name, _ | c⟩ := entry
        · exact .error _ memo _
        by_cases hid : id ∈ path
        · simp only [hid, if_true]
          exact .error _ memo _
        simp only [hid, if_false]
        have hdemands : Follows (id :: path)
            ((c.demands target).foldlM
              (Demand.raise (table.acceptWithin target room (id :: path))) 1 memo)
            ((c.demands target).foldlM (raise (visit table target room)) 1
              (Walk.inside (id :: path) memo)) :=
          foldlM_raise_follows (fun part hpart => ih (by simp only [List.length_cons]; omega)
            (htrail.step hid (TypeTable.get?_of_described hentry)
              (Composite.references_of_nested_mem_demands hpart))) 1 memo
        generalize (c.demands target).foldlM
          (Demand.raise (table.acceptWithin target room (id :: path))) 1 memo = plain at hdemands ⊢
        generalize (c.demands target).foldlM (raise (visit table target room)) 1
          (Walk.inside (id :: path) memo) = marked at hdemands ⊢
        cases hdemands with
        | error rejection next marks => exact .error rejection next marks
        | ok required next =>
          dsimp only
          cases c.settleAlign required with
          | error rejection => exact .error rejection next _
          | ok align =>
            simp only [Walk.unmark_inside hid]
            exact .ok align (next.insert id align)

/-- What a validation should end with, given an acceptance: nothing is marked. -/
def settled : EStateM.Result Rejection (Memo Nat) Nat →
    EStateM.Result (Option Rejection) (Walk (Memo Nat)) Unit
  | .ok _ memo => .ok () { memo }
  | .error rejection memo => .error (some rejection) { memo }

theorem validate_eq (table : TypeTable) (target : Target) (id : TypeId) (memo : Memo Nat) :
    validate table target (table.size + 1) id { memo } =
      settled ((table.accept target id).run memo) := by
  have hvisit : Follows [] ((table.accept target id).run memo)
      (visit table target (table.size + 1) id { memo }) :=
    visit_follows (by simp) (.nil table id) memo
  simp only [validate, observing, tryCatch, tryCatchThe, MonadExceptOf.tryCatch, EStateM.tryCatch,
    bind, EStateM.bind]
  generalize (table.accept target id).run memo = plain at hvisit ⊢
  generalize visit table target (table.size + 1) id { memo } = marked at hvisit ⊢
  cases hvisit with
  | ok align next => rfl
  | error rejection next marks => rfl

/-- What a validation leaves behind, unless it would have gone too deep. -/
def leaves : EStateM.Result (Option Rejection) (Walk (Memo Nat)) Unit → Option (Walk (Memo Nat))
  | .ok _ walk => some walk
  | .error (some _) walk => some walk
  | .error none _ => none

lemma leaves_validate (table : TypeTable) (target : Target) (memo : Memo Nat) (id : TypeId) :
    leaves (validate table target (table.size + 1) id { memo }) =
      some { memo := TypeTable.memoAfter ((table.accept target id).run memo) } := by
  rw [validate_eq]
  cases (table.accept target id).run memo <;> rfl

end Accepting

/-- A run of steps that are never too deep is never too deep. -/
lemma foldlM_eq_some {σ μ α : Type} (state : μ → σ) {step : σ → α → Option σ} {plain : μ → α → μ}
    (h : ∀ memory x, step (state memory) x = some (state (plain memory x))) (l : List α)
    (memory : μ) : l.foldlM step (state memory) = some (state (l.foldl plain memory)) := by
  induction l generalizing memory with
  | nil => rfl
  | cons x l ih =>
    rw [List.foldlM_cons, h]
    exact ih (plain memory x)

/-- From a state without marks, no walk nests more calls than the table has entries and one more,
whichever cycles, undefined types and foreign handles it meets. A validation, a walk over a
hierarchy, an explanation and a classification answer as the walks that are told their path, and
they end without marks again, rejections and violations included. So does any sequence of them. -/
theorem walks_leave_no_marks (table : TypeTable) (target : Target) :
    (∀ id memo, Accepting.validate table target (table.size + 1) id { memo } =
      Accepting.settled ((table.accept target id).run memo)) ∧
    (∀ id memo, table.hierarchy (table.size + 1) id { memo } =
      some (((table.ancestry id).run memo).1, { memo := ((table.ancestry id).run memo).2 })) ∧
    (∀ id (memory : TraitMemory),
      Assessing.explain table (table.size + 1) (table.size + 1) id { memo := memory.walk } =
        some (((table.explain id).run memory).1,
          { memo := ((table.explain id).run memory).2.walk })) ∧
    (∀ id (memory : TraitMemory),
      Assessing.classify table (table.size + 1) (table.size + 1) id { memo := memory.walk } =
        some (((table.classify id).run memory).1,
          { memo := ((table.classify id).run memory).2.walk })) ∧
    (∀ questions : List TypeId,
      questions.foldlM (fun walk id =>
          Accepting.leaves (Accepting.validate table target (table.size + 1) id walk))
        { memo := {} } = some { memo := table.acceptedAfter target questions }) ∧
    ∀ questions : List TraitQuestion,
      questions.foldlM (Assessing.ask table (table.size + 1)) { memo := {} } =
        some { memo := (table.traitsAfter questions).walk } := by
  refine ⟨Accepting.validate_eq table target, fun id memo => ?_, fun id memory => ?_,
    Assessing.classify_mirrors table, fun questions => ?_, fun questions => ?_⟩
  · exact TypeTable.hierarchy_mirrors (by simp) (.nil table id) memo
  · exact Assessing.explain_mirrors (by simp) (.nil table id) memory
  · exact foldlM_eq_some (fun memo : Memo Nat => (⟨memo, ∅⟩ : Walk (Memo Nat)))
      (Accepting.leaves_validate table target) questions {}
  · exact foldlM_eq_some (fun memory : TraitMemory => (⟨memory.walk, ∅⟩ : Walk TraitWalk))
      (Assessing.ask_eq table) questions {}

/-- A rejection unwinds past the marks of the types that it came through. -/
example :
    Accepting.visit TypeTable.entangled .lp64 5 ⟨3⟩ { memo := {} } =
      .error (some (.cyclicHierarchy "Whole"))
        { memo := { entries := [(⟨2⟩, 8)] }, marks := {⟨1⟩, ⟨0⟩, ⟨3⟩} } := by
  rfl

end ObjectLayout
