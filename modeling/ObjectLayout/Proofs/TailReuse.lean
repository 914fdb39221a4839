import ObjectLayout.Proofs.ComparedPlacement

/-!
# Reusing tail padding

The two policies about tail padding are set side by side for one table. Neither acceptance nor
classification looks at the policy. Where tail padding is kept an owned base takes its rounded size;
where it is reused, a base that is not plain old data takes less. So everything that has a layout in
which tail padding is kept has one in which it is reused, with nothing later and nothing larger, and
the layouts differ only where some owned base is not plain old data.
-/
namespace ObjectLayout

namespace Target

/-- The target on which owned bases keep their tail padding. -/
def keeping (target : Target) : Target := { target with tailPadding := .keep }

/-- The target on which the tail padding of owned bases is reused. -/
def reusing (target : Target) : Target := { target with tailPadding := .reuse }

end Target

namespace Composite

variable {target : Target} {isPod : TypeId → Bool} {part : TypeId → Except Rejection Placed}
  {c : Composite}

lemma fieldDemands_reusing (owner : String) (seen : List String) (fields : List Field) :
    fieldDemands target.reusing owner seen fields =
      fieldDemands target.keeping owner seen fields := by
  induction fields generalizing seen with
  | nil => rfl
  | cons field fields ih =>
    rw [fieldDemands, fieldDemands, ih]
    rfl

lemma demands_reusing : c.demands target.reusing = c.demands target.keeping := by
  rw [demands, demands, fieldDemands_reusing]
  rfl

lemma placeAll_reusing {extent : FieldType → Except Rejection (Nat × Nat)} (frontier : Frontier)
    (groups : List FieldGroup) :
    FieldGroup.placeAll (c.site target.reusing) extent frontier groups =
      FieldGroup.placeAll (c.site target.keeping) extent frontier groups := by
  induction groups generalizing frontier with
  | nil => rfl
  | cons group groups ih =>
    have hgroup : group.place (c.site target.reusing) extent frontier =
        group.place (c.site target.keeping) extent frontier := by
      cases group <;> rfl
    rw [FieldGroup.placeAll, FieldGroup.placeAll, hgroup]
    apply bind_congr_ok
    rintro ⟨next, placed⟩ -
    dsimp only
    rw [ih]

/-- A type whose owned bases are plain old data is placed alike under both policies. -/
theorem place_reusing (hpod : ∀ base ∈ c.ownedBases, isPod base.type = true) :
    c.place target.reusing isPod part = c.place target.keeping isPod part := by
  have hown : c.placeOwn target.reusing isPod part = c.placeOwn target.keeping isPod part := by
    refine bind_congr_ok fun owned hcores => bind_congr_ok fun opened _ => ?_
    have hembed : ∀ base ∈ owned, ∀ draft : Draft,
        draft.embed (c.site target.reusing) base.1 .owned base.2
            (ownedBytes target.reusing isPod base) =
          draft.embed (c.site target.keeping) base.1 .owned base.2
            (ownedBytes target.keeping isPod base) := by
      intro core hmem draft
      obtain ⟨base, hbase, p, -, rfl⟩ := exists_of_mem_right (lends_of_mapM hcores) hmem
      have hbytes : ownedBytes target.reusing isPod (base.type, p.core) = p.core.size := by
        simp [ownedBytes, Target.reusing, hpod base hbase]
      rw [hbytes]
      rfl
    have hbased := foldlM_congr hembed opened
    rw [hbased]
    refine bind_congr_ok fun based _ => ?_
    exact congrArg (· >>= _) (placeAll_reusing based.frontier _)
  rw [place, place, hown]
  rfl

/-- The two policies grant the same alignments. -/
lemma compares_reusing (hwell : c.WellFormed target.keeping)
    (hpointer : target.pointerSize.isPowerOfTwo) :
    Compares SamePower target.reusing target.keeping c c where
  bases := rfl
  fields := rfl
  introducesDispatch := rfl
  forcedAlign := rfl
  site := by
    refine ⟨fun hle hholds => Target.holds_of_le hholds hle, ?_⟩
    rintro _ align ⟨rfl, hpower⟩
    exact .refl (Site.granted_isPowerOfTwo hwell.packing hpower)
  pointerSize := .refl _
  pointerAlign := .refl hpointer
  forced forced hforced := .refl (hwell.forced forced hforced)
  groups group hmem := (FieldGroup.ofFields_valid hwell.fields group hmem).steady fun _ => .refl

/-- A base that gives up its tail padding takes no more than its rounded size. -/
lemma ownedBytes_reusing {id : TypeId} {core' core : Core} (h : Core.Within SamePower core' core) :
    AtMost (ownedBytes target.reusing isPod (id, core'))
      (ownedBytes target.keeping isPod (id, core)) := by
  show AtMost (if isPod id = true then core'.size else core'.dataSize) core.size
  split
  · exact h.size
  · exact h.dataSize.trans h.room

end Composite

namespace TypeTable

variable {table : TypeTable} {target : Target} {id : TypeId}
  {answer answer' : Except Rejection Placed}

lemma acceptWithin_reusing (room : Nat) :
    table.acceptWithin target.reusing room = table.acceptWithin target.keeping room := by
  induction room with
  | zero => rfl
  | succ room ih =>
    funext path id
    simp only [acceptWithin, Composite.demands_reusing, ih]

/-- Acceptance does not look at the policy. -/
lemma accept_reusing : table.accept target.reusing id = table.accept target.keeping id := by
  rw [accept, accept, acceptWithin_reusing]

/-- Both layouts are those of placements, or the type is rejected before anything is placed. -/
lemma layouts_by_policy (table : TypeTable) (target : Target) (id : TypeId) :
    (∃ rejection, table.layout target.keeping id = .error rejection ∧
        table.layout target.reusing id = .error rejection) ∨
      ∃ align answer answer', table.Accepted target.keeping id align ∧
        table.PlacedAs target.keeping id answer ∧ table.PlacedAs target.reusing id answer' ∧
        table.layout target.keeping id = answer.map Placed.layout ∧
        table.layout target.reusing id = answer'.map Placed.layout := by
  have hkeeping := table.layout_answers target.keeping id
  have hreusing := table.layout_answers target.reusing id
  rw [accept_reusing] at hreusing
  cases hresult : TypeTable.answer ((table.accept target.keeping id).run {}) with
  | error rejection =>
    rw [hresult] at hkeeping hreusing
    exact Or.inl ⟨rejection, hkeeping, hreusing⟩
  | ok align =>
    rw [hresult] at hkeeping hreusing
    obtain ⟨haccepted, answer, hplaced, hlayout⟩ := hkeeping
    obtain ⟨-, answer', hplaced', hlayout'⟩ := hreusing
    exact Or.inr ⟨align, answer, answer', haccepted, hplaced, hplaced', hlayout, hlayout'⟩

/-- Where tail padding is reused nothing lies later and nothing is larger. -/
theorem PlacedAs.reusing_within {align : Nat} (h : table.PlacedAs target.keeping id answer)
    (h' : table.PlacedAs target.reusing id answer')
    (haccepted : table.Accepted target.keeping id align)
    (hpointer : target.pointerSize.isPowerOfTwo) :
    Carries (Placed.Within SamePower) answer' answer := by
  induction h generalizing answer' align with
  | @intro id c part defined parts ih =>
    cases h' with
    | @intro _ c' part' defined' parts' =>
      obtain rfl : c = c' := Option.some.inj (defined.symm.trans defined')
      have hcarries : ∀ other, table.Below id other →
          Carries (Placed.Within SamePower) (part' other) (part other) := by
        intro other hbelow
        obtain ⟨inner, hinner⟩ := haccepted.reaches hbelow.reaches
        exact ih other hbelow (parts' other hbelow) hinner
      have hbelow : ∀ other ∈ c.references, table.Below id other :=
        fun other hmem => ((refers_iff defined).mpr hmem).below
      refine Composite.place_within SamePower.alignRelation
        (Composite.compares_reusing (haccepted.wellFormed defined) hpointer)
        (fun other hmem => hcarries other (hbelow other hmem)) ?_
        fun base _ core' core hcore => Composite.ownedBytes_reusing hcore
      intro other hmem p hp shared hshared
      have hplaced := hp ▸ parts other (hbelow other hmem)
      exact hcarries shared ((hbelow other hmem).trans (hplaced.below_of_mem_shared hshared))

/-- Where all owned bases are plain old data the policies give the same placement. -/
theorem PlacedAs.reusing_of_pods (h : table.PlacedAs target.keeping id answer)
    (hpods : ∀ part c, table.Reaches id part → table.get? part = some c →
      ∀ base ∈ c.ownedBases, table.isPod base.type = true) :
    table.PlacedAs target.reusing id answer := by
  induction h with
  | @intro id c part defined parts ih =>
    rw [← Composite.place_reusing (hpods id c (.refl table id) defined)]
    refine .intro part defined fun other hbelow => ih other hbelow fun next c' hreach => ?_
    exact hpods next c' (hbelow.reaches.trans hreach)

/-- A node with a slot and a mark, a leaf that owns the node, and a pair that owns a plain
record. -/
def treeNodes : TypeTable :=
  { entries := #[
      ⟨"Node", some
        { name := "Node", introducesDispatch := true
          fields := [{ name := "mark", type := .char }] }⟩,
      ⟨"Leaf", some
        { name := "Leaf", bases := [{ type := ⟨0⟩ }]
          fields := [{ name := "value", type := .int }] }⟩,
      ⟨"Plain", some
        { name := "Plain"
          fields := [{ name := "count", type := .int }, { name := "kind", type := .char }] }⟩,
      ⟨"Pair", some
        { name := "Pair", bases := [{ type := ⟨2⟩ }] }⟩] }

/-- A head with a byte of tail padding, and a pointer behind it. -/
def headedLink : TypeTable :=
  { entries := #[
      ⟨"Head", some
        { name := "Head", userProvided := { destroy := true }
          fields := [{ name := "number", type := .short }, { name := "mark", type := .char }] }⟩,
      ⟨"Whole", some
        { name := "Whole", bases := [{ type := ⟨0⟩ }]
          fields := [{ name := "next", type := .pointer }] }⟩] }

end TypeTable

end ObjectLayout
