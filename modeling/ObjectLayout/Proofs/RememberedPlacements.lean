import ObjectLayout.Proofs.Composition
import ObjectLayout.Proofs.PlacementOnDemand
import ObjectLayout.Proofs.VerdictAgreement

/-!
# Remembered placements

A planner remembers the placement of every type that it has placed, to embed it in later ones. What
such a placement says of the core, of the complete object and of the shared bases fits together, and
later placements rest on that. Placements are only added: a question keeps all that is remembered,
and it is answered from what is remembered of its type.
-/
namespace ObjectLayout

namespace TypeTable

variable {table : TypeTable} {target : Target} {id : TypeId} {align : Nat} {placed : Placed}

/-- The core, the complete object and the shared bases of a placement fit together. -/
structure Coherent (table : TypeTable) (target : Target) (id : TypeId) (placed : Placed) :
    Prop where
  align : placed.layout.align.isPowerOfTwo
  core_align : placed.core.align.isPowerOfTwo
  core_align_dvd : placed.core.align ∣ placed.layout.align
  core_size_eq_zero_iff : placed.core.size = 0 ↔ placed.core.dataSize = 0
  core_size : placed.core.dataSize ≠ 0 →
    IsLeast {n | placed.core.align ∣ n ∧ placed.core.dataSize ≤ n} placed.core.size
  core_dataSize_le : placed.core.dataSize ≤ placed.layout.dataSize
  dataSize_le : placed.layout.dataSize ≤ placed.layout.size
  core_size_le : placed.core.size ≤ placed.layout.size
  size : IsLeast {n | 0 < n ∧ placed.layout.align ∣ n ∧ placed.layout.dataSize ≤ n}
    placed.layout.size
  slot : ∀ slot ∈ placed.core.dispatch, slot + target.pointerSize ≤ placed.core.dataSize
  nodup : placed.shared.Nodup
  shared_eq_nil_iff : placed.shared = [] ↔ table.Unshared id
  /-- Without shared bases the core is the whole. -/
  whole : placed.shared = [] →
    placed.core.align = placed.layout.align ∧ placed.core.dataSize = placed.layout.dataSize

theorem PlacedAs.coherent (h : table.PlacedAs target id (.ok placed))
    (haccepted : table.Accepted target id align) (hpointer : target.pointerSize.isPowerOfTwo) :
    table.Coherent target id placed := by
  have hregular := h.regular haccepted
  have hcore := hregular.core
  have halign := hregular.align hpointer
  have hcoreAlign := hcore.align hpointer
  have hle := hcore.dataSize_le_size
  obtain ⟨c, part, -, -, ⟨steps⟩⟩ := h.construction
  constructor
  case align => exact halign
  case core_align => exact hcoreAlign
  case core_align_dvd => exact dvd_of_isPowerOfTwo hcoreAlign halign hregular.align_le
  case core_size_eq_zero_iff =>
    refine ⟨fun hsize => by omega, fun hempty => ?_⟩
    rw [hcore.size, if_pos hempty]
  case core_size =>
    intro hfilled
    rw [hcore.size, if_neg hfilled]
    exact isLeast_roundUp hcoreAlign _
  case core_dataSize_le => exact hregular.dataSize_le
  case dataSize_le => exact hregular.dataSize_le_size
  case core_size_le => exact hregular.core_size_le hpointer
  case size =>
    rw [hregular.size]
    exact isLeast_roundUp_max_one halign _
  case slot => exact hcore.slot
  case nodup => exact h.nodup_shared haccepted
  case shared_eq_nil_iff => exact h.shared_eq_nil_iff haccepted
  case whole =>
    intro hnone
    obtain ⟨hdata, halign, -⟩ := steps.core_of_unshared hnone
    exact ⟨halign, hdata⟩

end TypeTable

namespace Placements

variable {table : TypeTable} {target : Target} {id : TypeId} {placements : Placements}
  {answer : Except Rejection Placed}

/-- Placing one more type keeps what is remembered of the others. -/
lemma get?_add {other : TypeId} (hne : other ≠ id) :
    (placements.add table target other).placed.get? id = placements.placed.get? id := by
  unfold add
  cases table.get? other with
  | none => rfl
  | some c =>
    dsimp only
    rw [Memo.get?_insert, if_neg hne]

/-- Catching up keeps all that is remembered. -/
lemma get?_catchUp (h : placements.placed.get? id = some answer) (entries : List (TypeId × Nat)) :
    (placements.catchUp table target entries).placed.get? id = some answer := by
  induction entries with
  | nil => exact h
  | cons entry older ih =>
    rw [catchUp]
    split
    · exact h
    · next hmissing =>
      rw [get?_add, ih]
      rintro rfl
      simp [h] at hmissing

end Placements

namespace Planner

variable {table : TypeTable} {target : Target} {planner : Planner} {id : TypeId}
  {answer : Except Rejection Placed}

/-- What a planner remembers of a type. -/
def recalled (planner : Planner) (id : TypeId) : Option (Except Rejection Placed) :=
  planner.placements.placed.get? id

/-- What is remembered are placements of accepted types. -/
lemma Sound.recalled (h : planner.Sound table target)
    (hrecalled : planner.recalled id = some answer) :
    table.PlacedAs target id answer ∧ ∃ align, table.Accepted target id align := by
  obtain ⟨-, -, horder, new, entries, hentries, hplacements⟩ := h
  refine ⟨hplacements.placed id answer hrecalled, ?_⟩
  obtain ⟨⟨_, align⟩, hmem, rfl⟩ := List.mem_map.mp ((hplacements.keys id).mp ⟨answer, hrecalled⟩)
  rw [hentries] at horder
  exact ⟨align, horder.accepted_of_mem (List.mem_append_right new hmem)⟩

/-- A question keeps what is remembered. -/
lemma recalled_layout (other : TypeId) (h : planner.recalled id = some answer) :
    ((Planner.layout other).run planner).2.recalled id = some answer := by
  have hrun : (Planner.layout other).run planner = Planner.layout other planner := rfl
  rw [hrun, Planner.layout]
  cases (planner.table.accept planner.target other).run planner.accepted with
  | error rejection accepted => exact h
  | ok align accepted => exact Placements.get?_catchUp h accepted.entries

/-- A layout is that of the placement remembered from then on. -/
lemma recalled_of_layout {layout : Layout} (h : ((Planner.layout id).run planner).1 = .ok layout) :
    ∃ placed, ((Planner.layout id).run planner).2.recalled id = some (.ok placed) ∧
      placed.layout = layout := by
  have hrun : (Planner.layout id).run planner = Planner.layout id planner := rfl
  rw [hrun, Planner.layout] at h ⊢
  cases haccept : (planner.table.accept planner.target id).run planner.accepted with
  | error rejection accepted =>
    rw [haccept] at h
    cases h
  | ok align accepted =>
    rw [haccept] at h
    obtain ⟨placed, hpart, rfl⟩ := map_eq_ok.mp h
    refine ⟨placed, ?_, rfl⟩
    unfold Placements.part at hpart
    split at hpart
    · next hget => exact hpart ▸ hget
    · cases hpart

/-- A run of questions keeps what is remembered and remembers what it has answered. -/
lemma Sound.recalled_run (h : planner.Sound table target) (ids : List TypeId) :
    (∀ id answer, planner.recalled id = some answer →
      ((ids.mapM Planner.layout).run planner).2.recalled id = some answer) ∧
    ∀ id ∈ ids, ∀ layout, table.layout target id = .ok layout →
      ∃ placed, ((ids.mapM Planner.layout).run planner).2.recalled id = some (.ok placed) ∧
        placed.layout = layout := by
  induction ids generalizing planner with
  | nil => exact ⟨fun _ _ hrecalled => hrecalled, by simp⟩
  | cons first ids ih =>
    obtain ⟨hkeeps, hanswers⟩ := ih (h.layout first).1
    rw [List.mapM_cons]
    refine ⟨fun id answer hrecalled => hkeeps id answer (recalled_layout first hrecalled), ?_⟩
    intro id hmem layout hlayout
    rcases List.mem_cons.mp hmem with rfl | hmem
    · have hanswer := (h.layout_eq (.new table target) id).trans hlayout
      obtain ⟨placed, hrecalled, heq⟩ := recalled_of_layout hanswer
      exact ⟨placed, hkeeps id _ hrecalled, heq⟩
    · exact hanswers id hmem layout hlayout

end Planner

namespace TypeTable

/-- A bench owns a packed saw and a drill, which share the tool behind them, and is forced to an
alignment that none of its parts asks for. -/
def workshop : TypeTable :=
  { entries := #[
      ⟨"Tool", some
        { name := "Tool", introducesDispatch := true
          fields := [{ name := "weight", type := .int }] }⟩,
      ⟨"Saw", some
        { name := "Saw", bases := [{ type := ⟨0⟩, sharing := .shared }], packing := some 2
          fields := [{ name := "teeth", type := .int }, { name := "bent", type := .bool }] }⟩,
      ⟨"Drill", some
        { name := "Drill", bases := [{ type := ⟨0⟩, sharing := .shared }]
          introducesDispatch := true, fields := [{ name := "speed", type := .short }] }⟩,
      ⟨"Bench", some
        { name := "Bench", bases := [{ type := ⟨1⟩ }, { type := ⟨2⟩ }], forcedAlign := some 32
          fields := [{ name := "height", type := .char }] }⟩] }

end TypeTable

end ObjectLayout
