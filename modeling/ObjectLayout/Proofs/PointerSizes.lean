import ObjectLayout.Proofs.AddressBounds
import ObjectLayout.Proofs.PackingClamps

/-!
# Pointer sizes

Two targets are set side by side that differ in the size of pointers only. Smaller pointers change
dispatch slots and members, and with them the sizes and alignments of all types above, but every
alignment stays a power of two and none of them grows. So acceptance requires no more, every move of
the placement goes no further, and what has a layout for the larger pointers has one for the smaller
ones, with nothing later and nothing larger.
-/
namespace ObjectLayout

/-- The target with pointers of another size. -/
def Target.withPointers (target : Target) (bytes : Nat) : Target :=
  { target with pointerSize := bytes }

/-- Above the clamp zero, one power of two is another one lowered if it is not above it. -/
lemma Lowered.of_le {align' align : Nat} (hpower' : align'.isPowerOfTwo)
    (hpower : align.isPowerOfTwo) (hle : align' ≤ align) : Lowered 0 align' align :=
  ⟨hpower', hpower, hle, by simp⟩

/-- The rules for a field do not look at the size of pointers. -/
lemma Field.WellFormed.withPointers {target : Target} {field : Field} {large : Nat}
    (h : field.WellFormed (target.withPointers large)) (small : Nat) :
    field.WellFormed (target.withPointers small) :=
  ⟨h.size_pos, h.natural, h.bits, h.forced⟩

namespace Composite

variable {target : Target} {c : Composite} {small large : Nat}

lemma WellFormed.withPointers (h : c.WellFormed (target.withPointers large)) (small : Nat) :
    c.WellFormed (target.withPointers small) :=
  ⟨h.exclusive, h.forced, h.packing, h.names,
    fun field hmem => (h.fields field hmem).withPointers small⟩

/-- Smaller pointers ask for no more, if the types below do not. -/
lemma requiredAlign_withPointers {align' align : TypeId → Nat} (hle : small ≤ large)
    (hparts : ∀ part ∈ c.references, align' part ≤ align part) :
    c.requiredAlign (target.withPointers small) align' ≤
      c.requiredAlign (target.withPointers large) align := by
  obtain ⟨hone, hslot, hbases, hfields⟩ :=
    requiredAlign_le_iff.mp (le_refl (c.requiredAlign (target.withPointers large) align))
  refine requiredAlign_le_iff.mpr ⟨hone, fun hdispatch => hle.trans (hslot hdispatch),
    fun base hmem => (hparts _ (mem_references_of_base hmem)).trans (hbases base hmem),
    fun field hmem => le_trans ?_ (hfields field hmem)⟩
  unfold Field.requiredAlign
  apply max_le_max_left
  cases htype : field.type with
  | scalar size natural => exact le_refl _
  | pointer => exact hle
  | composite id => exact hparts id (mem_references_of_field (List.mem_of_mem_filter hmem) htype)

lemma finalAlign_mono {required' required : Nat} (h : required' ≤ required) :
    c.finalAlign required' ≤ c.finalAlign required := by
  unfold finalAlign
  split
  · exact le_refl _
  · exact min_le_min_right _ h
  · exact h

/-- With smaller pointers no alignment that is asked for or granted is larger. -/
lemma compares_withPointers (hwell : c.WellFormed (target.withPointers large))
    (hsmall : small.isPowerOfTwo) (hlarge : large.isPowerOfTwo) (hle : small ≤ large) :
    Compares (Lowered 0) (target.withPointers small) (target.withPointers large) c c where
  bases := rfl
  fields := rfl
  introducesDispatch := rfl
  forcedAlign := rfl
  site := by
    refine ⟨fun hle hholds => Target.holds_of_le hholds hle, fun {a' a} ha => ?_⟩
    have hpower' : ((c.site (target.withPointers small)).granted a').isPowerOfTwo :=
      Site.granted_isPowerOfTwo hwell.packing ha.power'
    have hpower : ((c.site (target.withPointers large)).granted a).isPowerOfTwo :=
      Site.granted_isPowerOfTwo hwell.packing ha.power
    refine .of_le hpower' hpower ?_
    have hle := ha.le
    unfold Site.granted site
    cases c.packing with
    | none => exact hle
    | some clamp => exact min_le_min_right clamp hle
  pointerSize := by
    have := Nat.pos_of_isPowerOfTwo hsmall
    have := Nat.pos_of_isPowerOfTwo hlarge
    exact ⟨hle, by simp only [Target.withPointers]; omega⟩
  pointerAlign := .of_le hsmall hlarge hle
  forced forced hforced := .refl (hwell.forced forced hforced)
  groups group hmem := (FieldGroup.ofFields_valid hwell.fields group hmem).steady fun _ => .refl

end Composite

namespace TypeTable

variable {table : TypeTable} {target : Target} {id : TypeId} {small large align : Nat}
  {answer answer' : Except Rejection Placed}

/-- What is accepted for larger pointers is accepted for smaller ones, with no larger alignment. -/
theorem Accepted.withPointers (h : table.Accepted (target.withPointers large) id align)
    (hle : small ≤ large) :
    ∃ align' ≤ align, table.Accepted (target.withPointers small) id align' := by
  induction h with
  | @intro id c align defined wellFormed parts forced ih =>
    choose! align' hparts haccepted using ih
    have hrequired : c.requiredAlign (target.withPointers small) align' ≤
        c.requiredAlign (target.withPointers large) align :=
      Composite.requiredAlign_withPointers hle hparts
    exact ⟨_, Composite.finalAlign_mono hrequired, .intro align' defined
      (wellFormed.withPointers small) haccepted
      fun bytes hbytes => hrequired.trans (forced bytes hbytes)⟩

/-- With smaller pointers nothing lies later and nothing is larger. -/
theorem PlacedAs.withPointers_within
    (h : table.PlacedAs (target.withPointers large) id answer)
    (h' : table.PlacedAs (target.withPointers small) id answer')
    (haccepted : table.Accepted (target.withPointers large) id align)
    (hsmall : small.isPowerOfTwo) (hlarge : large.isPowerOfTwo) (hle : small ≤ large) :
    Carries (Placed.Within (Lowered 0)) answer' answer := by
  induction h generalizing answer' align with
  | @intro id c part defined parts ih =>
    cases h' with
    | @intro _ c' part' defined' parts' =>
      obtain rfl : c = c' := Option.some.inj (defined.symm.trans defined')
      have hcarries : ∀ other, table.Below id other →
          Carries (Placed.Within (Lowered 0)) (part' other) (part other) := by
        intro other hbelow
        obtain ⟨inner, hinner⟩ := haccepted.reaches hbelow.reaches
        exact ih other hbelow (parts' other hbelow) hinner
      have hbelow : ∀ other ∈ c.references, table.Below id other :=
        fun other hmem => ((refers_iff defined).mpr hmem).below
      refine Composite.place_within (Lowered.alignRelation 0)
        (Composite.compares_withPointers (haccepted.wellFormed defined) hsmall hlarge hle)
        (fun other hmem => hcarries other (hbelow other hmem)) ?_
        fun base _ core' core hcore => Composite.ownedBytes_within hcore
      intro other hmem p hp shared hshared
      have hplaced := hp ▸ parts other (hbelow other hmem)
      exact hcarries shared ((hbelow other hmem).trans (hplaced.below_of_mem_shared hshared))

/-- What has a layout for pointers of one size has one for smaller pointers: with the same entries
in the same order and a slot in the same case, of no larger alignment, with nothing later and
nothing larger. -/
theorem layout_withPointers_within (table : TypeTable) (target : Target) (id : TypeId)
    (small large : Nat) (layout : Layout) (hsmall : small.isPowerOfTwo)
    (hlarge : large.isPowerOfTwo) (hle : small ≤ large)
    (h : table.layout (target.withPointers large) id = .ok layout) :
    ∃ layout', table.layout (target.withPointers small) id = .ok layout' ∧
      layout'.align ≤ layout.align ∧ layout'.Within layout := by
  obtain ⟨align, placed, haccepted, hplaced, rfl⟩ := layout_eq_ok h
  obtain ⟨align', -, haccepted'⟩ := haccepted.withPointers hle
  obtain ⟨answer', hplaced', hlayout'⟩ := haccepted'.exists_placedAs
  obtain ⟨placed', rfl, hwithin⟩ :=
    hplaced.withPointers_within hplaced' haccepted hsmall hlarge hle placed rfl
  exact ⟨placed'.layout, hlayout', hwithin.align.le, hwithin.layout⟩

/-- A handle that introduces dispatch and is packed, a window that owns it, shares a plain point and
is forced to an alignment, and a desk that stores windows behind bit-fields. -/
def deskTable : TypeTable :=
  { entries := #[
      ⟨"Point", some
        { name := "Point"
          fields := [{ name := "x", type := .int }, { name := "y", type := .int }] }⟩,
      ⟨"Handle", some
        { name := "Handle", introducesDispatch := true, packing := some 4
          fields := [{ name := "next", type := .pointer }, { name := "open", type := .bool }] }⟩,
      ⟨"Window", some
        { name := "Window", forcedAlign := some 8
          bases := [{ type := ⟨1⟩ }, { type := ⟨0⟩, sharing := .shared }]
          fields := [{ name := "depth", type := .short }] }⟩,
      ⟨"Desk", some
        { name := "Desk"
          fields := [{ name := "low", type := .int, bitWidth := some 3 },
            { name := "", type := .int, bitWidth := some 0 },
            { name := "window", type := .composite ⟨2⟩ },
            { name := "owner", type := .pointer }] }⟩] }

/-- With half the pointer size the slot and the pointer of the handle shrink, and all that lies
behind them moves forward; the desk is smaller by the padding saved as well. -/
theorem layout_withPointers_within_deskTable :
    let target : Target := { Target.lp64 with tailPadding := .reuse }
    let window : Layout :=
      { size := 32, align := 8, dataSize := 28, dispatch := some 0
        fields := [⟨"depth", 18, 2, none⟩]
        bases := [⟨⟨1⟩, 0, 20, .owned⟩, ⟨⟨0⟩, 20, 8, .shared⟩] }
    let smallWindow : Layout :=
      { size := 24, align := 8, dataSize := 20, dispatch := some 0
        fields := [⟨"depth", 10, 2, none⟩]
        bases := [⟨⟨1⟩, 0, 12, .owned⟩, ⟨⟨0⟩, 12, 8, .shared⟩] }
    let desk : Layout :=
      { size := 48, align := 8, dataSize := 48, dispatch := none
        fields := [⟨"low", 0, 4, some ⟨0, 3⟩⟩, ⟨"", 4, 0, some ⟨0, 0⟩⟩, ⟨"window", 8, 32, none⟩,
          ⟨"owner", 40, 8, none⟩]
        bases := [] }
    (4).isPowerOfTwo ∧ (8).isPowerOfTwo ∧
      deskTable.layout (target.withPointers 8) ⟨2⟩ = .ok window ∧
      deskTable.layout (target.withPointers 4) ⟨2⟩ = .ok smallWindow ∧
      smallWindow.Within window ∧
      deskTable.layout (target.withPointers 8) ⟨3⟩ = .ok desk ∧
      ∃ smallDesk, deskTable.layout (target.withPointers 4) ⟨3⟩ = .ok smallDesk ∧
        smallDesk.align ≤ 8 ∧ smallDesk.Within desk := by
  intro target window smallWindow desk
  have hsmall : (4).isPowerOfTwo := ⟨2, rfl⟩
  have hlarge : (8).isPowerOfTwo := ⟨3, rfl⟩
  have hwindow : deskTable.layout (target.withPointers 8) ⟨2⟩ = .ok window := by decide +kernel
  have hsmaller : deskTable.layout (target.withPointers 4) ⟨2⟩ = .ok smallWindow := by
    decide +kernel
  have hdesk : deskTable.layout (target.withPointers 8) ⟨3⟩ = .ok desk := by decide +kernel
  obtain ⟨layout', hlayout', -, hwithin⟩ := layout_withPointers_within deskTable target ⟨2⟩ 4 8
    window hsmall hlarge (by decide) hwindow
  obtain rfl : layout' = smallWindow := Except.ok.inj (hlayout'.symm.trans hsmaller)
  exact ⟨hsmall, hlarge, hwindow, hsmaller, hwithin, hdesk,
    layout_withPointers_within deskTable target ⟨3⟩ 4 8 desk hsmall hlarge (by decide) hdesk⟩

end TypeTable

end ObjectLayout
