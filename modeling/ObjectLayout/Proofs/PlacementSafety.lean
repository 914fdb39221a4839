import ObjectLayout.Proofs.AddressBounds
import ObjectLayout.Proofs.CautiousPlacement

/-!
# Safe placement

Acceptance and placement walk the same graph in different ways. What acceptance has found out about
every reachable type is enough for a cautious placement, which asks for the placements of other
types as it needs them: it meets no type without a description, goes no deeper than there are types,
finds no breach, and fails only because a type is too large for the target.
-/
namespace ObjectLayout

namespace TypeTable

/-- Place a type cautiously within a bound on the depth, asking for other placements on the way. -/
def placeWithin (table : TypeTable) (target : Target) : Nat → TypeId → Cautious Placed
  | 0, id => .error (.breach (.endless id))
  | room + 1, id =>
    match table.get? id with
    | none => .error (.breach (.undefinedType id))
    | some c => Cautious.place target table.isPod (table.placeWithin target room) c

/-- Place a type cautiously, no deeper than the table has types. -/
def placeCautiously (table : TypeTable) (target : Target) (id : TypeId) : Cautious Placed :=
  table.placeWithin target (table.size + 1) id

variable {table : TypeTable} {target : Target} {id part : TypeId} {path : List TypeId}
  {align : Nat} {answer : Except Rejection Placed}

/-- A step to any type below, as a shared base of a base may be. -/
lemma Trail.step_below {c : Composite} (h : table.Trail path id) (hid : id ∉ path)
    (hc : table.get? id = some c) (hbelow : table.Below id part) :
    table.Trail (id :: path) part := by
  refine ⟨List.nodup_cons.mpr ⟨hid, h.nodup⟩, ?_, ?_⟩
  · exact List.forall_mem_cons.mpr ⟨by rw [hc]; rfl, h.defined⟩
  · exact List.forall_mem_cons.mpr ⟨hbelow, fun p hmem => (h.above p hmem).trans hbelow⟩

/-- With room for the rest of the table, an accepted type is placed as by the plain recursion. -/
theorem PlacedAs.placeWithin_eq {room : Nat} (h : table.PlacedAs target id answer)
    (haccepted : table.Accepted target id align) (hpointer : target.pointerSize.isPowerOfTwo)
    (htrail : table.Trail path id) (hroom : path.length + room = table.size + 1) :
    table.placeWithin target room id = Cautious.lift answer := by
  induction h generalizing path room align with
  | @intro id c part defined parts ih =>
    have hwell := haccepted.wellFormed defined
    have hlength := htrail.length_le
    obtain ⟨room, rfl⟩ : ∃ n, room = n + 1 := ⟨room - 1, by omega⟩
    rw [placeWithin, defined]
    have hpart : ∀ other, table.Below id other →
        table.placeWithin target room other = Cautious.lift (part other) := by
      intro other hbelow
      obtain ⟨align', haccepted'⟩ := haccepted.reaches hbelow.reaches
      have hnext := htrail.step_below (htrail.not_mem haccepted.acyclic) defined hbelow
      refine ih other hbelow haccepted' hnext ?_
      rw [List.length_cons]
      omega
    have hregular : ∀ other p, table.Below id other → part other = .ok p → p.Regular target := by
      intro other p hbelow hp
      obtain ⟨align', haccepted'⟩ := haccepted.reaches hbelow.reaches
      exact PlacedAs.regular (hp ▸ parts other hbelow) haccepted'
    have hshared : ∀ other p, table.Below id other → part other = .ok p →
        ∀ shared ∈ p.shared, table.Below id shared := fun other p hbelow hp shared hmem =>
      hbelow.trans (PlacedAs.below_of_mem_shared (hp ▸ parts other hbelow) hmem)
    exact Cautious.place_eq hwell hpointer hpart hregular
      (fun other href => ((refers_iff defined).mpr href).below) hshared

/-- A type that is accepted after any questions is placed without a breach: the cautious placement
gives the layout, or both reject it because a type that it reaches is too large. -/
theorem accepted_placed_without_breach (table : TypeTable) (target : Target) (asked : List TypeId)
    (id : TypeId) (align : Nat) (memo : Memo Nat) (hpointer : target.pointerSize.isPowerOfTwo)
    (haccept : (table.accept target id).run (table.acceptedAfter target asked) = .ok align memo) :
    (∃ placed, table.placeCautiously target id = .ok placed ∧
        table.layout target id = .ok placed.layout) ∨
      ∃ part c, table.Reaches id part ∧ table.get? part = some c ∧
        table.placeCautiously target id = .error (.rejected (.sizeOverflow c.name)) ∧
        table.layout target id = .error (.sizeOverflow c.name) := by
  have hexplained := accept_explained (acceptedAfter_inOrder table target asked) id
  rw [haccept] at hexplained
  have haccepted := hexplained.1
  obtain ⟨answer, hplaced, hlayout⟩ := haccepted.exists_placedAs
  have hcautious : table.placeCautiously target id = Cautious.lift answer :=
    hplaced.placeWithin_eq haccepted hpointer (.nil table id) (Nat.zero_add _)
  cases answer with
  | ok placed => exact Or.inl ⟨placed, hcautious, hlayout⟩
  | error rejection =>
    obtain ⟨-, part, c, hreach, hc, rfl⟩ := hplaced.failsOnly rejection rfl
    exact Or.inr ⟨part, c, hreach, hc, hcautious, hlayout⟩

/-- A card under a clamped base, with a shared base, bit-fields, a member and a marker; and a vault
that fills the address space behind a card. -/
def cardVault : TypeTable :=
  { entries := #[
      ⟨"Named", some
        { name := "Named", introducesDispatch := true
          fields := [{ name := "kind", type := .int, bitWidth := some 3 },
            { name := "depth", type := .int, bitWidth := some 31 }] }⟩,
      ⟨"Tagged", some
        { name := "Tagged", bases := [{ type := ⟨0⟩, sharing := .shared }], packing := some 2
          fields := [{ name := "tag", type := .char }] }⟩,
      ⟨"Card", some
        { name := "Card", bases := [{ type := ⟨1⟩ }]
          fields := [{ name := "inner", type := .composite ⟨0⟩ },
            { name := "", type := .int, bitWidth := some 0 },
            { name := "last", type := .short }] }⟩,
      ⟨"Vault", some
        { name := "Vault"
          fields := [{ name := "card", type := .composite ⟨2⟩ },
            { name := "rest", type := .scalar 18446744073709551600 1 }] }⟩] }

/-- The card is placed; the vault is too large, which is all that can go wrong. -/
theorem accepted_placed_without_breach_cardVault :
    (∃ placed, cardVault.placeCautiously .lp64 ⟨2⟩ = .ok placed ∧
        cardVault.layout .lp64 ⟨2⟩ = .ok placed.layout) ∧
      ∃ part c, cardVault.Reaches ⟨3⟩ part ∧ cardVault.get? part = some c ∧
        cardVault.placeCautiously .lp64 ⟨3⟩ = .error (.rejected (.sizeOverflow c.name)) ∧
        cardVault.layout .lp64 ⟨3⟩ = .error (.sizeOverflow c.name) := by
  have hcard : (cardVault.accept .lp64 ⟨2⟩).run (cardVault.acceptedAfter .lp64 []) =
      .ok 8 { entries := [(⟨2⟩, 8), (⟨1⟩, 2), (⟨0⟩, 8)] } := by rfl
  have hvault : (cardVault.accept .lp64 ⟨3⟩).run (cardVault.acceptedAfter .lp64 [⟨2⟩]) =
      .ok 8 { entries := [(⟨3⟩, 8), (⟨2⟩, 8), (⟨1⟩, 2), (⟨0⟩, 8)] } := by rfl
  have hsmall : (cardVault.layout .lp64 ⟨2⟩).toOption.isSome = true := by decide +kernel
  have hlarge : cardVault.layout .lp64 ⟨3⟩ = .error (.sizeOverflow "Vault") := by decide +kernel
  constructor
  · refine (accepted_placed_without_breach cardVault .lp64 [] ⟨2⟩ 8 _ (by decide)
      hcard).resolve_right ?_
    rintro ⟨part, c, -, -, -, herror⟩
    rw [herror] at hsmall
    cases hsmall
  · refine (accepted_placed_without_breach cardVault .lp64 [⟨2⟩] ⟨3⟩ 8 _ (by decide)
      hvault).resolve_left ?_
    rintro ⟨placed, -, hok⟩
    rw [hlarge] at hok
    cases hok

end TypeTable

end ObjectLayout
