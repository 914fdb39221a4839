import ObjectLayout.Proofs.References
import ObjectLayout.Traits.Ancestry

/-!
# The ancestry walk

For a type on no endless chain of references the ancestry is a recursion over its bases, defined
here without a memo. The walk gives that ancestry whatever the memo remembers, as long as what the
memo says of such types is right; of the types on cycles nothing is asked.
-/
namespace ObjectLayout

instance : Inhabited Violation := ⟨.dispatchPointer⟩

namespace Ancestry

/-- Take in bases one after the other, given what lies above each. The first failure stays. -/
def gather (above : TypeId → Except Violation Ancestry) (start : Ancestry) (bases : List Base) :
    Except Violation Ancestry :=
  bases.foldlM (fun ancestry base => (above base.type).map (ancestry.extend base)) start

lemma gather_cons (above : TypeId → Except Violation Ancestry) (start : Ancestry) (base : Base)
    (bases : List Base) : gather above start (base :: bases) =
      (above base.type).bind fun found => gather above (start.extend base found) bases := by
  rw [gather, List.foldlM_cons]
  cases above base.type <;> rfl

lemma gather_congr {above above' : TypeId → Except Violation Ancestry} {bases : List Base}
    (h : ∀ base ∈ bases, above base.type = above' base.type) (start : Ancestry) :
    gather above start bases = gather above' start bases := by
  induction bases generalizing start with
  | nil => rfl
  | cons base bases ih =>
    have ih := ih fun base hmem => h base (List.mem_cons_of_mem _ hmem)
    rw [gather_cons, gather_cons, h base List.mem_cons_self]
    exact congrArg _ (funext fun found => ih (start.extend base found))

end Ancestry

namespace TypeTable

/-- The ancestry of a type, or what bars it, by recursion over its bases. -/
inductive AncestryOf (table : TypeTable) : TypeId → Except Violation Ancestry → Prop
  | undefined {id : TypeId} (undefined : table.get? id = none) :
      table.AncestryOf id (.error (.unresolved id))
  | defined {id : TypeId} {c : Composite} (above : TypeId → Except Violation Ancestry)
      (defined : table.get? id = some c)
      (bases : ∀ base ∈ c.bases, table.AncestryOf base.type (above base.type)) :
      table.AncestryOf id (Ancestry.gather above (Ancestry.root id c) c.bases)

variable {table : TypeTable} {id part : TypeId} {path : List TypeId} {memo : AncestryMemo}

theorem AncestryOf.unique {found found' : Except Violation Ancestry}
    (h : table.AncestryOf id found) (h' : table.AncestryOf id found') : found = found' := by
  induction h generalizing found' with
  | undefined undefined =>
    cases h' with
    | undefined => rfl
    | defined _ defined =>
      rw [undefined] at defined
      cases defined
  | @defined id c above defined _ ih =>
    cases h' with
    | undefined undefined =>
      rw [undefined] at defined
      cases defined
    | @defined _ c' above' defined' bases' =>
      obtain rfl : c = c' := Option.some.inj (defined.symm.trans defined')
      exact Ancestry.gather_congr (fun base hmem => ih base hmem (bases' base hmem)) _

/-- A type on no endless chain has an ancestry or a reason to have none. -/
theorem exists_ancestryOf (h : table.Acyclic id) : ∃ found, table.AncestryOf id found := by
  induction h with
  | intro id _ ih =>
    cases hc : table.get? id with
    | none => exact ⟨_, .undefined hc⟩
    | some c =>
      choose! above habove using ih
      refine ⟨_, .defined above hc fun base hmem => habove base.type ?_⟩
      exact (refers_iff hc).mpr (Composite.mem_references_of_base hmem)

/-- What the memo says of types on no endless chain is right. -/
def AncestriesSound (table : TypeTable) (memo : AncestryMemo) : Prop :=
  ∀ id found, table.Acyclic id → memo.get? id = some found → table.AncestryOf id found

lemma AncestriesSound.empty (table : TypeTable) : table.AncestriesSound {} := by
  intro id found _ hget
  cases hget

lemma AncestriesSound.insert {found : Except Violation Ancestry} (h : table.AncestriesSound memo)
    (hfound : table.AncestryOf id found) : table.AncestriesSound (memo.insert id found) := by
  intro other found' hacyclic hget
  rw [Memo.get?_insert] at hget
  split at hget
  · next heq =>
    cases hget
    exact heq ▸ hfound
  · exact h other found' hacyclic hget

/-- The part of one step of the walk that runs over the bases. -/
def gatherWithin (table : TypeTable) (room : Nat) (path : List TypeId) (start : Ancestry)
    (bases : List Base) : StateM AncestryMemo (Except Violation Ancestry) :=
  (bases.foldlM (fun ancestry base => do
      let above ← ExceptT.mk (table.ancestryWithin room path base.type)
      return ancestry.extend base above) start : ExceptT Violation (StateM AncestryMemo) Ancestry).run

/-- One step of the walk, case by case. -/
lemma ancestryWithin_succ (table : TypeTable) (room : Nat) (path : List TypeId) (id : TypeId)
    (memo : AncestryMemo) :
    table.ancestryWithin (room + 1) path id memo =
      match memo.get? id with
      | some known => (known, memo)
      | none =>
        match table.get? id with
        | none => (.error (.unresolved id), memo)
        | some c =>
          if id ∈ path then (.error (.cyclic id), memo)
          else
            let (found, next) := table.gatherWithin room (id :: path) (Ancestry.root id c) c.bases memo
            (found, next.insert id found) := by
  rw [ancestryWithin]
  simp only [bind, StateT.bind, get, getThe, MonadStateOf.get, StateT.get, pure]
  cases memo.get? id with
  | some known => rfl
  | none =>
    cases table.get? id with
    | none => rfl
    | some c => by_cases hid : id ∈ path <;> simp only [hid, if_true, if_false] <;> rfl

lemma gatherWithin_cons (table : TypeTable) (room : Nat) (path : List TypeId) (start : Ancestry)
    (base : Base) (bases : List Base) (memo : AncestryMemo) :
    table.gatherWithin room path start (base :: bases) memo =
      match table.ancestryWithin room path base.type memo with
      | (.error reason, next) => (.error reason, next)
      | (.ok above, next) => table.gatherWithin room path (start.extend base above) bases next := by
  rw [gatherWithin, List.foldlM_cons]
  simp only [bind, ExceptT.bind, ExceptT.run, ExceptT.mk, StateT.bind]
  cases table.ancestryWithin room path base.type memo with
  | mk found next => cases found <;> rfl

/-- Running over bases gathers their ancestries if each base is walked soundly. -/
lemma gatherWithin_sound {room : Nat} {bases : List Base}
    {above : TypeId → Except Violation Ancestry}
    (hwalk : ∀ base ∈ bases, ∀ memo : AncestryMemo, table.AncestriesSound memo →
      (table.ancestryWithin room path base.type memo).1 = above base.type ∧
        table.AncestriesSound (table.ancestryWithin room path base.type memo).2)
    (start : Ancestry) (hmemo : table.AncestriesSound memo) :
    (table.gatherWithin room path start bases memo).1 = Ancestry.gather above start bases ∧
      table.AncestriesSound (table.gatherWithin room path start bases memo).2 := by
  induction bases generalizing start memo with
  | nil => exact ⟨rfl, hmemo⟩
  | cons base bases ih =>
    obtain ⟨hfound, hnext⟩ := hwalk base List.mem_cons_self memo hmemo
    rw [gatherWithin_cons, Ancestry.gather_cons, ← hfound]
    cases hresult : table.ancestryWithin room path base.type memo with
    | mk found next =>
      rw [hresult] at hnext
      cases found with
      | error reason => exact ⟨rfl, hnext⟩
      | ok found =>
        exact ih (fun base hmem => hwalk base (List.mem_cons_of_mem _ hmem)) _ hnext

theorem ancestryWithin_sound {room : Nat} (hroom : path.length + room = table.size + 1)
    (htrail : table.Trail path id) (hacyclic : table.Acyclic id)
    (hmemo : table.AncestriesSound memo) :
    table.AncestryOf id (table.ancestryWithin room path id memo).1 ∧
      table.AncestriesSound (table.ancestryWithin room path id memo).2 := by
  induction room generalizing path id memo with
  | zero =>
    have := htrail.length_le
    omega
  | succ room ih =>
    rw [ancestryWithin_succ]
    cases hget : memo.get? id with
    | some known => exact ⟨hmemo id known hacyclic hget, hmemo⟩
    | none =>
      cases hc : table.get? id with
      | none => exact ⟨.undefined hc, hmemo⟩
      | some c =>
        have hid : id ∉ path := htrail.not_mem hacyclic
        have hrefers : ∀ base ∈ c.bases, table.Refers id base.type := fun base hmem =>
          (refers_iff hc).mpr (Composite.mem_references_of_base hmem)
        choose! above habove using fun part (hpart : table.Acyclic part) => exists_ancestryOf hpart
        have hgather := gatherWithin_sound
          (fun base hmem memo hmemo => by
            have hpart := hacyclic.refers (hrefers base hmem)
            have hwalk := ih (by simp only [List.length_cons]; omega)
              (htrail.step hid hc (Composite.mem_references_of_base hmem)) hpart hmemo
            exact ⟨hwalk.1.unique (habove _ hpart), hwalk.2⟩)
          (Ancestry.root id c) hmemo
        have hfound : table.AncestryOf id (Ancestry.gather above (Ancestry.root id c) c.bases) :=
          .defined above hc fun base hmem => habove _ (hacyclic.refers (hrefers base hmem))
        simp only [hid, if_false]
        rw [← hgather.1] at hfound
        exact ⟨hfound, hgather.2.insert hfound⟩

/-- The ancestry of a type on no endless chain does not depend on what was asked before. -/
theorem ancestry_sound (hacyclic : table.Acyclic id) (hmemo : table.AncestriesSound memo) :
    table.AncestryOf id ((table.ancestry id).run memo).1 ∧
      table.AncestriesSound ((table.ancestry id).run memo).2 :=
  ancestryWithin_sound (by simp) (.nil table id) hacyclic hmemo

end TypeTable

end ObjectLayout
