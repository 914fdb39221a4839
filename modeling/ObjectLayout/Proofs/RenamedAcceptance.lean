import ObjectLayout.Proofs.Renaming

/-!
# Acceptance under a renaming

The walk of acceptance looks at nothing but the entries of the types that it comes to, in an order
that the descriptions give. So it takes the same course through a table that holds the same
descriptions at renamed places. Where the first table lacks a description the second one may know
more; the walks part only at such a type, and the first one is excused: it has found no more than
that the description is missing.
-/
namespace ObjectLayout.TypeTable

variable {m : TypeId → TypeId} {excused : Rejection → Prop} {P Q : TypeTable} {target : Target}
  {root id : TypeId} {path : List TypeId} {room room' : Nat} {memo memo' : Memo Nat}

/-- The second table describes the renamed types as the first one describes the types reached from
the root. A type without a description has none there, or the rejection for it is excused. -/
structure Copied (m : TypeId → TypeId) (excused : Rejection → Prop) (P Q : TypeTable)
    (root : TypeId) : Prop where
  injective : m.Injective
  described : ∀ id name c, P.Reaches root id → P.entry? id = some ⟨name, some c⟩ →
    ∃ name', Q.entry? (m id) = some ⟨name', some (c.rename m)⟩
  declared : ∀ id name, P.Reaches root id → P.entry? id = some ⟨name, none⟩ →
    Q.entry? (m id) = some ⟨name, none⟩ ∨ excused (.undefinedType id name)
  unknown : ∀ id, P.Reaches root id → P.entry? id = none →
    Q.entry? (m id) = none ∨ excused (.unknownType id)

/-- The second result is the first one under the renaming, or the first one is excused. -/
inductive Echoes (m : TypeId → TypeId) (excused : Rejection → Prop) :
    EStateM.Result Rejection (Memo Nat) Nat → EStateM.Result Rejection (Memo Nat) Nat → Prop
  | ok {align : Nat} {memo memo' : Memo Nat}
      (memos : memo.Mirrors m (fun align => align) memo') :
      Echoes m excused (.ok align memo) (.ok align memo')
  | error {rejection : Rejection} {memo memo' : Memo Nat} :
      Echoes m excused (.error rejection memo) (.error (rejection.rename m) memo')
  | excuse {rejection : Rejection} {memo : Memo Nat}
      {result : EStateM.Result Rejection (Memo Nat) Nat} (reason : excused rejection) :
      Echoes m excused (.error rejection memo) result

/-- If nested types are answered alike, so are the demands together. -/
lemma foldlM_raise_echoes {accept accept' : TypeId → Acceptance Nat} {demands : List Demand}
    (haccept : ∀ part, .nested part ∈ demands → ∀ memo memo' : Memo Nat,
      memo.Mirrors m (fun align => align) memo' →
        Echoes m excused (accept part memo) (accept' (m part) memo'))
    (required : Nat) (hmemo : memo.Mirrors m (fun align => align) memo') :
    Echoes m excused (demands.foldlM (Demand.raise accept) required memo)
      ((demands.map (Demand.rename m)).foldlM (Demand.raise accept') required memo') := by
  induction demands generalizing required memo memo' with
  | nil => exact .ok hmemo
  | cons demand demands ih =>
    have ih := fun required (memo memo' : Memo Nat) => @ih memo memo'
      (fun part hpart => haccept part (List.mem_cons_of_mem _ hpart)) required
    rw [List.map_cons, foldlM_raise_cons, foldlM_raise_cons]
    cases demand with
    | align bytes => exact ih _ memo memo' hmemo
    | defect rejection => exact .error
    | nested part =>
      have hpart := haccept part List.mem_cons_self memo memo' hmemo
      simp only [Demand.rename]
      generalize accept part memo = result at hpart ⊢
      generalize accept' (m part) memo' = result' at hpart ⊢
      cases hpart with
      | ok hnext => exact ih _ _ _ hnext
      | error => exact .error
      | excuse hreason => exact .excuse hreason

/-- Two walks that have come to a type on one course answer alike from there. -/
theorem acceptWithin_echoes (hcopied : Copied m excused P Q root)
    (htrail : TwinTrail m P Q root room room' path id)
    (hmemo : memo.Mirrors m (fun align => align) memo') :
    Echoes m excused (P.acceptWithin target room path id memo)
      (Q.acceptWithin target room' (path.map m) (m id) memo') := by
  induction room generalizing room' path id memo memo' with
  | zero => exact absurd rfl htrail.room_ne_zero.1
  | succ room ih =>
    obtain ⟨room', rfl⟩ := Nat.exists_eq_succ_of_ne_zero htrail.room_ne_zero.2
    rw [acceptWithin_succ, acceptWithin_succ, hmemo id]
    cases hget : memo.get? id with
    | some align => exact .ok hmemo
    | none =>
      simp only [Option.map_none]
      cases hentry : P.entry? id with
      | none =>
        rcases hcopied.unknown id htrail.reached hentry with hentry' | hreason
        · rw [hentry']
          exact .error
        · exact .excuse hreason
      | some entry =>
        obtain ⟨name, _ | c⟩ := entry
        · rcases hcopied.declared id name htrail.reached hentry with hentry' | hreason
          · rw [hentry']
            exact .error
          · exact .excuse hreason
        obtain ⟨name', hentry'⟩ := hcopied.described id name c htrail.reached hentry
        simp only [hentry', List.mem_map_of_injective hcopied.injective]
        by_cases hid : id ∈ path
        · simp only [hid, if_true]
          exact .error
        simp only [hid, if_false]
        have hwalk : Echoes m excused
            ((c.demands target).foldlM
              (Demand.raise (P.acceptWithin target room (id :: path))) 1 memo)
            (((c.rename m).demands target).foldlM
              (Demand.raise (Q.acceptWithin target room' ((id :: path).map m))) 1 memo') := by
          rw [Composite.demands_rename]
          apply foldlM_raise_echoes _ 1 hmemo
          intro part hpart memo memo' hmemo
          exact ih (htrail.step hcopied.injective hid (get?_of_described hentry)
            (get?_of_described hentry') (Composite.references_of_nested_mem_demands hpart)) hmemo
        rw [List.map_cons] at hwalk
        -- What follows the demands looks at their answer only.
        generalize (c.demands target).foldlM
          (Demand.raise (P.acceptWithin target room (id :: path))) 1 memo = result at hwalk ⊢
        generalize ((c.rename m).demands target).foldlM
          (Demand.raise (Q.acceptWithin target room' (m id :: path.map m))) 1 memo' = result'
          at hwalk ⊢
        cases hwalk with
        | error => exact .error
        | excuse hreason => exact .excuse hreason
        | @ok required next next' hnext =>
          have hsettle : (c.rename m).settleAlign required = c.settleAlign required := rfl
          simp only [hsettle]
          cases hresult : c.settleAlign required with
          | ok align => exact .ok (hnext.insert hcopied.injective id align)
          | error rejection =>
            obtain ⟨forced, -, -, rfl⟩ := Composite.settleAlign_eq_error hresult
            exact .error

/-- Acceptance gives the same answer under the renaming, or is excused. -/
theorem accept_copied (target : Target) (hcopied : Copied m excused P Q root)
    (hreach : P.Reaches root id) :
    (∃ rejection, answer ((P.accept target id).run {}) = .error rejection ∧ excused rejection) ∨
      answer ((Q.accept target (m id)).run {}) =
        renamed m (fun align => align) (answer ((P.accept target id).run {})) := by
  have hwalk : Echoes m excused ((P.accept target id).run {}) ((Q.accept target (m id)).run {}) :=
    acceptWithin_echoes hcopied (.nil hreach) .empty
  generalize (P.accept target id).run {} = result at hwalk ⊢
  generalize (Q.accept target (m id)).run {} = result' at hwalk ⊢
  cases hwalk with
  | ok => exact Or.inr rfl
  | error => exact Or.inr rfl
  | excuse hreason => exact Or.inl ⟨_, rfl, hreason⟩

end ObjectLayout.TypeTable
