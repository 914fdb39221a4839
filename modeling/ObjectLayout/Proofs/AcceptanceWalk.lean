import ObjectLayout.Acceptance
import ObjectLayout.Proofs.Acceptability

/-!
# The acceptance walk

What one call of the walk leaves behind, for every memo that earlier calls can have left: the
types in the memo are accepted, each stands behind all that it refers to and none stands twice. A
call only puts new types in front, none of them on its own path, whether it succeeds or fails. Its
answer is the alignment of an accepted type or a breach that is really there, so the memo never
changes an answer.
-/
namespace ObjectLayout

namespace Memo

variable {α : Type} {memo : Memo α} {id : TypeId} {answer : α}

lemma mem_of_get? (h : memo.get? id = some answer) : (id, answer) ∈ memo.entries := by
  obtain ⟨entry, hfind, rfl⟩ := Option.map_eq_some_iff.mp h
  have hid : entry.1 = id := by simpa using List.find?_some hfind
  rw [← hid]
  exact List.mem_of_find?_eq_some hfind

lemma mem_keys_iff : id ∈ memo.entries.map Prod.fst ↔ ∃ answer, memo.get? id = some answer := by
  constructor
  · intro h
    obtain ⟨entry, hmem, rfl⟩ := List.mem_map.mp h
    cases hg : memo.get? entry.1 with
    | some answer => exact ⟨answer, rfl⟩
    | none =>
      rw [get?, Option.map_eq_none_iff, List.find?_eq_none] at hg
      simpa using hg entry hmem
  · rintro ⟨answer, h⟩
    exact List.mem_map.mpr ⟨_, mem_of_get? h, rfl⟩

end Memo

namespace TypeTable

/-- Accepted types, newest first: each stands in front of all that it refers to, and only once. -/
inductive AcceptedInOrder (table : TypeTable) (target : Target) : List (TypeId × Nat) → Prop
  | nil : table.AcceptedInOrder target []
  | cons {id : TypeId} {align : Nat} {older : List (TypeId × Nat)}
      (rest : table.AcceptedInOrder target older) (accepted : table.Accepted target id align)
      (below : ∀ part, table.Refers id part → part ∈ older.map Prod.fst)
      (fresh : id ∉ older.map Prod.fst) : table.AcceptedInOrder target ((id, align) :: older)

variable {table : TypeTable} {target : Target} {path : List TypeId} {id part : TypeId}
  {memo next last : Memo Nat} {align : Nat}

namespace AcceptedInOrder

lemma accepted_of_mem {entries : List (TypeId × Nat)} (h : table.AcceptedInOrder target entries)
    (hmem : (id, align) ∈ entries) : table.Accepted target id align := by
  induction h with
  | nil => simp at hmem
  | cons _ accepted _ _ ih =>
    rcases List.mem_cons.mp hmem with heq | hmem
    · cases heq
      exact accepted
    · exact ih hmem

lemma accepted (h : table.AcceptedInOrder target memo.entries) (hget : memo.get? id = some align) :
    table.Accepted target id align :=
  h.accepted_of_mem (Memo.mem_of_get? hget)

lemma tail {entry : TypeId × Nat} {older : List (TypeId × Nat)}
    (h : table.AcceptedInOrder target (entry :: older)) : table.AcceptedInOrder target older := by
  cases h with
  | cons rest => exact rest

lemma of_append {new older : List (TypeId × Nat)}
    (h : table.AcceptedInOrder target (new ++ older)) : table.AcceptedInOrder target older := by
  induction new with
  | nil => exact h
  | cons entry new ih => exact ih h.tail

/-- Everything below a type stands behind it. -/
lemma mem_of_below {older : List (TypeId × Nat)}
    (h : table.AcceptedInOrder target ((id, align) :: older)) (hbelow : table.Below id part) :
    part ∈ older.map Prod.fst := by
  have hclosed : ∀ entries, table.AcceptedInOrder target entries →
      ∀ whole part, whole ∈ entries.map Prod.fst → table.Refers whole part →
        part ∈ entries.map Prod.fst := by
    intro entries hentries
    induction hentries with
    | nil => simp
    | cons _ _ below _ ih =>
      intro whole part hwhole hrefers
      rcases List.mem_cons.mp hwhole with rfl | hwhole
      · exact List.mem_cons_of_mem _ (below part hrefers)
      · exact List.mem_cons_of_mem _ (ih whole part hwhole hrefers)
  cases h with
  | cons rest _ below _ =>
    obtain ⟨first, hfirst, hreach⟩ := below_iff.mp hbelow
    induction hreach with
    | refl => exact below first hfirst
    | tail _ hstep ih => exact hclosed older rest _ _ (ih (below_iff.mpr ⟨_, hfirst, ‹_›⟩)) hstep

end AcceptedInOrder

/-- The memo `next` holds the same types as `memo` and new ones in front, none of them on the
path. -/
structure Extends (table : TypeTable) (target : Target) (path : List TypeId)
    (memo next : Memo Nat) : Prop where
  inOrder : table.AcceptedInOrder target next.entries
  grown : ∃ new, next.entries = new ++ memo.entries ∧ ∀ entry ∈ new, entry.1 ∉ path

namespace Extends

lemma refl (h : table.AcceptedInOrder target memo.entries) : table.Extends target path memo memo :=
  ⟨h, [], rfl, by simp⟩

lemma trans (h : table.Extends target path memo next) (h' : table.Extends target path next last) :
    table.Extends target path memo last := by
  obtain ⟨-, new, hnew, hpath⟩ := h
  obtain ⟨hlast, newer, hnewer, hpath'⟩ := h'
  refine ⟨hlast, newer ++ new, by rw [hnewer, hnew, List.append_assoc], fun entry hmem => ?_⟩
  rcases List.mem_append.mp hmem with hmem | hmem
  · exact hpath' entry hmem
  · exact hpath entry hmem

lemma tail (h : table.Extends target (id :: path) memo next) :
    table.Extends target path memo next := by
  obtain ⟨hnext, new, hnew, hpath⟩ := h
  exact ⟨hnext, new, hnew, fun entry hmem hin => hpath entry hmem (List.mem_cons_of_mem _ hin)⟩

lemma get? (h : table.Extends target path memo next) (hget : memo.get? id = some align) :
    next.get? id = some align := by
  obtain ⟨hnext, new, hnew, -⟩ := h
  have hmemo : table.AcceptedInOrder target memo.entries := by
    rw [hnew] at hnext
    exact hnext.of_append
  have hkey : id ∈ next.entries.map Prod.fst := by
    rw [hnew, List.map_append]
    exact List.mem_append_right _ (Memo.mem_keys_iff.mpr ⟨align, hget⟩)
  obtain ⟨align', hget'⟩ := Memo.mem_keys_iff.mp hkey
  rw [hget', (hnext.accepted hget').unique (hmemo.accepted hget)]

/-- A type may be put in front once all that it refers to is in the memo. -/
lemma insert (h : table.Extends target (id :: path) memo next) (hid : id ∉ path)
    (haccepted : table.Accepted target id align) (hnew : memo.get? id = none)
    (hparts : ∀ part, table.Refers id part → ∃ a, next.get? part = some a) :
    table.Extends target path memo (next.insert id align) := by
  obtain ⟨hnext, new, hentries, hpath⟩ := h
  have hfresh : id ∉ next.entries.map Prod.fst := by
    rw [hentries, List.map_append, List.mem_append]
    rintro (hmem | hmem)
    · obtain ⟨entry, hentry, hid⟩ := List.mem_map.mp hmem
      exact hpath entry hentry (hid ▸ List.mem_cons_self)
    · obtain ⟨a, ha⟩ := Memo.mem_keys_iff.mp hmem
      rw [hnew] at ha
      cases ha
  refine ⟨hnext.cons haccepted (fun part hp => Memo.mem_keys_iff.mpr (hparts part hp)) hfresh,
    (id, align) :: new, by rw [Memo.insert, hentries, List.cons_append], fun entry hmem => ?_⟩
  rcases List.mem_cons.mp hmem with rfl | hmem
  · exact hid
  · exact fun hin => hpath entry hmem (List.mem_cons_of_mem _ hin)

end Extends

/-- What one call of the walk gives and leaves behind. -/
def Explained (table : TypeTable) (target : Target) (path : List TypeId) (id : TypeId)
    (memo : Memo Nat) : EStateM.Result Rejection (Memo Nat) Nat → Prop
  | .ok align next => table.Accepted target id align ∧ next.get? id = some align ∧
      table.Extends target path memo next
  | .error rejection next => table.HasDefect target id rejection ∧
      table.Extends target path memo next

/-- What the demands of a type give and leave behind, beginning with `required`. -/
def DemandsExplained (table : TypeTable) (target : Target) (path : List TypeId)
    (demands : List Demand) (required : Nat) (memo : Memo Nat) :
    EStateM.Result Rejection (Memo Nat) Nat → Prop
  | .ok result next => (∀ rejection, .defect rejection ∉ demands) ∧
      (∀ part, .nested part ∈ demands → ∃ a, next.get? part = some a) ∧
      (∀ align, (∀ part a, next.get? part = some a → align part = a) →
        result = (demands.map (Demand.value align)).foldl max required) ∧
      table.Extends target path memo next
  | .error rejection next => (.defect rejection ∈ demands ∨
      ∃ part, .nested part ∈ demands ∧ table.HasDefect target part rejection) ∧
      table.Extends target path memo next

lemma foldlM_raise_cons (accept : TypeId → Acceptance Nat) (d : Demand) (demands : List Demand)
    (required : Nat) (memo : Memo Nat) :
    (d :: demands).foldlM (Demand.raise accept) required memo =
      match d with
      | .align bytes => demands.foldlM (Demand.raise accept) (max required bytes) memo
      | .defect rejection => .error rejection memo
      | .nested id =>
        match accept id memo with
        | .ok align next => demands.foldlM (Demand.raise accept) (max required align) next
        | .error rejection next => .error rejection next := by
  rw [List.foldlM_cons]
  simp only [bind, EStateM.bind]
  cases d with
  | align bytes => rfl
  | defect rejection => rfl
  | nested id =>
    simp only [Demand.raise, bind, EStateM.bind]
    cases accept id memo <;> rfl

/-- If each nested type is explained on its own, so are the demands together. -/
lemma foldlM_raise_explained {accept : TypeId → Acceptance Nat} {demands : List Demand}
    (haccept : ∀ part, .nested part ∈ demands → ∀ memo : Memo Nat,
      table.AcceptedInOrder target memo.entries →
        table.Explained target path part memo (accept part memo))
    (required : Nat) (hmemo : table.AcceptedInOrder target memo.entries) :
    table.DemandsExplained target path demands required memo
      (demands.foldlM (Demand.raise accept) required memo) := by
  induction demands generalizing required memo with
  | nil => exact ⟨by simp, by simp, fun _ _ => rfl, .refl hmemo⟩
  | cons d demands ih =>
    have ih := fun required (memo : Memo Nat) => @ih memo
      (fun part hpart => haccept part (List.mem_cons_of_mem _ hpart)) required
    rw [foldlM_raise_cons]
    cases d with
    | defect rejection => exact ⟨Or.inl List.mem_cons_self, .refl hmemo⟩
    | align bytes =>
      have hrest := ih (max required bytes) memo hmemo
      dsimp only
      cases hresult : demands.foldlM (Demand.raise accept) (max required bytes) memo with
      | ok result next =>
        obtain ⟨hdefect, hnested, hvalue, hext⟩ := hresult ▸ hrest
        exact ⟨by simpa using hdefect, by simpa using hnested, hvalue, hext⟩
      | error rejection next =>
        obtain ⟨hdefect, hext⟩ := hresult ▸ hrest
        exact ⟨by simpa using hdefect, hext⟩
    | nested part =>
      have hpart := haccept part List.mem_cons_self memo hmemo
      dsimp only
      cases hresult : accept part memo with
      | error rejection next =>
        obtain ⟨hdefect, hext⟩ := hresult ▸ hpart
        exact ⟨Or.inr ⟨part, List.mem_cons_self, hdefect⟩, hext⟩
      | ok align next =>
        obtain ⟨-, hget, hext⟩ := hresult ▸ hpart
        have hrest := ih (max required align) next hext.inOrder
        dsimp only
        cases hresult' : demands.foldlM (Demand.raise accept) (max required align) next with
        | error rejection last =>
          obtain ⟨hdefect, hext'⟩ := hresult' ▸ hrest
          refine ⟨?_, hext.trans hext'⟩
          rcases hdefect with hmem | ⟨other, hmem, hd⟩
          · exact Or.inl (List.mem_cons_of_mem _ hmem)
          · exact Or.inr ⟨other, List.mem_cons_of_mem _ hmem, hd⟩
        | ok result last =>
          obtain ⟨hdefect, hnested, hvalue, hext'⟩ := hresult' ▸ hrest
          refine ⟨by simpa using hdefect, ?_, ?_, hext.trans hext'⟩
          · rintro other hmem
            rcases List.mem_cons.mp hmem with heq | hmem
            · cases heq
              exact ⟨align, hext'.get? hget⟩
            · exact hnested other hmem
          · intro value hmatch
            rw [hvalue value hmatch, List.map_cons, List.foldl_cons, Demand.value_nested,
              hmatch part align (hext'.get? hget)]

/-- Every call of the walk is explained, whatever memo it starts from. The room left and the path
together are as long as the table and one more, so the room is never used up. -/
theorem acceptWithin_explained {room : Nat} (hroom : path.length + room = table.size + 1)
    (htrail : table.Trail path id) (hmemo : table.AcceptedInOrder target memo.entries) :
    table.Explained target path id memo (table.acceptWithin target room path id memo) := by
  induction room generalizing path id memo with
  | zero =>
    have := htrail.length_le
    omega
  | succ room ih =>
    rw [acceptWithin_succ]
    cases hget : memo.get? id with
    | some align => exact ⟨hmemo.accepted hget, hget, .refl hmemo⟩
    | none =>
      cases hentry : table.entry? id with
      | none => exact ⟨⟨.refl table id, hentry⟩, .refl hmemo⟩
      | some entry =>
        obtain ⟨name, _ | c⟩ := entry
        · exact ⟨⟨.refl table id, hentry⟩, .refl hmemo⟩
        have hc : table.get? id = some c := get?_of_described hentry
        by_cases hid : id ∈ path
        · simp only [hid, if_true]
          exact ⟨⟨id, c, .refl table id, hc, rfl, htrail.above id hid⟩, .refl hmemo⟩
        simp only [hid, if_false]
        have hdemands : table.DemandsExplained target (id :: path) (c.demands target) 1 memo
            ((c.demands target).foldlM
              (Demand.raise (table.acceptWithin target room (id :: path))) 1 memo) :=
          foldlM_raise_explained
            (fun part hpart memo hmemo => ih (by simp only [List.length_cons]; omega)
              (htrail.step hid hc (Composite.references_of_nested_mem_demands hpart)) hmemo)
            1 hmemo
        cases hresult : (c.demands target).foldlM
            (Demand.raise (table.acceptWithin target room (id :: path))) 1 memo with
        | error rejection next =>
          obtain ⟨hdefect, hext⟩ := hresult ▸ hdemands
          refine ⟨?_, hext.tail⟩
          rcases hdefect with hmem | ⟨part, hmem, hd⟩
          · exact .of_local hc (Composite.hasDefect_of_mem_demands hmem)
          · exact hd.of_refers ((refers_iff hc).mpr
              (Composite.references_of_nested_mem_demands hmem))
        | ok required next =>
          obtain ⟨hdefect, hnested, hvalue, hext⟩ := hresult ▸ hdemands
          have hwell := Composite.wellFormed_of_demands hdefect
          let align := fun part => (next.get? part).getD 0
          have hparts : ∀ part ∈ c.references, table.Accepted target part (align part) := by
            intro part hpart
            obtain ⟨a, ha⟩ := hnested part (hwell.nested_mem_demands hpart)
            have halign : align part = a := by simp [align, ha]
            rw [halign]
            exact hext.inOrder.accepted ha
          have hrequired : required = c.requiredAlign target align := by
            rw [← hwell.foldl_demands align]
            exact hvalue align fun part a ha => by simp [align, ha]
          dsimp only
          cases hsettle : c.settleAlign required with
          | error rejection =>
            obtain ⟨forced, hforced, hlt, rfl⟩ := Composite.settleAlign_eq_error hsettle
            refine ⟨⟨id, c, .refl table id, hc, rfl, hwell, hforced, ?_, hlt⟩, hext.tail⟩
            exact ⟨c, align, hc, fun part hpart => (hparts part hpart).finalAlign, hrequired⟩
          | ok settled =>
            obtain ⟨hforced, rfl⟩ := Composite.settleAlign_eq_ok.mp hsettle
            rw [hrequired] at hforced ⊢
            have haccepted := Accepted.intro align hc hwell hparts hforced
            refine ⟨haccepted, Memo.get?_insert_self _ _ _, hext.insert hid haccepted hget ?_⟩
            intro part hpart
            exact hnested part (hwell.nested_mem_demands ((refers_iff hc).mp hpart))

theorem accept_explained (hmemo : table.AcceptedInOrder target memo.entries) (id : TypeId) :
    table.Explained target [] id memo ((table.accept target id).run memo) :=
  acceptWithin_explained (by simp) (.nil table id) hmemo

/-- The answer of a walk without the memo that it leaves. -/
def answer : EStateM.Result Rejection (Memo Nat) Nat → Except Rejection Nat
  | .ok align _ => .ok align
  | .error rejection _ => .error rejection

/-- A type with an alignment is accepted with it, whatever the memo holds. -/
lemma Accepted.answer_eq (h : table.Accepted target id align)
    {result : EStateM.Result Rejection (Memo Nat) Nat}
    (hresult : table.Explained target path id memo result) : answer result = .ok align := by
  cases result with
  | ok found next => rw [answer, hresult.1.unique h]
  | error rejection next => exact absurd hresult.1 (h.acceptable.not_hasDefect rejection)

/-- If nested types are answered alike from any two memos, so are the demands together. -/
lemma answer_foldlM_raise {accept : TypeId → Acceptance Nat} {demands : List Demand}
    (haccept : ∀ part, .nested part ∈ demands → ∀ memo : Memo Nat,
      table.AcceptedInOrder target memo.entries →
        table.Explained target path part memo (accept part memo))
    (halike : ∀ part, .nested part ∈ demands → ∀ memo memo' : Memo Nat,
      table.AcceptedInOrder target memo.entries → table.AcceptedInOrder target memo'.entries →
        answer (accept part memo) = answer (accept part memo'))
    (required : Nat) {memo' : Memo Nat} (hmemo : table.AcceptedInOrder target memo.entries)
    (hmemo' : table.AcceptedInOrder target memo'.entries) :
    answer (demands.foldlM (Demand.raise accept) required memo) =
      answer (demands.foldlM (Demand.raise accept) required memo') := by
  induction demands generalizing required memo memo' with
  | nil => rfl
  | cons d demands ih =>
    have ih := fun required (memo memo' : Memo Nat) => @ih memo
      (fun part hpart => haccept part (List.mem_cons_of_mem _ hpart))
      (fun part hpart => halike part (List.mem_cons_of_mem _ hpart)) required memo'
    rw [foldlM_raise_cons, foldlM_raise_cons]
    cases d with
    | defect rejection => rfl
    | align bytes => exact ih _ memo memo' hmemo hmemo'
    | nested part =>
      have hpart := haccept part List.mem_cons_self
      have hsame := halike part List.mem_cons_self memo memo' hmemo hmemo'
      have hnext := hpart memo hmemo
      have hnext' := hpart memo' hmemo'
      dsimp only
      cases hresult : accept part memo with
      | ok align next =>
        cases hresult' : accept part memo' with
        | ok align' next' =>
          rw [hresult] at hsame hnext
          rw [hresult'] at hsame hnext'
          obtain rfl : align = align' := Except.ok.inj hsame
          exact ih _ next next' hnext.2.2.inOrder hnext'.2.2.inOrder
        | error rejection' next' => simp [hresult, hresult', answer] at hsame
      | error rejection next =>
        cases hresult' : accept part memo' with
        | ok align' next' => simp [hresult, hresult', answer] at hsame
        | error rejection' next' => simpa [hresult, hresult', answer] using hsame

/-- Two memos that earlier calls may have left give the same answer, rejections included: what one
of them skips, the other accepts without a fault. -/
theorem answer_acceptWithin {room : Nat} {memo' : Memo Nat}
    (hroom : path.length + room = table.size + 1) (htrail : table.Trail path id)
    (hmemo : table.AcceptedInOrder target memo.entries)
    (hmemo' : table.AcceptedInOrder target memo'.entries) :
    answer (table.acceptWithin target room path id memo) =
      answer (table.acceptWithin target room path id memo') := by
  induction room generalizing path id memo memo' with
  | zero =>
    have := htrail.length_le
    omega
  | succ room ih =>
    have hresult := acceptWithin_explained hroom htrail hmemo
    have hresult' := acceptWithin_explained hroom htrail hmemo'
    cases hget : memo.get? id with
    | some align =>
      have haccepted := hmemo.accepted hget
      rw [haccepted.answer_eq hresult, haccepted.answer_eq hresult']
    | none =>
      cases hget' : memo'.get? id with
      | some align =>
        have haccepted := hmemo'.accepted hget'
        rw [haccepted.answer_eq hresult, haccepted.answer_eq hresult']
      | none =>
        rw [acceptWithin_succ, acceptWithin_succ, hget, hget']
        cases hentry : table.entry? id with
        | none => rfl
        | some entry =>
          obtain ⟨name, _ | c⟩ := entry
          · rfl
          by_cases hid : id ∈ path
          · simp only [hid, if_true, answer]
          simp only [hid, if_false]
          have hstep : ∀ part, .nested part ∈ c.demands target → table.Trail (id :: path) part :=
            fun part hpart => htrail.step hid (get?_of_described hentry)
              (Composite.references_of_nested_mem_demands hpart)
          have hlength : (id :: path).length + room = table.size + 1 := by
            simp only [List.length_cons]
            omega
          have hsame : answer ((c.demands target).foldlM
                (Demand.raise (table.acceptWithin target room (id :: path))) 1 memo) =
              answer ((c.demands target).foldlM
                (Demand.raise (table.acceptWithin target room (id :: path))) 1 memo') :=
            answer_foldlM_raise
              (fun part hpart memo hmemo => acceptWithin_explained hlength (hstep part hpart) hmemo)
              (fun part hpart memo memo' hmemo hmemo' =>
                ih hlength (hstep part hpart) hmemo hmemo')
              1 hmemo hmemo'
          -- What follows the demands looks at their answer only.
          generalize (c.demands target).foldlM
            (Demand.raise (table.acceptWithin target room (id :: path))) 1 = walk at hsame ⊢
          generalize walk memo = result at hsame ⊢
          generalize walk memo' = result' at hsame ⊢
          cases result with
          | ok required rest =>
            cases result' with
            | ok required' rest' =>
              obtain rfl : required = required' := Except.ok.inj hsame
              dsimp only
              cases c.settleAlign required <;> rfl
            | error rejection' rest' => cases hsame
          | error rejection rest =>
            cases result' with
            | ok required' rest' => cases hsame
            | error rejection' rest' => exact hsame

theorem answer_accept {memo' : Memo Nat} (hmemo : table.AcceptedInOrder target memo.entries)
    (hmemo' : table.AcceptedInOrder target memo'.entries) (id : TypeId) :
    answer ((table.accept target id).run memo) = answer ((table.accept target id).run memo') :=
  answer_acceptWithin (by simp) (.nil table id) hmemo hmemo'

/-- The memo that a walk leaves behind. -/
def memoAfter : EStateM.Result Rejection (Memo Nat) Nat → Memo Nat
  | .ok _ memo => memo
  | .error _ memo => memo

lemma Explained.extends_memoAfter {result : EStateM.Result Rejection (Memo Nat) Nat}
    (h : table.Explained target path id memo result) :
    table.Extends target path memo (memoAfter result) := by
  cases result with
  | ok => exact h.2.2
  | error => exact h.2

/-- The memo after a sequence of questions, starting from an empty one. -/
def acceptedAfter (table : TypeTable) (target : Target) (questions : List TypeId) : Memo Nat :=
  questions.foldl (fun memo id => memoAfter ((table.accept target id).run memo)) {}

theorem acceptedAfter_inOrder (table : TypeTable) (target : Target) (questions : List TypeId) :
    table.AcceptedInOrder target (table.acceptedAfter target questions).entries := by
  have hfold : ∀ memo : Memo Nat, table.AcceptedInOrder target memo.entries →
      table.AcceptedInOrder target (questions.foldl (fun memo id =>
        memoAfter ((table.accept target id).run memo)) memo).entries := by
    induction questions with
    | nil => exact fun _ h => h
    | cons id questions ih =>
      exact fun memo h => ih _ (accept_explained h id).extends_memoAfter.inOrder
  exact hfold {} .nil

/-- After any questions, acceptance succeeds exactly on the acceptable types; its answer is the
alignment that recursion over the graph gives, and a rejection names a breach that is really
there. -/
theorem accept_iff_acceptable (table : TypeTable) (target : Target) (questions : List TypeId)
    (id : TypeId) :
    ((∃ align memo, (table.accept target id).run (table.acceptedAfter target questions) =
        .ok align memo) ↔ table.Acceptable target id) ∧
      (∀ align memo, (table.accept target id).run (table.acceptedAfter target questions) =
        .ok align memo → table.FinalAlign target id align) ∧
      ∀ rejection memo, (table.accept target id).run (table.acceptedAfter target questions) =
        .error rejection memo → table.HasDefect target id rejection := by
  have hexplained := accept_explained (acceptedAfter_inOrder table target questions) id
  cases hresult : (table.accept target id).run (table.acceptedAfter target questions) with
  | ok align next =>
    have haccepted := (hresult ▸ hexplained).1
    refine ⟨⟨fun _ => haccepted.acceptable, fun _ => ⟨align, next, rfl⟩⟩, ?_, ?_⟩
    · rintro align' memo ⟨⟩
      exact haccepted.finalAlign
    · rintro rejection memo ⟨⟩
  | error rejection next =>
    have hdefect := (hresult ▸ hexplained).1
    refine ⟨⟨?_, fun hall => absurd hdefect (hall.not_hasDefect rejection)⟩, ?_, ?_⟩
    · rintro ⟨align, memo, ⟨⟩⟩
    · rintro align memo ⟨⟩
    · rintro rejection' memo ⟨⟩
      exact hdefect

/-- Two types that contain each other, one as a base and one as a member, beside a sound type and
one that refers to all. -/
def entangled : TypeTable :=
  { entries := #[
      ⟨"Whole", some { name := "Whole", bases := [{ type := ⟨1⟩ }] }⟩,
      ⟨"Part", some
        { name := "Part"
          fields := [{ name := "size", type := .int }, { name := "whole", type := .composite ⟨0⟩ }] }⟩,
      ⟨"Sound", some { name := "Sound", fields := [{ name := "value", type := .double }] }⟩,
      ⟨"All", some
        { name := "All", bases := [{ type := ⟨2⟩ }]
          fields := [{ name := "whole", type := .composite ⟨0⟩ }] }⟩] }

/-- An earlier rejection leaves nothing behind that would hide the cycle, and what is remembered of
the sound type is its alignment. -/
theorem accept_iff_acceptable_entangled :
    let memo := entangled.acceptedAfter .lp64 [⟨0⟩, ⟨2⟩]
    (entangled.accept .lp64 ⟨3⟩).run memo =
        .error (.cyclicHierarchy "Whole") { entries := [(⟨2⟩, 8)] } ∧
      entangled.HasDefect .lp64 ⟨3⟩ (.cyclicHierarchy "Whole") ∧
      ¬ entangled.Acceptable .lp64 ⟨3⟩ ∧
      (entangled.accept .lp64 ⟨2⟩).run memo = .ok 8 { entries := [(⟨2⟩, 8)] } ∧
      entangled.Acceptable .lp64 ⟨2⟩ ∧ entangled.FinalAlign .lp64 ⟨2⟩ 8 := by
  intro memo
  have hwalk : (entangled.accept .lp64 ⟨3⟩).run memo =
      .error (.cyclicHierarchy "Whole") { entries := [(⟨2⟩, 8)] } := by rfl
  have hsound : (entangled.accept .lp64 ⟨2⟩).run memo = .ok 8 { entries := [(⟨2⟩, 8)] } := by rfl
  obtain ⟨haccepts, -, hrejects⟩ := accept_iff_acceptable entangled .lp64 [⟨0⟩, ⟨2⟩] ⟨3⟩
  obtain ⟨haccepts', haligns, -⟩ := accept_iff_acceptable entangled .lp64 [⟨0⟩, ⟨2⟩] ⟨2⟩
  refine ⟨hwalk, hrejects _ _ hwalk, fun hall => ?_, hsound, haccepts'.mp ⟨8, _, hsound⟩,
    haligns 8 _ hsound⟩
  obtain ⟨align, next, hok⟩ := haccepts.mpr hall
  cases hwalk.symm.trans hok

end TypeTable

end ObjectLayout
