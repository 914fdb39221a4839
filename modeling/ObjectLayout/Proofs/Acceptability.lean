import ObjectLayout.Proofs.LocalRules

/-!
# Acceptable types

What acceptance decides, said without a walk: every type that the requested one reaches is
defined, lies on no cycle, is well formed on its own, and is not forced below the alignment that
its parts require. `Accepted` says the same by a derivation over the graph, which is what proofs
about accepted types go by, and fixes the alignment. A rejection is explained when the breach
that it names is found at a reachable type.
-/
namespace ObjectLayout.TypeTable

/-- The alignment of a type, by recursion over the types that it refers to. -/
inductive FinalAlign (table : TypeTable) (target : Target) : TypeId → Nat → Prop
  | intro {id : TypeId} {c : Composite} (align : TypeId → Nat) (defined : table.get? id = some c)
      (parts : ∀ part ∈ c.references, table.FinalAlign target part (align part)) :
      table.FinalAlign target id (c.finalAlign (c.requiredAlign target align))

/-- The alignment that the parts of a type require of it. -/
def Requires (table : TypeTable) (target : Target) (id : TypeId) (required : Nat) : Prop :=
  ∃ c align, table.get? id = some c ∧
    (∀ part ∈ c.references, table.FinalAlign target part (align part)) ∧
    required = c.requiredAlign target align

/-- Every reachable type is defined, lies on no cycle and is sound. -/
def Acceptable (table : TypeTable) (target : Target) (id : TypeId) : Prop :=
  ∀ part, table.Reaches id part → ∃ c, table.get? part = some c ∧ ¬ table.Below part part ∧
    c.WellFormed target ∧
    ∀ forced ∈ c.forcedAlign, ∃ required ≤ forced, table.Requires target part required

/-- The rejection names a breach found at a type that `id` reaches. -/
def HasDefect (table : TypeTable) (target : Target) (id : TypeId) : Rejection → Prop
  | .unknownType part => table.Reaches id part ∧ table.entry? part = none
  | .undefinedType part name => table.Reaches id part ∧ table.entry? part = some ⟨name, none⟩
  | .cyclicHierarchy name => ∃ part c, table.Reaches id part ∧ table.get? part = some c ∧
      c.name = name ∧ table.Below part part
  | .forcedAlignmentTooSmall name forced required => ∃ part c, table.Reaches id part ∧
      table.get? part = some c ∧ c.name = name ∧ c.WellFormed target ∧
      c.forcedAlign = some forced ∧ table.Requires target part required ∧ forced < required
  | rejection => ∃ part c, table.Reaches id part ∧ table.get? part = some c ∧
      c.HasDefect target rejection

/-- A type that is accepted, with its alignment. -/
inductive Accepted (table : TypeTable) (target : Target) : TypeId → Nat → Prop
  | intro {id : TypeId} {c : Composite} (align : TypeId → Nat) (defined : table.get? id = some c)
      (wellFormed : c.WellFormed target)
      (parts : ∀ part ∈ c.references, table.Accepted target part (align part))
      (forced : ∀ forced ∈ c.forcedAlign, c.requiredAlign target align ≤ forced) :
      table.Accepted target id (c.finalAlign (c.requiredAlign target align))

variable {table : TypeTable} {target : Target} {id part : TypeId} {a b : Nat}

theorem FinalAlign.unique (h : table.FinalAlign target id a) (h' : table.FinalAlign target id b) :
    a = b := by
  induction h generalizing b with
  | @intro id c align defined parts ih =>
    cases h' with
    | @intro _ c' align' defined' parts' =>
      obtain rfl : c = c' := Option.some.inj (defined.symm.trans defined')
      rw [Composite.requiredAlign_congr fun part hp => ih part hp (parts' part hp)]

theorem Requires.unique (h : table.Requires target id a) (h' : table.Requires target id b) :
    a = b := by
  obtain ⟨c, align, defined, parts, rfl⟩ := h
  obtain ⟨c', align', defined', parts', rfl⟩ := h'
  obtain rfl : c = c' := Option.some.inj (defined.symm.trans defined')
  exact Composite.requiredAlign_congr fun part hp => (parts part hp).unique (parts' part hp)

namespace Accepted

lemma finalAlign (h : table.Accepted target id a) : table.FinalAlign target id a := by
  induction h with
  | intro align defined _ _ _ ih => exact .intro align defined ih

theorem unique (h : table.Accepted target id a) (h' : table.Accepted target id b) : a = b :=
  h.finalAlign.unique h'.finalAlign

lemma get? (h : table.Accepted target id a) :
    ∃ c, table.get? id = some c ∧ c.WellFormed target := by
  cases h with
  | intro _ defined wellFormed => exact ⟨_, defined, wellFormed⟩

lemma wellFormed {c : Composite} (h : table.Accepted target id a) (hc : table.get? id = some c) :
    c.WellFormed target := by
  obtain ⟨c', hc', hwell⟩ := h.get?
  obtain rfl : c = c' := Option.some.inj (hc.symm.trans hc')
  exact hwell

lemma refers (h : table.Accepted target id a) (hp : table.Refers id part) :
    ∃ b, table.Accepted target part b := by
  cases h with
  | intro align defined _ parts => exact ⟨_, parts part ((refers_iff defined).mp hp)⟩

lemma reaches (h : table.Accepted target id a) (hp : table.Reaches id part) :
    ∃ b, table.Accepted target part b := by
  induction hp with
  | refl => exact ⟨a, h⟩
  | tail _ hstep ih =>
    obtain ⟨b, hb⟩ := ih
    exact hb.refers hstep

/-- The derivation of an accepted type follows its references, so no chain of them is endless. -/
lemma acyclic (h : table.Accepted target id a) : table.Acyclic id := by
  induction h with
  | intro align defined _ _ _ ih =>
    exact Acc.intro _ fun part hp => ih part ((refers_iff defined).mp hp)

theorem acceptable (h : table.Accepted target id a) : table.Acceptable target id := by
  intro part hreach
  obtain ⟨b, hb⟩ := h.reaches hreach
  have hloop := hb.acyclic.not_below
  cases hb with
  | @intro _ c align defined wellFormed parts forced =>
    refine ⟨c, defined, hloop, wellFormed, fun bytes hbytes => ?_⟩
    exact ⟨_, forced bytes hbytes, c, align, defined, fun p hp => (parts p hp).finalAlign, rfl⟩

end Accepted

/-- An acceptable type gives no reason to reject it. -/
theorem Acceptable.not_hasDefect (h : table.Acceptable target id) (rejection : Rejection) :
    ¬ table.HasDefect target id rejection := by
  intro hd
  have hlocal : ¬ ∃ part c, table.Reaches id part ∧ table.get? part = some c ∧
      c.HasDefect target rejection := by
    rintro ⟨part, c, hreach, hc, hdefect⟩
    obtain ⟨c', hc', -, hwell, -⟩ := h part hreach
    obtain rfl : c = c' := Option.some.inj (hc.symm.trans hc')
    exact hwell.not_hasDefect rejection hdefect
  cases rejection with
  | unknownType part =>
    obtain ⟨c, hc, -⟩ := h part hd.1
    simp [TypeTable.get?, hd.2] at hc
  | undefinedType part name =>
    obtain ⟨c, hc, -⟩ := h part hd.1
    simp [TypeTable.get?, hd.2] at hc
  | cyclicHierarchy name =>
    obtain ⟨part, c, hreach, -, -, hloop⟩ := hd
    obtain ⟨-, -, hnone, -⟩ := h part hreach
    exact hnone hloop
  | forcedAlignmentTooSmall name forced required =>
    obtain ⟨part, c, hreach, hc, -, -, hforced, hrequired, hlt⟩ := hd
    obtain ⟨c', hc', -, -, hall⟩ := h part hreach
    obtain rfl : c = c' := Option.some.inj (hc.symm.trans hc')
    obtain ⟨required', hle, hrequired'⟩ := hall forced hforced
    exact absurd (hrequired.unique hrequired' ▸ hle) (Nat.not_le.mpr hlt)
  | _ => exact hlocal hd

/-- A breach by a type itself is one that it reaches. -/
lemma HasDefect.of_local {c : Composite} {rejection : Rejection} (hc : table.get? id = some c)
    (hd : c.HasDefect target rejection) : table.HasDefect target id rejection := by
  cases rejection with
  | unknownType => obtain ⟨_, _, hd⟩ | hd := hd <;> exact hd.elim
  | undefinedType => obtain ⟨_, _, hd⟩ | hd := hd <;> exact hd.elim
  | cyclicHierarchy => obtain ⟨_, _, hd⟩ | hd := hd <;> exact hd.elim
  | forcedAlignmentTooSmall => obtain ⟨_, _, hd⟩ | hd := hd <;> exact hd.elim
  | _ => exact ⟨id, c, .refl table id, hc, hd⟩

/-- A breach below a type that `id` refers to is one that `id` reaches. -/
lemma HasDefect.of_refers {rejection : Rejection} (h : table.Refers id part)
    (hd : table.HasDefect target part rejection) : table.HasDefect target id rejection := by
  have hlift : ∀ other, table.Reaches part other → table.Reaches id other :=
    fun other => Relation.ReflTransGen.head h
  cases rejection with
  | unknownType => exact ⟨hlift _ hd.1, hd.2⟩
  | undefinedType => exact ⟨hlift _ hd.1, hd.2⟩
  | _ =>
    obtain ⟨other, c, hreach, hd⟩ := hd
    exact ⟨other, c, hlift other hreach, hd⟩

end ObjectLayout.TypeTable
