import Mathlib.Data.Finset.Card
import ObjectLayout.CachedLayouts
import ObjectLayout.Proofs.AcceptanceWalk
import ObjectLayout.Proofs.Construction
import ObjectLayout.Proofs.VerdictWalk

/-!
# The placement walk

For a type on no endless chain of references the placement follows from a recursion over the types
below it, defined here without a memory. A planner places accepted types oldest first, so it finds
everything below a type placed already and gives what the recursion gives. Its answers therefore do
not depend on the questions before, and a cache of answers that were worked out one by one answers
the same.
-/
namespace ObjectLayout

namespace TypeTable

/-- Whether a type is plain old data, worked out on its own. -/
def isPod (table : TypeTable) (id : TypeId) : Bool := ((table.classify id).run {}).1.isPod

/-- The placement of a type, by recursion over the types below it. -/
inductive PlacedAs (table : TypeTable) (target : Target) : TypeId → Except Rejection Placed → Prop
  | intro {id : TypeId} {c : Composite} (part : TypeId → Except Rejection Placed)
      (defined : table.get? id = some c)
      (parts : ∀ other, table.Below id other → table.PlacedAs target other (part other)) :
      table.PlacedAs target id (c.place target table.isPod part)

variable {table : TypeTable} {target : Target} {id part : TypeId}
  {answer answer' : Except Rejection Placed} {placed : Placed}

namespace PlacedAs

lemma get? (h : table.PlacedAs target id answer) : ∃ c, table.get? id = some c := by
  cases h with
  | intro _ defined _ => exact ⟨_, defined⟩

/-- A type that is placed has been put together from the placements of the types below it. -/
lemma construction (h : table.PlacedAs target id (.ok placed)) :
    ∃ c part, table.get? id = some c ∧
      (∀ other, table.Below id other → table.PlacedAs target other (part other)) ∧
      Nonempty (Composite.Construction target table.isPod part c placed) := by
  generalize hanswer : (Except.ok placed : Except Rejection Placed) = answer at h
  cases h with
  | @intro _ c part defined parts =>
    exact ⟨c, part, defined, parts, Composite.exists_construction hanswer.symm⟩

/-- Induction over the types below a placed one, with the steps of each placement. -/
@[elab_as_elim]
theorem ok_induction {motive : ∀ id placed, table.PlacedAs target id (.ok placed) → Prop}
    (h : table.PlacedAs target id (.ok placed))
    (step : ∀ {id : TypeId} {placed : Placed} {c : Composite}
      {part : TypeId → Except Rejection Placed} (h : table.PlacedAs target id (.ok placed))
      (_ : table.get? id = some c)
      (parts : ∀ other, table.Below id other → table.PlacedAs target other (part other))
      (_ : Composite.Construction target table.isPod part c placed)
      (_ : ∀ other (hbelow : table.Below id other) p (hp : part other = .ok p),
        motive other p (hp ▸ parts other hbelow)), motive id placed h) :
    motive id placed h := by
  -- For the recursion the answer has to be any, with success as an equation beside it.
  have hall : ∀ id answer (h : table.PlacedAs target id answer) placed
      (heq : answer = .ok placed), motive id placed (heq ▸ h) := by
    intro id answer h
    induction h with
    | intro part defined parts ih =>
      intro placed heq
      obtain ⟨steps⟩ := Composite.exists_construction heq
      exact step _ defined parts steps fun other hbelow p hp => ih other hbelow p hp
  exact hall id _ h placed rfl

/-- The shared bases of a placed type lie below it. -/
lemma below_of_mem_shared (h : table.PlacedAs target id (.ok placed)) {shared : TypeId}
    (hmem : shared ∈ placed.shared) : table.Below id shared := by
  induction h using ok_induction with
  | step h defined parts steps ih =>
    obtain ⟨base, hbase, p, hp, hcase⟩ := (Composite.mem_hoisted steps.collected).mp hmem
    have hrefers : table.Refers _ base.type :=
      (refers_iff defined).mpr (Composite.mem_references_of_base hbase)
    rcases hcase with ⟨-, rfl⟩ | hshared
    · exact hrefers.below
    · exact hrefers.below.trans (ih base.type hrefers.below p hp hshared)

/-- A placement takes from what the type refers to and from its shared bases, which lie below. -/
lemma below_of_part {c : Composite} (h : table.PlacedAs target id (.ok placed))
    (hc : table.get? id = some c) {other : TypeId}
    (hother : other ∈ c.references ∨ other ∈ placed.shared) : table.Below id other :=
  hother.elim (fun href => ((refers_iff hc).mpr href).below) h.below_of_mem_shared

/-- What a layout places as a base lies below the type. -/
lemma below_of_mem_bases (h : table.PlacedAs target id (.ok placed)) {base : PlacedBase}
    (hmem : base ∈ placed.layout.bases) : table.Below id base.type := by
  obtain ⟨c, part, defined, -, ⟨steps⟩⟩ := h.construction
  rcases steps.mem_bases hmem with ⟨owned, howned, heq⟩ | hhoisted
  · exact heq ▸ h.below_of_part defined (Or.inl (Composite.mem_references_of_ownedBase howned))
  · exact h.below_of_mem_shared hhoisted

theorem unique (h : table.PlacedAs target id answer) (h' : table.PlacedAs target id answer') :
    answer = answer' := by
  induction h generalizing answer' with
  | @intro id c part defined parts ih =>
    cases h' with
    | @intro _ c' part' defined' parts' =>
      obtain rfl : c = c' := Option.some.inj (defined.symm.trans defined')
      have hsame : ∀ other, table.Below id other → part other = part' other :=
        fun other hbelow => ih other hbelow (parts' other hbelow)
      have hbelow : ∀ other ∈ c.references, table.Below id other :=
        fun other hmem => ((refers_iff defined).mpr hmem).below
      refine Composite.place_congr (fun other hmem => hsame other (hbelow other hmem)) ?_
        fun _ _ _ => rfl
      intro other hmem p hp shared hshared
      have hplaced := hp ▸ parts other (hbelow other hmem)
      exact hsame shared ((hbelow other hmem).trans (hplaced.below_of_mem_shared hshared))

end PlacedAs

end TypeTable

namespace Placements

variable {table : TypeTable} {target : Target} {id : TypeId} {align : Nat}
  {placements : Placements} {entries new : List (TypeId × Nat)}

/-- The placements are those of the entries, each as the recursion gives it, and the memory of
verdicts is right and knows what placement may ask for. -/
structure Sound (table : TypeTable) (target : Target) (entries : List (TypeId × Nat))
    (placements : Placements) : Prop where
  placed : ∀ id answer, placements.placed.get? id = some answer → table.PlacedAs target id answer
  keys : ∀ id, (∃ answer, placements.placed.get? id = some answer) ↔ id ∈ entries.map Prod.fst
  judged : target.tailPadding = .reuse → ∀ id ∈ entries.map Prod.fst,
    (placements.traits.verdicts.get? id).isSome
  traits : table.TraitsSound placements.traits

lemma Sound.empty (table : TypeTable) (target : Target) : Sound table target [] {} := by
  refine ⟨?_, ?_, by simp, .empty table⟩
  · intro id answer hget
    cases hget
  · intro id
    simp [Memo.get?]

lemma learn_remembers (target : Target) (hacyclic : table.Acyclic id)
    (htraits : table.TraitsSound placements.traits) :
    table.Remembers placements.traits (placements.learn table target id) ∧
      (target.tailPadding = .reuse →
        ((placements.learn table target id).verdicts.get? id).isSome) := by
  unfold learn
  cases target.tailPadding with
  | keep => exact ⟨.refl htraits, by simp⟩
  | reuse =>
    have hclassify := table.classify_sound hacyclic htraits
    exact ⟨hclassify.2.1, fun _ => hclassify.2.2⟩

/-- A remembered verdict is the verdict worked out on its own. -/
lemma knowsPod_eq {memory : TraitMemory} (hacyclic : table.Acyclic id)
    (htraits : table.TraitsSound memory) (hknown : (memory.verdicts.get? id).isSome) :
    memory.knowsPod id = table.isPod id := by
  obtain ⟨verdict, hget⟩ := Option.isSome_iff_exists.mp hknown
  have hverdict := htraits.verdicts id verdict hacyclic hget
  have hfresh := (table.classify_sound hacyclic (.empty table)).1
  rw [TraitMemory.knowsPod, hget, hverdict.unique hfresh]
  rfl

/-- The next accepted type finds all that it needs. -/
theorem Sound.add (h : Sound table target entries placements)
    (horder : table.AcceptedInOrder target ((id, align) :: entries)) :
    Sound table target ((id, align) :: entries) (placements.add table target id) := by
  have haccepted := horder.accepted_of_mem List.mem_cons_self
  obtain ⟨c, hc, -⟩ := haccepted.get?
  have hacyclic := haccepted.acyclic
  obtain ⟨hlearn, hjudged⟩ := learn_remembers target hacyclic h.traits
  have hparts : ∀ other, table.Below id other →
      table.PlacedAs target other (placements.part table other) := by
    intro other hbelow
    obtain ⟨answer, hget⟩ := (h.keys other).mpr (horder.mem_of_below hbelow)
    rw [part, hget]
    exact h.placed other answer hget
  have hpod : c.place target (placements.learn table target id).knowsPod (placements.part table) =
      c.place target table.isPod (placements.part table) := by
    refine Composite.place_congr (fun _ _ => rfl) (fun _ _ _ _ _ _ => rfl) ?_
    intro hreuse other hmem
    have hrefers := (TypeTable.refers_iff hc).mpr hmem
    exact knowsPod_eq (hacyclic.refers hrefers) hlearn.sound
      (hlearn.grows other (h.judged hreuse other (horder.mem_of_below hrefers.below)))
  have hadd : placements.add table target id =
      { placed := placements.placed.insert id
          (c.place target table.isPod (placements.part table))
        traits := placements.learn table target id } := by
    rw [Placements.add, hc, ← hpod]
  rw [hadd]
  refine ⟨?_, ?_, ?_, hlearn.sound⟩
  · intro other answer hget
    rw [Memo.get?_insert] at hget
    split at hget
    · next heq =>
      cases hget
      exact heq ▸ .intro _ hc hparts
    · exact h.placed other answer hget
  · intro other
    rw [Memo.get?_insert, List.map_cons, List.mem_cons, ← h.keys other]
    by_cases heq : id = other
    · simp [heq]
    · simp [heq, Ne.symm heq]
  · intro hreuse other hmem
    rcases List.mem_cons.mp hmem with rfl | hmem
    · exact hjudged hreuse
    · exact hlearn.grows other (h.judged hreuse other hmem)

/-- Catching up places exactly the entries that are missing. -/
theorem Sound.catchUp (h : Sound table target entries placements)
    (horder : table.AcceptedInOrder target (new ++ entries)) :
    Sound table target (new ++ entries) (placements.catchUp table target (new ++ entries)) := by
  induction new with
  | nil =>
    cases entries with
    | nil => exact h
    | cons entry older =>
      obtain ⟨answer, hget⟩ := (h.keys entry.1).mpr List.mem_cons_self
      simpa [Placements.catchUp, hget] using h
  | cons entry new ih =>
    have hrest : table.AcceptedInOrder target (new ++ entries) := horder.tail
    cases horder with
    | @cons id align _ _ accepted below fresh =>
      have hmissing : placements.placed.get? id = none := by
        rw [Option.eq_none_iff_forall_ne_some]
        intro answer hget
        have hold : id ∈ entries.map Prod.fst := (h.keys id).mp ⟨answer, hget⟩
        exact fresh (List.map_subset _ (List.subset_append_right new entries) hold)
      have hstep : placements.catchUp table target ((id, align) :: new ++ entries) =
          (placements.catchUp table target (new ++ entries)).add table target id := by
        rw [List.cons_append, Placements.catchUp, hmissing]
        rfl
      rw [hstep]
      exact (ih hrest).add (hrest.cons accepted below fresh)

end Placements

namespace Planner

variable {table : TypeTable} {target : Target} {planner planner' : Planner}

/-- A state that questions can leave behind: what is placed are the oldest accepted types. -/
structure Sound (table : TypeTable) (target : Target) (planner : Planner) : Prop where
  sameTable : planner.table = table
  sameTarget : planner.target = target
  inOrder : table.AcceptedInOrder target planner.accepted.entries
  placements : ∃ new entries, planner.accepted.entries = new ++ entries ∧
    planner.placements.Sound table target entries

lemma Sound.new (table : TypeTable) (target : Target) : (new table target).Sound table target :=
  ⟨rfl, rfl, .nil, [], [], rfl, .empty table target⟩

/-- What one question gives: the rejection of the acceptance walk, or the layout of the placement
that the recursion gives. -/
def Answers (table : TypeTable) (target : Target) (id : TypeId) :
    Except Rejection Nat → Except Rejection Layout → Prop
  | .error rejection, layout => layout = .error rejection
  | .ok align, layout => table.Accepted target id align ∧
      ∃ placed, table.PlacedAs target id placed ∧ layout = placed.map Placed.layout

/-- One question keeps the state sound. -/
theorem Sound.layout (h : planner.Sound table target) (id : TypeId) :
    ((Planner.layout id).run planner).2.Sound table target ∧
      Answers table target id
        (TypeTable.answer ((table.accept target id).run planner.accepted))
        ((Planner.layout id).run planner).1 := by
  obtain ⟨rfl, rfl, horder, new, entries, hentries, hplacements⟩ := h
  have hexplained := TypeTable.accept_explained horder id
  have hrun : (Planner.layout id).run planner = Planner.layout id planner := rfl
  rw [hrun, Planner.layout]
  cases hresult : (planner.table.accept planner.target id).run planner.accepted with
  | error rejection accepted =>
    obtain ⟨-, hnext, newer, hnewer, -⟩ := hresult ▸ hexplained
    refine ⟨⟨rfl, rfl, hnext, newer ++ new, entries, ?_, hplacements⟩, rfl⟩
    rw [hnewer, hentries, List.append_assoc]
  | ok align accepted =>
    obtain ⟨haccepted, hget, hnext, newer, hnewer, -⟩ := hresult ▸ hexplained
    have hnew : accepted.entries = (newer ++ new) ++ entries := by
      rw [hnewer, hentries, List.append_assoc]
    have hplaced := hplacements.catchUp (hnew ▸ hnext)
    rw [← hnew] at hplaced
    refine ⟨⟨rfl, rfl, hnext, [], accepted.entries, rfl, hplaced⟩, haccepted, ?_⟩
    obtain ⟨answer, hanswer⟩ := (hplaced.keys id).mpr (Memo.mem_keys_iff.mpr ⟨align, hget⟩)
    refine ⟨answer, hplaced.placed id answer hanswer, ?_⟩
    dsimp only
    rw [Placements.part, hanswer]

/-- Two sound states give the same answer, rejections included. -/
theorem Sound.layout_eq (h : planner.Sound table target) (h' : planner'.Sound table target)
    (id : TypeId) :
    ((Planner.layout id).run planner).1 = ((Planner.layout id).run planner').1 := by
  have hanswers := (h.layout id).2
  have hanswers' := (h'.layout id).2
  rw [TypeTable.answer_accept h.inOrder h'.inOrder id] at hanswers
  cases hresult : TypeTable.answer ((table.accept target id).run planner'.accepted) with
  | error rejection =>
    rw [hresult] at hanswers hanswers'
    exact hanswers.trans hanswers'.symm
  | ok align =>
    rw [hresult] at hanswers hanswers'
    obtain ⟨-, placed, hplaced, hlayout⟩ := hanswers
    obtain ⟨-, placed', hplaced', hlayout'⟩ := hanswers'
    rw [hlayout, hlayout', hplaced.unique hplaced']

/-- A run of questions answers each as if it were the only one, and the state stays sound. -/
theorem Sound.run (h : planner.Sound table target) (ids : List TypeId) :
    ((ids.mapM Planner.layout).run planner).1 = ids.map (table.layout target) ∧
      ((ids.mapM Planner.layout).run planner).2.Sound table target := by
  have hstep : ∀ id ∈ ids, ∀ planner : Planner, planner.Sound table target →
      (Planner.layout id planner).1 = table.layout target id ∧
        (Planner.layout id planner).2.Sound table target :=
    fun id _ planner hplanner => ⟨hplanner.layout_eq (.new table target) id,
      (hplanner.layout id).1⟩
  exact mapM_eq_map hstep h

end Planner

namespace CachedLayouts

variable {table : TypeTable} {target : Target} {cache : CachedLayouts} {asked : Finset TypeId}

/-- The cache holds one answer for each type of `asked`, the one worked out on its own. -/
structure Sound (table : TypeTable) (target : Target) (asked : Finset TypeId)
    (cache : CachedLayouts) : Prop where
  sameTable : cache.table = table
  sameTarget : cache.target = target
  answers : ∀ id answer, cache.answers.get? id = some answer → answer = table.layout target id
  keys : (cache.answers.entries.map Prod.fst).toFinset = asked
  nodup : (cache.answers.entries.map Prod.fst).Nodup

lemma Sound.new (table : TypeTable) (target : Target) :
    (new table target).Sound table target ∅ := by
  refine ⟨rfl, rfl, ?_, rfl, List.nodup_nil⟩
  intro id answer hget
  cases hget

/-- The count is the number of types asked for. -/
lemma Sound.computed (h : cache.Sound table target asked) : cache.computed = asked.card := by
  rw [← h.keys, List.toFinset_card_of_nodup h.nodup, List.length_map]
  rfl

/-- One question answers as if nothing were kept, and is asked for from then on. -/
theorem Sound.layout (h : cache.Sound table target asked) (id : TypeId) :
    ((CachedLayouts.layout id).run cache).1 = table.layout target id ∧
      ((CachedLayouts.layout id).run cache).2.Sound table target (insert id asked) := by
  obtain ⟨rfl, rfl, hanswers, rfl, hnodup⟩ := h
  have hrun : (CachedLayouts.layout id).run cache = CachedLayouts.layout id cache := rfl
  rw [hrun, CachedLayouts.layout]
  cases hget : cache.answers.get? id with
  | some answer =>
    have hmem := List.mem_toFinset.mpr (Memo.mem_keys_iff.mpr ⟨answer, hget⟩)
    rw [Finset.insert_eq_of_mem hmem]
    exact ⟨hanswers id answer hget, rfl, rfl, hanswers, rfl, hnodup⟩
  | none =>
    have hmissing : id ∉ cache.answers.entries.map Prod.fst := by
      rw [Memo.mem_keys_iff, hget]
      simp
    refine ⟨rfl, rfl, rfl, ?_, List.toFinset_cons, List.nodup_cons.mpr ⟨hmissing, hnodup⟩⟩
    intro other answer hother
    rw [Memo.get?_insert] at hother
    split at hother
    · next heq =>
      cases hother
      rw [heq]
    · exact hanswers other answer hother

/-- A run of questions answers each as if it were the only one. -/
theorem Sound.run (h : cache.Sound table target asked) (ids : List TypeId) :
    ((ids.mapM CachedLayouts.layout).run cache).1 = ids.map (table.layout target) ∧
      ((ids.mapM CachedLayouts.layout).run cache).2.Sound table target (ids.toFinset ∪ asked) := by
  induction ids generalizing cache asked with
  | nil =>
    rw [List.toFinset_nil, Finset.empty_union]
    exact ⟨rfl, h⟩
  | cons id ids ih =>
    obtain ⟨hvalue, hnext⟩ := h.layout id
    obtain ⟨hrest, hlast⟩ := ih hnext
    rw [Finset.union_insert, ← Finset.insert_union, ← List.toFinset_cons] at hlast
    rw [List.mapM_cons]
    refine ⟨?_, hlast⟩
    rw [List.map_cons, ← hvalue, ← hrest]
    rfl

end CachedLayouts

namespace TypeTable

variable {table : TypeTable} {target : Target} {id part : TypeId} {layout : Layout}

/-- However a sequence of questions is answered, by a planner that keeps what it has worked out, by
a cache, or each on its own, the answers are the same, rejections included; and the cache works out
one answer for each type asked for. -/
theorem layouts_independent_of_history (table : TypeTable) (target : Target) (ids : List TypeId) :
    ((ids.mapM Planner.layout).run (.new table target)).1 = ids.map (table.layout target) ∧
      ((ids.mapM CachedLayouts.layout).run (.new table target)).1 =
        ids.map (table.layout target) ∧
      ((ids.mapM CachedLayouts.layout).run (.new table target)).2.computed =
        ids.toFinset.card := by
  have hplanner := (Planner.Sound.new table target).run ids
  have hcache := (CachedLayouts.Sound.new table target).run ids
  rw [Finset.union_empty] at hcache
  exact ⟨hplanner.1, hcache.1, hcache.2.computed⟩

/-- What a question gives when nothing has been asked before. -/
lemma layout_answers (table : TypeTable) (target : Target) (id : TypeId) :
    Planner.Answers table target id (answer ((table.accept target id).run {}))
      (table.layout target id) :=
  ((Planner.Sound.new table target).layout id).2

/-- A type with a layout is accepted, and its layout is that of the recursion. -/
theorem layout_eq_ok (h : table.layout target id = .ok layout) :
    ∃ align placed, table.Accepted target id align ∧ table.PlacedAs target id (.ok placed) ∧
      placed.layout = layout := by
  have hanswers := table.layout_answers target id
  rw [h] at hanswers
  cases hresult : answer ((table.accept target id).run {}) with
  | error rejection =>
    rw [hresult] at hanswers
    cases hanswers
  | ok align =>
    rw [hresult] at hanswers
    obtain ⟨haccepted, answer, hplaced, hlayout⟩ := hanswers
    cases answer with
    | error rejection => cases hlayout
    | ok placed => exact ⟨align, placed, haccepted, hplaced, (Except.ok.inj hlayout).symm⟩

/-- An accepted type that is placed has the layout of its placement. -/
theorem layout_of_placedAs {align : Nat} {placed : Placed} (h : table.Accepted target id align)
    (hplaced : table.PlacedAs target id (.ok placed)) :
    table.layout target id = .ok placed.layout := by
  have hanswers := table.layout_answers target id
  rw [h.answer_eq (accept_explained .nil id)] at hanswers
  obtain ⟨-, answer, hplaced', hlayout⟩ := hanswers
  rw [hlayout, ← hplaced.unique hplaced']
  rfl

/-- What a laid-out type refers to has a placement. -/
lemma PlacedAs.refers {align : Nat} {placed : Placed} (h : table.PlacedAs target id (.ok placed))
    (haccepted : table.Accepted target id align) (hrefers : table.Refers id part) :
    ∃ p, table.PlacedAs target part (.ok p) := by
  obtain ⟨c, place, defined, parts, ⟨steps⟩⟩ := h.construction
  obtain ⟨p, hp⟩ := steps.references_ok (haccepted.wellFormed defined) part
    ((refers_iff defined).mp hrefers)
  exact ⟨p, hp ▸ parts part hrefers.below⟩

/-- Everything that a laid-out type reaches has a placement. -/
lemma PlacedAs.reaches {align : Nat} {placed : Placed} (h : table.PlacedAs target id (.ok placed))
    (haccepted : table.Accepted target id align) (hreach : table.Reaches id part) :
    ∃ p, table.PlacedAs target part (.ok p) := by
  induction hreach with
  | refl => exact ⟨placed, h⟩
  | tail hreach hrefers ih =>
    obtain ⟨p, hp⟩ := ih
    obtain ⟨align', haccepted'⟩ := haccepted.reaches hreach
    exact hp.refers haccepted' hrefers

end TypeTable

end ObjectLayout
