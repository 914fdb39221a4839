import ObjectLayout.Proofs.PlacementSafety

/-!
# Placement on demand

A planner places accepted types from below, each once all that it refers to is placed. Here a type
is placed from above: its placement asks for other placements where it comes upon them, keeps those
that succeed and none of those that fail, and asks for a verdict only where the tail padding of an
owned base may be given up. Whatever has been kept so far, an accepted type gets the placement that
the recursion gives. Sequences of questions therefore have the same answers from above and from
below.
-/
namespace ObjectLayout

/-- What is kept between placements: those that succeeded, and what their verdicts needed. -/
structure Regions where
  placed : Memo Placed := {}
  traits : TraitMemory := {}

/-- A run that ends with a rejection, or with none of them when its calls nest too deep. -/
abbrev Placing := EStateM (Option Rejection) Regions

namespace Placing

variable {α β : Type}

/-- A plain run, which keeps nothing. -/
def lift : Except Rejection α → Placing α
  | .ok value => pure value
  | .error rejection => throw (some rejection)

def isPod (table : TypeTable) (id : TypeId) : Placing Bool := fun regions =>
  let (verdict, traits) := (table.classify id).run regions.traits
  .ok verdict.isPod { regions with traits := traits }

/-- The bytes that an owned base takes. -/
def ownedBytes (table : TypeTable) (target : Target) (base : TypeId × Core) : Placing Nat :=
  match target.tailPadding with
  | .keep => pure base.2.size
  | .reuse => return if ← isPod table base.1 then base.2.size else base.2.dataSize

/-- Embed an owned base. What has no data takes no bytes, so nothing is asked of it. -/
def embedOwned (table : TypeTable) (site : Site) (draft : Draft) (base : TypeId × Core) :
    Placing Draft :=
  if base.2.dataSize = 0 then lift (draft.embed site base.1 .owned base.2 0)
  else do
    let start ← lift (draft.frontier.alignFor site base.2.align)
    let bytes ← ownedBytes table site.target base
    let next ← lift (start.advance site bytes)
    return {
      frontier := next
      dispatch := draft.dispatch.or ((base.2.brings .owned).map (start.offset + ·))
      bases := draft.bases ++ [⟨base.1, start.offset, base.2.size, .owned⟩] }

def extent (target : Target) (part : TypeId → Placing Placed) : FieldType → Placing (Nat × Nat)
  | .scalar size align => pure (size, align)
  | .pointer => pure (target.pointerSize, target.pointerSize)
  | .composite id => do
    let placed ← part id
    return (placed.layout.size, placed.layout.align)

/-- Place one group. Only a plain field asks for the extent of its type. -/
def placeGroup (site : Site) (extent : FieldType → Placing (Nat × Nat)) (frontier : Frontier) :
    FieldGroup → Placing (Frontier × List PlacedField)
  | .plain field => do
    let (size, natural) ← extent field.type
    let start ← lift (frontier.alignFor site (max natural (field.forcedAlign.getD 1)))
    let next ← lift (start.advance site size)
    return (next, [⟨field.name, start.offset, size, none⟩])
  | group => lift (group.place site (fun _ => .ok (0, 0)) frontier)

def placeGroups (site : Site) (extent : FieldType → Placing (Nat × Nat)) :
    Frontier → List FieldGroup → Placing (Frontier × List PlacedField)
  | frontier, [] => pure (frontier, [])
  | frontier, group :: rest => do
    let (next, placed) ← placeGroup site extent frontier group
    let (last, others) ← placeGroups site extent next rest
    return (last, placed ++ others)

/-- The placements of the owned bases, in declaration order. -/
def ownedParts (part : TypeId → Placing Placed) (bases : List Base) :
    Placing (List (TypeId × Placed)) :=
  bases.mapM fun base => do
    let placed ← part base.type
    return (base.type, placed)

/-- Collect shared bases, taking the placements of owned bases from those at hand. -/
def collect (part : TypeId → Placing Placed) :
    List Base → List (TypeId × Placed) → List TypeId → Placing (List TypeId)
  | [], _, seen => pure seen
  | base :: bases, owned, seen =>
    if base.isShared then do
      let placed ← part base.type
      collect part bases owned (FirstSeen.noteAll (FirstSeen.note seen base.type) placed.shared)
    else
      match owned with
      | [] => do
        let placed ← part base.type
        collect part bases [] (FirstSeen.noteAll seen placed.shared)
      | (_, placed) :: owned => collect part bases owned (FirstSeen.noteAll seen placed.shared)

/-- Place a type, asking for the placements of other types on the way. -/
def place (table : TypeTable) (target : Target) (part : TypeId → Placing Placed) (c : Composite) :
    Placing Placed := do
  let site := c.site target
  let owned ← ownedParts part c.ownedBases
  let cores := owned.map fun base => (base.1, base.2.core)
  let opened ← lift (c.openSlot target cores)
  let based ← cores.foldlM (embedOwned table site) opened
  let (frontier, fields) ←
    placeGroups site (extent target part) based.frontier (FieldGroup.ofFields c.fields)
  let own := { based with frontier := c.forceAlign frontier }
  let core ← lift (Core.close site own.frontier own.dispatch)
  let shared ← collect part c.bases owned []
  let complete ← shared.foldlM (fun draft type => do
    let placed ← part type
    lift (draft.embed site type .shared placed.core placed.core.size)) own
  let size ← lift (site.require
    (target.roundUp? (max complete.frontier.offset 1) complete.frontier.align))
  return {
    layout := {
      size := size
      align := complete.frontier.align
      dataSize := complete.frontier.offset
      dispatch := complete.dispatch
      fields := fields
      bases := complete.bases }
    core := core
    shared := shared }

end Placing

namespace TypeTable

/-- The placement of a type within a bound on the depth of the calls: the one that is kept, or else
a new one, kept from now on. -/
def placing (table : TypeTable) (target : Target) : Nat → TypeId → Placing Placed
  | 0, _ => throw none
  | room + 1, id => do
    let regions ← get
    match regions.placed.get? id with
    | some placed => return placed
    | none =>
      match table.get? id with
      | none => throw (some (.undefinedType id ((table.name? id).getD "")))
      | some c =>
        let placed ← Placing.place table target (table.placing target room) c
        modify fun regions => { regions with placed := regions.placed.insert id placed }
        return placed

/-- The layout of a type, or why it has none: accept it, then place it from above. -/
def layoutOnDemand (table : TypeTable) (target : Target) (id : TypeId) :
    StateM (Memo Nat × Regions) (Except (Option Rejection) Layout) := fun (accepted, regions) =>
  match (table.accept target id).run accepted with
  | .error rejection accepted => (.error (some rejection), accepted, regions)
  | .ok _ accepted =>
    match (table.placing target (table.size + 1) id).run regions with
    | .error rejection regions => (.error rejection, accepted, regions)
    | .ok placed regions => (.ok placed.layout, accepted, regions)

end TypeTable

/-- What is kept is right, and kept of accepted types only. -/
structure Regions.Sound (table : TypeTable) (target : Target) (regions : Regions) : Prop where
  placed : ∀ id placed, regions.placed.get? id = some placed →
    table.PlacedAs target id (.ok placed) ∧ ∃ align, table.Accepted target id align
  traits : table.TraitsSound regions.traits

lemma Regions.Sound.empty (table : TypeTable) (target : Target) : Sound table target {} := by
  refine ⟨?_, .empty table⟩
  intro id placed hget
  cases hget

namespace Placing

variable {α β : Type} {table : TypeTable} {target : Target}

/-- From whatever is rightly kept the run gives what the plain one gives, and what it keeps then is
right as well. -/
def Agrees (table : TypeTable) (target : Target) (run : Placing α) (plain : Except Rejection α) :
    Prop :=
  ∀ regions, regions.Sound table target →
    ∃ left : Regions, left.Sound table target ∧ run regions = lift plain left

namespace Agrees

variable {run : Placing α} {plain : Except Rejection α}

lemma lift (plain : Except Rejection α) : Agrees table target (Placing.lift plain) plain :=
  fun regions h => ⟨regions, h, rfl⟩

lemma pure (value : α) : Agrees table target (Pure.pure value) (.ok value) := lift (.ok value)

/-- Runs that agree go on to agree where both go on in agreement. -/
lemma bind {next : α → Placing β} {next' : α → Except Rejection β}
    (h : Agrees table target run plain)
    (hnext : ∀ value, plain = .ok value → Agrees table target (next value) (next' value)) :
    Agrees table target (run >>= next) (plain >>= next') := by
  intro regions hregions
  obtain ⟨left, hleft, hrun⟩ := h regions hregions
  have hbind : (run >>= next) regions = (Placing.lift plain >>= next) left := by
    simp only [Bind.bind, EStateM.bind, hrun]
  rw [hbind]
  cases plain with
  | error rejection => exact ⟨left, hleft, rfl⟩
  | ok value => exact hnext value rfl left hleft

lemma mapM {step : α → Placing β} {step' : α → Except Rejection β} {l : List α}
    (h : ∀ x ∈ l, Agrees table target (step x) (step' x)) :
    Agrees table target (l.mapM step) (l.mapM step') := by
  induction l with
  | nil => exact pure []
  | cons x l ih =>
    rw [List.mapM_cons, List.mapM_cons]
    refine (h x List.mem_cons_self).bind fun y _ => ?_
    exact (ih fun z hz => h z (List.mem_cons_of_mem _ hz)).bind fun ys _ => pure (y :: ys)

lemma foldlM {step : β → α → Placing β} {step' : β → α → Except Rejection β} {l : List α}
    (h : ∀ x ∈ l, ∀ b, Agrees table target (step b x) (step' b x)) (b : β) :
    Agrees table target (l.foldlM step b) (l.foldlM step' b) := by
  induction l generalizing b with
  | nil => exact pure b
  | cons x l ih =>
    rw [List.foldlM_cons, List.foldlM_cons]
    exact (h x List.mem_cons_self b).bind fun next _ =>
      ih (fun y hy => h y (List.mem_cons_of_mem _ hy)) next

end Agrees

/-- A verdict is the one worked out on its own. -/
lemma isPod_agrees {id : TypeId} (hacyclic : table.Acyclic id) :
    Agrees table target (isPod table id) (.ok (table.isPod id)) := by
  intro regions h
  obtain ⟨hverdict, hremembers, -⟩ := table.classify_sound hacyclic h.traits
  have hfresh := (table.classify_sound hacyclic (.empty table)).1
  refine ⟨{ regions with traits := ((table.classify id).run regions.traits).2 },
    ⟨h.placed, hremembers.sound⟩, ?_⟩
  rw [TypeTable.isPod, ← hverdict.unique hfresh]
  rfl

lemma ownedBytes_agrees {base : TypeId × Core} (hacyclic : table.Acyclic base.1) :
    Agrees table target (ownedBytes table target base)
      (.ok (Composite.ownedBytes target table.isPod base)) := by
  unfold ownedBytes Composite.ownedBytes
  cases target.tailPadding with
  | keep => exact .pure base.2.size
  | reuse => exact (isPod_agrees hacyclic).bind fun pod _ => .pure _

lemma embedOwned_agrees (site : Site) {base : TypeId × Core} (hacyclic : table.Acyclic base.1)
    (draft : Draft) :
    Agrees table site.target (embedOwned table site draft base)
      (draft.embed site base.1 .owned base.2
        (Composite.ownedBytes site.target table.isPod base)) := by
  unfold embedOwned Draft.embed
  split
  · exact .pure _
  · refine (Agrees.lift _).bind fun start _ => ?_
    exact (ownedBytes_agrees hacyclic).bind fun bytes _ =>
      (Agrees.lift _).bind fun next _ => .pure _

section

variable {part : TypeId → Placing Placed} {part' : TypeId → Except Rejection Placed}
  {c : Composite}

lemma extent_agrees {type : FieldType}
    (h : ∀ id, type = .composite id → Agrees table target (part id) (part' id)) :
    Agrees table target (extent target part type) (Composite.extent target part' type) := by
  cases type with
  | scalar size align => exact .pure _
  | pointer => exact .pure _
  | composite id => exact (h id rfl).bind fun placed _ => .pure _

lemma placeGroup_agrees {site : Site} {extent : FieldType → Placing (Nat × Nat)}
    {extent' : FieldType → Except Rejection (Nat × Nat)} {group : FieldGroup}
    (h : ∀ field ∈ group.fields, Agrees table target (extent field.type) (extent' field.type))
    (frontier : Frontier) :
    Agrees table target (placeGroup site extent frontier group)
      (group.place site extent' frontier) := by
  cases group with
  | plain field =>
    refine (h field (List.mem_singleton_self field)).bind fun size _ => ?_
    exact (Agrees.lift _).bind fun start _ => (Agrees.lift _).bind fun next _ => .pure _
  | marker field => exact .lift _
  | run unit members => exact .lift _

lemma placeGroups_agrees {site : Site} {extent : FieldType → Placing (Nat × Nat)}
    {extent' : FieldType → Except Rejection (Nat × Nat)} {groups : List FieldGroup}
    (h : ∀ field ∈ groups.flatMap FieldGroup.fields,
      Agrees table target (extent field.type) (extent' field.type)) (frontier : Frontier) :
    Agrees table target (placeGroups site extent frontier groups)
      (FieldGroup.placeAll site extent' frontier groups) := by
  induction groups generalizing frontier with
  | nil => exact .pure _
  | cons group groups ih =>
    rw [List.flatMap_cons] at h
    refine (placeGroup_agrees (fun field hmem => h field (List.mem_append_left _ hmem))
      frontier).bind fun placed _ => ?_
    exact (ih (fun field hmem => h field (List.mem_append_right _ hmem)) placed.1).bind
      fun rest _ => .pure _

/-- An owned base brings the placement at hand, which is the one that it is asked for. -/
lemma collect_agrees {bases : List Base} {owned : List (TypeId × Placed)}
    (h : ∀ base ∈ bases, Agrees table target (part base.type) (part' base.type))
    (howned : Cautious.plainOwned part' (bases.filter fun base => !base.isShared) = .ok owned)
    (seen : List TypeId) :
    Agrees table target (collect part bases owned seen) (bases.foldlM (fun seen base => do
      let placed ← part' base.type
      let met := if base.isShared then FirstSeen.note seen base.type else seen
      return FirstSeen.noteAll met placed.shared) seen) := by
  induction bases generalizing owned seen with
  | nil => exact .pure seen
  | cons base bases ih =>
    obtain ⟨hhead, htail⟩ := List.forall_mem_cons.mp h
    rw [List.foldlM_cons]
    unfold collect
    by_cases hshared : base.isShared = true
    · rw [List.filter_cons_of_neg (by simp [hshared])] at howned
      simp only [hshared, if_true, bind_assoc, pure_bind]
      exact hhead.bind fun placed _ => ih htail howned _
    · rw [List.filter_cons_of_pos (by simp [hshared]), Cautious.plainOwned,
        List.mapM_cons] at howned
      obtain ⟨⟨type, placed⟩, hplaced, howned⟩ := bind_eq_ok.mp howned
      obtain ⟨rest, hrest, howned⟩ := bind_eq_ok.mp howned
      obtain ⟨placed', hpart, hplaced⟩ := bind_eq_ok.mp hplaced
      cases howned
      cases hplaced
      simp only [hshared, Bool.false_eq_true, if_false, hpart]
      exact ih htail hrest _

variable {known : TypeId → Prop}
  (hpart : ∀ id, known id → Agrees table target (part id) (part' id))
  (hreferences : ∀ id ∈ c.references, known id)
  (hshared : ∀ id p, known id → part' id = .ok p → ∀ shared ∈ p.shared, known shared)

include hpart hreferences hshared

/-- Where other placements agree, so does the placement that asks for them. -/
theorem place_agrees (hacyclic : ∀ base ∈ c.ownedBases, table.Acyclic base.type) :
    Agrees table target (place table target part c) (c.place target table.isPod part') := by
  have hbases : ∀ base ∈ c.bases, Agrees table target (part base.type) (part' base.type) :=
    fun base hmem => hpart _ (hreferences _ (Composite.mem_references_of_base hmem))
  unfold place Composite.place Composite.placeOwn
  rw [Cautious.ownedCores_eq]
  simp only [bind_assoc, pure_bind]
  refine (Agrees.mapM fun base hmem => ?_).bind fun owned howned => ?_
  · exact (hbases base (List.mem_of_mem_filter hmem)).bind fun placed _ => .pure _
  refine (Agrees.lift _).bind fun opened _ => ?_
  have hcores := Composite.forall_of_lends (P := fun core => table.Acyclic core.1)
    (Cautious.plainOwned_lends howned) fun base hmem _ _ => hacyclic base hmem
  refine (Agrees.foldlM (fun core hmem draft =>
    embedOwned_agrees (c.site target) (hcores core hmem) draft) opened).bind fun based _ => ?_
  refine (placeGroups_agrees (fun field hmem => ?_) _).bind fun fields _ => ?_
  · rw [FieldGroup.flatMap_fields_ofFields] at hmem
    exact extent_agrees fun id htype =>
      hpart id (hreferences id (Composite.mem_references_of_field hmem htype))
  refine (Agrees.lift _).bind fun core _ => ?_
  refine (collect_agrees hbases howned []).bind fun shared hhoisted => ?_
  have hknown := Cautious.known_of_mem_hoisted hreferences hshared hhoisted
  refine (Agrees.foldlM (fun id hmem draft => ?_) _).bind fun complete _ => ?_
  · exact (hpart id (hknown id hmem)).bind fun p _ => .lift _
  exact (Agrees.lift _).bind fun size _ => .pure _

end

end Placing

namespace TypeTable

variable {table : TypeTable} {target : Target} {id : TypeId} {path : List TypeId} {align : Nat}
  {answer : Except Rejection Placed}

/-- A placement that is kept is used again, and one that succeeds is kept. -/
lemma placing_agrees_of_place {room : Nat} {c : Composite}
    (h : table.PlacedAs target id answer) (haccepted : table.Accepted target id align)
    (hc : table.get? id = some c)
    (hplace : Placing.Agrees table target (Placing.place table target (table.placing target room) c)
      answer) :
    Placing.Agrees table target (table.placing target (room + 1) id) answer := by
  intro regions hregions
  rw [placing]
  simp only [bind, EStateM.bind, get, getThe, MonadStateOf.get]
  rw [show (EStateM.get regions : EStateM.Result (Option Rejection) _ _) = .ok regions regions
    from rfl]
  dsimp only
  cases hget : regions.placed.get? id with
  | some placed =>
    obtain rfl := (hregions.placed id placed hget).1.unique h
    exact ⟨regions, hregions, rfl⟩
  | none =>
    obtain ⟨left, hleft, hrun⟩ := hplace regions hregions
    simp only [hc, EStateM.bind, hrun]
    cases answer with
    | error rejection => exact ⟨left, hleft, rfl⟩
    | ok placed =>
      refine ⟨{ left with placed := left.placed.insert id placed }, ⟨?_, hleft.traits⟩, rfl⟩
      intro other answer hother
      rw [Memo.get?_insert] at hother
      split at hother
      · next heq =>
        cases hother
        exact heq ▸ ⟨h, align, haccepted⟩
      · exact hleft.placed other answer hother

/-- With room for the rest of the table, an accepted type is placed from above as by the
recursion. -/
theorem PlacedAs.placing_agrees {room : Nat} (h : table.PlacedAs target id answer)
    (haccepted : table.Accepted target id align) (htrail : table.Trail path id)
    (hroom : path.length + room = table.size + 1) :
    Placing.Agrees table target (table.placing target room id) answer := by
  induction h generalizing path room align with
  | @intro id c part defined parts ih =>
    have hlength := htrail.length_le
    obtain ⟨room, rfl⟩ : ∃ n, room = n + 1 := ⟨room - 1, by omega⟩
    have hpart : ∀ other, table.Below id other →
        Placing.Agrees table target (table.placing target room other) (part other) := by
      intro other hbelow
      obtain ⟨align', haccepted'⟩ := haccepted.reaches hbelow.reaches
      have hnext := htrail.step_below (htrail.not_mem haccepted.acyclic) defined hbelow
      refine ih other hbelow haccepted' hnext ?_
      rw [List.length_cons]
      omega
    have hbelow : ∀ other ∈ c.references, table.Below id other :=
      fun other hmem => ((refers_iff defined).mpr hmem).below
    have hshared : ∀ other p, table.Below id other → part other = .ok p →
        ∀ shared ∈ p.shared, table.Below id shared := fun other p hbelow hp shared hmem =>
      hbelow.trans (PlacedAs.below_of_mem_shared (hp ▸ parts other hbelow) hmem)
    refine placing_agrees_of_place (.intro part defined parts) haccepted defined
      (Placing.place_agrees hpart hbelow hshared fun base hmem => ?_)
    exact haccepted.acyclic.refers
      ((refers_iff defined).mpr (Composite.mem_references_of_ownedBase hmem))

/-- One question from above has the answer of a planner that is asked nothing else, and what it
keeps is right. -/
theorem layoutOnDemand_eq {accepted : Memo Nat} {regions : Regions}
    (haccepted : table.AcceptedInOrder target accepted.entries)
    (hregions : regions.Sound table target) (id : TypeId) :
    (table.layoutOnDemand target id (accepted, regions)).1 =
        (table.layout target id).mapError some ∧
      table.AcceptedInOrder target
        (table.layoutOnDemand target id (accepted, regions)).2.1.entries ∧
      (table.layoutOnDemand target id (accepted, regions)).2.2.Sound table target := by
  have hexplained := accept_explained haccepted id
  have hanswers := table.layout_answers target id
  rw [answer_accept .nil haccepted id] at hanswers
  rw [layoutOnDemand]
  cases hresult : (table.accept target id).run accepted with
  | error rejection next =>
    rw [hresult] at hexplained hanswers
    obtain ⟨-, hnext, -⟩ := hexplained
    rw [hanswers]
    exact ⟨rfl, hnext, hregions⟩
  | ok align next =>
    rw [hresult] at hexplained hanswers
    obtain ⟨hfound, -, hnext, -⟩ := hexplained
    obtain ⟨-, answer, hplaced, hlayout⟩ := hanswers
    obtain ⟨left, hleft, hrun⟩ := hplaced.placing_agrees hfound (.nil table id) (Nat.zero_add _)
      regions hregions
    dsimp only
    rw [EStateM.run, hrun, hlayout]
    cases answer with
    | error rejection => exact ⟨rfl, hnext, hleft⟩
    | ok placed => exact ⟨rfl, hnext, hleft⟩

/-- A run of questions answers each as if it were the only one, and what is kept stays right. -/
theorem layoutOnDemand_run (table : TypeTable) (target : Target) (ids : List TypeId) :
    ((ids.mapM (table.layoutOnDemand target)).run ({}, {})).1 =
        ids.map (fun id => (table.layout target id).mapError some) ∧
      ((ids.mapM (table.layoutOnDemand target)).run ({}, {})).2.2.Sound table target := by
  have hstep : ∀ id ∈ ids, ∀ kept : Memo Nat × Regions,
      table.AcceptedInOrder target kept.1.entries ∧ kept.2.Sound table target →
        (table.layoutOnDemand target id kept).1 = (table.layout target id).mapError some ∧
          table.AcceptedInOrder target (table.layoutOnDemand target id kept).2.1.entries ∧
          (table.layoutOnDemand target id kept).2.2.Sound table target :=
    fun id _ kept hkept => layoutOnDemand_eq hkept.1 hkept.2 id
  obtain ⟨hanswers, -, hregions⟩ :=
    mapM_eq_map hstep (s := ({}, {})) ⟨.nil, .empty table target⟩
  exact ⟨hanswers, hregions⟩

/-- Placed from above or from below, a sequence of questions has the same answers. -/
theorem layouts_on_demand (table : TypeTable) (target : Target) (ids : List TypeId) :
    ((ids.mapM (table.layoutOnDemand target)).run ({}, {})).1 =
      ((ids.mapM Planner.layout).run (.new table target)).1.map (Except.mapError some) := by
  rw [((Planner.Sound.new table target).run ids).1, (table.layoutOnDemand_run target ids).1,
    List.map_map]
  rfl

end TypeTable

end ObjectLayout
