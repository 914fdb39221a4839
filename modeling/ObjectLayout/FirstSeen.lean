/-!
# Lists in first-seen order

Access groups, transitive bases and hoisted shared bases are all listed once each, in the order
in which a walk first meets them. `note` is the one step behind these lists.
-/
namespace ObjectLayout.FirstSeen

variable {α : Type} [DecidableEq α]

/-- Append `x` unless it is already listed. -/
def note (seen : List α) (x : α) : List α :=
  if x ∈ seen then seen else seen ++ [x]

/-- Note every member of `xs`, from the front. -/
def noteAll (seen xs : List α) : List α := xs.foldl note seen

@[simp] theorem mem_note {seen : List α} {x y : α} : y ∈ note seen x ↔ y ∈ seen ∨ y = x := by
  by_cases h : x ∈ seen <;> simp only [note, h, if_true, if_false, List.mem_append,
    List.mem_singleton]
  constructor
  · exact Or.inl
  · rintro (hy | rfl)
    · exact hy
    · exact h

@[simp] theorem mem_noteAll {seen xs : List α} {y : α} :
    y ∈ noteAll seen xs ↔ y ∈ seen ∨ y ∈ xs := by
  induction xs generalizing seen with
  | nil => simp [noteAll]
  | cons x xs ih =>
    have step : noteAll seen (x :: xs) = noteAll (note seen x) xs := rfl
    rw [step, ih, mem_note, List.mem_cons, or_assoc]

theorem nodup_note {seen : List α} (h : seen.Nodup) (x : α) : (note seen x).Nodup := by
  by_cases hx : x ∈ seen
  · simpa [note, hx] using h
  · simp only [note, hx, if_false]
    refine List.nodup_append.2 ⟨h, by simp, ?_⟩
    rintro a ha b hb rfl
    exact hx (List.mem_singleton.1 hb ▸ ha)

theorem nodup_noteAll {seen : List α} (h : seen.Nodup) (xs : List α) :
    (noteAll seen xs).Nodup := by
  induction xs generalizing seen with
  | nil => exact h
  | cons x xs ih => exact ih (nodup_note h x)

end ObjectLayout.FirstSeen
