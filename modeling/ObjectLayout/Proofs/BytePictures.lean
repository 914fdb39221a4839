import Mathlib.Data.List.Induction
import ObjectLayout.Report.ByteMap

/-!
# Pictures of rows

The member table looks for padding with a running maximum over the rows in the order of their
offsets; the byte map paints the rows one over the other. A byte is told as padding by one of them
if and only if it is by the other, since both find the bytes that no row covers. As text, the map is
its characters cut into lines of sixteen and groups of four.
-/
namespace ObjectLayout.Report

section Chunks

variable {α : Type} {width : Nat} {l : List α} {pieces : List (List α)}

/-- The pieces make up the list and have one width; only the last one may be shorter. -/
structure Cut (width : Nat) (l : List α) (pieces : List (List α)) : Prop where
  flatten : pieces.flatten = l
  within : ∀ piece ∈ pieces, piece ≠ [] ∧ piece.length ≤ width
  full : ∀ piece ∈ pieces.dropLast, piece.length = width

/-- The pieces of a list that begin at the multiples of a width. -/
def chunks (width : Nat) (l : List α) : List (List α) :=
  (List.range ((l.length + width - 1) / width)).map fun i => (l.drop (width * i)).take width

lemma chunks_nil (hwidth : 0 < width) : chunks width ([] : List α) = [] := by
  have hnone : (0 + width - 1) / width = 0 := Nat.div_eq_of_lt (by omega)
  rw [chunks, List.length_nil, hnone]
  rfl

lemma chunks_of_ne_nil (hwidth : 0 < width) (h : l ≠ []) :
    chunks width l = l.take width :: chunks width (l.drop width) := by
  have hpos : 0 < l.length := List.length_pos_iff.mpr h
  have hnumber : (l.length + width - 1) / width =
      ((l.drop width).length + width - 1) / width + 1 := by
    rw [List.length_drop]
    rcases Nat.lt_or_ge l.length width with hlt | hge
    · have hrest : (l.length - width + width - 1) / width = 0 := Nat.div_eq_of_lt (by omega)
      have hone : l.length + width - 1 = l.length - 1 + width := by omega
      rw [hrest, hone, Nat.add_div_right _ hwidth, Nat.div_eq_of_lt (by omega)]
    · have hback : l.length - width + width - 1 = l.length - 1 := by omega
      have hone : l.length + width - 1 = l.length - 1 + width := by omega
      rw [hback, hone, Nat.add_div_right _ hwidth]
  rw [chunks, hnumber, List.range_succ_eq_map, List.map_cons, List.map_map, chunks]
  congr 1
  apply List.map_congr_left
  intro i _
  simp only [Function.comp_apply, List.drop_drop, Nat.mul_succ]
  rw [Nat.add_comm]

/-- Induction over the pieces of a list. -/
theorem chunks_induction {motive : List α → Prop} (hwidth : 0 < width) (nil : motive [])
    (step : ∀ l, l ≠ [] → motive (l.drop width) → motive l) (l : List α) : motive l := by
  induction hlength : l.length using Nat.strongRecOn generalizing l with
  | ind n ih =>
    by_cases h : l = []
    · exact h ▸ nil
    · have hpos : 0 < l.length := List.length_pos_iff.mpr h
      exact step l h (ih _ (by rw [List.length_drop]; omega) _ rfl)

lemma cut_chunks (hwidth : 0 < width) (l : List α) : Cut width l (chunks width l) := by
  induction l using chunks_induction hwidth with
  | nil =>
    rw [chunks_nil hwidth]
    exact ⟨rfl, by simp, by simp⟩
  | step l h ih =>
    have hpos : 0 < l.length := List.length_pos_iff.mpr h
    rw [chunks_of_ne_nil hwidth h]
    refine ⟨by rw [List.flatten_cons, ih.flatten, List.take_append_drop],
      List.forall_mem_cons.mpr ⟨⟨?_, ?_⟩, ih.within⟩, ?_⟩
    · rw [← List.length_pos_iff, List.length_take]
      omega
    · exact List.length_take_le _ _
    · intro piece hmem
      by_cases hrest : chunks width (l.drop width) = []
      · rw [hrest] at hmem
        cases hmem
      · rw [List.dropLast_cons_of_ne_nil hrest] at hmem
        rcases List.mem_cons.mp hmem with rfl | hmem
        · have hlong : l.drop width ≠ [] := by
            intro hshort
            rw [hshort] at hrest
            exact hrest (chunks_nil hwidth)
          have := List.length_pos_iff.mpr hlong
          rw [List.length_drop] at this
          rw [List.length_take]
          omega
        · exact ih.full piece hmem

end Chunks

/-- A line of the map reads as the characters: behind the offset of the first one they stand in
groups of four with a blank between them. -/
def Reads (index : Nat) (line : String) (shown : List Char) : Prop :=
  ∃ groups, Cut 4 shown groups ∧
    line = Text.alignRight 4 (toString (16 * index)) ++ "  "
      ++ String.ofList ([' '].intercalate groups)

/-- The lines read as the characters, sixteen a line. -/
def Shows (lines : List String) (shown : List Char) : Prop :=
  ∃ pieces, Cut 16 shown pieces ∧ lines.length = pieces.length ∧
    ∀ i line piece, lines[i]? = some line → pieces[i]? = some piece → Reads i line piece

/-- Characters behind a full group, with a blank before each group. -/
def groupedBehind (line : List Char) : List Char :=
  (line.mapIdx fun index c => if index % 4 = 0 then [' ', c] else [c]).flatten

lemma groupedBehind_of_ne_nil {line : List Char} (h : line ≠ []) :
    groupedBehind line = ' ' :: grouped line := by
  obtain ⟨c, line, rfl⟩ := List.exists_cons_of_ne_nil h
  simp [groupedBehind, grouped, List.mapIdx_cons]

lemma grouped_of_length_le {line : List Char} (h : line.length ≤ 4) : grouped line = line := by
  have hsingle : (line.mapIdx fun index c => if index ≠ 0 ∧ index % 4 = 0 then [' ', c] else [c]) =
      line.map fun c => [c] := by
    apply List.ext_getElem (by simp)
    intro i hi hi'
    rw [List.length_mapIdx] at hi
    have hgroup : ¬ (i ≠ 0 ∧ i % 4 = 0) := by omega
    rw [List.getElem_mapIdx, if_neg hgroup, List.getElem_map]
  rw [grouped, hsingle, ← List.flatMap_def, List.flatMap_singleton']

lemma grouped_append {line rest : List Char} (h : line.length = 4) :
    grouped (line ++ rest) = grouped line ++ groupedBehind rest := by
  have hbehind : ∀ i : Nat, (i + line.length ≠ 0 ∧ (i + line.length) % 4 = 0) = (i % 4 = 0) := by
    intro i
    rw [eq_iff_iff]
    omega
  rw [grouped, List.mapIdx_append, List.flatten_append]
  simp only [hbehind]
  rfl

/-- A line in groups of four is its pieces with a blank between them. -/
lemma grouped_eq_intercalate (line : List Char) :
    grouped line = [' '].intercalate (chunks 4 line) := by
  have hfour : 0 < 4 := by decide
  induction line using chunks_induction hfour with
  | nil =>
    rw [chunks_nil hfour]
    rfl
  | step line h ih =>
    rw [chunks_of_ne_nil hfour h]
    by_cases hrest : line.drop 4 = []
    · have hshort : line.length ≤ 4 := List.drop_eq_nil_iff.mp hrest
      rw [hrest, chunks_nil hfour, grouped_of_length_le hshort, List.take_of_length_le hshort]
      simp [List.intercalate]
    · have hfull : (line.take 4).length = 4 := by
        have := List.length_pos_iff.mpr hrest
        rw [List.length_drop] at this
        rw [List.length_take]
        omega
      have hsplit : grouped line = grouped (line.take 4 ++ line.drop 4) := by
        rw [List.take_append_drop]
      rw [hsplit, grouped_append hfull, grouped_of_length_le (Nat.le_of_eq hfull),
        groupedBehind_of_ne_nil hrest, ih]
      obtain ⟨piece, pieces, hpieces⟩ :=
        List.exists_cons_of_ne_nil (l := chunks 4 (line.drop 4)) (by
          rw [chunks_of_ne_nil hfour hrest]
          exact List.cons_ne_nil _ _)
      rw [hpieces]
      simp [List.intercalate]

variable {size reached position : Nat} {rows : List Row} {row : Row}

lemma Row.covers_iff :
    row.covers position = true ↔ row.offset ≤ position ∧ position < row.stop := by
  simp [Row.covers]

lemma Row.not_covers_iff :
    row.covers position = false ↔ position < row.offset ∨ row.stop ≤ position := by
  rw [← Bool.not_eq_true, Row.covers_iff]
  omega

/-- The map reads as its characters. -/
theorem byteMap_shows (size : Nat) (rows : List Row) :
    Shows (byteMap size rows) (cells size rows) := by
  have hcells : (cells size rows).length = size := by simp [cells]
  refine ⟨chunks 16 (cells size rows), cut_chunks (by decide) _, ?_, ?_⟩
  · simp [byteMap, chunks, hcells]
  · intro i line piece hline hpiece
    refine ⟨chunks 4 piece, cut_chunks (by decide) _, ?_⟩
    rw [byteMap, List.getElem?_map] at hline
    rw [chunks, hcells, List.getElem?_map] at hpiece
    obtain ⟨j, hj, rfl⟩ := Option.map_eq_some_iff.mp hline
    obtain ⟨j', hj', rfl⟩ := Option.map_eq_some_iff.mp hpiece
    obtain rfl : j = j' := Option.some.inj (hj.symm.trans hj')
    obtain ⟨-, rfl⟩ := List.getElem?_eq_some_iff.mp hj
    rw [List.getElem_range, mapLine, grouped_eq_intercalate]

/-- Bytes that a line of the table tells as padding. -/
structure Gap where
  offset : Nat
  size : Nat
  deriving DecidableEq

namespace Gap

def stop (gap : Gap) : Nat := gap.offset + gap.size

def Holds (gap : Gap) (position : Nat) : Prop := gap.offset ≤ position ∧ position < gap.stop

end Gap

/-- The padding that a line tells of. -/
def TableLine.gap? : TableLine → Option Gap
  | .member _ => none
  | .padding offset size | .tailPadding offset size => some ⟨offset, size⟩

/-- The padding that a table tells of, in order. -/
def gaps (lines : List TableLine) : List Gap := lines.filterMap TableLine.gap?

/-- The table tells of the padding up to a row, and then goes on behind the row. -/
lemma gaps_tableFrom_cons (size reached : Nat) (row : Row) (rows : List Row) :
    gaps (tableFrom size reached (row :: rows)) =
      (if reached < row.offset then [⟨reached, row.offset - reached⟩] else []) ++
        gaps (tableFrom size (max reached row.stop) rows) := by
  rw [tableFrom, gaps, List.filterMap_append]
  split <;> rfl

/-- The padding behind the bytes reached is what no row covers. -/
lemma exists_gap_tableFrom_iff (hsorted : rows.Pairwise fun a b => a.offset ≤ b.offset)
    (hsize : ∀ row ∈ rows, row.offset ≤ size) :
    (∃ gap ∈ gaps (tableFrom size reached rows), gap.Holds position) ↔
      (reached ≤ position ∧ position < size) ∧ ∀ row ∈ rows, row.covers position = false := by
  induction rows generalizing reached with
  | nil =>
    by_cases hrest : reached < size
    · simp only [tableFrom, hrest, if_true, gaps, List.filterMap_cons, TableLine.gap?,
        List.filterMap_nil, List.mem_singleton, exists_eq_left, Gap.Holds, Gap.stop]
      simp
      omega
    · simp only [tableFrom, hrest, if_false, gaps, List.filterMap_nil]
      simp
      omega
  | cons row rows ih =>
    obtain ⟨hfirst, hsorted⟩ := List.pairwise_cons.mp hsorted
    obtain ⟨hrow, hsize⟩ := List.forall_mem_cons.mp hsize
    have hbehind : position < row.offset → ∀ other ∈ rows, other.covers position = false := by
      intro hbefore other hmem
      have := hfirst other hmem
      rw [Row.not_covers_iff]
      omega
    simp only [gaps_tableFrom_cons, List.mem_append, or_and_right, exists_or, ih hsorted hsize]
    rw [List.forall_mem_cons, Row.not_covers_iff]
    by_cases hgap : reached < row.offset
    · simp only [hgap, if_true, List.mem_singleton, exists_eq_left, Gap.Holds, Gap.stop]
      constructor
      · rintro (hheld | ⟨hwithin, hrest⟩)
        · exact ⟨by omega, by omega, hbehind (by omega)⟩
        · exact ⟨by omega, by omega, hrest⟩
      · rintro ⟨hwithin, huncovered, hrest⟩
        by_cases hbefore : position < row.offset
        · exact Or.inl (by omega)
        · exact Or.inr ⟨by omega, hrest⟩
    · simp only [hgap, if_false, List.not_mem_nil, false_and, exists_false, false_or]
      constructor
      · rintro ⟨hwithin, hrest⟩
        exact ⟨by omega, by omega, hrest⟩
      · rintro ⟨hwithin, huncovered, hrest⟩
        exact ⟨by omega, hrest⟩

/-- The padding told of lies behind the bytes reached and before the end, piece by piece, if the
rows do not reach past the last word. -/
lemma gaps_tableFrom_ordered (hsorted : rows.Pairwise fun a b => a.offset ≤ b.offset)
    (hsize : ∀ row ∈ rows, row.offset ≤ size) (hstops : ∀ row ∈ rows, row.offset ≤ row.stop) :
    (gaps (tableFrom size reached rows)).Pairwise (fun a b => a.stop ≤ b.offset) ∧
      ∀ gap ∈ gaps (tableFrom size reached rows), reached ≤ gap.offset ∧ gap.stop ≤ size := by
  induction rows generalizing reached with
  | nil =>
    by_cases hrest : reached < size
    · simp only [tableFrom, hrest, if_true, gaps, List.filterMap_cons, TableLine.gap?,
        List.filterMap_nil, List.pairwise_singleton, List.mem_singleton, forall_eq, Gap.stop,
        true_and]
      omega
    · simp [tableFrom, hrest, gaps]
  | cons row rows ih =>
    obtain ⟨-, hsorted⟩ := List.pairwise_cons.mp hsorted
    obtain ⟨hrow, hsize⟩ := List.forall_mem_cons.mp hsize
    obtain ⟨hstop, hstops⟩ := List.forall_mem_cons.mp hstops
    obtain ⟨hordered, hwithin⟩ :
        (gaps (tableFrom size (max reached row.stop) rows)).Pairwise
            (fun a b => a.stop ≤ b.offset) ∧
          ∀ gap ∈ gaps (tableFrom size (max reached row.stop) rows),
            max reached row.stop ≤ gap.offset ∧ gap.stop ≤ size :=
      ih hsorted hsize hstops
    rw [gaps_tableFrom_cons]
    by_cases hgap : reached < row.offset
    · simp only [hgap, if_true, List.singleton_append, List.pairwise_cons, List.forall_mem_cons]
      refine ⟨⟨fun gap hmem => ?_, hordered⟩, ?_, fun gap hmem => ?_⟩
      · have := hwithin gap hmem
        simp only [Gap.stop]
        omega
      · simp only [Gap.stop]
        omega
      · have := hwithin gap hmem
        omega
    · simp only [hgap, if_false, List.nil_append]
      refine ⟨hordered, fun gap hmem => ?_⟩
      have := hwithin gap hmem
      omega

/-- The table has a line for each row and no other lines for rows. -/
lemma member_mem_tableFrom_iff : .member row ∈ tableFrom size reached rows ↔ row ∈ rows := by
  induction rows generalizing reached with
  | nil =>
    rw [tableFrom]
    split <;> simp
  | cons first rest ih =>
    rw [tableFrom, List.mem_append, List.mem_cons, TableLine.member.injEq, ih, List.mem_cons]
    refine or_iff_right ?_
    split <;> simp

/-- The row painted last shows if it covers the byte. -/
lemma cell_concat (rows : List Row) (row : Row) (position : Nat) :
    cell (rows ++ [row]) position =
      if row.covers position then row.label else cell rows position := by
  rw [cell, List.foldl_append]
  rfl

/-- The mark of padding shows where no row covers the byte. -/
lemma cell_eq_paddingMark_iff (hlabels : ∀ row ∈ rows, row.label ≠ paddingMark) :
    cell rows position = paddingMark ↔ ∀ row ∈ rows, row.covers position = false := by
  induction rows using List.reverseRecOn with
  | nil => simp [cell]
  | append_singleton rows row ih =>
    have ih := ih fun other hmem => hlabels other (List.mem_append_left _ hmem)
    have hlabel := hlabels row (by simp)
    rw [cell_concat, List.forall_mem_append, List.forall_mem_singleton]
    by_cases hcovers : row.covers position = true
    · simp [hcovers, hlabel]
    · simp [hcovers, ih]

/-- Every byte of the object has one character. -/
lemma getElem?_cells {c : Char} :
    (cells size rows)[position]? = some c ↔ position < size ∧ cell rows position = c := by
  rw [cells, List.getElem?_map, Option.map_eq_some_iff]
  constructor
  · rintro ⟨index, hindex, hcell⟩
    obtain ⟨hlt, rfl⟩ := List.getElem?_eq_some_iff.mp hindex
    rw [List.length_range] at hlt
    rw [List.getElem_range] at hcell
    exact ⟨hlt, hcell⟩
  · rintro ⟨hlt, hcell⟩
    exact ⟨position, List.getElem?_range hlt, hcell⟩

/-- The map marks a byte as padding if and only if the table tells of it. -/
theorem marked_iff_exists_gap (hsorted : rows.Pairwise fun a b => a.offset ≤ b.offset)
    (hsize : ∀ row ∈ rows, row.offset ≤ size) (hlabels : ∀ row ∈ rows, row.label ≠ paddingMark) :
    (cells size rows)[position]? = some paddingMark ↔
      ∃ gap ∈ gaps (memberTable size rows), gap.Holds position := by
  rw [getElem?_cells, cell_eq_paddingMark_iff hlabels, memberTable,
    exists_gap_tableFrom_iff hsorted hsize]
  simp

/-- A row shows where every other row that covers the byte begins earlier. -/
lemma cell_eq_label (hsorted : rows.Pairwise fun a b => a.offset ≤ b.offset)
    (hmem : row ∈ rows) (hcovers : row.covers position = true)
    (hothers : ∀ other ∈ rows, other.covers position = true →
      other = row ∨ other.offset < row.offset) : cell rows position = row.label := by
  induction rows using List.reverseRecOn with
  | nil => cases hmem
  | append_singleton rows last ih =>
    rw [List.pairwise_append] at hsorted
    obtain ⟨hsorted, -, hlast⟩ := hsorted
    rw [cell_concat]
    by_cases hcovered : last.covers position = true
    · rw [if_pos hcovered]
      rcases hothers last (by simp) hcovered with rfl | hearlier
      · rfl
      · rcases List.mem_append.mp hmem with hmem | hmem
        · have := hlast row hmem last (by simp)
          omega
        · rw [List.mem_singleton.mp hmem]
    · rw [if_neg hcovered]
      refine ih hsorted ?_ fun other hother => hothers other (List.mem_append_left _ hother)
      rcases List.mem_append.mp hmem with hmem | hmem
      · exact hmem
      · obtain rfl := List.mem_singleton.mp hmem
        exact absurd hcovers hcovered

end ObjectLayout.Report
