import ObjectLayout.Proofs.BytePictures

/-!
# Lines as printed

A line of the member table shows two numbers in columns, a mark and a text. Blanks part them, and
neither a number nor a mark has blanks, so what the line shows can be read off it. In particular a
printed line tells of padding if and only if it was printed for padding, whatever the names of the
members are.
-/
namespace ObjectLayout.Report

/-- The line shows the numbers, aligned on the right in columns, the mark and the text. -/
def Tells (line : String) (offset size : Nat) (mark : Char) (text : String) : Prop :=
  line = "  " ++ Text.alignRight 6 (toString offset) ++ "  " ++ Text.alignRight 4 (toString size) ++
    "  " ++ String.singleton mark ++ "  " ++ text

/-- The line tells that the bytes are padding, between members or behind all of them. -/
def TellsPadding (line : String) (gap : Gap) : Prop :=
  Tells line gap.offset gap.size '.' "(padding)" ∨
    Tells line gap.offset gap.size '.' "(tail padding)"

/-- Characters without a blank among them. -/
def IsWord (word : List Char) : Prop := word ≠ [] ∧ ' ' ∉ word

/-- Reading on from blanks finds the word and what is behind it. -/
lemma read_word {word : List Char} (hword : IsWord word) (number : Nat) (rest : List Char) :
    let behind := (List.replicate number ' ' ++ (word ++ ' ' :: rest)).dropWhile (· == ' ')
    behind.takeWhile (· != ' ') = word ∧ behind.dropWhile (· != ' ') = ' ' :: rest := by
  obtain ⟨hne, hblank⟩ := hword
  obtain ⟨first, others, rfl⟩ := List.exists_cons_of_ne_nil hne
  have hletters : ∀ c ∈ first :: others, (c != ' ') = true := by
    intro c hc
    rw [bne_iff_ne]
    exact fun heq => hblank (heq ▸ hc)
  have hfirst : ¬ (first == ' ') = true := by
    rw [beq_iff_eq]
    exact fun heq => hblank (heq ▸ List.mem_cons_self)
  intro behind
  have hbehind : behind = first :: others ++ ' ' :: rest := by
    show List.dropWhile (· == ' ') (_ ++ (first :: others ++ _)) = _
    rw [List.dropWhile_append_of_pos (by simp), List.cons_append]
    exact List.dropWhile_cons_of_neg hfirst
  rw [hbehind, List.takeWhile_append_of_pos hletters, List.dropWhile_append_of_pos hletters]
  simp

/-- So a word behind blanks is determined by what it begins, and what follows it as well. -/
lemma word_append_injective {number number' : Nat} {word word' rest rest' : List Char}
    (hword : IsWord word) (hword' : IsWord word')
    (h : List.replicate number ' ' ++ (word ++ ' ' :: rest) =
      List.replicate number' ' ' ++ (word' ++ ' ' :: rest')) : word = word' ∧ rest = rest' := by
  obtain ⟨hfirst, hbehind⟩ := read_word hword number rest
  obtain ⟨hfirst', hbehind'⟩ := read_word hword' number' rest'
  rw [h] at hfirst hbehind
  exact ⟨hfirst.symm.trans hfirst', (List.cons.inj (hbehind.symm.trans hbehind')).2⟩

lemma isWord_toString (n : Nat) : IsWord (toString n).toList := by
  rw [Nat.toString_eq_repr, Nat.toList_repr]
  refine ⟨Nat.toDigits_ne_nil, fun hmem => ?_⟩
  have hdigit := Nat.isDigit_of_mem_toDigits (by decide) (by decide) hmem
  revert hdigit
  decide

lemma isWord_singleton {mark : Char} (h : mark ≠ ' ') : IsWord [mark] :=
  ⟨List.cons_ne_nil _ _, by simpa using h.symm⟩

lemma toString_injective {n m : Nat} (h : (toString n).toList = (toString m).toList) : n = m := by
  rw [Nat.toString_eq_repr, Nat.toString_eq_repr, Nat.toList_repr, Nat.toList_repr] at h
  have hread := congrArg (Nat.ofDigitChars 10 · 0) h
  simpa using hread

variable {line : String} {offset offset' size size' : Nat} {mark mark' : Char} {text text' : String}

/-- Numbers, mark and text as words behind blanks. -/
lemma Tells.toList_eq (h : Tells line offset size mark text) : ∃ before between : Nat,
    line.toList = List.replicate before ' ' ++ ((toString offset).toList ++ ' ' ::
      (List.replicate between ' ' ++ ((toString size).toList ++ ' ' ::
        (List.replicate 1 ' ' ++ ([mark] ++ ' ' :: (' ' :: text.toList)))))) := by
  have hblanks (n : Nat) : (Text.blanks n).toList = List.replicate n ' ' := by simp [Text.blanks]
  refine ⟨2 + (6 - (toString offset).length), 1 + (4 - (toString size).length), ?_⟩
  rw [h]
  simp [Text.alignRight, hblanks, ← List.replicate_append_replicate]

/-- A line shows no more than one pair of numbers with a mark and a text. -/
theorem Tells.unique (h : Tells line offset size mark text)
    (h' : Tells line offset' size' mark' text') (hmark : mark ≠ ' ') (hmark' : mark' ≠ ' ') :
    offset = offset' ∧ size = size' ∧ mark = mark' ∧ text = text' := by
  obtain ⟨before, between, hline⟩ := h.toList_eq
  obtain ⟨before', between', hline'⟩ := h'.toList_eq
  obtain ⟨hoffset, hrest⟩ := word_append_injective (isWord_toString offset)
    (isWord_toString offset') (hline.symm.trans hline')
  obtain ⟨hsize, hrest⟩ :=
    word_append_injective (isWord_toString size) (isWord_toString size') hrest
  obtain ⟨hmarks, hrest⟩ :=
    word_append_injective (isWord_singleton hmark) (isWord_singleton hmark') hrest
  exact ⟨toString_injective hoffset, toString_injective hsize, (List.cons.inj hmarks).1,
    String.toList_injective (List.cons.inj hrest).2⟩

/-- A line tells of one piece of padding at most. -/
lemma TellsPadding.unique {gap gap' : Gap} (h : TellsPadding line gap)
    (h' : TellsPadding line gap') : gap = gap' := by
  have hdot : '.' ≠ ' ' := by decide
  obtain ⟨text, htells⟩ : ∃ text, Tells line gap.offset gap.size '.' text :=
    h.elim (fun htells => ⟨_, htells⟩) fun htells => ⟨_, htells⟩
  obtain ⟨text', htells'⟩ : ∃ text, Tells line gap'.offset gap'.size '.' text :=
    h'.elim (fun htells => ⟨_, htells⟩) fun htells => ⟨_, htells⟩
  obtain ⟨hoffset, hsize, -, -⟩ := htells.unique htells' hdot hdot
  cases gap
  cases gap'
  exact congrArg₂ Gap.mk hoffset hsize

namespace TableLine

lemma tells_member (row : Row) :
    Tells (member row).text row.offset row.size row.label row.text := rfl

/-- A line is printed for padding if and only if it tells of it, if no member has the mark of
padding, or a blank for a mark. -/
theorem tellsPadding_text_iff {line : TableLine} {gap : Gap}
    (hlabel : ∀ row, line = .member row → row.label ≠ '.' ∧ row.label ≠ ' ') :
    TellsPadding line.text gap ↔ line.gap? = some gap := by
  have hdot : '.' ≠ ' ' := by decide
  cases line with
  | member row =>
    obtain ⟨hpadding, hblank⟩ := hlabel row rfl
    refine ⟨fun htells => ?_, fun hgap => by cases hgap⟩
    rcases htells with htells | htells
    · exact absurd ((tells_member row).unique htells hblank hdot).2.2.1 hpadding
    · exact absurd ((tells_member row).unique htells hblank hdot).2.2.1 hpadding
  | padding offset size =>
    have hown : TellsPadding (padding offset size).text ⟨offset, size⟩ := Or.inl rfl
    exact ⟨fun htells => congrArg some (hown.unique htells), fun hgap => by cases hgap; exact hown⟩
  | tailPadding offset size =>
    have hown : TellsPadding (tailPadding offset size).text ⟨offset, size⟩ := Or.inr rfl
    exact ⟨fun htells => congrArg some (hown.unique htells), fun hgap => by cases hgap; exact hown⟩

end TableLine

/-- What the printed lines tell of padding is what the lines were printed for. -/
lemma exists_tellsPadding_iff {lines : List TableLine} {P : Gap → Prop}
    (hlabels : ∀ row, .member row ∈ lines → row.label ≠ '.' ∧ row.label ≠ ' ') :
    (∃ line ∈ lines.map TableLine.text, ∃ gap, TellsPadding line gap ∧ P gap) ↔
      ∃ gap ∈ gaps lines, P gap := by
  have htold : ∀ line ∈ lines, ∀ gap, TellsPadding line.text gap ↔ line.gap? = some gap :=
    fun line hmem gap => TableLine.tellsPadding_text_iff fun row heq => hlabels row (heq ▸ hmem)
  constructor
  · rintro ⟨_, hprinted, gap, htells, hgap⟩
    obtain ⟨line, hmem, rfl⟩ := List.mem_map.mp hprinted
    exact ⟨gap, List.mem_filterMap.mpr ⟨line, hmem, (htold line hmem gap).mp htells⟩, hgap⟩
  · rintro ⟨gap, hmem, hgap⟩
    obtain ⟨line, hmem, htells⟩ := List.mem_filterMap.mp hmem
    exact ⟨line.text, List.mem_map_of_mem hmem, gap, (htold line hmem gap).mpr htells, hgap⟩

/-- Printed lines tell of padding in the order of the padding they were printed for. -/
lemma pairwise_tellsPadding {lines : List TableLine} {R : Gap → Gap → Prop}
    (hlabels : ∀ row, .member row ∈ lines → row.label ≠ '.' ∧ row.label ≠ ' ')
    (h : (gaps lines).Pairwise R) : (lines.map TableLine.text).Pairwise fun line other =>
      ∀ gap gap', TellsPadding line gap → TellsPadding other gap' → R gap gap' := by
  have htold : ∀ line ∈ lines, ∀ gap, TellsPadding line.text gap ↔ line.gap? = some gap :=
    fun line hmem gap => TableLine.tellsPadding_text_iff fun row heq => hlabels row (heq ▸ hmem)
  rw [List.pairwise_map]
  refine (List.pairwise_filterMap.mp h).imp_of_mem fun hmem hmem' hrel gap gap' htells htells' => ?_
  exact hrel gap ((htold _ hmem gap).mp htells) gap' ((htold _ hmem' gap').mp htells')

end ObjectLayout.Report
