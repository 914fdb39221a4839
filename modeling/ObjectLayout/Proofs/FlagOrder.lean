import Mathlib.Data.List.Basic
import ObjectLayout.Options

/-!
# The order of flags

Flags act one after the other, and a target flag replaces the whole target but for the tail padding.
So of the flags for the target the last one counts, of those for the format the last one, and tail
padding is reused if any argument asks for it. Where the arguments stand does not matter beyond
that. The first flag that is not valid is reported, and it changes nothing.
-/
namespace ObjectLayout

namespace Text

lemma after?_eq_some_iff {beginning text rest : String} :
    after? beginning text = some rest ↔ text = beginning ++ rest := by
  rw [after?, Option.map_eq_some_iff]
  constructor
  · rintro ⟨chars, hchars, rfl⟩
    rw [List.isPrefixOf?_eq_some_iff_append_eq] at hchars
    rw [← String.toList_inj, String.toList_append, String.toList_ofList, hchars]
  · rintro rfl
    refine ⟨rest.toList, ?_, String.ofList_toList⟩
    rw [List.isPrefixOf?_eq_some_iff_append_eq, String.toList_append]

end Text

namespace Flag

variable {argument : String} {flag : Flag}

/-- The flags that are valid. -/
def texts : List String :=
  ["--target=lp64", "--target=ilp32", "--reuse-tail-padding", "--format=text", "--format=json"]

lemma marks_of_after? {more rest : String} (h : Text.after? ("--" ++ more) argument = some rest) :
    marks argument = true := by
  rw [Text.after?_eq_some_iff, String.append_assoc] at h
  rw [marks, Text.after?_eq_some_iff.mpr h]
  rfl

/-- An argument is read as a flag if and only if it is one of the valid ones. -/
lemma exists_parse_iff : (∃ flag, parse argument = .ok flag) ↔ argument ∈ texts := by
  refine ⟨fun ⟨flag, hflag⟩ => ?_, fun hmem => ?_⟩
  · rw [parse] at hflag
    cases htarget : Text.after? "--target=" argument with
    | some name =>
      rw [htarget] at hflag
      obtain rfl := Text.after?_eq_some_iff.mp htarget
      by_cases hlp64 : name = "lp64"
      · subst hlp64
        decide
      by_cases hilp32 : name = "ilp32"
      · subst hilp32
        decide
      simp [Target.ofName?, hlp64, hilp32] at hflag
    | none =>
      rw [htarget] at hflag
      by_cases hreuse : argument = "--reuse-tail-padding"
      · subst hreuse
        decide
      simp only [beq_iff_eq, hreuse, if_false] at hflag
      cases hformat : Text.after? "--format=" argument with
      | none =>
        rw [hformat] at hflag
        cases hflag
      | some name =>
        rw [hformat] at hflag
        obtain rfl := Text.after?_eq_some_iff.mp hformat
        by_cases htext : name = "text"
        · subst htext
          decide
        by_cases hjson : name = "json"
        · subst hjson
          decide
        simp [ReportFormat.ofName?, htext, hjson] at hflag
  · simp only [texts, List.mem_cons, List.not_mem_nil, or_false] at hmem
    rcases hmem with rfl | rfl | rfl | rfl | rfl
    · exact ⟨.target .lp64, by decide⟩
    · exact ⟨.target .ilp32, by decide⟩
    · exact ⟨.reuseTailPadding, by decide⟩
    · exact ⟨.format .text, by decide⟩
    · exact ⟨.format .json, by decide⟩

/-- Is this a flag that is not valid? -/
def isInvalid (argument : String) : Bool := marks argument && !texts.contains argument

lemma exists_parse_of_valid (hmarks : marks argument = true) (h : isInvalid argument = false) :
    ∃ flag, parse argument = .ok flag := by
  rw [exists_parse_iff]
  simpa [isInvalid, hmarks] using h

lemma isInvalid_iff : isInvalid argument = true ↔
    marks argument = true ∧ ∃ e, parse argument = .error e := by
  have hparse : (∃ e, parse argument = .error e) ↔ ¬ ∃ flag, parse argument = .ok flag := by
    cases parse argument <;> simp
  rw [hparse, exists_parse_iff, isInvalid]
  simp

end Flag

namespace Options

variable {options changed : Options} {names arguments other : List String} {argument : String}
  {flag : Flag} {e : OptionError} {result : Options × List String}

/-- What is asked for by a flag that begins so, in order. -/
def valuesOf (beginning : String) (arguments : List String) : List String :=
  arguments.filterMap (Text.after? beginning)

/-- The arguments that are no flags, in order. -/
def namesOf (arguments : List String) : List String := arguments.filter fun a => !Flag.marks a

/-- The options when of each kind of flags the last one counts, and tail padding is reused if any
argument asks for it. -/
def settle (options : Options) (arguments : List String) : Options :=
  let presets := (valuesOf "--target=" arguments).filterMap Target.ofName?
  let formats := (valuesOf "--format=" arguments).filterMap ReportFormat.ofName?
  { target :=
      { presets.getLast?.getD options.target with
        tailPadding := if "--reuse-tail-padding" ∈ arguments then .reuse
          else options.target.tailPadding }
    format := formats.getLast?.getD options.format }

lemma apply_eq_ok_iff {changed : Options} : options.apply argument = .ok changed ↔
    ∃ flag, Flag.parse argument = .ok flag ∧ options.set flag = changed := by
  rw [apply]
  cases Flag.parse argument <;> simp

lemma apply_eq_error_iff :
    options.apply argument = .error e ↔ Flag.parse argument = .error e := by
  rw [apply]
  cases Flag.parse argument <;> simp

/-- Arguments act one part after the other, and what the first part has asked for may be undone. -/
lemma settle_append (options : Options) (first second : List String) :
    options.settle (first ++ second) = (options.settle first).settle second := by
  simp only [settle, valuesOf, List.filterMap_append, List.getLast?_append, List.mem_append]
  congr 1
  · cases ((second.filterMap (Text.after? "--target=")).filterMap Target.ofName?).getLast? <;>
      by_cases hfirst : "--reuse-tail-padding" ∈ first <;>
      by_cases hsecond : "--reuse-tail-padding" ∈ second <;>
      simp [hfirst, hsecond]
  · cases ((second.filterMap (Text.after? "--format=")).filterMap ReportFormat.ofName?).getLast? <;>
      rfl

/-- A name has no bearing on the options. -/
lemma settle_name (h : Flag.marks argument = false) (options : Options) :
    options.settle [argument] = options := by
  have hnone : ∀ more, Text.after? ("--" ++ more) argument = none := by
    intro more
    cases hafter : Text.after? ("--" ++ more) argument with
    | none => rfl
    | some value => cases h.symm.trans (Flag.marks_of_after? hafter)
  have hreuse : "--reuse-tail-padding" ≠ argument := by
    rintro rfl
    revert h
    decide
  have htarget : Text.after? "--target=" argument = none := hnone "target="
  have hformat : Text.after? "--format=" argument = none := hnone "format="
  simp [settle, valuesOf, htarget, hformat, hreuse]

lemma settle_flag (h : Flag.parse argument = .ok flag) (options : Options) :
    options.settle [argument] = options.set flag := by
  have hmem := Flag.exists_parse_iff.mp ⟨flag, h⟩
  simp only [Flag.texts, List.mem_cons, List.not_mem_nil, or_false] at hmem
  rcases hmem with rfl | rfl | rfl | rfl | rfl
  · obtain rfl : .target .lp64 = flag := Except.ok.inj ((by decide : _ = _).symm.trans h)
    rfl
  · obtain rfl : .target .ilp32 = flag := Except.ok.inj ((by decide : _ = _).symm.trans h)
    rfl
  · obtain rfl : .reuseTailPadding = flag := Except.ok.inj ((by decide : _ = _).symm.trans h)
    rfl
  · obtain rfl : .format .text = flag := Except.ok.inj ((by decide : _ = _).symm.trans h)
    rfl
  · obtain rfl : .format .json = flag := Except.ok.inj ((by decide : _ = _).symm.trans h)
    rfl

/-! ### Reading the arguments -/

lemma parseFrom_name (h : Flag.marks argument = false) (rest : List String) :
    options.parseFrom names (argument :: rest) =
      options.parseFrom (names ++ [argument]) rest := by
  simp [parseFrom, h]

lemma parseFrom_flag (hmarks : Flag.marks argument = true)
    (h : Flag.parse argument = .ok flag) (rest : List String) :
    options.parseFrom names (argument :: rest) = (options.set flag).parseFrom names rest := by
  rw [parseFrom, if_pos hmarks, apply_eq_ok_iff.mpr ⟨flag, h, rfl⟩]
  rfl

lemma parseFrom_invalid (hmarks : Flag.marks argument = true)
    (h : Flag.parse argument = .error e) (rest : List String) :
    options.parseFrom names (argument :: rest) = .error e := by
  rw [parseFrom, if_pos hmarks, apply_eq_error_iff.mpr h]
  rfl

lemma namesOf_cons (argument : String) (rest : List String) :
    namesOf (argument :: rest) =
      if Flag.marks argument then namesOf rest else argument :: namesOf rest := by
  cases h : Flag.marks argument <;> simp [namesOf, h]

/-- Without an invalid flag all arguments are read. -/
lemma parseFrom_of_valid (h : arguments.find? Flag.isInvalid = none) (options : Options)
    (names : List String) : options.parseFrom names arguments =
      .ok (options.settle arguments, names ++ namesOf arguments) := by
  induction arguments generalizing options names with
  | nil =>
    rw [parseFrom, namesOf, List.filter_nil, List.append_nil]
    rfl
  | cons argument rest ih =>
    obtain ⟨hvalid, hrest⟩ :
        Flag.isInvalid argument = false ∧ rest.find? Flag.isInvalid = none := by
      cases hvalid : Flag.isInvalid argument <;> simp_all
    have hsettle : options.settle (argument :: rest) = (options.settle [argument]).settle rest :=
      settle_append options [argument] rest
    cases hmarks : Flag.marks argument with
    | false =>
      rw [parseFrom_name hmarks, ih hrest, hsettle, settle_name hmarks, namesOf_cons, hmarks,
        List.append_assoc]
      rfl
    | true =>
      obtain ⟨flag, hflag⟩ := Flag.exists_parse_of_valid hmarks hvalid
      rw [parseFrom_flag hmarks hflag, ih hrest, hsettle, settle_flag hflag, namesOf_cons, hmarks]
      rfl

/-- The first invalid flag ends the reading. -/
lemma parseFrom_of_find? (h : arguments.find? Flag.isInvalid = some argument) (options : Options)
    (names : List String) :
    ∃ e, Flag.parse argument = .error e ∧ options.parseFrom names arguments = .error e := by
  induction arguments generalizing options names with
  | nil => cases h
  | cons first rest ih =>
    cases hinvalid : Flag.isInvalid first with
    | true =>
      obtain rfl : first = argument := by simpa [hinvalid] using h
      obtain ⟨hmarks, e, he⟩ := Flag.isInvalid_iff.mp hinvalid
      exact ⟨e, he, parseFrom_invalid hmarks he rest⟩
    | false =>
      have hrest : rest.find? Flag.isInvalid = some argument := by simpa [hinvalid] using h
      cases hmarks : Flag.marks first with
      | false =>
        rw [parseFrom_name hmarks]
        exact ih hrest options (names ++ [first])
      | true =>
        obtain ⟨flag, hflag⟩ := Flag.exists_parse_of_valid hmarks hinvalid
        rw [parseFrom_flag hmarks hflag]
        exact ih hrest (options.set flag) names

lemma parse_eq_ok_iff : parse arguments = .ok (options, names) ↔
    arguments.find? Flag.isInvalid = none ∧ names = namesOf arguments ∧
      options = settle {} arguments := by
  rw [parse]
  cases hfind : arguments.find? Flag.isInvalid with
  | none =>
    rw [parseFrom_of_valid hfind]
    simp only [Except.ok.injEq, Prod.mk.injEq, List.nil_append]
    tauto
  | some argument =>
    obtain ⟨e, -, he⟩ := parseFrom_of_find? hfind {} []
    simp [he]

lemma parse_eq_error_iff : parse arguments = .error e ↔
    ∃ argument, arguments.find? Flag.isInvalid = some argument ∧
      Flag.parse argument = .error e := by
  rw [parse]
  cases hfind : arguments.find? Flag.isInvalid with
  | none => simp [parseFrom_of_valid hfind]
  | some argument =>
    obtain ⟨e', hparse, he⟩ := parseFrom_of_find? hfind {} []
    simp [he, hparse]

lemma find?_isInvalid_eq_none_iff :
    arguments.find? Flag.isInvalid = none ↔
      ∀ argument ∈ arguments, Flag.marks argument → argument ∈ Flag.texts := by
  simp [Flag.isInvalid]

/-! ### Other orders -/

/-- Options depend on the order of the flags for the target and of those for the format only. -/
lemma settle_eq_of_perm (hperm : other.Perm arguments)
    (htarget : valuesOf "--target=" other = valuesOf "--target=" arguments)
    (hformat : valuesOf "--format=" other = valuesOf "--format=" arguments) (options : Options) :
    options.settle other = options.settle arguments := by
  simp only [settle, htarget, hformat, hperm.mem_iff]

lemma parse_eq_ok_of_perm (hperm : other.Perm arguments)
    (htarget : valuesOf "--target=" other = valuesOf "--target=" arguments)
    (hformat : valuesOf "--format=" other = valuesOf "--format=" arguments)
    (hnames : namesOf other = namesOf arguments) :
    parse other = .ok result ↔ parse arguments = .ok result := by
  obtain ⟨options, names⟩ := result
  rw [parse_eq_ok_iff, parse_eq_ok_iff, find?_isInvalid_eq_none_iff, find?_isInvalid_eq_none_iff,
    settle_eq_of_perm hperm htarget hformat, hnames]
  simp only [hperm.mem_iff]

lemma exists_parse_error_iff :
    (∃ e, parse arguments = .error e) ↔ ∀ result, parse arguments ≠ .ok result := by
  cases parse arguments <;> simp

/-- What is said of an invalid flag does not depend on where it stands. -/
lemma parse_eq_error_of_find? (h : other.find? Flag.isInvalid = arguments.find? Flag.isInvalid) :
    parse other = .error e ↔ parse arguments = .error e := by
  rw [parse_eq_error_iff, parse_eq_error_iff, h]

/-! ### Options in place -/

/-- Apply one flag to options that are held in a variable. -/
def update (argument : String) : EStateM OptionError Options Unit := do
  match Text.after? "--target=" argument with
  | some name =>
    let tailPadding := (← get).target.tailPadding
    match Target.ofName? name with
    | some preset => modify fun options => { options with target := { preset with tailPadding } }
    | none => throw (.unknownTarget name)
  | none =>
    if argument == "--reuse-tail-padding" then
      modify fun options => { options with target.tailPadding := .reuse }
    else match Text.after? "--format=" argument with
      | some name =>
        match ReportFormat.ofName? name with
        | some chosen => modify fun options => { options with format := chosen }
        | none => throw (.unknownFormat name)
      | none => throw (.unknownOption argument)

/-- A flag in place has the same outcome, and an invalid one changes nothing. -/
lemma update_eq (options : Options) (argument : String) :
    (∃ changed, options.apply argument = .ok changed ∧
        update argument options = .ok () changed) ∨
      ∃ e, options.apply argument = .error e ∧ update argument options = .error e options := by
  rw [apply, Flag.parse, update]
  cases Text.after? "--target=" argument with
  | some name =>
    cases hname : Target.ofName? name with
    | some preset => exact .inl ⟨_, by simp only [hname]; rfl, by simp only [hname]; rfl⟩
    | none => exact .inr ⟨_, by simp only [hname]; rfl, by simp only [hname]; rfl⟩
  | none =>
    by_cases hreuse : argument = "--reuse-tail-padding"
    · subst hreuse
      exact .inl ⟨_, rfl, rfl⟩
    simp only [beq_iff_eq, hreuse, if_false]
    cases Text.after? "--format=" argument with
    | some name =>
      cases hname : ReportFormat.ofName? name with
      | some chosen => exact .inl ⟨_, by simp only [hname]; rfl, by simp only [hname]; rfl⟩
      | none => exact .inr ⟨_, by simp only [hname]; rfl, by simp only [hname]; rfl⟩
    | none => exact .inr ⟨_, rfl, rfl⟩

/-- Arguments are read unless one of those that begin with two hyphens is no valid flag, and the
first such argument is reported. What is read are the options asked for last and the names in
order, and tail padding is reused wherever that is asked for. Another order in which the flags for
the target, those for the format and the names come as before gives the same options and names, or
it fails as well, by the flag that is then the first invalid one. An invalid flag leaves options in
place as they are. -/
theorem parse_by_flags (arguments : List String) :
    (∀ e, parse arguments = .error e ↔
      ∃ argument, arguments.find? Flag.isInvalid = some argument ∧
        ∀ options : Options, options.apply argument = .error e) ∧
    (∀ options names, parse arguments = .ok (options, names) ↔
      (∀ argument ∈ arguments, Flag.marks argument → argument ∈ Flag.texts) ∧
        names = namesOf arguments ∧ options = settle {} arguments) ∧
    (∀ other : List String, other.Perm arguments →
      valuesOf "--target=" other = valuesOf "--target=" arguments →
      valuesOf "--format=" other = valuesOf "--format=" arguments →
      namesOf other = namesOf arguments →
        (∀ result, parse other = .ok result ↔ parse arguments = .ok result) ∧
        ((∃ e, parse other = .error e) ↔ ∃ e, parse arguments = .error e) ∧
        (other.find? Flag.isInvalid = arguments.find? Flag.isInvalid →
          parse other = parse arguments)) ∧
    ∀ (options : Options) (argument : String),
      (∃ changed, options.apply argument = .ok changed ∧
          update argument options = .ok () changed) ∨
        ∃ e, options.apply argument = .error e ∧ update argument options = .error e options := by
  refine ⟨fun e => ?_, fun options names => ?_, fun other hperm htarget hformat hnames => ?_,
    update_eq⟩
  · have : Nonempty Options := ⟨{}⟩
    simp only [parse_eq_error_iff, apply_eq_error_iff, forall_const]
  · rw [parse_eq_ok_iff, find?_isInvalid_eq_none_iff]
  · have hok : ∀ result, parse other = .ok result ↔ parse arguments = .ok result :=
      fun _ => parse_eq_ok_of_perm hperm htarget hformat hnames
    refine ⟨hok, ?_, fun hfind => ?_⟩
    · simp only [exists_parse_error_iff, ne_eq, hok]
    · cases h : parse arguments with
      | error e => exact (parse_eq_error_of_find? hfind).mpr h
      | ok result => exact (hok result).mpr h

example :
    parse ["--reuse-tail-padding", "pod", "--target=ilp32", "--format=json", "T2"] =
      .ok (⟨{ Target.ilp32 with tailPadding := .reuse }, .json⟩, ["pod", "T2"]) := by
  rfl

/-- Two flags that are both invalid: the order of the arguments tells which one is reported. -/
theorem parse_of_invalid_flags :
    let arguments := ["--x", "--y"]
    let other := ["--y", "--x"]
    other.Perm arguments ∧ valuesOf "--target=" other = valuesOf "--target=" arguments ∧
      valuesOf "--format=" other = valuesOf "--format=" arguments ∧
      namesOf other = namesOf arguments ∧
      parse arguments = .error (.unknownOption "--x") ∧
      parse other = .error (.unknownOption "--y") :=
  ⟨.swap _ _ _, rfl, rfl, rfl, rfl, rfl⟩

end Options

end ObjectLayout
