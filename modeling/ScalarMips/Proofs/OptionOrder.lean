import Mathlib.Data.List.Basic
import ScalarMips.CommandLine.Options

/-!
# Options in any order

The arguments of a compilation are the input file and some choices (`Choice`), each written as one
or two arguments. Wherever the input file stands among them, reading the arguments gives what was
chosen (`parse_anyOrder`): a choice that is a flag counts if it is made at all, and of the choices
of an entry point or an output file the last one counts.

Each choice is read as a whole, whatever follows it (`parseFrom_arguments`). So the file name after
`-o` may be spelled like an option, and the arguments after it are read as if the two were not
there.
-/

namespace ScalarMips.CommandLine

/-! ### Choices -/

/-- What can be chosen beside the input file. -/
inductive Choice where
  /-- To have the symbol tables described. -/
  | dumpSymbols
  /-- To have a comment before each statement's code. -/
  | annotate
  /-- To hear nothing about the progress. -/
  | quiet
  /-- The function to start with. -/
  | entry (name : String) (nonempty : name ≠ "")
  /-- Where the assembly goes, written behind the option in the same argument. -/
  | attached (path : String) (nonempty : path ≠ "")
  /-- Where the assembly goes, in an argument of its own. -/
  | separate (path : String)
  deriving DecidableEq

namespace Choice

/-- How a choice is written. -/
def arguments : Choice → List String
  | dumpSymbols => ["--dump-symbols"]
  | annotate => ["--annotate"]
  | quiet => ["--quiet"]
  | entry name _ => ["--entry=" ++ name]
  | attached path _ => ["-o" ++ path]
  | separate path => ["-o", path]

/-- The chosen entry point. -/
def entry? : Choice → Option String
  | entry name _ => some name
  | _ => none

/-- The chosen output file. -/
def output? : Choice → Option String
  | attached path _ | separate path => some path
  | _ => none

end Choice

namespace Options

/-- The options after some more choices. -/
def choosing (o : Options) (choices : List Choice) : Options :=
  { o with
    output := (choices.filterMap Choice.output?).getLastD o.output
    entry := (choices.filterMap Choice.entry?).getLastD o.entry
    dumpSymbols := o.dumpSymbols || .dumpSymbols ∈ choices
    annotate := o.annotate || .annotate ∈ choices
    quiet := o.quiet || .quiet ∈ choices }

theorem choosing_nil (o : Options) : o.choosing [] = o := by
  simp [choosing]

theorem choosing_append (o : Options) (first second : List Choice) :
    o.choosing (first ++ second) = (o.choosing first).choosing second := by
  simp only [choosing, List.filterMap_append, List.getLastD_eq_getLast?, List.getLast?_append,
    Option.getD_or, List.mem_append, Bool.decide_or, Bool.or_assoc]

/-! ### Reading one choice -/

theorem following?_eq_some_iff {lead argument rest : String} :
    following? lead argument = some rest ↔ argument = lead ++ rest := by
  unfold following?
  constructor
  · intro h
    obtain ⟨chars, hchars, rfl⟩ := Option.map_eq_some_iff.1 h
    rw [List.isPrefixOf?_eq_some_iff_append_eq] at hchars
    exact String.toList_inj.1 (by simp [hchars])
  · rintro rfl
    have hrest : lead.toList.isPrefixOf? (lead ++ rest).toList = some rest.toList := by
      rw [List.isPrefixOf?_eq_some_iff_append_eq, String.toList_append]
    rw [hrest, Option.map_some, String.ofList_toList]

theorem following?_append (lead rest : String) : following? lead (lead ++ rest) = some rest :=
  following?_eq_some_iff.2 rfl

theorem following?_eq_none {lead argument : String} (h : ∀ rest, argument ≠ lead ++ rest) :
    following? lead argument = none :=
  Option.eq_none_iff_forall_ne_some.2 fun rest hrest ↦ h rest (following?_eq_some_iff.1 hrest)

/-- What begins with `lead` is not a word that does not. -/
theorem append_ne {lead word : String} (h : ¬ lead.toList <+: word.toList) (rest : String) :
    lead ++ rest ≠ word := by
  rintro rfl
  exact h (String.toList_append ▸ List.prefix_append _ _)

theorem following?_entry_of_output (path : String) :
    following? "--entry=" ("-o" ++ path) = none :=
  following?_eq_none fun name h ↦ by simpa using congrArg String.toList h

/-- A choice is read as a whole, and nothing else with it. -/
theorem parseFrom_arguments (o : Options) (c : Choice) (rest : List String) :
    parseFrom o (c.arguments ++ rest) = parseFrom (o.choosing [c]) rest := by
  cases c with
  | dumpSymbols | annotate | quiet =>
    rw [Choice.arguments, List.singleton_append, parseFrom.eq_def]
    simp [choosing, Choice.output?, Choice.entry?]
  | entry name hname =>
    have hword (word : String) (h : ¬ "--entry=".toList <+: word.toList) :
        "--entry=" ++ name ≠ word := append_ne h name
    rw [Choice.arguments, List.singleton_append, parseFrom.eq_def]
    simp [hword, following?_append, takeEntry, hname, choosing, Choice.output?, Choice.entry?]
    rfl
  | attached path hrest =>
    have hword (word : String) (h : ¬ "-o".toList <+: word.toList) : "-o" ++ path ≠ word :=
      append_ne h path
    rw [Choice.arguments, List.singleton_append, parseFrom.eq_def]
    simp [hword, following?_append, following?_entry_of_output, hrest, choosing, Choice.output?,
      Choice.entry?]
  | separate path =>
    have hrest := following?_append "-o" ""
    have hentry := following?_entry_of_output ""
    rw [String.append_empty] at hrest hentry
    rw [Choice.arguments, List.cons_append, List.singleton_append, parseFrom.eq_def]
    simp [hrest, hentry, choosing, Choice.output?, Choice.entry?]

theorem parseFrom_choices (o : Options) (choices : List Choice) (rest : List String) :
    parseFrom o (choices.flatMap Choice.arguments ++ rest) =
      parseFrom (o.choosing choices) rest := by
  induction choices generalizing o with
  | nil => rw [choosing_nil, List.flatMap_nil, List.nil_append]
  | cons c choices ih =>
    rw [List.flatMap_cons, List.append_assoc, parseFrom_arguments, ih, ← choosing_append,
      List.singleton_append]

/-! ### The input file -/

/-- An argument that does not look like an option is the input file. -/
theorem parseFrom_input {o : Options} {input : String} (ho : o.input = "")
    (hdash : input.toList.head? ≠ some '-') (rest : List String) :
    parseFrom o (input :: rest) = parseFrom { o with input } rest := by
  have hword (word : String) (h : word.toList.head? = some '-') : input ≠ word := by
    rintro rfl
    exact hdash h
  have hlead (lead : String) (h : lead.toList.head? = some '-') :
      following? lead input = none := by
    refine following?_eq_none fun rest hinput ↦ hdash ?_
    rw [hinput, String.toList_append, List.head?_append, h, Option.some_or]
  rw [parseFrom.eq_def]
  simp [hword "--help" rfl, hword "--version" rfl, hword "--dump-symbols" rfl,
    hword "--annotate" rfl, hword "--quiet" rfl, hlead "--entry=" rfl, hlead "-o" rfl, takeInput,
    hdash, ho]
  rfl

/-- **The order of the arguments does not matter.** Wherever the input file stands among any
choices, reading the arguments gives it and what was chosen. -/
theorem parse_anyOrder {input : String} (hne : input ≠ "")
    (hdash : input.toList.head? ≠ some '-') (before after : List Choice) :
    parse (before.flatMap Choice.arguments ++ input :: after.flatMap Choice.arguments) =
      .ok (({ input } : Options).choosing (before ++ after)) := by
  have hend : ∀ o : Options, o.input = input → parseFrom o [] = .ok o := by
    rintro o rfl
    simp [parseFrom, hne]
  rw [parse, parseFrom_choices, parseFrom_input rfl hdash, ← List.append_nil (after.flatMap _),
    parseFrom_choices, hend _ rfl, choosing_append]
  rfl

theorem parse_anyOrder_confusing :
    "a.bad" ≠ "" ∧ "a.bad".toList.head? ≠ some '-' ∧
      parse ["-o", "--help", "--quiet", "a.bad", "--entry=f", "-o-o", "--entry=main"] =
        .ok { input := "a.bad", output := "-o", entry := "main", quiet := true } := by
  have hne : "a.bad" ≠ "" := by decide
  have hdash : "a.bad".toList.head? ≠ some '-' := by decide
  refine ⟨hne, hdash, (parse_anyOrder hne hdash [.separate "--help", .quiet]
    [.entry "f" (by decide), .attached "-o" (by decide), .entry "main" (by decide)]).trans ?_⟩
  decide +kernel

end Options

end ScalarMips.CommandLine
