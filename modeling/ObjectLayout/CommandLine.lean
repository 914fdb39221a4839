import ObjectLayout.Catalogue.Builtin
import ObjectLayout.Report.Render

/-!
# The command line

What the program prints for its arguments, and the code with which it ends. Options are read
before the command is looked at, so a bad option is reported for any command.
-/
namespace ObjectLayout

structure Outcome where
  exitCode : Nat := 0
  stdout : String := ""
  stderr : String := ""
  deriving DecidableEq

namespace CommandLine

def usage : String := Text.lines [
  "tylc - type layout explorer",
  "",
  "Usage: tylc <command> [options]",
  "",
  "Commands:",
  "  list                  List catalogue types by topic",
  "  show <name|topic>...  Show layout and classification of the named types",
  "  all                   Show every catalogue type",
  "  help                  Show this message",
  "",
  "Options:",
  "  --target=<model>      Target model: lp64 (default), ilp32",
  "  --reuse-tail-padding  Place members in the tail padding of non-POD bases",
  "  --format=<format>     Output format: text (default), json",
  "",
  "Set RUST_LOG=tyl_layout=debug to trace the layout engine."]

def failed (lines : List String) : Outcome := { exitCode := 1, stderr := Text.lines lines }

/-- The entries that the names select, each type once, or the first name that selects none. -/
def select (catalogue : Catalogue) (names : List String) :
    Except String (List CatalogueEntry) :=
  names.foldlM (fun selected name =>
    match catalogue.lookup name with
    | [] => .error name
    | hits => .ok (hits.foldl (fun known hit =>
      if known.any fun entry => entry.type = hit.type then known else known ++ [hit]) selected)) []

def report (catalogue : Catalogue) (options : Options) (entries : List CatalogueEntry) :
    Outcome :=
  { stdout := Report.render options.format
      (Report.ofEntries catalogue.table options.target entries) }

def showEntries (catalogue : Catalogue) (options : Options) (names : List String) : Outcome :=
  if names.isEmpty then failed ["Usage: tylc show <name|topic>... [options]"]
  else match select catalogue names with
    | .ok entries => report catalogue options entries
    | .error name => failed [s!"error: no catalogue type or topic named `{name}`",
      "Run `tylc list` to see what is available."]

/-- Carry out a command on a catalogue. -/
def perform (catalogue : Catalogue) (options : Options) (names : List String)
    (command : String) : Outcome :=
  match command with
  | "list" => { stdout := Report.listing catalogue.entries }
  | "show" => showEntries catalogue options names
  | "all" => report catalogue options catalogue.entries
  | "help" | "--help" | "-h" => { stdout := usage }
  | other => { failed [s!"Unknown command: {other}", ""] with stdout := usage }

/-- The program on its arguments. -/
def run : List String → Outcome
  | [] => { stdout := usage }
  | command :: arguments =>
    match Options.parse arguments with
    | .error e => failed ["error: " ++ e.message]
    | .ok (options, names) => perform .builtin options names command

end CommandLine

end ObjectLayout
