import ObjectLayout.Target
import ObjectLayout.Text

/-!
# Options of a report

An argument that begins with two hyphens is a flag, any other is a name. Flags act in order, and
a target flag changes the sizes of the target only, so asking for tail padding to be reused may
come before or after it.
-/
namespace ObjectLayout

inductive ReportFormat where
  | text
  | json
  deriving DecidableEq

structure Options where
  target : Target := .lp64
  format : ReportFormat := .text
  deriving DecidableEq

inductive Flag where
  | target (preset : Target)
  | reuseTailPadding
  | format (format : ReportFormat)
  deriving DecidableEq

inductive OptionError where
  | unknownTarget (name : String)
  | unknownFormat (name : String)
  | unknownOption (argument : String)
  deriving DecidableEq

def OptionError.message : OptionError → String
  | .unknownTarget name => s!"unknown target `{name}` (expected lp64 or ilp32)"
  | .unknownFormat name => s!"unknown format `{name}` (expected text or json)"
  | .unknownOption argument => s!"unknown option `{argument}`"

def ReportFormat.ofName? (name : String) : Option ReportFormat :=
  if name == "text" then some .text
  else if name == "json" then some .json
  else none

namespace Flag

/-- Flags are the arguments that begin with two hyphens, valid or not. -/
def marks (argument : String) : Bool := (Text.after? "--" argument).isSome

def parse (argument : String) : Except OptionError Flag :=
  match Text.after? "--target=" argument with
  | some name =>
    match Target.ofName? name with
    | some preset => .ok (.target preset)
    | none => .error (.unknownTarget name)
  | none =>
    if argument == "--reuse-tail-padding" then .ok .reuseTailPadding
    else match Text.after? "--format=" argument with
      | some name =>
        match ReportFormat.ofName? name with
        | some chosen => .ok (.format chosen)
        | none => .error (.unknownFormat name)
      | none => .error (.unknownOption argument)

end Flag

namespace Options

def set (options : Options) : Flag → Options
  | .target preset =>
    { options with target := { preset with tailPadding := options.target.tailPadding } }
  | .reuseTailPadding =>
    { options with target := { options.target with tailPadding := .reuse } }
  | .format format => { options with format := format }

/-- Apply one flag as it is written. -/
def apply (options : Options) (argument : String) : Except OptionError Options :=
  options.set <$> Flag.parse argument

/-- Go on with more arguments after `options` and `names`. -/
def parseFrom (options : Options) (names : List String) :
    List String → Except OptionError (Options × List String)
  | [] => .ok (options, names)
  | argument :: rest => do
    if Flag.marks argument then
      parseFrom (← options.apply argument) names rest
    else
      parseFrom options (names ++ [argument]) rest

/-- The options and the names among the arguments. The first bad flag is reported. -/
def parse (arguments : List String) : Except OptionError (Options × List String) :=
  parseFrom {} [] arguments

end Options

end ObjectLayout
