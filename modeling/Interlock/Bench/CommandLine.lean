/-!
# The command line

The command line names one command, `bench`, which takes three options. Words are judged in order
and the first one that is refused decides. Asking for help counts as a refusal, because nothing is
run then.
-/

namespace Interlock.Bench.CommandLine

/-- The options of the bench command. -/
structure Options where
  quick : Bool := false
  reportOnly : Bool := false
  tracing : Bool := false
  deriving DecidableEq, Repr

/-- A step of the bench command. -/
inductive Step where
  | measure (quick tracing : Bool)
  | report
  deriving DecidableEq, Repr

/-- The steps of the bench command, in order. -/
def Options.steps (options : Options) : List Step :=
  if options.reportOnly then [.report] else [.measure options.quick options.tracing, .report]

/-- Why nothing is run. -/
inductive Refusal where
  | helpWanted
  | commandMissing
  | unknownCommand
  | unknownOption
  | unexpectedValue
  | repeatedOption
  deriving DecidableEq, Repr

/-- What a word looks like. -/
inductive Shape where
  /-- Two dashes, after which no word is an option. -/
  | separator
  /-- Two dashes before a name, and whether a value follows it. -/
  | long (name : List Char) (valued : Bool)
  | short (first : Char)
  | plain
  deriving DecidableEq, Repr

def shape (word : List Char) : Shape :=
  match word with
  | ['-', '-'] => .separator
  | '-' :: '-' :: rest => .long (rest.takeWhile (· ≠ '=')) (rest.contains '=')
  | '-' :: first :: _ => .short first
  | _ => .plain

/-- The refusal of an option that asks for help, if the word does. -/
def helpRefusal : Shape → Refusal
  | .long name valued =>
    if name = "help".toList then
      if valued then .unexpectedValue else .helpWanted
    else .unknownOption
  | .short 'h' => .helpWanted
  | _ => .unknownOption

/-- Switch on the option with the given name; `none` if there is none of that name. -/
def Options.enable (options : Options) (name : List Char) : Option (Bool × Options) :=
  if name = "quick".toList then some (options.quick, { options with quick := true })
  else if name = "report-only".toList then
    some (options.reportOnly, { options with reportOnly := true })
  else if name = "tracing".toList then some (options.tracing, { options with tracing := true })
  else none

/-- The words after the bench command. -/
def parseBench (options : Options) : List String → Except Refusal Options
  | [] => .ok options
  | word :: rest =>
    match shape word.toList with
    | .separator => if rest.isEmpty then .ok options else .error .unknownOption
    | .long name valued =>
      match options.enable name with
      | none => .error (helpRefusal (.long name valued))
      | some (already, options) =>
        if valued then .error .unexpectedValue
        else if already then .error .repeatedOption
        else parseBench options rest
    | other => .error (helpRefusal other)

def commands : List String := ["bench", "help"]

/-- The words after the help command, which name a command. None has commands of its own. -/
def parseHelp : List String → Refusal
  | [] => .helpWanted
  | [word] => if word ∈ commands then .helpWanted else .unknownCommand
  | _ => .unknownCommand

/-- The words after the program's own name. -/
def parse : List String → Except Refusal Options
  | [] => .error .commandMissing
  | "bench" :: rest => parseBench {} rest
  | "help" :: rest => .error (parseHelp rest)
  | word :: rest =>
    match shape word.toList with
    | .separator =>
      match rest with
      | [] => .error .commandMissing
      | next :: _ => .error (if next ∈ commands then .unknownOption else .unknownCommand)
    | .plain => .error .unknownCommand
    | other => .error (helpRefusal other)

example : parse ["bench", "--quick", "--tracing"] = .ok ⟨true, false, true⟩ := rfl

example : parse ["bench", "--quick", "--quick=1"] = .error .unexpectedValue := rfl

end Interlock.Bench.CommandLine
