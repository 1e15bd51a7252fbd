import Folio.Path

/-!
# Command lines

`CommandLine.parse` reads the words behind the program's name: options, a
command, and options of the command. An option may stand on either side of the
command unless it belongs to the command alone; on each side it is given at most
once, and behind the command it counts more than in front.

The value of an option is looked at only when the next option is, or when the
words end. Until then another fault may be found, and is the one reported.
-/

namespace Folio

/-- What the program is asked to do. -/
inductive Command where
  | build (dryRun watch denyWarnings : Bool)
  | watch
  | check (diff : Bool)
  | list
deriving DecidableEq

/-- A command line. -/
structure CommandLine where
  command : Option Command
  path : Option Path
  verbose : Bool
  noColor : Bool
deriving DecidableEq

/-- Why a command line runs no command: a text is asked for instead, or the words
make no sense. -/
inductive UsageStop where
  | help
  | version
  | unknownArgument
  | unknownCommand
  | invalidValue
  | repeatedOption
  | unneededValue
deriving DecidableEq

namespace CommandLine

/-- An option without a value. -/
inductive Flag where
  | verbose
  | noColor
  | dryRun
  | watch
  | denyWarnings
  | diff
deriving DecidableEq

/-- An option. -/
inductive Opt where
  | flag (f : Flag)
  | path
  | help
  | version
deriving DecidableEq

/-- The two sides of the command, with the words that they know. -/
inductive Side where
  | front
  | behind (command : String)

/-- The names of the commands. -/
def commandNames : List String :=
  ["build", "watch", "check", "list"]

namespace Side

/-- The option of a long name. -/
def long? (s : Side) (name : String) : Option Opt :=
  match name, s with
  | "path", _ => some .path
  | "verbose", _ => some (.flag .verbose)
  | "no-color", _ => some (.flag .noColor)
  | "help", _ => some .help
  | "version", .front => some .version
  | "dry-run", .behind "build" => some (.flag .dryRun)
  | "watch", .behind "build" => some (.flag .watch)
  | "deny-warnings", .behind "build" => some (.flag .denyWarnings)
  | "diff", .behind "check" => some (.flag .diff)
  | _, _ => none

/-- The option of a letter. -/
def short? (s : Side) (letter : Char) : Option Opt :=
  match letter, s with
  | 'p', _ => some .path
  | 'v', _ => some (.flag .verbose)
  | 'h', _ => some .help
  | 'V', .front => some .version
  | _, _ => none

/-- The fault of a word that is no option. Behind two hyphens, a command is
refused as an argument. -/
def strayWord (s : Side) (afterHyphens : Bool) (word : Text) : UsageStop :=
  match s with
  | .behind _ => .unknownArgument
  | .front =>
    let isCommand := ("help" :: commandNames).contains (String.ofList word)
    if afterHyphens && isCommand then .unknownArgument else .unknownCommand

end Side

/-- What is given on one side. `awaited` is an option for a path whose value has
not been looked at; there may be no value yet. -/
structure Given where
  flags : List Flag := []
  path : Option Text := none
  awaited : Option (Option Text) := none

namespace Given

/-- Takes a path. -/
def setPath (g : Given) (value : Text) : Except UsageStop Given :=
  if g.path.isSome then .error .repeatedOption
  else if value.isEmpty then .error .invalidValue
  else .ok { g with path := some value }

/-- Looks at the value that is awaited. -/
def settle (g : Given) : Except UsageStop Given :=
  match g.awaited with
  | none => .ok g
  | some none => .error .invalidValue
  | some (some value) => { g with awaited := none }.setPath value

/-- Whether the next word is the value of an option. -/
def awaitsValue (g : Given) : Bool :=
  g.awaited = some none

/-- Takes an option, maybe with a value attached to it. -/
def take (g : Given) (o : Opt) (attached : Option Text) : Except UsageStop Given := do
  match o, attached with
  | .path, some value => (← g.settle).setPath value
  | .path, none => return { ← g.settle with awaited := some none }
  | _, some _ => .error .unneededValue
  | .flag f, none =>
    let g ← g.settle
    if g.flags.contains f then .error .repeatedOption else return { g with flags := f :: g.flags }
  | .help, none =>
    let _ ← g.settle
    .error .help
  | .version, none =>
    let _ ← g.settle
    .error .version

/-- Takes the letters behind a hyphen. What follows the letter of an option with a
value is its value; an equals sign may come between. -/
def takeLetters (s : Side) (g : Given) : Text → Except UsageStop Given
  | [] => .ok g
  | c :: rest =>
    match s.short? c with
    | none => .error .unknownArgument
    | some .path =>
      match rest with
      | [] => g.take .path none
      | '=' :: value => g.take .path (some value)
      | value => g.take .path (some value)
    | some o => do takeLetters s (← g.take o none) rest

/-- Takes a long option, whose value may stand behind an equals sign. -/
def takeLong (s : Side) (g : Given) (word : Text) : Except UsageStop Given :=
  let name := word.takeWhile (· ≠ '=')
  match s.long? (String.ofList name) with
  | none => .error .unknownArgument
  | some o =>
    let hasValue := name.length < word.length
    g.take o (if hasValue then some (word.drop (name.length + 1)) else none)

end Given

/-- Where the words of a side end. -/
inductive SideEnd where
  | words
  | command (name : String) (rest : List Text)

/-- Shows help on a command. -/
def helpOn : List Text → UsageStop
  | [] => .help
  | [word] =>
    if ("help" :: commandNames).contains (String.ofList word) then .help else .unknownCommand
  | _ => .unknownCommand

/-- Reads the words of a side. -/
def readSide (s : Side) (g : Given) : List Text → Except UsageStop (Given × SideEnd)
  | [] => .ok (g, .words)
  | word :: rest =>
    match g.awaitsValue, word with
    | _, ['-', '-'] =>
      match rest with
      | [] => .ok (g, .words)
      | next :: _ => .error (s.strayWord true next)
    | _, '-' :: '-' :: long => do readSide s (← g.takeLong s long) rest
    | _, '-' :: c :: letters =>
      do readSide s (← g.takeLetters s (c :: letters)) rest
    | true, value => readSide s { g with awaited := some (some value) } rest
    | false, word =>
      let name := String.ofList word
      match s with
      | .behind _ => .error (s.strayWord false word)
      | .front =>
        if name = "help" then .error (helpOn rest)
        else if commandNames.contains name then .ok (g, .command name rest)
        else .error (s.strayWord false word)

/-- The command of a name with its flags. -/
def commandOf (name : String) (flags : List Flag) : Command :=
  match name with
  | "build" =>
    .build (flags.contains .dryRun) (flags.contains .watch) (flags.contains .denyWarnings)
  | "watch" => .watch
  | "check" => .check (flags.contains .diff)
  | _ => .list

/-- A command line of which two sides are given. -/
def ofSides (command : Option Command) (front behind : Given) : CommandLine :=
  let flags := front.flags ++ behind.flags
  ⟨command, (behind.path <|> front.path).map Path.mk, flags.contains .verbose,
    flags.contains .noColor⟩

/-- Reads a command line, whose first word names the program. -/
def parse (words : List Text) : Except UsageStop CommandLine := do
  let (front, sideEnd) ← readSide .front {} (words.drop 1)
  match sideEnd with
  | .words => return ofSides none (← front.settle) {}
  | .command name rest =>
    let (behind, _) ← readSide (.behind name) {} rest
    let behind ← behind.settle
    return ofSides (some (commandOf name behind.flags)) (← front.settle) behind

end CommandLine

end Folio
