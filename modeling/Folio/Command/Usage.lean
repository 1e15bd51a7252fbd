import Folio.Command.Line

/-!
# Usage texts

What is written when a command line runs no command.
-/

namespace Folio

/-- The name of the program with its version. -/
def versionText : String :=
  "stencil_cli 0.3.0"

/-- What can be put on a command line. -/
def helpText : String :=
  "Build a static site from plain text templates.\n\n" ++
  "Usage: stencil [OPTIONS] [COMMAND]\n\n" ++
  "Commands:\n" ++
  "  build  Build every manifest entry into the output directory\n" ++
  "  watch  Build once, then rebuild whenever the description directory changes\n" ++
  "  check  Check that the output directory matches what a build would produce\n" ++
  "  list   List manifest entries with their mode and inheritance chain\n" ++
  "  help   Print this message or the help of the given subcommand(s)\n\n" ++
  "Options:\n" ++
  "  -p, --path <PATH>  Path to the project root directory\n" ++
  "  -v, --verbose      Enable verbose output and debug logging\n" ++
  "      --no-color     Disable colored output\n" ++
  "  -h, --help         Print help\n" ++
  "  -V, --version      Print version"

/-- What is wrong with a command line that makes no sense. -/
def UsageStop.fault? : UsageStop → Option String
  | .help => none
  | .version => none
  | .unknownArgument => some "unexpected argument found"
  | .unknownCommand => some "unrecognized subcommand"
  | .invalidValue => some "a value is required for '--path <PATH>' but none was supplied"
  | .repeatedOption => some "an argument cannot be used multiple times"
  | .unneededValue => some "unexpected value for an argument that takes none"

/-- The line that is written for a stop, the fault apart. -/
def UsageStop.advice : UsageStop → String
  | .help => helpText
  | .version => versionText
  | _ => "\nFor more information, try '--help'."

end Folio
