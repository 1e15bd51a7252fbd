import Folio.Chain.Load
import Folio.Watch.Filter

/-!
# Errors of a site

What can keep a site from being loaded, an entry from being built, or the output
directory from being pruned, with the wording that is shown.
-/

namespace Folio

/-- What went wrong with a site. -/
inductive SiteError where
  /-- The configuration cannot be read. -/
  | unreadableConfig (reason : ReadError)
  | malformedConfig
  | unreadableManifest (path : Path) (reason : ReadError)
  | unreadableGlobals (path : Path) (reason : ReadError)
  | malformedGlobals (path : Path)
  | unknownFormat (format : Text)
  | chain (e : ChainError)
  | ignore (e : IgnoreError)
  | unwritable (path : Path) (reason : SystemError)
  | unsafePrune (output source : Path)
  /-- A file of the output directory cannot be removed. -/
  | unremovable (reason : SystemError)
  /-- A worker ended without an answer. -/
  | worker

namespace SiteError

/-- The wording of an error. -/
def message : SiteError → String
  | unreadableConfig reason => reason.message
  | malformedConfig => "failed to parse config file: invalid document"
  | unreadableManifest path reason =>
    "failed to read manifest \x60" ++ path.display ++ "\x60: " ++ reason.message
  | unreadableGlobals path reason =>
    "failed to load globals file \x60" ++ path.display ++ "\x60: " ++ reason.message
  | malformedGlobals path =>
    "failed to load globals file \x60" ++ path.display ++ "\x60: invalid document"
  | unknownFormat format =>
    "unsupported globals file format: \x60" ++ String.ofList format ++ "\x60"
  | chain e => e.message
  | ignore e => e.message
  | unwritable path reason =>
    "failed to write \x60" ++ path.display ++ "\x60: " ++ reason.message
  | unsafePrune output source =>
    "refusing to prune \x60" ++ output.display ++ "\x60 because it contains \x60" ++
      source.display ++ "\x60"
  | unremovable reason => reason.message
  | worker => "build worker failed: worker stopped before finishing the entry"

/-- The diagnostic code of an error. -/
def code : SiteError → String
  | unreadableConfig _ => "stencil::io_error"
  | malformedConfig => "stencil::config_parse"
  | unreadableManifest _ _ => "stencil::manifest_read"
  | unreadableGlobals _ _ => "stencil::globals_file"
  | malformedGlobals _ => "stencil::globals_file"
  | unknownFormat _ => "stencil::unsupported_format"
  | chain e => e.code
  | ignore e => e.code
  | unwritable _ _ => "stencil::output_write"
  | unsafePrune _ _ => "stencil::unsafe_prune"
  | unremovable _ => "stencil::io_error"
  | worker => "stencil::worker"

/-- What can be done about an error. -/
def help? : SiteError → Option String
  | malformedConfig => some "check that stencil.toml is valid TOML"
  | unreadableManifest _ _ =>
    some "every build needs a manifest, set \x60manifest\x60 in stencil.toml if it lives elsewhere"
  | unknownFormat _ => some "supported formats: json, toml, yaml, yml, kdl, ini"
  | chain e => e.help?
  | unsafePrune _ _ =>
    some "point \x60output\x60 at a directory outside the project sources, or disable \x60prune\x60"
  | _ => none

end SiteError

end Folio
