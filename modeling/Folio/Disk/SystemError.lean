/-!
# Errors of the operating system

The reasons for which an operation on a disk can fail, with their wording.
-/

namespace Folio

/-- Why the operating system refused an operation. -/
inductive SystemError where
  | noEntry
  | busy
  | entryExists
  | notDirectory
  | isDirectory
  | noSpace
  | nameTooLong
  | nulInName
deriving DecidableEq

/-- The wording of a reason, with the number of the error where it has one. -/
def SystemError.message : SystemError → String
  | .noEntry => "No such file or directory (os error 2)"
  | .busy => "Device or resource busy (os error 16)"
  | .entryExists => "File exists (os error 17)"
  | .notDirectory => "Not a directory (os error 20)"
  | .isDirectory => "Is a directory (os error 21)"
  | .noSpace => "No space left on device (os error 28)"
  | .nameTooLong => "File name too long (os error 36)"
  | .nulInName => "file name contained an unexpected NUL byte"

end Folio
