/-!
# File errors

Why a call on files fails, and how it is told.
-/

namespace GraphSchema

/-- Why a call on files failed. -/
inductive FileError where
  /-- Nothing stands at the path. -/
  | missing
  /-- The path ends in a directory that cannot be replaced. -/
  | busy
  /-- Something stands at the path already. -/
  | occupied
  | notDirectory
  | isDirectory
  /-- A directory would come to stand in itself. -/
  | misplaced
  | nameTooLong
  | notEmpty
  /-- The path goes through too many links, perhaps in a circle. -/
  | tooManyLinks
  /-- The path has a zero character. -/
  | zeroInPath
  /-- The content is not UTF-8. -/
  | notText
deriving DecidableEq, Inhabited, Repr

/-- The error as a line of text. -/
def FileError.message : FileError → String
  | missing => "No such file or directory (os error 2)"
  | busy => "Device or resource busy (os error 16)"
  | occupied => "File exists (os error 17)"
  | notDirectory => "Not a directory (os error 20)"
  | isDirectory => "Is a directory (os error 21)"
  | misplaced => "Invalid argument (os error 22)"
  | nameTooLong => "File name too long (os error 36)"
  | notEmpty => "Directory not empty (os error 39)"
  | tooManyLinks => "Too many levels of symbolic links (os error 40)"
  | zeroInPath => "file name contained an unexpected NUL byte"
  | notText => "stream did not contain valid UTF-8"

end GraphSchema
