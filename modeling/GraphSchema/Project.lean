import GraphSchema.Build
import GraphSchema.Config.Printer
import GraphSchema.Config.Reader
import GraphSchema.Requirement.Analysis

/-!
# Files of a project

What is read from the files of a project, and what is written to them: its
configuration, single sources and requirements. Written files replace what stood
there, and no directory is made for them.
-/

namespace GraphSchema.FileTree

/-- What a source file holds. -/
def parseSource (t : FileTree) (path : String) : Except Sdl.ParseError Sdl.Parsed :=
  match t.readText path with
  | .error reason => .error ⟨.unreadable reason.message, some path⟩
  | .ok text => Sdl.Parsed.ofSource text (some path)

/-- Merges source files. -/
def mergeSources (t : FileTree) (paths : List String) : Except MergeError Merge.Merged :=
  Merge.ofFiles (fun path => (t.readText path).mapError FileError.message) paths

/-- Loads a configuration. The project's root is the directory of the file. -/
def loadConfig (t : FileTree) (path : String) : Except ConfigError Config :=
  match t.readText path with
  | .error reason => .error (.inaccessible reason.message)
  | .ok text => Config.ofFileText path text

/-- Saves a configuration, whatever its settings are. -/
def saveConfig (t : FileTree) (now : Int) (path : String) (c : Config) :
    Except ConfigError FileTree :=
  (t.write path c.toToml.toUTF8 now).mapError fun reason => .inaccessible reason.message

/-- Saves requirements. -/
def saveRequirements (t : FileTree) (now : Int) (path : String) (set : RequirementSet) : Change :=
  t.write path set.toText.toUTF8 now

end GraphSchema.FileTree
