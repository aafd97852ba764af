import GraphSchema.Sdl.Source

/-!
# Merge errors

Why sources have no merged document, and how it is told. A conflict names the
origin that came first and the one that disagrees with it.
-/

namespace GraphSchema

/-- Why a merge failed. -/
inductive MergeError where
  /-- There was nothing to merge. -/
  | noFiles
  | unreadable (file reason : String)
  | malformed (error : Sdl.ParseError)
  /-- Two definitions of a class disagree on a name. -/
  | definitionConflict (definitionClass : DefinitionClass) (name first second : String)
  /-- Two root types of a kind disagree on a field. -/
  | rootFieldConflict (kind : OperationKind) (field first second : String)
deriving DecidableEq, Inhabited, Repr

namespace MergeError

/-- The error as a line of text. -/
def message : MergeError → String
  | noFiles => "no schema files to merge"
  | unreadable file reason => "failed to read schema file " ++ file ++ ": " ++ reason
  | malformed e => e.message
  | definitionConflict c name first second =>
      "conflicting definitions of " ++ c.label ++ " '" ++ name ++ "' in " ++ first ++ " and " ++
        second
  | rootFieldConflict kind field first second =>
      "conflicting definitions of root field '" ++ kind.typeName ++ "." ++ field ++ "' in " ++
        first ++ " and " ++ second

/-- The error as a diagnostic. A conflict is located at the second origin. -/
def diagnostic (e : MergeError) : Diagnostic :=
  match e with
  | noFiles => ⟨.sourceFilesMissing, .error, e.message, none⟩
  | unreadable file _ => ⟨.sourceFileUnreadable, .error, e.message, some { file }⟩
  | malformed p => p.diagnostic
  | definitionConflict _ _ _ second =>
      ⟨.mergeDefinitionConflict, .error, e.message, some { file := second }⟩
  | rootFieldConflict _ _ _ second =>
      ⟨.mergeRootFieldConflict, .error, e.message, some { file := second }⟩

end MergeError

end GraphSchema
