import GraphSchema.Diagnostic
import GraphSchema.Requirement.Descriptor
import GraphSchema.Schema.Document

/-!
# Analysis

The requirements of a document. A field of a root type is resolved unless it is
the placeholder that keeps the type from being empty; a field of another object
or of an interface is resolved unless its type is a scalar inside. References
are resolved in document order, the arguments of a field before its own type,
and the first invalid one is the error.
-/

namespace GraphSchema

/-- Why an analysis has no result. -/
inductive AnalysisError where
  | noRequirements (kind : RequirementKind)
  /-- A reference that has no target type, and the field or argument it belongs to. -/
  | invalidTypeReference (place reference : String)
deriving DecidableEq, Inhabited, Repr

namespace AnalysisError

/-- The error as a line of text. -/
def message : AnalysisError → String
  | noRequirements kind => "no " ++ kind.name ++ " requirements found in schema"
  | invalidTypeReference place reference =>
      "invalid type reference '" ++ reference ++ "' at " ++ place

/-- The error as a diagnostic. -/
def diagnostic (e : AnalysisError) : Diagnostic :=
  match e with
  | noRequirements _ => ⟨.analysisNoRequirements, .error, e.message, none⟩
  | invalidTypeReference .. => ⟨.analysisInvalidTypeReference, .error, e.message, none⟩

end AnalysisError

/-- A document to analyse, and how. -/
structure Analyzer where
  document : Document
  mapName : NameMap
  /-- The field that keeps a root type from being empty. -/
  placeholder : String

namespace Analyzer

/-- The placeholder where none is configured. -/
def defaultPlaceholder : String := "_empty"

/-- Whether a reference is to a scalar inside its wrappers. -/
def isScalar (a : Analyzer) (t : TypeReference) : Bool := a.document.isScalar t.baseName

/-- The target type of a reference that stands at a place. -/
def resolve (a : Analyzer) (place : String) (t : TypeReference) :
    Except AnalysisError ResolvedType :=
  match t.resolve? a.mapName with
  | some r => .ok r
  | none => .error (.invalidTypeReference place t.render)

/-- Whether a field needs a resolver. -/
def isSelected (a : Analyzer) (owner : Definition) (f : Field) : Bool :=
  if owner.rootKind?.isSome then f.name != a.placeholder else !a.isScalar f.type

/-- The fields that need a resolver, each with its owner. -/
def selectedFields (a : Analyzer) : List (Definition × Field) :=
  a.document.definitions.flatMap fun d =>
    ((d.outputFields?.getD []).filter (a.isSelected d)).map (d, ·)

/-- The resolver of a field. -/
def resolverOf (a : Analyzer) (owner : String) (f : Field) : Except AnalysisError Resolver := do
  let key : ResolverKey := ⟨owner, f.name⟩
  let arguments ← f.arguments.mapM fun x => do
    return (⟨x.name, ← a.resolve (key.render ++ "(" ++ x.name ++ ")") x.type⟩ : TypedName)
  return ⟨key, arguments, ← a.resolve key.render f.type, f.description⟩

/-- The holder of a type with some fields, each a name and a reference. -/
def holderOf (a : Analyzer) (d : Definition) (fields : List (String × TypeReference)) :
    Except AnalysisError Holder := do
  let typed ← fields.mapM fun (name, t) => do
    return (⟨name, ← a.resolve (d.name ++ "." ++ name) t⟩ : TypedName)
  return ⟨d.name, typed, d.description⟩

/-- The resolvers that the document asks for. -/
def resolvers (a : Analyzer) : Except AnalysisError (List Resolver) :=
  a.selectedFields.mapM fun (d, f) => a.resolverOf d.name f

/-- The entities that the document asks for. -/
def entities (a : Analyzer) : Except AnalysisError (List Holder) :=
  a.document.entityTypes.mapM fun d =>
    a.holderOf d ((d.objectFields?.getD []).map fun f => (f.name, f.type))

/-- The requests that the document asks for. -/
def requests (a : Analyzer) : Except AnalysisError (List Holder) :=
  a.document.inputTypes.mapM fun d =>
    a.holderOf d ((d.inputFields?.getD []).map fun f => (f.name, f.type))

/-- All requirements of the document. -/
def analyze (a : Analyzer) : Except AnalysisError RequirementSet := do
  return ⟨← a.resolvers, ← a.entities, ← a.requests⟩

/-- Refuses an empty list of requirements. -/
def nonEmpty {α : Type} (kind : RequirementKind) (items : List α) : Except AnalysisError (List α) :=
  if items.isEmpty then .error (.noRequirements kind) else .ok items

/-- The resolvers, at least one. -/
def requiredResolvers (a : Analyzer) : Except AnalysisError (List Resolver) :=
  a.resolvers >>= nonEmpty .resolver

/-- The entities, at least one. -/
def requiredEntities (a : Analyzer) : Except AnalysisError (List Holder) :=
  a.entities >>= nonEmpty .entity

/-- The requests, at least one. -/
def requiredRequests (a : Analyzer) : Except AnalysisError (List Holder) :=
  a.requests >>= nonEmpty .request

end Analyzer

end GraphSchema
