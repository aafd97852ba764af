import GraphSchema.Schema.Definition

/-!
# Documents

An ordered list of definitions, and what can be asked of it. A name may be
defined several times; a look-up finds the first definition.
-/

namespace GraphSchema

/-- The definitions of one source, or of a merge of several. -/
structure Document where
  definitions : List Definition
deriving DecidableEq, Inhabited, Repr

namespace Document

/-- The document without definitions. -/
def empty : Document := ⟨[]⟩

/-- The number of definitions. -/
def size (d : Document) : Nat := d.definitions.length

/-- Whether nothing is defined. -/
def isEmpty (d : Document) : Bool := d.definitions.isEmpty

/-- The names of the definitions, in order. -/
def names (d : Document) : List String := d.definitions.map (·.name)

/-- The first definition of a name. -/
def find? (d : Document) (name : String) : Option Definition :=
  d.definitions.find? (·.name == name)

/-- Whether a name is a built-in scalar or a scalar of this document. -/
def isScalar (d : Document) (name : String) : Bool :=
  isBuiltinScalar name || d.definitions.any fun x => x.isScalar && x.name == name

/-- The first object that is the root type of an operation kind. -/
def rootType? (d : Document) (kind : OperationKind) : Option Definition :=
  d.definitions.find? (·.rootKind? == some kind)

/-- The objects that are no root types. -/
def entityTypes (d : Document) : List Definition :=
  d.definitions.filter fun x => x.objectFields?.isSome && x.rootKind?.isNone

/-- The input objects. -/
def inputTypes (d : Document) : List Definition :=
  d.definitions.filter (·.inputFields?.isSome)

end Document

end GraphSchema
