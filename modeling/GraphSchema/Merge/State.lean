import GraphSchema.Merge.Bucket
import GraphSchema.Merge.Error

/-!
# The state of a merge

Definitions are added one by one. Scalars, named types and input objects each
have a bucket, so a name is unique within its class. Objects with the name of a
root type are not kept as definitions: their fields go into a bucket for their
operation, and one object is made of each such bucket in the end. A root type's
name is not free for another named type once it has a field, nor can it get
fields once another named type has the name.
-/

namespace GraphSchema.Merge

/-- Something for each kind of root operation. -/
structure PerOperation (α : Type) where
  query : α
  mutation : α
  subscription : α

namespace PerOperation

variable {α : Type}

/-- What belongs to an operation kind. -/
def get (p : PerOperation α) : OperationKind → α
  | .query => p.query
  | .mutation => p.mutation
  | .subscription => p.subscription

/-- The same with something else for one operation kind. -/
def set (p : PerOperation α) (kind : OperationKind) (a : α) : PerOperation α :=
  match kind with
  | .query => { p with query := a }
  | .mutation => { p with mutation := a }
  | .subscription => { p with subscription := a }

@[simp] theorem get_set_self (p : PerOperation α) (kind : OperationKind) (a : α) :
    (p.set kind a).get kind = a := by cases kind <;> rfl

theorem get_set_of_ne (p : PerOperation α) {kind other : OperationKind} (a : α)
    (h : other ≠ kind) : (p.set kind a).get other = p.get other := by
  cases kind <;> cases other <;> first | rfl | exact absurd rfl h

end PerOperation

/-- What has been merged so far. -/
structure State where
  scalars : Bucket Definition
  namedTypes : Bucket Definition
  inputObjects : Bucket Definition
  rootFields : PerOperation (Bucket Field)

namespace State

/-- The state before anything is merged. -/
def empty : State := ⟨.empty, .empty, .empty, ⟨.empty, .empty, .empty⟩⟩

instance : Inhabited State := ⟨empty⟩

/-- The bucket of a class. -/
def bucket (s : State) : DefinitionClass → Bucket Definition
  | .scalar => s.scalars
  | .namedType => s.namedTypes
  | .inputObject => s.inputObjects

/-- The state with another bucket for a class. -/
def setBucket (s : State) (c : DefinitionClass) (b : Bucket Definition) : State :=
  match c with
  | .scalar => { s with scalars := b }
  | .namedType => { s with namedTypes := b }
  | .inputObject => { s with inputObjects := b }

/-- Adds a field of a root type. -/
def addRootField (origin : String) (kind : OperationKind) (s : State) (f : Field) :
    Except MergeError State :=
  let (outcome, b) := (s.rootFields.get kind).insert f.name f origin
  match outcome with
  | .conflict first => .error (.rootFieldConflict kind f.name first origin)
  | _ => .ok { s with rootFields := s.rootFields.set kind b }

/-- Adds the fields of a root type, whose name no other named type may have. -/
def addRootFields (origin : String) (kind : OperationKind) (s : State) (fields : List Field) :
    Except MergeError State :=
  match fields, s.namedTypes.originOf? kind.typeName with
  | _ :: _, some first =>
      .error (.definitionConflict .namedType kind.typeName first origin)
  | _, _ => fields.foldlM (addRootField origin kind) s

/-- The origin of the first root field that takes the name of a definition. Only the name of a
named type can be taken so. -/
def rootOrigin? (s : State) (d : Definition) : Option String :=
  match d.definitionClass with
  | .namedType => (OperationKind.ofTypeName? d.name).bind fun k => (s.rootFields.get k).firstOrigin?
  | _ => none

/-- Adds a definition that is no root type. -/
def addPlain (origin : String) (s : State) (d : Definition) : Except MergeError State :=
  let c := d.definitionClass
  match s.rootOrigin? d with
  | some first => .error (.definitionConflict c d.name first origin)
  | none =>
      let (outcome, b) := (s.bucket c).insert d.name d origin
      match outcome with
      | .conflict first => .error (.definitionConflict c d.name first origin)
      | _ => .ok (s.setBucket c b)

/-- Adds a definition. -/
def addDefinition (origin : String) (s : State) (d : Definition) : Except MergeError State :=
  match d.rootKind? with
  | some kind => s.addRootFields origin kind (d.objectFields?.getD [])
  | none => s.addPlain origin d

/-- Adds the definitions of a document in order. -/
def addDocument (s : State) (origin : String) (document : Document) : Except MergeError State :=
  document.definitions.foldlM (addDefinition origin) s

/-- The object that stands for a root type, if it has a field. -/
def rootObject? (s : State) (kind : OperationKind) : Option Definition :=
  match (s.rootFields.get kind).items with
  | [] => none
  | fields => some ⟨kind.typeName, none, [], .object [] fields⟩

/-- The merged document: scalars, named types, input objects, root types. -/
def document (s : State) : Document :=
  ⟨s.scalars.items ++ s.namedTypes.items ++ s.inputObjects.items ++
    OperationKind.all.filterMap s.rootObject?⟩

end State

end GraphSchema.Merge
