import GraphSchema.Proofs.Json.Members
import GraphSchema.Schema.Text

/-!
# Storing documents and reading them back

Each record is read back from its stored form, which is a plain value.
-/

namespace GraphSchema

open Json (present listSlot required_present optionalText_present optionalList_present
  arrayOf?_map isPlain_list isPlain_pair forall_present forall_some forall_textSlot forall_listSlot)

namespace TypeReference

theorem ofJsonWithin?_toJson (isNothing : Json → Bool) (t : TypeReference) {n : Nat}
    (hn : t.toJson.depth < n) : ofJsonWithin? isNothing n t.toJson = some t := by
  induction t generalizing n with
  | named name =>
    obtain ⟨n, rfl⟩ : ∃ k, n = k + 1 := ⟨n - 1, by omega⟩
    rfl
  | list item ih =>
    obtain ⟨n, rfl⟩ : ∃ k, n = k + 1 := ⟨n - 1, by omega⟩
    have hdepth : item.toJson.depth < n := by
      simp only [toJson, Json.depth, Json.depthOfMembers] at hn
      omega
    have hstep : ofJsonWithin? isNothing (n + 1) (list item).toJson =
        list <$> ofJsonWithin? isNothing n item.toJson := rfl
    rw [hstep, ih hdepth]
    rfl
  | nonNull inner ih =>
    obtain ⟨n, rfl⟩ : ∃ k, n = k + 1 := ⟨n - 1, by omega⟩
    have hdepth : inner.toJson.depth < n := by
      simp only [toJson, Json.depth, Json.depthOfMembers] at hn
      omega
    have hstep : ofJsonWithin? isNothing (n + 1) (nonNull inner).toJson =
        nonNull <$> ofJsonWithin? isNothing n inner.toJson := rfl
    rw [hstep, ih hdepth]
    rfl

theorem ofInnerJson?_toJson (t : TypeReference) : ofInnerJson? t.toJson = some t :=
  ofJsonWithin?_toJson Json.isVoid t (by omega)

theorem isPlain_toJson (t : TypeReference) : t.toJson.IsPlain := by
  induction t with
  | named name => exact isPlain_pair (.string _) (.string name)
  | list item ih => exact isPlain_pair (.string _) ih
  | nonNull inner ih => exact isPlain_pair (.string _) ih

end TypeReference

namespace DirectiveArgument

theorem ofJson?_toJson (a : DirectiveArgument) : ofJson? a.toJson = some a := rfl

theorem isPlain_toJson (a : DirectiveArgument) : a.toJson.IsPlain :=
  isPlain_pair (.string a.name) (.string a.value)

end DirectiveArgument

namespace Directive

/-- The values of a directive under their keys. -/
def slots (d : Directive) : List (String × Option Json) :=
  [("name", some (.string d.name)), ("arguments", listSlot DirectiveArgument.toJson d.arguments)]

theorem toJson_eq (d : Directive) : d.toJson = .object (present d.slots) := by
  rw [toJson, Json.presentList_eq]
  rfl

theorem nodup_slots (d : Directive) : (d.slots.map (·.1)).Nodup := by
  show ["name", "arguments"].Nodup
  decide

theorem ofJson?_toJson (d : Directive) : ofJson? d.toJson = some d := by
  have hname := required_present d.nodup_slots
    (show ("name", some (.string d.name)) ∈ d.slots by simp [slots]) Json.string?
  have harguments := optionalList_present d.nodup_slots
    (show ("arguments", listSlot DirectiveArgument.toJson d.arguments) ∈ d.slots by simp [slots])
    fun a _ => a.ofJson?_toJson
  rw [toJson_eq]
  simp only [ofJson?, Json.record?, Option.bind_eq_bind, Option.bind_some, hname, harguments]
  rfl

theorem isPlain_toJson (d : Directive) : d.toJson.IsPlain := by
  rw [toJson_eq]
  apply Json.IsPlain.object
  apply forall_present
  intro s hs
  simp only [slots, List.mem_cons, List.not_mem_nil, or_false] at hs
  obtain rfl | rfl := hs
  · exact forall_some (Json.IsPlain.string d.name)
  · exact forall_listSlot (isPlain_list fun a _ => a.isPlain_toJson)

end Directive

namespace InputValue

/-- The values of an argument or input field under their keys. -/
def slots (v : InputValue) : List (String × Option Json) :=
  [("name", some (.string v.name)), ("description", v.description.map .string),
    ("type", some v.type.toJson), ("default_value", v.defaultValue.map .string),
    ("directives", listSlot Directive.toJson v.directives)]

theorem toJson_eq (v : InputValue) : v.toJson = .object (present v.slots) := by
  rw [toJson, Json.presentText_eq, Json.presentText_eq, Json.presentList_eq]
  rfl

theorem nodup_slots (v : InputValue) : (v.slots.map (·.1)).Nodup := by
  show ["name", "description", "type", "default_value", "directives"].Nodup
  decide

theorem ofJson?_toJson (v : InputValue) : ofJson? v.toJson = some v := by
  have hname := required_present v.nodup_slots
    (show ("name", some (.string v.name)) ∈ v.slots by simp [slots]) Json.string?
  have hdescription := optionalText_present v.nodup_slots
    (show ("description", v.description.map .string) ∈ v.slots by simp [slots])
  have htype := required_present v.nodup_slots
    (show ("type", some v.type.toJson) ∈ v.slots by simp [slots]) TypeReference.ofInnerJson?
  have hdefault := optionalText_present v.nodup_slots
    (show ("default_value", v.defaultValue.map .string) ∈ v.slots by simp [slots])
  have hdirectives := optionalList_present v.nodup_slots
    (show ("directives", listSlot Directive.toJson v.directives) ∈ v.slots by simp [slots])
    fun d _ => d.ofJson?_toJson
  rw [toJson_eq]
  simp only [ofJson?, Json.record?, Option.bind_eq_bind, Option.bind_some, hname, hdescription,
    htype, TypeReference.ofInnerJson?_toJson, hdefault, hdirectives]
  rfl

theorem isPlain_toJson (v : InputValue) : v.toJson.IsPlain := by
  rw [toJson_eq]
  apply Json.IsPlain.object
  apply forall_present
  intro s hs
  simp only [slots, List.mem_cons, List.not_mem_nil, or_false] at hs
  obtain rfl | rfl | rfl | rfl | rfl := hs
  · exact forall_some (Json.IsPlain.string v.name)
  · exact forall_textSlot Json.IsPlain.string
  · exact forall_some v.type.isPlain_toJson
  · exact forall_textSlot Json.IsPlain.string
  · exact forall_listSlot (isPlain_list fun d _ => d.isPlain_toJson)

end InputValue

namespace Field

/-- The values of a field under their keys. -/
def slots (f : Field) : List (String × Option Json) :=
  [("name", some (.string f.name)), ("description", f.description.map .string),
    ("arguments", listSlot InputValue.toJson f.arguments), ("type", some f.type.toJson),
    ("directives", listSlot Directive.toJson f.directives)]

theorem toJson_eq (f : Field) : f.toJson = .object (present f.slots) := by
  rw [toJson, Json.presentText_eq, Json.presentList_eq, Json.presentList_eq]
  rfl

theorem nodup_slots (f : Field) : (f.slots.map (·.1)).Nodup := by
  show ["name", "description", "arguments", "type", "directives"].Nodup
  decide

theorem ofJson?_toJson (f : Field) : ofJson? f.toJson = some f := by
  have hname := required_present f.nodup_slots
    (show ("name", some (.string f.name)) ∈ f.slots by simp [slots]) Json.string?
  have hdescription := optionalText_present f.nodup_slots
    (show ("description", f.description.map .string) ∈ f.slots by simp [slots])
  have harguments := optionalList_present f.nodup_slots
    (show ("arguments", listSlot InputValue.toJson f.arguments) ∈ f.slots by simp [slots])
    fun v _ => v.ofJson?_toJson
  have htype := required_present f.nodup_slots
    (show ("type", some f.type.toJson) ∈ f.slots by simp [slots]) TypeReference.ofInnerJson?
  have hdirectives := optionalList_present f.nodup_slots
    (show ("directives", listSlot Directive.toJson f.directives) ∈ f.slots by simp [slots])
    fun d _ => d.ofJson?_toJson
  rw [toJson_eq]
  simp only [ofJson?, Json.record?, Option.bind_eq_bind, Option.bind_some, hname, hdescription,
    harguments, htype, TypeReference.ofInnerJson?_toJson, hdirectives]
  rfl

theorem isPlain_toJson (f : Field) : f.toJson.IsPlain := by
  rw [toJson_eq]
  apply Json.IsPlain.object
  apply forall_present
  intro s hs
  simp only [slots, List.mem_cons, List.not_mem_nil, or_false] at hs
  obtain rfl | rfl | rfl | rfl | rfl := hs
  · exact forall_some (Json.IsPlain.string f.name)
  · exact forall_textSlot Json.IsPlain.string
  · exact forall_listSlot (isPlain_list fun v _ => v.isPlain_toJson)
  · exact forall_some f.type.isPlain_toJson
  · exact forall_listSlot (isPlain_list fun d _ => d.isPlain_toJson)

end Field

namespace EnumValue

/-- The values of an enum's value under their keys. -/
def slots (v : EnumValue) : List (String × Option Json) :=
  [("name", some (.string v.name)), ("description", v.description.map .string),
    ("directives", listSlot Directive.toJson v.directives)]

theorem toJson_eq (v : EnumValue) : v.toJson = .object (present v.slots) := by
  rw [toJson, Json.presentText_eq, Json.presentList_eq]
  rfl

theorem nodup_slots (v : EnumValue) : (v.slots.map (·.1)).Nodup := by
  show ["name", "description", "directives"].Nodup
  decide

theorem ofJson?_toJson (v : EnumValue) : ofJson? v.toJson = some v := by
  have hname := required_present v.nodup_slots
    (show ("name", some (.string v.name)) ∈ v.slots by simp [slots]) Json.string?
  have hdescription := optionalText_present v.nodup_slots
    (show ("description", v.description.map .string) ∈ v.slots by simp [slots])
  have hdirectives := optionalList_present v.nodup_slots
    (show ("directives", listSlot Directive.toJson v.directives) ∈ v.slots by simp [slots])
    fun d _ => d.ofJson?_toJson
  rw [toJson_eq]
  simp only [ofJson?, Json.record?, Option.bind_eq_bind, Option.bind_some, hname, hdescription,
    hdirectives]
  rfl

theorem isPlain_toJson (v : EnumValue) : v.toJson.IsPlain := by
  rw [toJson_eq]
  apply Json.IsPlain.object
  apply forall_present
  intro s hs
  simp only [slots, List.mem_cons, List.not_mem_nil, or_false] at hs
  obtain rfl | rfl | rfl := hs
  · exact forall_some (Json.IsPlain.string v.name)
  · exact forall_textSlot Json.IsPlain.string
  · exact forall_listSlot (isPlain_list fun d _ => d.isPlain_toJson)

end EnumValue

namespace Definition

/-- The implemented interfaces of a body. -/
def Body.interfacesSlot : Body → Option Json
  | .object interfaces _ => listSlot .string interfaces
  | .interface interfaces _ => listSlot .string interfaces
  | _ => none

/-- The parts of a body under their key. -/
def Body.partsSlot : Body → String × Option Json
  | .scalar => ("fields", none)
  | .object _ fields => ("fields", some (.array (fields.map Field.toJson)))
  | .interface _ fields => ("fields", some (.array (fields.map Field.toJson)))
  | .union members => ("members", some (.array (members.map .string)))
  | .enum values => ("values", some (.array (values.map EnumValue.toJson)))
  | .inputObject fields => ("fields", some (.array (fields.map InputValue.toJson)))

/-- The values of a definition under their keys. -/
def slots (d : Definition) : List (String × Option Json) :=
  [("kind", some (.string d.body.tag)), ("name", some (.string d.name)),
    ("description", d.description.map .string), ("interfaces", d.body.interfacesSlot),
    ("directives", listSlot Directive.toJson d.directives), d.body.partsSlot]

theorem Body.interfacesMember_eq (b : Body) :
    b.interfacesMember = b.interfacesSlot.map ("interfaces", ·) := by
  cases b with
  | object interfaces fields => exact Json.presentList_eq "interfaces" .string interfaces
  | interface interfaces fields => exact Json.presentList_eq "interfaces" .string interfaces
  | _ => rfl

theorem Body.partsMember_eq (b : Body) :
    b.partsMember = b.partsSlot.2.map (b.partsSlot.1, ·) := by
  cases b <;> rfl

theorem toJson_eq (d : Definition) : d.toJson = .object (present d.slots) := by
  rw [toJson, Json.presentText_eq, Body.interfacesMember_eq, Json.presentList_eq,
    Body.partsMember_eq]
  rfl

theorem nodup_slots (d : Definition) : (d.slots.map (·.1)).Nodup := by
  show ["kind", "name", "description", "interfaces", "directives", d.body.partsSlot.1].Nodup
  cases d.body <;> simp only [Body.partsSlot] <;> decide

theorem interfaces_present (d : Definition) {interfaces : List String}
    (h : d.body.interfacesSlot = listSlot .string interfaces) :
    Json.optionalList (present d.slots) "interfaces" Json.string? = some interfaces :=
  optionalList_present d.nodup_slots
    (show ("interfaces", listSlot Json.string interfaces) ∈ d.slots by simp [slots, h])
    fun _ _ => rfl

theorem parts_present {α : Type} (d : Definition) {key : String} {write : α → Json}
    {read : Json → Option α} {items : List α} (hread : ∀ a ∈ items, read (write a) = some a)
    (h : d.body.partsSlot = (key, some (.array (items.map write)))) :
    Json.required (present d.slots) key (Json.arrayOf? read) = some items := by
  rw [required_present d.nodup_slots
    (show (key, some (Json.array (items.map write))) ∈ d.slots by simp [slots, h])]
  exact arrayOf?_map hread

theorem fieldsBody_present (d : Definition) {interfaces : List String} {fields : List Field}
    (make : List String → List Field → Body)
    (hinterfaces : d.body.interfacesSlot = listSlot .string interfaces)
    (hfields : d.body.partsSlot = ("fields", some (.array (fields.map Field.toJson)))) :
    ((Json.optionalList (present d.slots) "interfaces" Json.string?).bind fun i =>
      (Json.required (present d.slots) "fields" (Json.arrayOf? Field.ofJson?)).bind fun p =>
        some (make i p)) = some (make interfaces fields) := by
  rw [d.interfaces_present hinterfaces, d.parts_present (fun f _ => f.ofJson?_toJson) hfields]
  rfl

theorem partsBody_present {α : Type} (d : Definition) {key : String} {write : α → Json}
    {read : Json → Option α} {items : List α} (make : List α → Body)
    (hread : ∀ a, read (write a) = some a)
    (hparts : d.body.partsSlot = (key, some (.array (items.map write)))) :
    make <$> Json.required (present d.slots) key (Json.arrayOf? read) = some (make items) := by
  rw [d.parts_present (fun a _ => hread a) hparts]
  rfl

theorem Body.ofMembers?_slots (d : Definition) :
    Body.ofMembers? d.body.tag (present d.slots) = some d.body := by
  obtain ⟨name, description, applied, body⟩ := d
  cases body with
  | scalar => rfl
  | object interfaces fields => exact fieldsBody_present _ .object rfl rfl
  | interface interfaces fields => exact fieldsBody_present _ .interface rfl rfl
  | union members =>
    have hread (member : String) : Json.string? (.string member) = some member := rfl
    exact partsBody_present _ .union hread rfl
  | enum values => exact partsBody_present _ .enum EnumValue.ofJson?_toJson rfl
  | inputObject fields => exact partsBody_present _ .inputObject InputValue.ofJson?_toJson rfl

theorem ofJson?_toJson (d : Definition) : ofJson? d.toJson = some d := by
  have hkind := required_present d.nodup_slots
    (show ("kind", some (.string d.body.tag)) ∈ d.slots by simp [slots]) Json.string?
  have hname := required_present d.nodup_slots
    (show ("name", some (.string d.name)) ∈ d.slots by simp [slots]) Json.string?
  have hdescription := optionalText_present d.nodup_slots
    (show ("description", d.description.map .string) ∈ d.slots by simp [slots])
  have hdirectives := optionalList_present d.nodup_slots
    (show ("directives", listSlot Directive.toJson d.directives) ∈ d.slots by simp [slots])
    fun x _ => x.ofJson?_toJson
  have htag : tagged? (.object (present d.slots)) = some (d.body.tag, present d.slots) := by
    simp only [tagged?, hkind]
    rfl
  rw [toJson_eq]
  simp only [ofJson?, htag, Option.bind_eq_bind, Option.bind_some, hname, hdescription,
    hdirectives, Body.ofMembers?_slots]
  rfl

theorem Body.isPlain_partsSlot (b : Body) : ∀ v ∈ b.partsSlot.2, v.IsPlain := by
  cases b with
  | scalar => exact fun v hv => absurd hv (by simp [Body.partsSlot])
  | object interfaces fields => exact forall_some (isPlain_list fun f _ => f.isPlain_toJson)
  | interface interfaces fields => exact forall_some (isPlain_list fun f _ => f.isPlain_toJson)
  | union members => exact forall_some (isPlain_list fun s _ => .string s)
  | enum values => exact forall_some (isPlain_list fun v _ => v.isPlain_toJson)
  | inputObject fields => exact forall_some (isPlain_list fun v _ => v.isPlain_toJson)

theorem Body.isPlain_interfacesSlot (b : Body) : ∀ v ∈ b.interfacesSlot, v.IsPlain := by
  cases b with
  | object interfaces fields => exact forall_listSlot (isPlain_list fun s _ => .string s)
  | interface interfaces fields => exact forall_listSlot (isPlain_list fun s _ => .string s)
  | _ => exact fun v hv => absurd hv (by simp [Body.interfacesSlot])

theorem isPlain_toJson (d : Definition) : d.toJson.IsPlain := by
  rw [toJson_eq]
  apply Json.IsPlain.object
  apply forall_present
  intro s hs
  simp only [slots, List.mem_cons, List.not_mem_nil, or_false] at hs
  obtain rfl | rfl | rfl | rfl | rfl | rfl := hs
  · exact forall_some (Json.IsPlain.string d.body.tag)
  · exact forall_some (Json.IsPlain.string d.name)
  · exact forall_textSlot Json.IsPlain.string
  · exact d.body.isPlain_interfacesSlot
  · exact forall_listSlot (isPlain_list fun x _ => x.isPlain_toJson)
  · exact d.body.isPlain_partsSlot

end Definition

namespace Document

theorem ofJson?_toJson (d : Document) : ofJson? d.toJson = some d := by
  have hdefinitions : Json.arrayOf? Definition.ofJson?
      (.array (d.definitions.map Definition.toJson)) = some d.definitions :=
    arrayOf?_map fun x _ => x.ofJson?_toJson
  show (Json.arrayOf? Definition.ofJson? (.array (d.definitions.map Definition.toJson))).bind
    (fun definitions => some (Document.mk definitions)) = _
  rw [hdefinitions]
  rfl

theorem boundedOfJson?_toJson (d : Document) (k : Nat) :
    boundedOfJson? k d.toJson = if hasDefinitionsWithin k d.toJson then some d else none := by
  rw [boundedOfJson?, d.ofJson?_toJson]

theorem isPlain_toJson (d : Document) : d.toJson.IsPlain := by
  refine .object fun m hm => ?_
  rw [List.mem_singleton] at hm
  subst hm
  exact isPlain_list fun x _ => x.isPlain_toJson

end Document

end GraphSchema
