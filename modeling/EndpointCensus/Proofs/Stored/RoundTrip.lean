import EndpointCensus.Proofs.Stored.Fields
import EndpointCensus.Stored.Records

/-!
Records that are written and read again. Metadata leave out empty lists and a mark that is not set,
endpoints leave out an empty list of parameters, and none of these can be read when it is missing.
Every other field is read as it was written, so a record can be read again exactly when nothing in
it was left out that way.
-/

namespace EndpointCensus

open Stored

/-! ### Names -/

theorem Method.lawful : Lawful Method.toJson Method.ofJson? := by
  intro m
  cases m <;> rfl

theorem Idiom.lawful : Lawful Idiom.toJson Idiom.ofJson? := by
  intro i
  cases i <;> rfl

theorem NodeKind.lawful : Lawful NodeKind.toJson NodeKind.ofJson? := by
  intro k
  cases k <;> rfl

/-! ### Fields of records -/

namespace Location

/-- The line number fits in a machine word. -/
def isWord (l : Location) : Bool := l.line ≤ Text.maxWord

theorem restores : Restores Location.toJson Location.ofJson? isWord := by
  intro l
  have hfields : fields? ["unit", "line"] l.toJson =
      some [some (.str l.unit), some (.nat l.line)] :=
    fields?_record rfl (by decide) rfl
  have hline : Json.nat? Text.maxWord (.nat l.line) = if l.isWord then some l.line else none := by
    simp [Json.nat?, Json.nat, isWord]
  unfold ofJson?
  rw [hfields]
  dsimp only [Option.bind_eq_bind, Option.bind_some, required?, Json.str?]
  rw [hline]
  cases l.isWord <;> rfl

end Location

namespace Metadata

/-- Nothing is left out that must be there to be read. -/
def isFull (m : Metadata) : Bool := !m.tags.isEmpty && !m.dependencies.isEmpty && m.deprecated

theorem fields?_toJson (m : Metadata) :
    fields? ["status_code", "tags", "summary", "dependencies", "name", "deprecated"] m.toJson =
      some [m.statusCode.map fun n => .nat n.toNat, listField .str m.tags, m.summary.map .str,
        listField .str m.dependencies, m.name.map .str,
          (if m.deprecated then some true else none).map .bool] := by
  refine fields?_record ?_ (by decide) rfl
  simp only [toJson, present_member, present_listMember, present_nil, List.append_nil,
    List.append_assoc]

theorem optional?_statusCode (code : Option UInt16) :
    optional? (Json.nat? 65535) (code.map fun n => .nat n.toNat) =
      some (code.map UInt16.toNat) := by
  cases code with
  | none => rfl
  | some n =>
    have hbound : (n.toNat : Int) ≤ 65535 := by
      have := n.toNat_lt
      omega
    simp [optional?, Json.nullable?, Json.nat?, Json.nat, hbound]

theorem restores : Restores Metadata.toJson Metadata.ofJson? isFull := by
  intro m
  have hcode : (m.statusCode.map UInt16.toNat).map UInt16.ofNat = m.statusCode := by
    cases m.statusCode <;> simp
  have hmark : required? Json.bool? ((if m.deprecated then some true else none).map .bool) =
      if m.deprecated then some true else none := by
    cases m.deprecated <;> rfl
  unfold ofJson?
  rw [fields?_toJson]
  dsimp only [Option.bind_eq_bind, Option.bind_some]
  rw [optional?_statusCode, lawful_str.required?_listField, lawful_str.optional?_map str_ne_null,
    lawful_str.required?_listField, lawful_str.optional?_map str_ne_null, hmark]
  dsimp only [Option.bind_some]
  rw [hcode]
  obtain ⟨code, tags, summary, dependencies, name, deprecated⟩ := m
  cases tags <;> cases dependencies <;> cases deprecated <;> rfl

end Metadata

/-! ### The composition graph -/

theorem Reference.lawful : Lawful Reference.toJson Reference.ofJson? := by
  intro r
  have hfields : fields? ["unit", "module", "name", "factory"] r.toJson =
      some [some (.ofOption .str r.unit), some (.str r.module), some (.str r.name),
        some (.bool r.factory)] :=
    fields?_record rfl (by decide) rfl
  unfold ofJson?
  rw [hfields]
  have hunit : optional? Json.str? (some (.ofOption .str r.unit)) = some r.unit :=
    lawful_str.nullable? str_ne_null r.unit
  dsimp only [Option.bind_eq_bind, Option.bind_some]
  rw [hunit]
  rfl

theorem Reference.toJson_ne_null (r : Reference) : r.toJson ≠ .null := fun h => Json.noConfusion h

theorem Binding.lawful_entry :
    Lawful (fun e : Method × String => .arr [e.1.toJson, .str e.2]) Binding.entry? := by
  intro e
  unfold entry?
  dsimp only
  rw [Method.lawful]
  rfl

theorem Binding.lawful : Lawful Binding.toJson Binding.ofJson? := by
  intro b
  cases b with
  | view methodMap =>
    have hbody : fields? ["method_map"] (.obj [("method_map",
        .ofList (fun e => .arr [e.1.toJson, .str e.2]) methodMap)]) =
          some [some (.ofList (fun e => .arr [e.1.toJson, .str e.2]) methodMap)] :=
      fields?_record rfl (by decide) rfl
    have hentries : required? (Json.list? entry?)
        (some (.ofList (fun e => .arr [e.1.toJson, .str e.2]) methodMap)) =
        some methodMap := lawful_entry.list? methodMap
    simp only [toJson, ofJson?, hbody, hentries, Option.bind_eq_bind, Option.bind_some]
  | _ => rfl

namespace Link

def isFull (l : Link) : Bool := l.metadata.isFull && l.location.isWord

theorem restores : Restores Link.toJson Link.ofJson? isFull := by
  intro l
  have hfields : fields? ["target", "symbol", "binding", "prefix", "metadata", "location"] l.toJson =
      some [some l.target.toJson, some (.str l.symbol), some l.binding.toJson, some (.str l.path),
        some l.metadata.toJson, some l.location.toJson] :=
    fields?_record rfl (by decide) rfl
  unfold ofJson?
  rw [hfields]
  dsimp only [Option.bind_eq_bind, Option.bind_some, required?, Json.str?]
  rw [Reference.lawful, Binding.lawful, Metadata.restores, Location.restores]
  unfold isFull
  cases l.metadata.isFull <;> cases l.location.isWord <;> rfl

end Link

namespace Node

def isFull (n : Node) : Bool := n.metadata.isFull && n.links.all Link.isFull && n.location.isWord

theorem restores : Restores Node.toJson Node.ofJson? isFull := by
  intro n
  have hfields : fields? ["unit", "module", "name", "kind", "prefix", "metadata", "bases",
      "aliases", "factory", "extends", "links", "location"] n.toJson =
        some [some (.str n.unit), some (.str n.module), some (.str n.name), some n.kind.toJson,
          some (.str n.path), some n.metadata.toJson, some (.ofList Reference.toJson n.bases),
          some (.ofList .str n.aliases), some (.ofOption .str n.factory),
          some (.ofOption Reference.toJson n.stands), some (.ofList Link.toJson n.links),
            some n.location.toJson] :=
    fields?_record rfl (by decide) rfl
  unfold ofJson?
  rw [hfields]
  dsimp only [Option.bind_eq_bind, Option.bind_some, required?, optional?, Json.str?]
  rw [NodeKind.lawful, Metadata.restores, Reference.lawful.list?, lawful_str.list?,
    lawful_str.nullable? str_ne_null, Reference.lawful.nullable? Reference.toJson_ne_null,
    Link.restores.list?, Location.restores]
  unfold isFull
  cases n.metadata.isFull <;> cases n.links.all Link.isFull <;> cases n.location.isWord <;> rfl

end Node

namespace Fragment

def isFull (f : Fragment) : Bool := f.metadata.isFull && f.location.isWord

theorem restores : Restores Fragment.toJson Fragment.ofJson? isFull := by
  intro f
  have hfields : fields? ["method", "path", "symbol", "action", "idiom", "location", "metadata",
      "key"] f.toJson = some [some f.method.toJson, some (.str f.path), some (.str f.symbol),
        some (.ofOption .str f.action), some f.idiom.toJson, some f.location.toJson,
        some f.metadata.toJson, some (.ofOption Reference.toJson f.key)] :=
    fields?_record rfl (by decide) rfl
  unfold ofJson?
  rw [hfields]
  dsimp only [Option.bind_eq_bind, Option.bind_some, required?, optional?, Json.str?]
  rw [Method.lawful, lawful_str.nullable? str_ne_null, Idiom.lawful, Location.restores,
    Metadata.restores, Reference.lawful.nullable? Reference.toJson_ne_null]
  unfold isFull
  cases f.location.isWord <;> cases f.metadata.isFull <;> rfl

end Fragment

/-! ### Endpoints -/

theorem Param.lawful : Lawful Param.toJson Param.ofJson? := by
  intro p
  have hfields : fields? ["name", "constraint"] p.toJson =
      some [some (.str p.name), p.constraint.map .str] := by
    refine fields?_record ?_ (by decide) rfl
    simp only [toJson, present, present_member, List.append_nil]
  unfold ofJson?
  rw [hfields]
  dsimp only [Option.bind_eq_bind, Option.bind_some]
  rw [lawful_str.optional?_map str_ne_null]
  rfl

namespace Endpoint

def isFull (e : Endpoint) : Bool := e.location.isWord && e.metadata.isFull && !e.params.isEmpty

theorem restores : Restores Endpoint.toJson Endpoint.ofJson? isFull := by
  intro e
  have hfields : fields? ["method", "path", "symbol", "location", "metadata", "params",
      "unresolved"] e.toJson = some [some e.method.toJson, some (.str e.path), some (.str e.symbol),
        some e.location.toJson, some e.metadata.toJson, listField Param.toJson e.params,
          e.unresolved.map .str] := by
    refine fields?_record ?_ (by decide) rfl
    simp only [toJson, present, present_member, present_listMember, List.append_nil,
      List.cons_append, List.nil_append]
  unfold ofJson?
  rw [hfields]
  dsimp only [Option.bind_eq_bind, Option.bind_some]
  rw [Param.lawful.required?_listField, lawful_str.optional?_map str_ne_null]
  dsimp only [Option.bind_some, required?, Json.str?]
  rw [Method.lawful, Location.restores, Metadata.restores]
  obtain ⟨method, path, symbol, location, metadata, params, unresolved⟩ := e
  unfold isFull
  dsimp only
  cases location.isWord <;> cases metadata.isFull <;> cases params <;> rfl

end Endpoint

/-! ### Reports -/

namespace Issue

def isWord : Issue → Bool
  | duplicateRegistration _ _ other => other.isWord
  | _ => true

theorem lawful_method : Lawful Method.toJson method? := by
  intro m
  cases m <;> rfl

theorem lawful_idiom : Lawful Idiom.toJson idiom? := by
  intro i
  cases i <;> rfl

theorem areReadable_idioms (idioms : List Idiom) :
    Json.areReadable (idioms.map Idiom.toJson) = true := by
  induction idioms with
  | nil => rfl
  | cons i rest ih => exact ih

/-- An issue is read by its kind, from the fields it has besides. -/
theorem ofJson?_toJson (i : Issue) (hkeys : ∀ m ∈ i.parts.2, m.1 ≠ "kind")
    (hreadable : i.toJson.isReadable = true) :
    ofJson? i.toJson = ofParts? i.parts.1 (.obj i.parts.2) := by
  have hother : i.parts.2.filter (·.1 == "kind") = [] := by
    rw [List.filter_eq_nil_iff]
    intro m hm
    simpa using hkeys m hm
  have hself : i.parts.2.filter (·.1 != "kind") = i.parts.2 := by
    rw [List.filter_eq_self]
    intro m hm
    simpa using hkeys m hm
  have hkind : member? (("kind", .str i.parts.1) :: i.parts.2) "kind" =
      some (some (.str i.parts.1)) := by
    unfold member?
    rw [List.filter_cons_of_pos (by rfl), hother]
  unfold toJson at hreadable ⊢
  unfold ofJson?
  dsimp only [Option.bind_eq_bind]
  rw [hkind, hreadable, List.filter_cons_of_neg (by simp), hself]
  rfl

theorem restores : Restores Issue.toJson Issue.ofJson? isWord := by
  intro i
  cases i with
  | duplicateRegistration method path other =>
    have hfields : fields? ["method", "path", "other"]
        (.obj (duplicateRegistration method path other).parts.2) =
          some [some method.toJson, some (.str path), some other.toJson] :=
        fields?_record rfl (by decide) rfl
    rw [ofJson?_toJson _ (by simp [parts]) (by rfl), ofParts?, hfields]
    by_cases hword : other.isWord = true <;>
      simp [parts, required?, Json.str?, lawful_method method, Location.restores other, isWord,
        hword]
  | repeatedInclusion method path =>
    have hfields : fields? ["method", "path"] (.obj (repeatedInclusion method path).parts.2) =
        some [some method.toJson, some (.str path)] := fields?_record rfl (by decide) rfl
    rw [ofJson?_toJson _ (by simp [parts]) (by rfl), ofParts?, hfields]
    simp [parts, required?, Json.str?, lawful_method method, isWord]
  | ambiguousMatch idioms =>
    have hfields : fields? ["idioms"] (.obj (ambiguousMatch idioms).parts.2) =
        some [some (.ofList Idiom.toJson idioms)] := fields?_record rfl (by decide) rfl
    have hreadable : (ambiguousMatch idioms).toJson.isReadable = true := by
      simp [toJson, parts, Json.ofList, Json.isReadable, Json.haveReadable, areReadable_idioms]
    rw [ofJson?_toJson _ (by simp [parts]) hreadable, ofParts?, hfields]
    simp [parts, required?, lawful_idiom.list? idioms, isWord]
  | _ => rfl

end Issue

namespace Diagnostic

/-- Line numbers in the diagnostic fit in a machine word. -/
def isWord (d : Diagnostic) : Bool := d.location.isWord && d.issue.isWord

theorem restores : Restores Diagnostic.toJson Diagnostic.ofJson? isWord := by
  intro d
  have hfields : fields? ["location", "issue"] d.toJson =
      some [some d.location.toJson, some d.issue.toJson] :=
    fields?_record rfl (by decide) rfl
  unfold ofJson?
  rw [hfields]
  dsimp only [Option.bind_eq_bind, Option.bind_some, required?]
  rw [Location.restores, Issue.restores]
  unfold isWord
  cases d.location.isWord <;> cases d.issue.isWord <;> rfl

end Diagnostic

namespace UnitReport

def isFull (r : UnitReport) : Bool :=
  r.fragments.all Fragment.isFull && r.nodes.all Node.isFull && r.diagnostics.all Diagnostic.isWord

theorem restores : Restores UnitReport.toJson UnitReport.ofJson? isFull := by
  intro r
  have hfields : fields? ["identity", "fragments", "nodes", "diagnostics"] r.toJson =
      some [some (.str r.identity), some (.ofList Fragment.toJson r.fragments),
        some (.ofList Node.toJson r.nodes), some (.ofList Diagnostic.toJson r.diagnostics)] :=
    fields?_record rfl (by decide) rfl
  unfold ofJson?
  rw [hfields]
  dsimp only [Option.bind_eq_bind, Option.bind_some, required?, Json.str?]
  rw [Fragment.restores.list?, Node.restores.list?, Diagnostic.restores.list?]
  unfold isFull
  cases r.fragments.all Fragment.isFull <;> cases r.nodes.all Node.isFull <;>
    cases r.diagnostics.all Diagnostic.isWord <;> rfl

end UnitReport

/-! ### Stored records -/

/-- A report or an endpoint that was stored is read as it was, and cannot be read if something was
left out of it that must be there. -/
theorem stored_round_trip (r : UnitReport) (e : Endpoint) :
    UnitReport.ofJson? r.toJson = (if r.isFull then some r else none) ∧
      Endpoint.ofJson? e.toJson = if e.isFull then some e else none :=
  ⟨UnitReport.restores r, Endpoint.restores e⟩

/-- Records without metadata cannot be read again. -/
theorem stored_without_metadata :
    Endpoint.ofJson? (Endpoint.toJson ⟨.get, "/", "f", ⟨"u", 1⟩, {}, [], none⟩) = none ∧
      UnitReport.ofJson? (UnitReport.toJson
        ⟨"u", [⟨.get, "/", "f", none, .decoratorCall, ⟨"u", 1⟩, {}, none⟩], [], []⟩) = none := by
  decide

end EndpointCensus
