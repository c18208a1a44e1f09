import AnuDB.Codec

/-!
# Documents

A document is an id and a value, and is stored as an object of the two. The id is also
the key it is stored under, so there are two of them, and a third one if the data has a
member `_id`; nothing in the type makes them agree.

Reading a document back indexes the stored value with `[]`, which adds a missing member
as null, and converts the id to a string, which throws if it is not one. What was
written by `AnuDB.Document.to_msgpack` is read back as it was
(`AnuDB.Document.from_msgpack_to_msgpack`).
-/

namespace AnuDB

/-- A document. -/
structure Document where
  /-- The id. -/
  id_ : Bytes
  /-- The data. -/
  data_ : Json

/-- The member the id of a document goes into. -/
def idField : Bytes := Bytes.ofText "_id"

/-- The member the data of a document goes into when it is stored. -/
def dataField : Bytes := Bytes.ofText "data"

/-- `j[field]` read from a value that is not constant: null becomes an object, and a
member that is missing becomes null. -/
def Json.index (j : Json) (field : Bytes) : Except Exn Json :=
  match j with
  | .null => .ok .null
  | .object _ => .ok ((j.find? field).getD .null)
  | j => .error j.notIndexable

namespace Document

/-- `Document::hasField`. -/
def hasField (doc : Document) (field : Bytes) : Bool := doc.data_.contains field

/-- `Document::setValue`. -/
def setValue (doc : Document) (field : Bytes) (value : Json) : Except Exn Document := do
  let data ← doc.data_.setMember field value
  return { doc with data_ := data }

/-- The value a document is stored as. -/
def envelope (doc : Document) : Json :=
  .object [(idField, .string doc.id_), (dataField, doc.data_)]

/-- `Document::to_msgpack`. -/
def to_msgpack (codec : Codec) (doc : Document) : Bytes := codec.to_msgpack doc.envelope

/-- `Document::from_msgpack`. -/
def from_msgpack (codec : Codec) (msgpack_data : Bytes) : Except Exn Document := do
  let j ← codec.from_msgpack msgpack_data
  let id ← (← j.index idField).getString
  let data ← j.index dataField
  return ⟨id, data⟩

/-- **A document that was stored is read back.** -/
theorem from_msgpack_to_msgpack (codec : Codec) (doc : Document) :
    from_msgpack codec (to_msgpack codec doc) = .ok doc := by
  rw [from_msgpack, to_msgpack, codec.from_to]
  rfl

/-- What `createDocument` makes of a document with an id before it stores it: the data
with `_id` if it has none. -/
def withId (doc : Document) : Except Exn Document :=
  if doc.hasField idField then .ok doc else doc.setValue idField (.string doc.id_)

theorem id_of_setValue {doc doc' : Document} {field : Bytes} {value : Json}
    (h : doc.setValue field value = .ok doc') : doc'.id_ = doc.id_ := by
  obtain ⟨data, -, h⟩ := bind_eq_ok_iff.mp h
  rw [← Except.ok.inj h]

theorem id_of_withId {doc doc' : Document} (h : doc.withId = .ok doc') : doc'.id_ = doc.id_ := by
  rw [withId] at h
  split_ifs at h
  · rw [← Except.ok.inj h]
  · exact id_of_setValue h

/-- A document that can be stored is an object. -/
theorem isObject_of_withId {doc doc' : Document} (h : doc.withId = .ok doc') :
    doc'.data_.isObject = true := by
  rw [withId] at h
  split_ifs at h with hf
  · obtain ⟨v, hv⟩ := Option.isSome_iff_exists.mp hf
    rw [← Except.ok.inj h]
    exact Json.isObject_of_find? hv
  · obtain ⟨data, hd, h⟩ := bind_eq_ok_iff.mp h
    rw [← Except.ok.inj h]
    exact Json.isObject_of_setMember hd

end Document

end AnuDB
