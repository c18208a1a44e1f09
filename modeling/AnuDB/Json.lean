import AnuDB.Lib.Assoc
import AnuDB.Lib.Bytes

/-!
# JSON values, and the errors that cross the code

The values a document holds, as `nlohmann::json` stores them, with the few accessors
the rest of the code uses. Two choices of representation:

* a signed and an unsigned integer are one constructor: they compare equal, they print
  alike, `is_number_integer()` holds of both, and MessagePack does not keep them apart;
* a double is its 64-bit pattern, which is what the key encoder works on.

An accessor used on the wrong kind of value throws. `AnuDB.Exn` is what can be thrown,
with the text `what()` returns, because that text ends up in statuses and in replies;
it also has a constructor for undefined behaviour, which no `catch` intercepts.
-/

namespace AnuDB

/-- A JSON value. -/
inductive Json where
  /-- `null`. -/
  | null : Json
  /-- A boolean. -/
  | boolean (b : Bool) : Json
  /-- An integer, signed or unsigned. -/
  | integer (i : ℤ) : Json
  /-- A double, as its bits. -/
  | float (bits : UInt64) : Json
  /-- A string of bytes. -/
  | string (s : Bytes) : Json
  /-- An array. -/
  | array (items : List Json) : Json
  /-- An object: its members in key order. -/
  | object (members : List (Bytes × Json)) : Json
  deriving Repr

/-- The ways the code can run into undefined behaviour, or end the process. -/
inductive Undefined where
  /-- A member function called through a null `Collection` pointer. -/
  | nullCollection : Undefined
  /-- A member function called through a pointer to a `Collection` that is gone. -/
  | danglingCollection : Undefined
  /-- The RocksDB handle used while it is uninitialised, null or closed. -/
  | engineHandle : Undefined
  /-- An object iterator dereferenced at its end. -/
  | endIterator : Undefined
  /-- A key read past its last byte. -/
  | pastKey : Undefined
  /-- A double converted to an integer type that has no value near it. -/
  | conversion : Undefined
  /-- An exception that leaves a thread, or a joinable thread assigned to or destroyed. -/
  | terminate : Undefined
  deriving DecidableEq, Repr

/-- What leaves a function otherwise than by returning. -/
inductive Exn where
  /-- A `std::exception`, with the text of its `what()`. -/
  | exception (what : Bytes) : Exn
  /-- Undefined behaviour or the end of the process: no handler sees it. -/
  | undefined (u : Undefined) : Exn
  deriving DecidableEq, Repr

@[simp] theorem ok_bind {α β : Type} (a : α) (f : α → Except Exn β) :
    (Except.ok a >>= f) = f a := rfl

@[simp] theorem error_bind {α β : Type} (exn : Exn) (f : α → Except Exn β) :
    (Except.error exn >>= f) = .error exn := rfl

/-- A sequence returns what its second part returns for what its first part returned. -/
theorem bind_eq_ok_iff {α β : Type} {x : Except Exn α} {f : α → Except Exn β} {b : β} :
    x >>= f = .ok b ↔ ∃ a, x = .ok a ∧ f a = .ok b := by
  cases x with
  | error e => exact iff_of_false (fun h => by cases h) (fun ⟨a, h, _⟩ => by cases h)
  | ok a => exact ⟨fun h => ⟨a, rfl, h⟩, fun ⟨a', h, hf⟩ => by cases h; exact hf⟩

theorem eq_ok_of_toOption {ε α : Type} {x : Except ε α} {a : α} (h : x.toOption = some a) :
    x = .ok a := by
  cases x with
  | error exn => cases h
  | ok b => exact congrArg Except.ok (Option.some.inj h)

/-- What is read, and what comes of it. -/
theorem eq_some_of_toOption {ε α β : Type} {x : Except ε α} {f : α → Option β} {b : β}
    (h : x.toOption >>= f = some b) : ∃ a, x = .ok a ∧ f a = some b := by
  obtain ⟨a, hx, ha⟩ := Option.bind_eq_some_iff.mp h
  exact ⟨a, eq_ok_of_toOption hx, ha⟩

namespace Json

/-- The name of a value's type, as error texts give it. -/
def typeName : Json → Bytes
  | null => Bytes.ofText "null"
  | boolean _ => Bytes.ofText "boolean"
  | integer _ => Bytes.ofText "number"
  | float _ => Bytes.ofText "number"
  | string _ => Bytes.ofText "string"
  | array _ => Bytes.ofText "array"
  | object _ => Bytes.ofText "object"

/-- `type_error::create(302, ...)`: a value read as a string. -/
def notAString (j : Json) : Exn :=
  .exception (Bytes.ofText "[json.exception.type_error.302] type must be string, but is " ++
    j.typeName)

/-- `type_error::create(305, ...)`: a value indexed by a key. -/
def notIndexable (j : Json) : Exn :=
  .exception (Bytes.ofText
    "[json.exception.type_error.305] cannot use operator[] with a string argument with " ++
    j.typeName)

/-- `type_error::create(307, ...)`: a member erased from a value that has none. -/
def notErasable (j : Json) : Exn :=
  .exception (Bytes.ofText "[json.exception.type_error.307] cannot use erase() with " ++
    j.typeName)

/-- `invalid_iterator::create(207, ...)`: the key of an element that has none. -/
def noKey : Exn :=
  .exception (Bytes.ofText
    "[json.exception.invalid_iterator.207] cannot use key() for non-object iterators")

/-- The member of an object, as `find` looks it up; other values have none. -/
def find? (j : Json) (field : Bytes) : Option Json :=
  match j with
  | object members => members.lookup field
  | _ => none

/-- `j.contains(field)`. -/
def contains (j : Json) (field : Bytes) : Bool := (j.find? field).isSome

/-- `j[field] = value`: null becomes an object first, and anything but an object
throws. -/
def setMember (j : Json) (field : Bytes) (value : Json) : Except Exn Json :=
  match j with
  | null => .ok (object [(field, value)])
  | object members => .ok (object (Assoc.set field value members))
  | j => .error j.notIndexable

/-- `j.erase(field)`. -/
def eraseMember (j : Json) (field : Bytes) : Except Exn Json :=
  match j with
  | object members => .ok (object (Assoc.erase field members))
  | j => .error j.notErasable

/-- `j.get<std::string>()`. -/
def getString : Json → Except Exn Bytes
  | string s => .ok s
  | j => .error j.notAString

/-- Whether a value is an object. -/
def isObject : Json → Bool
  | object _ => true
  | _ => false

/-- **The elements `for (it = j.begin(); it != j.end(); it++)` visits**, each with its
`it.key()` and `it.value()`. A value that is neither an object, an array nor null is
its own only element, and the key of an element of anything but an object throws. -/
def entries : Json → Except Exn (List (Bytes × Json))
  | null => .ok []
  | array [] => .ok []
  | object members => .ok members
  | _ => .error noKey

/-- `j.begin().key()` and `j.begin().value()`: the first member of an object. At the end
of an empty object the iterator is dereferenced all the same. -/
def firstEntry : Json → Except Exn (Bytes × Json)
  | object [] => .error (.undefined .endIterator)
  | object (e :: _) => .ok e
  | _ => .error noKey

theorem isObject_of_find? {field : Bytes} {j v : Json} (h : j.find? field = some v) :
    j.isObject = true := by
  cases j <;> simp_all [find?, isObject]

theorem isObject_of_setMember {field : Bytes} {value j j' : Json}
    (h : j.setMember field value = .ok j') : j'.isObject = true := by
  cases j <;> simp_all [setMember] <;> simp [← h, isObject]

/-- A member that has been set is found. -/
theorem find?_of_setMember {field : Bytes} {value j j' : Json}
    (h : j.setMember field value = .ok j') : j'.find? field = some value := by
  cases j with
  | null =>
    obtain rfl : object [(field, value)] = j' := Except.ok.inj h
    simp [find?]
  | object members =>
    obtain rfl : object (Assoc.set field value members) = j' := Except.ok.inj h
    simp [find?]
  | _ => simp [setMember] at h

/-- Setting a member leaves the others alone. -/
theorem find?_of_setMember_of_ne {field field' : Bytes} {value j j' : Json}
    (h : j.setMember field value = .ok j') (hne : field' ≠ field) :
    j'.find? field' = j.find? field' := by
  cases j with
  | null =>
    obtain rfl : object [(field, value)] = j' := Except.ok.inj h
    simp [find?, List.lookup_cons, beq_eq_false_iff_ne.mpr hne]
  | object members =>
    obtain rfl : object (Assoc.set field value members) = j' := Except.ok.inj h
    simp [find?, Assoc.lookup_set_of_ne hne]
  | _ => simp [setMember] at h

/-- A member that has been erased is not found. -/
theorem find?_of_eraseMember {field : Bytes} {j j' : Json} (h : j.eraseMember field = .ok j') :
    j'.find? field = none := by
  cases j with
  | object members =>
    obtain rfl : object (Assoc.erase field members) = j' := Except.ok.inj h
    exact Assoc.lookup_erase_self field members
  | _ => simp [eraseMember] at h

/-- Erasing a member leaves the others alone. -/
theorem find?_of_eraseMember_of_ne {field field' : Bytes} {j j' : Json}
    (h : j.eraseMember field = .ok j') (hne : field' ≠ field) :
    j'.find? field' = j.find? field' := by
  cases j with
  | object members =>
    obtain rfl : object (Assoc.erase field members) = j' := Except.ok.inj h
    exact Assoc.lookup_erase_of_ne hne members
  | _ => simp [eraseMember] at h

theorem isObject_of_eraseMember {field : Bytes} {j j' : Json} (h : j.eraseMember field = .ok j') :
    j'.isObject = true := by
  cases j with
  | object members => exact Except.ok.inj h ▸ rfl
  | _ => cases h

/-- An object can have its members set and erased. -/
theorem exists_setMember {j : Json} (hj : j.isObject = true) (field : Bytes) (value : Json) :
    ∃ j', j.setMember field value = .ok j' := by
  cases j with
  | object members => exact ⟨_, rfl⟩
  | _ => cases hj

theorem exists_eraseMember {j : Json} (hj : j.isObject = true) (field : Bytes) :
    ∃ j', j.eraseMember field = .ok j' := by
  cases j with
  | object members => exact ⟨_, rfl⟩
  | _ => cases hj

end Json

end AnuDB
