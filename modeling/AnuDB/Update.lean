import AnuDB.Document
import AnuDB.Lib.Binary64

/-!
# Update operators

`Document::applyUpdate` goes through the operators of an update in key order and through
the fields of each in key order, and changes the data as it goes. A key with a dot is a
path: its pieces are walked one by one, a member by name or an element by number. The
two walks differ in what they do with a piece that leads nowhere – `$set` skips it and
goes on from where it stands (`AnuDB.setAt`), `$unset` gives up (`AnuDB.unsetAt`).

A piece of digits is read with `std::stoi`, which throws on the empty piece and on a
number beyond an `int`; so do `[]` and `erase` on data of the wrong kind. Everything
that throws leaves through `Except`.
-/

namespace AnuDB

/-! ### Comparing values -/

/-- A pattern of no number. -/
def isNaN (bits : UInt64) : Bool := 2047 * 2 ^ 52 < Binary64.field bits

/-- Equality of doubles: no NaN equals anything, and the two zeros are equal. -/
def floatEq (x y : UInt64) : Bool :=
  !isNaN x && !isNaN y && (x == y || (Binary64.field x == 0 && Binary64.field y == 0))

/-- `static_cast<double>` of an integer, to the nearest, ties to even; the value, not the
pattern. -/
def roundToDouble (i : ℤ) : ℤ :=
  let n := i.natAbs
  if n < 2 ^ 53 then i
  else
    let unit := 2 ^ (Nat.log2 n - 52)
    let up := unit < 2 * (n % unit) ∨ unit = 2 * (n % unit) ∧ n / unit % 2 = 1
    i.sign * ((if up then n / unit + 1 else n / unit) * unit : ℕ)

/-- Equality of an integer and a double, as doubles. -/
def intFloatEq (i : ℤ) (bits : UInt64) : Bool :=
  decide (Binary64.Finite bits) &&
    Binary64.scaledInt (roundToDouble i) == Binary64.scaled bits

mutual

/-- `operator==`: integers are compared as sixty-four bits. -/
def Json.eq : Json → Json → Bool
  | .null, .null => true
  | .boolean a, .boolean b => a == b
  | .integer a, .integer b => a % 2 ^ 64 == b % 2 ^ 64
  | .integer a, .float b => intFloatEq a b
  | .float a, .integer b => intFloatEq b a
  | .float a, .float b => floatEq a b
  | .string a, .string b => a == b
  | .array as, .array bs => eqItems as bs
  | .object as, .object bs => eqMembers as bs
  | _, _ => false

/-- Equality of arrays. -/
def eqItems : List Json → List Json → Bool
  | [], [] => true
  | a :: as, b :: bs => a.eq b && eqItems as bs
  | _, _ => false

/-- Equality of objects. -/
def eqMembers : List (Bytes × Json) → List (Bytes × Json) → Bool
  | [], [] => true
  | (k, a) :: as, (l, b) :: bs => k == l && a.eq b && eqMembers as bs
  | _, _ => false

end

/-- Whether one value is NaN and the other a number. -/
def comparesUnordered : Json → Json → Bool
  | .float a, .float b => isNaN a || isNaN b
  | .float a, .integer _ => isNaN a
  | .integer _, .float b => isNaN b
  | _, _ => false

/-- `operator!=`, which is not the negation of `==` where NaN is compared. -/
def Json.ne (a b : Json) : Bool := !comparesUnordered a b && !a.eq b

/-! ### Paths -/

/-- The byte between the pieces of a path. -/
def dot : UInt8 := 46

/-- The pieces `std::getline` takes off a key one after the other: what follows the last
dot is a piece only if there is something. -/
def pathTokens (key : Bytes) : List Bytes :=
  let pieces := key.splitOn dot
  if pieces.getLast? = some [] then pieces.dropLast else pieces

/-- What `std::stoi` throws. -/
def stoiError : Exn := .exception (Bytes.ofText "stoi")

/-- `std::stoi` of digits. -/
def stoi (token : Bytes) : Except Exn ℕ :=
  let n := token.foldl (fun n b => n * 10 + (b.toNat - 48)) 0
  if token = [] ∨ 2 ^ 31 ≤ n then .error stoiError else .ok n

/-- Whether every byte of a piece is a digit. -/
def allDigits (token : Bytes) : Bool := token.all fun b => 48 ≤ b.toNat && b.toNat ≤ 57

/-- **One piece of a path**: the value it leads to, with how to put another in its place,
or nothing if it leads nowhere. -/
def descend (token : Bytes) (current : Json) : Except Exn (Option (Json × (Json → Json))) :=
  match current with
  | .array items =>
    if allDigits token then do
      let index ← stoi token
      return (items[index]?).map fun item => (item, fun item' => .array (items.set index item'))
    else .ok none
  | .object members =>
    .ok ((members.lookup token).map fun value =>
      (value, fun value' => .object (Assoc.set token value' members)))
  | _ => .ok none

/-- The walk of `$set`: a piece that leads nowhere is skipped, and the value is assigned
only where the last piece is a member that is there. -/
def setAt (last : Bytes) (value : Json) : List Bytes → Json → Except Exn Json
  | [], current => if current.contains last then current.setMember last value else .ok current
  | token :: tokens, current => do
    match ← descend token current with
    | none => setAt last value tokens current
    | some (child, put) => return put (← setAt last value tokens child)

/-- The walk of `$unset`: a piece that leads nowhere ends it, and nothing is erased. -/
def unsetAt (last : Bytes) : List Bytes → Json → Except Exn Json
  | [], current => if current.contains last then current.eraseMember last else .ok current
  | token :: tokens, current => do
    match ← descend token current with
    | none => return current
    | some (child, put) => return put (← unsetAt last tokens child)

/-! ### The operators -/

/-- One field of `$set`. -/
def applySet (data : Json) (key : Bytes) (value : Json) : Except Exn Json :=
  if dot ∈ key then
    let tokens := pathTokens key
    setAt (tokens.getLastD []) value tokens.dropLast data
  else data.setMember key value

/-- One field of `$unset`. -/
def applyUnset (data : Json) (key : Bytes) (_value : Json) : Except Exn Json :=
  if dot ∈ key then
    let tokens := pathTokens key
    unsetAt (tokens.getLastD []) tokens.dropLast data
  else data.eraseMember key

/-- One field of `$push`: a field that is not there is assigned, one that is no array
becomes an array of two. -/
def applyPush (data : Json) (key : Bytes) (value : Json) : Except Exn Json :=
  match data.find? key with
  | none => data.setMember key value
  | some (.array items) => data.setMember key (.array (items ++ [value]))
  | some original => data.setMember key (.array [original, value])

/-- One field of `$pull`: a field that is no array is erased if it is the value, and set
to the value if it is not. -/
def applyPull (data : Json) (key : Bytes) (value : Json) : Except Exn Json :=
  match data.find? key with
  | none => .ok data
  | some (.array items) => data.setMember key (.array (items.filter fun item => item.ne value))
  | some current =>
    if current.eq value then data.eraseMember key else data.setMember key value

/-- The operator of a name; other names are ignored. -/
def operator (op : Bytes) : Option (Json → Bytes → Json → Except Exn Json) :=
  if op = Bytes.ofText "$set" then some applySet
  else if op = Bytes.ofText "$unset" then some applyUnset
  else if op = Bytes.ofText "$push" then some applyPush
  else if op = Bytes.ofText "$pull" then some applyPull
  else none

/-- One operator, over its fields. -/
def applyOperator (data : Json) (op : Bytes) (ops : Json) : Except Exn Json :=
  match operator op with
  | none => .ok data
  | some apply => do
    (← ops.entries).foldlM (fun data (key, value) => apply data key value) data

/-- `Document::applyUpdate`. -/
def Document.applyUpdate (doc : Document) (update : Json) : Except Exn Document := do
  let data ← (← update.entries).foldlM (fun data (op, ops) => applyOperator data op ops) doc.data_
  return { doc with data_ := data }

theorem Document.id_of_applyUpdate {doc doc' : Document} {update : Json}
    (h : doc.applyUpdate update = .ok doc') : doc'.id_ = doc.id_ := by
  obtain ⟨entries, -, h⟩ := bind_eq_ok_iff.mp h
  obtain ⟨data, -, h⟩ := bind_eq_ok_iff.mp h
  rw [← Except.ok.inj h]

end AnuDB
