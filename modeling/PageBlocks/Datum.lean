import PageBlocks.Value

/-!
# Loosely typed data

What a document holds before it is known what it should be. Unlike a `Value`,
an object here may repeat a key, its keys need not be texts, and a float may be
infinite or no number. JSON values are data of this kind (`Datum.ofValue`), and
so are the parts of a YAML document whose type depends on their contents.

A record is read from an object by the names of its fields, in any order and
with unknown keys passed over, or from an array by the order of its fields with
trailing ones left out. In an object, a field may also be given by its position.
-/

namespace PageBlocks

/-- Loosely typed data. -/
inductive Datum where
  | null
  | bool (b : Bool)
  | int (n : Int)
  /-- A float; nothing stands for the infinities and for no number. -/
  | float (x : Option Binary64)
  | string (s : String)
  | array (items : List Datum)
  | object (members : List (Datum × Datum))
deriving Inhabited

namespace Datum

mutual
/-- A value as a datum. -/
def ofValue : Value → Datum
  | .null => .null
  | .bool b => .bool b
  | .int n => .int n
  | .float x => .float (some x)
  | .string s => .string s
  | .array items => .array (ofItems items)
  | .object members => .object (ofMembers members)

def ofItems : List Value → List Datum
  | [] => []
  | v :: vs => ofValue v :: ofItems vs

def ofMembers : List (String × Value) → List (Datum × Datum)
  | [] => []
  | (k, v) :: ms => (.string k, ofValue v) :: ofMembers ms
end

mutual
/-- A datum as a value. Keys must be texts, the last of several equal ones stays, and a float
that is not finite becomes null. -/
def toValue? : Datum → Option Value
  | .null => some .null
  | .bool b => some (.bool b)
  | .int n => some (.int n)
  | .float none => some .null
  | .float (some x) => some (.float x)
  | .string s => some (.string s)
  | .array items => (toItems? items).map .array
  | .object members => (toMembers? members).map Value.ofMembers

def toItems? : List Datum → Option (List Value)
  | [] => some []
  | d :: ds => do return (← toValue? d) :: (← toItems? ds)

def toMembers? : List (Datum × Datum) → Option (List (String × Value))
  | [] => some []
  | (.string k, d) :: ms => do return (k, ← toValue? d) :: (← toMembers? ms)
  | _ :: _ => none
end

/-! ## Simple parts -/

def text? : Datum → Option String
  | .string s => some s
  | _ => none

def flag? : Datum → Option Bool
  | .bool b => some b
  | _ => none

/-- A number from zero up to a limit. -/
def count? (limit : Nat) : Datum → Option Nat
  | .int n => if 0 ≤ n ∧ n < limit then some n.toNat else none
  | _ => none

/-- A list, item by item. -/
def list? {α : Type} (read : Datum → Option α) : Datum → Option (List α)
  | .array items => items.mapM read
  | _ => none

/-- Null for nothing. -/
def option? {α : Type} (read : Datum → Option α) : Datum → Option (Option α)
  | .null => some none
  | d => (read d).map some

/-- A dictionary. Keys must be texts; the last of several equal ones stays. -/
def dict? {α : Type} (read : Datum → Option α) : Datum → Option (Dict α)
  | .object members => do
    let pairs ← members.mapM fun (k, d) => do return (← text? k, ← read d)
    return .ofList pairs
  | _ => none

/-- One of some names: as a text, or as the only key of an object with null under it. -/
def choice? {α : Type} (ofName? : String → Option α) : Datum → Option α
  | .string s => ofName? s
  | .object [(.string s, .null)] => ofName? s
  | _ => none

end Datum

/-- The fields found for a record. -/
structure Record where
  present : List (String × Datum)
  /-- Whether they came from an array. -/
  positional : Bool

namespace Record

/-- The name that a key gives to a field, or nothing where the key cannot be one. An unknown
position names no field. -/
def fieldName? (names : List String) : Datum → Option String
  | .string s => some s
  | .int n => if 0 ≤ n then some ((names[n.toNat]?).getD "") else none
  | _ => none

/-- Adds a member to the fields of a record. A field must not be given twice. -/
def add? (names : List String) (strict : Bool) (present : List (String × Datum))
    (member : Datum × Datum) : Option (List (String × Datum)) := do
  let name ← fieldName? names member.1
  if names.contains name then
    if (Entries.get? name present).isSome then none else some (present ++ [(name, member.2)])
  else if strict then none else some present

/-- The fields of a record, named in the order they are declared. A strict record knows no
further keys. -/
def of? (names : List String) (strict : Bool) : Datum → Option Record
  | .object members => do
    return { present := ← members.foldlM (add? names strict) [], positional := false }
  | .array items =>
    if items.length ≤ names.length then some { present := names.zip items, positional := true }
    else none
  | _ => none

variable {α : Type}

/-- A field that must be given. -/
def need? (r : Record) (name : String) (read : Datum → Option α) : Option α :=
  (Entries.get? name r.present).bind read

/-- A field that may be left out. -/
def orElse? (r : Record) (name : String) (read : Datum → Option α) (default : α) : Option α :=
  match Entries.get? name r.present with
  | some d => read d
  | none => some default

/-- A field that may be null, or left out where fields are named. -/
def nullable? (r : Record) (name : String) (read : Datum → Option α) : Option (Option α) :=
  match Entries.get? name r.present with
  | some d => Datum.option? read d
  | none => if r.positional then none else some none

end Record

end PageBlocks
