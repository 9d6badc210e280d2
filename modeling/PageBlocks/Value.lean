import PageBlocks.Dict
import PageBlocks.Number.Binary64

/-!
# Values

The free-form data of stored rows, field options and rendered blocks: the value
model of JSON, with integers kept apart from other numbers. Members of an
object ascend by key; every operation of the library that builds an object
keeps them so (`WellFormed`).
-/

namespace PageBlocks

/-- A stored value. -/
inductive Value where
  | null
  | bool (b : Bool)
  | int (n : Int)
  | float (x : Binary64)
  | string (s : String)
  | array (items : List Value)
  | object (members : List (String × Value))
deriving Inhabited, Repr

namespace Value

/-! ## Equality

Values are equal when they have the same shape and the same leaves. An integer
is never equal to a float; the two float zeros are equal.
-/

mutual
/-- Equality of values. -/
def same : Value → Value → Bool
  | .null, .null => true
  | .bool a, .bool b => a == b
  | .int a, .int b => a == b
  | .float a, .float b => a.same b
  | .string a, .string b => a == b
  | .array as, .array bs => sameItems as bs
  | .object as, .object bs => sameMembers as bs
  | _, _ => false

/-- Equality item by item. -/
def sameItems : List Value → List Value → Bool
  | [], [] => true
  | a :: as, b :: bs => same a b && sameItems as bs
  | _, _ => false

/-- Equality member by member. -/
def sameMembers : List (String × Value) → List (String × Value) → Bool
  | [], [] => true
  | (k, a) :: as, (l, b) :: bs => k == l && same a b && sameMembers as bs
  | _, _ => false
end

instance : BEq Value := ⟨same⟩

/-! ## Well-formed values -/

mutual
/-- Members of every object ascend by key. -/
def WellFormed : Value → Prop
  | .array items => WellFormedItems items
  | .object members => Entries.Sorted members ∧ WellFormedMembers members
  | _ => True

/-- All items are well-formed. -/
def WellFormedItems : List Value → Prop
  | [] => True
  | v :: vs => WellFormed v ∧ WellFormedItems vs

/-- The values of all members are well-formed. -/
def WellFormedMembers : List (String × Value) → Prop
  | [] => True
  | (_, v) :: ms => WellFormed v ∧ WellFormedMembers ms
end

/-! ## Depth -/

mutual
/-- How many arrays and objects enclose the innermost value. -/
def depth : Value → Nat
  | .array items => depthItems items + 1
  | .object members => depthMembers members + 1
  | _ => 0

/-- The largest depth of an item. -/
def depthItems : List Value → Nat
  | [] => 0
  | v :: vs => max (depth v) (depthItems vs)

/-- The largest depth of a member. -/
def depthMembers : List (String × Value) → Nat
  | [] => 0
  | (_, v) :: ms => max (depth v) (depthMembers ms)
end

/-! ## Parts -/

/-- The text, if the value is one. -/
def string? : Value → Option String
  | .string s => some s
  | _ => none

/-- The items, if the value is an array. -/
def items? : Value → Option (List Value)
  | .array items => some items
  | _ => none

/-- The members, if the value is an object. -/
def members? : Value → Option (List (String × Value))
  | .object members => some members
  | _ => none

/-- The member of an object under a key. -/
def get? (v : Value) (key : String) : Option Value :=
  v.members?.bind (Entries.get? key)

/-! ## Building -/

/-- The object of some members given in any order. -/
def ofMembers (members : List (String × Value)) : Value := .object (Entries.ofList members)

/-- The object of a dictionary. -/
def ofDict (d : Dict Value) : Value := .object d.entries

/-- A list of texts. -/
def ofTexts (texts : List String) : Value := .array (texts.map .string)

/-- A text or null. -/
def ofText? (text : Option String) : Value := (text.map .string).getD .null

end Value

end PageBlocks
