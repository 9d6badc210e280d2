import PageBlocks.Schema.Logic
import PageBlocks.Registry.Entity
import PageBlocks.Key
import PageBlocks.Error
import PageBlocks.Value.Writer

/-!
# Conditions on siblings

A declared condition names sibling fields; compiled logic holds their ids. The
siblings of a field are the fields of its block, or of its row; one of its own
group is found before one of another group.
-/

namespace PageBlocks

/-- A field that a condition may name. -/
structure Sibling where
  group : FieldGroup
  name : String
  key : String
deriving DecidableEq, Repr

namespace Sibling

/-- The fields of one list as siblings, under the path of the list. -/
def ofFields (group : FieldGroup) (path : KeyPath) (fields : List Field) : List Sibling :=
  fields.map fun f => ⟨group, f.name, (path.child f.name).encode .field⟩

/-- The id of the sibling with a name: of the own group, else of another. -/
def resolve? (siblings : List Sibling) (group : FieldGroup) (name : String) : Option String :=
  -- A name can occur once in each group of a block.
  let own := siblings.filter fun s => s.group == group
  let others := siblings.filter fun s => s.group != group
  ((own ++ others).find? fun s => s.name == name).map (·.key)

end Sibling

/-- The text that the value of a rule is compared as. -/
def ruleText : Value → String
  | .string s => s
  | .bool b => if b then "1" else "0"
  | .null => ""
  | v => v.compact

namespace ConditionRule

/-- The rule on the id of the sibling that it names, in the field of a block. -/
def resolve (owner field : String) (siblings : List Sibling) (group : FieldGroup)
    (r : ConditionRule) : Except Error LogicRule :=
  match Sibling.resolve? siblings group r.field with
  | some key => .ok ⟨key, r.operator, ruleText r.value⟩
  | none => .error (.unknownConditionField owner field r.field)

end ConditionRule

/-- The logic of a condition in the field of a block; none makes a field always shown. -/
def Condition.resolve (owner field : String) (siblings : List Sibling) (group : FieldGroup) :
    Option Condition → Except Error ConditionalLogic
  | none => .ok .always
  | some condition => do
    let clauses ← condition.clauses.mapM fun clause =>
      clause.mapM (ConditionRule.resolve owner field siblings group)
    return .ofClauses clauses

end PageBlocks
