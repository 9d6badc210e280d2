import PageBlocks.Datum
import PageBlocks.Value

/-!
# Conditional logic

When a compiled field is shown: at least one clause must hold, and a clause
holds when all its rules do. No clause at all means that the field is always
shown, and is written `0`. Clauses without rules never occur.
-/

namespace PageBlocks

/-- A test of a compiled field, by its id. -/
structure LogicRule where
  field : String
  operator : String
  value : String
deriving DecidableEq, Repr, Inhabited

namespace LogicRule

/-- Holds when a field has a value. -/
def equals (field value : String) : LogicRule := ⟨field, "==", value⟩

def toValue (r : LogicRule) : Value :=
  .ofMembers [
    ("field", .string r.field), ("operator", .string r.operator), ("value", .string r.value)]

def ofDatum? (d : Datum) : Option LogicRule := do
  let r ← Record.of? ["field", "operator", "value"] false d
  return {
    field := ← r.need? "field" Datum.text?
    operator := ← r.need? "operator" Datum.text?
    value := ← r.need? "value" Datum.text? }

end LogicRule

/-- Alternative clauses, each of rules that must hold together. -/
structure ConditionalLogic where
  clauses : List (List LogicRule) := []
deriving DecidableEq, Repr, Inhabited

namespace ConditionalLogic

/-- Always shown. -/
def always : ConditionalLogic := {}

/-- Logic of some clauses; those without rules are dropped. -/
def ofClauses (clauses : List (List LogicRule)) : ConditionalLogic :=
  ⟨clauses.filter fun clause => !clause.isEmpty⟩

/-- Shown when a field has a value. -/
def whenEquals (field value : String) : ConditionalLogic := ofClauses [[.equals field value]]

/-- Adds a rule to every clause, or makes it the only one. -/
def andEquals (logic : ConditionalLogic) (field value : String) : ConditionalLogic :=
  match logic.clauses with
  | [] => ⟨[[.equals field value]]⟩
  | clauses => ⟨clauses.map fun clause => clause ++ [.equals field value]⟩

def isEmpty (logic : ConditionalLogic) : Bool := logic.clauses.isEmpty

/-- The clauses as lists of rules. -/
def clausesValue (logic : ConditionalLogic) : Value :=
  .array (logic.clauses.map fun clause => .array (clause.map LogicRule.toValue))

/-- Zero where there are no clauses. -/
def toValue (logic : ConditionalLogic) : Value :=
  if logic.isEmpty then .int 0 else logic.clausesValue

/-- Whatever is no list of clauses means that there are none. -/
def ofDatum? (d : Datum) : Option ConditionalLogic :=
  match Datum.list? (Datum.list? LogicRule.ofDatum?) d with
  | some clauses => some (ofClauses clauses)
  | none => (d.toValue?).map fun _ => always

end ConditionalLogic

end PageBlocks
