import PageBlocks.Registry.Build
import PageBlocks.Schema.Compile

/-!
# Linting definitions

The lint reports every problem it finds, where registering and compiling stop
at the first. When it finds no error, a compilation is attempted, so that
whatever else the compiler rejects is reported too.
-/

namespace PageBlocks

/-- A finding of the lint. -/
inductive Finding where
  /-- Registering or compiling fails. -/
  | rejected (error : Error)
  | duplicateField (name block group : String)
  | duplicateSubField (name field block : String)
  | unknownType (type field block : String)
  | unsupportedOperator (field block operator : String)
  | unknownGenerator (block generator : String)
  /-- A condition names a field of another group, or none. -/
  | foreignCondition (field block target : String)
  /-- A list of blocks on a field that is no collection. -/
  | idleBlocks (field block kind : String)
  | unknownChild (parent : EntityRef) (name : String)
  | emptyContainer (block : String)
  | emptyLayout (layout : String)
  /-- Many containers that accept other containers. -/
  | openContainers (blocks : List String)
deriving DecidableEq, Repr, Inhabited

namespace Finding

/-- Errors reject definitions, other findings are warnings. -/
def isError : Finding → Bool
  | .rejected .. | .duplicateField .. | .duplicateSubField .. | .unknownType ..
  | .unsupportedOperator .. => true
  | _ => false

/-- The text of a finding. -/
def text : Finding → String
  | .rejected error => error.message
  | .duplicateField name block group =>
    "Duplicate field name '" ++ name ++ "' in block '" ++ block ++ "' (" ++ group ++ ")"
  | .duplicateSubField name field block =>
    "Duplicate sub field '" ++ name ++ "' under '" ++ field ++ "' in block '" ++ block ++ "'"
  | .unknownType type field block =>
    "Unknown field type '" ++ type ++ "' for field '" ++ field ++ "' in block '" ++ block ++ "'"
  | .unsupportedOperator field block operator =>
    "Field '" ++ field ++ "' in block '" ++ block ++ "' uses unsupported operator '" ++ operator ++
      "'"
  | .unknownGenerator block generator =>
    "Block '" ++ block ++ "' uses unknown field generator '" ++ generator ++ "'"
  | .foreignCondition field block target =>
    "Field '" ++ field ++ "' in block '" ++ block ++ "' has a condition on '" ++ target ++
      "', which is not in the same group"
  | .idleBlocks field block kind =>
    "Field '" ++ field ++ "' in block '" ++ block ++ "' lists blocks but is a " ++ kind ++ " field"
  | .unknownChild parent name => parent.display ++ " lists unknown block '" ++ name ++ "'"
  | .emptyContainer block => "Container block '" ++ block ++ "' accepts no nested blocks"
  | .emptyLayout layout => "Layout '" ++ layout ++ "' accepts no blocks"
  | .openContainers blocks =>
    toString blocks.length ++ " container blocks accept other containers (" ++
      String.intercalate ", " blocks ++
      "); the compiled schema grows with every nesting level, list their blocks explicitly"

end Finding

/-- What a lint reports, errors and warnings each in the order they were found. -/
structure LintReport where
  findings : List Finding := []
deriving Repr, Inhabited

namespace LintReport

def errors (r : LintReport) : List String :=
  (r.findings.filter Finding.isError).map Finding.text

def warnings (r : LintReport) : List String :=
  (r.findings.filter fun f => !f.isError).map Finding.text

/-- Without errors, whatever the warnings. -/
def isValid (r : LintReport) : Bool := !r.findings.any Finding.isError

def toValue (r : LintReport) : Value :=
  .ofMembers [("errors", .ofTexts r.errors), ("warnings", .ofTexts r.warnings)]

end LintReport

namespace Lint

/-- Operators that the storage of custom fields evaluates. -/
def operators : List String :=
  ["==", "!=", "==empty", "!=empty", "==pattern", "==contains", "<", ">"]

/-- So many containers may accept other containers before it is reported. -/
def openContainerLimit : Nat := 3

/-- Names that stand in a list after they have stood in it before. -/
def repetitions (seen : List String) : List String → List String
  | [] => []
  | name :: rest =>
    if seen.contains name then name :: repetitions seen rest
    else repetitions (name :: seen) rest

/-! ## Definitions -/

mutual
/-- References to generators that there are not, at any depth. -/
def slot (generators : Generators) (block : String) : FieldSlot → List Finding
  | .generated ref =>
    if Dict.contains generators ref.generator then []
    else [.unknownGenerator block ref.generator]
  | .literal d => declaration generators block d

def declaration (generators : Generators) (block : String) : FieldDeclaration → List Finding
  | ⟨_, _, subFields⟩ => slots generators block subFields

def slots (generators : Generators) (block : String) : List FieldSlot → List Finding
  | [] => []
  | s :: rest => slot generators block s ++ slots generators block rest
end

/-- Findings on the generators that blocks refer to. -/
def references (generators : Generators) (definitions : Definitions) : List Finding :=
  definitions.blocks.entries.flatMap fun (name, d) =>
    slots generators name (d.content ++ d.customise ++ d.configure)

/-! ## Fields -/

/-- Findings on one rule of a condition, given the names of the siblings. -/
def rule (block field : String) (siblings : List String) (r : ConditionRule) : List Finding :=
  (if siblings.contains r.field then [] else [.foreignCondition field block r.field]) ++
    (if operators.contains r.operator then [] else [.unsupportedOperator field block r.operator])

mutual
/-- Findings on a field of a block, given the names of its siblings. -/
def field (block : String) (siblings : List String) : Field → List Finding
  | ⟨name, attributes, subFields⟩ =>
    match FieldKind.ofName? attributes.type with
    | none => [.unknownType attributes.type name block]
    | some kind =>
      (match attributes.condition with
        | some condition => condition.clauses.flatten.flatMap (rule block name siblings)
        | none => []) ++
      (if attributes.blocks.isSome && !kind.isBlockCollection then
        [.idleBlocks name block kind.name] else []) ++
      (if kind.hasSubFields then
        (repetitions [] (subFields.map (·.name))).map
            (fun repeated => Finding.duplicateSubField repeated name block) ++
          fields block (subFields.map (·.name)) subFields
      else [])

def fields (block : String) (siblings : List String) : List Field → List Finding
  | [] => []
  | f :: rest => field block siblings f ++ fields block siblings rest
end

/-- Findings on the fields of a group of a block. -/
def group (settings : Settings) (block : Entity) (g : FieldGroup) : List Finding :=
  let members := block.fields.get g ++
    if g = .configure ∧ settings.coreFields then Compile.coreFields else []
  let names := members.map (·.name)
  let taken := if g = .content then [] else [g.tabName]
  (repetitions taken names).map (fun name => Finding.duplicateField name block.name g.name) ++
    fields block.name names members

/-! ## Entities -/

/-- Children that a parent names although there is no such block. -/
def children (registry : Registry) (parent : Entity) : List Finding :=
  (parent.children.named.filter fun name => (registry.block? name).isNone).map
    (Finding.unknownChild parent.ref)

/-- Findings on a registered block. -/
def block (registry : Registry) (b : Entity) : List Finding :=
  FieldGroup.all.flatMap (group registry.settings b) ++
    if b.isContainer then
      children registry b ++
        if (registry.candidates b.children).any fun c => c.name != b.name && c.fitsIn b then []
        else [.emptyContainer b.name]
    else []

/-- Findings on a registered layout. -/
def layout (registry : Registry) (l : Entity) : List Finding :=
  children registry l ++
    if (registry.candidates l.children).any fun c => c.fitsIn l then []
    else [.emptyLayout l.name]

/-- Containers without an explicit list of children that accept another container. -/
def openContainers (registry : Registry) : List Entity :=
  registry.blocks.values.filter fun b =>
    b.isContainer &&
      (match b.children with
        | .only _ => false
        | _ => true) &&
      (registry.candidates b.children).any fun c =>
        c.name != b.name && c.isContainer && c.fitsIn b

/-- Findings on a registry. -/
def registered (registry : Registry) : List Finding :=
  registry.blocks.values.flatMap (block registry) ++
    registry.layouts.values.flatMap (layout registry) ++
    let nesting := openContainers registry
    if openContainerLimit < nesting.length then [.openContainers (nesting.map (·.name))] else []

/-- Notices of the lists of children that are walked. -/
def notices (registry : Registry) : List Notice :=
  ((registry.blocks.values.filter Entity.isContainer) ++ registry.layouts.values).flatMap fun e =>
    (registry.unknownNames e.children).map .skippedChild

end Lint

/-- Lints definitions. -/
def lint (definitions : Definitions) (resources : Resources) : Noted LintReport := do
  let early := Lint.references resources.generators definitions
  match ← (Registry.build definitions resources).outcome with
  | .error error => return { findings := early ++ [.rejected error] }
  | .ok registry =>
    Noted.noteAll (Lint.notices registry)
    let found := early ++ Lint.registered registry
    if found.any Finding.isError then return { findings := found }
    else
      -- Whatever the findings do not cover, the compilation itself says.
      let outcome := (Compile.fieldGroup registry).runOn .empty
      Noted.noteAll outcome.notices
      match outcome.result with
      | .error error => return { findings := found ++ [.rejected error] }
      | .ok _ => return { findings := found }

/-- Fails when a lint finds errors; warnings are reported as notices. -/
def lintStrictly (definitions : Definitions) (resources : Resources) : Attempt Unit := do
  let report ← ExceptT.lift (lint definitions resources)
  if report.isValid then Attempt.noteAll (report.warnings.map .lint)
  else throw (.invalidDefinitions report.errors)

end PageBlocks
