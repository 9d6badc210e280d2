import PageBlocks.Render.Layout
import PageBlocks.Value.Writer

/-!
# Templates

A small template language for hosts: a template is a list of parts, whose
outputs are joined. Parts look values up in the data at hand, render the blocks
nested in it, or fail. A block's template is looked up by layout and block,
else by the block alone. The calls of templates are recorded in order.
-/

namespace PageBlocks

/-- A step of a path into a value. -/
inductive PathStep where
  | member (key : String)
  | position (n : Nat)
deriving DecidableEq, Repr

inductive TemplatePart where
  | text (s : String)
  /-- The value at a path. -/
  | get (path : List PathStep)
  /-- The blocks in the list at a path. -/
  | children (path : List PathStep)
  /-- The rendered blocks of a layout behind one another. -/
  | blocks (separator : String)
  /-- Fails for want of another template. -/
  | missing (name : String)
  | fail (text : String)
deriving Repr

abbrev Template := List TemplatePart

/-- The templates of blocks and of layouts. -/
structure Templates where
  blocks : Dict Template := .empty
  layouts : Dict Template := .empty

/-- The value that a path leads to. -/
def Value.at? (v : Value) : List PathStep → Option Value
  | [] => some v
  | .member key :: rest => (v.get? key).bind fun inner => inner.at? rest
  | .position n :: rest => (v.items?.bind fun items => items[n]?).bind fun inner => inner.at? rest

/-- A value as output: a text as it is, null as nothing, anything else in its compact form. -/
def Value.shown : Value → String
  | .string s => s
  | .null => ""
  | v => v.compact

namespace Template

/-- Renders a template, given a way to render a nested block and the rendered blocks at hand. -/
def render {σ : Type} (nested : Value → Rendering σ Rendered) (outputs : List String)
    (data : Value) : Template → Rendering σ String
  | [] => return ""
  | part :: rest => do
    let here ←
      match part with
      | .text s => pure s
      | .get path => pure ((data.at? path).elim "" Value.shown)
      | .children path => do
        let items := ((data.at? path).bind Value.items?).getD []
        let rendered ← items.mapM nested
        pure (String.join (rendered.map (·.output)))
      | .blocks separator => pure (String.intercalate separator outputs)
      | .missing name => throw (.missingTemplate name)
      | .fail text => throw (.render text)
    return here ++ (← render nested outputs data rest)

end Template

namespace Templates

/-- Records a call. -/
def called (name : String) : Rendering (List String) Unit :=
  ExceptT.lift (modify fun s => { s with host := s.host ++ [name] })

/-- The template of a block. -/
def block? (templates : Templates) (layout block : String) : Option Template :=
  templates.blocks.get? (layout ++ "/" ++ block) <|> templates.blocks.get? block

/-- Renders a block of a layout whose data is nested to a depth. -/
def renderBlockTo (templates : Templates) (request : RenderRequest) :
    (depth : Nat) → (layout block : String) → Value → Rendering (List String) String
  | depth, layout, block, data => do
    called (layout ++ "/" ++ block)
    match templates.block? layout block with
    | none => throw (.missingTemplate (layout ++ "/" ++ block))
    | some template =>
      let nested (inner : Value) : Rendering (List String) Rendered :=
        match depth with
        | 0 => throw .nestingLimit
        | depth + 1 => renderBlock request (renderBlockTo templates request depth) inner
      template.render nested [] data

/-- Renders a block of a layout. Nested blocks are inside its data, so the depth of the data
bounds how deep rendering goes. -/
def renderBlockData (templates : Templates) (request : RenderRequest) (layout block : String)
    (data : Value) : Rendering (List String) String :=
  templates.renderBlockTo request data.depth layout block data

/-- The host that renders by templates. -/
def renderer (templates : Templates) (request : RenderRequest) : Renderer (List String) :=
  { block := templates.renderBlockData request
    layout := fun layout outputs data => do
      called layout
      match templates.layouts.get? layout with
      | none => return none
      | some template =>
        return some (← template.render
          (renderBlock request (templates.renderBlockData request)) outputs data) }

end Templates

end PageBlocks
