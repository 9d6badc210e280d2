import PageBlocks.Schema.Index
import PageBlocks.Notice

/-!
# Emissions

A compilation makes nodes and, on the way, registers them and reports notices.
What it makes never depends on what is registered already; registering can only
end it, when an id is taken. So a compilation is a value with the list of what
it emits, and an index takes up that list afterwards (`FlatIndex.absorb`), up
to the first id that is taken.
-/

namespace PageBlocks

/-- What a compilation does besides making nodes. -/
inductive Emission where
  | notice (n : Notice)
  | entry (e : IndexEntry)
deriving Inhabited

/-- A result together with the emissions on the way to it, in order. -/
structure Emitting (α : Type) where
  value : α
  emissions : List Emission := []

instance : Monad Emitting where
  pure a := ⟨a, []⟩
  bind x f :=
    let y := f x.value
    ⟨y.value, x.emissions ++ y.emissions⟩

/-- A compilation, which may fail; what it emitted before stays. -/
abbrev Compilation := ExceptT Error Emitting

namespace Compilation

def emit (emissions : List Emission) : Compilation Unit := ExceptT.lift ⟨(), emissions⟩

def noteAll (notices : List Notice) : Compilation Unit := emit (notices.map .notice)

def register (e : IndexEntry) : Compilation Unit := emit [.entry e]

end Compilation

/-- An index after some emissions. -/
structure Absorbed where
  index : FlatIndex
  notices : List Notice := []
  /-- The id that was taken, if the emissions were cut short. -/
  collision : Option Error := none

/-- Takes up emissions until an id is taken. -/
def FlatIndex.absorb (index : FlatIndex) : List Emission → Absorbed
  | [] => { index := index }
  | .notice n :: rest =>
    let after := index.absorb rest
    { after with notices := n :: after.notices }
  | .entry e :: rest =>
    match index.insert? e with
    | some larger => larger.absorb rest
    | none => { index := index, collision := some (.keyCollision e.key e.entity) }

namespace Compilation

variable {α : Type}

/-- What a compilation on top of an index gives. -/
structure Outcome (α : Type) where
  result : Except Error α
  index : FlatIndex
  notices : List Notice

/-- Runs a compilation on top of an index. What a failed one registered stays. -/
def runOn (c : Compilation α) (index : FlatIndex) : Outcome α :=
  let made := c.run
  let absorbed := index.absorb made.emissions
  { result :=
      match absorbed.collision with
      | some error => .error error
      | none => made.value
    index := absorbed.index
    notices := absorbed.notices }

end Compilation

end PageBlocks
