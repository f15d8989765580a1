import CellScript.Program.Text
import CellScript.Store

/-!
The text of a value, and the key that maps and sets file it under.

A container can hold itself, directly or through others. While the text of a container is written,
the container stands on a stack, and one that stands there already is written with dots in the
place of its items. So every text is finite.
-/

namespace CellScript

/-- The text of a heap's item. -/
def HeapItem.render : HeapItem → String
  | integer value => renderInt value
  | text contents => contents

/-- The text of a function: its code, without the scope it was made in. -/
def Closure.render (c : Closure) : String :=
  "def(" ++ commaSeparated c.parameters ++ ") " ++ renderBlock c.body

def Heap.render (h : Heap) : String :=
  heapOpener h.order h.element ++ commaSeparated (h.items.map HeapItem.render) ++ braceCloser

/-- How a value is written: as it is, or as a container that can hold any values. An entry of a map
has two parts, its key and its value, and all other entries have one. -/
inductive Shape
  | plain (text : String)
  | container (cell : Address) (opener closer : String) (entries : List (List Value))

/-- The text of a container with its entries written out. -/
def Shape.enclosed (opener closer : String) (entries : List String) : String :=
  opener ++ commaSeparated entries ++ closer

/-- The text of a container with dots in the place of its entries. -/
def Shape.placeholder (opener closer : String) : String := enclosed opener closer ["..."]

/-- The text of an entry from the texts of its parts. -/
def Shape.entry (parts : List String) : String := separated ": " parts

/-- Writing a text with the stack of the containers that are being written, the innermost first. -/
abbrev Writing (α : Type) := StateM (List Address) α

/-- Writes a container while it stands on the stack, or the placeholder if it stands there
already. -/
def guarded (cell : Address) (placeholder : String) (body : Writing String) : Writing String := do
  if cell ∈ (← get) then return placeholder
  modify (cell :: ·)
  let text ← body
  modify List.tail
  return text

namespace Store

def shape (s : Store) : Value → Shape
  | .integer n => .plain (renderInt n)
  | .boolean b => .plain (renderBool b)
  | .null => .plain "NULL"
  | .text a => .plain (s.textAt a)
  | .sequence kind a =>
    .container a kind.opener kind.closer ((s.itemsAt a).toList.map fun item => [item])
  | .map a =>
    .container a mapOpener braceCloser ((s.mapAt a).values.map fun entry => [entry.1, entry.2])
  | .set a => .container a setOpener braceCloser ((s.setAt a).values.map fun member => [member])
  | .heap _ a => .plain (s.heapAt a).render
  | .function a => .plain (s.closureAt a).render
  | .builtin function => .plain ("builtin function " ++ function.name)
  | .returning value => s.shape value
  | .failure message => .plain ("error: " ++ message)

/-- Writes the text of a value. No container is entered twice, so a bound that exceeds the number
of cells is never used up. -/
def write (s : Store) : Nat → Value → Writing String
  | 0, _ => return ""
  | bound + 1, value =>
    match s.shape value with
    | .plain text => return text
    | .container cell opener closer entries =>
      guarded cell (Shape.placeholder opener closer) do
        let texts ← entries.mapM fun parts => Shape.entry <$> parts.mapM (s.write bound)
        return Shape.enclosed opener closer texts

/-- The text of a value. -/
def render (s : Store) (value : Value) : String := ((s.write (s.cells.size + 1) value).run []).1

/-- The key that maps and sets file a value under. -/
def key (s : Store) (value : Value) : Key := ⟨value.tag, s.render value⟩

end Store

end CellScript
