import CellScript.Fault
import CellScript.Store

/-!
How an operation on the store ends: with a value or with a fault, and in both cases with a store.
-/

namespace CellScript

structure Outcome where
  result : Except Fault Value
  store : Store

namespace Outcome

/-- A value, and the store after the operation. -/
def value (v : Value) (s : Store) : Outcome := ⟨.ok v, s⟩

/-- A fault, and the store as the operation left it. -/
def fault (f : Fault) (s : Store) : Outcome := ⟨.error f, s⟩

/-- A new value with the store that holds it. -/
def fresh (made : Value × Store) : Outcome := value made.1 made.2

/-- A result that leaves the store as it was. -/
def keep (result : Except Fault Value) (s : Store) : Outcome := ⟨result, s⟩

end Outcome

end CellScript
