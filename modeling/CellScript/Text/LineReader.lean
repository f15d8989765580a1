import CellScript.Text.Cluster
import CellScript.Text.WhiteSpace

/-!
Line readers: what a console gets to see of a line.

Of its reader a console needs to know only what becomes of plain lines (`KeepsPlainLines`). The
reader of the program carries out the backspaces in a line. A backspace takes away the cluster
before it, by the cluster's width in bytes, and a width is kept in one byte; so of a cluster of 256
bytes or more it takes away the remainder only.
-/

namespace CellScript

def backspace : Char := '\x08'

/-- What hands a console the lines of its input. -/
structure LineReader where
  read : String → String

/-- A line without backspaces, and without white space around it, is handed over as it is. -/
def LineReader.KeepsPlainLines (reader : LineReader) : Prop :=
  ∀ line, backspace ∉ line.toList → trimmed line = line → reader.read line = line

/-- The characters that are left, the last one first, and the widths of their clusters. -/
structure Typing where
  kept : List Char
  widths : List Nat
deriving Repr, DecidableEq

/-- The width of a cluster. -/
def clusterWidth (cluster : List Char) : Nat := (String.ofList cluster).utf8ByteSize % 256

/-- The characters without the first `n` bytes. A character goes as a whole. -/
def dropBytes (n : Nat) : List Char → List Char
  | [] => []
  | c :: cs => if n = 0 then c :: cs else dropBytes (n - c.utf8Size) cs

namespace Typing

def start : Typing := ⟨[], []⟩

/-- Takes a cluster, or carries it out if it is a backspace. A backspace with nothing before it does
nothing. -/
def press (t : Typing) (cluster : List Char) : Typing :=
  if cluster = [backspace] then
    match t.widths with
    | [] => t
    | width :: widths => ⟨dropBytes width t.kept, widths⟩
  else ⟨cluster.reverse ++ t.kept, clusterWidth cluster :: t.widths⟩

theorem kept_foldl_press {t : Typing} {cs : List (List Char)} (h : [backspace] ∉ cs) :
    (cs.foldl press t).kept = cs.flatten.reverse ++ t.kept := by
  induction cs generalizing t with
  | nil => rfl
  | cons c cs ih =>
    have hc : c ≠ [backspace] := fun hc => h (by simp [hc])
    have hcs : [backspace] ∉ cs := fun hcs => h (by simp [hcs])
    rw [List.foldl_cons, ih hcs]
    simp [press, hc]

end Typing

/-- What is left of a line. -/
def typed (line : String) : String :=
  String.ofList ((clusters line.toList).foldl Typing.press .start).kept.reverse

theorem typed_of_not_mem {line : String} (h : backspace ∉ line.toList) : typed line = line := by
  have hc : [backspace] ∉ clusters line.toList := by
    intro hc
    apply h
    rw [← flatten_clusters line.toList]
    exact List.mem_flatten.mpr ⟨_, hc, List.mem_singleton_self _⟩
  simp [typed, Typing.kept_foldl_press hc, Typing.start]

/-- The reader of the program. -/
def LineReader.typing : LineReader := ⟨typed⟩

theorem LineReader.keepsPlainLines_typing : typing.KeepsPlainLines :=
  fun _ hback _ => typed_of_not_mem hback

end CellScript
