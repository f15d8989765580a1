import CellScript.CommandLine

/-!
The program: reads the arguments, the file or the standard input, and writes what comes of it.
-/

namespace CellScript.CommandLine

/-- More steps than a program can take while anybody waits. -/
def endlessFuel : Nat := 1000000000000000000

/-- The bytes of a file, unless it cannot be read. -/
def readBytes (file : String) : IO (Option (List UInt8)) := do
  try
    return some (← IO.FS.readBinFile file).toList
  catch _ => return none

/-- The bytes up to the next line break, which is taken and left out. The value is absent where the
input has ended and no byte has come. -/
partial def readLine (input : IO.FS.Stream) (line : ByteArray) : IO (Option ByteArray) := do
  let next ← input.read 1
  match next.toList with
  | [] => return if line.isEmpty then none else some line
  | byte :: _ => if byte == 10 then return some line else readLine input (line.push byte)

/-- Answers lines of the standard input as they come. -/
partial def converse (input output : IO.FS.Stream) (console : Console) : IO Unit := do
  match ← readLine input .empty with
  | none => output.putStr Console.farewell
  | some bytes =>
    let some line := decodeText? bytes.toList | return
    let some turn := console.turn .typing endlessFuel line | return
    output.putStr turn.output
    output.flush
    match turn.console with
    | none => return
    | some console => converse input output console

/-- Writes a response, and gives its exit code. -/
def finish (response : Option Response) : IO UInt32 := do
  let some response := response | return 1
  IO.print response.output
  IO.eprint response.complaint
  return response.code

/-- Does what the arguments ask for. -/
def serve (arguments : List String) : IO UInt32 := do
  match read arguments with
  | .ok (.invoke i) =>
    match i.file with
    | some file => finish (i.onFile endlessFuel file (← readBytes file))
    | none =>
      let output ← IO.getStdout
      output.putStr (Console.banner i.command.mode)
      output.flush
      converse (← IO.getStdin) output ⟨i.command.mode, .start i.limit⟩
      return 0
  | _ => finish (respond arguments endlessFuel (fun _ => none) [])

end CellScript.CommandLine

def main (arguments : List String) : IO UInt32 := CellScript.CommandLine.serve arguments
