import ArithTree.Request

/-! The command. Everything it prints is decided in `ArithTree.Request` and `ArithTree.Dialogue`;
here bytes are read and texts are written. -/

namespace ArithTree

/-- Reads up to the next line feed or the end of the input; `before` is what the line has so far,
the latest byte first. -/
partial def readLine (input : IO.FS.Stream) (before : List UInt8) : IO (List UInt8) := do
  let next ← input.read 1
  match next.toList with
  | [] => pure before.reverse
  | byte :: _ =>
    if byte = Dialogue.lineFeed then pure (byte :: before).reverse
    else readLine input (byte :: before)

partial def converse (input output : IO.FS.Stream) : IO Unit := do
  output.putStr Dialogue.prompt
  output.flush
  match ← readLine input [] with
  | [] => pure ()
  | line =>
    match Dialogue.answer? line with
    | some answer =>
      output.putStr answer
      converse input output
    | none => pure ()

end ArithTree

def main (arguments : List String) : IO UInt32 := do
  let output ← IO.getStdout
  let request := ArithTree.Request.ofArguments arguments
  match request with
  | .dialogue => ArithTree.converse (← IO.getStdin) output
  | .misused => IO.eprintln "error: an option takes no value"
  | _ => output.putStr (request.output [])
  pure request.status.toUInt32
