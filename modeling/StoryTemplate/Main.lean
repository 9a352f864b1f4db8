import StoryTemplate.CommandLine.Notations

/-! # The program

    The outer layer of the command line: it reads the files that a request
    needs, and writes the outcome.  This is where the notations are chosen. -/

namespace StoryTemplate.Main

open CommandLine

/-- The text that the bytes spell. -/
def decode (bytes : ByteArray) : Except ReadFault Text :=
  match String.fromUTF8? bytes with
  | some content => .ok content.toList
  | none => .error .notText

/-- Reads a file. -/
def readFile (path : Text) : IO (Except ReadFault Text) := do
  match ← (IO.FS.readBinFile (String.ofList path)).toBaseIO with
  | .ok bytes => return decode bytes
  | .error (.noFileOrDirectory ..) => return .error .missing
  | .error fault => return .error (.other (toString fault))

/-- Reads all of a stream. -/
partial def readStream (stream : IO.FS.Stream) (bytes : ByteArray) : IO ByteArray := do
  let more ← stream.read 65536
  if more.isEmpty then return bytes else readStream stream (bytes ++ more)

/-- Reads what the request needs. -/
def readInputs (request : Request) : IO Inputs := do
  let files ← request.paths.mapM fun path => do return (path, ← readFile path)
  let stdin ← if request.readsStdin then
      decode <$> readStream (← IO.getStdin) .empty
    else pure (.ok [])
  return ⟨fun path => (files.lookup path).getD (.error .missing), stdin⟩

/-- Runs the arguments. -/
def run (arguments : List Text) : IO Outcome := do
  match CommandLine.read arguments with
  | .error fault => return .ofUsage fault
  | .ok request => return request.outcome .standard (← readInputs request)

end StoryTemplate.Main

def main (arguments : List String) : IO UInt32 := do
  let outcome ← StoryTemplate.Main.run (arguments.map String.toList)
  IO.print (String.ofList outcome.stdout)
  if let some message := outcome.message then
    IO.eprintln ("error: " ++ message)
  return outcome.exitCode.toUInt32
