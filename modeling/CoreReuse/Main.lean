import CoreReuse.Memory

namespace CoreReuse.CommandLine

def readText (path : String) : IO (Except FileError String) := do
  try
    let bytes ← IO.FS.readBinFile path
    return match String.fromUTF8? bytes with
      | some s => .ok s
      | none => .error .notText
  catch
    | .noFileOrDirectory .. => return .error .notFound
    | .inappropriateType none _ _ => return .error .isDirectory
    | .inappropriateType (some _) _ _ => return .error .notDirectory
    | .invalidArgument (some _) _ _ => return .error .nameTooLong
    | e => return .error (.other e.toString)

def killedCode : UInt8 := 134

def seconds (ms : Nat) : String :=
  toString (ms / 1000) ++ "." ++ String.ofList ((toString (1000 + ms % 1000)).toList.drop 1)

def perform (c : Command) : IO UInt32 := do
  let file ← readText (c.path?.getD "")
  let start ← IO.monoMsNow
  let reply := c.perform Memory.fits file start
  IO.print reply.text
  if reply.timed then
    IO.println (", " ++ seconds ((← IO.monoMsNow) - start) ++ "s")
  return (reply.code.getD killedCode).toUInt32

end CoreReuse.CommandLine

open CoreReuse.CommandLine in
def main (args : List String) : IO UInt32 :=
  match parse args with
  | none => return usageCode.toUInt32
  | some c => perform c
