import CfScript.Command.Run

/-!
# The command line program

The commands are run on the files of the computer. What a command prints goes to standard output, and
what it tells goes to standard error; a report about a diagnostic is its texts, one a line.
-/

namespace CfScript

/-- The reason why the system refused a file. -/
def FileError.ofSystem : IO.Error → FileError
  | .noFileOrDirectory .. => .notFound
  | .noSuchThing .. => .notFound
  | .inappropriateType .. => .notAFolder
  | .invalidArgument _ 36 _ => .nameTooLong
  | e => .other (toString e)

/-- The result of an access to a file. -/
def attemptAccess {α : Type} (access : IO α) : IO (Except FileError α) := do
  try return .ok (← access) catch e => return .error (.ofSystem e)

instance : FileAccess IO where
  read path := do
    if ← ((← IO.currentDir) / path.text).isDir then return .error .isAFolder
    attemptAccess (IO.FS.readFile ((← IO.currentDir) / path.text))
  write path text := do
    if ← ((← IO.currentDir) / path.text).isDir then return .error .isAFolder
    attemptAccess (IO.FS.writeFile ((← IO.currentDir) / path.text) text)
  isThere path := do ((← IO.currentDir) / path.text).pathExists
  isFolder path := do ((← IO.currentDir) / path.text).isDir
  list path := attemptAccess do
    let entries ← ((← IO.currentDir) / path.text).readDir
    return entries.toList.map (·.fileName)

/-- The lines that show a notice. -/
def Notice.shown : Notice → List String
  | .report file line texts =>
    texts.header :: ("  " ++ file.text ++ ":" ++ toString line) ::
      texts.labels.map ("  " ++ ·) ++ texts.help.toList.map ("  Help: " ++ ·) ++
      texts.note.toList.map ("  Note: " ++ ·)
  | notice => notice.lines

end CfScript

def main (arguments : List String) : IO UInt32 := do
  let (code, out) ← CfScript.runArguments arguments
  IO.print out.printed
  for notice in out.notices do
    for line in notice.shown do
      IO.eprintln line
  return code.toUInt32
