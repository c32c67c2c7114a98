import CfScript.Files.Path

/-!
# Access to files

The commands read and write files through an interface, so that they can be run on the files of a
computer and on files that are held in memory.
-/

namespace CfScript

/-- Why a file cannot be used. -/
inductive FileError where
  | notFound
  | notAFolder
  | isAFolder
  | nameTooLong
  /-- The path has a character of code 0, which no name can hold. -/
  | zeroInName
  /-- Another reason, in the words of the system. -/
  | other (message : String)
deriving DecidableEq, Inhabited

/-- The reason in words, with the number that the system gives it. -/
def FileError.message : FileError → String
  | notFound => "No such file or directory (os error 2)"
  | notAFolder => "Not a directory (os error 20)"
  | isAFolder => "Is a directory (os error 21)"
  | nameTooLong => "File name too long (os error 36)"
  | zeroInName => "file name contained an unexpected NUL byte"
  | other message => message

/-- Reading and writing files. -/
class FileAccess (m : Type → Type) where
  /-- The text of a file. -/
  read : Path → m (Except FileError String)
  /-- Makes a text the whole text of a file. -/
  write : Path → String → m (Except FileError Unit)
  /-- Whether there is a file or a folder. -/
  isThere : Path → m Bool
  isFolder : Path → m Bool
  /-- The names in a folder. -/
  list : Path → m (Except FileError (List String))

/-- What can use files can use them under further effects. -/
instance {m n : Type → Type} [MonadLift m n] [FileAccess m] : FileAccess n where
  read path := liftM (FileAccess.read path : m _)
  write path text := liftM (FileAccess.write path text : m _)
  isThere path := liftM (FileAccess.isThere path : m _)
  isFolder path := liftM (FileAccess.isFolder path : m _)
  list path := liftM (FileAccess.list path : m _)

end CfScript
