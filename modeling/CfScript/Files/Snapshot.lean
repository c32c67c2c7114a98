import CfScript.Files.Access

/-!
# Files held in memory

A snapshot holds the files in the working folder and in the folders inside it. A path is followed
segment by segment, and each segment but the last has to lead to a folder. No name and no path may be
longer than the system allows. Nothing is known of what is
outside the working folder, except that it is a folder.

## Main results

* `textAt_put_self`, `textAt_put_of_ne`: putting a text at a place changes that place only.
-/

namespace CfScript

/-- Where a path leads. -/
inductive Place where
  /-- Somewhere outside the working folder. -/
  | outside
  /-- The names from the working folder on. -/
  | inside (names : List String)
deriving DecidableEq, Inhabited

namespace Place

/-- The folder around a place. -/
def parent : Place → Place
  | inside (name :: names) => inside ((name :: names).dropLast)
  | _ => outside

end Place

/-- What is at a place. -/
inductive FileEntry where
  | nothing
  | file (text : String)
  | folder
deriving DecidableEq, Inhabited

/-- The files in the working folder. -/
structure Snapshot where
  /-- The texts of the files, under their names from the working folder on. -/
  texts : List (List String × String) := []
  /-- Folders that need not hold a file. -/
  folders : List (List String) := []
deriving DecidableEq, Inhabited

namespace Snapshot

/-- The text under the names. -/
def textAt (s : Snapshot) (names : List String) : Option String := s.texts.lookup names

/-- The names of all that is there. -/
def keys (s : Snapshot) : List (List String) := s.texts.map (·.1) ++ s.folders

/-- What is at a place. -/
def entry (s : Snapshot) : Place → FileEntry
  | .outside => .folder
  | .inside names =>
    match s.textAt names with
    | some text => .file text
    | none => if names.isEmpty || s.keys.any (names.isPrefixOf ·) then .folder else .nothing

/-- The place of a name in a folder. Nothing is known outside. -/
def child? (name : String) : Place → Option Place
  | .outside => none
  | .inside names => some (.inside (names ++ [name]))

/-- The place that the segments lead to. -/
def follow (s : Snapshot) (place : Place) : List String → Except FileError Place
  | [] => .ok place
  | segment :: rest =>
    match s.entry place with
    | .nothing => .error .notFound
    | .file _ => .error .notAFolder
    | .folder =>
      if Path.isIdle segment then s.follow place rest
      else if segment == ".." then s.follow place.parent rest
      else if Path.maxNameBytes < segment.utf8ByteSize then .error .nameTooLong
      else
        match child? segment place with
        | none => .error .notFound
        | some place => s.follow place rest

/-- The place that a path leads to. -/
def find (s : Snapshot) (path : Path) : Except FileError Place :=
  if path.text.toList.contains '\x00' then .error .zeroInName
  else if path.text.isEmpty then .error .notFound
  else if Path.maxBytes ≤ path.text.utf8ByteSize then .error .nameTooLong
  else s.follow (if path.isAbsolute then .outside else .inside []) path.segments

/-- What a path leads to. -/
def entryAt (s : Snapshot) (path : Path) : Except FileError FileEntry := (s.find path).map s.entry

/-- The text of the file at a path. -/
def read (s : Snapshot) (path : Path) : Except FileError String :=
  match s.entryAt path with
  | .error e => .error e
  | .ok .nothing => .error .notFound
  | .ok .folder => .error .isAFolder
  | .ok (.file text) => .ok text

/-- The texts with one more text, or with another text for names that have one. -/
def putIn (names : List String) (text : String) :
    List (List String × String) → List (List String × String)
  | [] => [(names, text)]
  | (key, old) :: rest =>
    if key = names then (key, text) :: rest else (key, old) :: putIn names text rest

/-- The snapshot with a text under the names. -/
def put (s : Snapshot) (names : List String) (text : String) : Snapshot :=
  { s with texts := putIn names text s.texts }

/-- The snapshot after a text has been written to a path. -/
def write (s : Snapshot) (path : Path) (text : String) : Except FileError Snapshot :=
  match s.find path with
  | .error e => .error e
  | .ok .outside => .error .isAFolder
  | .ok (.inside names) =>
    if s.entry (.inside names) = .folder then .error .isAFolder else .ok (s.put names text)

/-- Whether a path leads to a file or a folder. -/
def isThere (s : Snapshot) (path : Path) : Bool :=
  match s.entryAt path with
  | .ok .folder => true
  | .ok (.file _) => true
  | _ => false

/-- Whether a path leads to a folder. -/
def isFolder (s : Snapshot) (path : Path) : Bool :=
  match s.entryAt path with
  | .ok .folder => true
  | _ => false

/-- The names in the folder under the names. -/
def namesIn (s : Snapshot) (folder : List String) : List String :=
  (s.keys.filterMap fun key =>
    if folder.isPrefixOf key then (key.drop folder.length).head? else none).eraseDups

/-- The names in the folder at a path. -/
def list (s : Snapshot) (path : Path) : Except FileError (List String) :=
  match s.find path with
  | .error e => .error e
  | .ok .outside => .ok []
  | .ok (.inside names) =>
    match s.entry (.inside names) with
    | .nothing => .error .notFound
    | .file _ => .error .notAFolder
    | .folder => .ok (s.namesIn names)

/-- The snapshot with one more thing in it: a folder, if the path ends with a slash, or else a file. -/
def add (s : Snapshot) (path : Path) (text : String) : Snapshot :=
  if path.text.toList.getLast? == some '/' then { s with folders := s.folders ++ [path.names] }
  else s.put path.names text

instance : FileAccess (StateM Snapshot) where
  read path := return (← get).read path
  write path text := do
    match (← get).write path text with
    | .ok s => set s; return .ok ()
    | .error e => return .error e
  isThere path := return (← get).isThere path
  isFolder path := return (← get).isFolder path
  list path := return (← get).list path

theorem lookup_putIn_self (names : List String) (text : String)
    (texts : List (List String × String)) : (putIn names text texts).lookup names = some text := by
  induction texts with
  | nil => simp [putIn]
  | cons entry rest ih =>
    obtain ⟨key, old⟩ := entry
    by_cases h : key = names
    · simp [putIn, h]
    · have hNot : (names == key) = false := by simpa using Ne.symm h
      simp [putIn, h, List.lookup_cons, hNot, ih]

theorem lookup_putIn_of_ne {names other : List String} (text : String)
    (texts : List (List String × String)) (h : other ≠ names) :
    (putIn names text texts).lookup other = texts.lookup other := by
  induction texts with
  | nil =>
    have hNot : (other == names) = false := by simpa using h
    simp [putIn, List.lookup_cons, hNot]
  | cons entry rest ih =>
    obtain ⟨key, old⟩ := entry
    by_cases hKey : key = names
    · have hNot : (other == key) = false := by simpa [hKey] using h
      simp [putIn, hKey, List.lookup_cons, hKey ▸ hNot]
    · simp only [putIn, hKey, ↓reduceIte, List.lookup_cons, ih]

theorem textAt_put_self (s : Snapshot) (names : List String) (text : String) :
    (s.put names text).textAt names = some text :=
  lookup_putIn_self names text s.texts

theorem textAt_put_of_ne (s : Snapshot) {names other : List String} (text : String)
    (h : other ≠ names) : (s.put names text).textAt other = s.textAt other :=
  lookup_putIn_of_ne text s.texts h

end Snapshot

end CfScript
