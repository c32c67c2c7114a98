import CfScript.Build.Validation
import CfScript.Files.Path
import CfScript.Layout.Style
import CfScript.Parser.Basic

/-!
# The command line

A command line names a command, and gives it files and options. An option starts with two dashes, or
with one dash and a letter; its value follows it, or stands after an equals sign. Letters without
values can be put together after one dash. After two dashes alone everything is a file.

An option may be given once. The options that say how much is reported may stand before the command as
well. Arguments are read from the left: help is given as soon as it is asked for, whatever comes after
it, and a wrong argument before it is an error.

## Main results

* `readArguments_escape`: after two dashes alone every argument is a file;
* `readArguments_help`: what follows a request for help is not read.
-/

namespace CfScript

/-- What a command does with a formatted text. -/
inductive FormatMode where
  | print
  | write
  | check
deriving DecidableEq, Inhabited

/-- A command. -/
inductive Command where
  /-- Reports what is found in a file. -/
  | check (file : Path) (options : ParseOptions) (policy : AttributePolicy) (json : Bool)
  /-- Prints the tokens of a file. -/
  | tokens (file : Path)
  /-- Prints the parse tree of a file. -/
  | tree (file : Path) (options : ParseOptions)
  /-- Lays out a file. -/
  | format (file : Path) (style : Style) (mode : FormatMode)
  /-- Runs the fixtures of files and folders. -/
  | fixture (paths : List Path) (update : Bool)
deriving DecidableEq, Inhabited

/-- A command with what is to be reported about it. -/
structure Invocation where
  command : Command
  /-- Whether more is reported. -/
  verbose : Bool
  /-- Whether the last line of a failure is left out. -/
  quiet : Bool
deriving DecidableEq, Inhabited

/-- What a command line asks for. -/
inductive Request where
  | run (invocation : Invocation)
  | version
  | help
deriving DecidableEq, Inhabited

/-- What is wrong with a command line. -/
inductive UsageError where
  | noCommand
  | unknownCommand (word : String)
  | unknownOption (option : String)
  | repeatedOption (option : String)
  | missingValue (option : String)
  | unwantedValue (option : String)
  | wrongValue (option value : String)
  | missingFile
  | emptyFile
  | extraFile (file : String)
  | conflict (option other : String)
deriving DecidableEq, Inhabited

/-- The error in words. -/
def UsageError.message : UsageError → String
  | noCommand => "a command is required"
  | unknownCommand word => "unknown command '" ++ word ++ "'"
  | unknownOption option => "unknown option '" ++ option ++ "'"
  | repeatedOption option => "option '" ++ option ++ "' is given more than once"
  | missingValue option => "option '" ++ option ++ "' needs a value"
  | unwantedValue option => "option '" ++ option ++ "' takes no value"
  | wrongValue option value => "option '" ++ option ++ "' cannot be '" ++ value ++ "'"
  | missingFile => "a file is required"
  | emptyFile => "a file needs a name"
  | extraFile file => "unexpected argument '" ++ file ++ "'"
  | conflict option other => "options '" ++ option ++ "' and '" ++ other ++ "' exclude each other"

/-- An option that a command takes. -/
structure OptionRule where
  name : String
  letter? : Option Char := none
  /-- Whether a text is a value of the option; an option without this takes no value. -/
  accepts? : Option (String → Bool) := none

namespace OptionRule

/-- An option without a value. -/
def switch (name : String) (letter? : Option Char := none) : OptionRule := { name, letter? }

/-- An option whose value is one of a few words. -/
def choice (name : String) (words : List String) : OptionRule :=
  { name, accepts? := some (words.contains ·) }

/-- The option that asks for help, which every command takes. -/
def help : OptionRule := .switch "help" (some 'h')

end OptionRule

/-- What may follow the name of a command. -/
structure ArgumentRules where
  options : List OptionRule
  /-- Whether there may be more than one file. -/
  manyFiles : Bool := false

/-- The options and files on a command line. -/
structure Arguments where
  /-- The options with their values, those without a value with an empty one. -/
  options : List (String × String) := []
  files : List String := []
deriving DecidableEq, Inhabited

namespace Arguments

/-- The value of an option. -/
def value? (a : Arguments) (name : String) : Option String := a.options.lookup name

/-- Whether an option is given. -/
def has (a : Arguments) (name : String) : Bool := (a.value? name).isSome

/-- Whether help is asked for. -/
def asksHelp (a : Arguments) : Bool := a.has OptionRule.help.name

/-- The arguments with one more option. -/
def addOption (a : Arguments) (rule : OptionRule) (value : String) : Except UsageError Arguments :=
  if a.has rule.name then .error (.repeatedOption rule.name)
  else if (rule.accepts?.getD fun _ => true) value then
    .ok { a with options := a.options ++ [(rule.name, value)] }
  else .error (.wrongValue rule.name value)

/-- The arguments with one more file. -/
def addFile (rules : ArgumentRules) (a : Arguments) (file : String) : Except UsageError Arguments :=
  if !rules.manyFiles && !a.files.isEmpty then .error (.extraFile file)
  else if file.isEmpty then .error .emptyFile
  else .ok { a with files := a.files ++ [file] }

/-- The arguments with options that are given by their letters. -/
def addLetters (options : List OptionRule) (a : Arguments) :
    List Char → Except UsageError Arguments
  | [] => .ok a
  | c :: cs =>
    if a.asksHelp then .ok a
    else
      match options.find? (·.letter? == some c) with
      | none => .error (.unknownOption (String.singleton c))
      | some rule => do
        let a ← a.addOption rule ""
        addLetters options a cs

end Arguments

/-- What an argument is. -/
inductive ArgumentShape where
  | escape
  | option (name : String) (value? : Option String)
  | letters (letters : List Char)
  | word
deriving DecidableEq, Inhabited

/-- What an argument is, by its dashes. -/
def ArgumentShape.of (argument : String) : ArgumentShape :=
  match argument.toList with
  | ['-', '-'] => .escape
  | '-' :: '-' :: name =>
    match name.dropWhile (· ≠ '=') with
    | [] => .option (String.ofList name) none
    | _ :: value =>
      .option (String.ofList (name.takeWhile (· ≠ '='))) (some (String.ofList value))
  | '-' :: c :: cs => .letters (c :: cs)
  | _ => .word

/-- The options and files among the arguments of a command. The option `waiting?` still needs its
value. -/
def readArguments (rules : ArgumentRules) (a : Arguments) (waiting? : Option OptionRule) :
    List String → Except UsageError Arguments
  | [] =>
    match waiting? with
    | some rule => .error (.missingValue rule.name)
    | none => .ok a
  | argument :: rest =>
    if a.asksHelp then .ok a
    else
      match waiting?, ArgumentShape.of argument with
      | some rule, .word => do
        let a ← a.addOption rule argument
        readArguments rules a none rest
      | some rule, _ => .error (.missingValue rule.name)
      | none, .escape => rest.foldlM (Arguments.addFile rules) a
      | none, .word => do
        let a ← a.addFile rules argument
        readArguments rules a none rest
      | none, .letters letters => do
        let a ← a.addLetters rules.options letters
        readArguments rules a none rest
      | none, .option name value? =>
        match rules.options.find? (·.name == name), value? with
        | none, _ => .error (.unknownOption name)
        | some rule, some value =>
          if rule.accepts?.isNone then .error (.unwantedValue name)
          else do
            let a ← a.addOption rule value
            readArguments rules a none rest
        | some rule, none =>
          if rule.accepts?.isSome then readArguments rules a (some rule) rest
          else do
            let a ← a.addOption rule ""
            readArguments rules a none rest

/-! ## The commands -/

/-- The options that say how much is reported. -/
def reportRules : List OptionRule := [.switch "verbose" (some 'v'), .switch "quiet" (some 'q')]

/-- A number of columns: digits, possibly after a plus sign, that make a number of 64 bits. -/
def width? (text : String) : Option Nat :=
  let digits := match text.toList with
    | '+' :: digits => digits
    | digits => digits
  let value := digits.foldl (fun n c => 10 * n + (c.toNat - '0'.toNat)) 0
  if !digits.isEmpty && digits.all Char.isDigit && value < UInt64.size then some value else none

/-- The options that say how a source is parsed. -/
def parseRules : List OptionRule :=
  [.choice "entry" ["script", "expression"],
    .choice "strategy" ["adaptive", "fast", "general"]]

/-- The options of the command that reports what is found. -/
def checkRules : List OptionRule :=
  parseRules ++ [.choice "attributes" ["ignore", "warn", "deny"], .switch "json"]

/-- The options of the command that lays out a file. -/
def formatRules : List OptionRule :=
  [.switch "write" (some 'w'), .switch "check",
    { name := "indent", accepts? := some fun text => (width? text).isSome }]

namespace Arguments

/-- How a source is parsed. -/
def parseOptions (a : Arguments) : ParseOptions where
  entry := if a.value? "entry" = some "expression" then .expression else .script
  strategy := match a.value? "strategy" with
    | some "fast" => .fastOnly
    | some "general" => .generalOnly
    | _ => .adaptive

/-- What comes of attributes that should not be there. -/
def policy (a : Arguments) : AttributePolicy :=
  match a.value? "attributes" with
  | some "ignore" => .ignore
  | some "deny" => .deny
  | _ => .warn

/-- How a file is laid out. -/
def style (a : Arguments) : Style :=
  match (a.value? "indent").bind width? with
  | some width => Style.indentWidth {} width
  | none => {}

/-- What is done with a formatted text. -/
def formatMode (a : Arguments) : Except UsageError FormatMode :=
  if a.has "check" then
    if a.has "write" then .error (.conflict "write" "check") else .ok .check
  else if a.has "write" then .ok .write
  else .ok .print

/-- The first file, for a command that takes no more. -/
def onlyFile (a : Arguments) : Except UsageError Path :=
  match a.files with
  | [] => .error .missingFile
  | file :: _ => .ok ⟨file⟩

end Arguments

/-- The names of the commands. -/
def commandNames : List String := ["check", "tokens", "tree", "fmt", "fixture", "help"]

/-- A request for help on all commands or on one. The commands have no commands of their own. -/
def readHelp : List String → Except UsageError Request
  | [] => .ok .help
  | name :: rest =>
    if name ∈ commandNames then
      match rest with
      | [] => .ok .help
      | extra :: _ => .error (.unknownCommand extra)
    else .error (.unknownCommand name)

/-- A command with its options, or a request for help. -/
def readCommand (name : String) (rest : List String) (before : Arguments) :
    Except UsageError Request := do
  let read (options : List OptionRule) (manyFiles : Bool) : Except UsageError Arguments :=
    readArguments { options := options ++ .help :: reportRules, manyFiles } {} none rest
  let request (a : Arguments) (command : Except UsageError Command) : Except UsageError Request :=
    if a.asksHelp then return .help
    else
      return .run
        { command := ← command, verbose := before.has "verbose" || a.has "verbose",
          quiet := before.has "quiet" || a.has "quiet" }
  match name with
  | "check" =>
    let a ← read checkRules false
    request a (return .check (← a.onlyFile) a.parseOptions a.policy (a.has "json"))
  | "tokens" =>
    let a ← read [] false
    request a (return .tokens (← a.onlyFile))
  | "tree" =>
    let a ← read parseRules false
    request a (return .tree (← a.onlyFile) a.parseOptions)
  | "fmt" =>
    let a ← read formatRules false
    request a (return .format (← a.onlyFile) a.style (← a.formatMode))
  | "fixture" =>
    let a ← read [.switch "update"] true
    request a
      (if a.files.isEmpty then .error .missingFile
        else return .fixture (a.files.map Path.mk) (a.has "update"))
  | "help" => readHelp rest
  | name => .error (.unknownCommand name)

/-- What the letters before a command ask for, or the options among them. -/
def lettersBefore (a : Arguments) : List Char → Except UsageError (Request ⊕ Arguments)
  | [] => .ok (.inr a)
  | 'V' :: _ => .ok (.inl .version)
  | 'h' :: _ => .ok (.inl .help)
  | c :: cs => do
    let a ← a.addLetters reportRules [c]
    lettersBefore a cs

/-- What a command line asks for; `before` holds the options before the command. -/
def readRequest (before : Arguments) : List String → Except UsageError Request
  | [] => .error .noCommand
  | argument :: rest =>
    match ArgumentShape.of argument with
    | .escape =>
      match rest with
      | [] => .error .noCommand
      | extra :: _ => .error (.extraFile extra)
    | .word => readCommand argument rest before
    | .letters letters =>
      match lettersBefore before letters with
      | .error e => .error e
      | .ok (.inl request) => .ok request
      | .ok (.inr before) => readRequest before rest
    | .option "version" none => .ok .version
    | .option "help" none => .ok .help
    | .option name value? =>
      match reportRules.find? (·.name == name), value? with
      | none, _ => .error (.unknownOption name)
      | some _, some _ => .error (.unwantedValue name)
      | some rule, none =>
        match before.addOption rule "" with
        | .error e => .error e
        | .ok before => readRequest before rest

/-- What a command line asks for. -/
def Request.ofArguments (arguments : List String) : Except UsageError Request :=
  readRequest {} arguments

theorem readArguments_escape (rules : ArgumentRules) (a : Arguments) (rest : List String)
    (h : a.asksHelp = false) :
    readArguments rules a none ("--" :: rest) = rest.foldlM (Arguments.addFile rules) a := by
  unfold readArguments
  rw [h]
  rfl

theorem readArguments_help (rules : ArgumentRules) (a : Arguments) (rest : List String)
    (h : a.asksHelp = true) : readArguments rules a none rest = .ok a := by
  cases rest with
  | nil => rfl
  | cons argument rest =>
    unfold readArguments
    rw [h]
    rfl

end CfScript
