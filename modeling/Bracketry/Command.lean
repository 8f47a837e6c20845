import Bracketry.Compile
import Bracketry.Text

/-
  This file defines the commands of the command line: how
  their arguments are read, what each of them answers, and
  what reading and writing a path of a folder leads to.

  A path is followed part by part from the folder, or from
  the top of the system if it starts with a slash.  Each
  part but the last has to lead to a directory, also where a
  later part leads back out of it.
-/

namespace Bracketry

------------------------------------------------------------
-- Folders
------------------------------------------------------------

/- Why a path does not lead to a file. -/
inductive PathProblem where
| missing
| notDirectory
| isDirectory
| tooLong
deriving DecidableEq, Repr

/- The wording of each problem. -/
def PathProblem.message : PathProblem → String
| .missing => "No such file or directory (os error 2)"
| .notDirectory => "Not a directory (os error 20)"
| .isDirectory => "Is a directory (os error 21)"
| .tooLong => "File name too long (os error 36)"

/- The greatest number of bytes in a name. -/
def nameLimit : Nat :=
  255

/- The greatest number of bytes in a path. -/
def pathLimit : Nat :=
  4095

/-
  A directory: of the folder, by the names that lead to it;
  around the folder; or of the system, by its names.
-/
inductive Directory where
| inside (names : List String)
| around
| system (names : List String)
deriving DecidableEq, Repr

/- The directory that a directory is in. -/
def Directory.parent : Directory → Directory
| .inside [] => .around
| .inside names => .inside names.dropLast
| .around => .around
| .system names => .system names.dropLast

/- What a name in a directory leads to. -/
inductive Item where
| directory (directory : Directory)
| file (text : String)
deriving DecidableEq, Repr

/- Directories that every system has, by their names. -/
def systemDirectories : List (List String) :=
  [["dev"], ["etc"], ["tmp"], ["usr"], ["var"]]

/-
  What names lead to from the top of the system.  The null
  device is read as an empty text.
-/
def systemItem? (names : List String) : Option Item :=
  if names = ["dev", "null"] then
    some (.file "")
  else if names ∈ systemDirectories then
    some (.directory (.system names))
  else
    none

/- Text files by the names that lead to them. -/
structure Folder where
  files : List (List String × String)

/-
  How a path ends: the directory that its last part is
  looked up in, that part, and whether slashes follow.
-/
structure Route where
  directory : Directory
  last : String
  slashed : Bool

namespace Folder

/- The folder with given files. -/
def ofFiles (files : List (String × String)) : Folder :=
  ⟨files.map fun (path, text) => (path.splitOn "/", text)⟩

/- The text of the file that names lead to. -/
def text?
    (folder : Folder)
    (names : List String) : Option String :=
  folder.files.lookup names

/- Whether names lead to a directory on the way. -/
def hasDirectory
    (folder : Folder)
    (names : List String) : Bool :=
  folder.files.any fun (file, _) =>
    names.isPrefixOf file && names != file

/- What names lead to from the folder. -/
def item?
    (folder : Folder)
    (names : List String) : Option Item :=
  match folder.text? names with
  | some text => some (.file text)
  | none =>
      if folder.hasDirectory names then
        some (.directory (.inside names))
      else
        none

/- What a name leads to from a directory. -/
def lookup
    (folder : Folder)
    (directory : Directory)
    (name : String) : Except PathProblem (Option Item) :=
  if nameLimit < name.utf8ByteSize then
    .error .tooLong
  else
    match directory with
    | .inside names => .ok (folder.item? (names ++ [name]))
    | .around => .ok none
    | .system names => .ok (systemItem? (names ++ [name]))

/- Go on from a directory by a part of a path. -/
def pass
    (folder : Folder)
    (directory : Directory)
    (part : String) : Except PathProblem Directory := do
  if part = "." then
    return directory
  else if part = ".." then
    return directory.parent
  else
    match ← folder.lookup directory part with
    | none => throw .missing
    | some (.file _) => throw .notDirectory
    | some (.directory next) => return next

/- Follow a path up to its last part. -/
def route
    (folder : Folder)
    (path : String) : Except PathProblem Route := do
  if path.isEmpty then
    throw .missing
  if pathLimit < path.utf8ByteSize then
    throw .tooLong
  let start : Directory :=
    if path.startsWith "/" then .system [] else .inside []
  let parts := (path.splitOn "/").filter fun part =>
    part ≠ ""
  let directory ← parts.dropLast.foldlM folder.pass start
  return ⟨directory, parts.getLastD ".", path.endsWith "/"⟩

/- Parts that always lead to a directory. -/
def isDots (part : String) : Bool :=
  part == "." || part == ".."

/- The text of a file. -/
def read
    (folder : Folder)
    (path : String) : Except PathProblem String := do
  let r ← folder.route path
  if isDots r.last then
    throw .isDirectory
  match ← folder.lookup r.directory r.last with
  | none => throw .missing
  | some (.directory _) => throw .isDirectory
  | some (.file text) =>
      if r.slashed then throw .notDirectory else return text

/- The folder with a text at the given names. -/
def put
    (folder : Folder)
    (names : List String)
    (text : String) : Folder :=
  ⟨(names, text) :: folder.files.filter fun file =>
    file.1 != names⟩

/- Write a file, which is seen if it is in the folder. -/
def write
    (folder : Folder)
    (path text : String) : Except PathProblem Folder := do
  let r ← folder.route path
  if isDots r.last || r.slashed then
    throw .isDirectory
  match ← folder.lookup r.directory r.last, r.directory with
  | some (.directory _), _ => throw .isDirectory
  | _, .inside names =>
      return folder.put (names ++ [r.last]) text
  | _, _ => return folder

/- The files that are not the same in an earlier folder. -/
def changes
    (folder earlier : Folder) : List (String × String) :=
  (folder.files.filter fun (names, text) =>
    earlier.text? names != some text).map
      fun (names, text) =>
        ("/".intercalate names, text)

end Folder

------------------------------------------------------------
-- Commands
------------------------------------------------------------

/- What can be asked for. -/
inductive Command where
| build (file : String) (output? : Option String)
| tokens (file : String)
| inspect (file : String)
| version
deriving DecidableEq, Repr

namespace Command

/- Whether an argument is an option rather than a file. -/
def isOption (argument : String) : Bool :=
  argument.startsWith "-" && argument != "-"

/- Files and outputs among the arguments of a command. -/
structure Arguments where
  files : List String
  outputs : List String
deriving DecidableEq, Repr

namespace Arguments

/- No arguments. -/
def empty : Arguments :=
  ⟨[], []⟩

/- One more file. -/
def withFile
    (a : Arguments)
    (file : String) : Arguments :=
  { a with files := a.files ++ [file] }

/- One more output. -/
def withOutput
    (a : Arguments)
    (output : String) : Arguments :=
  { a with outputs := a.outputs ++ [output] }

end Arguments

/- The output that one argument holds after its option. -/
def inlineOutput? (argument : String) : Option String :=
  if argument.startsWith "--output=" then
    some (argument.drop 9).toString
  else if argument.startsWith "-o=" then
    some (argument.drop 3).toString
  else if argument.startsWith "-o" then
    some (argument.drop 2).toString
  else
    none

/- Sort arguments; options may stand anywhere. -/
def sort? : Arguments → List String → Option Arguments
| a, [] => some a
| a, "--" :: rest => some (rest.foldl Arguments.withFile a)
| a, argument :: rest =>
    if argument = "-o" ∨ argument = "--output" then
      match rest with
      | [] => none
      | output :: rest =>
          if isOption output then
            none
          else
            sort? (a.withOutput output) rest
    else if isOption argument then
      (inlineOutput? argument).bind fun output =>
        sort? (a.withOutput output) rest
    else
      sort? (a.withFile argument) rest

/- The arguments of a command, none of which is empty. -/
def arguments? (given : List String) : Option Arguments :=
  (sort? .empty given).filter fun a =>
    (a.files ++ a.outputs).all fun argument =>
      !argument.isEmpty

/-
  Whether an argument asks for the version.  Of several
  short options in one argument the first one decides.
-/
def isVersion (argument : String) : Bool :=
  argument == "--version" || argument.startsWith "-V"

/- The command that arguments ask for. -/
def ofArguments? : List String → Option Command
| [] => none
| "build" :: rest =>
    match arguments? rest with
    | some ⟨[file], []⟩ => some (.build file none)
    | some ⟨[file], [output]⟩ =>
        some (.build file (some output))
    | _ => none
| "tokens" :: rest =>
    match arguments? rest with
    | some ⟨[file], []⟩ => some (.tokens file)
    | _ => none
| "inspect" :: rest =>
    match arguments? rest with
    | some ⟨[file], []⟩ => some (.inspect file)
    | _ => none
| first :: _ =>
    if isVersion first then some .version else none

/- The file that a command reads. -/
def file? : Command → Option String
| .build file _ => some file
| .tokens file => some file
| .inspect file => some file
| .version => none

/-
  What a command prints and writes, and the message if it
  fails.
-/
structure Reply where
  printed : String
  output? : Option (String × String)
  failure? : Option String
deriving DecidableEq, Repr

namespace Reply

/- Only print. -/
def print (text : String) : Reply :=
  ⟨text, none, none⟩

/- Only write a file. -/
def write (path text : String) : Reply :=
  ⟨"", some (path, text), none⟩

/- Only fail. -/
def fail (message : String) : Reply :=
  ⟨"", none, some message⟩

end Reply

/- A token in the list of tokens. -/
def tokenLine (l : Lexeme) : String :=
  Text.alignRight 4 (toString l.line) ++ "  " ++
    l.token.text ++ "\n"

/- The answer of a command to the text of its file. -/
def reply
    (source : String) :
    Command → Reply
| .build _ output? =>
    match compile source, output? with
    | .error fault, _ => .fail fault.message
    | .ok code, none => .print code
    | .ok code, some output => .write output code
| .tokens _ =>
    let stream := TokenStream.ofText source
    { printed := String.join (stream.lexemes.map tokenLine)
      output? := none
      failure? := stream.fault?.map LexFault.message }
| .inspect _ => .print ""
| .version => .print "brackc 0.1.0\n"

/- The message on a file that cannot be read. -/
def cannotRead (path problem : String) : String :=
  "cannot read '" ++ path ++ "': " ++ problem

/- The message on a file that cannot be written. -/
def cannotWrite (path problem : String) : String :=
  "cannot write '" ++ path ++ "': " ++ problem

/- A message of failure: red and bold at its start. -/
def failureText (message : String) : String :=
  "\x1b[38;5;9m\x1b[1merror:\x1b[0m " ++ message ++ "\n"

/- The hint on arguments that ask for no command. -/
def usage : String :=
  "usage: brackc build FILE [--output OUT] | tokens FILE | "
    ++ "inspect FILE | --version\n"

/- How a run ended, and the folder it left. -/
structure Outcome where
  code : Nat
  printed : String
  complaint : String
  folder : Folder

namespace Outcome

/- The end of a run that failed. -/
def failed
    (folder : Folder)
    (printed message : String) : Outcome :=
  ⟨1, printed, failureText message, folder⟩

/- The end of a run that did not fail. -/
def succeeded
    (folder : Folder)
    (printed : String) : Outcome :=
  ⟨0, printed, "", folder⟩

end Outcome

/- Print and write a reply. -/
def Reply.deliver
    (folder : Folder)
    (r : Reply) : Outcome :=
  match r.failure?, r.output? with
  | some message, _ => .failed folder r.printed message
  | none, none => .succeeded folder r.printed
  | none, some (path, text) =>
      match folder.write path text with
      | .ok after => .succeeded after r.printed
      | .error problem =>
          .failed folder r.printed
            (cannotWrite path problem.message)

/- Run a command in a folder. -/
def run
    (folder : Folder)
    (command : Command) : Outcome :=
  match command.file? with
  | none => (command.reply "").deliver folder
  | some path =>
      match folder.read path with
      | .error problem =>
          .failed folder ""
            (cannotRead path problem.message)
      | .ok source => (command.reply source).deliver folder

/- Run the command that arguments ask for. -/
def runArguments
    (folder : Folder)
    (arguments : List String) : Outcome :=
  match ofArguments? arguments with
  | some command => run folder command
  | none => ⟨2, "", usage, folder⟩

end Command

end Bracketry
