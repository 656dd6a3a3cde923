import Shading.Compile
import Shading.Description.Reader
import Shading.Listing

/-!
# The command line

Two commands work on the file of a description: `compile` compiles its graph and shows the result,
`hash` shows the fingerprint of the graph as it is described. Arguments are read first
(`Command.ofArgs?`); then the contents of the file decide the outcome (`Command.outcome`). -/

namespace Shading

/-! ### Arguments -/

/-- How a compiled graph is shown. -/
inductive Format where
  | json | text | dot
deriving DecidableEq

namespace Format

def name : Format → String
  | json => "json"
  | text => "text"
  | dot => "dot"

def all : List Format := [json, text, dot]

def ofName? (s : String) : Option Format := all.find? (·.name == s)

end Format

inductive Flag where
  | graph | noBump | objectSpaceBump | aov | stage | format
deriving DecidableEq

namespace Flag

def long : Flag → String
  | graph => "--graph"
  | noBump => "--no-bump"
  | objectSpaceBump => "--object-space-bump"
  | aov => "--aov"
  | stage => "--stage"
  | format => "--format"

def short? : Flag → Option Char
  | graph => some 'g'
  | format => some 'f'
  | _ => none

def takesValue : Flag → Bool
  | noBump | objectSpaceBump => false
  | _ => true

/-- The flags that each command knows. -/
def forCompile : List Flag := [graph, noBump, objectSpaceBump, aov, stage, format]

def forHash : List Flag := [graph]

/-- Whether an argument has the form of a flag, and so is no value. -/
def isFlagLike (arg : String) : Bool :=
  match arg.toList with
  | '-' :: _ :: _ => true
  | _ => false

/-- The flag that an argument is, with the value that is attached to it. A long flag takes a value
after an equals sign, a short one directly or after an equals sign. -/
def read? (known : List Flag) (arg : String) : Option (Flag × Option String) :=
  match arg.toList with
  | '-' :: '-' :: _ =>
    match splitAtFirst '=' arg with
    | some (name, value) => (known.find? (·.long == name)).map fun flag => (flag, some value)
    | none => (known.find? (·.long == arg)).map fun flag => (flag, none)
  | '-' :: c :: rest =>
    (known.find? (·.short? == some c)).map fun flag =>
      match rest with
      | [] => (flag, none)
      | '=' :: value => (flag, some (String.ofList value))
      | value => (flag, some (String.ofList value))
  | _ => none

/-- The flags of a command line with their values; a flag without value has an empty one. -/
def readAll? (known : List Flag) : List String → Option (List (Flag × String))
  | [] => some []
  | arg :: rest =>
    if arg = "--" then if rest.isEmpty then some [] else none
    else
      match read? known arg with
      | none => none
      | some (flag, value) =>
        match flag.takesValue, value, rest with
        | false, none, rest => (readAll? known rest).map ((flag, "") :: ·)
        | false, some _, _ => none
        | true, some value, rest => (readAll? known rest).map ((flag, value) :: ·)
        | true, none, value :: rest =>
          if isFlagLike value then none else (readAll? known rest).map ((flag, value) :: ·)
        | true, none, [] => none

/-- The values given for a flag. -/
def values (flags : List (Flag × String)) (flag : Flag) : List String :=
  flags.filterMap fun (f, value) => if f = flag then some value else none

/-- The value of a flag that may be given once. -/
def once? (flags : List (Flag × String)) (flag : Flag) : Option (Option String) :=
  match values flags flag with
  | [] => some none
  | [value] => some (some value)
  | _ => none

/-- Whether a flag without value is given, which it may be once. -/
def isSet? (flags : List (Flag × String)) (flag : Flag) : Option Bool :=
  (once? flags flag).map (·.isSome)

/-- The value of a flag that names one of some choices. -/
def choice? {α : Type} (flags : List (Flag × String)) (flag : Flag) (ofName? : String → Option α)
    (default : α) : Option α := do
  match ← once? flags flag with
  | none => some default
  | some value => ofName? value

/-- The path of the description, which has to be given and is not empty. -/
def path? (flags : List (Flag × String)) : Option String := do
  match ← once? flags graph with
  | some path => if path.isEmpty then none else some path
  | none => none

end Flag

inductive Command where
  | compile (path : String) (aovs : List String) (options : CompileOptions) (format : Format)
  | hash (path : String)

namespace Command

/-- The command that a command line stands for, or none if it is not a proper one. -/
def ofArgs? : List String → Option Command
  | [] => none
  | name :: args => do
    if name = "compile" then
      let flags ← Flag.readAll? Flag.forCompile args
      let path ← Flag.path? flags
      let noBump ← Flag.isSet? flags .noBump
      let objectSpace ← Flag.isSet? flags .objectSpaceBump
      let stage ← Flag.choice? flags .stage Stage.ofName? .finalize
      let format ← Flag.choice? flags .format Format.ofName? .json
      return compile path (Flag.values flags .aov) ⟨stage, !noBump, objectSpace⟩ format
    else if name = "hash" then
      let flags ← Flag.readAll? Flag.forHash args
      return hash (← Flag.path? flags)
    else none

/-- The file that a command reads. -/
def path : Command → String
  | compile path _ _ _ => path
  | hash path => path

/-! ### Outcomes -/

/-- The reasons why a file has no text. -/
inductive FileFault where
  | notFound
  | accessDenied
  | notDirectory
  | isDirectory
  | nameTooLong
  | notUtf8
  | other (text : String)

def FileFault.message : FileFault → String
  | notFound => "No such file or directory (os error 2)"
  | accessDenied => "Permission denied (os error 13)"
  | notDirectory => "Not a directory (os error 20)"
  | isDirectory => "Is a directory (os error 21)"
  | nameTooLong => "File name too long (os error 36)"
  | notUtf8 => "stream did not contain valid UTF-8"
  | other text => text

/-- What a command leaves behind: its exit code, and what it writes to the two standard streams. -/
structure Outcome where
  exit : Nat
  stdout : String
  stderr : String

/-- The outcome of a command line that is not a proper one. -/
def misuse : Outcome := ⟨2, "", ""⟩

/-- Registers a render pass that is written as a name, or as a name, a colon and what it stores. -/
def addAov (scene : Scene) (arg : String) : Except DescriptionFault Scene :=
  match splitAtFirst ':' arg with
  | none => .ok (scene.withAov arg .value)
  | some (name, kind) =>
    match AovKind.ofName? kind with
    | some kind => .ok (scene.withAov name kind)
    | none => .error (.badAov arg)

/-- The lines of a text. A line may end with a carriage return and a line feed. -/
def linesFrom (current : List Char) : List Char → List String
  | [] => if current.isEmpty then [] else [String.ofList current.reverse]
  | '\n' :: rest =>
    let line := match current with
      | '\r' :: line => line
      | line => line
    String.ofList line.reverse :: linesFrom [] rest
  | c :: rest => linesFrom (c :: current) rest

def lines (s : String) : List String := linesFrom [] s.toList

/-- Shows a compiled graph. -/
def render (format : Format) (report : Report) (g : Graph) : Except Fault String := do
  match format with
  | .text => g.listing
  | .dot => g.drawing
  | .json =>
    let dump := (lines (← g.listing)).map Json.str
    return (Json.obj (report.members ++ [("dump", .arr dump)])).pretty

/-- The text that a command prints for a description. -/
def printed (command : Command) (description : String) : Except DescriptionFault String := do
  let d ← Description.parse description
  match command with
  | compile _ aovs options format =>
    let scene ← aovs.foldlM addAov d.scene
    let g ← d.build
    match (Edit.compile scene options).run g with
    | .ok report g => Description.raise (render format report g)
    | .error fault _ => throw (.graph fault)
  | hash _ =>
    let g ← d.build
    Description.raise g.fingerprint

/-- The text of a file. -/
def decode (bytes : ByteArray) : Except FileFault String :=
  match String.fromUTF8? bytes with
  | some s => .ok s
  | none => .error .notUtf8

/-- The outcome of a command, given what its file contains. -/
def outcome (command : Command) (file : Except FileFault ByteArray) : Outcome :=
  match file.bind decode with
  | .error fault => ⟨3, "", "I/O error: " ++ fault.message ++ "\n"⟩
  | .ok text =>
    match command.printed text with
    | .ok s => ⟨0, s ++ "\n", ""⟩
    | .error fault => ⟨1, "", "Error: " ++ fault.message ++ "\n"⟩

end Command

end Shading
