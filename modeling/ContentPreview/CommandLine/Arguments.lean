import ContentPreview.Text.Numeral

/-!
# Arguments

What the words of a command line ask for.

There are two commands, `show` and `sweep`, with options of their own, and
options that may stand before the command or among its arguments.  A long
option takes its value behind an equals sign or in the next word; a short one
also takes what follows its letter, and short options without values may
share a word.  After a word `--` nothing is an option.  An option other than
the counter may be given once at each of the two places, and what is given
after the command goes before what is given in front of it.

Words are taken in order, so that a request for the version is answered if
nothing in front of it is wrong.

## Main definitions

* `Invocation` — what a command line asks for.
* `Invocation.parse` — the invocation that the words stand for.
-/

namespace ContentPreview.CommandLine

/-- Why there is no invocation. -/
inductive Stop where
  /-- The words make no sense. -/
  | usage
  /-- The version is asked for. -/
  | version
  /-- An explanation is asked for. -/
  | help
deriving DecidableEq

/-- The options of all commands. -/
inductive Flag where
  | config
  | maxFiles
  | maxChars
  | verbose
  | help
  | version
  | mime
  | json
  | flat
deriving DecidableEq

namespace Flag

/-- The name of an option behind two dashes. -/
def long : Flag → String
  | config => "config"
  | maxFiles => "max-files"
  | maxChars => "max-chars"
  | verbose => "verbose"
  | help => "help"
  | version => "version"
  | mime => "mime"
  | json => "json"
  | flat => "flat"

/-- The letter of an option behind one dash. -/
def short : Flag → Option Char
  | config => some 'c'
  | verbose => some 'v'
  | help => some 'h'
  | version => some 'V'
  | mime => some 'm'
  | maxFiles | maxChars | json | flat => none

/-- Whether an option has a value. -/
def takesValue : Flag → Bool
  | config | maxFiles | maxChars | mime => true
  | verbose | help | version | json | flat => false

end Flag

/-- The options that may stand anywhere. -/
def globalFlags : List Flag := [.config, .maxFiles, .maxChars, .verbose, .help]

/-! ## Words -/

/-- What a word of the command line says. -/
inductive Item where
  | flag (flag : Flag) (value : String)
  /-- A word that is no option, and the words behind it. -/
  | word (text : String) (rest : List String)
  /-- A word behind `--`, which can be an argument but no command. -/
  | argument (text : String)
  /-- A word that makes no sense where it stands. -/
  | invalid

/-- Whether a word can be no value of an option in front of it. -/
def isDashed (word : List Char) : Bool := word.head? == some '-' && word.length ≠ 1

/-- The items of a long option, given the items of the words behind it. -/
def longItems (flags : List Flag) (word : List Char) (next : Option String) :
    List Item × Bool :=
  let name := String.ofList (word.takeWhile (· != '='))
  let value := word.dropWhile (· != '=')
  match flags.find? (·.long == name) with
  | none => ([.invalid], false)
  | some flag =>
    match flag.takesValue, value, next with
    | true, _ :: value, _ => ([.flag flag (String.ofList value)], false)
    | true, [], some next =>
      if isDashed next.toList then ([.invalid], false) else ([.flag flag next], true)
    | true, [], none => ([.invalid], false)
    | false, [], _ => ([.flag flag ""], false)
    | false, _ :: _, _ => ([.invalid], false)

/-- The items of a word of short options. -/
def shortItems (flags : List Flag) (next : Option String) : List Char → List Item × Bool
  | [] => ([], false)
  | letter :: rest =>
    match flags.find? (·.short == some letter) with
    | none => ([.invalid], false)
    | some flag =>
      if flag.takesValue then
        match rest, next with
        | '=' :: value, _ => ([.flag flag (String.ofList value)], false)
        | c :: value, _ => ([.flag flag (String.ofList (c :: value))], false)
        | [], some next =>
          if isDashed next.toList then ([.invalid], false) else ([.flag flag next], true)
        | [], none => ([.invalid], false)
      else
        let (items, used) := shortItems flags next rest
        (.flag flag "" :: items, used)

/-- The items of the words of a command line.  The flag that comes with the
items of an option says whether its value was the next word. -/
def items (flags : List Flag) : List String → List Item
  | [] => []
  | word :: rest =>
    match word.toList with
    | ['-', '-'] => rest.map .argument
    | '-' :: '-' :: option => go (longItems flags option rest.head?) rest
    | '-' :: c :: letters => go (shortItems flags rest.head? (c :: letters)) rest
    | _ => .word word rest :: items flags rest
where
  /-- The items of an option, and those of the words behind it. -/
  go (found : List Item × Bool) : List String → List Item
    | [] => found.1
    | next :: rest =>
      if found.2 then found.1 ++ items flags rest else found.1 ++ items flags (next :: rest)

/-! ## Options -/

/-- The options that may stand anywhere. -/
structure Globals where
  config : Option String := none
  maxFiles : Option Nat := none
  maxChars : Option Nat := none
  verbosity : Nat := 0
deriving DecidableEq

/-- A value for an option that was not given before. -/
def once {α : Type} (present : Option α) (value : Option α) : Except Stop (Option α) :=
  match present, value with
  | none, some value => .ok (some value)
  | _, _ => .error .usage

/-- A path, which is not empty. -/
def pathValue? (text : String) : Option String := if text = "" then none else some text

/-- A bound, which fits a word. -/
def boundValue? (text : String) : Option Nat :=
  Text.readUnsigned 10 Text.wordBound text.toList

namespace Globals

/-- Adds an option that may stand anywhere. -/
def add (g : Globals) (flag : Flag) (value : String) : Except Stop Globals :=
  match flag with
  | .config => do return { g with config := ← once g.config (pathValue? value) }
  | .maxFiles => do return { g with maxFiles := ← once g.maxFiles (boundValue? value) }
  | .maxChars => do return { g with maxChars := ← once g.maxChars (boundValue? value) }
  | .verbose => .ok { g with verbosity := g.verbosity + 1 }
  | .version => .error .version
  | .help => .error .help
  | .mime | .json | .flat => .error .usage

/-- The options given in front of a command, overruled by those given after
it. -/
def overruled (outer inner : Globals) : Globals where
  config := inner.config.or outer.config
  maxFiles := inner.maxFiles.or outer.maxFiles
  maxChars := inner.maxChars.or outer.maxChars
  verbosity := if inner.verbosity = 0 then outer.verbosity else inner.verbosity

end Globals

/-! ## Commands -/

/-- How a preview is printed. -/
inductive Layout where
  | tree
  | json
  | flat
deriving DecidableEq

/-- What is to be done. -/
inductive Command where
  | show (file : String) (mime : Option String) (layout : Layout)
  | sweep (directory : String) (asJson : Bool)
deriving DecidableEq

/-- What a command line asks for. -/
structure Invocation where
  globals : Globals
  command : Command
deriving DecidableEq

/-- The arguments of a command as they come. -/
structure CommandState where
  globals : Globals := {}
  path : Option String := none
  mime : Option String := none
  json : Option Unit := none
  flat : Option Unit := none

/-- Adds an argument of a command. -/
def CommandState.add (s : CommandState) : Item → Except Stop CommandState
  | .flag .mime value => do return { s with mime := ← once s.mime (some value) }
  | .flag .json _ => do return { s with json := ← once s.json (some ()) }
  | .flag .flat _ => do return { s with flat := ← once s.flat (some ()) }
  | .flag flag value => do return { s with globals := ← s.globals.add flag value }
  | .word text _ | .argument text => do return { s with path := ← once s.path (pathValue? text) }
  | .invalid => .error .usage

/-- The arguments of a command. -/
def CommandState.ofWords (flags : List Flag) (words : List String) : Except Stop CommandState :=
  (items (flags ++ globalFlags) words).foldlM CommandState.add {}

/-- The invocation of `show` with the given words. -/
def parseShow (outer : Globals) (words : List String) : Except Stop Invocation := do
  let s ← CommandState.ofWords [.mime, .json, .flat] words
  match s.path, s.json, s.flat with
  | some file, none, none => return ⟨outer.overruled s.globals, .show file s.mime .tree⟩
  | some file, some (), none => return ⟨outer.overruled s.globals, .show file s.mime .json⟩
  | some file, none, some () => return ⟨outer.overruled s.globals, .show file s.mime .flat⟩
  | _, _, _ => throw .usage

/-- The invocation of `sweep` with the given words. -/
def parseSweep (outer : Globals) (words : List String) : Except Stop Invocation := do
  let s ← CommandState.ofWords [.json] words
  return ⟨outer.overruled s.globals, .sweep (s.path.getD ".") s.json.isSome⟩

/-- The invocation of the command that the items lead to. -/
def parseItems (g : Globals) : List Item → Except Stop Invocation
  | [] => .error .usage
  | .flag flag value :: rest => do parseItems (← g.add flag value) rest
  | .word "show" words :: _ => parseShow g words
  | .word "sweep" words :: _ => parseSweep g words
  | .word "help" _ :: _ => .error .help
  | .word _ _ :: _ | .argument _ :: _ | .invalid :: _ => .error .usage

/-- The invocation that the words of a command line stand for. -/
def Invocation.parse (words : List String) : Except Stop Invocation :=
  parseItems {} (items (.version :: globalFlags) words)

end ContentPreview.CommandLine
