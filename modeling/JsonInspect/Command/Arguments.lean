import JsonInspect.Aggregate
import JsonInspect.Session

/-! The words of a command line: options with and without values, a file, and the name of a
command with options of its own. -/

namespace JsonInspect.Command

/-- Why the words are no request to be carried out. -/
inductive Stop where
  | usage | help | version
deriving DecidableEq

/-- What follows the name of an option. -/
inductive Follows where
  | nothing
  | value
  /-- A value that may be missing, and what it is then. -/
  | optional (fallback : String)

structure Flag where
  name : String
  short : Option Char
  follows : Follows
  accepts : String → Bool

/-- What the words of one level may be. -/
structure Grammar where
  flags : List Flag
  /-- How many words may stand on their own. -/
  words : Nat
  commands : List String
  hasVersion : Bool

/-- What the words of one level were. -/
structure Level where
  values : List (String × String)
  words : List String
  /-- The name of a command and the words after it. -/
  command : Option (String × List String)

namespace Grammar

/-- Notes an option with its value. None may be given twice. -/
def note (flag : Flag) (value : String) (values : List (String × String)) :
    Except Stop (List (String × String)) :=
  if Entries.hasKey values flag.name || !flag.accepts value then .error .usage
  else .ok (values ++ [(flag.name, value)])

/-- Gives an option that still waits for a value the one that it has without. -/
def settle (waiting : Option Flag) (values : List (String × String)) :
    Except Stop (List (String × String)) :=
  match waiting with
  | none => .ok values
  | some flag =>
    match flag.follows with
    | .optional fallback => note flag fallback values
    | _ => .error .usage

/-- Reads an option whose value, if any, is attached to it. -/
def take (flag : Flag) (attached : Option String) (values : List (String × String)) :
    Except Stop (List (String × String) × Option Flag) :=
  match flag.follows, attached with
  | .nothing, none => do .ok (← note flag "" values, none)
  | .nothing, some _ => .error .usage
  | _, some value => do .ok (← note flag value values, none)
  | _, none => if Entries.hasKey values flag.name then .error .usage else .ok (values, some flag)

/-- Reads an option by its name, after the two dashes. -/
def long (g : Grammar) (body : List Char) (values : List (String × String)) :
    Except Stop (List (String × String) × Option Flag) :=
  let name := String.ofList (body.takeWhile (· != '='))
  let attached :=
    match body.dropWhile (· != '=') with
    | [] => none
    | _ :: value => some (String.ofList value)
  if name = "help" ∧ attached.isNone then .error .help
  else if name = "version" ∧ attached.isNone ∧ g.hasVersion then .error .version
  else match g.flags.find? (·.name == name) with
    | none => .error .usage
    | some flag => take flag attached values

/-- Reads options of one letter, after the dash. One with a value takes what is left. -/
def shorts (g : Grammar) (values : List (String × String)) :
    List Char → Except Stop (List (String × String) × Option Flag)
  | [] => .ok (values, none)
  | c :: rest =>
    if c = 'h' then .error .help
    else if c = 'V' ∧ g.hasVersion then .error .version
    else match g.flags.find? (·.short == some c) with
      | none => .error .usage
      | some flag =>
        match flag.follows, rest with
        | .nothing, rest => do shorts g (← note flag "" values) rest
        | _, [] => take flag none values
        | _, '=' :: value => take flag (some (String.ofList value)) values
        | _, value => take flag (some (String.ofList value)) values

/-- Reads the words of a level, with an option that may wait for its value. -/
def scan (g : Grammar) (waiting : Option Flag) (values : List (String × String))
    (words : List String) : List String → Except Stop Level
  | [] => do
    let values ← settle waiting values
    if g.words < words.length then .error .usage else .ok ⟨values, words, none⟩
  | arg :: rest =>
    if waiting.isNone && g.commands.contains arg then
      if g.words < words.length then .error .usage else .ok ⟨values, words, some (arg, rest)⟩
    else match arg.toList, waiting with
      | ['-', '-'], _ => do
        let values ← settle waiting values
        if g.words < (words ++ rest).length then .error .usage
        else .ok ⟨values, words ++ rest, none⟩
      | '-' :: '-' :: body, _ => do
        let (values, waiting) ← g.long body (← settle waiting values)
        scan g waiting values words rest
      | '-' :: c :: body, _ => do
        let (values, waiting) ← g.shorts (← settle waiting values) (c :: body)
        scan g waiting values words rest
      | _, some flag => do scan g none (← note flag arg values) words rest
      | _, none =>
        if g.words ≤ words.length then .error .usage
        else scan g none values (words ++ [arg]) rest

def parse (g : Grammar) (args : List String) : Except Stop Level := g.scan none [] [] args

end Grammar

/-! ## The commands -/

/-- What is to be done with the document. -/
inductive Action where
  | format
  | keys
  | query (request : SearchRequest) (fuzzy : Bool) (threshold : Option Nat) (html : Bool)
  | group (key : String)
  | rename (old new : String)
  | set (key value : String)
  | aggregate (mode : Option AggregateMode) (keepOriginal : Bool)

structure Invocation where
  /-- The file to read, standard input if there is none. -/
  file : Option String
  /-- The file to write, standard output if there is none. -/
  output : Option String
  action : Action

/-- The file that is written if none is named. -/
def defaultOutput : String := "output.json"

/-- A number of 64 bits without a sign, or with a plus sign. -/
def size? (s : String) : Option Nat :=
  let ds :=
    match s.toList with
    | '+' :: rest => rest
    | cs => cs
  if ds.isEmpty || !ds.all Char.isDigit then none
  else
    let n := Nat.ofDigitChars 10 ds 0
    if n < UInt64.size then some n else none

def mode? (s : String) : Option AggregateMode := (AggregateMode.parse s).toOption

def valued (name : String) : Flag := ⟨name, none, .value, fun _ => true⟩

def bare (name : String) : Flag := ⟨name, none, .nothing, fun _ => true⟩

/-- The options that every level has. -/
def sharedFlags : List Flag :=
  [⟨"output", some 'o', .optional defaultOutput, fun s => !s.isEmpty⟩, bare "copy"]

def flagsOf (command : String) : List Flag :=
  match command with
  | "query" =>
    [valued "key", valued "value", valued "expr", bare "fuzzy",
      ⟨"threshold", none, .value, fun s => (size? s).isSome⟩, bare "html"]
  | "group" => [valued "key"]
  | "rename" => [valued "from", valued "to"]
  | "set" => [valued "key", valued "value"]
  | "aggregate" => [⟨"mode", none, .value, fun s => (mode? s).isSome⟩, bare "keep-original"]
  | _ => []

def commandNames : List String :=
  ["format", "keys", "query", "group", "rename", "set", "aggregate"]

def topGrammar : Grammar := ⟨sharedFlags, 1, "help" :: commandNames, true⟩

def commandGrammar (command : String) : Grammar := ⟨sharedFlags ++ flagsOf command, 0, [], false⟩

def required (values : List (String × String)) (name : String) : Except Stop String :=
  match values.lookup name with
  | some value => .ok value
  | none => .error .usage

def optional (values : List (String × String)) (name : String) : String :=
  (values.lookup name).getD ""

/-- The action of a command with its options. -/
def action (command : String) (values : List (String × String)) : Except Stop Action :=
  match command with
  | "format" => .ok .format
  | "keys" => .ok .keys
  | "query" =>
    .ok (.query ⟨optional values "expr", optional values "key", optional values "value"⟩
      (Entries.hasKey values "fuzzy") ((values.lookup "threshold").bind size?)
      (Entries.hasKey values "html"))
  | "group" => do .ok (.group (← required values "key"))
  | "rename" => do .ok (.rename (← required values "from") (← required values "to"))
  | "set" => do .ok (.set (← required values "key") (← required values "value"))
  | "aggregate" =>
    .ok (.aggregate ((values.lookup "mode").bind mode?) (Entries.hasKey values "keep-original"))
  | _ => .error .usage

/-- Asks for help on a command, or on all of them. Nothing else may be said. -/
def helpOn : List String → Stop
  | [] => .help
  | [command] => if command = "help" ∨ commandNames.contains command then .help else .usage
  | _ => .usage

/-- Reads a command line, without the program's name. Options of the command go before those
in front of it. -/
def parse (args : List String) : Except Stop Invocation := do
  let top ← topGrammar.parse args
  match top.command with
  | none => .error .usage
  | some (command, rest) =>
    if command = "help" then .error (helpOn rest)
    else do
      let own ← (commandGrammar command).parse rest
      let chosen ← action command own.values
      .ok ⟨top.words.head?, (own.values.lookup "output").or (top.values.lookup "output"), chosen⟩

end JsonInspect.Command
