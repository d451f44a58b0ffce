import JsonInspect.Session
import JsonInspect.Toml.Document
import JsonInspect.Toml.Quoted

/-! The settings that are kept in a file between runs. A file that cannot be understood counts
as none, and what it does not mention has its default. -/

namespace JsonInspect

structure Settings where
  fuzzy : Bool
  fuzzyThreshold : Nat
  maxDepth : Nat
  indentSize : Nat
  /-- Whether a file that is written over is kept under another name. -/
  createBackup : Bool
  logLevel : String
  aggregateMode : AggregateMode
  removeFromOriginal : Bool
deriving DecidableEq

namespace Settings

def default : Settings := ⟨false, 2, 10, 2, false, "warn", .collect, true⟩

def sessionOptions (s : Settings) : SessionOptions :=
  ⟨⟨s.fuzzy, s.fuzzyThreshold⟩, s.maxDepth, s.indentSize⟩

def aggregateOptions (s : Settings) : AggregateOptions := ⟨s.aggregateMode, s.removeFromOriginal⟩

/-! ## Reading -/

open Toml in
def boolean? : Value → Option Bool
  | .boolean b => some b
  | _ => none

open Toml in
def size? : Value → Option Nat
  | .integer i => if 0 ≤ i then some i.toNat else none
  | _ => none

open Toml in
def text? : Value → Option String
  | .string s => some s
  | _ => none

def modeNamed? (name : String) : Option AggregateMode :=
  if name = "collect" then some .collect else if name = "merge" then some .merge else none

open Toml in
/-- A mode is named by a string, or by the one key of a table that holds nothing else. -/
def mode? : Value → Option AggregateMode
  | .string s => modeNamed? s
  | .table [(name, .table [])] => modeNamed? name
  | .table [(name, .array [])] => modeNamed? name
  | _ => none

/-- The setting under a key: the default if the key is missing, nothing if it is no such
setting. -/
def setting? {α : Type} (entries : List (String × Toml.Value)) (key : String) (fallback : α)
    (read : Toml.Value → Option α) : Option α :=
  match entries.lookup key with
  | none => some fallback
  | some v => read v

def ofEntries? (entries : List (String × Toml.Value)) : Option Settings := do
  some {
    fuzzy := ← setting? entries "fuzzy" default.fuzzy boolean?
    fuzzyThreshold := ← setting? entries "fuzzy_threshold" default.fuzzyThreshold size?
    maxDepth := ← setting? entries "max_depth" default.maxDepth size?
    indentSize := ← setting? entries "indent_size" default.indentSize size?
    createBackup := ← setting? entries "create_backup" default.createBackup boolean?
    logLevel := ← setting? entries "log_level" default.logLevel text?
    aggregateMode := ← setting? entries "aggregate_mode" default.aggregateMode mode?
    removeFromOriginal :=
      ← setting? entries "remove_from_original" default.removeFromOriginal boolean?
  }

/-- The settings that a text holds, the defaults if it is wrong anywhere. -/
def ofText (text : String) : Settings :=
  ((Toml.document? text).bind ofEntries?).getD default

/-! ## Writing -/

/-- The largest integer that the format can hold. -/
def greatestSize : Nat := 0x7FFFFFFFFFFFFFFF

/-- Said of a size that the format cannot hold. -/
def sizeMessage : String := "out-of-range value for u64 type"

def sizesFit (s : Settings) : Bool :=
  s.fuzzyThreshold ≤ greatestSize && s.maxDepth ≤ greatestSize && s.indentSize ≤ greatestSize

def line (key : String) (value : List Char) : List Char :=
  key.toList ++ [' ', '=', ' '] ++ value ++ ['\n']

def booleanChars (b : Bool) : List Char :=
  if b then ['t', 'r', 'u', 'e'] else ['f', 'a', 'l', 's', 'e']

def sizeChars (n : Nat) : List Char := Nat.toDigits 10 n

/-- One line for each setting, if all sizes can be written. -/
def toText? (s : Settings) : Option String :=
  if s.sizesFit then
    some (String.ofList
      (line "fuzzy" (booleanChars s.fuzzy) ++
        line "fuzzy_threshold" (sizeChars s.fuzzyThreshold) ++
        line "max_depth" (sizeChars s.maxDepth) ++
        line "indent_size" (sizeChars s.indentSize) ++
        line "create_backup" (booleanChars s.createBackup) ++
        line "log_level" (Toml.Quoted.write s.logLevel) ++
        line "aggregate_mode" (Toml.Quoted.write s.aggregateMode.name) ++
        line "remove_from_original" (booleanChars s.removeFromOriginal)))
  else none

end Settings

end JsonInspect
