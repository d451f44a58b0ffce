/-! The HTML that documents are shown in: a few fixed tags and text. Text is escaped when the
tree is written, so only tags can give a tag. -/

namespace JsonInspect

inductive Tag where
  | page | record | line | key | found | number | boolean | null
deriving DecidableEq

namespace Tag

/-- The name of the element. -/
def element : Tag → String
  | page => "pre"
  | record => "div"
  | line => "div"
  | _ => "span"

/-- The class that an element is marked with. -/
def styleClass : Tag → String
  | page => "json-pre"
  | record => "json-obj"
  | line => "json-line"
  | key => "json-key"
  | found => "json-match"
  | number => "json-num"
  | boolean => "json-bool"
  | null => "json-null"

def opening (t : Tag) : List Char :=
  ("<" ++ t.element ++ " class=\"" ++ t.styleClass ++ "\">").toList

def closing (t : Tag) : List Char := ("</" ++ t.element ++ ">").toList

end Tag

/-- A piece of the page. -/
inductive Markup where
  /-- Fixed characters of the layout, written as they are. -/
  | layout (s : String)
  | text (cs : List Char)
  /-- The rule between two records. -/
  | rule
  | element (tag : Tag) (children : List Markup)

namespace Markup

/-- A character of a text: the five that mean something in HTML become entities. -/
def escapeChar (c : Char) : List Char :=
  if c = '&' then "&amp;".toList
  else if c = '<' then "&lt;".toList
  else if c = '>' then "&gt;".toList
  else if c = '"' then "&quot;".toList
  else if c = '\'' then "&#39;".toList
  else [c]

def escape (cs : List Char) : List Char := cs.flatMap escapeChar

def ruleChars : List Char := "<hr class=\"json-sep\"/>".toList

mutual

def html : Markup → List Char
  | layout s => s.toList
  | text cs => escape cs
  | rule => ruleChars
  | element tag children => tag.opening ++ htmlAll children ++ tag.closing

def htmlAll : List Markup → List Char
  | [] => []
  | piece :: rest => html piece ++ htmlAll rest

end

mutual

/-- What a reader of the page sees: its text without tags and entities. -/
def content : Markup → List Char
  | layout s => s.toList
  | text cs => cs
  | rule => []
  | element _ children => contentAll children

def contentAll : List Markup → List Char
  | [] => []
  | piece :: rest => content piece ++ contentAll rest

end

end Markup

/-- The HTML text of any characters. -/
def escapeHtml (s : String) : String := String.ofList (Markup.escape s.toList)

end JsonInspect
