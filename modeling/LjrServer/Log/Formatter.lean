/-
  LjrServer.Log.Formatter — log levels, and the patterns that say how a line is written
  (log.cpp).

  A pattern is cut into literal text and `%` items by one pass over its characters; where a
  brace is not closed the pass goes on behind the `%`, so the pattern is parsed again from
  there.

  Proved:
  - `FromString_ToString`: a level's own text is read back as the level.
  - `default_valid`: the pattern a logger starts with parses.
-/

import Mathlib.Data.String.Basic

namespace LjrServer.Log

/-! ## Levels -/

/-- `cast` is a number outside the enumeration. -/
inductive LogLevel where
  | UNKNOW
  | DEBUG
  | INFO
  | WARN
  | ERROR
  | FATAL
  | cast (value : Nat)
  deriving DecidableEq, Repr

namespace LogLevel

def ToString : LogLevel → String
  | DEBUG => "DEBUG"
  | INFO => "INFO"
  | WARN => "WARN"
  | ERROR => "ERROR"
  | FATAL => "FATAL"
  | _ => "UNKNOW"

def FromString (str : String) : LogLevel :=
  if str = "debug" then DEBUG
  else if str = "info" then INFO
  else if str = "warn" then WARN
  else if str = "error" then ERROR
  else if str = "fatal" then FATAL
  else if str = "DEBUG" then DEBUG
  else if str = "INFO" then INFO
  else if str = "WARN" then WARN
  else if str = "ERROR" then ERROR
  else if str = "FATAL" then FATAL
  else UNKNOW

/-- In the enumeration. -/
def Valid : LogLevel → Prop
  | cast _ => False
  | _ => True

theorem FromString_ToString {level : LogLevel} (h : level.Valid) : FromString level.ToString = level := by
  cases level with
  | cast value => cases h
  | _ => decide

end LogLevel

/-! ## Patterns -/

/-- An entry of the parser's `vec`. -/
inductive Piece where
  | text (str : String)
  | item (str fmt : String)
  | patternError
  deriving DecidableEq, Repr

/-- What a formatter writes; `string` is a `StringFormatItem`. -/
inductive FormatItem where
  | string (str : String)
  | item (key fmt : String)
  deriving DecidableEq, Repr

/-- `m_pattern`, `m_items` and `m_error`. -/
structure LogFormatter where
  pattern : String
  items : List FormatItem
  error : Bool
  deriving DecidableEq, Repr

namespace LogFormatter

/-- From behind a `{` to its `}`: the format, and how many characters that took. -/
def itemFormat (fmt : List Char) : List Char → Option (List Char × Nat)
  | [] => none
  | c :: cs =>
    if c = '}' then some (fmt, 1)
    else (itemFormat (fmt ++ [c]) cs).map fun (fmt, n) => (fmt, n + 1)

/-- From behind a `%`: the name and format of the item, and how many characters they took;
    none when a brace is not closed. -/
def itemName (str : List Char) : List Char → Option (List Char × List Char × Nat)
  | [] => some (str, [], 0)
  | c :: cs =>
    if ¬ c.isAlpha ∧ c ≠ '{' ∧ c ≠ '}' then some (str, [], 0)
    else if c = '{' then (itemFormat [] cs).map fun (fmt, n) => (str, fmt, n + 1)
    else (itemName (str ++ [c]) cs).map fun (str, fmt, n) => (str, fmt, n + 1)

/-- What `nstr` becomes when it is pushed. -/
def textPiece (nstr : List Char) : List Piece := if nstr = [] then [] else [.text (String.ofList nstr)]

/-- The first loop of `init`; `skip` is how far an item has moved `i`. -/
def pieces : List Char → Nat → List Char → List Piece
  | [], _, nstr => textPiece nstr
  | _ :: cs, skip + 1, nstr => pieces cs skip nstr
  | c :: cs, 0, nstr =>
    if c ≠ '%' then pieces cs 0 (nstr ++ [c])
    else if cs.head? = some '%' then pieces cs 0 (nstr ++ ['%'])
    else match itemName [] cs with
      | some (str, fmt, n) => textPiece nstr ++ .item (String.ofList str) (String.ofList fmt) :: pieces cs n []
      | none => .patternError :: pieces cs 0 nstr

/-- The keys of `s_format_items`. -/
def formatItems : List String := ["m", "p", "r", "c", "t", "F", "N", "d", "f", "l", "n", "T"]

/-- The second loop of `init`. -/
def formatItem : Piece → FormatItem
  | .text str => .string str
  | .item str fmt => if str ∈ formatItems then .item str fmt else .string ("<<error_format %" ++ str ++ ">>")
  | .patternError => .string "<<pattern_error>>"

def pieceError : Piece → Bool
  | .text _ => false
  | .item str _ => str ∉ formatItems
  | .patternError => true

/-- The constructor, with `init`. -/
def new (pattern : String) : LogFormatter :=
  let vec := pieces pattern.toList 0 []
  { pattern, items := vec.map formatItem, error := vec.any pieceError }

/-- The pattern of a new logger. -/
def defaultPattern : String := "%d{%Y.%m.%d %H:%M:%S}%T%t%T%N%T%F%T[%p]%T[%c]%T%f:%l%T%m%n"

theorem default_valid : (new defaultPattern).error = false := by decide +kernel

end LogFormatter

end LjrServer.Log
