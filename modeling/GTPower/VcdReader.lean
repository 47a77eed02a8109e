import GTPower.BusDecode
import GTPower.VcdTokens

/-! The VCD reader: header statements, then the loop over the value changes, which fills the store and cuts the time
into intervals. A `none` is an error the reader exits with, or a failed assertion. -/
namespace GTPower

namespace Keyword
def date : Token := ['$', 'd', 'a', 't', 'e']
def comment : Token := ['$', 'c', 'o', 'm', 'm', 'e', 'n', 't']
def version : Token := ['$', 'v', 'e', 'r', 's', 'i', 'o', 'n']
def timescale : Token := ['$', 't', 'i', 'm', 'e', 's', 'c', 'a', 'l', 'e']
def var : Token := ['$', 'v', 'a', 'r']
def scope : Token := ['$', 's', 'c', 'o', 'p', 'e']
def upscope : Token := ['$', 'u', 'p', 's', 'c', 'o', 'p', 'e']
def enddefinitions : Token := ['$', 'e', 'n', 'd', 'd', 'e', 'f', 'i', 'n', 'i', 't', 'i', 'o', 'n', 's']
def dumpall : Token := ['$', 'd', 'u', 'm', 'p', 'a', 'l', 'l']
def dumpvars : Token := ['$', 'd', 'u', 'm', 'p', 'v', 'a', 'r', 's']
def stop : Token := ['$', 'e', 'n', 'd']
end Keyword

inductive VcdVarType where
  | wire | reg | parameter | integer | real | supply0 | supply1 | time | tri | triand | trior | trireg | tri0 | tri1
    | wand | wor
  deriving DecidableEq, Repr

def vcdVarTypeMap : List (Token × VcdVarType) :=
  [(['w', 'i', 'r', 'e'], .wire), (['r', 'e', 'g'], .reg), (['p', 'a', 'r', 'a', 'm', 'e', 't', 'e', 'r'], .parameter),
    (['i', 'n', 't', 'e', 'g', 'e', 'r'], .integer), (['r', 'e', 'a', 'l'], .real),
    (['s', 'u', 'p', 'p', 'l', 'y', '0'], .supply0), (['s', 'u', 'p', 'p', 'l', 'y', '1'], .supply1),
    (['t', 'i', 'm', 'e'], .time), (['t', 'r', 'i'], .tri), (['t', 'r', 'i', 'a', 'n', 'd'], .triand),
    (['t', 'r', 'i', 'o', 'r'], .trior), (['t', 'r', 'i', 'r', 'e', 'g'], .trireg), (['t', 'r', 'i', '0'], .tri0),
    (['t', 'r', 'i', '1'], .tri1), (['w', 'a', 'n', 'd'], .wand), (['w', 'o', 'r'], .wor)]

structure VcdVar where
  name : List Char
  type : VcdVarType
  width : Int
  id : Token
  deriving DecidableEq, Repr

structure Vcd where
  timeScale : ℚ
  vars : List VcdVar
  /-- Values by the id of a variable, for declared ids. -/
  idValues : Token → Option (List VcdValue)
  minDeltaTime : Nat
  timeMax : Nat
  timeIntervals : List (Nat × Nat)

structure VcdReader where
  vcd : Vcd
  scope : List Token

def VcdReader.init : VcdReader := ⟨⟨1, [], fun _ => none, 0, 0, []⟩, []⟩

section Numbers

def decimalValue (digits : List Char) : Nat :=
  digits.foldl (fun value digit => 10 * value + (digit.toNat - '0'.toNat)) 0

/-- Leading integer of a text, within the limits of its type. -/
def parseInteger (limit : Nat) (text : List Char) : Option Int :=
  let negative := text.head? = some '-'
  let digits := (if negative ∨ text.head? = some '+' then text.tail else text).takeWhile Char.isDigit
  let value : Int := if negative then -decimalValue digits else decimalValue digits
  if digits = [] ∨ value < -limit ∨ limit ≤ value then none else some value

def stoi : List Char → Option Int := parseInteger (2 ^ 31)
def stoll : List Char → Option Int := parseInteger (2 ^ 63)

/-- Leading decimal number of a text and what follows it. -/
def stod (text : List Char) : Option (ℚ × List Char) :=
  let whole := text.takeWhile Char.isDigit
  let rest := text.dropWhile Char.isDigit
  let fraction := if rest.head? = some '.' then rest.tail.takeWhile Char.isDigit else []
  if whole = [] ∧ fraction = [] then none
  else some ((decimalValue whole : ℚ) + decimalValue fraction / 10 ^ fraction.length,
    if rest.head? = some '.' then rest.tail.dropWhile Char.isDigit else rest)

end Numbers

section Header

/-- Words of a statement up to `$end`, and the words after it. -/
def readStmtTokens (tokens : List Token) : List Token × List Token :=
  (tokens.takeWhile (· ≠ Keyword.stop), (tokens.dropWhile (· ≠ Keyword.stop)).tail)

def timeUnitScale (unit : List Char) : Option ℚ :=
  if unit = ['f', 's'] then some (1 / 10 ^ 15)
  else if unit = ['p', 's'] then some (1 / 10 ^ 12)
  else if unit = ['n', 's'] then some (1 / 10 ^ 9)
  else none

def parseTimescale (reader : VcdReader) : List Token → Option VcdReader
  | [word] => do
    let (timeScale, unit) ← stod word
    let scale ← timeUnitScale unit
    return { reader with vcd := { reader.vcd with timeScale := timeScale * scale } }
  | [number, unit] => do
    let scale ← timeUnitScale unit
    let (timeScale, _) ← stod number
    return { reader with vcd := { reader.vcd with timeScale := timeScale * scale } }
  | _ => none

/-- The name of a variable: its scopes, its base name with the divider escaped, and a separate bit range. -/
def varName (scope : List Token) (base : Token) (range : Option Token) : List Char :=
  let name := (scope.flatMap fun context => context ++ ['/']) ++ base.flatMap fun ch =>
    if ch = '/' then ['\\', '/'] else [ch]
  match range with
  | none => name
  | some range => name ++ (if name.head? = some '\\' then [' '] else []) ++ range

def makeVar (reader : VcdReader) (var : VcdVar) : VcdReader :=
  { reader with vcd := { reader.vcd with
      vars := reader.vcd.vars ++ [var]
      idValues := Function.update reader.vcd.idValues var.id (some []) } }

/-- A variable of unknown type is left out with a warning. -/
def declareVar (reader : VcdReader) (typeName width id base : Token) (range : Option Token) : Option VcdReader :=
  match vcdVarTypeMap.lookup typeName with
  | none => some reader
  | some type => (stoi width).map fun width => makeVar reader ⟨varName reader.scope base range, type, width, id⟩

def parseVar (reader : VcdReader) : List Token → Option VcdReader
  | [typeName, width, id, base] => declareVar reader typeName width id base none
  | [typeName, width, id, base, range] => declareVar reader typeName width id base (some range)
  | _ => none

def parseScope (reader : VcdReader) (tokens : List Token) : Option VcdReader :=
  (tokens[1]?).map fun scope => { reader with scope := reader.scope ++ [scope] }

def parseUpscope (reader : VcdReader) : Option VcdReader :=
  if reader.scope = [] then none else some { reader with scope := reader.scope.dropLast }

/-- Effect of a header statement, `none` where the word is no keyword of one. -/
def parseStmt (reader : VcdReader) (keyword : Token) (words : List Token) : Option (Option VcdReader) :=
  if keyword = Keyword.date ∨ keyword = Keyword.comment ∨ keyword = Keyword.version ∨
    keyword = Keyword.enddefinitions then
    some (some reader)
  else if keyword = Keyword.timescale then some (parseTimescale reader words)
  else if keyword = Keyword.var then some (parseVar reader words)
  else if keyword = Keyword.scope then some (parseScope reader words)
  else if keyword = Keyword.upscope then some (parseUpscope reader)
  else none

/-- The loop of `read` up to the first word that starts the value changes, with the words left for them. A word that is
no keyword is taken by this loop. -/
def readHeader : Nat → List Token → VcdReader → Option (VcdReader × Option (List Token))
  | 0, _, _ => none
  | _ + 1, [], reader => some (reader, none)
  | fuel + 1, token :: rest, reader =>
    match parseStmt reader token (readStmtTokens rest).1 with
    | some result => result.bind (readHeader fuel (readStmtTokens rest).2)
    | none =>
      if token = Keyword.dumpall ∨ token = Keyword.dumpvars then some (reader, some rest)
      else if token.head? = some '$' then none
      else some (reader, some rest)

end Header

section Values

inductive Record where
  | marker (time : Option Int)
  | scalar (value : VcdChar) (id : Token)
  | vector (text : List Char) (id : Token)
  | ignored
  deriving DecidableEq, Repr

def scalarValue : Char → Option VcdChar
  | '0' => some .zero
  | '1' => some .one
  | 'X' => some .x
  | 'U' => some .u
  | 'Z' => some .z
  | _ => none

/-- The record a word starts, by its first character, and the words after it. The id of a vector is the next word. -/
def firstRecord : Token → List Token → Record × List Token
  | [], rest => (.ignored, rest)
  | ch :: tail, rest =>
    if ch = '#' ∧ tail ≠ [] then (.marker (stoll tail), rest)
    else
      match scalarValue ch.toUpper with
      | some value => (.scalar value tail, rest)
      | none => if ch.toUpper = 'B' then (.vector tail (rest.headD []), rest.tail) else (.ignored, rest)

def valueRecordsFrom : Nat → List Token → List Record
  | 0, _ => []
  | _ + 1, [] => []
  | fuel + 1, token :: rest => (firstRecord token rest).1 :: valueRecordsFrom fuel (firstRecord token rest).2

def valueRecords (tokens : List Token) : List Record := valueRecordsFrom tokens.length tokens

/-- Cutting the time into intervals by the number of records read. -/
structure Slicer where
  nCurIntervalEvent : Nat
  timeIntervals : List (Nat × Nat)

namespace Slicer
variable (maxEventNum : Nat) (slicer : Slicer)

def lastEnd : Nat := (slicer.timeIntervals.getLast?.map Prod.snd).getD 0

def count (time nParsedEvent : Nat) : Slicer :=
  if maxEventNum < slicer.nCurIntervalEvent + nParsedEvent then ⟨0, slicer.timeIntervals ++ [(slicer.lastEnd, time)]⟩
  else ⟨slicer.nCurIntervalEvent + nParsedEvent, slicer.timeIntervals⟩

def wrapUp (timeMax : Nat) : List (Nat × Nat) := slicer.timeIntervals ++ [(slicer.lastEnd, timeMax + 1)]

end Slicer

/-- Variables of the loop over the value changes. -/
structure ValueLoop where
  idValues : Token → Option (List VcdValue)
  time : Nat
  prevTime : Nat
  minDeltaTime : Nat
  slicer : Slicer

namespace ValueLoop
variable (maxEventNum : Nat)

def init (vcd : Vcd) : ValueLoop := ⟨vcd.idValues, 0, 0, vcd.minDeltaTime, ⟨0, []⟩⟩

def append (loop : ValueLoop) (id : Token) (change : VarChange) : Option ValueLoop := do
  let values ← loop.idValues id
  let values ← parseVarValue values loop.time change
  return { loop with idValues := Function.update loop.idValues id (some values) }

def countRecords (loop : ValueLoop) (nParsedEvent : Nat) : ValueLoop :=
  { loop with slicer := loop.slicer.count maxEventNum loop.time nParsedEvent }

def parseRecord (loop : ValueLoop) : Record → Option ValueLoop
  | .marker (some (.ofNat time)) =>
    let loop := { loop with
      prevTime := loop.time
      time := time
      minDeltaTime := if loop.time < time then min (time - loop.time) loop.minDeltaTime else loop.minDeltaTime }
    some (loop.countRecords maxEventNum 0)
  | .marker _ => none
  | .scalar value id => (loop.append id (.scalar value)).map (countRecords maxEventNum · 1)
  | .vector text id => (loop.append id (.bus (busValueOf text) text.length)).map
    (countRecords maxEventNum · text.length)
  | .ignored => some (loop.countRecords maxEventNum 0)

end ValueLoop

def Vcd.parseVarValues (maxEventNum : Nat) (vcd : Vcd) (tokens : List Token) : Option Vcd := do
  let loop ← (valueRecords tokens).foldlM (ValueLoop.parseRecord maxEventNum) (ValueLoop.init vcd)
  if vcd.timeIntervals = [] then
    return { vcd with
      idValues := loop.idValues
      minDeltaTime := loop.minDeltaTime
      timeMax := loop.time
      timeIntervals := loop.slicer.wrapUp loop.time }
  else none

def VcdReader.readTokens (maxEventNum : Nat) (tokens : List Token) : Option Vcd := do
  let (reader, values) ← readHeader (tokens.length + 1) tokens VcdReader.init
  match values with
  | none => return reader.vcd
  | some rest => reader.vcd.parseVarValues maxEventNum rest

def VcdReader.read (maxEventNum : Nat) (text : List Char) : Option Vcd := readTokens maxEventNum (tokens text)

end Values
end GTPower
