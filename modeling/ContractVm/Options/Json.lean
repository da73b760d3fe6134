/-! # JSON text

A reader for JSON documents that keeps only what options need: which numbers are plain natural
numbers, and the texts of object keys. String values are checked but not kept. Recursion is bounded
by the length of the text, since any two steps take at least one character. -/

namespace ContractVm

namespace Json

inductive Document where
  | null
  | bool (value : Bool)
  /-- A number; `none` if it has a sign, a fraction or an exponent. -/
  | number (natural : Option Nat)
  | text
  | array (items : List Document)
  /-- An object; a key is `none` if its escapes do not spell a text. -/
  | object (entries : List (Option String × Document))

/-- A part of a string literal: a character, or a UTF-16 unit given by an escape. -/
inductive Piece where
  | char (c : Char)
  | unit (code : Nat)

def skipBlanks (cs : List Char) : List Char :=
  cs.dropWhile fun c => c == ' ' || c == '\n' || c == '\t' || c == '\r'

def hexDigit? (c : Char) : Option Nat :=
  let n := c.toNat
  if 48 ≤ n ∧ n ≤ 57 then some (n - 48)
  else if 97 ≤ n ∧ n ≤ 102 then some (n - 87)
  else if 65 ≤ n ∧ n ≤ 70 then some (n - 55)
  else none

def unit? (a b c d : Char) : Option Nat := do
  return (((← hexDigit? a) * 16 + (← hexDigit? b)) * 16 + (← hexDigit? c)) * 16 + (← hexDigit? d)

def shortEscape? : Char → Option Char
  | '"' => some '"'
  | '\\' => some '\\'
  | '/' => some '/'
  | 'b' => some '\x08'
  | 'f' => some '\x0c'
  | 'n' => some '\n'
  | 'r' => some '\r'
  | 't' => some '\t'
  | _ => none

/-- The pieces of a string literal after its opening quote, and what follows its closing quote. The
pieces read so far are in `acc`, the latest first. -/
def readPieces (acc : List Piece) : List Char → Option (List Piece × List Char)
  | '"' :: rest => some (acc.reverse, rest)
  | '\\' :: 'u' :: a :: b :: c :: d :: rest =>
    match unit? a b c d with
    | some code => readPieces (.unit code :: acc) rest
    | none => none
  | '\\' :: e :: rest =>
    match shortEscape? e with
    | some c => readPieces (.char c :: acc) rest
    | none => none
  | c :: rest => if c == '\\' || c.toNat < 32 then none else readPieces (.char c :: acc) rest
  | [] => none

/-- The text that pieces spell. A unit of the first half of a surrogate pair must be followed by one
of the second half, and the second half stands nowhere else. -/
def spell? : List Piece → Option (List Char)
  | [] => some []
  | .char c :: rest => (spell? rest).map (c :: ·)
  | .unit code :: rest =>
    if code < 0xd800 ∨ 0xe000 ≤ code then (spell? rest).map (Char.ofNat code :: ·)
    else
      match rest with
      | .unit low :: rest =>
        if code < 0xdc00 ∧ 0xdc00 ≤ low ∧ low < 0xe000 then
          (spell? rest).map
            (Char.ofNat (0x10000 + (code - 0xd800) * 0x400 + (low - 0xdc00)) :: ·)
        else none
      | _ => none

/-- What follows `word`, if the text starts with it. -/
def keyword (word : List Char) (cs : List Char) : Option (List Char) :=
  if word.isPrefixOf cs then some (cs.drop word.length) else none

def readDigits (cs : List Char) : Option (List Char × List Char) :=
  match cs.span Char.isDigit with
  | ([], _) => none
  | (digits, rest) => some (digits, rest)

/-- The digits before the point: a zero stands alone. -/
def readWhole : List Char → Option (List Char × List Char)
  | '0' :: rest =>
    match rest with
    | c :: _ => if c.isDigit then none else some (['0'], rest)
    | [] => some (['0'], [])
  | cs => readDigits cs

/-- The fraction, if there is one: whether there is, and what follows. -/
def readFraction : List Char → Option (Bool × List Char)
  | '.' :: rest => (readDigits rest).map fun (_, rest) => (true, rest)
  | cs => some (false, cs)

def readExponent (cs : List Char) : Option (Bool × List Char) :=
  match cs with
  | c :: rest =>
    if c == 'e' || c == 'E' then
      let unsigned := match rest with
        | '+' :: rest => rest
        | '-' :: rest => rest
        | rest => rest
      (readDigits unsigned).map fun (_, rest) => (true, rest)
    else some (false, cs)
  | [] => some (false, cs)

def decimal (digits : List Char) : Nat :=
  digits.foldl (fun n c => n * 10 + (c.toNat - 48)) 0

/-- A number without a sign. -/
def readNumber (cs : List Char) : Option (Option Nat × List Char) := do
  let (whole, rest) ← readWhole cs
  let (fraction, rest) ← readFraction rest
  let (exponent, rest) ← readExponent rest
  return (if fraction || exponent then none else some (decimal whole), rest)

mutual

def readDocument : Nat → List Char → Option (Document × List Char)
  | 0, _ => none
  | fuel + 1, cs =>
    match skipBlanks cs with
    | 'n' :: rest => (keyword ['u', 'l', 'l'] rest).map fun rest => (.null, rest)
    | 't' :: rest => (keyword ['r', 'u', 'e'] rest).map fun rest => (.bool true, rest)
    | 'f' :: rest => (keyword ['a', 'l', 's', 'e'] rest).map fun rest => (.bool false, rest)
    | '"' :: rest => (readPieces [] rest).map fun (_, rest) => (.text, rest)
    | '-' :: rest => (readNumber rest).map fun (_, rest) => (.number none, rest)
    | '[' :: rest =>
      match skipBlanks rest with
      | ']' :: rest => some (.array [], rest)
      | rest => (readItems fuel rest).map fun (items, rest) => (.array items, rest)
    | '\x7b' :: rest =>
      match skipBlanks rest with
      | '\x7d' :: rest => some (.object [], rest)
      | rest => (readEntries fuel rest).map fun (entries, rest) => (.object entries, rest)
    | rest => (readNumber rest).map fun (natural, rest) => (.number natural, rest)

def readItems : Nat → List Char → Option (List Document × List Char)
  | 0, _ => none
  | fuel + 1, cs => do
    let (item, rest) ← readDocument fuel cs
    match skipBlanks rest with
    | ']' :: rest => return ([item], rest)
    | ',' :: rest =>
      let (items, rest) ← readItems fuel rest
      return (item :: items, rest)
    | _ => none

def readEntries : Nat → List Char → Option (List (Option String × Document) × List Char)
  | 0, _ => none
  | fuel + 1, cs =>
    match skipBlanks cs with
    | '"' :: rest => do
      let (pieces, rest) ← readPieces [] rest
      match skipBlanks rest with
      | ':' :: rest =>
        let (value, rest) ← readDocument fuel rest
        let entry := ((spell? pieces).map String.ofList, value)
        match skipBlanks rest with
        | '\x7d' :: rest => return ([entry], rest)
        | ',' :: rest =>
          let (entries, rest) ← readEntries fuel rest
          return (entry :: entries, rest)
        | _ => none
      | _ => none
    | _ => none

end

/-- The document that makes up a whole text, with nothing but white space around it. -/
def parse (text : String) : Option Document :=
  let cs := text.toList
  match readDocument (2 * cs.length + 2) cs with
  | some (document, rest) => if (skipBlanks rest).isEmpty then some document else none
  | none => none

end Json

end ContractVm
