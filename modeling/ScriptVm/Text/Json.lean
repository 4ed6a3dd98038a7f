/-! A strict reader of JSON text. Nothing may follow the value but blanks, numbers have no needless
zeros, and there are no trailing commas. Of numbers only the plain whole ones are told apart. -/

namespace ScriptVm

inductive JsonValue where
  | null
  | bool (b : Bool)
  | whole (n : Nat)
  /-- A number with a sign, a fraction or an exponent. -/
  | number
  /-- A string; absent if it names half of a surrogate pair. -/
  | string (s : Option String)
  | array (items : List JsonValue)
  | object (fields : List (Option String × JsonValue))

namespace JsonValue

/-- What is left of the text after a part of it was read; absent if it is malformed. -/
abbrev Parse (α : Type) := List Char → Option (α × List Char)

def isBlank (c : Char) : Bool := c == ' ' || c == '\n' || c == '\t' || c == '\r'

def skipBlanks (cs : List Char) : List Char := cs.dropWhile isBlank

def hexValue? (c : Char) : Option Nat :=
  if c.isDigit then some (c.toNat - '0'.toNat)
  else if 'a' ≤ c && c ≤ 'f' then some (c.toNat - 'a'.toNat + 10)
  else if 'A' ≤ c && c ≤ 'F' then some (c.toNat - 'A'.toNat + 10)
  else none

def hex4 : Parse Nat
  | a :: b :: c :: d :: rest => do
    let n := 4096 * (← hexValue? a) + 256 * (← hexValue? b) + 16 * (← hexValue? c) + (← hexValue? d)
    some (n, rest)
  | _ => none

/-- A unit of text: a 16-bit code unit from an escape by number, or a character. -/
inductive Piece where
  | unit (n : Nat)
  | char (c : Char)

def escape : Parse Piece
  | 'u' :: rest => do
    let (n, rest) ← hex4 rest
    some (.unit n, rest)
  | '"' :: rest => some (.char '"', rest)
  | '\\' :: rest => some (.char '\\', rest)
  | '/' :: rest => some (.char '/', rest)
  | 'b' :: rest => some (.char '\x08', rest)
  | 'f' :: rest => some (.char '\x0c', rest)
  | 'n' :: rest => some (.char '\n', rest)
  | 'r' :: rest => some (.char '\r', rest)
  | 't' :: rest => some (.char '\t', rest)
  | _ => none

/-- The pieces of a string up to its closing quote, at most `fuel` of them. -/
def pieces : Nat → Parse (List Piece)
  | 0, _ => none
  | fuel + 1, cs =>
    match cs with
    | [] => none
    | '"' :: rest => some ([], rest)
    | '\\' :: rest => do
      let (p, rest) ← escape rest
      let (ps, rest) ← pieces fuel rest
      some (p :: ps, rest)
    | c :: rest =>
      if c.toNat < 0x20 then none
      else do
        let (ps, rest) ← pieces fuel rest
        some (.char c :: ps, rest)

/-- Puts the pieces together; two units of a surrogate pair make one character. -/
def join : List Piece → Option (List Char)
  | [] => some []
  | .char c :: rest => do some (c :: (← join rest))
  | .unit n :: rest =>
    if 0xD800 ≤ n && n < 0xDC00 then
      match rest with
      | .unit low :: rest =>
        if 0xDC00 ≤ low && low < 0xE000 then do
          some (Char.ofNat (0x10000 + (n - 0xD800) * 0x400 + (low - 0xDC00)) :: (← join rest))
        else none
      | _ => none
    else if 0xDC00 ≤ n && n < 0xE000 then none
    else do some (Char.ofNat n :: (← join rest))

/-- A string whose opening quote has been read. -/
def text : Parse (Option String) := fun cs => do
  let (ps, rest) ← pieces (cs.length + 1) cs
  some ((join ps).map String.ofList, rest)

/-- One digit or more. -/
def someDigits : Parse (List Char) := fun cs =>
  match cs.takeWhile Char.isDigit with
  | [] => none
  | ds => some (ds, cs.dropWhile Char.isDigit)

/-- The digits before the point: a zero stands alone. -/
def wholeDigits : Parse (List Char)
  | '0' :: rest => if (rest.head?.map Char.isDigit).getD false then none else some (['0'], rest)
  | cs => someDigits cs

/-- The fraction, if there is one, and whether there is. -/
def fraction : Parse Bool
  | '.' :: rest => do
    let (_, rest) ← someDigits rest
    some (true, rest)
  | cs => some (false, cs)

def exponent : Parse Bool
  | c :: rest =>
    if c == 'e' || c == 'E' then do
      let rest := match rest with
        | '+' :: rest => rest
        | '-' :: rest => rest
        | rest => rest
      let (_, rest) ← someDigits rest
      some (true, rest)
    else some (false, c :: rest)
  | [] => some (false, [])

def decimalValue (ds : List Char) : Nat := ds.foldl (fun n c => 10 * n + (c.toNat - '0'.toNat)) 0

def magnitude : Parse JsonValue := fun cs => do
  let (ds, rest) ← wholeDigits cs
  let (fractional, rest) ← fraction rest
  let (scaled, rest) ← exponent rest
  some (if fractional || scaled then .number else .whole (decimalValue ds), rest)

def word (expected : List Char) (j : JsonValue) : Parse JsonValue := fun cs =>
  if expected.isPrefixOf cs then some (j, cs.drop expected.length) else none

mutual

/-- A value, nested no deeper than the fuel allows. -/
def value : Nat → Parse JsonValue
  | 0, _ => none
  | fuel + 1, cs =>
    match skipBlanks cs with
    | '[' :: rest =>
      match skipBlanks rest with
      | ']' :: rest => some (.array [], rest)
      | rest => do
        let (items, rest) ← items fuel rest
        some (.array items, rest)
    | '\x7b' :: rest =>
      match skipBlanks rest with
      | '\x7d' :: rest => some (.object [], rest)
      | rest => do
        let (fields, rest) ← fields fuel rest
        some (.object fields, rest)
    | '"' :: rest => do
      let (s, rest) ← text rest
      some (.string s, rest)
    | 't' :: rest => word "rue".toList (.bool true) rest
    | 'f' :: rest => word "alse".toList (.bool false) rest
    | 'n' :: rest => word "ull".toList .null rest
    | '-' :: rest => do
      let (_, rest) ← magnitude rest
      some (.number, rest)
    | rest => magnitude rest

/-- One item or more, and the closing bracket. -/
def items : Nat → Parse (List JsonValue)
  | 0, _ => none
  | fuel + 1, cs => do
    let (item, rest) ← value fuel cs
    match skipBlanks rest with
    | ']' :: rest => some ([item], rest)
    | ',' :: rest =>
      let (others, rest) ← items fuel rest
      some (item :: others, rest)
    | _ => none

/-- One field or more, and the closing brace. -/
def fields : Nat → Parse (List (Option String × JsonValue))
  | 0, _ => none
  | fuel + 1, cs =>
    match skipBlanks cs with
    | '"' :: rest => do
      let (key, rest) ← text rest
      match skipBlanks rest with
      | ':' :: rest =>
        let (v, rest) ← value fuel rest
        match skipBlanks rest with
        | '\x7d' :: rest => some ([(key, v)], rest)
        | ',' :: rest =>
          let (others, rest) ← fields fuel rest
          some ((key, v) :: others, rest)
        | _ => none
      | _ => none
    | _ => none

end

/-- Reads a whole text. Each level of recursion but every second one reads a character, so the fuel
suffices for every text. -/
def parse? (s : String) : Option JsonValue := do
  let cs := s.toList
  let (j, rest) ← value (2 * cs.length + 2) cs
  if (skipBlanks rest).isEmpty then some j else none

end JsonValue
end ScriptVm
