import Mathlib.Data.List.Basic

namespace CacheSeek.Lib

/-- The text `repr` prints for a finite float: digits with a point or an exponent.
Distinct finite floats print differently, so the text stands for the number. -/
def isFloatRepr (cs : List Char) : Bool :=
  let body := if cs.head? = some '-' then cs.tail else cs
  body.head?.any Char.isDigit && body.any (fun c => c = '.' || c = 'e') &&
    body.all (fun c => c.isDigit || c = '.' || c = 'e' || c = '+' || c = '-')

structure FloatRepr where
  text : List Char
  valid : isFloatRepr text = true
  deriving DecidableEq

/-- The values `json` reads and writes. An object keeps the order of its members. -/
inductive Json where
  | null
  | bool (b : Bool)
  | int (n : Int)
  | float (x : FloatRepr)
  | str (s : String)
  | arr (xs : List Json)
  | obj (kvs : List (String × Json))

/-- `json.dumps` options: the blanks after a separator, and `ensure_ascii`. -/
structure JsonStyle where
  pad : Nat
  ascii : Bool

def JsonStyle.itemSep (st : JsonStyle) : List Char := ',' :: List.replicate st.pad ' '

def JsonStyle.keySep (st : JsonStyle) : List Char := ':' :: List.replicate st.pad ' '

namespace Json

def defaultStyle : JsonStyle := ⟨1, true⟩

def compactStyle : JsonStyle := ⟨0, false⟩

def hexDigit (n : Nat) : Char := Nat.digitChar (n % 16)

def hex4 (n : Nat) : List Char :=
  [hexDigit (n / 4096), hexDigit (n / 256), hexDigit (n / 16), hexDigit n]

def escapeUnicode (n : Nat) : List Char := '\\' :: 'u' :: hex4 n

def escapeChar (ascii : Bool) (c : Char) : List Char :=
  if c = '"' then ['\\', '"']
  else if c = '\\' then ['\\', '\\']
  else if c = '\n' then ['\\', 'n']
  else if c = '\r' then ['\\', 'r']
  else if c = '\t' then ['\\', 't']
  else if c.toNat = 8 then ['\\', 'b']
  else if c.toNat = 12 then ['\\', 'f']
  else if c.toNat < 32 then escapeUnicode c.toNat
  else if ascii && 127 ≤ c.toNat then
    if c.toNat < 65536 then escapeUnicode c.toNat
    else escapeUnicode (55296 + (c.toNat - 65536) / 1024) ++
      escapeUnicode (56320 + (c.toNat - 65536) % 1024)
  else [c]

def dumpString (ascii : Bool) (s : String) : List Char :=
  '"' :: (s.toList.flatMap (escapeChar ascii) ++ ['"'])

def dumpInt : Int → List Char
  | .ofNat n => Nat.toDigits 10 n
  | .negSucc n => '-' :: Nat.toDigits 10 (n + 1)

mutual

def dump (st : JsonStyle) : Json → List Char
  | .null => ['n', 'u', 'l', 'l']
  | .bool true => ['t', 'r', 'u', 'e']
  | .bool false => ['f', 'a', 'l', 's', 'e']
  | .int n => dumpInt n
  | .float x => x.text
  | .str s => dumpString st.ascii s
  | .arr xs => '[' :: (dumpItems st xs ++ [']'])
  | .obj kvs => '{' :: (dumpMembers st kvs ++ ['}'])

def dumpItems (st : JsonStyle) : List Json → List Char
  | [] => []
  | [x] => dump st x
  | x :: y :: xs => dump st x ++ st.itemSep ++ dumpItems st (y :: xs)

def dumpMembers (st : JsonStyle) : List (String × Json) → List Char
  | [] => []
  | [(k, x)] => dumpString st.ascii k ++ st.keySep ++ dump st x
  | (k, x) :: y :: xs =>
    dumpString st.ascii k ++ st.keySep ++ dump st x ++ st.itemSep ++ dumpMembers st (y :: xs)
end

def isSpace (c : Char) : Bool := c = ' ' || c = '\n' || c = '\r' || c = '\t'

def skipSpace (cs : List Char) : List Char := cs.dropWhile isSpace

def hexVal (c : Char) : Option Nat :=
  if c.isDigit then some (c.toNat - 48)
  else if 'a' ≤ c ∧ c ≤ 'f' then some (c.toNat - 87)
  else if 'A' ≤ c ∧ c ≤ 'F' then some (c.toNat - 55)
  else none

def readHex4 : List Char → Option (Nat × List Char)
  | a :: b :: c :: d :: rest => do
    let a ← hexVal a
    let b ← hexVal b
    let c ← hexVal c
    let d ← hexVal d
    some (a * 4096 + b * 256 + c * 16 + d, rest)
  | _ => none

/-- A code unit after `\u`, joined with the low surrogate that must follow a high one. -/
def readUnicode (cs : List Char) : Option (Char × List Char) := do
  let (u, rest) ← readHex4 cs
  if 55296 ≤ u ∧ u < 56320 then
    match rest with
    | '\\' :: 'u' :: rest => do
      let (v, rest) ← readHex4 rest
      if 56320 ≤ v ∧ v < 57344 then
        some (Char.ofNat (65536 + (u - 55296) * 1024 + (v - 56320)), rest)
      else none
    | _ => none
  else if 56320 ≤ u ∧ u < 57344 then none
  else some (Char.ofNat u, rest)

def readChar : List Char → Option (Char × List Char)
  | '\\' :: 'u' :: rest => readUnicode rest
  | '\\' :: '"' :: rest => some ('"', rest)
  | '\\' :: '\\' :: rest => some ('\\', rest)
  | '\\' :: '/' :: rest => some ('/', rest)
  | '\\' :: 'b' :: rest => some (Char.ofNat 8, rest)
  | '\\' :: 'f' :: rest => some (Char.ofNat 12, rest)
  | '\\' :: 'n' :: rest => some ('\n', rest)
  | '\\' :: 'r' :: rest => some ('\r', rest)
  | '\\' :: 't' :: rest => some ('\t', rest)
  | c :: rest => if c.toNat < 32 ∨ c = '\\' then none else some (c, rest)
  | [] => none

def readString : Nat → List Char → Option (List Char × List Char)
  | 0, _ => none
  | _ + 1, '"' :: rest => some ([], rest)
  | n + 1, cs => do
    let (c, rest) ← readChar cs
    let (s, rest) ← readString n rest
    some (c :: s, rest)

def isNumberChar (c : Char) : Bool := c.isDigit || c = '.' || c = 'e' || c = '+' || c = '-'

/-- An integer literal in its shortest form, or a float literal as `repr` prints it. -/
def readNumber (cs : List Char) : Option (Json × List Char) :=
  let tok := cs.takeWhile isNumberChar
  let rest := cs.dropWhile isNumberChar
  if h : isFloatRepr tok = true then some (.float ⟨tok, h⟩, rest)
  else
    let n := Nat.ofDigitChars 10 (if tok.head? = some '-' then tok.tail else tok) 0
    let i : Int := if tok.head? = some '-' then -n else n
    if dumpInt i = tok then some (.int i, rest) else none

mutual

def read : Nat → List Char → Option (Json × List Char)
  | 0, _ => none
  | n + 1, cs =>
    match skipSpace cs with
    | 'n' :: 'u' :: 'l' :: 'l' :: rest => some (.null, rest)
    | 't' :: 'r' :: 'u' :: 'e' :: rest => some (.bool true, rest)
    | 'f' :: 'a' :: 'l' :: 's' :: 'e' :: rest => some (.bool false, rest)
    | '"' :: rest => (readString n rest).map fun (s, rest) => (.str (String.ofList s), rest)
    | '[' :: rest =>
      match skipSpace rest with
      | ']' :: rest => some (.arr [], rest)
      | rest => (readItems n rest).map fun (xs, rest) => (.arr xs, rest)
    | '{' :: rest =>
      match skipSpace rest with
      | '}' :: rest => some (.obj [], rest)
      | rest => (readMembers n rest).map fun (kvs, rest) => (.obj kvs, rest)
    | cs => readNumber cs

def readItems : Nat → List Char → Option (List Json × List Char)
  | 0, _ => none
  | n + 1, cs => do
    let (x, rest) ← read n cs
    match skipSpace rest with
    | ']' :: rest => some ([x], rest)
    | ',' :: rest => do
      let (xs, rest) ← readItems n rest
      some (x :: xs, rest)
    | _ => none

def readMembers : Nat → List Char → Option (List (String × Json) × List Char)
  | 0, _ => none
  | n + 1, cs =>
    match skipSpace cs with
    | '"' :: rest => do
      let (k, rest) ← readString n rest
      match skipSpace rest with
      | ':' :: rest => do
        let (x, rest) ← read n rest
        match skipSpace rest with
        | '}' :: rest => some ([(String.ofList k, x)], rest)
        | ',' :: rest => do
          let (kvs, rest) ← readMembers n rest
          some ((String.ofList k, x) :: kvs, rest)
        | _ => none
      | _ => none
    | _ => none
end

/-- `d.get(key)`; where a text repeats a key, its last member counts. -/
def get? : Json → String → Option Json
  | .obj kvs, key => kvs.reverse.lookup key
  | _, _ => none

def asStr : Json → Option String
  | .str s => some s
  | _ => none

def asInt : Json → Option Int
  | .int n => some n
  | _ => none

def asBool : Json → Option Bool
  | .bool b => some b
  | _ => none

def asArr : Json → Option (List Json)
  | .arr xs => some xs
  | _ => none

def field {α : Type} (j : Json) (key : String) (read : Json → Option α) : Option α :=
  (j.get? key).bind read

def fieldD {α : Type} (j : Json) (key : String) (read : Json → Option α) (default : α) : Option α :=
  match j.get? key with
  | none => some default
  | some v => read v

def nullable {α : Type} (read : Json → Option α) : Json → Option (Option α)
  | .null => some none
  | j => (read j).map some

def ofOption {α : Type} (write : α → Json) : Option α → Json
  | none => .null
  | some a => write a

def dumps (st : JsonStyle) (j : Json) : String := String.ofList (dump st j)

/-- `json.loads`: the whole text is one value. -/
def loads (s : String) : Option Json := do
  let (j, rest) ← read (2 * s.toList.length + 2) s.toList
  if skipSpace rest = [] then some j else none

end Json

end CacheSeek.Lib
