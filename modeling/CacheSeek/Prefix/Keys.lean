import CacheSeek.Lib.Json
import Mathlib.Data.List.Sort
import Mathlib.Algebra.Group.Nat.Defs

namespace CacheSeek.Prefix
open CacheSeek.Lib

abbrev Bytes := List UInt8

inductive ActionKey where
  | int (n : Int)
  | str (s : String)
  deriving DecidableEq, Repr

/-- `s.encode("utf-8")`. -/
def utf8 (s : String) : Bytes := s.toByteArray.data.toList

def hexByte (b : UInt8) : List Char := [Json.hexDigit (b.toNat / 16), Json.hexDigit b.toNat]

def hex (b : Bytes) : String := String.ofList (b.flatMap hexByte)

/-- What `Py_ISSPACE` tells of ASCII. -/
def isSpaceByte (c : Char) : Bool := c = ' ' || ('\t' ≤ c && c ≤ '\r')

def fromHexChars : List Char → Option Bytes
  | [] => some []
  | [c] => if isSpaceByte c then some [] else none
  | c :: d :: rest =>
    if isSpaceByte c then fromHexChars (d :: rest)
    else do
      let hi ← Json.hexVal c
      let lo ← Json.hexVal d
      let bs ← fromHexChars rest
      some (UInt8.ofNat (16 * hi + lo) :: bs)

def fromHex (s : String) : Option Bytes := fromHexChars s.toList

def littleEndian : Nat → Nat → Bytes
  | 0, _ => []
  | k + 1, n => UInt8.ofNat n :: littleEndian k (n / 256)

/-- `n.to_bytes(8, "little")`; `none` is its OverflowError. -/
def toBytes8 (n : Nat) : Option Bytes := if n < 2 ^ 64 then some (littleEndian 8 n) else none

/-- What `sha256` feeds the hash: each part after its length. -/
def lengthPrefixed : List Bytes → Option Bytes
  | [] => some []
  | p :: ps => do
    let len ← toBytes8 p.length
    let rest ← lengthPrefixed ps
    some (len ++ p ++ rest)

mutual

/-- `sort_keys=True`, at every level. -/
def sortKeys : Json → Json
  | .arr xs => .arr (sortItems xs)
  | .obj kvs => .obj ((sortMembers kvs).insertionSort fun a b => a.1 ≤ b.1)
  | j => j

def sortItems : List Json → List Json
  | [] => []
  | x :: xs => sortKeys x :: sortItems xs

def sortMembers : List (String × Json) → List (String × Json)
  | [] => []
  | (k, x) :: kvs => (k, sortKeys x) :: sortMembers kvs
end

def canonicalJsonBytes (value : Json) : Bytes :=
  utf8 (Json.dumps Json.compactStyle (sortKeys value))

def ActionKey.toJson : ActionKey → Json
  | .int n => .int n
  | .str s => .str s

def ActionKey.bytes (a : ActionKey) : Bytes := canonicalJsonBytes a.toJson

section
variable (digest : Bytes → Bytes)

def sha256 (parts : List Bytes) : Option Bytes := (lengthPrefixed parts).map digest

def configBlobHash (config : List (String × Json)) (weightsFingerprint : Bytes) : Option Bytes :=
  sha256 digest [utf8 "cfg", canonicalJsonBytes (.obj config), weightsFingerprint]

def rootHash (imageFp promptFp configBlobHash : Bytes) : Option Bytes :=
  sha256 digest [utf8 "root", imageFp, promptFp, configBlobHash]

def nodeKey (parentNodeKey actionBytes : Bytes) : Option Bytes :=
  sha256 digest [utf8 "node", parentNodeKey, actionBytes]

def buildActionChain (root : Bytes) : List Bytes → Option (List Bytes)
  | [] => some []
  | ab :: abs => do
    let prev ← nodeKey digest root ab
    let keys ← buildActionChain prev abs
    some (prev :: keys)

end

/-- What a session attribute may hold; an attribute that is absent reads as `none`. -/
inductive Scalar where
  | none
  | bool (b : Bool)
  | int (n : Int)
  | float (x : FloatRepr)
  | str (s : String)
  deriving DecidableEq

def Scalar.toJson : Scalar → Json
  | .none => .null
  | .bool b => .bool b
  | .int n => .int n
  | .float x => .float x
  | .str s => .str s

structure SessionConfig where
  imageMode : String
  imageSize : Int × Int
  imageBytes : Bytes
  prompt : String
  attr : String → Scalar

def SESSION_KEY_FIELDS : List String :=
  ["seed", "frame_num", "chunk_size", "sample_shift", "control_mode", "max_attention_size",
    "max_sequence_length"]

/-- The code points `str.strip` removes. -/
def isStripped (c : Char) : Bool :=
  let n := c.toNat
  (9 ≤ n && n ≤ 13) || (28 ≤ n && n ≤ 32) || n = 133 || n = 160 || n = 5760 ||
    (8192 ≤ n && n ≤ 8202) || n = 8232 || n = 8233 || n = 8239 || n = 8287 || n = 12288

def strip (s : String) : String :=
  String.ofList ((s.toList.dropWhile isStripped).reverse.dropWhile isStripped).reverse

def sessionRootHash (digest : Bytes → Bytes) (session : SessionConfig)
    (modelFingerprint : Bytes) : Option Bytes := do
  let imageFp ← sha256 digest [utf8 "img", utf8 session.imageMode,
    canonicalJsonBytes (.arr [.int session.imageSize.1, .int session.imageSize.2]),
    digest session.imageBytes]
  let promptFp ← sha256 digest [utf8 "prompt", utf8 (strip session.prompt)]
  let blob := SESSION_KEY_FIELDS.map fun f => (f, (session.attr f).toJson)
  let cfgHash ← configBlobHash digest blob modelFingerprint
  rootHash digest imageFp promptFp cfgHash

end CacheSeek.Prefix
