/-
# What can go wrong between values and data

An error names the place where a value or a data tree does not fit its schema, as a path from the
root, and then the cause.  Causes are kept as such; their wording is in section 3.
-/
import ScriptBundle.Value
import ScriptBundle.Schema

namespace ScriptBundle.Codec

/-! ## 1. Places -/

/-- A place in a value or a tree. -/
inductive Path
  /-- Where the walk starts, under the name it goes by. -/
  | root (name : String)
  | field (parent : Path) (name : String)
  | item (parent : Path) (index : Nat)
deriving DecidableEq

namespace Path

/-- The usual starting place. -/
def top : Path := .root "$"

def text : Path → String
  | .root name => name
  | .field parent name => parent.text ++ "." ++ name
  | .item parent index => parent.text ++ "[" ++ toString index ++ "]"

end Path

/-! ## 2. Causes -/

/-- What a value was expected to be. -/
inductive Expected
  | schema (s : Schema)
  | primitive (p : Primitive)
  | natural
  /-- A list of a key and a value. -/
  | pair
  | variantFields
  /-- A map from token names to amounts. -/
  | tokens

/-- What is wrong with a value of an accepted kind. -/
inductive ValueFlaw
  | notHex (text : String) (e : Hex.Error)
  | notInteger (text : String)
  | notNatural (n : Int128)
  | notReal (e : Real.ParseError)
  /-- A whole number that no decimal is large enough for. -/
  | tooLarge (n : Int128)
  | notOutputId (text : String)
  | notAssetClass (text : String)
  | notAddress (e : Address.Error)
  | zeroDenominator

/-- What is wrong with data of the right shape. -/
inductive DataFlaw
  | notNatural (n : Int128)
  | zeroDenominator

/-- Why a value cannot be encoded or data not decoded. -/
inductive Error
  | kindMismatch (path : Path) (expected actual : Data.Kind)
  /-- There are only `count` alternatives. -/
  | tagOutOfRange (path : Path) (tag : UInt64) (count : Nat)
  | fieldCount (path : Path) (expected actual : Nat)
  | byteLength (path : Path) (p : Primitive) (expected actual : Nat)
  | invalidUtf8 (path : Path)
  | invalidData (path : Path) (flaw : DataFlaw)
  /-- No value of this kind stands for what is expected. -/
  | unexpectedValue (path : Path) (expected : Expected) (actual : String)
  | invalidValue (path : Path) (flaw : ValueFlaw)
  | missingField (path : Path) (field : String)
  | unknownField (path : Path) (field : String)
  | unknownVariant (path : Path) (name : String)
  /-- An address of the other network. -/
  | networkMismatch (path : Path) (expected : Network)

/-! ## 3. Words -/

def Expected.text : Expected → String
  | .schema s => s.display
  | .primitive p => p.name
  | .natural => "natural number"
  | .pair => "[key, value] pair"
  | .variantFields => "variant fields"
  | .tokens => "Map[ByteArray]Int"

def ValueFlaw.text : ValueFlaw → String
  | .notHex s e => "'" ++ s ++ "' is not valid hex: " ++ e.message
  | .notInteger s => "'" ++ s ++ "' is not a decimal integer"
  | .notNatural n => n.text ++ " is not a valid natural number"
  | .notReal e => e.message
  | .tooLarge n => n.text ++ " overflows a Real"
  | .notOutputId s => "'" ++ s ++ "' is not of the form <txid>#<index>"
  | .notAssetClass s => "'" ++ s ++ "' is not of the form <mph>.<token>"
  | .notAddress e => e.message
  | .zeroDenominator => "ratio denominator is zero"

def DataFlaw.text : DataFlaw → String
  | .notNatural n => n.text ++ " is not a valid natural number"
  | .zeroDenominator => "ratio denominator is zero"

namespace Error

def path : Error → Path
  | .kindMismatch p _ _ => p
  | .tagOutOfRange p _ _ => p
  | .fieldCount p _ _ => p
  | .byteLength p _ _ _ => p
  | .invalidUtf8 p => p
  | .invalidData p _ => p
  | .unexpectedValue p _ _ => p
  | .invalidValue p _ => p
  | .missingField p _ => p
  | .unknownField p _ => p
  | .unknownVariant p _ => p
  | .networkMismatch p _ => p

/-- The cause in words. -/
def cause : Error → String
  | .kindMismatch _ expected actual => "expected " ++ expected.name ++ ", got " ++ actual.name
  | .tagOutOfRange _ tag count =>
    "constructor tag " ++ toString tag.toNat ++ " out of range, expected a tag below "
      ++ toString count
  | .fieldCount _ expected actual =>
    "expected " ++ toString expected ++ " fields, got " ++ toString actual
  | .byteLength _ p expected actual =>
    p.name ++ " must be " ++ toString expected ++ " bytes, got " ++ toString actual
  | .invalidUtf8 _ => "string bytes are not valid UTF-8"
  | .invalidData _ flaw => "invalid data: " ++ flaw.text
  | .unexpectedValue _ expected actual => "cannot encode " ++ actual ++ " as " ++ expected.text
  | .invalidValue _ flaw => "invalid value: " ++ flaw.text
  | .missingField _ field => "missing field '" ++ field ++ "'"
  | .unknownField _ field => "unknown field '" ++ field ++ "'"
  | .unknownVariant _ name => "unknown variant '" ++ name ++ "'"
  | .networkMismatch _ expected => "address network mismatch, expected " ++ expected.name

/-- The place and the cause in words. -/
def message (e : Error) : String := e.path.text ++ ": " ++ e.cause

end Error

end ScriptBundle.Codec
