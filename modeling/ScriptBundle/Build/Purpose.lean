/-
# What a validator is for

The purpose of a validator says which scripts its digest is the hash of, and so which type the
hash has for the validators that embed it.  Two names that say more than the purpose does are
understood as well: rewards and certificates are both matters of staking.
-/
import ScriptBundle.Schema.Primitive

namespace ScriptBundle

inductive Purpose
  | spending
  | minting
  | staking
  /-- Any of them, told apart by the script itself. -/
  | mixed
deriving DecidableEq, Repr

namespace Purpose

def name : Purpose → String
  | spending => "spending"
  | minting => "minting"
  | staking => "staking"
  | mixed => "mixed"

/-- A text that names no purpose. -/
structure ParseError where
  input : String
deriving DecidableEq, Repr

/-- The complaint in words. -/
def ParseError.message (e : ParseError) : String := "unknown purpose '" ++ e.input ++ "'"

/-- The purpose that a text names. -/
def parse (text : String) : Except ParseError Purpose :=
  match text with
  | "spending" => .ok spending
  | "minting" => .ok minting
  | "staking" => .ok staking
  | "rewarding" => .ok staking
  | "certifying" => .ok staking
  | "mixed" => .ok mixed
  | _ => .error ⟨text⟩

/-- The type that the hash of a validator has. -/
def hashType : Purpose → Primitive
  | spending => .validatorHash
  | minting => .mintingPolicyHash
  | staking => .stakingValidatorHash
  | mixed => .scriptHash

/-- A purpose is read back from its own name. -/
theorem parse_name (p : Purpose) : parse p.name = .ok p := by
  cases p <;> rfl

end Purpose

end ScriptBundle
