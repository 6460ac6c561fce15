/-
# Why a build fails

A build fails for one cause, the first that it meets, and does not try again.
-/
import ScriptBundle.Build.ValidatorSet
import ScriptBundle.Bytes.Hex
import ScriptBundle.Schema.WellFormed
import ScriptBundle.Store.Backend

namespace ScriptBundle

/-- Why a record is no record of a build, for a validator or function of some name. -/
inductive RecordFlaw
  /-- A part is not hexadecimal. -/
  | notHex (name part : String) (cause : Hex.Error)
  /-- A validator's hash is another than its program's. -/
  | otherHash (name : String)

/-- The complaint in words. -/
def RecordFlaw.message : RecordFlaw → String
  | .notHex name part cause => name ++ ": " ++ part ++ " is not valid hex: " ++ cause.message
  | .otherHash name => name ++ ": stored hash does not match the stored program"

inductive BuildError
  /-- Validators depend on themselves by way of others. -/
  | dependencyCycle (validators : List String)
  | unknownPurpose (validator purpose : String)
  /-- Declarations do not hold together. -/
  | declaration (flaw : ValidatorSet.Flaw)
  /-- A hash is expected of a validator that does not exist. -/
  | unknownValidator (validator : String)
  /-- A hash is another than the expected one. -/
  | hashMismatch (validator : String) (expected actual : Bytes)
  | invalidSchema (validator : String) (cause : Schema.Defect)
  /-- The toolchain complains about a source. -/
  | frontend (validator complaint : String)
  /-- The toolchain cannot load a stored program. -/
  | programLoad (name complaint : String)
  | corruptRecord (flaw : RecordFlaw)
  /-- The record of the build cannot be stored. -/
  | store (cause : StoreError)

/-- The complaint in words. -/
def BuildError.message : BuildError → String
  | .dependencyCycle validators => "hash dependency cycle between " ++ ", ".intercalate validators
  | .unknownPurpose validator purpose =>
    "validator '" ++ validator ++ "' has unknown purpose '" ++ purpose ++ "'"
  | .declaration flaw => flaw.message
  | .unknownValidator validator =>
    "expected hash given for unknown validator '" ++ validator ++ "'"
  | .hashMismatch validator expected actual =>
    "hash of validator '" ++ validator ++ "' changed: expected " ++ Hex.encode expected
      ++ ", got " ++ Hex.encode actual
  | .invalidSchema validator cause =>
    "validator '" ++ validator ++ "' has an invalid schema: " ++ cause.message
  | .frontend validator complaint =>
    "failed to compile validator '" ++ validator ++ "': " ++ complaint
  | .programLoad name complaint =>
    "failed to load cached program '" ++ name ++ "': failed to load program: " ++ complaint
  | .corruptRecord flaw => "corrupt cache record: " ++ flaw.message
  | .store cause => cause.message

end ScriptBundle
