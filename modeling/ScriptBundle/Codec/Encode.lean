/-
# Encoding values

A value is encoded along its schema.  Data that is already encoded passes through wherever it
stands, unchecked; a primitive follows its own rule; everything else is encoded part by part.

The parts of a record or a variant come by name or by position.  By name, every entry must belong
to a field, and a field without an entry is only allowed if it is an option, which is then absent.
A record of one field is not wrapped: its data is the data of that field.

The recursion is on the schema alone: whatever form a value has, its parts are encoded under
parts of the schema.
-/
import ScriptBundle.Codec.Primitive

namespace ScriptBundle.Codec

/-! ## 1. Where fields come from -/

/-- The parts of a record or variant as they are supplied. -/
inductive Source
  | named (entries : List (String × Value))
  | positional (values : List Value)

/-- The first entry that belongs to no field. -/
def stray? (fields : List (Field Schema)) (entries : List (String × Value)) : Option String :=
  (entries.find? fun e => fields.all (·.name ≠ e.1)).map (·.1)

/-- Encodes fields from their source by whichever of two ways the source calls for, once the
source is known to fit the fields. -/
def fromSource (fields : List (Field Schema)) (path : Path) (source : Source)
    (byName : List (String × Value) → Result (List Data))
    (byPosition : List Value → Result (List Data)) : Result (List Data) :=
  match source with
  | .positional values =>
    if values.length ≠ fields.length then .error (.fieldCount path fields.length values.length)
    else byPosition values
  | .named entries =>
    match stray? fields entries with
    | some name => .error (.unknownField path name)
    | none => byName entries

/-- The data of a record's fields: a single field stands for itself. -/
def collapse : List Data → Data
  | [d] => d
  | ds => .list ds

/-- The source of a record's fields. -/
def recordSource (path : Path) (fields : List (Field Schema)) : Value → Result Source
  | .record entries => .ok (.named entries)
  | .list values => .ok (.positional values)
  | v => .error (unexpected path (.schema (.record fields)) v)

/-- The name of a variant and the source of its fields: a variant, a record of one entry that holds
the fields, or the bare name of a variant that needs none. -/
def variantSource (path : Path) (variants : List (Variant Schema)) :
    Value → Result (String × Source)
  | .variant name entries => .ok (name, .named entries)
  | .text name => .ok (name, .named [])
  | .record [(name, .record entries)] => .ok (name, .named entries)
  | .record [(name, .list values)] => .ok (name, .positional values)
  | .record [(name, v)] => .error (unexpected (.field path name) .variantFields v)
  | v => .error (unexpected path (.schema (.enum variants)) v)

/-! ## 2. Maps -/

/-- A key and its value, each by its own rule and under the same path. -/
def keyAndValue (key value : Path → Value → Result Data) (path : Path) (pair : Value × Value) :
    Result (Data × Data) := do
  let k ← key path pair.1
  let v ← value path pair.2
  return (k, v)

/-- A key and its value, given as a list of both. -/
def listedPair (key value : Path → Value → Result Data) (path : Path) :
    Value → Result (Data × Data)
  | .list [k, v] => keyAndValue key value path (k, v)
  | v => .error (unexpected path .pair v)

/-- Pairs whose keys are the names of a record's entries. -/
def namedPairs (key value : Path → Value → Result Data) (path : Path) :
    List (String × Value) → Result (List (Data × Data))
  | [] => .ok []
  | (name, v) :: rest => do
    let p ← keyAndValue key value (.field path name) (.text name, v)
    let ps ← namedPairs key value path rest
    return p :: ps

/-- A map: a map, a list of pairs, or a record whose names are the keys. -/
def encodeMap (key value : Path → Value → Result Data) (path : Path) (expected : Expected) :
    Value → Result Data
  | .map pairs => do return .map (← each (keyAndValue key value) path pairs)
  | .list items => do return .map (← each (listedPair key value) path items)
  | .record entries => do return .map (← namedPairs key value path entries)
  | v => .error (unexpected path expected v)

/-! ## 3. Along the schema -/

mutual
/-- The data of a value at a place. -/
def encodeAt (network : Network) : Schema → Path → Value → Result Data
  | s, path, v =>
    match v with
    | .data d => .ok d
    | v =>
      match s with
      | .primitive p => p.encode network path v
      | .list item =>
        match v with
        | .list values => do return .list (← each (encodeAt network item) path values)
        | v => .error (unexpected path (.schema (.list item)) v)
      | .map key value =>
        encodeMap (encodeAt network key) (encodeAt network value) path (.schema (.map key value)) v
      | .option inner =>
        match v with
        | .absent => .ok (optional none)
        | .present v => do return optional (some (← encodeAt network inner path v))
        | v => do return optional (some (← encodeAt network inner path v))
      | .tuple items =>
        match v with
        | .list values =>
          if values.length ≠ items.length then
            .error (.fieldCount path items.length values.length)
          else do return .list (← encodeItems network items path 0 values)
        | v => .error (unexpected path (.schema (.tuple items)) v)
      | .record fields => do
        let source ← recordSource path fields v
        let encoded ← fromSource fields path source (encodeNamed network fields path)
          (encodePositional network fields path)
        return collapse encoded
      | .enum variants => do
        let (name, source) ← variantSource path variants v
        encodeVariant network variants path name source
termination_by structural s => s

/-- The items of a tuple, from a position on. -/
def encodeItems (network : Network) :
    List Schema → Path → (index : Nat) → List Value → Result (List Data)
  | s :: items, path, index, v :: values => do
    let d ← encodeAt network s (.item path index) v
    let ds ← encodeItems network items path (index + 1) values
    return d :: ds
  | _, _, _, _ => .ok []
termination_by structural items => items

/-- Fields from values in the order of the fields. -/
def encodePositional (network : Network) :
    List (Field Schema) → Path → List Value → Result (List Data)
  | ⟨name, s⟩ :: fields, path, v :: values => do
    let d ← encodeAt network s (.field path name) v
    let ds ← encodePositional network fields path values
    return d :: ds
  | _, _, _ => .ok []
termination_by structural fields => fields

/-- Fields from entries in any order. -/
def encodeNamed (network : Network) :
    List (Field Schema) → Path → List (String × Value) → Result (List Data)
  | [], _, _ => .ok []
  | ⟨name, s⟩ :: fields, path, entries => do
    let d ←
      match Value.entry? name entries with
      | some v => encodeAt network s (.field path name) v
      | none =>
        match s with
        | .option _ => .ok (optional none)
        | _ => .error (.missingField path name)
    let ds ← encodeNamed network fields path entries
    return d :: ds
termination_by structural fields => fields

/-- The first variant of some name. -/
def encodeVariant (network : Network) :
    List (Variant Schema) → Path → (name : String) → Source → Result Data
  | [], path, name, _ => .error (.unknownVariant path name)
  | ⟨n, tag, fields⟩ :: variants, path, name, source =>
    if n = name then do
      let place := Path.field path name
      let encoded ← fromSource fields place source (encodeNamed network fields place)
        (encodePositional network fields place)
      return .constr tag encoded
    else encodeVariant network variants path name source
termination_by structural variants => variants
end

/-- The data of a value. -/
def encode (network : Network) (s : Schema) (v : Value) : Result Data := encodeAt network s .top v

end ScriptBundle.Codec
