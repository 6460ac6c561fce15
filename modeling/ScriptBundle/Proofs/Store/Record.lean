/-
# Records are read back or not at all

A record is stored as the UTF-8 form of its JSON text.  It is read back exactly if its schemas are
not nested too deeply for their places in the text (`BuildRecord.isShallow`), and otherwise nothing
is read (`BuildRecord.ofBytes?_toBytes`).  In neither case is another record read.

A validator's record has up to thirteen entries and a function's up to eleven, some of which may be
missing.  Their names are distinct, so looking at the entries one by one is enough.
-/
import ScriptBundle.Proofs.Schema.Document
import ScriptBundle.Store.Record

namespace ScriptBundle

open Document

variable {α β : Type}

/-! ## 1. Schemas -/

/-- A schema is not nested too deeply for a place in a text. -/
def Schema.isShallow (depth : Nat) (s : Schema) : Bool := s.toDocument.isPlain depth

theorem Schema.ofJsonDocument?_toDocument (depth : Nat) (s : Schema) :
    Schema.ofJsonDocument? depth s.toDocument = if s.isShallow depth then some s else none := by
  rw [ofJsonDocument?, ofDocument?_toDocument]
  rfl

theorem optional?_toDocument (depth : Nat) (s : Option Schema) :
    optional? (Schema.ofJsonDocument? depth) (s.map Schema.toDocument) =
      if s.all (·.isShallow depth) then some s else none := by
  cases s with
  | none => rfl
  | some s =>
    have hread : optional? (Schema.ofJsonDocument? depth) (some s.toDocument) =
        (Schema.ofJsonDocument? depth s.toDocument).map some := by
      cases s <;> rfl
    rw [Option.map_some, hread, Schema.ofJsonDocument?_toDocument, Option.all_some]
    cases s.isShallow depth <;> rfl

theorem optional?_ofText (s : Option String) :
    optional? text? (s.map Document.ofText) = some s := by
  cases s <;> rfl

/-! ## 2. Entries -/

/-- The names of a program's entries are among these, in this order. -/
def codeNames : List String :=
  ["bytecode", "unoptimized_bytecode", "ir", "source_map", "unoptimized_ir",
    "unoptimized_source_map", "version"]

theorem names_entries_sublist (c : CodeRecord) : (c.entries.map (·.1)).Sublist codeNames := by
  simp only [CodeRecord.entries, List.map_append, List.map_cons, List.cons_append,
    List.append_assoc]
  refine .cons_cons _ ?_
  have happend := fun part (a : Option String) l l' (h : List.Sublist l l') =>
    (names_entryOf_sublist Document.ofText part a).append h
  exact happend _ _ _ _ (happend _ _ _ _ (happend _ _ _ _ (happend _ _ _ _ (happend _ _ _ _
    (List.Sublist.refl _)))))

/-- **The parts of a validator's record.** -/
theorem ValidatorRecord.parts?_toDocument (v : ValidatorRecord) :
    v.toDocument.parts? ["purpose", "hash", "bytecode", "unoptimized_bytecode", "ir",
      "source_map", "unoptimized_ir", "unoptimized_source_map", "version", "codec", "redeemer",
      "datum", "dependencies"] =
    some [some (.ofText v.purpose), some (.ofText v.hash), some (.ofText v.code.bytecode),
      v.code.unoptimizedBytecode.map .ofText, v.code.ir.map .ofText,
      v.code.sourceMap.map .ofText, v.code.unoptimizedIr.map .ofText,
      v.code.unoptimizedSourceMap.map .ofText, some (.ofText v.code.version),
      some (.ofEntries [("is_mainnet", .bool v.network.isMainnet)]),
      some v.redeemer.toDocument, v.datum.map Schema.toDocument,
      some (.ofNameMap .ofText v.dependencies)] := by
  have hnd : (["purpose", "hash"] ++ codeNames ++
      (["codec", "redeemer"] ++ (["datum"] ++ ["dependencies"]))).Nodup := by decide
  rw [toDocument, parts?_ofEntries]
  · simp [CodeRecord.entries, lookup_entryOf, NameMap.lookup_cons_eq, List.lookup_append]
  · refine hnd.sublist ?_
    simp only [List.map_append, List.map_cons, List.map_nil, List.append_assoc]
    refine (List.Sublist.refl _).append ((names_entries_sublist _).append ?_)
    refine (List.Sublist.refl _).append ((names_entryOf_sublist _ _ _).append ?_)
    exact List.Sublist.refl _

theorem network?_ofEntries (n : Network) :
    network? (.ofEntries [("is_mainnet", .bool n.isMainnet)]) = some n := by
  cases n <;> rfl

theorem nameMap?_text (m : NameMap String) :
    nameMap? text? (.ofNameMap .ofText m) = some m := by
  have hread : ∀ a : String, text? (.ofText a) = if true then some a else none := fun _ => rfl
  rw [nameMap?_ofNameMap hread, if_pos (List.all_eq_true.mpr fun _ _ => rfl)]

/-! ## 3. Records -/

/-- A validator's schemas are not nested too deeply. -/
def ValidatorRecord.isShallow (v : ValidatorRecord) : Bool :=
  v.redeemer.isShallow BuildRecord.schemaDepth &&
    v.datum.all (·.isShallow BuildRecord.schemaDepth)

/-- A step that reads something leaves the steps behind it. -/
theorem bind_eq_of_eq_some {x : Option α} {f : α → Option β} {a : α} {r : Option β}
    (hx : x = some a) (hf : f a = r) : x.bind f = r := by
  rw [hx]
  exact hf

/-- Everything but the schemas is read back. -/
theorem ValidatorRecord.ofDocument?_eq (v : ValidatorRecord) : ofDocument? v.toDocument =
    (Schema.ofJsonDocument? BuildRecord.schemaDepth v.redeemer.toDocument).bind fun redeemer =>
      (optional? (Schema.ofJsonDocument? BuildRecord.schemaDepth)
        (v.datum.map Schema.toDocument)).bind fun datum => some { v with redeemer, datum } := by
  refine bind_eq_of_eq_some v.parts?_toDocument ?_
  refine bind_eq_of_eq_some rfl (bind_eq_of_eq_some rfl (bind_eq_of_eq_some rfl ?_))
  refine bind_eq_of_eq_some (optional?_ofText v.code.unoptimizedBytecode) ?_
  refine bind_eq_of_eq_some (optional?_ofText v.code.ir) ?_
  refine bind_eq_of_eq_some (optional?_ofText v.code.sourceMap) ?_
  refine bind_eq_of_eq_some (optional?_ofText v.code.unoptimizedIr) ?_
  refine bind_eq_of_eq_some (optional?_ofText v.code.unoptimizedSourceMap) ?_
  refine bind_eq_of_eq_some rfl (bind_eq_of_eq_some (network?_ofEntries v.network) ?_)
  refine congrArg _ (funext fun redeemer => congrArg _ (funext fun datum => ?_))
  exact bind_eq_of_eq_some (nameMap?_text v.dependencies) rfl

theorem ValidatorRecord.ofDocument?_toDocument (v : ValidatorRecord) :
    ofDocument? v.toDocument = if v.isShallow then some v else none := by
  rw [ofDocument?_eq, Schema.ofJsonDocument?_toDocument, optional?_toDocument, isShallow]
  cases v.redeemer.isShallow BuildRecord.schemaDepth with
  | false => rfl
  | true => cases v.datum.all (·.isShallow BuildRecord.schemaDepth) <;> rfl

/-- An argument's schema is not nested too deeply. -/
def ArgumentRecord.isShallow (a : ArgumentRecord) : Bool :=
  a.schema.isShallow BuildRecord.argumentDepth

theorem ArgumentRecord.ofDocument?_toDocument (a : ArgumentRecord) :
    ofDocument? a.toDocument = if a.isShallow then some a else none := by
  have hparts : a.toDocument.parts? ["name", "schema", "optional"] =
      some [some (.ofText a.name), some a.schema.toDocument, some (.bool a.isOptional)] :=
    parts?_ofEntries (by simp) _
  have htext : text? (.ofText a.name) = some a.name := rfl
  rw [ofDocument?, hparts, isShallow]
  simp only [Option.bind_eq_bind, Option.bind_some, required?, htext,
    Schema.ofJsonDocument?_toDocument]
  cases a.schema.isShallow BuildRecord.argumentDepth <;> rfl

theorem argumentRecords?_list (as : List ArgumentRecord) :
    argumentRecords? (.list (as.map ArgumentRecord.toDocument)) =
      if as.all ArgumentRecord.isShallow then some as else none :=
  mapM_map_eq_ite fun a _ => a.ofDocument?_toDocument

/-- **The parts of a function's record.** -/
theorem UserFuncRecord.parts?_toDocument (f : UserFuncRecord) :
    f.toDocument.parts? ["bytecode", "unoptimized_bytecode", "ir", "source_map",
      "unoptimized_ir", "unoptimized_source_map", "version", "arguments", "returns",
      "requires_context", "requires_current_validator"] =
    some [some (.ofText f.code.bytecode), f.code.unoptimizedBytecode.map .ofText,
      f.code.ir.map .ofText, f.code.sourceMap.map .ofText, f.code.unoptimizedIr.map .ofText,
      f.code.unoptimizedSourceMap.map .ofText, some (.ofText f.code.version),
      some (.list (f.arguments.map ArgumentRecord.toDocument)),
      f.returns.map Schema.toDocument, some (.bool f.requiresContext),
      some (.bool f.requiresCurrentValidator)] := by
  have hnd : (codeNames ++ (["arguments"] ++ (["returns"] ++
      ["requires_context", "requires_current_validator"]))).Nodup := by decide
  rw [toDocument, parts?_ofEntries]
  · simp [CodeRecord.entries, lookup_entryOf, NameMap.lookup_cons_eq, List.lookup_append]
  · refine hnd.sublist ?_
    simp only [List.map_append, List.map_cons, List.map_nil, List.append_assoc]
    refine (names_entries_sublist _).append ((List.Sublist.refl _).append ?_)
    exact (names_entryOf_sublist _ _ _).append (List.Sublist.refl _)

/-- The schemas of a function's arguments and result are not nested too deeply. -/
def UserFuncRecord.isShallow (f : UserFuncRecord) : Bool :=
  f.arguments.all ArgumentRecord.isShallow &&
    f.returns.all (·.isShallow BuildRecord.schemaDepth)

theorem UserFuncRecord.ofDocument?_eq (f : UserFuncRecord) : ofDocument? f.toDocument =
    (argumentRecords? (.list (f.arguments.map ArgumentRecord.toDocument))).bind fun arguments =>
      (optional? (Schema.ofJsonDocument? BuildRecord.schemaDepth)
        (f.returns.map Schema.toDocument)).bind fun returns =>
          some { f with arguments, returns } := by
  refine bind_eq_of_eq_some f.parts?_toDocument (bind_eq_of_eq_some rfl ?_)
  refine bind_eq_of_eq_some (optional?_ofText f.code.unoptimizedBytecode) ?_
  refine bind_eq_of_eq_some (optional?_ofText f.code.ir) ?_
  refine bind_eq_of_eq_some (optional?_ofText f.code.sourceMap) ?_
  refine bind_eq_of_eq_some (optional?_ofText f.code.unoptimizedIr) ?_
  refine bind_eq_of_eq_some (optional?_ofText f.code.unoptimizedSourceMap) ?_
  refine bind_eq_of_eq_some rfl ?_
  rfl

theorem UserFuncRecord.ofDocument?_toDocument (f : UserFuncRecord) :
    ofDocument? f.toDocument = if f.isShallow then some f else none := by
  rw [ofDocument?_eq, argumentRecords?_list, optional?_toDocument, isShallow]
  cases f.arguments.all ArgumentRecord.isShallow with
  | false => rfl
  | true => cases f.returns.all (·.isShallow BuildRecord.schemaDepth) <;> rfl

namespace BuildRecord

/-- No schema of a build is nested too deeply for its place in the text. -/
def isShallow (r : BuildRecord) : Bool :=
  r.validators.values.all ValidatorRecord.isShallow &&
    r.userFuncs.values.all UserFuncRecord.isShallow

theorem ofDocument?_toDocument (r : BuildRecord) :
    ofDocument? r.toDocument = if r.isShallow then some r else none := by
  have hparts : r.toDocument.parts? ["debug", "validators", "user_funcs"] =
      some [some (.bool r.debug), some (.ofNameMap ValidatorRecord.toDocument r.validators),
        some (.ofNameMap UserFuncRecord.toDocument r.userFuncs)] :=
    parts?_ofEntries (by simp) _
  have hbool : bool? (.bool r.debug) = some r.debug := rfl
  rw [ofDocument?, hparts, isShallow]
  simp only [Option.bind_eq_bind, Option.bind_some, required?, defaulted?, hbool,
    nameMap?_ofNameMap ValidatorRecord.ofDocument?_toDocument,
    nameMap?_ofNameMap UserFuncRecord.ofDocument?_toDocument]
  cases r.validators.values.all ValidatorRecord.isShallow with
  | false => rfl
  | true => cases r.userFuncs.values.all UserFuncRecord.isShallow <;> rfl

/-- **Records are read back or not at all.**  The bytes of a record are read as that record, unless
one of its schemas is nested too deeply, and then as none. -/
theorem ofBytes?_toBytes (r : BuildRecord) :
    ofBytes? r.toBytes = if r.isShallow then some r else none := by
  rw [toBytes, ofBytes?_ofText, ofJson?, toJson, Json.read_write, Option.bind_some,
    ofDocument?_toDocument]

end BuildRecord

end ScriptBundle
