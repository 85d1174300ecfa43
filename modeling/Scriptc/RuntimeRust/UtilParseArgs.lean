import Scriptc.RuntimeRust.JsString

/-!
# `util.parseArgs`

`util_parse_args.rs`: a first loop looks for arguments that cannot be read, a second one stores
options and positionals and records what it read as tokens. Both pass over the value of an option
that stands in the argument after it.

A string is coerced to a `str` with U+FFFD for a surrogate that stands alone, but strings are compared
by their units. So the loop over the defaults asks for the value of an option under its coerced key, and
stores the default under the key itself.
-/

namespace Scriptc.RuntimeRust.ParseArgs

open PosixPath (JsString)
open JsStrings (Units fromUtf16 encodeUtf16)

abbrev Text := List Char

/-- A string as a `str`: `to_utf8_lossy`. -/
def deref : JsString → Text
  | .utf8 text => text
  | .utf16 units => (Utf16.decode units).map (Sum.elim id fun _ => Char.ofNat 0xFFFD)

/-- `==` of a string and a `str`, unit by unit. -/
def eqStr (s : JsString) (text : Text) : Bool := encodeUtf16 s = Utf16.encode text

/-- `len` of a `str`, in bytes. -/
def byteLength (text : Text) : ℕ := (text.map Char.utf8Size).sum

/-! ### Values -/

/-- A value of the program, as `ParseArgsValue` shows it; `other` is any value of another kind. -/
inductive Value where
  | undefined
  | null
  | number (x : F64)
  | boolean (b : Bool)
  | string (s : JsString)
  | array (items : List Value)
  | object (entries : List (JsString × Value))
  | other (identity : ℕ)

/-- The kinds of values that are told apart. -/
inductive ParseArgsKind where
  | undefined
  | null
  | number
  | boolean
  | string
  | array
  | object
  | other
  deriving DecidableEq

/-- The entries of an object, in the order of `parse_args_object_entries`. -/
abbrev Object := List (JsString × Value)

namespace Value

def kind : Value → ParseArgsKind
  | undefined => .undefined
  | null => .null
  | number _ => .number
  | boolean _ => .boolean
  | string _ => .string
  | array _ => .array
  | object _ => .object
  | other _ => .other

def asBool : Value → Option Bool
  | boolean b => some b
  | _ => none

def asString : Value → Option JsString
  | string s => some s
  | _ => none

def items : Value → Option (List Value)
  | array items => some items
  | _ => none

def entries : Value → Option Object
  | object entries => some entries
  | _ => none

/-- Neither `undefined` nor `null`. -/
def usable (v : Value) : Bool := v.kind ≠ .undefined && v.kind ≠ .null

end Value

/-- The texts of a value, for errors. -/
structure Display where
  specificType : Value → Text
  inspectLite : Value → Text
  display : Value → Text

/-- `pa_own_member`, of the entries of an object. -/
def Object.own (entries : Object) (key : Text) : Option Value := (entries.find? fun entry => eqStr entry.1 key).map (·.2)

/-- `parse_args_object_set`: the key that is there stays. -/
def Object.set (entries : Object) (key : JsString) (value : Value) : Object :=
  match entries with
  | [] => [(key, value)]
  | entry :: entries =>
    if encodeUtf16 entry.1 = encodeUtf16 key then (entry.1, value) :: entries else entry :: Object.set entries key value

def ownMember (object : Value) (key : Text) : Option Value := object.entries.bind fun entries => Object.own entries key

def member (object : Value) (key : Text) : Option Value := (ownMember object key).filter fun value => value.kind ≠ .undefined

/-! ### Errors -/

inductive Failure where
  | typeError (message : Text) (code : Option Text)
  | unreachable

def invalidOptionValue : Option Text := some "ERR_PARSE_ARGS_INVALID_OPTION_VALUE".toList

def throwType (texts : Display) (name expected : Text) (value : Value) (property : Bool) : Failure :=
  .typeError ("The \"".toList ++ name ++ "\" ".toList ++ (if property then "property" else "argument").toList ++ " must be ".toList ++
    expected ++ ". Received ".toList ++ texts.specificType value) (some "ERR_INVALID_ARG_TYPE".toList)

def throwValue (texts : Display) (name reason : Text) (value : Value) : Failure :=
  .typeError ("The ".toList ++ (if '.' ∈ name then "property" else "argument").toList ++ " '".toList ++ name ++ "' ".toList ++ reason ++
    ". Received ".toList ++ texts.inspectLite value) (some "ERR_INVALID_ARG_VALUE".toList)

def unknown (raw : Text) (allowPositionals : Bool) : Failure :=
  let hint :=
    if allowPositionals then
      ". To specify a positional argument starting with a '-', place it at the end of the command after '--', as in '-- \"".toList ++
        raw ++ "\"".toList
    else []
  .typeError ("Unknown option '".toList ++ raw ++ "'".toList ++ hint) (some "ERR_PARSE_ARGS_UNKNOWN_OPTION".toList)

def optionLabel (desc : Value) (name : Text) : Text :=
  match (member desc "short".toList).bind Value.asString with
  | some short => if deref short ≠ [] then "-".toList ++ deref short ++ ", --".toList ++ name else "--".toList ++ name
  | none => "--".toList ++ name

def missingValue (desc : Value) (name : Text) : Failure :=
  .typeError ("Option '".toList ++ optionLabel desc name ++ " <value>' argument missing".toList) invalidOptionValue

def ambiguous (raw name : Text) (isShort : Bool) : Failure :=
  let shortHint := if isShort then " or '".toList ++ raw ++ "-XYZ'".toList else []
  .typeError ("Option '".toList ++ raw ++ "' argument is ambiguous.\nDid you forget to specify the option argument for '".toList ++ raw ++
    "'?\nTo specify an option argument starting with a dash use '--".toList ++ name ++ "=-XYZ'".toList ++ shortHint ++ ".".toList)
    invalidOptionValue

def takesNoValue (desc : Value) (name : Text) : Failure :=
  .typeError ("Option '".toList ++ optionLabel desc name ++ "' does not take an argument".toList) invalidOptionValue

def unexpected (texts : Display) (value : Value) : Failure :=
  let shown := value.asString.elim (texts.display value) deref
  .typeError ("Unexpected argument '".toList ++ shown ++ "'. This command does not take positional arguments".toList)
    (some "ERR_PARSE_ARGS_UNEXPECTED_POSITIONAL".toList)

def cannotRead (argument : Value) : Failure :=
  .typeError ("Cannot read properties of ".toList ++ (if argument.kind = .null then "null" else "undefined").toList ++
    " (reading 'length')".toList) none

/-! ### The configuration -/

def configBool (texts : Display) (config : Value) (name : Text) (fallback : Bool) : Except Failure Bool :=
  match member config name with
  | none => .ok fallback
  | some value =>
    if value.kind = .null then .ok fallback
    else
      match value.asBool with
      | some b => .ok b
      | none => .error (throwType texts name "of type boolean".toList value false)

/-- True is for strings. -/
def descType (desc : Value) : Option Bool :=
  match (member desc "type".toList).bind Value.asString with
  | some value => if eqStr value "string".toList then some true else if eqStr value "boolean".toList then some false else none
  | none => none

def descMultiple (desc : Value) : Bool := ((member desc "multiple".toList).bind Value.asBool).getD false

def descDefault (desc : Value) : Option Value := member desc "default".toList

def typeText (stringType : Bool) : Text := (if stringType then "of type string" else "of type boolean").toList

def defaultValueOk (value : Value) (stringType : Bool) : Bool := value.kind = if stringType then .string else .boolean

def validateDefault (texts : Display) (base : Text) (desc default : Value) (stringType : Bool) : Except Failure Unit :=
  if descMultiple desc then
    match default.items with
    | none => .error (throwType texts base "an instance of Array".toList default true)
    | some items =>
      items.zipIdx.forM fun item =>
        if defaultValueOk item.1 stringType then .ok ()
        else .error (throwType texts (base ++ "[".toList ++ Nat.toDigits 10 item.2 ++ "]".toList) (typeText stringType) item.1 true)
  else if defaultValueOk default stringType then .ok ()
  else .error (throwType texts base (typeText stringType) default true)

def validateOption (texts : Display) (name : Text) (desc : Value) : Except Failure Unit := do
  let base := "options.".toList ++ name
  if desc.kind ≠ .object then .error (throwType texts base "of type object".toList desc true)
  let stringType ←
    match descType desc with
    | some stringType => .ok stringType
    | none =>
      .error (throwType texts (base ++ ".type".toList) "('string|boolean')".toList ((member desc "type".toList).getD .undefined) true)
  match ownMember desc "short".toList with
  | none => .ok ()
  | some short =>
    match short.asString with
    | none => .error (throwType texts (base ++ ".short".toList) "of type string".toList short true)
    | some value =>
      if (encodeUtf16 value).length ≠ 1 then
        .error (throwValue texts (base ++ ".short".toList) "must be a single character".toList short)
  match ownMember desc "multiple".toList with
  | none => .ok ()
  | some multiple =>
    if multiple.kind ≠ .boolean then .error (throwType texts (base ++ ".multiple".toList) "of type boolean".toList multiple true)
  match descDefault desc with
  | none => .ok ()
  | some default => validateDefault texts (base ++ ".default".toList) desc default stringType

def validateOptions (texts : Display) : Option Value → Except Failure Unit
  | none => .ok ()
  | some options =>
    match options.entries with
    | none => .error (throwType texts "options".toList "of type object".toList options false)
    | some entries => entries.forM fun entry => validateOption texts (deref entry.1) entry.2

/-- The config, read and checked. -/
structure Settings where
  strict : Bool
  allowPositionals : Bool
  returnTokens : Bool
  allowNegative : Bool
  options : Option Value

/-- The arguments; `argv` is the arguments of the process. -/
def readArgs (texts : Display) (argv : List JsString) (config : Value) : Except Failure (List Value) :=
  let processArgs := (argv.drop 2).map Value.string
  match member config "args".toList with
  | none => .ok processArgs
  | some value =>
    if value.kind = .null then .ok processArgs
    else
      match value.items with
      | some items => .ok items
      | none => .error (throwType texts "args".toList "an instance of Array".toList value false)

def readSettings (texts : Display) (config : Value) : Except Failure Settings := do
  let strict ← configBool texts config "strict".toList true
  let allowPositionals ← configBool texts config "allowPositionals".toList (!strict)
  let returnTokens ← configBool texts config "tokens".toList false
  let allowNegative ← configBool texts config "allowNegative".toList false
  let options := (member config "options".toList).filter fun value => value.kind ≠ .null
  validateOptions texts options
  .ok ⟨strict, allowPositionals, returnTokens, allowNegative, options⟩

def readConfig (texts : Display) (argv : List JsString) (config : Value) : Except Failure (List Value × Settings) :=
  if config.kind = .null then .error (.typeError "Cannot convert undefined or null to object".toList none)
  else do
    let args ← readArgs texts argv config
    let settings ← readSettings texts config
    .ok (args, settings)

/-! ### The options -/

def findLong (options : Option Value) (name : Text) : Option Value := options.bind (ownMember · name)

def findShort (options : Option Value) (short : Text) : Text × Option Value :=
  match ((options.bind Value.entries).getD []).find? fun entry =>
      ((member entry.2 "short".toList).bind Value.asString).any fun value => eqStr value short with
  | some entry => (deref entry.1, findLong options (deref entry.1))
  | none => (short, findLong options short)

def dashes : Text := "--".toList

def no : Text := "no-".toList

def proto : Text := "__proto__".toList

def negativeName (name : Text) : Option Text := if no.isPrefixOf name then some (name.drop 3) else none

/-- `pa_long_eq`: the name and the value around the first `=`, which is no part of another character. -/
def longEq (argument : Text) : Option (Text × Text) :=
  if '=' ∈ argument.drop 3 then
    some ((argument.drop 2).takeWhile (· ≠ '='), ((argument.drop 2).dropWhile (· ≠ '=')).drop 1)
  else none

/-- `string_char_at`, as a `str`. -/
def unitText (unit : UInt16) : Text := deref (fromUtf16 [unit])

/-- Long enough for options, and a dash first. -/
def isShortGroup (argument : Text) : Bool := 1 < byteLength argument && argument.head? = some '-'

/-! ### The first loop -/

/-- The loop over a group of short options. -/
def groupConsumes (options : Option Value) : Units → Bool
  | [] => false
  | unit :: rest =>
    if (findShort options (unitText unit)).2.bind descType = some true then rest = [] else groupConsumes options rest

def consumesNext (options : Option Value) (argument : JsString) : Bool :=
  if dashes.isPrefixOf (deref argument) then
    longEq (deref argument) = none && (findLong options ((deref argument).drop 2)).bind descType = some true
  else if !isShortGroup (deref argument) then false
  else groupConsumes options ((encodeUtf16 argument).drop 1)

/-- The first loop; `consumed` is its history, the indices that it passes over as values. -/
structure Scan where
  afterTerminator : Bool
  index : ℕ
  consumed : List ℕ

def Scan.argument (options : Option Value) (args : List Value) (s : Scan) (argument : Value) : Except Failure Scan :=
  if s.afterTerminator then .ok { s with index := s.index + 1 }
  else if !argument.usable then .error (cannotRead argument)
  else
    match argument.asString with
    | none => .ok { s with index := s.index + 1 }
    | some text =>
      if eqStr text dashes then .ok { s with afterTerminator := true, index := s.index + 1 }
      else if consumesNext options text && args[s.index + 1]?.any Value.usable then
        .ok { s with index := s.index + 2, consumed := s.consumed ++ [s.index + 1] }
      else .ok { s with index := s.index + 1 }

/-- As many turns as there are arguments are enough. -/
def Scan.loop (options : Option Value) (args : List Value) : ℕ → Scan → Except Failure Scan
  | 0, s => .ok s
  | n + 1, s =>
    match args[s.index]? with
    | none => .ok s
    | some argument => s.argument options args argument >>= Scan.loop options args n

/-! ### The second loop -/

/-- What an argument is read as. -/
inductive Token where
  | option (name rawName : Text) (index : ℕ) (value : Option Value) (inlineValue : Option Bool)
  | positional (index : ℕ) (value : Value)
  | terminator (index : ℕ)

/-- The second loop; `consumed` is its history, as of the first one. -/
structure State where
  values : Object
  positionals : List Value
  tokens : Option (List Token)
  afterTerminator : Bool
  index : ℕ
  consumed : List ℕ

namespace State

def push (s : State) (token : Token) : State := { s with tokens := s.tokens.map (· ++ [token]) }

/-- `pa_store`. -/
def store (s : State) (desc : Option Value) (name raw : Text) (index : ℕ) (value : Option Value) (flagValue : Bool)
    (inlineValue : Option Bool) (withholdProto : Bool) : Except Failure State :=
  let token := Token.option name raw index value inlineValue
  if withholdProto && name = proto then .ok (s.push token)
  else
    let stored := value.getD (.boolean flagValue)
    if desc.any descMultiple then
      match s.values.own name with
      | none => .ok ({ s with values := s.values.set (.utf8 name) (.array [stored]) }.push token)
      | some (.array items) => .ok ({ s with values := s.values.set (.utf8 name) (.array (items ++ [stored])) }.push token)
      | some _ => .error .unreachable
    else .ok ({ s with values := s.values.set (.utf8 name) stored }.push token)

/-- `pa_store_flag`. -/
def storeFlag (c : Settings) (s : State) (desc : Option Value) (name raw : Text) (index : ℕ) : Except Failure State :=
  match if c.allowNegative then negativeName name else none with
  | some positive => s.store (findLong c.options positive) positive raw index none false none false
  | none => s.store desc name raw index none true none true

/-- `pa_positional`, and the index after it. -/
def positional (s : State) (value : Value) : State :=
  { s.push (.positional s.index value) with positionals := s.positionals ++ [value], index := s.index + 1 }

/-- What strict mode refuses as the value of an option: no string, and what may be an option itself. -/
def checkSeparate (c : Settings) (desc : Option Value) (name raw : Text) (isShort : Bool) (value : Value) : Except Failure Unit := do
  if c.strict && value.kind ≠ .string then .error (missingValue (desc.getD .undefined) name)
  if c.strict && value.asString.any (fun s => isShortGroup (deref s)) then .error (ambiguous raw name isShort)

/-- The value of an option is the next argument. -/
def storeSeparate (c : Settings) (s : State) (desc : Option Value) (name raw : Text) (isShort : Bool) (value : Value) :
    Except Failure State := do
  checkSeparate c desc name raw isShort value
  let s' ← s.store desc name raw s.index (some value) true (some false) true
  .ok { s' with index := s.index + 1, consumed := s.consumed ++ [s.index + 1] }

/-- What strict mode refuses before a value after `=`. -/
def checkInline (c : Settings) (name : Text) : Except Failure Unit := do
  let desc := findLong c.options name
  let checked :=
    if c.strict && desc.isNone && c.allowNegative then
      match negativeName name with
      | some positive =>
        if (findLong c.options positive).bind descType = some false then (positive, findLong c.options positive) else (name, desc)
      | none => (name, desc)
    else (name, desc)
  if c.strict && checked.2.isNone then .error (unknown (dashes ++ name) c.allowPositionals)
  if c.strict && checked.2.bind descType = some false then .error (takesNoValue (checked.2.getD .undefined) checked.1)

/-- A long option with its value. -/
def longInline (c : Settings) (s : State) (name value : Text) : Except Failure State := do
  checkInline c name
  s.store (findLong c.options name) name (dashes ++ name) s.index (some (.string (.utf8 value))) true (some true) true

/-- A long option without one. -/
def longPlain (c : Settings) (s : State) (next : Option Value) (raw : Text) : Except Failure State :=
  let name := raw.drop 2
  let desc := findLong c.options name
  if desc.bind descType = some true then
    match next with
    | some next => s.storeSeparate c desc name raw false next
    | none =>
      if c.strict then .error (missingValue (desc.getD .undefined) name)
      else s.storeFlag c desc name raw s.index
  else
    let positive := if c.allowNegative then negativeName name else none
    let positiveDesc := positive.bind (findLong c.options)
    if c.strict && desc.isNone && (positive.isNone || positiveDesc.bind descType ≠ some false) then
      .error (unknown raw c.allowPositionals)
    else
      match positive with
      | some positive => s.store positiveDesc positive raw s.index none false none false
      | none => s.store desc name raw s.index none true none true

/-- The loop over a group of short options. -/
def group (c : Settings) (next : Option Value) : Units → State → Except Failure State
  | [], s => .ok s
  | unit :: rest, s =>
    let short := unitText unit
    let (name, desc) := findShort c.options short
    let raw := '-' :: short
    if c.strict && desc.isNone then .error (unknown raw c.allowPositionals)
    else if desc.bind descType = some true then
      if rest ≠ [] then s.store desc name raw s.index (some (.string (fromUtf16 rest))) true (some true) true
      else
        match next with
        | some value => s.storeSeparate c desc name raw true value
        | none =>
          if c.strict then .error (missingValue (desc.getD .undefined) name)
          else s.storeFlag c desc name raw s.index
    else s.storeFlag c desc name raw s.index >>= group c next rest

/-- What the loop does with an argument. -/
def argument (texts : Display) (c : Settings) (args : List Value) (s : State) (argument : Value) : Except Failure State :=
  let plain : Except Failure State := if c.allowPositionals then .ok (s.positional argument) else .error (unexpected texts argument)
  let next := args[s.index + 1]?.filter Value.usable
  if s.afterTerminator then plain
  else if !argument.usable then .error (cannotRead argument)
  else
    match argument.asString with
    | none => plain
    | some string =>
      let text := deref string
      let advance (s : State) : State := { s with index := s.index + 1 }
      if eqStr string dashes then .ok { s.push (.terminator s.index) with afterTerminator := true, index := s.index + 1 }
      else if dashes.isPrefixOf text then
        match longEq text with
        | some (name, value) => (s.longInline c name value).map advance
        | none => (s.longPlain c next text).map advance
      else if isShortGroup text then (s.group c next ((encodeUtf16 string).drop 1)).map advance
      else plain

/-- As many turns as there are arguments are enough. -/
def loop (texts : Display) (c : Settings) (args : List Value) : ℕ → State → Except Failure State
  | 0, s => .ok s
  | n + 1, s =>
    match args[s.index]? with
    | none => .ok s
    | some argument => s.argument texts c args argument >>= loop texts c args n

end State

/-- The default of an option, if the option has no value. -/
def applyDefault (values : Object) (entry : JsString × Value) : Object :=
  if eqStr entry.1 proto || (values.own (deref entry.1)).isSome then values
  else
    match descDefault entry.2 with
    | some default => values.set entry.1 default
    | none => values

def applyDefaults (entries values : Object) : Object := entries.foldl applyDefault values

structure Result where
  values : Object
  positionals : List Value
  tokens : Option (List Token)

def scan (options : Option Value) (args : List Value) : Except Failure Scan := Scan.loop options args args.length ⟨false, 0, []⟩

def run (texts : Display) (c : Settings) (args : List Value) : Except Failure State :=
  State.loop texts c args args.length ⟨[], [], if c.returnTokens then some [] else none, false, 0, []⟩

/-- `util_parse_args`. -/
def utilParseArgs (texts : Display) (argv : List JsString) (config : Value) : Except Failure Result := do
  let (args, c) ← readConfig texts argv config
  let _ ← scan c.options args
  let s ← run texts c args
  .ok ⟨applyDefaults ((c.options.bind Value.entries).getD []) s.values, s.positionals, s.tokens⟩

end Scriptc.RuntimeRust.ParseArgs
