import Mathlib.Data.List.Nodup
import Mathlib.Data.List.Basic
import Mathlib.Data.Nat.Notation
import Mathlib.Order.WellFounded

/-!
# The may-throw analysis

`backend/c/may-throw.ts`: which functions of a module can raise an exception that a caller has to
look for. One walk over each body gathers what the function does itself, whom it calls and which
closures it makes. The functions that throw are then grown along the calls, together with the flag
that says whether a call of a closure can throw, until a round changes nothing.
-/

namespace Scriptc

namespace MayThrow

/-- The kinds of types the walk tells apart. -/
inductive TypeKind
  | dyn | record | array | union | func | f64 | other
  deriving DecidableEq, Repr

/-- A node of the intermediate form: its `kind`, with what the walk reads of the node. -/
inductive Kind
  | throw
  | rethrow
  | runtimeFence
  | varRef (localId : String)
  | dynCheck (type : TypeKind)
  /-- Its type is the object type of the class it checks, never a function type. -/
  | caughtCheck
  | fieldIncDec (fieldDyn : Bool)
  | dynCall
  | dynInvoke
  | dynKeyGet
  | dynDestrCheck
  | dynIterN
  | awaitExpr
  | awaitUnionExpr
  | intrinsic (name : String)
  | yieldExpr
  | genResume
  | recordKeySet (shapeId : String) (overflowOnly : Bool)
  | jsonStringify (valueType : TypeKind)
  | toString (operandType : TypeKind)
  | jsOp
  | jsExit
  | jsMarshal
  | jsBridgePromise
  | libCall (fn : String)
  | ffiCall (imported : String)
  /-- The type of the source, when there is one. -/
  | bytesNew (sourceType : Option TypeKind)
  | bytesIntrinsic (method : String)
  | strIntrinsic (method : String)
  | arrIntrinsic (method : String)
  | arraySetLength
  | regexIntrinsic (method : String)
  | call (callee : String)
  | new (className : String)
  /-- The class of the callee's type, when its type has one. -/
  | newValue (className : Option String)
  | virtualCall (method : String)
  | callValue
  | closure (fnName : String)
  /-- A node the walk only passes through. -/
  | other
  deriving DecidableEq, Repr

/-- A node with the nodes under its keys other than `loc` and `type`, in the order of the keys. -/
inductive Node
  | mk (kind : Kind) (children : List Node)

structure Local where
  id : String
  tdz : Bool
  deriving Repr

/-- A function: what of it the analysis reads. -/
structure Fun where
  name : String
  async : Bool
  generator : Bool
  locals : List Local
  body : List Node

structure ClassDef where
  name : String
  base : Option String
  methods : List String
  deriving Repr

structure RecordShape where
  id : String
  fieldCount : ℕ
  indexValue : Option TypeKind
  deriving Repr

/-- A parameter of a native binding: a callback and its lifetime, or anything else. -/
inductive FfiParam
  | callback (retained : Bool)
  | other
  deriving Repr

structure FfiImport where
  name : String
  params : List FfiParam
  deriving Repr

/-- `classes.find(k => k.name === name)`. -/
def findClass (classes : List ClassDef) (name : String) : Option ClassDef := classes.find? (·.name == name)

/-- The class of the second name has the first for its base. -/
def BaseOf (classes : List ClassDef) (b c : String) : Prop :=
  ∃ k, findClass classes c = some k ∧ k.base = some b

/-- A module that passed `validateModule`: no function is there twice, and no class is its own
ancestor. -/
structure Module where
  functions : List Fun
  classes : List ClassDef
  records : List RecordShape
  ffiImports : List FfiImport
  functions_nodup : (functions.map Fun.name).Nodup
  base_wf : WellFounded (BaseOf classes)

/-! ### The tables -/

/-- `ERROR_TOSTRING_DISPATCH_FN`. -/
def errorToStringDispatchFn : String := "%error.toString.dispatch"

/-- `MAY_THROW_BYTES_METHODS`. -/
def mayThrowBytesMethods : List String :=
  ["toStringVar", "with", "setFrom", "readNum", "writeNum", "readNumVar", "writeNumVar", "compareBuf", "fill",
   "fillNum", "fillStr", "copy", "swap16", "swap32", "swap64", "writeStr", "dataViewNew", "dvGetUint8",
   "dvGetInt8", "dvGetUint16", "dvGetInt16", "dvGetUint32", "dvGetInt32", "dvGetFloat32", "dvGetFloat64",
   "dvGetBigUint64Number", "dvGetBigInt64Number", "dvSetUint8", "dvSetInt8", "dvSetUint16", "dvSetInt16",
   "dvSetUint32", "dvSetInt32", "dvSetFloat32", "dvSetFloat64"]

/-- `MAY_THROW_STR_METHODS`. -/
def mayThrowStrMethods : List String := ["at"]

/-- `MAY_THROW_ARR_METHODS`. -/
def mayThrowArrMethods : List String := ["with", "withUndefined"]

/-- Every operation of `BIGINT_LIB_FN_SIGS`. -/
def bigintMayThrow : List String :=
  ["bigint.fromString", "bigint.fromNumber", "bigint.fromBool", "bigint.parse", "bigint.fromF64",
   "bigint.toString", "bigint.toNumber", "bigint.toF64", "bigint.inspect", "bigint.truthy", "bigint.radix",
   "bigint.add", "bigint.sub", "bigint.mul", "bigint.div", "bigint.rem", "bigint.mod", "bigint.pow", "bigint.and",
   "bigint.or", "bigint.xor", "bigint.shl", "bigint.shr", "bigint.neg", "bigint.not", "bigint.cmp",
   "bigint.cmpNumber", "bigint.eq", "bigint.eqString", "bigint.asIntN", "bigint.asUintN", "bigint.bufferRead",
   "bigint.bufferWrite", "bigint.dataViewGet", "bigint.dataViewSet"]

/-- `THROWING_COERCION_FNS`. -/
def throwingCoercionFns : List String :=
  ["dyn.toStringCoerce", "dyn.stringConstructor", "dyn.toNumberCoerce", "dyn.compare"]

/-- `SQLITE_MAY_THROW_LIB_FNS`. -/
def sqliteMayThrowLibFns : List String :=
  ["sqlite.open", "sqlite.exec", "sqlite.dbRun", "sqlite.query", "sqlite.prepare", "sqlite.serialize",
   "sqlite.loadExtension", "sqlite.all", "sqlite.get", "sqlite.values", "sqlite.stmtRun"]

/-- `MAY_THROW_LIB_FNS`: the library calls that throw, read like a `throw`. -/
def mayThrowLibFns : List String :=
  ["process.exit", "process.exitCodeSet", "process.setExitCode", "json.stringifyReplacer", "bigint.parse",
   "bigint.fromF64", "bigint.div", "bigint.mod", "bigint.pow", "bigint.shl", "bigint.shr", "bigint.toString",
   "bigint.asUintN", "bigint.asIntN", "bigint.bufferRead", "bigint.bufferWrite", "bigint.dataViewGet",
   "bigint.dataViewSet", "fetch.responseNew", "fetch.abortTimeout", "fetch.abortAny", "fetch.streamNew",
   "fetch.streamFrom", "num.toFixed", "num.toPrecision", "num.toRadixString", "insp.jsonDyn",
   "crypto.timingSafeEqual", "dc.publish", "dc.subscribe", "dc.unsubscribe", "dc.chanSubscribe",
   "dc.chanUnsubscribe", "dc.tcSubscribe", "dc.tcUnsubscribe", "dc.tcTraceSync", "dc.tcTraceCallback",
   "dc.tcTracePromise", "process.onUnhandledRejection", "process.onRejectionHandled",
   "process.onUncaughtException", "async.awaitDyn", "als.run", "als.exitRun", "dc.chanBindStore",
   "dc.chanRunStores", "http.resWriteHeadDyn", "http.serverMaxHeaderSizeSet", "http.resWriteContinue",
   "http.resWriteProcessing", "http.resWriteEarlyHints", "http.validateHeaderName", "http.validateHeaderValue",
   "http.serverTimeoutGet", "http.serverTimeoutOptionSet", "net.sockSetEncoding", "http.reqSetEncoding",
   "fs.readFileSyncBuf", "fs.readFileSyncDyn", "tls.pemDyn", "tls.createServerDyn", "tls.createSecureContextDyn",
   "tls.caCertsChk", "tls.createServerDynCb", "https.createServerDyn", "https.createServerDynCb",
   "http2.createSecureServerDyn", "http2.createSecureServerDynCb", "tls.connect", "tls.connectCb", "tlsca.get",
   "tlsca.set", "emitter.emit", "emitter.emitFlex", "emitter.emitError", "emitter.on", "emitter.off",
   "emitter.checkListener", "emitter.onDyn", "emitter.onFlex", "emitter.offDyn", "emitter.onData",
   "emitter.onDataDyn", "emitter.emitData", "readable.nextChunk", "readable.nextChunkDyn", "net.sockWriteDyn",
   "net.sockEndDyn", "http.resWriteDyn", "http.resEndDyn", "http.resAddTrailers", "http.resFlushHeaders",
   "http.resUncork", "http.resWriteHead", "http.resWriteHeadN", "http.resWriteHeadPairs", "http.resWrite",
   "http.resWriteBytes", "http.resEnd", "http.resEndStr", "http.resEndBytes", "http.clientWriteDyn",
   "http.clientEndDyn", "http.clientAddTrailers", "http.clientFlushHeaders", "http.clientUncork",
   "http.clientWrite", "http.clientWriteBytes", "http.clientEnd", "http.clientEndStr", "http.clientEndBytes",
   "http.requestUrl", "http.requestUrlCb", "http2.connect", "http2.connectCb", "http2.sessionRequest",
   "http2.streamSetEncoding", "http2.streamRespond", "http2.streamWrite", "http2.streamWriteBytes",
   "http2.streamEnd", "http2.streamEndStr", "http2.streamEndBytes", "emitter.removeAll", "stream.finished",
   "stream.finishedDyn", "stream.pipeline", "stream.pipelineDyn", "sp.finished", "sp.pipeline", "sc.text",
   "sc.json", "sc.buffer", "readable.newDyn", "writable.newDyn", "duplex.newDyn", "transform.newDyn",
   "passthrough.newDyn", "readable.initDyn", "writable.initDyn", "duplex.initDyn", "transform.initDyn",
   "passthrough.initDyn", "readable.push", "readable.pushStr", "readable.pushStrEnc", "readable.pushNull",
   "readable.pushU", "readable.pushDyn", "readable.unshift", "readable.unshiftStr", "readable.read",
   "readable.resume", "readable.pipe", "readable.unpipe", "writable.write", "writable.writeStr",
   "writable.writeU", "writable.writeDyn", "writable.end", "writable.uncork", "stream.destroy",
   "stream.destroyErr", "stream.iteratorClose", "emitter.setMax", "emitter.setDefaultMax", "http.requestConn",
   "http.requestConnCb", "process.kill", "process.killNum", "process.setExitCode", "process.cpuPrevValidate",
   "process.stdinSetRawMode", "http2.streamUndefCall", "http.reqH2StreamOrThrow", "global.undefRead",
   "error.nodeThrow", "error.captureStackTrace", "error.captureStackTraceExclude", "error.stack", "dyn.objectTag",
   "child.kill", "net.connectLookup", "cp.execSync", "cp.execCapture", "http.request", "http.requestCb",
   "http.requestConn", "http.requestConnCb", "http.agentNew", "http.requestAgent", "http.requestAgentCb",
   "https.requestAgent", "https.requestAgentCb", "https.request", "https.requestCb", "https.requestUrl",
   "https.requestUrlCb", "https.requestFn", "https.requestFnCb", "rl.question", "island.eval", "island.import",
   "island.castFail", "json.parse", "util.parseArgs", "str.decodeUriComponent", "str.decodeUri", "str.normalize",
   "str.atob", "str.btoa", "str.b64Missing", "timers.queueMicrotaskDyn", "dyn.structuredClone",
   "dyn.cloneMissing", "dyn.cloneTransferFail", "dyn.objKeys", "dyn.objectRestCheck",
   "dyn.objectAssignSourceCheck", "dyn.hasOwn", "dyn.hasKey", "dyn.getPrototypeOf", "dyn.assign",
   "dyn.packPushSpread", "dyn.packPushSpreadIter", "dyn.assignAll", "dyn.objValues", "dyn.objEntries",
   "error.domClone", "regex.new", "dyn.keySet", "dyn.keySetComputed", "dyn.iterPack", "dyn.toString",
   "dyn.defineProps", "dyn.proxyNew", "process.chdir", "fs.realpathSync", "fs.readFileSync", "fs.writeFileSync",
   "fs.appendFileSync", "fs.appendFileModeSync", "fs.mkdirSync", "fs.rmSync", "fs.rmdirSync", "fs.readdirSync",
   "fs.readdirTypesSync", "url.new", "url.newBase", "url.fileURLToPathUrl", "url.fileURLToPathStr",
   "url.pathToFileURLWin32", "sp.fromPairs", "fs.statSync", "crypto.randomBytesToString", "crypto.randomBytes",
   "crypto.hashDigestStr", "crypto.hashDigestBytes", "crypto.hashNew", "crypto.hmacNewStr", "crypto.hmacNewBytes",
   "crypto.hashUpdateStr", "crypto.hashUpdateBytes", "crypto.hmacUpdateStr", "crypto.hmacUpdateBytes",
   "crypto.hashCopy", "crypto.hashDigestString", "crypto.hashDigestBuffer", "crypto.hmacDigestString",
   "crypto.hmacDigestBuffer", "crypto.timingSafeEqual", "crypto.randomFill", "crypto.randomFillRest",
   "crypto.randomInt", "crypto.pbkdf2", "crypto.randomBytesCb", "crypto.pbkdf2Cb", "buffer.concat",
   "buffer.concatLen", "buffer.fromDyn", "buffer.compareChk", "bytes.equalsChk", "bytes.compareChk",
   "buffer.newStringFail", "fs.toUnixTimestamp", "fs.existsChk", "fs.mkdtempChk", "fs.mkdtempSyncChk",
   "fs.readFileChk", "fs.opendirChk", "fs.watchFileChk", "fs.lchmodChk", "fs.lchmodSyncChk", "fsp.lchmodChk",
   "fs.readChk", "fs.streamOptsChk", "net.connectAttempt", "net.connectOptsChk", "net.setAutoSelTimeout",
   "error.argTypeThrow", "error.propTypeThrow", "emitter.setMaxChk", "emitter.setDefaultMaxChk",
   "fs.readFileSyncBytes", "fs.writeFileSyncBytes", "zlib.inflateSync", "zlib.inflateRawSync", "zlib.gunzipSync",
   "zlib.unzipSync", "zlib.crc32", "date.toISOString", "date.toISOStringValue", "fs.mkdirRecursiveSync",
   "fs.rmOptsSync", "fs.rmRetrySync", "fs.mkdtempSync", "fs.accessSync", "fs.readFdSync", "fs.readFdSyncBytes",
   "dgram.bind", "dgram.bindCb", "dgram.connect", "dgram.connectCb", "dgram.sendStr", "dgram.sendBytes",
   "dgram.sendChk", "dgram.address", "dgram.close", "dgram.closeCb", "assert.ok", "assert.eqF64",
   "assert.eqBigInt", "assert.eqStr", "assert.eqBool", "assert.eqSym", "assert.eqDyn", "assert.looseResult",
   "assert.deepResult", "assert.match", "assert.refEqBytes", "assert.refEqFn", "assert.throwsNone",
   "assert.throwsMismatch", "assert.throwsRegex", "assert.shapeEnd", "assert.unwantedRejection",
   "assert.expectsErrDyn", "assert.ifErrorErr", "assert.ifErrorF64", "assert.ifErrorStr", "assert.ifErrorBool",
   "assert.ifErrorDyn", "insp.jsval", "fs.unlinkSync", "fs.chmodSync", "fs.chownSync", "fs.copyFileSync",
   "fs.renameSync", "fs.lstatSync", "fs.fstatSync", "fs.fchmodSync", "fs.fsyncSync", "fs.linkSync",
   "fs.writeFileModeSync", "fs.writeFileExclusiveModeSync", "fs.mkdirModeSync", "fs.mkdirRecursiveModeSync",
   "fs.openSync", "fs.openNumericSync", "fs.readSync", "fs.writeSync", "fs.writeStrSync", "fs.closeSync",
   "fs.watch", "fs.watchCb", "crypto.x509Fingerprint", "crypto.x509FingerprintStr", "crypto.x509ValidFrom",
   "crypto.x509ValidFromStr", "crypto.x509ValidTo", "crypto.x509ValidToStr"] ++
  bigintMayThrow ++ throwingCoercionFns ++ sqliteMayThrowLibFns

/-! ### What the walk reads of the module -/

namespace Module

variable (m : Module)

/-- Calling an async or a generator function runs nothing of its body. -/
def suspended (name : String) : Bool := m.functions.any fun fn => fn.name == name && (fn.async || fn.generator)

/-- `errorDispatch`. -/
def errorDispatch : Bool := m.functions.any fun fn => fn.name == errorToStringDispatchFn

/-- `hasRetainedFfiCallback`. -/
def manifestHasRetainedCallback : Bool :=
  m.ffiImports.any fun entry => entry.params.any fun
    | .callback retained => retained
    | .other => false

/-- `callbackFfiImports`. -/
def callbackFfiImports : List String :=
  (m.ffiImports.filter fun entry => entry.params.any fun
    | .callback _ => true
    | .other => false).map FfiImport.name

/-- `methodImpls`: every class's implementation of a method. -/
def methodImpls (method : String) : List String :=
  m.classes.flatMap fun cls => (cls.methods.filter (· == method)).map fun meth => s!"%{cls.name}.{meth}"

/-- The loop of `descends`: up the bases from the class of that name, until the class sought. -/
def descends (cls name : String) : Bool :=
  match _hf : findClass m.classes name with
  | none => false
  | some c =>
    if c.name == cls then true
    else
      match _hb : c.base with
      | none => false
      | some b => descends cls b
termination_by m.base_wf.wrap name
decreasing_by exact ⟨c, _hf, _hb⟩

/-- The name of the function a class's constructor is. -/
def constructorOf (className : String) : String := s!"%{className}.constructor"

/-- A dynamic-keyed write that can miss or has to validate. -/
def keySetThrows (shapeId : String) : Bool :=
  match m.records.find? (·.id == shapeId) with
  | none => false
  | some shape =>
    match shape.indexValue with
    | none => true
    | some t => t == .dyn && 0 < shape.fieldCount

/-- The cases of the walk that set `throws`; `tdzIds` are the function's forward-captured locals. -/
def throwsAt (tdzIds : List String) : Kind → Bool
  | .throw | .rethrow | .runtimeFence => true
  | .varRef localId => tdzIds.contains localId
  | .dynCheck _ | .caughtCheck => true
  | .fieldIncDec fieldDyn => fieldDyn
  | .dynCall | .dynInvoke => true
  | .dynKeyGet => true
  | .dynDestrCheck | .dynIterN => true
  | .awaitExpr | .awaitUnionExpr => true
  | .intrinsic name => name == "module.await"
  | .yieldExpr => true
  | .genResume => true
  | .recordKeySet shapeId overflowOnly => !overflowOnly && m.keySetThrows shapeId
  | .jsonStringify vt => vt == .dyn || vt == .record || vt == .array || vt == .union
  | .jsOp | .jsExit | .jsMarshal | .jsBridgePromise => true
  | .libCall fn => mayThrowLibFns.contains fn
  | .ffiCall imported => m.callbackFfiImports.contains imported || m.manifestHasRetainedCallback
  | .bytesNew sourceType => sourceType == some .f64
  | .bytesIntrinsic method => mayThrowBytesMethods.contains method
  | .strIntrinsic method => mayThrowStrMethods.contains method
  | .arrIntrinsic method => mayThrowArrMethods.contains method
  | .arraySetLength => true
  | .regexIntrinsic method =>
    method == "replaceAll" || method == "split" || method == "matchAll" || method == "matchAllInto"
  | .toString _ | .call _ | .new _ | .newValue _ | .virtualCall _ | .callValue | .closure _ | .other => false

/-- The cases that push onto `callees`. -/
def calleesAt : Kind → List String
  | .toString operandType =>
    if m.errorDispatch && operandType == .dyn then [errorToStringDispatchFn] else []
  | .call callee => if m.suspended callee then [] else [callee]
  | .new className => [constructorOf className]
  | .newValue (some cls) => (m.classes.filter fun k => m.descends cls k.name).map fun k => constructorOf k.name
  | .virtualCall method => m.methodImpls method
  | _ => []

end Module

/-! ### The walk -/

/-- `Facts`: what a function does itself. -/
structure Facts where
  throws : Bool
  callees : List String
  callsValue : Bool
  deriving DecidableEq, Repr

/-- What the walk carries: the facts of the function it is in, and two sums over the module. -/
structure Walk where
  facts : Facts
  closureTargets : List String
  sawDynFuncAdapter : Bool
  deriving DecidableEq, Repr

namespace Module

variable (m : Module) (tdzIds : List String)

/-- The `switch` on one node. -/
def note (k : Kind) (w : Walk) : Walk where
  facts :=
    { throws := w.facts.throws || m.throwsAt tdzIds k
      callees := w.facts.callees ++ m.calleesAt k
      callsValue := w.facts.callsValue || k == .callValue }
  closureTargets :=
    match k with
    | .closure fnName => w.closureTargets ++ [fnName]
    | _ => w.closureTargets
  sawDynFuncAdapter := w.sawDynFuncAdapter || k == .dynCheck .func

mutual

/-- `visit` of a node: the node, then what is under it. -/
def visit : Node → Walk → Walk
  | .mk kind children, w => visitAll children (m.note tdzIds kind w)

/-- `visit` of an array. -/
def visitAll : List Node → Walk → Walk
  | [], w => w
  | n :: ns, w => visitAll ns (visit n w)

end

/-- The turn of the loop over the functions: the facts of one more, the targets and the flag. -/
def gather (acc : List (String × Facts) × List String × Bool) (fn : Fun) :
    List (String × Facts) × List String × Bool :=
  let tdzIds := (fn.locals.filter (·.tdz)).map Local.id
  let w := m.visitAll tdzIds fn.body ⟨⟨false, [], false⟩, acc.2.1, acc.2.2⟩
  (acc.1 ++ [(fn.name, w.facts)], w.closureTargets, w.sawDynFuncAdapter)

/-- `facts`, `closureTargets` and `sawDynFuncAdapter` after that loop. -/
def gathered : List (String × Facts) × List String × Bool := m.functions.foldl m.gather ([], [], false)

end Module

/-! ### The rounds -/

/-- The sets that grow: the functions that may throw, and whether a closure may. -/
structure State where
  may : List String
  indirect : Bool
  deriving DecidableEq, Repr

namespace Module

variable (m : Module)

/-- A closure target that may throw when it is called. -/
def throwingTarget (targets may : List String) : Bool := targets.any fun t => may.contains t && !m.suspended t

/-- The state before the first round. -/
def start : State :=
  let g := m.gathered
  let may := (g.1.filter fun f => f.2.throws).map Prod.fst
  ⟨may, g.2.2 || m.throwingTarget g.2.1 may⟩

/-- A function of the round: added when it calls one that is in, or a closure that may throw. -/
def sweep1 (indirect : Bool) (acc : List String × Bool) (f : String × Facts) : List String × Bool :=
  if acc.1.contains f.1 then acc
  else if (f.2.callsValue && indirect) || f.2.callees.any acc.1.contains then (acc.1 ++ [f.1], true)
  else acc

/-- The body of the `while` loop: the state after it, and `changed`. -/
def round (s : State) : State × Bool :=
  let g := m.gathered
  let r := g.1.foldl (sweep1 s.indirect) (s.may, false)
  if !s.indirect && m.throwingTarget g.2.1 r.1 then (⟨r.1, true⟩, true) else (⟨r.1, s.indirect⟩, r.2)

/-- The `while` loop, for at most so many rounds. -/
def loop : ℕ → State → Option State
  | 0, _ => none
  | n + 1, s =>
    let r := m.round s
    if r.2 then loop n r.1 else some r.1

/-- `computeMayThrow`, when its loop ends within the given number of rounds. -/
def computeMayThrow (rounds : ℕ) : Option State := m.loop rounds m.start

end Module

end MayThrow

end Scriptc
