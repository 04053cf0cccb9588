/-
What can go wrong, as causes, and the one place where a cause gets its words.

A refusal is the caller's doing and is only returned. A breach means the engine
itself is wrong. The rest comes from the store: a key that exists already, a call
that fails, a stored value that cannot be read.
-/
import PropertyGraph.Chain.Operation
import PropertyGraph.Json.Printer

namespace PropertyGraph

/-! ## Codes -/

/-- The codes hosts match on. -/
inductive Code where
  | chainEmpty
  | chainOperationNotAllowed
  | chainUnknownOperation
  | dslSyntax
  | argInvalid
  | argLabelRequired
  | argEndpointRequired
  | argInvalidToken
  | argReservedProperty
  | argPropertyKeyRequired
  | argNonScalarValue
  | argLimitInvalid
  | dataEndpointMissing
  | kvInvalidPattern
  | kvKeyExists
  | kvStorage
  | kvSerialization
  | invariantTraverserMismatch
  | invariantPlanMissingRoot
  | warnCorruptIndex
  | warnDanglingRecord
  | warnCleanupFailed
  | warnRuleSkipped
deriving DecidableEq, Repr

namespace Code

/-- Every code. -/
def all : List Code :=
  [.chainEmpty, .chainOperationNotAllowed, .chainUnknownOperation, .dslSyntax, .argInvalid,
    .argLabelRequired, .argEndpointRequired, .argInvalidToken, .argReservedProperty,
    .argPropertyKeyRequired, .argNonScalarValue, .argLimitInvalid, .dataEndpointMissing,
    .kvInvalidPattern, .kvKeyExists, .kvStorage, .kvSerialization, .invariantTraverserMismatch,
    .invariantPlanMissingRoot, .warnCorruptIndex, .warnDanglingRecord, .warnCleanupFailed,
    .warnRuleSkipped]

/-- The published spelling of a code. -/
def text : Code → String
  | .chainEmpty => "CHAIN_EMPTY"
  | .chainOperationNotAllowed => "CHAIN_OPERATION_NOT_ALLOWED"
  | .chainUnknownOperation => "CHAIN_UNKNOWN_OPERATION"
  | .dslSyntax => "DSL_SYNTAX"
  | .argInvalid => "ARG_INVALID"
  | .argLabelRequired => "ARG_LABEL_REQUIRED"
  | .argEndpointRequired => "ARG_ENDPOINT_REQUIRED"
  | .argInvalidToken => "ARG_INVALID_TOKEN"
  | .argReservedProperty => "ARG_RESERVED_PROPERTY"
  | .argPropertyKeyRequired => "ARG_PROPERTY_KEY_REQUIRED"
  | .argNonScalarValue => "ARG_NON_SCALAR_VALUE"
  | .argLimitInvalid => "ARG_LIMIT_INVALID"
  | .dataEndpointMissing => "DATA_ENDPOINT_MISSING"
  | .kvInvalidPattern => "KV_INVALID_PATTERN"
  | .kvKeyExists => "KV_KEY_EXISTS"
  | .kvStorage => "KV_STORAGE"
  | .kvSerialization => "KV_SERIALIZATION"
  | .invariantTraverserMismatch => "INVARIANT_TRAVERSER_MISMATCH"
  | .invariantPlanMissingRoot => "INVARIANT_PLAN_MISSING_ROOT"
  | .warnCorruptIndex => "WARN_CORRUPT_INDEX"
  | .warnDanglingRecord => "WARN_DANGLING_RECORD"
  | .warnCleanupFailed => "WARN_CLEANUP_FAILED"
  | .warnRuleSkipped => "WARN_REWRITE_SKIPPED"

/-- The code of a spelling. -/
def ofText? (s : String) : Option Code := all.find? (·.text == s)

@[simp]
theorem ofText?_text (c : Code) : ofText? c.text = some c := by cases c <;> decide

end Code

/-- Whose doing an error is. -/
inductive ErrorKind where
  | precondition
  | invariant
  | backend
deriving DecidableEq, Repr

def ErrorKind.name : ErrorKind → String
  | .precondition => "precondition"
  | .invariant => "invariant"
  | .backend => "backend"

/-! ## Causes -/

/-- What is wrong with the text of a query at some place. -/
inductive TextFault where
  /-- Another character, or the end, stands where `want` has to. -/
  | expected (want : Char) (found : Option Char)
  | expectedDotOrEnd (found : Char)
  | expectedName
  | expectedCommaOr (close found : Char)
  | unterminatedList (close : Char)
  | unexpectedWord (word : String)
  | unexpectedCharacter (found : Char)
  | unexpectedEnd
  | unterminatedEscape
  | unterminatedString
  | invalidNumber (text : String)
deriving DecidableEq, Repr

namespace TextFault

def quoteChar (c : Char) : String := "'" ++ c.toString ++ "'"

def message : TextFault → String
  | .expected want (some found) => "expected " ++ quoteChar want ++ ", found " ++ quoteChar found
  | .expected want none => "expected " ++ quoteChar want ++ ", found end of input"
  | .expectedDotOrEnd found => "expected '.' or end, found " ++ quoteChar found
  | .expectedName => "expected an operation name"
  | .expectedCommaOr close found =>
    "expected ',' or " ++ quoteChar close ++ ", found " ++ quoteChar found
  | .unterminatedList close => "unterminated list, expected " ++ quoteChar close
  | .unexpectedWord word => "unexpected word '" ++ word ++ "'"
  | .unexpectedCharacter found => "unexpected " ++ quoteChar found
  | .unexpectedEnd => "unexpected end of input"
  | .unterminatedEscape => "unterminated escape"
  | .unterminatedString => "unterminated string literal"
  | .invalidNumber text => "invalid number '" ++ text ++ "'"

end TextFault

/-- What is wrong with a key pattern. -/
inductive PatternFault where
  | empty
  | emptyToken
  | tailNotFinal
  | wildcardInToken
deriving DecidableEq, Repr

def PatternFault.message : PatternFault → String
  | .empty => "pattern must not be empty"
  | .emptyToken => "empty token"
  | .tailNotFinal => "'>' must be the final token"
  | .wildcardInToken => "wildcards must stand alone in a token"

/-- Why a caller's request is refused. -/
inductive Refusal where
  | emptyChain
  | notAllowed (op : Operation) (state : ResultType)
  | unknownOperation (name : String)
  | unreadable (fault : TextFault) (offset : Nat)
  | tooManyArguments (op : Operation) (most given : Nat)
  | valueMissing (op : Operation)
  | idNotString (op : Operation) (given : Json)
  | idEmpty (op : Operation)
  | argumentNotString (op : Operation) (given : Json)
  | argumentInvalid (op : Operation) (name : String)
  | vertexIdExpected (op : Operation) (given : Json)
  | labelExpected (op : Operation)
  | labelEmpty
  | labelInvalid (label : String)
  | endpointExpected (op : Operation)
  | endpointEmpty
  | endpointMissing (id : String)
  | idInvalid (id : String)
  | keyExpected (op : Operation)
  | filterKeyInvalid (op : Operation) (key : String)
  | propertyKeyEmpty
  | propertyReserved (key : String)
  | propertyKeyInvalid (key : String)
  | notScalar (op : Operation) (given : Json)
  | scalarMissing (op : Operation)
  | limitInvalid (op : Operation) (given : Option Json)
  | patternInvalid (pattern : String) (fault : PatternFault)
  | bucketInvalid (name : String)
  | logFilterInvalid
  /-- A check of the host's own. -/
  | host (code : Code) (message : String)
deriving DecidableEq

namespace Refusal

def code : Refusal → Code
  | .emptyChain => .chainEmpty
  | .notAllowed .. => .chainOperationNotAllowed
  | .unknownOperation _ => .chainUnknownOperation
  | .unreadable .. => .dslSyntax
  | .tooManyArguments .. | .valueMissing _ | .idNotString .. | .idEmpty _
  | .argumentNotString .. | .vertexIdExpected .. | .logFilterInvalid => .argInvalid
  | .argumentInvalid .. | .labelInvalid _ | .idInvalid _ | .filterKeyInvalid ..
  | .propertyKeyInvalid _ | .bucketInvalid _ => .argInvalidToken
  | .labelExpected _ | .labelEmpty => .argLabelRequired
  | .endpointExpected _ | .endpointEmpty => .argEndpointRequired
  | .endpointMissing _ => .dataEndpointMissing
  | .keyExpected _ | .propertyKeyEmpty => .argPropertyKeyRequired
  | .propertyReserved _ => .argReservedProperty
  | .notScalar .. | .scalarMissing _ => .argNonScalarValue
  | .limitInvalid .. => .argLimitInvalid
  | .patternInvalid .. => .kvInvalidPattern
  | .host code _ => code

/-- An operation as a message names it. -/
def called (op : Operation) : String := op.name ++ "()"

def message : Refusal → String
  | .emptyChain => "traversal has no operations"
  | .notAllowed op state =>
    "'" ++ op.name ++ "' is not allowed after a " ++ state.name ++ " step"
  | .unknownOperation name => "unknown operation '" ++ name ++ "'"
  | .unreadable fault offset => fault.message ++ " at offset " ++ offset.repr
  | .tooManyArguments op most given =>
    called op ++ " takes at most " ++ most.repr ++ " argument(s), got " ++ given.repr
  | .valueMissing op => called op ++ " requires a value"
  | .idNotString op given => called op ++ " ids must be strings, got " ++ given.text
  | .idEmpty op => called op ++ " ids must be non-empty strings"
  | .argumentNotString op given => called op ++ " arguments must be strings, got " ++ given.text
  | .argumentInvalid op name =>
    called op ++ " argument '" ++ name ++ "' is not a valid key token"
  | .vertexIdExpected op given => called op ++ " expects a vertex id, got " ++ given.text
  | .labelExpected op => called op ++ " requires a non-empty string label"
  | .labelEmpty => "label must be a non-empty string"
  | .labelInvalid label =>
    "label '" ++ label ++ "' must not contain '.', '*', '>' or whitespace"
  | .endpointExpected op => called op ++ " requires non-empty string endpoint ids"
  | .endpointEmpty => "edge endpoints must be non-empty vertex ids"
  | .endpointMissing id => "edge endpoint vertex '" ++ id ++ "' does not exist"
  | .idInvalid id => "id '" ++ id ++ "' is not a valid key token"
  | .keyExpected op => called op ++ " requires a non-empty string key"
  | .filterKeyInvalid op key => called op ++ " key '" ++ key ++ "' is not a valid key token"
  | .propertyKeyEmpty => "property key must be a non-empty string"
  | .propertyReserved key => "'" ++ key ++ "' is reserved and cannot be set as a property"
  | .propertyKeyInvalid key =>
    "property key '" ++ key ++ "' must not contain '.', '*', '>' or whitespace"
  | .notScalar op given => called op ++ " compares against scalars only, got " ++ given.text
  | .scalarMissing op => called op ++ " requires a value to compare against"
  | .limitInvalid op given =>
    called op ++ " requires a non-negative integer, got " ++
      (given.map Json.text).getD "nothing"
  | .patternInvalid pattern fault =>
    "invalid key pattern '" ++ pattern ++ "': " ++ fault.message
  | .bucketInvalid name => "bucket name '" ++ name ++ "' is not a valid key token"
  | .logFilterInvalid => "invalid log filter"
  | .host _ message => message

end Refusal

/-- How the engine breaks a promise of its own. -/
inductive Breach where
  /-- A step met an item of a type the grammar keeps from it. -/
  | traverserMismatch (step expected found : String)
  /-- A step was called in the manner of the other shape. -/
  | wrongShape (step : String) (called : Shape)
  | planMissingRoot
  /-- A check of the host's own. -/
  | host (code : Code) (message : String)
deriving DecidableEq, Repr

namespace Breach

def code : Breach → Code
  | .traverserMismatch .. | .wrongShape .. => .invariantTraverserMismatch
  | .planMissingRoot => .invariantPlanMissingRoot
  | .host code _ => code

def message : Breach → String
  | .traverserMismatch step expected found =>
    step ++ "() expects a " ++ expected ++ ", got " ++ found
  | .wrongShape step .factory => step ++ " is not a factory step"
  | .wrongShape step .transform => step ++ " is not a stream-transform step"
  | .planMissingRoot => "plan does not start with the root step"
  | .host _ message => message

end Breach

/-- The calls a store can fail. -/
inductive StoreCall where
  | get
  | put
  | update
  | create
  | delete
  | keys
  | stream
deriving DecidableEq, Repr

def StoreCall.name : StoreCall → String
  | .get => "get"
  | .put => "put"
  | .update => "update"
  | .create => "create"
  | .delete => "delete"
  | .keys => "keys"
  | .stream => "stream"

/-- Why a store does not answer. -/
inductive StorageFault where
  /-- A fault rule failed the call on purpose. -/
  | injected (call : StoreCall) (subject : String)
  | cannotOpen (path : String)
  | closed
deriving DecidableEq, Repr

def StorageFault.message : StorageFault → String
  | .injected call subject => "injected " ++ call.name ++ " " ++ subject
  | .cannotOpen path => "unable to open database file: " ++ path
  | .closed => "connection is closed"

/-- An error. -/
inductive Error where
  | refused (cause : Refusal)
  | broken (cause : Breach)
  | keyExists (key : String)
  | storage (fault : StorageFault)
  | serialization
deriving DecidableEq

namespace Error

def kind : Error → ErrorKind
  | .refused _ => .precondition
  | .broken _ => .invariant
  | .keyExists _ | .storage _ | .serialization => .backend

def code : Error → Code
  | .refused cause => cause.code
  | .broken cause => cause.code
  | .keyExists _ => .kvKeyExists
  | .storage _ => .kvStorage
  | .serialization => .kvSerialization

def message : Error → String
  | .refused cause => "precondition failed [" ++ cause.code.text ++ "]: " ++ cause.message
  | .broken cause => "invariant violated [" ++ cause.code.text ++ "]: " ++ cause.message
  | .keyExists key => "key already exists: " ++ key
  | .storage fault => "storage error: " ++ fault.message
  | .serialization => "serialization error"

end Error

end PropertyGraph
