import EntitySql.Text.Dotted
import EntitySql.Token

/-!
# Errors

Three families: the text is no query (`ParseError`), the query makes no sense against the entities or
cannot be bound (`QueryError`), and a broken rule of the compiler itself (`InternalError`).
`CompileError` joins them. Each family words its causes in one function `message`.
-/

namespace EntitySql

/-- A text that is no query, with the token at which that showed. -/
structure ParseError where
  reason : String
  token : Token
  deriving DecidableEq, Repr, Inhabited

def ParseError.message (e : ParseError) : String :=
  "ParseError: " ++ e.reason ++ "\n  at [" ++ toString e.token.start ++ ":" ++ toString e.token.stop
    ++ "] -> \x27" ++ e.token.text ++ "\x27 (" ++ e.token.kind.name ++ ")"

/-- A well-formed query that has no meaning against the entities, or values that do not fit it. -/
inductive QueryError where
  | unknownEntity (name : String)
  | unknownTable (name : String)
  | unknownAlias (label : String)
  | unknownRelation (entity relation : String)
  | unknownField (name : String) (candidates : List String)
  | ambiguousIdentifier (name : String) (found : List String)
  | noSubfields (field : String)
  | duplicateAlias (label : String)
  | duplicateResultAlias (label : String)
  | missingAlias (expression : String)
  | incompleteJoin (label reason : String)
  /-- A relation's filter leads back to itself. -/
  | endlessFilters
  | noSingleIdentifier (entity : String) (properties : List String)
  | unmatchedNamedParameter (name : String)
  | missingParameter (name : String)
  | invalidInOperand (field reason : String)
  | invalidOperator (operator condition : String)
  | queryConstruction (reason : String)
  | invalidValue (value target : String)
  deriving DecidableEq, Repr, Inhabited

/-- The name of the cause, by which callers tell errors apart. -/
def QueryError.name : QueryError → String
  | unknownEntity .. => "UnknownEntity"
  | unknownTable .. => "UnknownTable"
  | unknownAlias .. => "UnknownAlias"
  | unknownRelation .. => "UnknownRelation"
  | unknownField .. => "UnknownField"
  | ambiguousIdentifier .. => "AmbiguousIdentifier"
  | noSubfields .. => "NoSubfields"
  | duplicateAlias .. => "DuplicateAlias"
  | duplicateResultAlias .. => "DuplicateResultAlias"
  | missingAlias .. => "MissingAlias"
  | incompleteJoin .. => "IncompleteJoin"
  | endlessFilters => "EndlessFilters"
  | noSingleIdentifier .. => "NoSingleIdentifier"
  | unmatchedNamedParameter .. => "UnmatchedNamedParameter"
  | missingParameter .. => "MissingParameter"
  | invalidInOperand .. => "InvalidInOperand"
  | invalidOperator .. => "InvalidOperator"
  | queryConstruction .. => "QueryConstruction"
  | invalidValue .. => "InvalidValue"

def QueryError.message : QueryError → String
  | unknownEntity name => "Unknown entity: " ++ name
  | unknownTable name => "Unknown table: " ++ name
  | unknownAlias label => "Unknown alias: " ++ label
  | unknownRelation entity relation => "Unknown relation " ++ relation ++ " on " ++ entity
  | unknownField name candidates =>
    "Unknown field: " ++ name ++ " (candidates: " ++ Text.join ", " candidates ++ ")"
  | ambiguousIdentifier name found =>
    "Ambiguous identifier: " ++ name ++ " (matches: " ++ Text.join ", " found ++ ")"
  | noSubfields field => "Field " ++ field ++ " has no sub-properties"
  | duplicateAlias label => "Alias already registered: " ++ label
  | duplicateResultAlias label => "Duplicate result alias: " ++ label
  | missingAlias expression => "Expression needs an alias: " ++ expression
  | incompleteJoin label reason => "Cannot complete join " ++ label ++ ": " ++ reason
  | endlessFilters => "Relation filters nest without end"
  | noSingleIdentifier entity properties =>
    "Entity " ++ entity ++ " needs exactly one identifier property, has ["
      ++ Text.join ", " properties ++ "]"
  | unmatchedNamedParameter name => "No value for named parameter :" ++ name
  | missingParameter name => "Missing value for parameter " ++ name
  | invalidInOperand field reason => "Invalid IN operand for " ++ field ++ ": " ++ reason
  | invalidOperator operator condition =>
    "Unsupported operator \x27" ++ operator ++ "\x27 in condition " ++ condition
  | queryConstruction reason => "Invalid query construction: " ++ reason
  | invalidValue value target => "Cannot convert " ++ value ++ " to " ++ target

/-- A broken rule of the compiler. -/
inductive InternalError where
  | unknownNode (node : String)
  | unresolvedNamedParameter (name : String)
  | unnumberedParameter
  | mismatchedReplacement (slot replacement : String)
  | unbalancedWalk (reason : String)
  deriving DecidableEq, Repr, Inhabited

/-- The name of the broken rule. -/
def InternalError.name : InternalError → String
  | unknownNode .. => "UnknownNode"
  | unresolvedNamedParameter .. => "UnresolvedNamedParameter"
  | unnumberedParameter => "UnnumberedParameter"
  | mismatchedReplacement .. => "MismatchedReplacement"
  | unbalancedWalk .. => "UnbalancedWalk"

def InternalError.message : InternalError → String
  | unknownNode node => "Node " ++ node ++ " cannot be rendered here"
  | unresolvedNamedParameter name => "Named parameter :" ++ name ++ " reached the renderer"
  | unnumberedParameter => "Parameter reference without an ordinal reached the renderer"
  | mismatchedReplacement slot replacement =>
    "Cannot replace a " ++ slot ++ " node with a " ++ replacement ++ " node"
  | unbalancedWalk reason => "Walk stack unbalanced: " ++ reason

/-- Why a compilation failed. -/
inductive CompileError where
  | parse (e : ParseError)
  | query (e : QueryError)
  | internal (e : InternalError)
  deriving DecidableEq, Repr, Inhabited

namespace CompileError

/-- The family of the error and the name of its cause. -/
def name : CompileError → String
  | parse _ => "Parse"
  | query e => "Query." ++ e.name
  | internal e => "Internal." ++ e.name

def message : CompileError → String
  | parse e => e.message
  | query e => e.message
  | internal e => "Internal compiler error: " ++ e.message

def isInternal : CompileError → Bool
  | internal _ => true
  | _ => false

end CompileError

/-- A result that fails with `QueryError`, as part of a compilation. -/
def QueryError.lift {α : Type} : Except QueryError α → Except CompileError α
  | .ok a => .ok a
  | .error e => .error (.query e)

/-- A result that fails with `ParseError`, as part of a compilation. -/
def ParseError.lift {α : Type} : Except ParseError α → Except CompileError α
  | .ok a => .ok a
  | .error e => .error (.parse e)

end EntitySql
